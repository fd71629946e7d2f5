import DistributedLock.Raft.LeaderCompleteness

/-! What a commit index stands for. A leader counts a follower by the match index
of its answer, which is the end of the follower's whole log. That end is covered
by what the leader sent, or by the term of the follower's last entry, unless the
follower answers over a tail left from an older leader. In the runs without such
an answer every commit index covers a chosen prefix. -/

namespace DistributedLock.Raft

open Library

variable {ι F : Type*}

/-! ### Answers over a stale tail -/

/-- The follower holds every entry of the request already, its log goes on after
them, and its last entry is not of the request's term. -/
def RaftNode.StaleTail (n : RaftNode ι F) (r : AppendRequest F) : Prop :=
  n.Accepts r ∧
    r.entries.map LogEntry.term <+: (n.log.drop (r.prevLogIndex + 1)).map LogEntry.term ∧
    r.prevLogIndex + 1 + r.entries.length < n.log.length ∧ n.lastLogTerm ≠ r.term

instance (n : RaftNode ι F) (r : AppendRequest F) : Decidable (n.StaleTail r) :=
  inferInstanceAs (Decidable (_ ∧ _ ∧ _ ∧ _))

/-- The request a step handles on its callee. -/
def Cluster.delivered (s : Cluster ι F) : Action ι F → Option (AppendCall ι F)
  | .handleAppendEntries k => s.appendCalls[k]?
  | _ => none

/-- The step does not answer over a stale tail. -/
def FreshTail (s : Cluster ι F) (a : Action ι F) : Prop :=
  ∀ call ∈ s.delivered a, ¬ (s.node call.callee).StaleTail call.request

instance (s : Cluster ι F) (a : Action ι F) : Decidable (FreshTail s a) :=
  inferInstanceAs (Decidable (∀ call ∈ s.delivered a, _))

theorem FreshTail.not_staleTail {s : Cluster ι F} {k : ℕ} {call : AppendCall ι F}
    (h : FreshTail s (.handleAppendEntries k)) (hk : s.appendCalls[k]? = some call) :
    ¬ (s.node call.callee).StaleTail call.request := h call hk

/-- Then the follower's whole log is the leader's. -/
theorem LogInv.prefix_of_fresh [Zero F] {s : Cluster ι F} {g : History ι F} (hl : LogInv s g)
    {call : AppendCall ι F} (hmem : call ∈ s.appendCalls)
    (ha : (s.node call.callee).Accepts call.request)
    (hf : ¬ (s.node call.callee).StaleTail call.request) :
    ((s.node call.callee).handleAppendEntries call.request).1.log <+:
      g.termLog call.request.term := by
  obtain ⟨sent, hsent, hlen, hdrop, ⟨hlog, hp⟩ | ⟨hlog, -⟩⟩ := hl.accepted hmem ha <;> rw [hlog]
  · by_cases hlonger : sent.length < (s.node call.callee).log.length
    · -- the last entry is of the leader's own term
      have hterm : (s.node call.callee).lastLogTerm = call.request.term := by
        by_contra hne
        refine hf ⟨ha, ?_, by omega, hne⟩
        rw [← hdrop]
        exact (hp.drop _).map _
      exact hterm ▸ (hl.node call.callee).prefix_lastTerm
    · rwa [← hp.eq_of_length_le (not_lt.mp hlonger)]
  · exact hsent

/-! ### Committed prefixes -/

/-- The log up to `m` is part of a prefix that was chosen in a term up to `T`. -/
def Committed [Fintype ι] (g : History ι F) (T : ℕ) (log : List (LogEntry F)) (m : ℕ) : Prop :=
  m < log.length ∧ (m = 0 ∨ ∃ U l, U ≤ T ∧ Chosen g U l ∧ log.take (m + 1) <+: l)

section Committed

variable {g g' : History ι F} {T T' m : ℕ} {log log' : List (LogEntry F)}

theorem Held.mono {j : ι} {l : List (LogEntry F)} (h : Held g j T l)
    (hh : ∀ j T l, g.held j T l → g'.held j T l) : Held g' j T l :=
  h.imp fun _ hl => ⟨hh _ _ _ hl.1, hl.2⟩

theorem Held.of_isPrefix {j : ι} {l l' : List (LogEntry F)} (h : Held g j T l) (hp : l' <+: l) :
    Held g j T l' := h.imp fun _ hl => ⟨hl.1, hp.trans hl.2⟩

variable [Fintype ι]

theorem Chosen.mono {l : List (LogEntry F)} (h : Chosen g T l)
    (hg : ∀ U, g.termLog U <+: g'.termLog U) (hh : ∀ j T l, g.held j T l → g'.held j T l) :
    Chosen g' T l :=
  ⟨h.made.trans (hg T), h.last, h.quorum.imp fun _ hQ => ⟨hQ.1, fun j hj => (hQ.2 j hj).mono hh⟩⟩

theorem Committed.mono (h : Committed g T log m) (hg : ∀ U, g.termLog U <+: g'.termLog U)
    (hh : ∀ j T l, g.held j T l → g'.held j T l) (hT : T ≤ T') : Committed g' T' log m :=
  h.imp_right (Or.imp_right fun ⟨U, l, hU, hc, hp⟩ => ⟨U, l, hU.trans hT, hc.mono hg hh, hp⟩)

/-- Only the log up to the commit index matters. -/
theorem Committed.congr (h : Committed g T log m) (hp : log.take (m + 1) <+: log') :
    Committed g T log' m := by
  have hlen := hp.length_le
  have htake : log'.take (m + 1) = log.take (m + 1) := by
    rw [take_eq_of_isPrefix hp (by rw [List.length_take]; have := h.1; omega), List.take_take,
      min_self]
  refine ⟨?_, ?_⟩
  · rw [List.length_take] at hlen
    have := h.1
    omega
  · rw [htake]
    exact h.2

/-- The leader of every later term has it. -/
theorem Committed.prefix_termLog [DecidableEq ι] [Zero F] {s : Cluster ι F} (h : Committed g T log m)
    (hl : LogInv s g) (hv : VoteInv s g) (hlog : LogOk g.termLog T log) (hT : T ≤ T')
    (hleader : LogOk g.termLog T' (g.termLog T')) : log.take (m + 1) <+: g.termLog T' := by
  obtain ⟨-, rfl | ⟨U, l, hU, hc, hp⟩⟩ := h
  · have h1 := hlog.sentinel
    have h2 := hleader.sentinel
    cases hcl : log with
    | nil => simp
    | cons x rest =>
      cases htl : g.termLog T' with
      | nil => simp [htl] at h2
      | cons y rest' =>
        rw [hcl] at h1
        rw [htl] at h2
        simp only [List.getElem?_cons_zero, Option.some.injEq] at h1 h2
        simp [h1, h2]
  · refine hp.trans (hc.prefix_termLog hl hv (hU.trans hT) ?_)
    rintro hnil
    have := hleader.sentinel
    rw [hnil] at this
    simp at this

end Committed

/-- The nodes a leader counts for an index. -/
def RaftNode.counted [Fintype ι] [DecidableEq ι] (i : ι) (n : RaftNode ι F) (m : ℕ) : Finset ι :=
  Finset.univ.filter fun j => j = i ∨ m ≤ n.matchIndex j

/-! ### The invariant of a cluster -/

structure CommitInv [Fintype ι] (s : Cluster ι F) (g : History ι F) : Prop where
  matched : ∀ i, (s.node i).state = .leader → ∀ p, (s.node i).matchIndex p = 0 ∨
    ((s.node i).matchIndex p < (s.node i).log.length ∧
      Held g p (s.node i).currentTerm ((s.node i).log.take ((s.node i).matchIndex p + 1)))
  answer : ∀ call ∈ s.appendCalls, ∀ r, call.response = some r → r.success = true →
    ∃ l, l <+: g.termLog call.request.term ∧ l.length = r.matchIndex + 1 ∧
      g.held call.callee call.request.term l
  request : ∀ call ∈ s.appendCalls, Committed g call.request.term
    ((g.termLog call.request.term).take
      (call.request.prevLogIndex + 1 + call.request.entries.length)) call.request.leaderCommit
  commit : ∀ i, Committed g (s.node i).currentTerm (s.node i).log (s.node i).commitIndex

namespace CommitInv

variable [Fintype ι] [DecidableEq ι] [Zero F] {c : ClusterConfig ι} {s s' : Cluster ι F}
  {g : History ι F} {a : Action ι F}

/-- A step keeps the committed part of every log. -/
theorem retained (h : CommitInv s g) (hl : LogInv s g) (hv : VoteInv s g)
    (hstep : s.step c a = some s') (j : ι) :
    (s.node j).log.take ((s.node j).commitIndex + 1) <+: (s'.node j).log := by
  obtain ⟨-, heq | ⟨x, -, -, -, heq⟩ | ⟨call, hmem, rfl, ha, heq⟩⟩ :=
    (Cluster.step_node hstep j).log_cases
  · rw [heq]; exact List.take_prefix _ _
  · rw [heq]; exact (List.take_prefix _ _).trans (List.prefix_append _ _)
  · have hcommit := h.commit call.callee
    have hleader := hcommit.prefix_termLog hl hv (hl.node _) ha.1 (hl.leaderLog hmem)
    obtain ⟨sent, hsent, -, -, ⟨hlog, -⟩ | ⟨hlog, m, hm, htake, hend⟩⟩ := hl.accepted hmem ha <;>
      rw [heq, hlog]
    · exact List.take_prefix _ _
    · -- the first difference lies above the commit index
      have hlt : (s.node call.callee).commitIndex < m := by
        by_contra hle
        have hlen := hcommit.1
        obtain hm | ⟨x, y, hx, hy, hne⟩ := hend
        · omega
        have hx' : ((s.node call.callee).log.take ((s.node call.callee).commitIndex + 1))[m]? =
            some x := by rwa [List.getElem?_take_of_lt (by omega)]
        have h1 := prefix_iff_forall_getElem?.mp hleader m x hx'
        rw [prefix_iff_forall_getElem?.mp hsent m y hy, Option.some.injEq] at h1
        exact hne h1.symm
      have hp : (s.node call.callee).log.take ((s.node call.callee).commitIndex + 1) <+:
          (s.node call.callee).log.take m := List.take_prefix_take_left (by omega)
      exact (htake ▸ hp).trans (List.take_prefix _ _)

omit [DecidableEq ι] [Zero F] in
/-- A prefix of the leader's log that ends in the leader's term is chosen when a
majority holds it. -/
theorem committed_of_majority {log : List (LogEntry F)} {T m : ℕ}
    (hmade : log <+: g.termLog T) (ht : RaftNode.termAt log m = some T) {Q : Finset ι}
    (hQ : Majority Q) (hheld : ∀ j ∈ Q, Held g j T (log.take (m + 1))) :
    Committed g T log m := by
  obtain ⟨e, he, rfl⟩ := Option.map_eq_some_iff.mp ht
  have hlt := (List.getElem?_eq_some_iff.mp he).1
  refine ⟨hlt, Or.inr ⟨_, log.take (m + 1), le_rfl, ⟨?_, ?_, Q, hQ, hheld⟩, List.prefix_refl _⟩⟩
  · exact (List.take_prefix _ _).trans hmade
  · refine lastTerm_of_getLast? ?_
    rw [List.getLast?_eq_getElem?, List.length_take, min_eq_left hlt, Nat.add_sub_cancel,
      List.getElem?_take_of_lt (Nat.lt_succ_self m), he]

omit [Fintype ι] [DecidableEq ι] [Zero F] in
theorem held_mono (j : ι) (T : ℕ) (l : List (LogEntry F)) (h : g.held j T l) :
    (History.record s a s' g).held j T l := Cluster.held_iff.mpr (Or.inl h)

theorem matched_step (h : CommitInv s g) (hk : RaftInv c s g) (hstep : s.step c a = some s') (i : ι)
    (hs : (s'.node i).state = .leader) (p : ι) : (s'.node i).matchIndex p = 0 ∨
      ((s'.node i).matchIndex p < (s'.node i).log.length ∧
        Held (History.record s a s' g) p (s'.node i).currentTerm
          ((s'.node i).log.take ((s'.node i).matchIndex p + 1))) := by
  rcases (Cluster.step_node hstep i).leader_cases hs with ⟨-, hi⟩ | ⟨hs, ht, hp, hm⟩
  · exact Or.inl (by rw [hi]; rfl)
  -- a match index below the end of the old log
  have hset : ∀ m, (s'.node i).matchIndex p = m → (m = 0 ∨ (m < (s.node i).log.length ∧
      Held g p (s.node i).currentTerm ((s.node i).log.take (m + 1)))) →
      (s'.node i).matchIndex p = 0 ∨ ((s'.node i).matchIndex p < (s'.node i).log.length ∧
        Held (History.record s a s' g) p (s'.node i).currentTerm
          ((s'.node i).log.take ((s'.node i).matchIndex p + 1))) := by
    rintro m rfl hm
    refine hm.imp_right fun ⟨hlt, hheld⟩ => ⟨hlt.trans_le hp.length_le, ?_⟩
    rw [ht, take_eq_of_isPrefix hp hlt]
    exact hheld.mono held_mono
  rcases hm with hm | ⟨call, hmem, -, hterm, r, hr, hsucc, hm⟩
  · exact hset _ (congrFun hm p) (h.matched i hs p)
  by_cases hpc : p = call.callee
  · subst hpc
    rw [hm, Function.update_self] at hset ⊢
    rcases le_total r.matchIndex ((s.node i).matchIndex call.callee) with hle | hle
    · exact hset _ (max_eq_left hle) (h.matched i hs _)
    · refine hset _ (max_eq_right hle) (Or.inr ?_)
      obtain ⟨l, hl, hlen, hheld⟩ := h.answer call hmem r hr hsucc
      rw [hterm, hk.log.leads i hs] at hl
      rw [hterm] at hheld
      refine ⟨by have := hl.length_le; omega, l, hheld, ?_⟩
      rw [List.prefix_iff_eq_take.mp hl, hlen]
  · exact hset _ (by rw [hm, Function.update_of_ne hpc]) (h.matched i hs p)

theorem answer_step (h : CommitInv s g) (hk : RaftInv c s g) (hstep : s.step c a = some s')
    (hfresh : FreshTail s a) : ∀ call ∈ s'.appendCalls, ∀ r, call.response = some r →
      r.success = true → ∃ l, l <+: (History.record s a s' g).termLog call.request.term ∧
        l.length = r.matchIndex + 1 ∧
        (History.record s a s' g).held call.callee call.request.term l := by
  have hgrow := hk.log.grows hk.election hstep
  intro call' hmem' r hr hsucc
  rcases Cluster.appendCalls_cases hstep hmem' with
    ⟨call, hmem, -, h2, h3, hresp | ⟨⟨k, rfl, hcall⟩, hn, hresp⟩⟩ | ⟨-, hnone, -⟩
  · rw [h2, h3]
    obtain ⟨l, hl, hlen, hheld⟩ := h.answer call hmem r (hresp ▸ hr) hsucc
    exact ⟨l, hl.trans (hgrow _), hlen, held_mono _ _ _ hheld⟩
  · -- the follower has just answered
    rw [hr, Option.some.injEq] at hresp
    subst hresp
    have ha : (s.node call.callee).Accepts call.request := by
      by_contra ha
      rw [((s.node call.callee).handleAppendEntries_rejects ha).2.1] at hsucc
      cases hsucc
    have hlog := hk.log.prefix_of_fresh hmem ha (hfresh.not_staleTail hcall)
    obtain ⟨he, hr', -⟩ := (s.node call.callee).handleAppendEntries_accepts ha
    have hpos := (List.getElem?_eq_some_iff.mp
      ((hk.log.step hk.election hstep).node call.callee).sentinel).1
    have hnow := (hk.held.step hk.log hk.election hstep).now call.callee
    rw [hn] at hnow hpos
    rw [(s.node call.callee).handleAppendEntries_term ha] at hnow
    rw [h2, h3]
    refine ⟨_, hlog.trans (hgrow _), ?_, hnow⟩
    rw [hr', ← he]
    dsimp only
    omega
  · rw [hnone] at hr
    cases hr

theorem request_step (h : CommitInv s g) (hk : RaftInv c s g) (hstep : s.step c a = some s') :
    ∀ call ∈ s'.appendCalls, Committed (History.record s a s' g) call.request.term
      (((History.record s a s' g).termLog call.request.term).take
        (call.request.prevLogIndex + 1 + call.request.entries.length))
      call.request.leaderCommit := by
  have hgrow := hk.log.grows hk.election hstep
  intro call' hmem'
  rcases Cluster.appendCalls_cases hstep hmem' with
    ⟨call, hmem, -, -, h3, -⟩ | ⟨hs, -, hterm, hcommit, hprev, hentries⟩
  · rw [h3]
    refine ((h.request call hmem).mono hgrow held_mono le_rfl).congr ?_
    exact (List.take_prefix _ _).trans ((hgrow _).take _)
  · have hlen : call'.request.prevLogIndex + 1 + call'.request.entries.length =
        (s.node call'.caller).log.length := by
      rw [hentries, List.length_drop]
      omega
    rw [hterm, hcommit, hlen]
    refine ((h.commit call'.caller).mono hgrow held_mono le_rfl).congr ?_
    refine (List.take_prefix _ _).trans ?_
    have hmade := (hk.log.leads _ hs) ▸ hgrow (s.node call'.caller).currentTerm
    rw [take_eq_of_isPrefix hmade le_rfl, List.take_length]

omit [Zero F] in
theorem counted_majority {n : RaftNode ι F} {i : ι} {m : ℕ}
    (hq : (c.node i).quorumSize ≤ n.replicated (c.node i) m) : Majority (n.counted i m) := by
  have hset : n.counted i m =
      insert i (((c.peers i).filter fun p => m ≤ n.matchIndex p).toFinset) := by
    ext j
    simp only [RaftNode.counted, Finset.mem_filter, Finset.mem_univ, true_and, Finset.mem_insert,
      List.mem_toFinset, List.mem_filter, c.mem_peers_iff, decide_eq_true_eq]
    tauto
  have hnodup : ((c.peers i).filter fun p => m ≤ n.matchIndex p).Nodup :=
    (c.peers_nodup i).filter _
  unfold Majority
  rw [hset, Finset.card_insert_of_notMem (by simp [c.mem_peers_iff]),
    List.toFinset_card_of_nodup hnodup, ← c.peers_length i]
  simp only [NodeConfig.quorumSize, RaftNode.replicated] at hq
  simp only [ClusterConfig.peers] at hq ⊢
  omega

/-- Every node counted for an index has held the leader's log up to there. -/
theorem held_of_counted (hk : RaftInv c s g) {i : ι}
    (hm : ∀ p, (s.node i).matchIndex p = 0 ∨
      ((s.node i).matchIndex p < (s.node i).log.length ∧
        Held g p (s.node i).currentTerm ((s.node i).log.take ((s.node i).matchIndex p + 1))))
    {m : ℕ} (hpos : 0 < m) {j : ι} (hj : j ∈ (s.node i).counted i m) :
    Held g j (s.node i).currentTerm ((s.node i).log.take (m + 1)) := by
  simp only [RaftNode.counted, Finset.mem_filter, Finset.mem_univ, true_and] at hj
  rcases hj with rfl | hj
  · exact ⟨_, hk.held.now j, List.take_prefix _ _⟩
  · obtain h0 | ⟨-, hheld⟩ := hm j
    · omega
    · exact hheld.of_isPrefix (List.take_prefix_take_left (by omega))

omit [DecidableEq ι] in
/-- A follower takes over the commit index of a request. -/
theorem commit_of_request (h : CommitInv s g) (hk : RaftInv c s g) {call : AppendCall ι F}
    (hmem : call ∈ s.appendCalls) (ha : (s.node call.callee).Accepts call.request) :
    Committed g call.request.term
      ((s.node call.callee).handleAppendEntries call.request).1.log call.request.leaderCommit := by
  obtain ⟨sent, hsent, hlen, -, hlog⟩ := hk.log.accepted hmem ha
  have htake : (g.termLog call.request.term).take
      (call.request.prevLogIndex + 1 + call.request.entries.length) = sent := by
    rw [← hlen, take_eq_of_isPrefix hsent le_rfl, List.take_length]
  refine (htake ▸ h.request call hmem).congr ((List.take_prefix _ _).trans ?_)
  rcases hlog with ⟨hlog, hp⟩ | ⟨hlog, -⟩ <;> rw [hlog]
  exact hp

/-- A node without peers is a majority by itself. -/
theorem commit_alone (hk : RaftInv c s g) {i : ι} (hp : c.peers i = [])
    (hs : (s.node i).state = .leader) {m : ℕ}
    (ht : RaftNode.termAt (s.node i).log m = some (s.node i).currentTerm) :
    Committed g (s.node i).currentTerm (s.node i).log m := by
  have hQ : Majority ({i} : Finset ι) := by
    unfold Majority
    rw [← c.peers_length i, hp]
    simp
  refine committed_of_majority (hk.log.leads i hs ▸ List.prefix_refl _) ht hQ fun j hj => ?_
  obtain rfl := Finset.mem_singleton.mp hj
  exact ⟨_, hk.held.now j, List.take_prefix _ _⟩

theorem commit_step (h : CommitInv s g) (hk : RaftInv c s g) (hstep : s.step c a = some s') (i : ι) :
    Committed (History.record s a s' g) (s'.node i).currentTerm (s'.node i).log
      (s'.node i).commitIndex := by
  have hgrow := hk.log.grows hk.election hstep
  have hk' := hk.step hstep
  have hold : Committed (History.record s a s' g) (s'.node i).currentTerm (s'.node i).log
      (s.node i).commitIndex :=
    ((h.commit i).mono hgrow held_mono (Cluster.step_node hstep i).log_cases.1).congr
      (h.retained hk.log hk.vote hstep i)
  rcases (Cluster.step_node hstep i).commit_cases with
    heq | ⟨call, hmem, rfl, ha, hn⟩ | ⟨hs, hlog, hlt, ht, hq⟩ | ⟨hp, hs, e, hn⟩
  · rwa [heq]
  · -- a follower takes over the leader's commit index
    obtain ⟨hlog, -, hc⟩ := (s.node call.callee).handleAppendEntries_accepts ha
    have ht := (s.node call.callee).handleAppendEntries_term ha
    rw [← hn] at hlog hc ht
    rw [← hlog] at hc
    split_ifs at hc with hlt
    · have hcommit : Committed (History.record s a s' g) call.request.term
          ((s.node call.callee).handleAppendEntries call.request).1.log call.request.leaderCommit :=
        (h.commit_of_request hk hmem ha).mono hgrow held_mono le_rfl
      rw [← hn] at hcommit
      have := hcommit.1
      rwa [hc, ht, min_eq_left (by omega)]
    · rwa [hc]
  · -- a leader counts a majority
    exact committed_of_majority (hk'.log.leads i hs ▸ List.prefix_refl _) ht (counted_majority hq)
      fun j hj => held_of_counted hk' (h.matched_step hk hstep i hs) (by omega) hj
  · obtain ⟨hlog, ht, -, hs', -, -, hc⟩ := (s.node i).appendStamped_frame (c.node i) e
    rw [← hn] at hlog ht hs' hc
    refine commit_alone hk' hp (hs'.trans hs) ?_
    rw [hc.trans (if_pos hp), hlog, ht]
    simp [RaftNode.termAt]

omit [DecidableEq ι] in
theorem init (c : ClusterConfig ι) :
    CommitInv (Cluster.start c : Cluster ι F) (History.start c) := by
  refine ⟨fun i _ p => Or.inl ?_, by simp [Cluster.start], by simp [Cluster.start], fun i => ?_⟩
  · obtain ⟨-, -, -, hm⟩ := RaftNode.start_frame (F := F) (c.node i)
    rw [Cluster.start_node, hm]
  · obtain ⟨hlog, hc, -⟩ := RaftNode.start_frame (F := F) (c.node i)
    rw [Cluster.start_node, hlog, hc]
    exact ⟨by simp, Or.inl rfl⟩

theorem step (h : CommitInv s g) (hk : RaftInv c s g) (hstep : s.step c a = some s')
    (hfresh : FreshTail s a) : CommitInv s' (History.record s a s' g) :=
  ⟨h.matched_step hk hstep, h.answer_step hk hstep hfresh, h.request_step hk hstep,
    h.commit_step hk hstep⟩

end CommitInv

end DistributedLock.Raft
