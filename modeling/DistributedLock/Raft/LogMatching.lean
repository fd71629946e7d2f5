import DistributedLock.Library.Stamped
import DistributedLock.Raft.ElectionSafety

/-! Log matching. Beside the run stands the log the leader of each term has made
so far; it only grows. Every log, and every request in flight, is up to each of
its entries what the leader of that entry's term had. The append loop of a
follower keeps this, whatever snapshot of the leader's log the request holds. -/

namespace DistributedLock.Raft

open Library

variable {ι F : Type*}

/-! ### The append loop -/

section AppendLoop

variable {log pre es : List (LogEntry F)}

theorem RaftNode.appendLoop_end (pre es : List (LogEntry F)) :
    RaftNode.appendLoop pre pre.length es = pre ++ es := by
  induction es generalizing pre with
  | nil => simp [RaftNode.appendLoop]
  | cons x es ih =>
    have h := ih (pre ++ [x])
    simp only [List.length_append, List.length_singleton, List.append_assoc,
      List.singleton_append] at h
    simp [RaftNode.appendLoop, h]

/-- The loop leaves a log alone that holds all the entries already, and else makes
it what the leader sent, from the first difference on. -/
theorem RaftNode.appendLoop_cases (hpre : pre <+: log)
    (hterm : ∀ (k : ℕ) e e', log[k]? = some e → (pre ++ es)[k]? = some e' → e.term = e'.term →
      e = e') :
    (appendLoop log pre.length es = log ∧ pre ++ es <+: log) ∨
      (appendLoop log pre.length es = pre ++ es ∧ ∃ m, m < (pre ++ es).length ∧
        log.take m = (pre ++ es).take m ∧
        (m = log.length ∨ ∃ a b, log[m]? = some a ∧ (pre ++ es)[m]? = some b ∧ a ≠ b)) := by
  induction es generalizing pre with
  | nil => exact Or.inl ⟨rfl, by simpa using hpre⟩
  | cons x es ih =>
    have hassoc : pre ++ [x] ++ es = pre ++ x :: es := by simp
    have hnew : (pre ++ x :: es)[pre.length]? = some x := by simp
    have htake : log.take pre.length = pre := (List.prefix_iff_eq_take.mp hpre).symm
    have happ : appendLoop (pre ++ [x]) (pre.length + 1) es = pre ++ x :: es := by
      have h := appendLoop_end (pre ++ [x]) es
      rwa [List.length_append, List.length_singleton, hassoc] at h
    unfold appendLoop
    cases hold : log[pre.length]? with
    | none =>
      -- the log ends here
      have hlen : log.length = pre.length :=
        le_antisymm (List.getElem?_eq_none_iff.mp hold) hpre.length_le
      have hlog : log = pre := by rw [← htake, ← hlen, List.take_length]
      right
      refine ⟨by simpa [hlog] using happ, pre.length, by simp, by simp [htake], Or.inl hlen.symm⟩
    | some old =>
      by_cases ht : old.term = x.term
      · obtain rfl := hterm _ old x hold hnew ht
        have hlonger : pre ++ [old] <+: log := by
          refine prefix_iff_forall_getElem?.mpr fun k e hk => ?_
          rcases Nat.lt_succ_iff_lt_or_eq.mp (show k < pre.length + 1 by
            have := (List.getElem?_eq_some_iff.mp hk).1
            simpa using this) with hlt | rfl
          · rw [List.getElem?_append_left hlt] at hk
            exact prefix_iff_forall_getElem?.mp hpre k e hk
          · simpa [hold] using hk
        have h := ih hlonger (by rwa [hassoc])
        rw [hassoc, List.length_append, List.length_singleton] at h
        simpa using h
      · right
        simp only [ne_eq, ht, not_false_eq_true, ↓reduceIte, htake]
        refine ⟨happ, pre.length, by simp, by simp [htake], Or.inr ⟨old, x, hold, hnew, ?_⟩⟩
        exact fun he => ht (congrArg LogEntry.term he)

/-- The consistency check says more than it reads. -/
theorem RaftNode.prefix_of_matches {log pre : List (LogEntry F)} {r : AppendRequest F}
    (hhead : log[0]? = pre[0]?) (hmatch : Matches LogEntry.term log pre)
    (hlen : pre.length = r.prevLogIndex + 1) (hterm : termAt pre r.prevLogIndex = some r.prevLogTerm)
    (hm : prevLogMatches log r = true) : pre <+: log := by
  obtain ⟨e', he', ht'⟩ := Option.map_eq_some_iff.mp hterm
  have hfind : ∃ e, log[r.prevLogIndex]? = some e ∧ e.term = e'.term := by
    simp only [prevLogMatches, decide_eq_true_eq] at hm
    rcases hm with h0 | ⟨-, hm⟩
    · rw [h0] at he' ⊢
      exact ⟨e', hhead.trans he', rfl⟩
    · obtain ⟨e, he, ht⟩ := Option.map_eq_some_iff.mp hm
      exact ⟨e, he, ht.trans ht'.symm⟩
  obtain ⟨e, he, ht⟩ := hfind
  have htake := hmatch he he' ht
  rw [List.take_of_length_le (l := pre) (by rw [hlen])] at htake
  exact htake ▸ List.take_prefix _ _

end AppendLoop

/-! ### Logs and requests -/

abbrev CoherentLog (tl : ℕ → List (LogEntry F)) (log : List (LogEntry F)) : Prop :=
  Coherent LogEntry.term tl log

/-- A log of a node in term `T`. -/
structure LogOk [Zero F] (tl : ℕ → List (LogEntry F)) (T : ℕ) (log : List (LogEntry F)) :
    Prop where
  coherent : CoherentLog tl log
  sentinel : log[0]? = some .sentinel
  sorted : log.Pairwise (·.term ≤ ·.term)
  bound : ∀ e ∈ log, e.term ≤ T

namespace LogOk

variable [Zero F] {tl tl' : ℕ → List (LogEntry F)} {T T' : ℕ} {log log' : List (LogEntry F)}

theorem mono (h : LogOk tl T log) (htl : ∀ U, tl U <+: tl' U) (hT : T ≤ T') : LogOk tl' T' log :=
  ⟨h.coherent.mono htl, h.sentinel, h.sorted, fun e he => (h.bound e he).trans hT⟩

theorem of_isPrefix (h : LogOk tl T log) (hp : log' <+: log) (hpos : 0 < log'.length) :
    LogOk tl T log' := by
  refine ⟨h.coherent.of_isPrefix hp, ?_, h.sorted.sublist hp.sublist,
    fun e he => h.bound e (hp.subset he)⟩
  have h0 := hp.getElem hpos
  rw [List.getElem?_eq_getElem hpos, h0, ← List.getElem?_eq_getElem, h.sentinel]

/-- Only the leader of `T` makes entries of term `T`. -/
theorem term_lt (h : LogOk tl T log) (hT : tl T = []) {e : LogEntry F} (he : e ∈ log) :
    e.term < T := by
  refine lt_of_le_of_ne (h.bound e he) ?_
  rintro rfl
  obtain ⟨k, hk⟩ := List.mem_iff_getElem?.mp he
  have hp := h.coherent k e hk
  rw [hT, List.prefix_nil, List.take_eq_nil_iff] at hp
  rcases hp with hp | rfl
  · omega
  · cases he

/-- A leader of `T` appends an entry of its term. -/
theorem concat (h : LogOk tl T log) {x : LogEntry F} (hx : x.term = T)
    (hp : log ++ [x] <+: tl T) : LogOk tl T (log ++ [x]) := by
  have h0 : 0 < log.length := (List.getElem?_eq_some_iff.mp h.sentinel).1
  refine ⟨h.coherent.concat (hx ▸ hp), ?_, ?_, ?_⟩
  · rw [List.getElem?_append_left h0, h.sentinel]
  · rw [List.pairwise_append]
    refine ⟨h.sorted, List.pairwise_singleton _ _, fun a ha b hb => ?_⟩
    obtain rfl := List.mem_singleton.mp hb
    exact hx ▸ h.bound a ha
  · intro e he
    rcases List.mem_append.mp he with he | he
    · exact h.bound e he
    · obtain rfl := List.mem_singleton.mp he
      exact hx.le

end LogOk

/-- `log` is the log of the leader of the request's term when the request was
built: `pre` up to the entry before the first one sent, and then what was sent. -/
structure RequestOk (tl : ℕ → List (LogEntry F)) (r : AppendRequest F)
    (pre : List (LogEntry F)) : Prop where
  length : pre.length = r.prevLogIndex + 1
  prevTerm : RaftNode.termAt pre r.prevLogIndex = some r.prevLogTerm
  made : pre ++ r.entries <+: tl r.term

theorem RequestOk.mono {tl tl' : ℕ → List (LogEntry F)} {r : AppendRequest F}
    {pre : List (LogEntry F)} (h : RequestOk tl r pre) (htl : ∀ U, tl U <+: tl' U) :
    RequestOk tl' r pre := ⟨h.length, h.prevTerm, h.made.trans (htl _)⟩

section Accept

variable [Zero F] {tl : ℕ → List (LogEntry F)} {T : ℕ} {n : RaftNode ι F} {r : AppendRequest F}
  {pre : List (LogEntry F)}

theorem RequestOk.prefix_of_matches (h : RequestOk tl r pre) {log : List (LogEntry F)}
    (hlog : LogOk tl T log) (hleader : LogOk tl r.term (tl r.term))
    (hm : RaftNode.prevLogMatches log r = true) : pre <+: log := by
  have hpre : LogOk tl r.term pre := hleader.of_isPrefix
    ((List.prefix_append _ _).trans h.made) (by rw [h.length]; omega)
  exact RaftNode.prefix_of_matches (hlog.sentinel.trans hpre.sentinel.symm)
    (hlog.coherent.take_eq hpre.coherent) h.length h.prevTerm hm

/-- What an accepted request makes of a follower's log. -/
theorem RequestOk.appendLoop_cases (h : RequestOk tl r pre) {log : List (LogEntry F)}
    (hlog : LogOk tl T log) (hleader : LogOk tl r.term (tl r.term))
    (hm : RaftNode.prevLogMatches log r = true) :
    (RaftNode.appendLoop log (r.prevLogIndex + 1) r.entries = log ∧ pre ++ r.entries <+: log) ∨
      (RaftNode.appendLoop log (r.prevLogIndex + 1) r.entries = pre ++ r.entries ∧
        ∃ m, m < (pre ++ r.entries).length ∧ log.take m = (pre ++ r.entries).take m ∧
          (m = log.length ∨
            ∃ a b, log[m]? = some a ∧ (pre ++ r.entries)[m]? = some b ∧ a ≠ b)) := by
  rw [← h.length]
  refine RaftNode.appendLoop_cases (h.prefix_of_matches hlog hleader hm) ?_
  intro k e e' he he' ht
  exact hlog.coherent.eq_of_stamp_eq (hleader.coherent.of_isPrefix h.made) he he' ht

theorem LogOk.handleAppendEntries (hlog : LogOk tl n.currentTerm n.log)
    (hleader : LogOk tl r.term (tl r.term)) (h : RequestOk tl r pre) :
    LogOk tl (n.handleAppendEntries r).1.currentTerm (n.handleAppendEntries r).1.log := by
  by_cases ha : n.Accepts r
  · obtain ⟨hl, -, -⟩ := n.handleAppendEntries_accepts ha
    rw [hl, n.handleAppendEntries_term ha]
    rcases h.appendLoop_cases hlog hleader ha.2 with ⟨he, -⟩ | ⟨he, -⟩ <;> rw [he]
    · exact hlog.mono (fun _ => List.prefix_refl _) ha.1
    · exact hleader.of_isPrefix h.made (by rw [List.length_append, h.length]; omega)
  · rw [(n.handleAppendEntries_rejects ha).1]
    refine hlog.mono (fun _ => List.prefix_refl _) ?_
    rcases n.handleAppendEntries_role r with ⟨-, he⟩ | ⟨hle, ht, -⟩
    · rw [he]
    · rw [ht]; exact hle

end Accept

/-! ### The invariant of a cluster -/

structure LogInv [Zero F] (s : Cluster ι F) (g : History ι F) : Prop where
  node : ∀ i, LogOk g.termLog (s.node i).currentTerm (s.node i).log
  leader : ∀ T, g.termLog T ≠ [] → LogOk g.termLog T (g.termLog T)
  leads : ∀ i, (s.node i).state = .leader → g.termLog (s.node i).currentTerm = (s.node i).log
  unborn : ∀ T, T ≠ 0 → g.leaderOf T = none → g.termLog T = []
  elected : ∀ U l, g.leaderOf U = some l → LogOk g.termLog U (g.electLog U) ∧
    g.electLog U <+: g.termLog U ∧ ∀ e ∈ g.electLog U, e.term < U
  append : ∀ call ∈ s.appendCalls, ∃ pre, RequestOk g.termLog call.request pre

namespace LogInv

variable [Zero F] {c : ClusterConfig ι} {s s' : Cluster ι F} {g : History ι F} {i : ι}

theorem hold (h : LogInv s g) (t : Cluster ι F) : LogInv s (g.hold t) :=
  ⟨h.node, h.leader, h.leads, h.unborn, h.elected, h.append⟩

theorem setVoteCalls (h : LogInv s g) (calls : List (VoteCall ι)) :
    LogInv { s with voteCalls := calls } g :=
  ⟨h.node, h.leader, h.leads, h.unborn, h.elected, h.append⟩

theorem setProposals (h : LogInv s g) (ps : List (Proposal ι F)) :
    LogInv { s with proposals := ps } g :=
  ⟨h.node, h.leader, h.leads, h.unborn, h.elected, h.append⟩

theorem setAppendCalls (h : LogInv s g) {calls : List (AppendCall ι F)}
    (hcalls : ∀ call ∈ calls, ∃ pre, RequestOk g.termLog call.request pre) :
    LogInv { s with appendCalls := calls } g :=
  ⟨h.node, h.leader, h.leads, h.unborn, h.elected, hcalls⟩

theorem setAnswer (h : LogInv s g) {k : ℕ} {call call' : AppendCall ι F}
    (hk : s.appendCalls[k]? = some call) (hr : call'.request = call.request) :
    LogInv { s with appendCalls := s.appendCalls.set k call' } g := by
  refine h.setAppendCalls fun call'' hmem => ?_
  rcases List.mem_or_eq_of_mem_set hmem with hin | rfl
  · exact h.append call'' hin
  · rw [hr]; exact h.append call (List.mem_of_getElem? hk)

variable [DecidableEq ι]

theorem setProc (h : LogInv s g) {p : Process ι F}
    (hok : LogOk g.termLog p.node.currentTerm p.node.log)
    (hleads : p.node.state = .leader → g.termLog p.node.currentTerm = p.node.log) :
    LogInv (s.setProc i p) g where
  node := (Function.forall_update_iff s.procs fun _ p =>
    LogOk g.termLog p.node.currentTerm p.node.log).mpr ⟨hok, fun j _ => h.node j⟩
  leader := h.leader
  leads := (Function.forall_update_iff s.procs fun _ p => p.node.state = .leader →
    g.termLog p.node.currentTerm = p.node.log).mpr ⟨hleads, fun j _ => h.leads j⟩
  unborn := h.unborn
  elected := h.elected
  append := h.append

theorem setProc_of_eq (h : LogInv s g) {p : Process ι F}
    (ht : p.node.currentTerm = (s.node i).currentTerm) (hl : p.node.log = (s.node i).log)
    (hs : p.node.state = (s.node i).state) : LogInv (s.setProc i p) g := by
  refine h.setProc ?_ ?_
  · rw [ht, hl]; exact h.node i
  · rw [hs, ht, hl]; exact h.leads i

/-- A step that leaves the log alone and leads nobody. -/
theorem setProc_of_le (h : LogInv s g) {p : Process ι F}
    (ht : (s.node i).currentTerm ≤ p.node.currentTerm) (hl : p.node.log = (s.node i).log)
    (hs : p.node.state ≠ .leader) : LogInv (s.setProc i p) g := by
  refine h.setProc ?_ fun he => absurd he hs
  rw [hl]
  exact (h.node i).mono (fun _ => List.prefix_refl _) ht

/-- A candidate becomes the leader of a term that has none. -/
theorem elect (h : LogInv s g) {p : Process ι F} (hnone : g.leaderOf p.node.currentTerm = none)
    (hpos : p.node.currentTerm ≠ 0) (hlo : ∀ j, (s.node j).state = .leader →
      g.leaderOf (s.node j).currentTerm = some j)
    (ht : p.node.currentTerm = (s.node i).currentTerm) (hl : p.node.log = (s.node i).log) :
    LogInv (s.setProc i p) (g.elect i p.node) := by
  have hempty := h.unborn _ hpos hnone
  have hgrow : ∀ U, g.termLog U <+: (g.elect i p.node).termLog U := by
    intro U
    rcases eq_or_ne U p.node.currentTerm with rfl | hU
    · rw [hempty]; exact List.nil_prefix
    · simp [History.elect, hU]
  have hok : LogOk g.termLog p.node.currentTerm p.node.log := by rw [ht, hl]; exact h.node i
  refine ⟨?_, ?_, ?_, ?_, ?_, ?_⟩
  · refine (Function.forall_update_iff s.procs fun _ p =>
      LogOk _ p.node.currentTerm p.node.log).mpr ⟨hok.mono hgrow le_rfl, fun j _ => ?_⟩
    exact (h.node j).mono hgrow le_rfl
  · intro U hU
    rcases eq_or_ne U p.node.currentTerm with rfl | hne
    · have := hok.mono hgrow le_rfl
      simpa [History.elect] using this
    · simp only [History.elect, Function.update_of_ne hne] at hU ⊢
      have := (h.leader U hU).mono hgrow le_rfl
      simpa [History.elect, hne] using this
  · refine (Function.forall_update_iff s.procs fun _ p => p.node.state = .leader →
      (g.elect i _).termLog p.node.currentTerm = p.node.log).mpr ⟨fun _ => ?_, fun j _ hj => ?_⟩
    · simp [History.elect]
    · have hne : (s.procs j).node.currentTerm ≠ p.node.currentTerm := by
        intro he
        have := hlo j hj
        rw [he, hnone] at this
        cases this
      simpa [History.elect, hne] using h.leads j hj
  · intro U hU hlo'
    have hne : U ≠ p.node.currentTerm := by
      rintro rfl
      simp [History.elect] at hlo'
    simp only [History.elect, Function.update_of_ne hne] at hlo' ⊢
    exact h.unborn U hU hlo'
  · intro U l hU
    rcases eq_or_ne U p.node.currentTerm with rfl | hne
    · simp only [History.elect, Function.update_self]
      exact ⟨hok.mono hgrow le_rfl, List.prefix_refl _, fun e he => hok.term_lt hempty he⟩
    · simp only [History.elect, Function.update_of_ne hne] at hU ⊢
      obtain ⟨h1, h2, h3⟩ := h.elected U l hU
      exact ⟨h1.mono hgrow le_rfl, h2, h3⟩
  · intro call hmem
    obtain ⟨pre, hpre⟩ := h.append call hmem
    exact ⟨pre, hpre.mono hgrow⟩

/-- A leader appends an entry of its own term. -/
theorem extend (h : LogInv s g) {p : Process ι F} {x : LogEntry F}
    (hlo : ∀ j, (s.node j).state = .leader → g.leaderOf (s.node j).currentTerm = some j)
    (hlead : (s.node i).state = .leader) (hx : x.term = (s.node i).currentTerm)
    (hl : p.node.log = (s.node i).log ++ [x])
    (ht : p.node.currentTerm = (s.node i).currentTerm) :
    LogInv (s.setProc i p) (g.extend p.node) := by
  have hmade := h.leads i hlead
  have hi := hlo i hlead
  rw [← ht] at hmade hi hx
  have hgrow : ∀ U, g.termLog U <+: (g.extend p.node).termLog U := by
    intro U
    rcases eq_or_ne U p.node.currentTerm with rfl | hU
    · simp [History.extend, hmade, hl]
    · simp [History.extend, hU]
  have hself : (g.extend p.node).termLog p.node.currentTerm = p.node.log := by
    simp [History.extend]
  have hok : LogOk (g.extend p.node).termLog p.node.currentTerm p.node.log := by
    have hold := (h.node i).mono hgrow ht.ge
    rw [hl] at hself ⊢
    exact hold.concat hx (by rw [hself])
  refine ⟨?_, ?_, ?_, ?_, ?_, ?_⟩
  · exact (Function.forall_update_iff s.procs fun _ p =>
      LogOk _ p.node.currentTerm p.node.log).mpr ⟨hok, fun j _ => (h.node j).mono hgrow le_rfl⟩
  · intro U hU
    rcases eq_or_ne U p.node.currentTerm with rfl | hne
    · rwa [hself]
    · simp only [History.extend, Function.update_of_ne hne] at hU ⊢
      have := (h.leader U hU).mono hgrow le_rfl
      simpa [History.extend, hne] using this
  · refine (Function.forall_update_iff s.procs fun _ p => p.node.state = .leader →
      (g.extend _).termLog p.node.currentTerm = p.node.log).mpr ⟨fun _ => hself, fun j hj hjl => ?_⟩
    have hne : (s.procs j).node.currentTerm ≠ p.node.currentTerm := by
      intro he
      have := hlo j hjl
      rw [he, hi, Option.some.injEq] at this
      exact hj this.symm
    simpa [History.extend, hne] using h.leads j hjl
  · intro U hU hnone
    have hne : U ≠ p.node.currentTerm := by
      rintro rfl
      rw [show (g.extend p.node).leaderOf = g.leaderOf from rfl, hi] at hnone
      cases hnone
    simpa [History.extend, hne] using h.unborn U hU hnone
  · intro U l hU
    obtain ⟨h1, h2, h3⟩ := h.elected U l hU
    exact ⟨h1.mono hgrow le_rfl, h2.trans (hgrow U), h3⟩
  · intro call hmem
    obtain ⟨pre, hpre⟩ := h.append call hmem
    exact ⟨pre, hpre.mono hgrow⟩

/-! ### All steps -/

variable [Fintype ι]

theorem appendStamped (h : LogInv s g) (he : ElectionInv c s g.leaderOf) {e : LogEntry F}
    (hs : (s.node i).state = .leader) :
    LogInv (s.setProc i { s.procs i with node := (s.node i).appendStamped (c.node i) e })
      (g.extend ((s.node i).appendStamped (c.node i) e)) := by
  obtain ⟨hl, ht, -⟩ := (s.node i).appendStamped_frame (c.node i) e
  exact h.extend (p := { s.procs i with node := (s.node i).appendStamped (c.node i) e })
    (fun j => (he.role j).leads) hs rfl hl ht

theorem receiveVote (h : LogInv s g) (he : ElectionInv c s g.leaderOf)
    (hstep : s.step c (.receiveVote i) = some s') :
    LogInv s' (if (s.node i).state ≠ .leader ∧ (s'.node i).state = .leader then
      g.elect i (s'.node i) else g) := by
  have hnone := he.receiveVote_none hstep
  obtain ⟨e, k, call, r, hel, -, -, -, rfl⟩ := Cluster.receiveVote_cases hstep
  rcases Process.countVote_cases (c.node i) (s.procs i) e r with
    ⟨hlt, hcv⟩ | hcv | ⟨hs, ht, -, -, hcv⟩ | ⟨v, -, hcv⟩ <;> rw [hcv] at hnone ⊢
  · rw [if_neg (by simp)]
    exact h.setProc_of_le (by simp) rfl (by simp)
  · rw [if_neg (by simp)]
    exact h.setProc_of_eq rfl rfl rfl
  · rw [if_pos (by simp [hs, RaftNode.becomeLeader])]
    have hpos := (he.thread i e hel).pos
    have hlead := hnone (by simp [hs, RaftNode.becomeLeader])
    rw [Cluster.node_setProc_self] at hlead ⊢
    refine h.elect hlead ?_ (fun j => (he.role j).leads) rfl rfl
    simp only [RaftNode.becomeLeader, ht]
    omega
  · rw [if_neg (by simp)]
    exact h.setProc_of_eq rfl rfl rfl

omit [Fintype ι] in
theorem replicate {peer : ι} (h : LogInv s g) (hstep : s.step c (.replicate i peer) = some s') :
    LogInv s' g := by
  obtain ⟨hs, -, ⟨m, t, ht, rfl⟩ | rfl⟩ := Cluster.replicate_cases hstep
  · have hnode := h.setProc_of_eq (i := i) (p := { s.procs i with node := { s.node i with
      nextIndex := Function.update (s.node i).nextIndex peer (m + 1) } }) rfl rfl rfl
    refine hnode.setAppendCalls fun call hmem => ?_
    rcases List.mem_append.mp hmem with hmem | hmem
    · exact h.append call hmem
    · obtain rfl := List.mem_singleton.mp hmem
      obtain ⟨e, hm, rfl⟩ := Option.map_eq_some_iff.mp ht
      have hlt := (List.getElem?_eq_some_iff.mp hm).1
      refine ⟨(s.node i).log.take (m + 1), ?_, ?_, ?_⟩
      · simp only [List.length_take]; omega
      · simp [RaftNode.termAt, hm]
      · rw [List.take_append_drop]
        exact h.leads i hs ▸ List.prefix_refl _
  · exact h.setProc_of_eq rfl rfl rfl

omit [Fintype ι] [DecidableEq ι] in
theorem leaderLog (h : LogInv s g) {call : AppendCall ι F} (hmem : call ∈ s.appendCalls) :
    LogOk g.termLog call.request.term (g.termLog call.request.term) := by
  obtain ⟨pre, hpre⟩ := h.append call hmem
  refine h.leader _ fun hnil => ?_
  have hlen := hpre.made.length_le
  rw [hnil, List.length_append, hpre.length] at hlen
  simp at hlen

omit [Fintype ι] [DecidableEq ι] in
/-- An accepted request leaves a log that holds all that was sent, or makes it what
was sent, with a first difference at some index `m`. -/
theorem accepted (h : LogInv s g) {call : AppendCall ι F} (hmem : call ∈ s.appendCalls)
    (ha : (s.node call.callee).Accepts call.request) :
    ∃ sent, sent <+: g.termLog call.request.term ∧
      sent.length = call.request.prevLogIndex + 1 + call.request.entries.length ∧
      sent.drop (call.request.prevLogIndex + 1) = call.request.entries ∧
      ((((s.node call.callee).handleAppendEntries call.request).1.log = (s.node call.callee).log ∧
          sent <+: (s.node call.callee).log) ∨
        (((s.node call.callee).handleAppendEntries call.request).1.log = sent ∧
          ∃ m, m < sent.length ∧ (s.node call.callee).log.take m = sent.take m ∧
            (m = (s.node call.callee).log.length ∨
              ∃ a b, (s.node call.callee).log[m]? = some a ∧ sent[m]? = some b ∧ a ≠ b))) := by
  obtain ⟨pre, hpre⟩ := h.append call hmem
  rw [((s.node call.callee).handleAppendEntries_accepts ha).1]
  refine ⟨pre ++ call.request.entries, hpre.made, by rw [List.length_append, hpre.length],
    List.drop_left' hpre.length, ?_⟩
  exact hpre.appendLoop_cases (h.node call.callee) (h.leaderLog hmem) ha.2

omit [Fintype ι] in
theorem handleAppendEntries {k : ℕ} (h : LogInv s g)
    (hstep : s.step c (.handleAppendEntries k) = some s') : LogInv s' g := by
  obtain ⟨call, hk, -, rfl⟩ := Cluster.handleAppendEntries_cases hstep
  have hmem := List.mem_of_getElem? hk
  obtain ⟨pre, hpre⟩ := h.append call hmem
  have hok := (h.node call.callee).handleAppendEntries (h.leaderLog hmem) hpre
  refine LogInv.setAnswer (s := s.setProc call.callee _) ?_ hk rfl
  refine h.setProc hok fun hs => ?_
  rcases (s.node call.callee).handleAppendEntries_role call.request with ⟨-, heq⟩ | ⟨-, -, hf, -⟩
  · rw [heq] at hs ⊢
    exact h.leads _ hs
  · exact absurd (hf.symm.trans hs) (by simp)

omit [DecidableEq ι] in
theorem init (c : ClusterConfig ι) : LogInv (Cluster.start c : Cluster ι F) (History.start c) := by
  have hlog : ∀ j, ((Cluster.start c).node j : RaftNode ι F).log = [.sentinel] := fun j =>
    (RaftNode.start_frame (c.node j)).1
  have hterm : ∀ T, ((T = 0 ∨ T = 1 ∧ ∃ i, c.peers i = []) ∧
        (History.start c : History ι F).termLog T = [.sentinel]) ∨
      (¬ (T = 0 ∨ T = 1 ∧ ∃ i, c.peers i = []) ∧
        (History.start c : History ι F).termLog T = []) := by
    intro T
    simp only [History.start]
    split_ifs with hT
    · exact Or.inl ⟨hT, rfl⟩
    · exact Or.inr ⟨hT, rfl⟩
  have hok : ∀ T, LogOk (History.start c : History ι F).termLog T [.sentinel] := by
    intro T
    refine ⟨fun k e hk => ?_, rfl, List.pairwise_singleton _ _, by simp [LogEntry.sentinel]⟩
    obtain ⟨hk0, rfl⟩ := List.getElem?_eq_some_iff.mp hk
    obtain rfl : k = 0 := by simpa using hk0
    simp [History.start, LogEntry.sentinel]
  refine ⟨fun j => by rw [hlog]; exact hok _, ?_, ?_, ?_, ?_, by simp [Cluster.start]⟩
  · intro T hT
    rcases hterm T with ⟨-, he⟩ | ⟨-, he⟩
    · rw [he]; exact hok T
    · exact absurd he hT
  · intro j hj
    rw [hlog]
    by_cases hp : c.peers j = []
    · have ht : ((Cluster.start c).node j : RaftNode ι F).currentTerm = 1 := by
        rw [Cluster.start_node, RaftNode.start_alone hp]
        rfl
      rw [ht]
      exact ((hterm 1).resolve_right fun hno => hno.1 (Or.inr ⟨rfl, j, hp⟩)).2
    · rw [Cluster.start_node, RaftNode.start_peers hp] at hj
      cases hj
  · intro T hT hnone
    refine ((hterm T).resolve_left fun hyes => ?_).2
    have hex := hyes.1.resolve_left hT
    simp [History.start, hex] at hnone
  · intro U l hU
    have hex : U = 1 ∧ ∃ i, c.peers i = [] := by
      simp only [History.start] at hU
      split_ifs at hU with hex
      exact hex
    refine ⟨hok U, ?_, by simp [History.start, hex.1, LogEntry.sentinel]⟩
    rw [((hterm U).resolve_right fun hno => hno.1 (Or.inr hex)).2]
    exact List.prefix_refl _

theorem step (h : LogInv s g) (he : ElectionInv c s g.leaderOf) {a : Action ι F}
    (hstep : s.step c a = some s') : LogInv s' (History.record s a s' g) := by
  unfold History.record
  refine LogInv.hold ?_ s'
  cases a with
  | startElection i =>
    obtain ⟨-, -, rfl⟩ := Cluster.startElection_cases hstep
    exact h.setProc_of_le (by simp [RaftNode.startElection]) rfl (by simp [RaftNode.startElection])
  | sendVoteRequest i =>
    obtain ⟨e, peer, rest, -, -, -, rfl⟩ := Cluster.sendVoteRequest_cases hstep
    have hnode := h.setProc_of_eq (i := i) (p := { s.procs i with
      election := some { e with remaining := rest, waiting := some s.voteCalls.length } })
      rfl rfl rfl
    exact hnode.setVoteCalls _
  | handleRequestVote k =>
    obtain ⟨call, -, -, rfl⟩ := Cluster.handleRequestVote_cases hstep
    have hlog := ((s.node call.callee).handleRequestVote_frame call.request).1
    refine LogInv.setVoteCalls (s := s.setProc call.callee _) ?_ _
    rcases (s.node call.callee).handleRequestVote_role call.request with
      ⟨hlt, ht, hs⟩ | ⟨-, ht, hs, -⟩
    · exact h.setProc_of_le (by rw [ht]; exact hlt.le) hlog (by simp [hs])
    · exact h.setProc_of_eq ht hlog hs
  | receiveVote i => exact h.receiveVote he hstep
  | voteRequestFailed i =>
    obtain ⟨e, -, rfl⟩ := Cluster.voteRequestFailed_cases hstep
    exact h.setProc_of_eq rfl rfl rfl
  | finishElection i =>
    obtain rfl := Cluster.finishElection_cases hstep
    exact h.setProc_of_eq rfl rfl rfl
  | replicate i peer => exact h.replicate hstep
  | handleAppendEntries k => exact h.handleAppendEntries hstep
  | receiveAppend k =>
    obtain ⟨call, r, hk, -, rfl⟩ := Cluster.receiveAppend_cases hstep
    have hlog := ((s.node call.caller).handleAppendResponse_log (c.node call.caller) call.callee
      call.request.term r).1
    refine LogInv.setAnswer (s := s.setProc call.caller _) ?_ hk rfl
    rcases (s.node call.caller).handleAppendResponse_role (c.node call.caller) call.callee
      call.request.term r with ⟨-, heq⟩ | ⟨ht, -, hs⟩
    · exact h.setProc_of_le (by simp [heq]) hlog (by simp [heq])
    · exact h.setProc_of_eq ht hlog hs
  | propose i e =>
    obtain ⟨hs, rfl⟩ := Cluster.propose_cases hstep
    have h' := (h.appendStamped he hs (e := e)).setProposals (s.proposals ++
      [{ proposer := i, entry := { e with term := (s.node i).currentTerm },
         index := (s.node i).log.length }])
    simpa [Cluster.node] using h'
  | checkProposal k timedOut =>
    obtain ⟨call, -, -, ⟨-, rfl⟩ | rfl | rfl⟩ := Cluster.checkProposal_cases hstep
    · exact h.setProposals _
    · exact h.setProposals _
    · exact h
  | appendLocalEntry i e =>
    obtain ⟨hs, rfl⟩ := Cluster.appendLocalEntry_cases hstep
    have h' := h.appendStamped he hs (e := e)
    simpa using h'
  | applyTake i =>
    obtain ⟨-, -, -, ⟨e, -, rfl⟩ | ⟨-, rfl⟩⟩ := Cluster.applyTake_cases hstep <;>
      exact h.setProc_of_eq rfl rfl rfl
  | applyReturn i =>
    obtain ⟨m, e, -, rfl⟩ := Cluster.applyReturn_cases hstep
    exact h.setProc_of_eq rfl rfl rfl
  | applyNotify i =>
    obtain ⟨-, rfl⟩ := Cluster.applyNotify_cases hstep
    exact h.setProc_of_eq rfl rfl rfl

/-- The log of the leader of a term only grows. -/
theorem grows (h : LogInv s g) (he : ElectionInv c s g.leaderOf) {a : Action ι F}
    (hstep : s.step c a = some s') (T : ℕ) :
    g.termLog T <+: (History.record s a s' g).termLog T := by
  have hstamp : ∀ i e, (s.node i).state = .leader →
      s'.node i = (s.node i).appendStamped (c.node i) e →
      g.termLog T <+: (g.extend (s'.node i)).termLog T := by
    intro i e hs hi
    obtain ⟨hl, ht, -⟩ := (s.node i).appendStamped_frame (c.node i) e
    have hmade := h.leads i hs
    rcases eq_or_ne T (s'.node i).currentTerm with rfl | hT
    · simp [History.extend, hi, hl, ht, hmade]
    · simp [History.extend, hT]
  cases a with
  | receiveVote i =>
    simp only [History.record, History.hold]
    split_ifs with hwon
    · have hnone := he.receiveVote_none hstep hwon
      have hlead : (History.record s (.receiveVote i) s' g).leaderOf (s'.node i).currentTerm =
          some i := by simp [History.record, History.hold, hwon, History.elect]
      have hpos := (he.step rfl hstep).pos _ i hlead
      rcases eq_or_ne T (s'.node i).currentTerm with rfl | hT
      · rw [h.unborn _ hpos.ne' hnone]
        exact List.nil_prefix
      · simp [History.elect, hT]
    · exact List.prefix_refl _
  | propose i e =>
    obtain ⟨hs, rfl⟩ := Cluster.propose_cases hstep
    exact hstamp i e hs (by simp [Cluster.node])
  | appendLocalEntry i e =>
    obtain ⟨hs, rfl⟩ := Cluster.appendLocalEntry_cases hstep
    exact hstamp i e hs (by simp [Cluster.node])
  | _ => exact List.prefix_refl _

end LogInv

namespace Cluster

variable [Fintype ι] [DecidableEq ι] [Zero F]

theorem exists_logInv (c : ClusterConfig ι) {as : List (Action ι F)} {s : Cluster ι F}
    (h : (system c).exec as = some s) :
    ∃ g : History ι F, ElectionInv c s g.leaderOf ∧ LogInv s g :=
  (system c).historyInvariant (g := History.start c)
    (P := fun _ s (g : History ι F) => ElectionInv c s g.leaderOf ∧ LogInv s g) History.record
    ⟨.init c, .init c⟩
    (fun _ _ _ _ _ ⟨he, hl⟩ hstep => ⟨he.step rfl hstep, hl.step he hstep⟩) h

/-- Log matching: entries of one term at one index of two logs come with the same
log up to there, and index 0 holds the sentinel. -/
theorem log_matching (c : ClusterConfig ι) (as : List (Action ι F)) (s : Cluster ι F)
    (h : (system c).exec as = some s) (i j : ι) :
    (∀ (k : ℕ) (e e' : LogEntry F), (s.node i).log[k]? = some e → (s.node j).log[k]? = some e' →
      e.term = e'.term → ∀ m ≤ k, (s.node i).log[m]? = (s.node j).log[m]?) ∧
    (s.node i).log[0]? = some .sentinel := by
  obtain ⟨g, -, hinv⟩ := exists_logInv c h
  refine ⟨fun k e e' he he' ht m hm => ?_, (hinv.node i).sentinel⟩
  have htake := (hinv.node i).coherent.take_eq (hinv.node j).coherent he he' ht
  have hm' := congrArg (·[m]?) htake
  simpa [List.getElem?_take_of_lt (Nat.lt_succ_of_le hm)] using hm'

/-- Node 1 is elected, appends an entry and replicates it to node 2. -/
def replicationRun : List (Action (Fin 3) ℕ) :=
  [.startElection 0, .sendVoteRequest 0, .handleRequestVote 0, .receiveVote 0, .finishElection 0,
    .appendLocalEntry 0 (.acquire "agent" [1] 1), .replicate 0 1, .handleAppendEntries 0]

theorem log_matching_replicated :
    ∃ s : Cluster (Fin 3) ℕ, (system .testNodes).exec replicationRun = some s ∧
      (s.node 0).log.length = 2 ∧ (s.node 0).log[1]? = (s.node 1).log[1]? := by
  have h : ((system .testNodes).exec replicationRun).isSome := rfl
  exact ⟨_, (Option.some_get h).symm, rfl, (log_matching .testNodes replicationRun _
    (Option.some_get h).symm 0 1).1 1 _ _ rfl rfl rfl 1 le_rfl⟩

end Cluster

end DistributedLock.Raft
