import DistributedLock.Raft.Effects
import DistributedLock.Raft.LogMatching

/-! Leader completeness: a log prefix that a majority held in the term of its last
entry is in the log every later leader is elected with. What a node held in a
term stays in its log until a leader of that term or a later one overwrites it,
and the voters of an election vouch for what they held when they voted. -/

namespace DistributedLock.Raft

open Library

variable {ι F : Type*}

/-! ### The last term of a log -/

def lastTerm (log : List (LogEntry F)) : ℕ := (log.getLast?.map LogEntry.term).getD 0

theorem lastTerm_of_getLast? {log : List (LogEntry F)} {e : LogEntry F}
    (h : log.getLast? = some e) : lastTerm log = e.term := by simp [lastTerm, h]

theorem lastTerm_le_of_isPrefix {l log : List (LogEntry F)}
    (hs : log.Pairwise (·.term ≤ ·.term)) (hp : l <+: log) : lastTerm l ≤ lastTerm log := by
  obtain ⟨rest, rfl⟩ := hp
  rcases List.eq_nil_or_concat rest with rfl | ⟨rest, z, rfl⟩
  · rw [List.append_nil]
  cases hl : l.getLast? with
  | none => simp [lastTerm, hl]
  | some e =>
    rw [List.concat_eq_append] at hs ⊢
    rw [lastTerm_of_getLast? hl, lastTerm_of_getLast? (e := z) (by simp)]
    exact (List.pairwise_append.mp hs).2.2 e (List.mem_of_getLast? hl) z (by simp)

theorem LogOk.prefix_lastTerm [Zero F] {tl : ℕ → List (LogEntry F)} {T : ℕ}
    {log : List (LogEntry F)} (h : LogOk tl T log) : log <+: tl (lastTerm log) := by
  have hpos : 0 < log.length := (List.getElem?_eq_some_iff.mp h.sentinel).1
  have hne : log ≠ [] := List.ne_nil_of_length_pos hpos
  have hlast := List.getLast?_eq_some_getLast hne
  rw [lastTerm_of_getLast? hlast]
  exact h.coherent.prefix_of_getLast? hlast

theorem LogOk.lastTerm_mem [Zero F] {tl : ℕ → List (LogEntry F)} {T : ℕ}
    {log : List (LogEntry F)} (h : LogOk tl T log) : ∃ e ∈ log, e.term = lastTerm log := by
  have hpos : 0 < log.length := (List.getElem?_eq_some_iff.mp h.sentinel).1
  have hlast := List.getLast?_eq_some_getLast (List.ne_nil_of_length_pos hpos)
  exact ⟨_, List.mem_of_getLast? hlast, (lastTerm_of_getLast? hlast).symm⟩

/-! ### Logs a node has held -/

/-- At some moment of term `T` the log of node `j` began with `l`. -/
def Held (g : History ι F) (j : ι) (T : ℕ) (l : List (LogEntry F)) : Prop :=
  ∃ log, g.held j T log ∧ l <+: log

/-- `l` is in the log still, or a leader of a term from `T` to before `U` has
something else in its place. -/
def Kept (g : History ι F) (l : List (LogEntry F)) (T U : ℕ) (log : List (LogEntry F)) : Prop :=
  l <+: log ∨ ∃ V, T ≤ V ∧ V < U ∧ Disagree l (g.termLog V)

theorem Kept.mono {g g' : History ι F} {l log : List (LogEntry F)} {T U U' : ℕ}
    (h : Kept g l T U log) (hg : ∀ V, g.termLog V <+: g'.termLog V) (hU : U ≤ U') :
    Kept g' l T U' log :=
  h.imp_right fun ⟨V, hT, hV, hd⟩ => ⟨V, hT, by omega, hd.mono (hg V)⟩

/-- A term without a leader overwrites nothing. -/
theorem Kept.of_unborn {g : History ι F} {l log : List (LogEntry F)} {T U : ℕ}
    (h : Kept g l T (U + 1) log) (hU : g.termLog U = []) : Kept g l T U log := by
  refine h.imp_right fun ⟨V, hT, hV, hd⟩ => ⟨V, hT, ?_, hd⟩
  refine lt_of_le_of_ne (by omega) ?_
  rintro rfl
  obtain ⟨m, a, b, -, hb, -⟩ := hd
  rw [hU] at hb
  simp at hb

structure HeldInv (s : Cluster ι F) (g : History ι F) : Prop where
  now : ∀ j, g.held j (s.node j).currentTerm (s.node j).log
  past : ∀ j T log, g.held j T log → T ≤ (s.node j).currentTerm ∧
    ∀ l, l <+: log → Kept g l T ((s.node j).currentTerm + 1) (s.node j).log

variable [DecidableEq ι] {c : ClusterConfig ι} {s s' : Cluster ι F} {g : History ι F}

namespace HeldInv

omit [DecidableEq ι] in
theorem init [Zero F] (c : ClusterConfig ι) :
    HeldInv (Cluster.start c : Cluster ι F) (History.start c) := by
  refine ⟨fun j => ⟨rfl, rfl⟩, ?_⟩
  rintro j T log ⟨rfl, rfl⟩
  exact ⟨le_rfl, fun l hl => Or.inl hl⟩

variable [Fintype ι] [Zero F]

/-- What a step does to a prefix that is still in a log. -/
theorem kept_step (hl : LogInv s g) (he : ElectionInv c s g.leaderOf) {a : Action ι F}
    (hstep : s.step c a = some s') {j : ι} {l : List (LogEntry F)} {T : ℕ}
    (hT : T ≤ (s.node j).currentTerm) (hp : l <+: (s.node j).log) :
    Kept (History.record s a s' g) l T ((s'.node j).currentTerm + 1) (s'.node j).log := by
  obtain ⟨hle, heq | ⟨x, -, -, -, heq⟩ | ⟨call, hmem, rfl, ha, heq⟩⟩ :=
    (Cluster.step_node hstep j).log_cases
  · exact Or.inl (heq ▸ hp)
  · exact Or.inl (heq ▸ hp.trans (List.prefix_append _ _))
  · obtain ⟨sent, hsent, -, -, ⟨hlog, -⟩ | ⟨hlog, m, -, htake, hend⟩⟩ := hl.accepted hmem ha
    · exact Or.inl (by rw [heq, hlog]; exact hp)
    · have hterm : (s'.node call.callee).currentTerm = call.request.term := by
        rw [heq, (s.node call.callee).handleAppendEntries_term ha]
      rw [heq, hlog, ← heq, hterm]
      refine (prefix_or_disagree hp htake hend).imp_right fun hd => ?_
      exact ⟨_, hT.trans ha.1, Nat.lt_succ_self _, hd.mono (hsent.trans (hl.grows he hstep _))⟩

theorem step (h : HeldInv s g) (hl : LogInv s g) (he : ElectionInv c s g.leaderOf)
    {a : Action ι F} (hstep : s.step c a = some s') :
    HeldInv s' (History.record s a s' g) := by
  refine ⟨fun j => Cluster.held_iff.mpr (Or.inr ⟨rfl, rfl⟩), fun j T log hheld => ?_⟩
  have hle := (Cluster.step_node hstep j).log_cases.1
  rcases Cluster.held_iff.mp hheld with hold | ⟨rfl, rfl⟩
  · obtain ⟨hT, hkept⟩ := h.past j T log hold
    refine ⟨hT.trans hle, fun l hlog => ?_⟩
    rcases hkept l hlog with hp | hd
    · exact kept_step hl he hstep hT hp
    · exact Kept.mono (Or.inr hd) (hl.grows he hstep) (by omega)
  · exact ⟨le_rfl, fun l hlog => Or.inl hlog⟩

end HeldInv

/-! ### What voters vouch for -/

/-- The check of `IsLogUpToDateLocked` against a voter's log. -/
def UpToDate (index term : ℕ) (log : List (LogEntry F)) : Prop :=
  lastTerm log < term ∨ (term = lastTerm log ∧ log.length ≤ index + 1)

omit [DecidableEq ι] in
theorem RaftNode.upToDate {n : RaftNode ι F} {index term : ℕ}
    (h : n.isLogUpToDate index term = true) : UpToDate index term n.log := by
  have hlast : n.lastLogTerm = lastTerm n.log := rfl
  simp only [RaftNode.isLogUpToDate, RaftNode.lastLogIndex, hlast] at h
  split_ifs at h with ht
  · exact Or.inl (of_decide_eq_true h)
  · have hle := of_decide_eq_true h
    exact Or.inr ⟨not_not.mp ht, by omega⟩

/-- The request describes the log. -/
def Describes (r : VoteRequest) (log : List (LogEntry F)) : Prop :=
  r.lastLogIndex = log.length - 1 ∧ r.lastLogTerm = lastTerm log

/-- `log` is what node `j` had when it voted in term `U`; `T` is its term now. -/
structure VoterLog [Zero F] (g : History ι F) (j : ι) (U T : ℕ) (log : List (LogEntry F)) :
    Prop where
  ok : LogOk g.termLog U log
  passed : U ≤ T
  kept : ∀ V log', V < U → g.held j V log' → ∀ l, l <+: log' → Kept g l V U log

structure VoteInv [Zero F] [Fintype ι] (s : Cluster ι F) (g : History ι F) : Prop where
  sent : ∀ call ∈ s.voteCalls, 0 < call.request.term ∧
    call.request.term ≤ (s.node call.caller).currentTerm ∧
    ((s.node call.caller).state = .candidate →
      call.request.term = (s.node call.caller).currentTerm →
      Describes call.request (s.node call.caller).log)
  thread : ∀ i e, (s.procs i).election = some e → (s.node i).state = .candidate →
    e.request.term = (s.node i).currentTerm → Describes e.request (s.node i).log
  voted : ∀ call ∈ s.voteCalls, ∀ r, call.response = some r → r.voteGranted = true →
    (∃ l, g.leaderOf call.request.term = some l) ∨
      ∃ log, VoterLog g call.callee call.request.term (s.node call.callee).currentTerm log ∧
        UpToDate call.request.lastLogIndex call.request.lastLogTerm log
  elected : ∀ U l, g.leaderOf U = some l → ∃ Q, Majority Q ∧ ∀ j ∈ Q, ∃ log,
    VoterLog g j U (s.node j).currentTerm log ∧
      UpToDate ((g.electLog U).length - 1) (lastTerm (g.electLog U)) log

namespace VoteInv

variable [Fintype ι] [Zero F] {a : Action ι F}

/-- A node holds nothing new in a term it has left. -/
theorem voterLog_step (hl : LogInv s g) (he : ElectionInv c s g.leaderOf)
    (hstep : s.step c a = some s') {j : ι} {U : ℕ} {log : List (LogEntry F)}
    (h : VoterLog g j U (s.node j).currentTerm log) :
    VoterLog (History.record s a s' g) j U (s'.node j).currentTerm log := by
  have hgrow := hl.grows he hstep
  have hle := (Cluster.step_node hstep j).log_cases.1
  refine ⟨h.ok.mono hgrow le_rfl, h.passed.trans hle, fun V log' hV hheld l hp => ?_⟩
  have hpassed := h.passed
  rcases Cluster.held_iff.mp hheld with hold | ⟨hterm, -⟩
  · exact (h.kept V log' hV hold l hp).mono hgrow le_rfl
  · omega

omit [DecidableEq ι] [Fintype ι] in
/-- The log of a node in a term that has no leader yet. -/
theorem voterLog_self (hl : LogInv s g) (hh : HeldInv s g) {j : ι} {U : ℕ}
    (hU : (s.node j).currentTerm ≤ U) (hempty : g.termLog U = [])
    {T : ℕ} (hT : U ≤ T) {g' : History ι F} (hg : ∀ V, g.termLog V <+: g'.termLog V)
    (hheld : ∀ V log', V < U → g'.held j V log' → g.held j V log') :
    VoterLog g' j U T (s.node j).log := by
  refine ⟨(hl.node j).mono hg hU, hT, fun V log' hV hV' l hp => ?_⟩
  have hkept := (hh.past j V log' (hheld V log' hV hV')).2 l hp
  exact (Kept.of_unborn (hkept.mono (fun _ => List.prefix_refl _) (by omega)) hempty).mono hg le_rfl

omit [Fintype ι] [Zero F] in
/-- A candidate's log is the one it had when its election began. -/
theorem describes_step (hstep : s.step c a = some s') {j : ι} {r : VoteRequest}
    (hle : r.term ≤ (s.node j).currentTerm)
    (h : (s.node j).state = .candidate → r.term = (s.node j).currentTerm →
      Describes r (s.node j).log)
    (hs : (s'.node j).state = .candidate) (ht : r.term = (s'.node j).currentTerm) :
    Describes r (s'.node j).log := by
  rcases (Cluster.step_node hstep j).candidate_cases hs with heq | ⟨hs, hterm, hlog⟩
  · rw [heq] at ht
    simp only [RaftNode.startElection] at ht
    omega
  · rw [hlog]
    exact h hs (ht.trans hterm)

theorem init (c : ClusterConfig ι) :
    VoteInv (Cluster.start c : Cluster ι F) (History.start c) := by
  refine ⟨by simp [Cluster.start], ?_, by simp [Cluster.start], ?_⟩
  · intro i e he
    cases he
  · intro U l hlead
    obtain ⟨hok, -, -⟩ := (LogInv.init (F := F) c).elected U l hlead
    have hle := (((ElectionInv.init (F := F) c).role l).stays U hlead).1
    obtain ⟨Q, hQ, hall⟩ := (ElectionInv.init (F := F) c).elected U l hlead
    refine ⟨Q, hQ, fun j hj => ⟨_, ?_, Or.inr ⟨rfl, by omega⟩⟩⟩
    rcases hall j hj with rfl | ⟨call, hmem, -⟩
    · refine ⟨hok, hle, ?_⟩
      rintro V log' hV ⟨rfl, -⟩
      exact absurd hV (not_lt.mpr hle)
    · cases hmem

theorem step (h : VoteInv s g) (hh : HeldInv s g) (hl : LogInv s g)
    (he : ElectionInv c s g.leaderOf) (hstep : s.step c a = some s') :
    VoteInv s' (History.record s a s' g) := by
  have hgrow := hl.grows he hstep
  have hterm : ∀ j, (s.node j).currentTerm ≤ (s'.node j).currentTerm := fun j =>
    (Cluster.step_node hstep j).log_cases.1
  refine ⟨?_, ?_, ?_, ?_⟩
  · intro call' hmem
    rcases Cluster.voteCalls_cases hstep hmem with ⟨call, hcall, h1, -, h3, -⟩ | ⟨e, hel, hr, -⟩
    · obtain ⟨hpos, hle, hd⟩ := h.sent call hcall
      rw [h1, h3]
      exact ⟨hpos, hle.trans (hterm _), describes_step hstep hle hd⟩
    · have hle := (he.thread _ e hel).term_le
      rw [hr]
      exact ⟨(he.thread _ e hel).pos, hle.trans (hterm _), describes_step hstep hle (h.thread _ e hel)⟩
  · intro i e' hel'
    rcases Cluster.election_cases hstep hel' with ⟨e, hel, hr⟩ | ⟨hr, hn⟩
    · rw [hr]
      exact describes_step hstep (he.thread _ e hel).term_le (h.thread _ e hel)
    · intro _ _
      rw [hr, hn]
      exact ⟨rfl, rfl⟩
  · intro call' hmem r hr hv
    rcases Cluster.voteCalls_cases hstep hmem with
      ⟨call, hcall, -, h2, h3, hresp | ⟨hn, hresp⟩⟩ | ⟨e, -, -, hnone⟩
    · rw [h2, h3]
      rcases h.voted call hcall r (hresp ▸ hr) hv with ⟨l, hlead⟩ | ⟨log, hlog, hup⟩
      · exact Or.inl ⟨l, he.record_mono hstep hlead⟩
      · exact Or.inr ⟨log, voterLog_step hl he hstep hlog, hup⟩
    · -- the vote has just been cast
      rw [hr, Option.some.injEq] at hresp
      subst hresp
      obtain ⟨ht, -, hup, hlt⟩ := (s.node call.callee).handleRequestVote_granted hv
      rw [h2, h3]
      cases hlead : g.leaderOf call.request.term with
      | some l => exact Or.inl ⟨l, he.record_mono hstep hlead⟩
      | none =>
        have hpos := (h.sent call hcall).1.ne'
        refine Or.inr ⟨(s.node call.callee).log, ?_, RaftNode.upToDate hup⟩
        refine voterLog_self hl hh (by omega) (hl.unborn _ hpos hlead) (by rw [hn]; exact ht.ge)
          hgrow fun V log' hV hheld => ?_
        rcases Cluster.held_iff.mp hheld with hold | ⟨hterm, -⟩
        · exact hold
        · rw [hn] at hterm
          omega
    · rw [hnone] at hr
      cases hr
  · intro U l hlead
    rcases Cluster.leaderOf_cases g hstep with ⟨h1, h2⟩ | ⟨i, rfl, hs, hs', ht, -, h1, h2⟩
    · rw [h1] at hlead
      obtain ⟨Q, hQ, hall⟩ := h.elected U l hlead
      refine ⟨Q, hQ, fun j hj => ?_⟩
      obtain ⟨log, hlog, hup⟩ := hall j hj
      exact ⟨log, voterLog_step hl he hstep hlog, h2 ▸ hup⟩
    · by_cases hU : U = (s.node i).currentTerm
      · -- a candidate has just won
        subst hU
        have hnone := he.receiveVote_none hstep ⟨by simp [hs], hs'⟩
        rw [ht] at hnone
        rw [h1, Function.update_self, Option.some.injEq] at hlead
        subst hlead
        rw [h2, Function.update_self]
        have hlead : (History.record s (.receiveVote i) s' g).leaderOf (s.node i).currentTerm =
          some i := by rw [h1, Function.update_self]
        have he' := he.step rfl hstep
        have hempty := hl.unborn _ (he'.pos _ i hlead).ne' hnone
        obtain ⟨Q, hQ, hall⟩ := he'.elected _ i hlead
        refine ⟨Q, hQ, fun j hj => ?_⟩
        rcases hall j hj with rfl | ⟨call, hmem, rfl, rfl, hterm', r, hr, hv⟩
        · refine ⟨(s.node j).log, ?_, Or.inr ⟨rfl, by omega⟩⟩
          refine voterLog_self hl hh le_rfl hempty (hterm j) hgrow fun V log' hV hheld => ?_
          rcases Cluster.held_iff.mp hheld with hold | ⟨hV', -⟩
          · exact hold
          · omega
        · have hcalls : s'.voteCalls = s.voteCalls := by
            rcases (Cluster.calls_eq hstep).1 with heq | ⟨_, ha⟩ | ⟨_, ha⟩
            · exact heq
            · cases ha
            · cases ha
          rw [hcalls] at hmem
          obtain ⟨-, -, hd⟩ := h.sent call hmem
          obtain ⟨hidx, hlast⟩ := hd hs hterm'
          rcases h.voted call hmem r hr hv with ⟨l, hl'⟩ | ⟨log, hlog, hup⟩
          · rw [hterm', hnone] at hl'
            cases hl'
          · rw [hterm'] at hlog
            rw [hidx, hlast] at hup
            exact ⟨log, voterLog_step hl he hstep hlog, hup⟩
      · rw [h1, Function.update_of_ne hU] at hlead
        obtain ⟨Q, hQ, hall⟩ := h.elected U l hlead
        refine ⟨Q, hQ, fun j hj => ?_⟩
        obtain ⟨log, hlog, hup⟩ := hall j hj
        rw [h2, Function.update_of_ne hU]
        exact ⟨log, voterLog_step hl he hstep hlog, hup⟩

end VoteInv

/-- What holds of every run. -/
structure RaftInv [Zero F] [Fintype ι] (c : ClusterConfig ι) (s : Cluster ι F)
    (g : History ι F) : Prop where
  election : ElectionInv c s g.leaderOf
  log : LogInv s g
  held : HeldInv s g
  vote : VoteInv s g

section RaftInv

variable [Fintype ι] [Zero F] {a : Action ι F}

theorem RaftInv.init (c : ClusterConfig ι) :
    RaftInv c (Cluster.start c : Cluster ι F) (History.start c) :=
  ⟨.init c, .init c, .init c, .init c⟩

theorem RaftInv.step (h : RaftInv c s g) (hstep : s.step c a = some s') :
    RaftInv c s' (History.record s a s' g) :=
  ⟨h.election.step rfl hstep, h.log.step h.election hstep, h.held.step h.log h.election hstep,
    h.vote.step h.held h.log h.election hstep⟩

end RaftInv

/-! ### Leader completeness -/

/-- A majority held `l` in term `T`, the term of its last entry. -/
structure Chosen [Fintype ι] (g : History ι F) (T : ℕ) (l : List (LogEntry F)) : Prop where
  made : l <+: g.termLog T
  last : lastTerm l = T
  quorum : ∃ Q, Majority Q ∧ ∀ j ∈ Q, Held g j T l

section Completeness

variable [Fintype ι] [Zero F] {T : ℕ} {l : List (LogEntry F)}

omit [DecidableEq ι] [Fintype ι] in
theorem LogInv.leaderOf_of_ne_nil (hl : LogInv s g) {U : ℕ} (hU : U ≠ 0) (hne : g.termLog U ≠ []) :
    ∃ i, g.leaderOf U = some i := by
  cases hlead : g.leaderOf U with
  | some i => exact ⟨i, rfl⟩
  | none => exact absurd (hl.unborn U hU hlead) hne

omit [DecidableEq ι] [Fintype ι] in
/-- The log a leader is elected with extends that of the leader of its last term. -/
theorem LogInv.electLog_isPrefix (hl : LogInv s g) {U i W k : _} (hU : g.leaderOf U = some i)
    (hW : g.leaderOf W = some k) (hlast : lastTerm (g.electLog U) = W) :
    g.electLog W <+: g.electLog U := by
  obtain ⟨hok, -, -⟩ := hl.elected U i hU
  obtain ⟨-, hmade, hbelow⟩ := hl.elected W k hW
  have hp : g.electLog U <+: g.termLog W := hlast ▸ hok.prefix_lastTerm
  refine (List.prefix_or_prefix_of_prefix hmade hp).resolve_right fun hp' => ?_
  obtain ⟨e, he, hterm⟩ := hok.lastTerm_mem
  have := hbelow e (hp'.subset he)
  omega

theorem leader_complete (hl : LogInv s g) (hv : VoteInv s g) (hc : Chosen g T l) {U : ℕ} {i : ι}
    (hT : T < U) (hU : g.leaderOf U = some i) : l <+: g.electLog U := by
  induction U using Nat.strong_induction_on generalizing i with
  | _ U ih =>
    -- the leaders between the two terms have the prefix
    have hbetween : ∀ V, T < V → V < U → g.termLog V ≠ [] → ∃ k, g.leaderOf V = some k ∧
        l <+: g.electLog V ∧ g.electLog V <+: g.termLog V := by
      intro V hTV hVU hne
      obtain ⟨k, hk⟩ := hl.leaderOf_of_ne_nil (by omega) hne
      exact ⟨k, hk, ih V hVU hTV hk, (hl.elected V k hk).2.1⟩
    obtain ⟨hok, -, hbelow⟩ := hl.elected U i hU
    -- a voter that held the prefix still had it when it voted
    obtain ⟨Q, hQ, hheld⟩ := hc.quorum
    obtain ⟨Q', hQ', hvoted⟩ := hv.elected U i hU
    obtain ⟨j, hj, hj'⟩ := hQ.meet hQ'
    obtain ⟨log', hlog', hp'⟩ := hheld j hj
    obtain ⟨log, hlog, hup⟩ := hvoted j hj'
    have hp : l <+: log := by
      refine (hlog.kept T log' hT hlog' l hp').resolve_right ?_
      rintro ⟨V, hTV, hVU, hd⟩
      rcases hTV.eq_or_lt with rfl | hTV
      · exact not_disagree_of_isPrefix hc.made hd
      · have hne : g.termLog V ≠ [] := by
          obtain ⟨m, a, b, -, hb, -⟩ := hd
          rintro hnil
          rw [hnil] at hb
          simp at hb
        obtain ⟨k, -, h1, h2⟩ := hbetween V hTV hVU hne
        exact not_disagree_of_isPrefix (h1.trans h2) hd
    have hTlog : T ≤ lastTerm log := hc.last ▸ lastTerm_le_of_isPrefix hlog.ok.sorted hp
    have hWU : lastTerm (g.electLog U) < U := by
      obtain ⟨e, he, hterm⟩ := hok.lastTerm_mem
      exact hterm ▸ hbelow e he
    have hle : lastTerm log ≤ lastTerm (g.electLog U) := by
      rcases hup with hlt | ⟨heq, -⟩ <;> omega
    rcases (hTlog.trans hle).eq_or_lt with hTW | hTW
    · -- both logs end in the term of the prefix
      have heq : lastTerm log = T := by omega
      have hlen : log.length ≤ (g.electLog U).length := by
        have hpos := (List.getElem?_eq_some_iff.mp hok.sentinel).1
        rcases hup with hlt | ⟨-, hlen⟩ <;> omega
      have h1 : log <+: g.termLog T := heq ▸ hlog.ok.prefix_lastTerm
      have h2 : g.electLog U <+: g.termLog T := by
        have := hok.prefix_lastTerm
        rwa [← hTW] at this
      exact hp.trans (List.prefix_of_prefix_length_le h1 h2 hlen)
    · -- the new leader's log ends in the term of a later leader
      have hne : g.termLog (lastTerm (g.electLog U)) ≠ [] := by
        intro hnil
        have := hok.prefix_lastTerm
        rw [hnil, List.prefix_nil] at this
        have hpos := (List.getElem?_eq_some_iff.mp hok.sentinel).1
        simp [this] at hpos
      obtain ⟨k, hk, h1, -⟩ := hbetween _ hTW hWU hne
      exact h1.trans (hl.electLog_isPrefix hU hk rfl)

/-- Every leader from then on has it. -/
theorem Chosen.prefix_termLog (hc : Chosen g T l) (hl : LogInv s g) (hv : VoteInv s g) {U : ℕ}
    (hT : T ≤ U) (hne : g.termLog U ≠ []) : l <+: g.termLog U := by
  rcases hT.eq_or_lt with rfl | hT
  · exact hc.made
  · obtain ⟨i, hi⟩ := hl.leaderOf_of_ne_nil (by omega) hne
    exact (leader_complete hl hv hc hT hi).trans (hl.elected U i hi).2.1

end Completeness

end DistributedLock.Raft
