import DistributedLock.Raft.StateMachineSafety

/-! From one moment of a run to a later one. A leader's log only grows as long as its
term lasts. In the runs in which no follower answers over a stale tail what one node has
committed stays where it is, and is in the log of every leader of that term or a later
one. -/

namespace DistributedLock.Raft

open Library

/-- What is known of the Raft layers while no request is answered over a stale tail. -/
structure FreshInv {ι F : Type*} [Fintype ι] [DecidableEq ι] [Zero F] (c : ClusterConfig ι)
    (s : Cluster ι F) (g : History ι F) : Prop where
  known : RaftInv c s g
  commit : CommitInv s g
  applied : AppliedInLog s
  apply : ∀ i, ApplyOk (s.procs i)

namespace FreshInv

variable {ι F : Type*} [Fintype ι] [DecidableEq ι] [Zero F] {c : ClusterConfig ι}
  {s s' : Cluster ι F} {g : History ι F}

theorem init (c : ClusterConfig ι) :
    FreshInv c (Cluster.start c : Cluster ι F) (History.start c) :=
  ⟨.init c, .init c, fun _ _ _ hmem => (by cases hmem), fun i => .start (c.node i)⟩

theorem step {a : Action ι F} (h : FreshInv c s g)
    (hstep : s.step c a = some s') (hfresh : FreshTail s a) :
    FreshInv c s' (History.record s a s' g) :=
  ⟨h.known.step hstep, h.commit.step h.known hstep hfresh,
    h.commit.applied_step h.known h.applied hstep,
    fun i => (h.apply i).step (Cluster.step_apply hstep i)⟩

/-- The calls of `on_commit_` of one number are the same on all nodes. -/
theorem calls_agree (h : FreshInv c s g) {i j : ι} {k : ℕ} {x y : ℕ × LogEntry F}
    (hx : (s.procs i).calls[k]? = some x) (hy : (s.procs j).calls[k]? = some y) : x = y := by
  obtain ⟨m, e⟩ := x
  obtain ⟨m', e'⟩ := y
  obtain rfl := (h.apply i).index k m e hx
  obtain rfl := (h.apply j).index k m' e' hy
  obtain ⟨hle, hget⟩ := h.applied i _ _ (List.mem_of_getElem? hx)
  obtain ⟨hle', hget'⟩ := h.applied j _ _ (List.mem_of_getElem? hy)
  rw [h.commit.agree h.known hle hle' hget hget']

/-- So are the entries applied, as far as both nodes have come. -/
theorem applied_isPrefix (h : FreshInv c s g) {i j : ι}
    (hle : (s.procs i).applied.length ≤ (s.procs j).applied.length) :
    (s.procs i).applied <+: (s.procs j).applied := by
  refine prefix_iff_forall_getElem?.mpr fun k x hx => ?_
  have hlt := (List.getElem?_eq_some_iff.mp hx).1
  have hy := List.getElem?_eq_getElem (hlt.trans_le hle)
  have hcalls : ∀ {l : ι} {z : ℕ × LogEntry F}, (s.procs l).applied[k]? = some z →
      (s.procs l).calls[k]? = some z := fun hz =>
    prefix_iff_forall_getElem?.mp (ApplyOk.applied_isPrefix _) k _ hz
  rw [hy, h.calls_agree (hcalls hx) (hcalls hy)]

/-- A committed entry stays committed. -/
theorem kept_step {a : Action ι F} (h : FreshInv c s g) (hstep : s.step c a = some s') {i : ι}
    {m : ℕ} {e : LogEntry F} (hm : m ≤ (s.node i).commitIndex)
    (he : (s.node i).log[m]? = some e) :
    m ≤ (s'.node i).commitIndex ∧ (s'.node i).log[m]? = some e := by
  refine ⟨hm.trans (h.commit.commitIndex_le h.known hstep i), ?_⟩
  refine prefix_iff_forall_getElem?.mp
    (h.commit.retained h.known.log h.known.vote hstep i) m e ?_
  rwa [List.getElem?_take_of_lt (by omega)]

/-- A running node has handed over what it has committed up to `last_applied_`. -/
theorem handed_over (h : FreshInv c s g) {i : ι} (hrun : (s.procs i).halted = false) {m : ℕ}
    {e : LogEntry F} (hpos : 0 < m) (hm : m ≤ (s.node i).lastApplied)
    (he : (s.node i).log[m]? = some e) : (m, e) ∈ (s.procs i).calls := by
  have hlt : m - 1 < (s.procs i).calls.length := by
    rw [(h.apply i).count hrun]
    exact (Nat.sub_one_lt hpos.ne').trans_le hm
  obtain ⟨⟨m', e'⟩, hget⟩ : ∃ x, (s.procs i).calls[m - 1]? = some x :=
    ⟨_, List.getElem?_eq_getElem hlt⟩
  obtain rfl : m' = m := by
    have := (h.apply i).index _ _ _ hget
    omega
  have hlog := (h.applied i _ _ (List.mem_of_getElem? hget)).2
  rw [he, Option.some.injEq] at hlog
  exact hlog ▸ List.mem_of_getElem? hget

end FreshInv

/-- The calls of `on_commit_` are not taken back. -/
theorem ApplyChange.calls_isPrefix {ι F : Type*} {p p' : Process ι F} (h : ApplyChange p p') :
    p.calls <+: p'.calls := by
  rcases h.calls_cases with ⟨hcalls, -⟩ | ⟨-, -, -, e, -, hcalls⟩ <;> rw [hcalls]
  exact List.prefix_append _ _

/-! ### From one moment to a later one -/

section Onward

variable {ι F : Type*} [DecidableEq ι]

/-- What stays from one state of a run to a later one. -/
structure Onward (s : Cluster ι F) (g : History ι F) (s' : Cluster ι F) (g' : History ι F) :
    Prop where
  termLog : ∀ T, g.termLog T <+: g'.termLog T
  held : ∀ j T l, g.held j T l → g'.held j T l
  leaderOf : ∀ T i, g.leaderOf T = some i → g'.leaderOf T = some i

namespace Onward

variable {s s' s'' : Cluster ι F} {g g' g'' : History ι F}

omit [DecidableEq ι] in
theorem refl (s : Cluster ι F) (g : History ι F) : Onward s g s g :=
  ⟨fun _ => List.prefix_refl _, fun _ _ _ h => h, fun _ _ h => h⟩

omit [DecidableEq ι] in
theorem trans (h : Onward s g s' g') (h' : Onward s' g' s'' g'') : Onward s g s'' g'' :=
  ⟨fun T => (h.termLog T).trans (h'.termLog T), fun j T l hl => h'.held j T l (h.held j T l hl),
    fun T i hi => h'.leaderOf T i (h.leaderOf T i hi)⟩

theorem step [Fintype ι] [Zero F] {c : ClusterConfig ι} {a : Action ι F} (h : RaftInv c s g)
    (hstep : s.step c a = some s') : Onward s g s' (History.record s a s' g) :=
  ⟨h.log.grows h.election hstep, fun _ _ _ hl => Cluster.held_iff.mpr (Or.inl hl),
    fun _ _ hi => h.election.record_mono hstep hi⟩

end Onward

end Onward

namespace Cluster

variable {ι F : Type*} [Fintype ι] [DecidableEq ι] [Zero F]

/-- A leader only appends to its log: of two moments of a run in which some node leads
in one term, the node is the same and its earlier log is a prefix of its later one. -/
theorem leader_append_only (c : ClusterConfig ι) (as bs : List (Action ι F)) (s t : Cluster ι F)
    (hs : (system c).exec as = some s) (ht : (system c).execFrom s bs = some t) (i j : ι)
    (hi : (s.node i).state = .leader) (hj : (t.node j).state = .leader)
    (hterm : (s.node i).currentTerm = (t.node j).currentTerm) :
    i = j ∧ (s.node i).log <+: (t.node j).log := by
  obtain ⟨g, hg⟩ := (system c).historyInvariant (g := History.start c)
    (P := fun _ s g => RaftInv c s g) History.record (.init c)
    (fun _ _ _ _ _ hg hstep => hg.step hstep) hs
  obtain ⟨g', hg', hon⟩ := (system c).execFrom_invariant
    (P := fun t => ∃ g', RaftInv c t g' ∧ Onward s g t g') ⟨g, hg, .refl s g⟩
    (fun _ _ _ ⟨_, hg', hon⟩ hstep => ⟨_, hg'.step hstep, hon.trans (.step hg' hstep)⟩) ht
  constructor
  · have hlead := hon.leaderOf _ i ((hg.election.role i).leads hi)
    rw [hterm, (hg'.election.role j).leads hj, Option.some.injEq] at hlead
    exact hlead.symm
  · rw [← hg.log.leads i hi, ← hg'.log.leads j hj, ← hterm]
    exact hon.termLog _

theorem leader_append_only_elected :
    ∃ s t : Cluster (Fin 3) ℕ, (system .testNodes).exec (electionRun.take 4) = some s ∧
      (system .testNodes).execFrom s (electionRun.drop 4) = some t ∧
      (s.node 0).log.length = 1 ∧ (t.node 0).log.length = 2 ∧
      (s.node 0).log <+: (t.node 0).log := by
  have h : ((system .testNodes).exec (electionRun.take 4)).isSome := rfl
  have h' : ((system .testNodes).execFrom (Option.get _ h) (electionRun.drop 4)).isSome := rfl
  exact ⟨_, _, (Option.some_get h).symm, (Option.some_get h').symm, rfl, rfl,
    (leader_append_only .testNodes _ _ _ _ (Option.some_get h).symm (Option.some_get h').symm
      0 0 rfl rfl rfl).2⟩

/-- What a node has committed at one moment is in the log of every node that leads in
its term or a later one from then on, and is what any node has committed at these
indices. -/
theorem committed_stays (c : ClusterConfig ι) (as bs : List (Action ι F)) (s t : Cluster ι F)
    (hs : ((system c).guard FreshTail).exec as = some s)
    (ht : ((system c).guard FreshTail).execFrom s bs = some t) (i j : ι) :
    ((t.node j).state = .leader → (s.node i).currentTerm ≤ (t.node j).currentTerm →
      (s.node i).log.take ((s.node i).commitIndex + 1) <+: (t.node j).log) ∧
    ∀ m, m ≤ (s.node i).commitIndex → m ≤ (t.node j).commitIndex →
      (s.node i).log[m]? = (t.node j).log[m]? := by
  obtain ⟨g, hg⟩ := System.historyInvariant (g := History.start c) _
    (P := fun _ s g => FreshInv c s g) History.record (.init c) (fun _ _ _ _ _ hg hstep => by
      obtain ⟨hfresh, hstep⟩ := System.guard_step.mp hstep
      exact hg.step hstep hfresh) hs
  -- beside the history, node `i` keeps what it has committed
  obtain ⟨g', hg', hon, hle, hkept⟩ := System.execFrom_invariant _
    (P := fun t => ∃ g', FreshInv c t g' ∧ Onward s g t g' ∧
      (s.node i).commitIndex ≤ (t.node i).commitIndex ∧
      (s.node i).log.take ((s.node i).commitIndex + 1) <+: (t.node i).log)
    ⟨g, hg, .refl s g, le_rfl, List.take_prefix _ _⟩ (by
      rintro t a t' ⟨g', hg', hon, hle, hkept⟩ hstep
      obtain ⟨hfresh, hstep⟩ := System.guard_step.mp hstep
      have hlen := (hg.commit.commit i).1
      refine ⟨_, hg'.step hstep hfresh, hon.trans (.step hg'.known hstep),
        hle.trans (hg'.commit.commitIndex_le hg'.known hstep i), ?_⟩
      refine List.IsPrefix.trans ?_ (hg'.commit.retained hg'.known.log hg'.known.vote hstep i)
      refine List.prefix_take_iff.mpr ⟨hkept, ?_⟩
      rw [List.length_take]
      omega) ht
  constructor
  · intro hlead hterm
    have hleads := hg'.known.log.leads j hlead
    have hleader := hg'.known.log.node j
    rw [← hleads] at hleader ⊢
    exact ((hg.commit.commit i).mono hon.termLog hon.held le_rfl).prefix_termLog hg'.known.log
      hg'.known.vote ((hg.known.log.node i).mono hon.termLog le_rfl) hterm hleader
  · intro m hi hj
    have hlen := (hg.commit.commit i).1
    have hlen' := (hg'.commit.commit j).1
    obtain ⟨e, he⟩ : ∃ e, (s.node i).log[m]? = some e :=
      ⟨_, List.getElem?_eq_getElem (by omega)⟩
    obtain ⟨e', he'⟩ : ∃ e', (t.node j).log[m]? = some e' :=
      ⟨_, List.getElem?_eq_getElem (by omega)⟩
    have hnow : (t.node i).log[m]? = some e := by
      refine prefix_iff_forall_getElem?.mp hkept m _ ?_
      rw [List.getElem?_take_of_lt (by omega), he]
    rw [he, he', hg'.commit.agree hg'.known (hi.trans hle) hj hnow he']

/-- Node 2, which has heard of the commit, wins term 2 with the vote of node 3. -/
def takeoverRun : List (Action (Fin 3) ℕ) :=
  [.startElection 1, .sendVoteRequest 1, .voteRequestFailed 1, .sendVoteRequest 1,
    .handleRequestVote 2, .receiveVote 1]

theorem committed_stays_takeover :
    ∃ s t : Cluster (Fin 3) ℕ, (system .testNodes).exec healthyRun = some s ∧
      (system .testNodes).execFrom s takeoverRun = some t ∧ (s.node 0).commitIndex = 1 ∧
      (t.node 1).currentTerm = 2 ∧
      (s.node 0).log.take ((s.node 0).commitIndex + 1) <+: (t.node 1).log := by
  have h : (((system .testNodes).guard FreshTail).exec healthyRun).isSome := rfl
  have h' : (((system .testNodes).guard FreshTail).execFrom (Option.get _ h) takeoverRun).isSome :=
    rfl
  have hrun := (Option.some_get h).symm
  have hrun' := (Option.some_get h').symm
  have hplain : ((system .testNodes).execFrom (Option.get _ h) takeoverRun).isSome := rfl
  refine ⟨_, Option.get _ hplain, System.exec_of_guard hrun, (Option.some_get hplain).symm, rfl,
    rfl, ?_⟩
  exact (committed_stays .testNodes _ _ _ _ hrun hrun' 0 1).1 rfl (of_decide_eq_true rfl)

end Cluster

end DistributedLock.Raft

