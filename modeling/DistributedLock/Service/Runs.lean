import DistributedLock.Library.Stamped
import DistributedLock.Service.Steps

/-! What holds in every run of a node, and in every run of a stable leader: the waiters
of its table are in order, its apply thread goes through the indices one by one, and
the callbacks of a stable leader follow its log. -/

namespace DistributedLock.Service

open Library Raft Table

variable {ι F : Type*}

/-! ### The waiters of a node -/

namespace DsccNode

/-- What each call of `AcquireGuard` sleeps on. -/
def sleeps (theta : F) (s : DsccNode ι F) (k : ℕ) : Option (ℕ × Demand F) :=
  (s.acquires[k]?).bind (AcquireCall.sleeping theta)

theorem sleeps_of_get {theta : F} {s : DsccNode ι F} {k : ℕ} {c : AcquireCall F}
    (hk : s.acquires[k]? = some c) : s.sleeps theta k = c.sleeping theta := by
  simp [sleeps, hk]

theorem sleeps_of_admission (theta : F) {s : DsccNode ι F} {k : ℕ} {c : AcquireCall F}
    {a : Admission F} (hk : s.acquires[k]? = some c) (hpc : c.pc = .admission a) :
    s.sleeps theta k = a.sleeping (c.demand theta) := by
  rw [sleeps_of_get hk, AcquireCall.sleeping, hpc]

theorem sleeps_set {theta : F} {s s' : DsccNode ι F} {k : ℕ} {c c' : AcquireCall F}
    (hk : s.acquires[k]? = some c) (hs : s'.acquires = s.acquires.set k c') :
    s'.sleeps theta = Function.update (s.sleeps theta) k (c'.sleeping theta) := by
  funext j
  rw [sleeps, hs]
  exact bind_getElem?_set _ hk j

/-- A call of the agent is in session. -/
def InSession (s : DsccNode ι F) (id : String) : Prop :=
  ∃ (k : ℕ) (c : AcquireCall F),
    s.acquires[k]? = some c ∧ c.agentId = id ∧ c.inSession s.table = true

theorem inSession_iff {s : DsccNode ι F} {id : String} :
    (∃ c ∈ s.acquires, c.agentId = id ∧ c.inSession s.table = true) ↔ s.InSession id := by
  constructor
  · rintro ⟨c, hc, h⟩
    obtain ⟨k, hk⟩ := List.mem_iff_getElem?.mp hc
    exact ⟨k, c, hk, h⟩
  · rintro ⟨k, c, hk, h⟩
    exact ⟨c, List.mem_of_getElem? hk, h⟩

instance (s : DsccNode ι F) (id : String) : Decidable (s.InSession id) :=
  decidable_of_iff _ inSession_iff

variable [Arithmetic F]

theorem sleeps_arrive {theta : F} {s s' : DsccNode ι F} {cfg : ServiceConfig ι F}
    {request : AcquireRequest F} {now : ℤ}
    (hs : s'.acquires = s.acquires ++ [AcquireCall.arrive cfg request now]) :
    s'.sleeps theta = s.sleeps theta := by
  funext j
  rw [sleeps, hs]
  exact bind_getElem?_concat (AcquireCall.arrive_stage cfg request now s.table theta).1 j

variable [DecidableEq ι] {cfg : ServiceConfig ι F} {s s' : DsccNode ι F} {a : Action ι F}

/-- The waiters stay in order in every step, under any leadership. -/
theorem waiters_step (hstep : NodeStep cfg s a s')
    (h : WaitersOk s.table [] (s.sleeps cfg.theta)) :
    WaitersOk s'.table [] (s'.sleeps cfg.theta) := by
  cases hstep with
  | raftEvent event p hchange => exact h
  | finishElection sweeps hsweeps => exact h
  | onCommit layout m e hphase => exact h.onCommit layout e
  | acquireGuard request now => rw [sleeps_arrive rfl]; exact h
  | releaseGuard agentId => exact h
  | acquire k x c p t c' hk hopen hmove =>
    rw [sleeps_set hk rfl]
    have hsame : ∀ {c'' : AcquireCall F}, c.sleeping cfg.theta = none →
        c''.sleeping cfg.theta = none →
        Function.update (s.sleeps cfg.theta) k (c''.sleeping cfg.theta) = s.sleeps cfg.theta := by
      intro c'' hc hc''
      rw [hc'', ← hc, ← sleeps_of_get hk, Function.update_eq_self]
    cases hmove with
    | stay _ hrequest hsleep hsleep' => rw [hsame hsleep hsleep']; exact h
    | wait layout a a' t' hpc hwait =>
      have hsleep := sleeps_of_admission cfg.theta hk hpc
      exact h.move hsleep (h.insertPending layout _ _ _) (h.admissionMove hsleep hwait)
    | appendAcquire index hlead hpc =>
      rw [hsame (by simp [AcquireCall.sleeping, hpc]) rfl]
      exact h
    | removePending layout message hpc =>
      rw [hsame (by simp [AcquireCall.sleeping, hpc]) rfl]
      exact h.removePending layout _
    | appendRelease _ hlead hrequest hsleep hsleep' => rw [hsame hsleep hsleep']; exact h
    | giveUp _ hlead hrequest hsleep hsleep' => rw [hsame hsleep hsleep']; exact h
  | release k x p releases hp => exact h
  | sweep k x w p t w' hk hmove =>
    cases hmove with
    | stay sweepInProgress => exact h.of_same rfl rfl rfl
    | propose agentId orphans => exact h

omit [DecidableEq ι] in
/-- With no calls there are no waiters. -/
theorem waiters_empty {s : DsccNode ι F} (theta : F) (ht : s.table = .empty)
    (hs : s.acquires = []) : WaitersOk s.table [] (s.sleeps theta) := by
  rw [ht]
  exact .empty fun k => by simp [sleeps, hs]

end DsccNode

/-! ### The apply thread -/

theorem appended_apply (cfg : NodeConfig ι) (p : Process ι F) (e : LogEntry F) :
    ApplyChange p (appended cfg p e) :=
  .same rfl rfl (p.node.appendStamped_frame cfg e).2.2.2.2.2.1 id

variable [DecidableEq ι] [Arithmetic F] {cfg : ServiceConfig ι F} {s s' : DsccNode ι F}
  {a : Action ι F}

theorem NodeStep.apply (hstep : NodeStep cfg s a s') : ApplyChange s.raft s'.raft := by
  have hrefl : ApplyChange s.raft s.raft := .same rfl rfl rfl id
  cases hstep with
  | raftEvent event p hchange => exact hchange.apply
  | finishElection sweeps hsweeps => exact .same rfl rfl rfl id
  | onCommit layout m e hphase => exact .finish m e hphase rfl
  | acquireGuard request now => exact hrefl
  | releaseGuard agentId => exact hrefl
  | acquire k x c p t c' hk hopen hmove =>
    cases hmove with
    | appendAcquire => exact appended_apply _ _ _
    | appendRelease => exact appended_apply _ _ _
    | _ => exact hrefl
  | release k x p releases hp =>
    rcases hp with rfl | ⟨-, e, rfl⟩
    · exact hrefl
    · exact appended_apply _ _ _
  | sweep k x w p t w' hk hmove =>
    cases hmove with
    | stay => exact hrefl
    | propose => exact appended_apply _ _ _

/-- Callbacks that have returned stay returned, in their order. -/
theorem NodeStep.applied_isPrefix (hstep : NodeStep cfg s a s') :
    s.raft.applied <+: s'.raft.applied := by
  cases hstep.apply with
  | same hphase happlied => rw [happlied]
  | take e hidle hrun hlt he h => rw [h]
  | fault hlt he h => rw [h]
  | finish m e hcall h =>
    rw [h]
    exact List.prefix_append _ _
  | notify hret h => rw [h]

/-- The callbacks of a node go through the indices one by one. -/
theorem DsccNode.applyOk {as : List (Action ι F)}
    (h : (DsccNode.system cfg).exec as = some s) : ApplyOk s.raft :=
  (DsccNode.system cfg).invariant (P := fun s => ApplyOk s.raft) (.start cfg.node)
    (fun _ _ _ hok ht => hok.step (DsccNode.step_cases ht).2.apply) h

/-! ### A stable leader -/

namespace DsccNode

theorem stable_step {T : ℕ} (h : (stableSystem cfg T).step s a = some s') :
    NodeStep cfg s a s' ∧ s'.leads = true := by
  obtain ⟨hstep, hleads⟩ := Option.filter_eq_some_iff.mp h
  exact ⟨(step_cases hstep).2, hleads⟩

omit [DecidableEq ι] [Arithmetic F] in
theorem leads_iff {s : DsccNode ι F} :
    s.leads = true ↔ s.raft.node.state = .leader ∧ s.raft.halted = false := by
  simp [leads]

/-- The entries of the log whose callbacks have not returned. -/
def unapplied (s : DsccNode ι F) : List (LogEntry F) :=
  s.raft.node.log.drop (s.raft.applied.length + 1)

omit [DecidableEq ι] [Arithmetic F] in
theorem unapplied_congr {s s' : DsccNode ι F} (hlog : s'.raft.node.log = s.raft.node.log)
    (happlied : s'.raft.applied = s.raft.applied) : s'.unapplied = s.unapplied := by
  rw [unapplied, unapplied, hlog, happlied]

/-- A stable leader applies its own log. -/
structure StableInv (s : DsccNode ι F) : Prop where
  leads : s.leads = true
  apply : ApplyOk s.raft
  replay : ∀ (k : ℕ) m e, s.raft.calls[k]? = some (m, e) → s.raft.node.log[m]? = some e
  nonempty : s.raft.node.log ≠ []

end DsccNode

open DsccNode

omit [DecidableEq ι] [Arithmetic F] in
theorem appended_log (cfg : NodeConfig ι) (p : Process ι F) (e : LogEntry F) :
    (appended cfg p e).node.log = p.node.log ++ [{ e with term := p.node.currentTerm }] :=
  (p.node.appendStamped_frame cfg e).1

omit [DecidableEq ι] [Arithmetic F] in
/-- What a step does to the log of a leader that stays leader: nothing, or an entry of
its term is appended. -/
inductive Reign (p p' : Process ι F) : Prop
  | same (hterm : p'.node.currentTerm = p.node.currentTerm) (hlog : p'.node.log = p.node.log)
  | append (e : LogEntry F) (he : e.term = p.node.currentTerm)
    (hterm : p'.node.currentTerm = p.node.currentTerm) (hlog : p'.node.log = p.node.log ++ [e])

omit [DecidableEq ι] [Arithmetic F] in
theorem reign_appended (cfg : NodeConfig ι) (p : Process ι F) (e : LogEntry F) :
    Reign p (appended cfg p e) := by
  obtain ⟨hlog, hterm, -⟩ := p.node.appendStamped_frame cfg e
  exact .append _ rfl hterm hlog

theorem NodeStep.reign (hstep : NodeStep cfg s a s') (hs : s.leads = true)
    (hs' : s'.leads = true) : Reign s.raft s'.raft := by
  cases hstep with
  | raftEvent event p hchange =>
    cases hchange with
    | node n election hlast hkeep =>
      obtain ⟨hlog, hterm⟩ := hkeep (leads_iff.mp hs).1 (leads_iff.mp hs').1
      exact .same hterm hlog
    | _ => exact .same rfl rfl
  | acquire k x c p t c' hk hopen hmove =>
    cases hmove with
    | appendAcquire => exact reign_appended _ _ _
    | appendRelease => exact reign_appended _ _ _
    | _ => exact .same rfl rfl
  | release k x p releases hp =>
    rcases hp with rfl | ⟨-, b, rfl⟩
    · exact .same rfl rfl
    · exact reign_appended _ _ _
  | sweep k x w p t w' hk hmove =>
    cases hmove with
    | stay => exact .same rfl rfl
    | propose => exact reign_appended _ _ _
  | _ => exact .same rfl rfl

/-- The log of a stable leader grows at its end. -/
theorem NodeStep.log_isPrefix (hstep : NodeStep cfg s a s') (hs : s.leads = true)
    (hs' : s'.leads = true) : s.raft.node.log <+: s'.raft.node.log := by
  cases hstep.reign hs hs' with
  | same hterm hlog => rw [hlog]
  | append e he hterm hlog =>
    rw [hlog]
    exact List.prefix_append _ _

namespace DsccNode

namespace StableInv

omit [DecidableEq ι] in
theorem start (cfg : ServiceConfig ι F) (T : ℕ) : StableInv (leaderStart cfg T) := by
  refine ⟨rfl, ⟨?_, fun _ => rfl⟩, ?_, by simp [leaderStart, RaftNode.becomeLeader]⟩ <;>
    simp [leaderStart, Process.calls]

theorem step (h : StableInv s) (hstep : NodeStep cfg s a s') (hleads : s'.leads = true) :
    StableInv s' := by
  have hgrow := hstep.log_isPrefix h.leads hleads
  have hkeep : ∀ (m : ℕ) e, s.raft.node.log[m]? = some e → s'.raft.node.log[m]? = some e :=
    prefix_iff_forall_getElem?.mp hgrow
  refine ⟨hleads, h.apply.step hstep.apply, fun k m e hk => ?_, fun hnil => ?_⟩
  · rcases hstep.apply.calls_cases with ⟨hcalls, -⟩ | ⟨-, -, -, x, hx, hcalls⟩ <;>
      rw [hcalls] at hk
    · exact hkeep m e (h.replay k m e hk)
    · rcases getElem?_of_concat hk with hk | ⟨-, heq⟩
      · exact hkeep m e (h.replay k m e hk)
      · obtain ⟨rfl, rfl⟩ := Prod.mk.inj heq
        exact hkeep _ _ hx
  · rw [hnil] at hgrow
    exact h.nonempty (List.prefix_nil.mp hgrow)

omit [DecidableEq ι] [Arithmetic F] in
theorem applied_lt (h : StableInv s) : s.raft.applied.length < s.raft.node.log.length := by
  rcases Nat.eq_zero_or_pos s.raft.applied.length with hzero | hpos
  · rw [hzero]
    exact List.length_pos_iff.mpr h.nonempty
  · have hlast := List.getElem?_eq_getElem (l := s.raft.applied)
      (i := s.raft.applied.length - 1) (by omega)
    have hcall := prefix_iff_forall_getElem?.mp (ApplyOk.applied_isPrefix s.raft) _ _ hlast
    have hindex := h.apply.index _ _ _ hcall
    have hget := (List.getElem?_eq_some_iff.mp (h.replay _ _ _ hcall)).1
    omega

omit [DecidableEq ι] [Arithmetic F] in
/-- The callback runs on the first entry not yet applied. -/
theorem unapplied_calling (h : StableInv s) {m : ℕ} {e : LogEntry F}
    (hphase : s.raft.phase = .calling m e) {s' : DsccNode ι F}
    (hlog : s'.raft.node.log = s.raft.node.log)
    (happlied : s'.raft.applied = s.raft.applied ++ [(m, e)]) :
    s.unapplied = e :: s'.unapplied := by
  have hcalls : s.raft.calls[s.raft.applied.length]? = some (m, e) := by
    simp [Process.calls, hphase]
  have hindex := h.apply.index _ m e hcalls
  have hget := h.replay _ m e hcalls
  rw [hindex] at hget
  obtain ⟨hlt, hget⟩ := List.getElem?_eq_some_iff.mp hget
  rw [unapplied, unapplied, List.drop_eq_getElem_cons hlt, hget, hlog, happlied,
    List.length_append, List.length_singleton]

omit [DecidableEq ι] [Arithmetic F] in
theorem unapplied_append (h : StableInv s) {s' : DsccNode ι F} {e : LogEntry F}
    (hlog : s'.raft.node.log = s.raft.node.log ++ [e])
    (happlied : s'.raft.applied = s.raft.applied) : s'.unapplied = s.unapplied ++ [e] := by
  have hlt := h.applied_lt
  rw [unapplied, unapplied, hlog, happlied, List.drop_append_of_le_length (by omega)]

end StableInv

omit [DecidableEq ι] [Arithmetic F] in
/-- All callbacks have returned. -/
theorem StableInv.unapplied_eq_nil (h : StableInv s)
    (happlied : ∀ k, 1 ≤ k → k < s.raft.node.log.length → ∃ e, (k, e) ∈ s.raft.applied) :
    s.unapplied = [] := by
  refine List.drop_eq_nil_of_le ?_
  by_contra hlt
  have hlast := happlied (s.raft.applied.length + 1) (by omega) (by omega)
  have := (h.apply.returned.mp hlast).2
  omega

end DsccNode

end DistributedLock.Service
