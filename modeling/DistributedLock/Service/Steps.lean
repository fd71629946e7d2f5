import DistributedLock.Library.Lists
import DistributedLock.Service.Node
import DistributedLock.Table.Waiters

/-! What one step of a node can do, said once: to the Raft process, to the table, to
the stage in which a call of `AcquireGuard` is, and to the sweep threads. Later proofs
go by cases on these and do not unfold the threads. -/

namespace DistributedLock.Service

open Library Raft Table

variable {ι F : Type*}

/-! ### Stages of a call of AcquireGuard -/

namespace AcquireCall

/-- What the call sleeps on. -/
def sleeping (theta : F) (c : AcquireCall F) : Option (ℕ × Demand F) :=
  match c.pc with
  | .admission a => a.sleeping (c.demand theta)
  | _ => none

/-- The call has been admitted, by itself or by a hand-off, and has neither returned
nor proposed its release. -/
def inSession (t : LockTable F) (c : AcquireCall F) : Bool :=
  match c.pc with
  | .admission (.asleep w _) => (t.waiter w).granted
  | .admission (.returned _) => true
  | .proposeAcquire | .awaitAcquireCommit _ | .removePending | .compensate _ => true
  | .awaitAcquireApplied _ | .qdrant => true
  | .proposeRelease attempt => attempt ≠ .second
  | _ => false

/-- The call is in session and may still reach Qdrant, or has reached it. -/
def holdsSlot (t : LockTable F) (c : AcquireCall F) : Bool :=
  match c.pc with
  | .removePending | .compensate _ => false
  | _ => c.inSession t

/-- The call has not returned. -/
def isOpen (c : AcquireCall F) : Bool :=
  match c.pc with
  | .returned _ => false
  | _ => true

/-- From the ACQUIRE reported applied to the proposal of the RELEASE. -/
def inQdrantPhase (c : AcquireCall F) : Bool :=
  match c.pc with
  | .qdrant => true
  | .proposeRelease attempt => attempt ≠ .second
  | _ => false

theorem inSession_of_holdsSlot {t : LockTable F} {c : AcquireCall F} (h : c.holdsSlot t = true) :
    c.inSession t = true := by
  unfold holdsSlot at h
  split at h
  · cases h
  · cases h
  · exact h

theorem isOpen_of_inSession {t : LockTable F} {c : AcquireCall F} (h : c.inSession t = true) :
    c.isOpen = true := by
  unfold inSession at h
  unfold isOpen
  split
  · rename_i status hpc
    simp [hpc] at h
  · rfl

theorem holdsSlot_of_inQdrantPhase (t : LockTable F) {c : AcquireCall F}
    (h : c.inQdrantPhase = true) : c.holdsSlot t = true := by
  unfold inQdrantPhase at h
  unfold holdsSlot inSession
  split at h <;> simp_all

theorem sleeping_eq_some {theta : F} {c : AcquireCall F} {w : ℕ} {d : Demand F}
    (h : c.sleeping theta = some (w, d)) :
    (∃ trace, c.pc = .admission (.asleep w trace)) ∧ d = c.demand theta := by
  unfold sleeping at h
  split at h
  · rename_i a hpc
    unfold Admission.sleeping at h
    split at h
    · obtain ⟨rfl, rfl⟩ := Prod.mk.inj (Option.some.inj h)
      exact ⟨⟨_, hpc⟩, rfl⟩
    · cases h
  · cases h

/-- The stage depends on the table only through the entry a call sleeps on. -/
theorem stage_cases (theta : F) (c : AcquireCall F) :
    (∃ w d, c.sleeping theta = some (w, d) ∧ ∀ t : LockTable F,
        c.inSession t = (t.waiter w).granted ∧ c.holdsSlot t = (t.waiter w).granted) ∨
      ∀ t t' : LockTable F, c.inSession t' = c.inSession t ∧ c.holdsSlot t' = c.holdsSlot t := by
  unfold holdsSlot inSession sleeping
  cases hpc : c.pc with
  | admission a =>
    cases a with
    | asleep w trace => exact Or.inl ⟨w, c.demand theta, rfl, fun _ => ⟨rfl, rfl⟩⟩
    | gate => exact Or.inr fun _ _ => ⟨rfl, rfl⟩
    | returned trace => exact Or.inr fun _ _ => ⟨rfl, rfl⟩
  | _ => exact Or.inr fun _ _ => ⟨rfl, rfl⟩

/-- A table that keeps the grants of sleeping calls keeps the stages. -/
theorem stage_of_granted (theta : F) (c : AcquireCall F) {t t' : LockTable F}
    (hgranted : ∀ w d, c.sleeping theta = some (w, d) → (t.waiter w).granted = true →
      (t'.waiter w).granted = true) :
    (c.inSession t = true → c.inSession t' = true) ∧
      (c.holdsSlot t = true → c.holdsSlot t' = true) := by
  rcases c.stage_cases theta with ⟨w, d, hsleep, hstage⟩ | hstage
  · rw [(hstage t).1, (hstage t').1, (hstage t).2, (hstage t').2]
    exact ⟨hgranted w d hsleep, hgranted w d hsleep⟩
  · rw [(hstage t t').1, (hstage t t').2]
    exact ⟨id, id⟩

/-- A sleeping call is in session, and has its slot, once it is granted. -/
theorem stage_of_sleeping {theta : F} {c : AcquireCall F} {w : ℕ} {d : Demand F}
    (h : c.sleeping theta = some (w, d)) (t : LockTable F) :
    c.inSession t = (t.waiter w).granted ∧ c.holdsSlot t = (t.waiter w).granted := by
  obtain ⟨⟨trace, hpc⟩, -⟩ := sleeping_eq_some h
  simp [holdsSlot, inSession, hpc]

theorem arrive_stage [Zero F] (cfg : ServiceConfig ι F) (request : AcquireRequest F) (now : ℤ)
    (t : LockTable F) (theta : F) :
    (arrive cfg request now).sleeping theta = none ∧
      (arrive cfg request now).inSession t = false ∧
      (arrive cfg request now).holdsSlot t = false := by
  unfold arrive
  dsimp only
  split_ifs <;> exact ⟨rfl, rfl, rfl⟩

theorem arrive_request [Zero F] (cfg : ServiceConfig ι F) (request : AcquireRequest F)
    (now : ℤ) : (arrive cfg request now).request = request := by
  unfold arrive
  dsimp only
  split_ifs <;> rfl

theorem arrive_agentId [Zero F] (cfg : ServiceConfig ι F) (request : AcquireRequest F)
    (now : ℤ) : (arrive cfg request now).agentId = request.agentId :=
  congrArg AcquireRequest.agentId (arrive_request cfg request now)

end AcquireCall

/-! ### Proposals -/

/-- The process after a leader has appended an entry. -/
def appended (cfg : NodeConfig ι) (p : Process ι F) (entry : LogEntry F) : Process ι F :=
  { p with node := p.node.appendStamped cfg entry }

theorem append_cases (cfg : NodeConfig ι) {p : Process ι F} (hrun : p.halted = false)
    (entry : LogEntry F) :
    (p.node.state = .leader ∧ p.append cfg entry = some (appended cfg p entry)) ∨
      (p.node.state ≠ .leader ∧ p.append cfg entry = none) := by
  unfold Process.append
  split_ifs with h
  · rw [hrun] at h
    simp only [Bool.false_eq_true, false_or] at h
    exact Or.inr ⟨h, rfl⟩
  · simp only [not_or, not_not] at h
    exact Or.inl ⟨h.2, rfl⟩

theorem beginPropose_cases (cfg : NodeConfig ι) {p : Process ι F} (hrun : p.halted = false)
    (entry : LogEntry F) :
    (p.node.state = .leader ∧
        beginPropose cfg p entry = (appended cfg p entry, some p.node.log.length)) ∨
      (p.node.state ≠ .leader ∧ beginPropose cfg p entry = (p, none)) := by
  unfold beginPropose
  rcases append_cases cfg hrun entry with ⟨hlead, he⟩ | ⟨hlead, he⟩ <;> rw [he]
  · refine Or.inl ⟨hlead, ?_⟩
    simp [appended, (p.node.appendStamped_frame cfg entry).1]
  · exact Or.inr ⟨hlead, rfl⟩

/-! ### Steps of AcquireGuard -/

variable [Arithmetic F]

/-- The ways in which a step of a call changes the process, the table and the call. -/
inductive AcquireMove (cfg : ServiceConfig ι F) (p : Process ι F) (t : LockTable F)
    (c : AcquireCall F) : Process ι F → LockTable F → AcquireCall F → Prop
  | stay (c' : AcquireCall F) (hrequest : c'.request = c.request)
    (hsleep : c.sleeping cfg.theta = none) (hsleep' : c'.sleeping cfg.theta = none)
    (hsession : c'.inSession t = c.inSession t)
    (hholds : c'.holdsSlot t = true → c.holdsSlot t = true) : AcquireMove cfg p t c p t c'
  | wait (layout : Layout String) (a a' : Admission F) (t' : LockTable F)
    (hpc : c.pc = .admission a)
    (hwait : t.waitForAdmission layout (c.demand cfg.theta) a = some (t', a')) :
    AcquireMove cfg p t c p t' { c with pc := .admission a' }
  | appendAcquire (index : ℕ) (hlead : p.node.state = .leader) (hpc : c.pc = .proposeAcquire) :
    AcquireMove cfg p t c (appended cfg.node p (c.acquireEntry cfg)) t
      { c with pc := .awaitAcquireCommit index }
  | removePending (layout : Layout String) (message : String) (hpc : c.pc = .removePending) :
    AcquireMove cfg p t c p (t.removePending layout c.agentId).1
      { c with pc := .compensate message }
  | appendRelease (c' : AcquireCall F) (hlead : p.node.state = .leader)
    (hrequest : c'.request = c.request) (hsleep : c.sleeping cfg.theta = none)
    (hsleep' : c'.sleeping cfg.theta = none) (hsession : c'.inSession t = false) :
    AcquireMove cfg p t c (appended cfg.node p (.release c.agentId)) t c'
  | giveUp (c' : AcquireCall F) (hlead : p.node.state ≠ .leader)
    (hrequest : c'.request = c.request) (hsleep : c.sleeping cfg.theta = none)
    (hsleep' : c'.sleeping cfg.theta = none) (hsession : c'.inSession t = false) :
    AcquireMove cfg p t c p t c'

/-- A call keeps its request. -/
theorem AcquireMove.request {cfg : ServiceConfig ι F} {p p' : Process ι F} {t t' : LockTable F}
    {c c' : AcquireCall F} (h : AcquireMove cfg p t c p' t' c') : c'.request = c.request := by
  cases h with
  | stay _ hrequest => exact hrequest
  | appendRelease _ _ hrequest => exact hrequest
  | giveUp _ _ hrequest => exact hrequest
  | _ => rfl

namespace AcquireCall

variable {cfg : ServiceConfig ι F} {p p' : Process ι F} {t t' : LockTable F}
  {c c' : AcquireCall F} {x : Choice}

omit [Arithmetic F] in
theorem releaseFailed_stage (c : AcquireCall F) (attempt : Attempt) (t : LockTable F)
    (theta : F) :
    (c.releaseFailed attempt).request = c.request ∧
      (c.releaseFailed attempt).sleeping theta = none ∧
      (c.releaseFailed attempt).inSession t = false := by
  cases attempt <;> exact ⟨rfl, rfl, rfl⟩

omit [Arithmetic F] in
theorem releaseDone_stage (c : AcquireCall F) (attempt : Attempt) (now : ℤ) (t : LockTable F)
    (theta : F) :
    (c.releaseDone attempt now).request = c.request ∧
      (c.releaseDone attempt now).sleeping theta = none ∧
      (c.releaseDone attempt now).inSession t = false := by
  cases attempt <;> exact ⟨rfl, rfl, rfl⟩

omit [Arithmetic F] in
/-- Outside the session nothing is held. -/
theorem holdsSlot_of_not_inSession (h : c.inSession t = false) : c.holdsSlot t = false := by
  cases hc : c.holdsSlot t with
  | false => rfl
  | true => rw [inSession_of_holdsSlot hc] at h; cases h

theorem isOpen_of_step (h : c.step cfg p t x = some (p', t', c')) : c.isOpen = true := by
  unfold isOpen
  split
  · rename_i status hpc
    simp [step, hpc] at h
  · rfl

theorem step_move (hrun : p.halted = false) (h : c.step cfg p t x = some (p', t', c')) :
    AcquireMove cfg p t c p' t' c' := by
  unfold step at h
  cases hpc : c.pc with
  | checkLeader =>
    simp only [hpc] at h
    split_ifs at h <;> obtain ⟨rfl, rfl, rfl⟩ := h <;>
      exact .stay _ rfl (by simp [sleeping, hpc]) rfl (by simp [inSession, hpc]) (by
        simp [holdsSlot, inSession])
  | redirect =>
    simp only [hpc] at h
    obtain ⟨rfl, rfl, rfl⟩ := h
    unfold redirectTo
    dsimp only
    split_ifs <;>
      exact .stay _ rfl (by simp [sleeping, hpc]) rfl (by simp [inSession, hpc, refuse]) (by
        simp [holdsSlot, inSession, refuse])
  | admission a =>
    cases a with
    | returned trace =>
      simp only [hpc] at h
      obtain ⟨rfl, rfl, rfl⟩ := h
      exact .stay _ rfl (by simp [sleeping, hpc, Admission.sleeping]) rfl
        (by simp [inSession, hpc, recordAdmission]) (by simp [holdsSlot, inSession, hpc])
    | gate =>
      simp only [hpc, Option.map_eq_some_iff] at h
      obtain ⟨⟨t₁, a'⟩, hwait, he⟩ := h
      obtain ⟨rfl, rfl, rfl⟩ := he
      exact .wait x.layout _ _ _ hpc hwait
    | asleep w trace =>
      simp only [hpc, Option.map_eq_some_iff] at h
      obtain ⟨⟨t₁, a'⟩, hwait, he⟩ := h
      obtain ⟨rfl, rfl, rfl⟩ := he
      exact .wait x.layout _ _ _ hpc hwait
  | proposeAcquire =>
    simp only [hpc] at h
    rcases beginPropose_cases cfg.node hrun (c.acquireEntry cfg) with ⟨hlead, he⟩ | ⟨hlead, he⟩ <;>
      rw [he] at h <;> obtain ⟨rfl, rfl, rfl⟩ := h
    · exact .appendAcquire _ hlead hpc
    · exact .stay _ rfl (by simp [sleeping, hpc]) rfl (by simp [inSession, hpc])
        (by simp [holdsSlot])
  | awaitAcquireCommit index =>
    simp only [hpc, Option.map_eq_some_iff] at h
    obtain ⟨ok, -, he⟩ := h
    obtain ⟨rfl, rfl, rfl⟩ := he
    refine .stay _ rfl (by simp [sleeping, hpc]) ?_ ?_ (by simp [holdsSlot, inSession, hpc]) <;>
      cases ok <;> simp [sleeping, inSession, hpc]
  | removePending =>
    simp only [hpc] at h
    obtain ⟨rfl, rfl, rfl⟩ := h
    exact .removePending _ _ hpc
  | compensate message =>
    simp only [hpc] at h
    unfold appendLocalEntry at h
    rcases append_cases cfg.node hrun (LogEntry.release c.agentId) with ⟨hlead, he⟩ | ⟨hlead, he⟩ <;>
      rw [he] at h <;> obtain ⟨rfl, rfl, rfl⟩ := h
    · exact .appendRelease _ hlead rfl (by simp [sleeping, hpc]) rfl rfl
    · exact .giveUp _ hlead rfl (by simp [sleeping, hpc]) rfl rfl
  | awaitAcquireApplied index =>
    simp only [hpc, Option.map_eq_some_iff] at h
    obtain ⟨ok, -, he⟩ := h
    obtain ⟨rfl, rfl, rfl⟩ := he
    refine .stay _ rfl (by simp [sleeping, hpc]) ?_ ?_ (by simp [holdsSlot, inSession, hpc]) <;>
      cases ok <;> simp [sleeping, inSession, hpc]
  | qdrant =>
    simp only [hpc] at h
    obtain ⟨rfl, rfl, rfl⟩ := h
    unfold qdrantReturned
    split_ifs <;>
      exact .stay _ rfl (by simp [sleeping, hpc]) rfl (by simp [inSession, hpc])
        (by simp [holdsSlot, inSession, hpc])
  | proposeRelease attempt =>
    simp only [hpc] at h
    rcases beginPropose_cases cfg.node hrun (LogEntry.release c.agentId) with
      ⟨hlead, he⟩ | ⟨hlead, he⟩ <;> rw [he] at h <;> obtain ⟨rfl, rfl, rfl⟩ := h
    · exact .appendRelease _ hlead rfl (by simp [sleeping, hpc]) rfl rfl
    · obtain ⟨hrequest, hsleep, hsession⟩ := c.releaseFailed_stage attempt t cfg.theta
      exact .giveUp _ hlead hrequest (by simp [sleeping, hpc]) hsleep hsession
  | awaitReleaseCommit attempt index =>
    simp only [hpc, Option.map_eq_some_iff] at h
    obtain ⟨ok, -, he⟩ := h
    obtain ⟨rfl, rfl, rfl⟩ := he
    obtain ⟨hrequest, hsleep, hsession⟩ := c.releaseFailed_stage attempt t cfg.theta
    cases ok with
    | true =>
      exact .stay _ rfl (by simp [sleeping, hpc]) rfl (by simp [inSession, hpc])
        (by simp [holdsSlot, inSession])
    | false =>
      exact .stay _ hrequest (by simp [sleeping, hpc]) hsleep
        (hsession.trans (by simp [inSession, hpc])) (by simp [holdsSlot_of_not_inSession hsession])
  | awaitReleaseApplied attempt index =>
    simp only [hpc, Option.map_eq_some_iff] at h
    obtain ⟨ok, -, he⟩ := h
    obtain ⟨rfl, rfl, rfl⟩ := he
    obtain ⟨hrequest, hsleep, hsession⟩ := c.releaseFailed_stage attempt t cfg.theta
    cases ok with
    | true =>
      exact .stay _ rfl (by simp [sleeping, hpc]) rfl (by simp [inSession, hpc])
        (by simp [holdsSlot, inSession])
    | false =>
      exact .stay _ hrequest (by simp [sleeping, hpc]) hsleep
        (hsession.trans (by simp [inSession, hpc])) (by simp [holdsSlot_of_not_inSession hsession])
  | released attempt =>
    simp only [hpc] at h
    obtain ⟨rfl, rfl, rfl⟩ := h
    obtain ⟨hrequest, hsleep, hsession⟩ := c.releaseDone_stage attempt x.now t cfg.theta
    exact .stay _ hrequest (by simp [sleeping, hpc]) hsleep
      (hsession.trans (by simp [inSession, hpc])) (by simp [holdsSlot_of_not_inSession hsession])
  | returned status => simp [hpc] at h

end AcquireCall

/-! ### Steps of the other threads -/

omit [Arithmetic F] in
theorem ReleaseCall.step_cases [Zero F] {cfg : NodeConfig ι} {p p' : Process ι F}
    {c c' : ReleaseCall} {x : Choice} (hrun : p.halted = false)
    (h : c.step cfg p x = some (p', c')) :
    p' = p ∨
      (p.node.state = .leader ∧ c.pc = .propose ∧ p' = appended cfg p (.release c.agentId)) := by
  unfold step at h
  split at h
  · obtain ⟨rfl, rfl⟩ := h
    exact Or.inl rfl
  · obtain ⟨rfl, rfl⟩ := h
    exact Or.inl rfl
  · rename_i hpc
    rcases beginPropose_cases cfg hrun (LogEntry.release c.agentId) with
      ⟨hlead, he⟩ | ⟨-, he⟩ <;> rw [he] at h <;> obtain ⟨rfl, rfl⟩ := h
    · exact Or.inr ⟨hlead, hpc, rfl⟩
    · exact Or.inl rfl
  · obtain ⟨ok, -, he⟩ := Option.map_eq_some_iff.mp h
    obtain ⟨rfl, rfl⟩ := he
    exact Or.inl rfl
  · obtain ⟨ok, -, he⟩ := Option.map_eq_some_iff.mp h
    obtain ⟨rfl, rfl⟩ := he
    exact Or.inl rfl
  · cases h

/-- The ways in which a step of a sweep changes the process, the table and the sweep. -/
inductive SweepMove (cfg : NodeConfig ι) (p : Process ι F) (t : LockTable F) (w : Sweep F) :
    Process ι F → LockTable F → Sweep F → Prop
  | stay (sweepInProgress : Bool) (w' : Sweep F) (hproposed : w'.proposed = w.proposed) :
    SweepMove cfg p t w p { t with sweepInProgress := sweepInProgress } w'
  | propose (agentId : String) (orphans : List String) (w' : Sweep F)
    (hlead : p.node.state = .leader) (hpc : w.pc = .propose agentId orphans)
    (hproposed : w'.proposed = w.proposed ++
      [(p.node.log.length, { LogEntry.release agentId with term := p.node.currentTerm })]) :
    SweepMove cfg p t w (appended cfg p (.release agentId)) t w'

theorem Sweep.step_move {cfg : NodeConfig ι} {p p' : Process ι F} {t t' : LockTable F}
    {w w' : Sweep F} {x : Choice} (hrun : p.halted = false)
    (h : w.step cfg p t x = some (p', t', w')) : SweepMove cfg p t w p' t' w' := by
  unfold step at h
  split at h
  · split_ifs at h
    · obtain ⟨rfl, rfl, rfl⟩ := h
      exact .stay _ _ rfl
    · obtain ⟨ok, -, he⟩ := Option.map_eq_some_iff.mp h
      obtain ⟨rfl, rfl, rfl⟩ := he
      exact .stay _ _ rfl
  · obtain ⟨rfl, rfl, rfl⟩ := h
    exact .stay true _ rfl
  · obtain ⟨rfl, rfl, rfl⟩ := h
    exact .stay _ _ rfl
  · split_ifs at h <;> obtain ⟨rfl, rfl, rfl⟩ := h <;> exact .stay _ _ rfl
  · rename_i agentId orphans hpc
    rcases beginPropose_cases cfg hrun (LogEntry.release agentId) with
      ⟨hlead, he⟩ | ⟨-, he⟩ <;> rw [he] at h <;> obtain ⟨rfl, rfl, rfl⟩ := h
    · exact .propose agentId orphans _ hlead hpc rfl
    · exact .stay _ _ rfl
  · obtain ⟨ok, -, he⟩ := Option.map_eq_some_iff.mp h
    obtain ⟨rfl, rfl, rfl⟩ := he
    exact .stay _ _ rfl
  · obtain ⟨ok, -, he⟩ := Option.map_eq_some_iff.mp h
    obtain ⟨rfl, rfl, rfl⟩ := he
    exact .stay _ _ rfl
  · obtain ⟨rfl, rfl, rfl⟩ := h
    exact .stay false _ rfl
  · cases h

/-! ### Steps of the node -/

variable [DecidableEq ι]

/-- The ways in which an action changes a running node. -/
inductive NodeStep (cfg : ServiceConfig ι F) (s : DsccNode ι F) :
    Action ι F → DsccNode ι F → Prop
  | raftEvent (event : RaftEvent ι F) (p : Process ι F)
    (hchange : EventChange cfg.node s.raft p) :
    NodeStep cfg s (.raftEvent event) { s with raft := p }
  | finishElection (sweeps : List (Sweep F)) (hsweeps : ∀ w ∈ sweeps, w.proposed = []) :
    NodeStep cfg s .finishElection
      { s with raft := { s.raft with election := none }, sweeps := s.sweeps ++ sweeps }
  | onCommit (layout : Layout String) (m : ℕ) (e : LogEntry F)
    (hphase : s.raft.phase = .calling m e) :
    NodeStep cfg s (.onCommit layout)
      { s with
        raft := { s.raft with phase := .returned, applied := s.raft.applied ++ [(m, e)] }
        table := s.table.onCommit layout e }
  | acquireGuard (request : AcquireRequest F) (now : ℤ) :
    NodeStep cfg s (.acquireGuard request now)
      { s with acquires := s.acquires ++ [AcquireCall.arrive cfg request now] }
  | releaseGuard (agentId : String) :
    NodeStep cfg s (.releaseGuard agentId)
      { s with releases := s.releases ++ [ReleaseCall.arrive agentId] }
  | acquire (k : ℕ) (x : Choice) (c : AcquireCall F) (p : Process ι F) (t : LockTable F)
    (c' : AcquireCall F) (hk : s.acquires[k]? = some c) (hopen : c.isOpen = true)
    (hmove : AcquireMove cfg s.raft s.table c p t c')
    (hcall : c.step cfg s.raft s.table x = some (p, t, c')) :
    NodeStep cfg s (.acquire k x)
      { s with raft := p, table := t, acquires := s.acquires.set k c' }
  | release (k : ℕ) (x : Choice) (p : Process ι F) (releases : List ReleaseCall)
    (hp : p = s.raft ∨
      (s.raft.node.state = .leader ∧ ∃ a, p = appended cfg.node s.raft (.release a))) :
    NodeStep cfg s (.release k x) { s with raft := p, releases := releases }
  | sweep (k : ℕ) (x : Choice) (w : Sweep F) (p : Process ι F) (t : LockTable F) (w' : Sweep F)
    (hk : s.sweeps[k]? = some w) (hmove : SweepMove cfg.node s.raft s.table w p t w') :
    NodeStep cfg s (.sweep k x)
      { s with raft := p, table := t, sweeps := s.sweeps.set k w' }

omit [Arithmetic F] [DecidableEq ι] in
theorem fireLeaderCallback_proposed (p : Process ι F) {w : Sweep F}
    (h : w ∈ fireLeaderCallback p) : w.proposed = [] := by
  unfold fireLeaderCallback at h
  split_ifs at h
  · rw [List.mem_singleton.mp h]
  · cases h

namespace DsccNode

variable {cfg : ServiceConfig ι F} {s s' : DsccNode ι F} {a : Action ι F}

omit [DecidableEq ι] in
theorem release_eq_some {k : ℕ} {x : Choice} (h : s.release cfg k x = some s') :
    ∃ c p c', s.releases[k]? = some c ∧ c.step cfg.node s.raft x = some (p, c') ∧
      s' = { s with raft := p, releases := s.releases.set k c' } := by
  unfold release at h
  cases hk : s.releases[k]? with
  | none => simp [hk] at h
  | some c =>
    simp only [hk, Option.map_eq_some_iff] at h
    obtain ⟨⟨p, c'⟩, hc, rfl⟩ := h
    exact ⟨c, p, c', rfl, hc, rfl⟩

theorem step_cases (h : s.step cfg a = some s') :
    s.raft.halted = false ∧ NodeStep cfg s a s' := by
  unfold step at h
  split_ifs at h with hhalted
  have hrun : s.raft.halted = false := by simpa using hhalted
  refine ⟨hrun, ?_⟩
  cases a with
  | raftEvent event =>
    obtain ⟨p, hp, rfl⟩ := Option.map_eq_some_iff.mp h
    exact .raftEvent event p (Process.event_change hp)
  | finishElection =>
    obtain ⟨p, hp, rfl⟩ := Option.map_eq_some_iff.mp h
    unfold Process.finishElection at hp
    split at hp
    · split_ifs at hp
      obtain rfl := Option.some.inj hp
      exact .finishElection _ fun w => fireLeaderCallback_proposed _
    · cases hp
  | onCommit layout =>
    simp only [onCommit] at h
    cases hphase : s.raft.phase with
    | calling m e =>
      have happly : s.raft.applyReturn = some { s.raft with
          phase := .returned, applied := s.raft.applied ++ [(m, e)] } := by
        simp [Process.applyReturn, hphase, hrun]
      simp only [hphase, happly, Option.map_some, Option.some.injEq] at h
      subst h
      exact .onCommit layout m e hphase
    | idle => simp [hphase] at h
    | returned => simp [hphase] at h
  | acquireGuard request now =>
    obtain rfl := Option.some.inj h
    exact .acquireGuard request now
  | releaseGuard agentId =>
    obtain rfl := Option.some.inj h
    exact .releaseGuard agentId
  | acquire k x =>
    simp only [acquire] at h
    cases hk : s.acquires[k]? with
    | none => simp [hk] at h
    | some c =>
      simp only [hk, Option.map_eq_some_iff] at h
      obtain ⟨⟨p, t, c'⟩, hc, rfl⟩ := h
      exact .acquire k x c p t c' hk (AcquireCall.isOpen_of_step hc)
        (AcquireCall.step_move hrun hc) hc
  | release k x =>
    obtain ⟨c, p, c', hk, hc, rfl⟩ := release_eq_some h
    refine .release k x p _ ?_
    rcases ReleaseCall.step_cases hrun hc with hsame | ⟨hlead, -, hp⟩
    · exact Or.inl hsame
    · exact Or.inr ⟨hlead, _, hp⟩
  | sweep k x =>
    simp only [sweep] at h
    cases hk : s.sweeps[k]? with
    | none => simp [hk] at h
    | some w =>
      simp only [hk, Option.map_eq_some_iff] at h
      obtain ⟨⟨p, t, w'⟩, hw, rfl⟩ := h
      exact .sweep k x w p t w' hk (Sweep.step_move hrun hw)

end DsccNode

end DistributedLock.Service
