import DistributedLock.Library.Progress
import DistributedLock.Service.Deployment
import DistributedLock.Service.NoLeak

/-! Progress of a node. Its own threads, those that serve calls, sweep and apply, cannot
go on for ever without the network or a new call. When a stable leader has committed its
log and none of them can go on, every call has returned and the table is empty. -/

namespace DistributedLock.Service

open Library Raft Table

variable {ι F : Type*}

/-! ### Work left -/

/-- The steps of the threads of the node itself. -/
def Action.isLocal : Action ι F → Bool
  | .raftEvent .applyTake | .raftEvent .applyNotify => true
  | .onCommit _ | .acquire _ _ | .release _ _ | .sweep _ _ => true
  | _ => false

/-- The steps left of the apply thread for the entry it has taken. -/
def applySteps : ApplyPhase F → ℕ
  | .idle => 0
  | .calling _ _ => 2
  | .returned => 1

/-- The steps of the apply thread for the log as it is. -/
def backlog (p : Process ι F) : ℕ :=
  3 * (max p.node.commitIndex (p.node.log.length - 1) - p.node.lastApplied) + applySteps p.phase

/-- The steps left of a call, three more for each entry it may still append. -/
def AcquirePc.rank : AcquirePc F → ℕ
  | .returned _ => 0
  | .redirect | .released _ => 1
  | .awaitReleaseApplied .second _ => 2
  | .awaitReleaseCommit .second _ => 3
  | .compensate _ => 4
  | .removePending => 5
  | .proposeRelease .second => 7
  | .awaitReleaseApplied _ _ => 8
  | .awaitReleaseCommit _ _ => 9
  | .proposeRelease _ => 13
  | .qdrant => 14
  | .awaitAcquireApplied _ => 15
  | .awaitAcquireCommit _ => 16
  | .proposeAcquire => 20
  | .admission (.returned _) => 21
  | .admission (.asleep _ _) => 22
  | .admission .gate => 23
  | .checkLeader => 24

def ReleasePc.rank : ReleasePc → ℕ
  | .returned _ => 0
  | .redirect | .awaitApplied _ => 1
  | .awaitCommit _ => 2
  | .propose => 6
  | .checkLeader => 7

def SweepPc.rank : SweepPc → ℕ
  | .done | .begin => 0
  | .waiting _ | .finish => 1
  | .checkLeader orphans => 7 * orphans.length + 2
  | .awaitApplied _ orphans => 7 * orphans.length + 3
  | .awaitCommit _ orphans => 7 * orphans.length + 4
  | .propose _ orphans => 7 * orphans.length + 8

/-- The sweep has still to take its snapshot, of whatever length that may be. -/
def SweepPc.ahead : SweepPc → ℕ
  | .waiting _ | .begin => 1
  | _ => 0

namespace DsccNode

/-- The sweeps that have still to take their snapshot. -/
def sweepsAhead (s : DsccNode ι F) : ℕ := (s.sweeps.map fun w => w.pc.ahead).sum

def localWork (s : DsccNode ι F) : ℕ :=
  (s.acquires.map fun c => c.pc.rank).sum + (s.releases.map fun c => c.pc.rank).sum +
    (s.sweeps.map fun w => w.pc.rank).sum + backlog s.raft

end DsccNode

theorem backlog_appended (cfg : NodeConfig ι) (p : Process ι F) (e : LogEntry F) :
    backlog (appended cfg p e) ≤ backlog p + 3 := by
  obtain ⟨hlog, -, -, -, -, hlast, hcommit⟩ := p.node.appendStamped_frame cfg e
  simp only [backlog, appended, hlog, hlast, hcommit, List.length_append, List.length_singleton]
  split_ifs <;> omega

theorem beginPropose_backlog {cfg : NodeConfig ι} {p p' : Process ι F} (hrun : p.halted = false)
    {e : LogEntry F} {index : Option ℕ} (h : beginPropose cfg p e = (p', index)) :
    (∃ m, index = some m ∧ backlog p' ≤ backlog p + 3) ∨ (index = none ∧ p' = p) := by
  rcases beginPropose_cases cfg hrun e with ⟨-, he⟩ | ⟨-, he⟩ <;> rw [he] at h <;>
    obtain ⟨rfl, rfl⟩ := Prod.mk.inj h
  · exact Or.inl ⟨_, rfl, backlog_appended cfg p e⟩
  · exact Or.inr ⟨rfl, rfl⟩

variable [Arithmetic F]

/-! ### Each step leaves less -/

namespace AcquireCall

variable {cfg : ServiceConfig ι F} {p p' : Process ι F} {t t' : LockTable F}
  {c c' : AcquireCall F} {x : Choice}

/-- A sleeping call that is ready has been granted, so it is not put to sleep again. -/
theorem step_rank (hrun : p.halted = false)
    (hready : ∀ w d, c.sleeping cfg.theta = some (w, d) → (t.waiter w).ready = (t.waiter w).granted)
    (h : c.step cfg p t x = some (p', t', c')) :
    c'.pc.rank + backlog p' < c.pc.rank + backlog p := by
  unfold step at h
  cases hpc : c.pc with
  | checkLeader =>
    simp only [hpc] at h
    split_ifs at h <;> obtain ⟨rfl, rfl, rfl⟩ := h <;> simp [AcquirePc.rank]
  | redirect =>
    simp only [hpc] at h
    obtain ⟨rfl, rfl, rfl⟩ := h
    unfold redirectTo
    dsimp only
    split_ifs <;> simp [AcquirePc.rank, refuse]
  | admission a =>
    cases a with
    | returned trace =>
      simp only [hpc] at h
      obtain ⟨rfl, rfl, rfl⟩ := h
      simp [AcquirePc.rank, recordAdmission]
    | gate =>
      simp only [hpc, Option.map_eq_some_iff, LockTable.waitForAdmission] at h
      obtain ⟨⟨t₁, a'⟩, hwait, he⟩ := h
      obtain ⟨rfl, rfl, rfl⟩ := he
      split_ifs at hwait
      cases LockTable.waitLoop_move (Option.some.inj hwait) <;> simp [AcquirePc.rank]
    | asleep w trace =>
      simp only [hpc, Option.map_eq_some_iff, LockTable.waitForAdmission] at h
      obtain ⟨⟨t₁, a'⟩, hwait, he⟩ := h
      obtain ⟨rfl, rfl, rfl⟩ := he
      have hsleep : c.sleeping cfg.theta = some (w, c.demand cfg.theta) := by
        simp [sleeping, hpc, Admission.sleeping]
      cases LockTable.wake_move (hready w _ hsleep) hwait
      simp [AcquirePc.rank]
  | proposeAcquire =>
    simp only [hpc] at h
    split at h <;> rename_i hbegin <;> obtain ⟨rfl, rfl, rfl⟩ := h <;>
      rcases beginPropose_backlog hrun hbegin with ⟨m, hm, hle⟩ | ⟨hm, rfl⟩ <;>
      simp only [AcquirePc.rank] <;> omega
  | awaitAcquireCommit index =>
    simp only [hpc, Option.map_eq_some_iff] at h
    obtain ⟨ok, -, he⟩ := h
    obtain ⟨rfl, rfl, rfl⟩ := he
    cases ok <;> simp [AcquirePc.rank]
  | removePending =>
    simp only [hpc] at h
    obtain ⟨rfl, rfl, rfl⟩ := h
    simp [AcquirePc.rank]
  | compensate message =>
    simp only [hpc] at h
    unfold appendLocalEntry at h
    rcases append_cases cfg.node hrun (LogEntry.release c.agentId) with ⟨-, he⟩ | ⟨-, he⟩ <;>
      rw [he] at h <;> obtain ⟨rfl, rfl, rfl⟩ := h
    · have := backlog_appended cfg.node p (.release c.agentId)
      simp only [AcquirePc.rank, unavailable, refuse, Option.getD_some]
      omega
    · simp [AcquirePc.rank, unavailable, refuse]
  | awaitAcquireApplied index =>
    simp only [hpc, Option.map_eq_some_iff] at h
    obtain ⟨ok, -, he⟩ := h
    obtain ⟨rfl, rfl, rfl⟩ := he
    cases ok <;> simp [AcquirePc.rank]
  | qdrant =>
    simp only [hpc] at h
    obtain ⟨rfl, rfl, rfl⟩ := h
    unfold qdrantReturned
    split_ifs <;> simp [AcquirePc.rank]
  | proposeRelease attempt =>
    simp only [hpc] at h
    split at h <;> rename_i hbegin <;> obtain ⟨rfl, rfl, rfl⟩ := h <;>
      rcases beginPropose_backlog hrun hbegin with ⟨m, hm, hle⟩ | ⟨hm, rfl⟩
    · cases attempt <;> simp only [AcquirePc.rank] <;> omega
    · cases hm
    · cases hm
    · cases attempt <;> simp [releaseFailed, AcquirePc.rank]
  | awaitReleaseCommit attempt index =>
    simp only [hpc, Option.map_eq_some_iff] at h
    obtain ⟨ok, -, he⟩ := h
    obtain ⟨rfl, rfl, rfl⟩ := he
    cases ok <;> cases attempt <;> simp [releaseFailed, AcquirePc.rank]
  | awaitReleaseApplied attempt index =>
    simp only [hpc, Option.map_eq_some_iff] at h
    obtain ⟨ok, -, he⟩ := h
    obtain ⟨rfl, rfl, rfl⟩ := he
    cases ok <;> cases attempt <;> simp [releaseFailed, AcquirePc.rank]
  | released attempt =>
    simp only [hpc] at h
    obtain ⟨rfl, rfl, rfl⟩ := h
    cases attempt <;> simp [AcquirePc.rank, releaseDone]
  | returned status => simp [hpc] at h

end AcquireCall

omit [Arithmetic F] in
theorem ReleaseCall.step_rank [Zero F] {cfg : NodeConfig ι} {p p' : Process ι F}
    {c c' : ReleaseCall} {x : Choice} (hrun : p.halted = false)
    (h : c.step cfg p x = some (p', c')) :
    c'.pc.rank + backlog p' < c.pc.rank + backlog p := by
  unfold step at h
  cases hpc : c.pc with
  | checkLeader =>
    simp only [hpc] at h
    obtain ⟨rfl, rfl⟩ := h
    split_ifs <;> simp [ReleasePc.rank]
  | redirect =>
    simp only [hpc] at h
    obtain ⟨rfl, rfl⟩ := h
    simp [ReleasePc.rank, redirectTo]
  | propose =>
    simp only [hpc] at h
    split at h <;> rename_i hbegin <;> obtain ⟨rfl, rfl⟩ := h <;>
      rcases beginPropose_backlog hrun hbegin with ⟨m, hm, hle⟩ | ⟨hm, rfl⟩ <;>
      simp only [ReleasePc.rank, unavailable] <;> omega
  | awaitCommit index =>
    simp only [hpc, Option.map_eq_some_iff] at h
    obtain ⟨ok, -, he⟩ := h
    obtain ⟨rfl, rfl⟩ := he
    cases ok <;> simp [ReleasePc.rank, unavailable]
  | awaitApplied index =>
    simp only [hpc, Option.map_eq_some_iff] at h
    obtain ⟨ok, -, he⟩ := h
    obtain ⟨rfl, rfl⟩ := he
    simp [ReleasePc.rank]
  | returned status => simp [hpc] at h

/-- A sweep takes its snapshot, or has less left. -/
theorem Sweep.step_rank {cfg : NodeConfig ι} {p p' : Process ι F} {t t' : LockTable F}
    {w w' : Sweep F} {x : Choice} (hrun : p.halted = false)
    (h : w.step cfg p t x = some (p', t', w')) :
    w'.pc.ahead < w.pc.ahead ∨
      (w'.pc.ahead = w.pc.ahead ∧ w'.pc.rank + backlog p' < w.pc.rank + backlog p) := by
  unfold step at h
  cases hpc : w.pc with
  | waiting commitIndex =>
    simp only [hpc] at h
    split_ifs at h
    · obtain ⟨rfl, rfl, rfl⟩ := h
      exact Or.inr ⟨rfl, by simp [SweepPc.rank]⟩
    · obtain ⟨ok, -, he⟩ := Option.map_eq_some_iff.mp h
      obtain ⟨rfl, rfl, rfl⟩ := he
      exact Or.inr ⟨rfl, by simp [SweepPc.rank]⟩
  | begin =>
    simp only [hpc] at h
    obtain ⟨rfl, rfl, rfl⟩ := h
    left
    dsimp only
    split_ifs <;> exact Nat.zero_lt_one
  | checkLeader orphans =>
    right
    cases orphans with
    | nil =>
      simp only [hpc] at h
      obtain ⟨rfl, rfl, rfl⟩ := h
      exact ⟨rfl, by simp [SweepPc.rank]⟩
    | cons agentId orphans =>
      simp only [hpc] at h
      split_ifs at h <;> obtain ⟨rfl, rfl, rfl⟩ := h <;> refine ⟨rfl, ?_⟩ <;>
        simp only [SweepPc.rank, List.length_cons] <;> omega
  | propose agentId orphans =>
    right
    simp only [hpc] at h
    split at h <;> rename_i hbegin <;> obtain ⟨rfl, rfl, rfl⟩ := h <;> refine ⟨rfl, ?_⟩ <;>
      rcases beginPropose_backlog hrun hbegin with ⟨m, hm, hle⟩ | ⟨hm, rfl⟩ <;>
      simp only [SweepPc.rank] <;> omega
  | awaitCommit index orphans =>
    right
    simp only [hpc, Option.map_eq_some_iff] at h
    obtain ⟨ok, -, he⟩ := h
    obtain ⟨rfl, rfl, rfl⟩ := he
    cases ok <;> exact ⟨rfl, by simp [SweepPc.rank]⟩
  | awaitApplied index orphans =>
    right
    simp only [hpc, Option.map_eq_some_iff] at h
    obtain ⟨ok, -, he⟩ := h
    obtain ⟨rfl, rfl, rfl⟩ := he
    exact ⟨rfl, by simp [SweepPc.rank]⟩
  | finish =>
    simp only [hpc] at h
    obtain ⟨rfl, rfl, rfl⟩ := h
    exact Or.inr ⟨rfl, by simp [SweepPc.rank]⟩
  | done => simp [hpc] at h

omit [Arithmetic F] in
theorem applyTake_backlog {p p' : Process ι F} (h : p.applyTake = some p') :
    backlog p' < backlog p := by
  unfold Process.applyTake at h
  split at h
  · rename_i hphase
    split_ifs at h with hg
    simp only [not_or, not_le] at hg
    dsimp only at h
    split at h <;> obtain rfl := Option.some.inj h <;>
      simp only [backlog, hphase, applySteps] <;> omega
  · cases h

omit [Arithmetic F] in
theorem applyNotify_backlog {p p' : Process ι F} (h : p.applyNotify = some p') :
    backlog p' < backlog p := by
  unfold Process.applyNotify at h
  split at h
  · rename_i hphase
    split_ifs at h
    obtain rfl := Option.some.inj h
    simp [backlog, hphase, applySteps]
  · cases h

/-! ### The threads of a node cannot go on for ever -/

variable [DecidableEq ι] {cfg : ServiceConfig ι F} {s s' : DsccNode ι F} {a : Action ι F}

namespace DsccNode

/-- Each step of the node's own threads leaves less to do, or a sweep takes its snapshot. -/
theorem local_step (ha : a.isLocal = true) (hw : WaitersOk s.table [] (s.sleeps cfg.theta))
    (h : s.step cfg a = some s') :
    s'.sweepsAhead < s.sweepsAhead ∨
      (s'.sweepsAhead = s.sweepsAhead ∧ s'.localWork < s.localWork) := by
  have hrun : s.raft.halted = false := (step_cases h).1
  unfold DsccNode.step at h
  rw [if_neg (by simp [hrun])] at h
  cases a with
  | raftEvent event =>
    obtain ⟨p, hp, rfl⟩ := Option.map_eq_some_iff.mp h
    have hlt : backlog p < backlog s.raft := by
      cases event with
      | applyTake => exact applyTake_backlog hp
      | applyNotify => exact applyNotify_backlog hp
      | _ => cases ha
    exact Or.inr ⟨rfl, Nat.add_lt_add_left hlt _⟩
  | onCommit layout =>
    simp only [onCommit] at h
    split at h
    · rename_i m e hphase
      obtain ⟨p, hp, rfl⟩ := Option.map_eq_some_iff.mp h
      refine Or.inr ⟨rfl, Nat.add_lt_add_left ?_ _⟩
      simp only [Process.applyReturn, hphase, hrun, Bool.false_eq_true, if_false,
        Option.some.injEq] at hp
      subst hp
      simp [backlog, hphase, applySteps]
    · cases h
  | acquire k x =>
    simp only [acquire] at h
    cases hk : s.acquires[k]? with
    | none => simp [hk] at h
    | some c =>
      simp only [hk, Option.map_eq_some_iff] at h
      obtain ⟨⟨p, t, c'⟩, hc, rfl⟩ := h
      have hlt := AcquireCall.step_rank hrun
        (fun w d hsleep => hw.ready k w d ((sleeps_of_get hk).trans hsleep)) hc
      have hsum := sum_map_set (f := fun c : AcquireCall F => c.pc.rank) hk c'
      refine Or.inr ⟨rfl, ?_⟩
      simp only [localWork]
      omega
  | release k x =>
    obtain ⟨c, p, c', hk, hc, rfl⟩ := release_eq_some h
    have hlt := ReleaseCall.step_rank hrun hc
    have hsum := sum_map_set (f := fun c : ReleaseCall => c.pc.rank) hk c'
    refine Or.inr ⟨rfl, ?_⟩
    simp only [localWork]
    omega
  | sweep k x =>
    simp only [sweep] at h
    cases hk : s.sweeps[k]? with
    | none => simp [hk] at h
    | some w =>
      simp only [hk, Option.map_eq_some_iff] at h
      obtain ⟨⟨p, t, w'⟩, hc, rfl⟩ := h
      have hahead := sum_map_set (f := fun w : Sweep F => w.pc.ahead) hk w'
      have hsum := sum_map_set (f := fun w : Sweep F => w.pc.rank) hk w'
      simp only [sweepsAhead, localWork]
      rcases Sweep.step_rank hrun hc with hlt | ⟨heq, hlt⟩ <;> omega
  | finishElection => cases ha
  | acquireGuard request now => cases ha
  | releaseGuard agentId => cases ha

theorem drains (cfg : ServiceConfig ι F) :
    (system cfg).Drains (fun a => a.isLocal = true)
      (fun s => WaitersOk s.table [] (s.sleeps cfg.theta))
      (fun s => (s.sweepsAhead, s.localWork)) (Prod.Lex (· < ·) (· < ·)) := by
  intro s a s' hw ha h
  refine ⟨waiters_step (step_cases h).2 hw, ?_⟩
  rcases local_step ha hw h with hlt | ⟨heq, hlt⟩
  · exact .left _ _ hlt
  · simp only [heq]
    exact .right _ hlt

/-- From every reachable state the threads of a node itself can take only finitely many
steps on end, whatever they find out and in whatever order they run. A wake-up that finds
nothing changes nothing, and is no step. -/
theorem no_endless_run (cfg : ServiceConfig ι F) (as : List (Action ι F)) (s : DsccNode ι F)
    (h : (system cfg).exec as = some s) :
    Acc (fun t' t => ∃ a, Action.isLocal a = true ∧ (system cfg).step t a = some t') s := by
  have hw := (system cfg).invariant (P := fun s => WaitersOk s.table [] (s.sleeps cfg.theta))
    (waiters_empty _ rfl rfl) (fun _ _ _ hw ht => waiters_step (step_cases ht).2 hw) h
  exact (drains cfg).acc (wellFounded_lt.prod_lex wellFounded_lt) hw

/-- A call waits for the lock of another, and a sweep is about to begin. -/
def busyRun : List (Action Unit ℤ) :=
  [.acquireGuard ⟨"a", [1, 0], .write⟩ 0, .acquireGuard ⟨"b", [1, 0], .write⟩ 0, .acquire 0 {},
    .acquire 0 {}, .acquire 1 {}, .acquire 1 {}]

theorem no_endless_run_busy :
    ∃ s : DsccNode Unit ℤ, (system .alone).exec busyRun = some s ∧ s.sweepsAhead = 1 ∧
      s.localWork = 44 ∧
      Acc (fun t' t => ∃ a, Action.isLocal a = true ∧ (system .alone).step t a = some t') s := by
  obtain ⟨s, hs, hahead, hwork⟩ := (system .alone).exists_exec busyRun
    (fun s => s.sweepsAhead = 1 ∧ s.localWork = 44) (by decide +kernel)
  exact ⟨s, hs, hahead, hwork, no_endless_run .alone busyRun s hs⟩

end DsccNode

/-! ### A thread that cannot go on -/

omit [Arithmetic F] [DecidableEq ι] in
theorem pollCommit_timedOut (p : Process ι F) (index : ℕ) :
    ∃ ok, pollCommit p index true = some ok := by
  unfold pollCommit
  split_ifs with h h'
  · exact ⟨_, rfl⟩
  · exact ⟨_, rfl⟩
  · simp at h'

omit [Arithmetic F] [DecidableEq ι] in
theorem pollApplied_timedOut (p : Process ι F) (index : ℕ) :
    ∃ ok, pollApplied p index true = some ok := by
  unfold pollApplied
  split_ifs with h h'
  · exact ⟨_, rfl⟩
  · exact ⟨_, rfl⟩
  · exact absurd rfl h'

omit [DecidableEq ι] in
/-- With time-outs an open call can go on, but at the gate of a sweep or in its sleep. -/
theorem AcquireCall.can_step {p : Process ι F} {t : LockTable F} {c : AcquireCall F}
    (hopen : c.isOpen = true) (hgate : t.sweepInProgress = false)
    (hready : ∀ w d, c.sleeping cfg.theta = some (w, d) → (t.waiter w).ready = true) :
    c.step cfg p t { timedOut := true } ≠ none := by
  unfold step
  cases hpc : c.pc with
  | checkLeader => dsimp only; split_ifs <;> simp
  | admission a =>
    cases a with
    | gate => simp [LockTable.waitForAdmission, hgate]
    | asleep w trace =>
      have hsleep : c.sleeping cfg.theta = some (w, c.demand cfg.theta) := by
        simp [sleeping, hpc, Admission.sleeping]
      simp [LockTable.waitForAdmission, LockTable.wake, hready w _ hsleep]
    | returned trace => simp
  | proposeAcquire => dsimp only; split <;> simp
  | awaitAcquireCommit index =>
    obtain ⟨ok, hok⟩ := pollCommit_timedOut p index
    simp [hok]
  | awaitAcquireApplied index =>
    obtain ⟨ok, hok⟩ := pollApplied_timedOut p index
    simp [hok]
  | proposeRelease attempt => dsimp only; split <;> simp
  | awaitReleaseCommit attempt index =>
    obtain ⟨ok, hok⟩ := pollCommit_timedOut p index
    simp [hok]
  | awaitReleaseApplied attempt index =>
    obtain ⟨ok, hok⟩ := pollApplied_timedOut p index
    simp [hok]
  | returned status => simp [isOpen, hpc] at hopen
  | _ => simp

omit [Arithmetic F] [DecidableEq ι] in
theorem ReleaseCall.can_step [Zero F] {cfg : NodeConfig ι} {p : Process ι F} {c : ReleaseCall}
    (hopen : ∀ status, c.pc ≠ .returned status) : c.step cfg p { timedOut := true } ≠ none := by
  unfold step
  cases hpc : c.pc with
  | propose => dsimp only; split <;> simp
  | awaitCommit index =>
    obtain ⟨ok, hok⟩ := pollCommit_timedOut p index
    simp [hok]
  | awaitApplied index =>
    obtain ⟨ok, hok⟩ := pollApplied_timedOut p index
    simp [hok]
  | returned status => exact absurd hpc (hopen status)
  | _ => simp

omit [DecidableEq ι] in
theorem Sweep.can_step {cfg : NodeConfig ι} {p : Process ι F} {t : LockTable F} {w : Sweep F}
    (hopen : w.pc ≠ .done) : w.step cfg p t { timedOut := true } ≠ none := by
  unfold step
  cases hpc : w.pc with
  | waiting commitIndex =>
    obtain ⟨ok, hok⟩ := pollApplied_timedOut p commitIndex
    dsimp only
    split_ifs <;> simp [hok]
  | checkLeader orphans =>
    cases orphans with
    | nil => simp
    | cons agentId orphans => dsimp only; split_ifs <;> simp
  | propose agentId orphans => dsimp only; split <;> simp
  | awaitCommit index orphans =>
    obtain ⟨ok, hok⟩ := pollCommit_timedOut p index
    simp [hok]
  | awaitApplied index orphans =>
    obtain ⟨ok, hok⟩ := pollApplied_timedOut p index
    simp [hok]
  | done => exact absurd hpc hopen
  | _ => simp

/-! ### The gate -/

/-- The sweep has closed the gate and has still to open it. -/
def SweepPc.closesGate : SweepPc → Bool
  | .waiting _ | .begin | .done => false
  | _ => true

omit [DecidableEq ι] in
theorem Sweep.step_gate {cfg : NodeConfig ι} {p p' : Process ι F} {t t' : LockTable F}
    {w w' : Sweep F} {x : Choice} (h : w.step cfg p t x = some (p', t', w'))
    (hgate : t'.sweepInProgress = true) :
    w'.pc.closesGate = true ∨ (t.sweepInProgress = true ∧ w.pc.closesGate = false) := by
  unfold step at h
  cases hpc : w.pc with
  | waiting commitIndex =>
    simp only [hpc] at h
    split_ifs at h
    · obtain ⟨rfl, rfl, rfl⟩ := h
      exact Or.inr ⟨hgate, rfl⟩
    · obtain ⟨ok, -, he⟩ := Option.map_eq_some_iff.mp h
      obtain ⟨rfl, rfl, rfl⟩ := he
      exact Or.inr ⟨hgate, rfl⟩
  | begin =>
    simp only [hpc] at h
    obtain ⟨rfl, rfl, rfl⟩ := h
    left
    dsimp only
    split_ifs <;> rfl
  | checkLeader orphans =>
    cases orphans with
    | nil =>
      simp only [hpc] at h
      obtain ⟨rfl, rfl, rfl⟩ := h
      exact Or.inl rfl
    | cons agentId orphans =>
      simp only [hpc] at h
      split_ifs at h <;> obtain ⟨rfl, rfl, rfl⟩ := h <;> exact Or.inl rfl
  | propose agentId orphans =>
    simp only [hpc] at h
    split at h <;> obtain ⟨rfl, rfl, rfl⟩ := h <;> exact Or.inl rfl
  | awaitCommit index orphans =>
    simp only [hpc, Option.map_eq_some_iff] at h
    obtain ⟨ok, -, he⟩ := h
    obtain ⟨rfl, rfl, rfl⟩ := he
    cases ok <;> exact Or.inl rfl
  | awaitApplied index orphans =>
    simp only [hpc, Option.map_eq_some_iff] at h
    obtain ⟨ok, -, he⟩ := h
    obtain ⟨rfl, rfl, rfl⟩ := he
    exact Or.inl rfl
  | finish =>
    simp only [hpc] at h
    obtain ⟨rfl, rfl, rfl⟩ := h
    cases hgate
  | done => simp [hpc] at h

namespace DsccNode

/-- The gate is closed only while a sweep is at work. -/
def GateInv (s : DsccNode ι F) : Prop :=
  s.table.sweepInProgress = true → ∃ w ∈ s.sweeps, w.pc.closesGate = true

theorem GateInv.sweep {k : ℕ} {x : Choice} (hg : GateInv s)
    (h : s.step cfg (.sweep k x) = some s') : GateInv s' := by
  have hrun := (step_cases h).1
  unfold DsccNode.step at h
  rw [if_neg (by simp [hrun])] at h
  simp only [DsccNode.sweep] at h
  cases hk : s.sweeps[k]? with
  | none => simp [hk] at h
  | some w =>
    simp only [hk, Option.map_eq_some_iff] at h
    obtain ⟨⟨p, t, w'⟩, hcall, rfl⟩ := h
    intro hgate
    have hlt := (List.getElem?_eq_some_iff.mp hk).1
    rcases Sweep.step_gate hcall hgate with hpc | ⟨hbefore, hpc⟩
    · exact ⟨w', List.mem_set hlt _, hpc⟩
    · obtain ⟨v, hv, hvpc⟩ := hg hbefore
      refine ⟨v, mem_set_of_ne hv hk ?_, hvpc⟩
      rintro rfl
      rw [hpc] at hvpc
      cases hvpc

theorem GateInv.step (hg : GateInv s) (h : s.step cfg a = some s') : GateInv s' := by
  obtain ⟨hrun, hstep⟩ := step_cases h
  cases hstep with
  | raftEvent event p hchange => exact hg
  | finishElection sweeps hsweeps =>
    intro hgate
    obtain ⟨w, hw, hpc⟩ := hg hgate
    exact ⟨w, List.mem_append_left _ hw, hpc⟩
  | onCommit layout m e hphase =>
    intro hgate
    exact hg (by rwa [← LockTable.onCommit_sweep layout s.table e])
  | acquireGuard request now => exact hg
  | releaseGuard agentId => exact hg
  | acquire k x c p t c' hk hopen hmove =>
    intro hgate
    refine hg ?_
    cases hmove with
    | wait layout a a' t' hpc hwait => rwa [← LockTable.waitForAdmission_sweep hwait]
    | removePending layout message hpc =>
      rwa [← LockTable.removePending_sweep layout s.table c.agentId]
    | _ => exact hgate
  | release k x p releases hp => exact hg
  | sweep k x w p t w' hk hmove => exact hg.sweep h

end DsccNode

/-! ### When none of them can go on -/

namespace DsccNode

/-- A step of a thread that is not a Raft thread leaves a leader leading. -/
theorem leads_of_service (ha : a.isService = true) (h : s.step cfg a = some s')
    (hs : s.leads = true) : s'.leads = true := by
  obtain ⟨hlead, hrun⟩ := leads_iff.mp hs
  refine leads_iff.mpr ?_
  rcases raft_cases ha h with hp | hp | hp | ⟨e, hp⟩
  · rw [hp]
    exact ⟨hlead, hrun⟩
  · unfold Process.finishElection at hp
    split at hp
    · split_ifs at hp
      rw [← Option.some.inj hp]
      exact ⟨hlead, hrun⟩
    · cases hp
  · unfold Process.applyReturn at hp
    split at hp
    · split_ifs at hp
      rw [← Option.some.inj hp]
      exact ⟨hlead, hrun⟩
    · cases hp
  · rcases append_cases cfg.node hrun e with ⟨-, he⟩ | ⟨-, he⟩ <;> rw [he] at hp
    · rw [← Option.some.inj hp]
      exact ⟨(s.raft.node.appendStamped_frame cfg.node e).2.2.2.1.trans hlead, hrun⟩
    · cases hp

theorem step_of_stuck {T : ℕ} (ha : a.isService = true) (hs : s.leads = true)
    (h : (stableSystem cfg T).step s a = none) : s.step cfg a = none := by
  refine Option.eq_none_iff_forall_ne_some.mpr fun s' hs' => ?_
  have hsome : (stableSystem cfg T).step s a = some s' :=
    Option.filter_eq_some_iff.mpr ⟨hs', leads_of_service ha hs' hs⟩
  rw [h] at hsome
  cases hsome

/-- An apply thread that cannot go on has no committed entry left. -/
theorem apply_of_stuck {T : ℕ} (hs : StableInv s)
    (hstuck : (stableSystem cfg T).Stuck (fun a => a.isLocal = true) s) :
    s.raft.phase = .idle ∧ (s.raft.node.log.length ≤ s.raft.node.commitIndex + 1 →
      s.raft.node.log.length ≤ s.raft.node.lastApplied + 1) := by
  obtain ⟨hlead, hrun⟩ := leads_iff.mp hs.leads
  -- an event that leaves a leader running is possible
  have hevent : ∀ event p, Action.isLocal (.raftEvent event : Action ι F) = true →
      s.raft.event cfg.node event = some p → ¬ (p.node.state = .leader ∧ p.halted = false) := by
    intro event p hlocal hp hleads
    have hnone := hstuck (.raftEvent event) hlocal
    have hstep : s.step cfg (.raftEvent event) = some { s with raft := p } := by
      simp [DsccNode.step, hrun, hp]
    have hsome : (stableSystem cfg T).step s (.raftEvent event) = some { s with raft := p } :=
      Option.filter_eq_some_iff.mpr ⟨hstep, leads_iff.mpr hleads⟩
    rw [hnone] at hsome
    cases hsome
  cases hphase : s.raft.phase with
  | calling m e =>
    have hnone := step_of_stuck rfl hs.leads (hstuck (.onCommit .newest) rfl)
    simp [DsccNode.step, onCommit, hrun, hphase, Process.applyReturn] at hnone
  | returned =>
    refine absurd ⟨hlead, hrun⟩ (hevent .applyNotify { s.raft with phase := .idle } rfl ?_)
    simp [Process.event, Process.applyNotify, hphase, hrun]
  | idle =>
    refine ⟨rfl, fun hcommitted => ?_⟩
    by_contra hlt
    obtain ⟨e, he⟩ : ∃ e, s.raft.node.log[s.raft.node.lastApplied + 1]? = some e :=
      ⟨_, List.getElem?_eq_getElem (by omega)⟩
    have hbehind : ¬ s.raft.node.commitIndex ≤ s.raft.node.lastApplied := by omega
    refine absurd ⟨hlead, hrun⟩ (hevent .applyTake { s.raft with
      node := { s.raft.node with lastApplied := s.raft.node.lastApplied + 1 }
      phase := .calling (s.raft.node.lastApplied + 1) e } rfl ?_)
    simp [Process.event, Process.applyTake, hphase, hrun, hbehind, he]

/-- A node that has nothing left to do can do nothing. -/
theorem stuck_of_settled (cfg : ServiceConfig ι F) (T : ℕ) {s : DsccNode ι F}
    (hacquires : ∀ c ∈ s.acquires, c.isOpen = false)
    (hreleases : ∀ c ∈ s.releases, ∃ status, c.pc = .returned status)
    (hsweeps : ∀ w ∈ s.sweeps, w.pc = .done) (hidle : applySteps s.raft.phase = 0)
    (hcommit : s.raft.node.commitIndex ≤ s.raft.node.lastApplied) :
    (stableSystem cfg T).Stuck (fun a => a.isLocal = true) s := by
  have hphase : s.raft.phase = .idle := by
    cases hphase : s.raft.phase with
    | idle => rfl
    | calling m e => simp [hphase, applySteps] at hidle
    | returned => simp [hphase, applySteps] at hidle
  intro a ha
  refine Option.eq_none_iff_forall_ne_some.mpr fun s' hs' => ?_
  have h := (Option.filter_eq_some_iff.mp hs').1
  have hrun : s.raft.halted = false := (step_cases h).1
  unfold DsccNode.step at h
  rw [if_neg (by simp [hrun])] at h
  cases a with
  | raftEvent event =>
    obtain ⟨p, hp, -⟩ := Option.map_eq_some_iff.mp h
    cases event with
    | applyTake => simp [Process.event, Process.applyTake, hphase, hcommit] at hp
    | applyNotify => simp [Process.event, Process.applyNotify, hphase] at hp
    | _ => cases ha
  | onCommit layout => simp [onCommit, hphase] at h
  | acquire k x =>
    simp only [acquire] at h
    cases hk : s.acquires[k]? with
    | none => simp [hk] at h
    | some c =>
      simp only [hk, Option.map_eq_some_iff] at h
      obtain ⟨⟨p, t, c'⟩, hc, -⟩ := h
      have hopen := AcquireCall.isOpen_of_step hc
      rw [hacquires c (List.mem_of_getElem? hk)] at hopen
      cases hopen
  | release k x =>
    obtain ⟨c, p, c', hk, hc, -⟩ := release_eq_some h
    obtain ⟨status, hpc⟩ := hreleases c (List.mem_of_getElem? hk)
    simp [ReleaseCall.step, hpc] at hc
  | sweep k x =>
    simp only [sweep] at h
    cases hk : s.sweeps[k]? with
    | none => simp [hk] at h
    | some w =>
      simp only [hk, Option.map_eq_some_iff] at h
      obtain ⟨⟨p, t, w'⟩, hc, -⟩ := h
      simp [Sweep.step, hsweeps w (List.mem_of_getElem? hk)] at hc
  | _ => cases ha

/-- When a stable leader has committed its log and its threads cannot go on, with whatever
time-outs, every call has returned, every sweep has ended, every entry has been applied
and no lock is left. -/
theorem quiescent (cfg : ServiceConfig ι F) (T : ℕ) (as : List (Action ι F)) (s : DsccNode ι F)
    (h : (stableSystem cfg T).exec as = some s)
    (hstuck : (stableSystem cfg T).Stuck (fun a => a.isLocal = true) s)
    (hcommitted : s.raft.node.log.length ≤ s.raft.node.commitIndex + 1) :
    (∀ c ∈ s.acquires, c.isOpen = false) ∧
      (∀ c ∈ s.releases, ∃ status, c.pc = .returned status) ∧ (∀ w ∈ s.sweeps, w.pc = .done) ∧
      s.unapplied = [] ∧ s.table.active.keys = [] := by
  obtain ⟨hs, hw, hleak, hgateInv⟩ := (stableSystem cfg T).invariant
    (P := fun s => StableInv s ∧ WaitersOk s.table [] (s.sleeps cfg.theta) ∧ LeakInv s ∧ GateInv s)
    ⟨.start cfg T, waiters_empty _ rfl rfl, .start cfg T, fun hgate => (by cases hgate)⟩
    (fun _ _ _ ⟨hs, hw, hl, hg⟩ ht =>
      have hstep := stable_step ht
      ⟨hs.step hstep.1 hstep.2, waiters_step hstep.1 hw, hl.step hs hw hstep.1 hstep.2,
        hg.step (Option.filter_eq_some_iff.mp ht).1⟩) h
  have hrun : s.raft.halted = false := (leads_iff.mp hs.leads).2
  -- sweeps end, so the gate is open
  have hsweeps : ∀ w ∈ s.sweeps, w.pc = .done := by
    intro w hmem
    obtain ⟨k, hk⟩ := List.mem_iff_getElem?.mp hmem
    have hnone := step_of_stuck rfl hs.leads (hstuck (.sweep k { timedOut := true }) rfl)
    by_contra hopen
    have hcan : w.step cfg.node s.raft s.table { timedOut := true } ≠ none := Sweep.can_step hopen
    exact hcan (by simpa [DsccNode.step, hrun, DsccNode.sweep, hk] using hnone)
  have hgate : s.table.sweepInProgress = false := by
    cases hgate : s.table.sweepInProgress with
    | false => rfl
    | true =>
      obtain ⟨w, hmem, hpc⟩ := hgateInv hgate
      rw [hsweeps w hmem] at hpc
      cases hpc
  have hreleases : ∀ c ∈ s.releases, ∃ status, c.pc = .returned status := by
    intro c hmem
    obtain ⟨k, hk⟩ := List.mem_iff_getElem?.mp hmem
    have hnone := step_of_stuck rfl hs.leads (hstuck (.release k { timedOut := true }) rfl)
    by_contra hopen
    simp only [not_exists] at hopen
    have hcan : c.step cfg.node s.raft { timedOut := true } ≠ none := ReleaseCall.can_step hopen
    exact hcan (by simpa [DsccNode.step, hrun, DsccNode.release, hk] using hnone)
  -- an open call sleeps, and has not been granted
  have hacquires : ∀ c ∈ s.acquires, c.isOpen = true →
      ∃ k w d, s.sleeps cfg.theta k = some (w, d) ∧ c.sleeping cfg.theta = some (w, d) ∧
        (s.table.waiter w).granted = false := by
    intro c hmem hopen
    obtain ⟨k, hk⟩ := List.mem_iff_getElem?.mp hmem
    have hnone := step_of_stuck rfl hs.leads (hstuck (.acquire k { timedOut := true }) rfl)
    by_contra hawake
    have hready : ∀ w d, c.sleeping cfg.theta = some (w, d) → (s.table.waiter w).ready = true := by
      intro w d hsleep
      have hcall := (sleeps_of_get hk).trans hsleep
      rw [hw.ready k w d hcall]
      cases hgranted : (s.table.waiter w).granted with
      | true => rfl
      | false => exact absurd ⟨k, w, d, hcall, hsleep, hgranted⟩ hawake
    have hcan : c.step cfg s.raft s.table { timedOut := true } ≠ none :=
      AcquireCall.can_step hopen hgate hready
    exact hcan (by simpa [DsccNode.step, hrun, DsccNode.acquire, hk] using hnone)
  obtain ⟨hidle, hbehind⟩ := apply_of_stuck hs hstuck
  have hun : s.unapplied = [] := by
    have hcount := hs.apply.count hrun
    have hcalls : s.raft.calls = s.raft.applied := by simp [Process.calls, hidle]
    refine List.drop_eq_nil_of_le ?_
    rw [← hcalls, hcount]
    exact hbehind hcommitted
  have hfree : ∀ id, ¬ (s.table.active.find id).isSome := by
    intro id hid
    rcases hleak.slot id hid with ⟨k, c, hk, -, hin⟩ | ⟨e, he, -⟩
    · obtain ⟨-, w, d, -, hsleep, hgranted⟩ :=
        hacquires c (List.mem_of_getElem? hk) (AcquireCall.isOpen_of_inSession hin)
      rw [(AcquireCall.stage_of_sleeping hsleep s.table).1, hgranted] at hin
      cases hin
    · rw [hun] at he
      cases he
  refine ⟨fun c hmem => ?_, hreleases, hsweeps, hun, ?_⟩
  · cases hopen : c.isOpen with
    | false => rfl
    | true =>
      obtain ⟨k, w, d, hcall, -, hgranted⟩ := hacquires c hmem hopen
      have hqueued := (hw.queued w).mpr ⟨hgranted, k, d, hcall⟩
      simp only [List.not_mem_nil, false_or] at hqueued
      obtain ⟨id, hid⟩ := hqueued
      exact absurd (LockTable.isSome_of_mem_queue hid) (hfree id)
  · exact List.eq_nil_iff_forall_not_mem.mpr fun id hid =>
      hfree id ((s.table.active.mem_keys id).mp hid)

theorem quiescent_handOff :
    ∃ s : DsccNode Unit ℤ,
      (stableSystem .alone 1).exec (handOffRun ++ List.replicate 2 (.acquire 1 {})) = some s ∧
      s.acquires.length = 2 ∧ (∀ c ∈ s.acquires, c.isOpen = false) ∧ s.table.active.keys = [] := by
  obtain ⟨s, hrun, hlen, hacquires, hreleases, hsweeps, hidle, hcommit, hcommitted⟩ :=
    (stableSystem .alone 1).exists_exec (handOffRun ++ List.replicate 2 (.acquire 1 {}))
      (fun s => s.acquires.length = 2 ∧ (∀ c ∈ s.acquires, c.isOpen = false) ∧
        s.releases.length = 0 ∧ s.sweeps.length = 0 ∧ applySteps s.raft.phase = 0 ∧
        s.raft.node.commitIndex ≤ s.raft.node.lastApplied ∧
        s.raft.node.log.length ≤ s.raft.node.commitIndex + 1) (by decide +kernel)
  have hstuck := stuck_of_settled .alone 1 hacquires
    (by simp [List.eq_nil_of_length_eq_zero hreleases])
    (by simp [List.eq_nil_of_length_eq_zero hsweeps]) hidle hcommit
  exact ⟨s, hrun, hlen, hacquires,
    (quiescent .alone 1 _ s hrun hstuck hcommitted).2.2.2.2⟩

end DsccNode

end DistributedLock.Service
