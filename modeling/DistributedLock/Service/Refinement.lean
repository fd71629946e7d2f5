import DistributedLock.Library.Simulation
import DistributedLock.Service.Steps
import DistributedLock.Table.Replica

/-! The table inside a node. What the threads of a node do to its lock table are steps
of `Replica`, the table by itself: calls of `wait_for_admission` and `remove_pending`,
entries applied by the callback, and the two ends of a sweep. The runs of a node are
therefore runs of its table, whatever the Raft process does. -/

namespace DistributedLock.Service

open Library Raft Table

variable {ι F : Type*} [Arithmetic F]

/-! ### A call as its table sees it -/

namespace AcquireCall

/-- Where the call stands in `wait_for_admission`, which it is about to make or is in. -/
def entering (c : AcquireCall F) : Option (Admission F) :=
  match c.pc with
  | .checkLeader => some .gate
  | .admission a => some a
  | _ => none

/-- The call of `wait_for_admission` that the session makes. -/
def Makes (theta : F) (c : AcquireCall F) (call : Call F) : Prop :=
  call.kind = .waitForAdmission ∧ call.demand = c.demand theta ∧
    ∀ a ∈ c.entering, call.admission = a

variable {cfg : ServiceConfig ι F} {p p' : Process ι F} {t t' : LockTable F}
  {c c' : AcquireCall F} {x : Choice}

omit [Arithmetic F] in
theorem Makes.of_entering {theta : F} {call : Call F} (h : c.Makes theta call)
    (hrequest : c'.request = c.request) (hentering : ∀ a ∈ c'.entering, a ∈ c.entering) :
    c'.Makes theta call := by
  refine ⟨h.1, ?_, fun a ha => h.2.2 a (hentering a ha)⟩
  rw [h.2.1, demand, demand, agentId, agentId, embedding, embedding, hrequest]

theorem arrive_makes (cfg : ServiceConfig ι F) (request : AcquireRequest F) (now : ℤ) :
    (arrive cfg request now).Makes cfg.theta
      { kind := .waitForAdmission
        demand := ⟨request.agentId, request.embedding, cfg.theta⟩ } := by
  unfold arrive
  dsimp only
  split_ifs
  · exact ⟨rfl, rfl, fun a ha => by cases ha⟩
  · exact ⟨rfl, rfl, fun a ha => by cases ha⟩
  · refine ⟨rfl, rfl, fun a ha => ?_⟩
    exact Option.some.inj ha

omit [Arithmetic F] in
theorem mem_entering_of_none (c : AcquireCall F) (h : c'.entering = none) :
    ∀ a ∈ c'.entering, a ∈ c.entering := by
  simp [h]

/-- What a step of the call does to the table: a step of `wait_for_admission`, or
`remove_pending`, or nothing. -/
theorem step_table (h : c.step cfg p t x = some (p', t', c')) :
    (∃ a a', c.pc = .admission a ∧ c' = { c with pc := .admission a' } ∧
      t.waitForAdmission x.layout (c.demand cfg.theta) a = some (t', a')) ∨
    (t' = (t.removePending x.layout c.agentId).1 ∧ c'.request = c.request ∧
      c'.entering = none) ∨
    (t' = t ∧ c'.request = c.request ∧ ∀ a ∈ c'.entering, a ∈ c.entering) := by
  unfold step at h
  cases hpc : c.pc with
  | checkLeader =>
    simp only [hpc] at h
    refine Or.inr (Or.inr ?_)
    split_ifs at h <;> obtain ⟨rfl, rfl, rfl⟩ := h
    · exact ⟨rfl, rfl, fun a ha => by simpa [entering, hpc] using ha⟩
    · exact ⟨rfl, rfl, mem_entering_of_none c rfl⟩
  | redirect =>
    simp only [hpc] at h
    obtain ⟨rfl, rfl, rfl⟩ := h
    refine Or.inr (Or.inr ⟨rfl, ?_, mem_entering_of_none c ?_⟩) <;> unfold redirectTo <;> dsimp only <;>
      split_ifs <;> rfl
  | admission a =>
    cases a with
    | returned trace =>
      simp only [hpc] at h
      obtain ⟨rfl, rfl, rfl⟩ := h
      exact Or.inr (Or.inr ⟨rfl, rfl, mem_entering_of_none c rfl⟩)
    | gate =>
      simp only [hpc, Option.map_eq_some_iff] at h
      obtain ⟨⟨t₁, a'⟩, hwait, he⟩ := h
      obtain ⟨rfl, rfl, rfl⟩ := he
      exact Or.inl ⟨_, _, rfl, rfl, hwait⟩
    | asleep w trace =>
      simp only [hpc, Option.map_eq_some_iff] at h
      obtain ⟨⟨t₁, a'⟩, hwait, he⟩ := h
      obtain ⟨rfl, rfl, rfl⟩ := he
      exact Or.inl ⟨_, _, rfl, rfl, hwait⟩
  | removePending =>
    simp only [hpc] at h
    obtain ⟨rfl, rfl, rfl⟩ := h
    exact Or.inr (Or.inl ⟨rfl, rfl, rfl⟩)
  | proposeAcquire =>
    simp only [hpc] at h
    split at h <;> obtain ⟨rfl, rfl, rfl⟩ := h <;>
      exact Or.inr (Or.inr ⟨rfl, rfl, mem_entering_of_none c rfl⟩)
  | compensate message =>
    simp only [hpc] at h
    obtain ⟨rfl, rfl, rfl⟩ := h
    exact Or.inr (Or.inr ⟨rfl, rfl, mem_entering_of_none c rfl⟩)
  | qdrant =>
    simp only [hpc] at h
    obtain ⟨rfl, rfl, rfl⟩ := h
    refine Or.inr (Or.inr ⟨rfl, ?_, mem_entering_of_none c ?_⟩) <;> unfold qdrantReturned <;>
      split_ifs <;> rfl
  | proposeRelease attempt =>
    simp only [hpc] at h
    split at h <;> obtain ⟨rfl, rfl, rfl⟩ := h
    · exact Or.inr (Or.inr ⟨rfl, rfl, mem_entering_of_none c rfl⟩)
    · refine Or.inr (Or.inr ⟨rfl, ?_, mem_entering_of_none c ?_⟩) <;> cases attempt <;> rfl
  | released attempt =>
    simp only [hpc] at h
    obtain ⟨rfl, rfl, rfl⟩ := h
    refine Or.inr (Or.inr ⟨rfl, ?_, mem_entering_of_none c ?_⟩) <;> cases attempt <;> rfl
  | awaitAcquireCommit index =>
    simp only [hpc, Option.map_eq_some_iff] at h
    obtain ⟨ok, -, he⟩ := h
    obtain ⟨rfl, rfl, rfl⟩ := he
    refine Or.inr (Or.inr ⟨rfl, ?_, mem_entering_of_none c ?_⟩) <;> cases ok <;> rfl
  | awaitAcquireApplied index =>
    simp only [hpc, Option.map_eq_some_iff] at h
    obtain ⟨ok, -, he⟩ := h
    obtain ⟨rfl, rfl, rfl⟩ := he
    refine Or.inr (Or.inr ⟨rfl, ?_, mem_entering_of_none c ?_⟩) <;> cases ok <;> rfl
  | awaitReleaseCommit attempt index =>
    simp only [hpc, Option.map_eq_some_iff] at h
    obtain ⟨ok, -, he⟩ := h
    obtain ⟨rfl, rfl, rfl⟩ := he
    refine Or.inr (Or.inr ⟨rfl, ?_, mem_entering_of_none c ?_⟩) <;> cases ok <;> cases attempt <;> rfl
  | awaitReleaseApplied attempt index =>
    simp only [hpc, Option.map_eq_some_iff] at h
    obtain ⟨ok, -, he⟩ := h
    obtain ⟨rfl, rfl, rfl⟩ := he
    refine Or.inr (Or.inr ⟨rfl, ?_, mem_entering_of_none c ?_⟩) <;> cases ok <;> cases attempt <;> rfl
  | returned status => simp [hpc] at h

end AcquireCall

/-! ### The runs of a node are runs of its table -/

namespace DsccNode

/-- The table of the node, its calls of `wait_for_admission`, and the entries its
callback has applied. -/
structure Tracks (theta : F) (s : DsccNode ι F) (r : Replica F) : Prop where
  table : r.table = s.table
  applied : r.applied = s.raft.applied.map Prod.snd
  length : r.calls.length = s.acquires.length
  call : ∀ (k : ℕ) c, s.acquires[k]? = some c → ∃ call, r.calls[k]? = some call ∧
    c.Makes theta call

namespace Tracks

variable {theta : F} {s s' : DsccNode ι F} {r : Replica F}

omit [Arithmetic F] in
/-- Steps that leave the calls alone. -/
theorem of_acquires_eq (h : Tracks theta s r) {r' : Replica F} (hcalls : r'.calls = r.calls)
    (hacquires : s'.acquires = s.acquires) (htable : r'.table = s'.table)
    (happlied : r'.applied = s'.raft.applied.map Prod.snd) : Tracks theta s' r' where
  table := htable
  applied := happlied
  length := by rw [hcalls, hacquires, h.length]
  call := by rw [hcalls, hacquires]; exact h.call

omit [Arithmetic F] in
/-- Steps of call `k`. -/
theorem of_set (h : Tracks theta s r) {r' : Replica F} {k : ℕ} {c c' : AcquireCall F}
    {call call' : Call F} (hk : s.acquires[k]? = some c) (hcall : r.calls[k]? = some call)
    (hacquires : s'.acquires = s.acquires.set k c') (hcalls : r'.calls = r.calls.set k call')
    (hmakes : c'.Makes theta call') (htable : r'.table = s'.table)
    (happlied : r'.applied = s'.raft.applied.map Prod.snd) : Tracks theta s' r' where
  table := htable
  applied := happlied
  length := by rw [hcalls, hacquires, List.length_set, List.length_set, h.length]
  call j d hj := by
    rw [hacquires] at hj
    rw [hcalls]
    have hlt := (List.getElem?_eq_some_iff.mp hcall).1
    rcases getElem?_of_set hj with ⟨rfl, rfl⟩ | ⟨hne, hold⟩
    · exact ⟨call', List.getElem?_set_self hlt, hmakes⟩
    · obtain ⟨e, he, hd⟩ := h.call j d hold
      exact ⟨e, by rw [List.getElem?_set_ne hne.symm]; exact he, hd⟩

end Tracks

variable [DecidableEq ι] {cfg : ServiceConfig ι F} {s s' : DsccNode ι F} {a : Action ι F}

omit [DecidableEq ι] in
/-- One step of a call: `wait_for_admission` goes on, or `remove_pending` runs, or the
table does not notice. -/
theorem tracks_acquire {r : Replica F} (h : Tracks cfg.theta s r) {k : ℕ} {x : Choice}
    {c c' : AcquireCall F} {p : Process ι F} {t : LockTable F} (hk : s.acquires[k]? = some c)
    (hcall : c.step cfg s.raft s.table x = some (p, t, c'))
    (happlied : p.applied = s.raft.applied) :
    Tracks cfg.theta { s with raft := p, table := t, acquires := s.acquires.set k c' } r ∨
      ∃ b r', r.step b = some r' ∧
        Tracks cfg.theta { s with raft := p, table := t, acquires := s.acquires.set k c' } r' := by
  obtain ⟨call, hget, hmakes⟩ := h.call k c hk
  have hrecord : r.applied = p.applied.map Prod.snd := by rw [h.applied, happlied]
  have hsame : r.calls = r.calls.set k call := by
    obtain ⟨hlt, rfl⟩ := List.getElem?_eq_some_iff.mp hget
    exact (List.set_getElem_self hlt).symm
  rcases AcquireCall.step_table hcall with
    ⟨a, a', hpc, rfl, hwait⟩ | ⟨rfl, hrequest, hnone⟩ | ⟨rfl, hrequest, hentering⟩
  · have hadm : call.admission = a := hmakes.2.2 a (by simp [AcquireCall.entering, hpc])
    refine Or.inr ⟨.advance k x.layout,
      { r with table := t, calls := r.calls.set k { call with admission := a' } }, ?_, ?_⟩
    · simp [Replica.step, Replica.advance, hget, hmakes.1, hmakes.2.1, hadm, h.table, hwait]
    · refine h.of_set hk hget rfl rfl ⟨hmakes.1, hmakes.2.1, fun b hb => ?_⟩ rfl hrecord
      exact Option.some.inj hb
  · refine Or.inr ⟨.removePending c.agentId x.layout, _, rfl, ?_⟩
    refine h.of_set hk hget rfl hsame (hmakes.of_entering hrequest ?_) ?_ hrecord
    · exact AcquireCall.mem_entering_of_none c hnone
    · rw [h.table]
  · exact Or.inl (h.of_set hk hget rfl hsame (hmakes.of_entering hrequest hentering) h.table
      hrecord)

/-- Each step of a node is one step of its table, or none. -/
theorem tracks_step {r : Replica F} (h : Tracks cfg.theta s r) (hstep : s.step cfg a = some s') :
    Tracks cfg.theta s' r ∨ ∃ b r', r.step b = some r' ∧ Tracks cfg.theta s' r' := by
  cases (step_cases hstep).2 with
  | raftEvent event p hchange =>
    refine Or.inl (h.of_acquires_eq rfl rfl h.table ?_)
    rw [h.applied, hchange.frame.1]
  | finishElection sweeps hsweeps => exact Or.inl (h.of_acquires_eq rfl rfl h.table h.applied)
  | onCommit layout m e hphase =>
    refine Or.inr ⟨.apply e layout, _, rfl, h.of_acquires_eq rfl rfl ?_ ?_⟩
    · rw [h.table]
    · simp [h.applied]
  | acquireGuard request now =>
    refine Or.inr ⟨.request .waitForAdmission ⟨request.agentId, request.embedding, cfg.theta⟩, _,
      rfl, h.table, h.applied, by simp [h.length], fun k c hk => ?_⟩
    rcases getElem?_of_concat hk with hold | ⟨rfl, rfl⟩
    · obtain ⟨call, hcall, hmakes⟩ := h.call k c hold
      have hlt := (List.getElem?_eq_some_iff.mp hcall).1
      exact ⟨call, by rw [List.getElem?_append_left hlt]; exact hcall, hmakes⟩
    · refine ⟨_, ?_, AcquireCall.arrive_makes cfg request now⟩
      rw [← h.length, List.getElem?_concat_length]
  | releaseGuard agentId => exact Or.inl (h.of_acquires_eq rfl rfl h.table h.applied)
  | acquire k x c p t c' hk hopen hmove hcall =>
    refine tracks_acquire h hk hcall ?_
    cases hmove <;> rfl
  | release k x p releases hp =>
    refine Or.inl (h.of_acquires_eq rfl rfl h.table ?_)
    rcases hp with rfl | ⟨-, e, rfl⟩ <;> exact h.applied
  | sweep k x w p t w' hk hmove =>
    cases hmove with
    | stay sweepInProgress =>
      cases sweepInProgress with
      | true =>
        refine Or.inr ⟨.beginLeaderSweep, _, rfl, h.of_acquires_eq rfl rfl ?_ h.applied⟩
        rw [h.table]
        rfl
      | false =>
        refine Or.inr ⟨.endLeaderSweep, _, rfl, h.of_acquires_eq rfl rfl ?_ h.applied⟩
        rw [h.table]
        rfl
    | propose agentId orphans => exact Or.inl (h.of_acquires_eq rfl rfl h.table h.applied)

/-- The table of a node goes through a run of its own. -/
theorem simulates_replica (cfg : ServiceConfig ι F) :
    (Replica.system F).Simulates (system cfg) (Tracks cfg.theta) :=
  .of_step ⟨rfl, rfl, rfl, fun _ _ hk => by cases hk⟩ fun _ _ _ _ => tracks_step

end DsccNode

end DistributedLock.Service
