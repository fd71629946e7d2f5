import DistributedLock.Service.Runs

/-! The leader-change sweep. It takes the agents that have a slot at one moment for
orphans and proposes a RELEASE for each at a later one; nothing in a RELEASE tells for
which session it is meant. In the runs in which no session of an agent is under way
when its RELEASE is appended, and none begins before that entry has been applied, no
such RELEASE meets a session of this node. -/

namespace DistributedLock.Service

open Library Raft Table

variable {ι F : Type*}

namespace DsccNode

/-- The callback about to run is that of a RELEASE a sweep of this node has proposed, and
it will take away a slot or lock of an agent with a session under way. -/
def SweepHits (s : DsccNode ι F) : Prop :=
  ∃ m e, s.raft.phase = .calling m e ∧ (∃ w ∈ s.sweeps, (m, e) ∈ w.proposed) ∧
    s.InSession e.agentId ∧ (s.table.active.find e.agentId).isSome

/-- Every RELEASE of the agent that a sweep of this node has proposed stands at an index
whose callback has returned. -/
def Settled (s : DsccNode ι F) (id : String) : Prop :=
  ∀ w ∈ s.sweeps, ∀ q ∈ w.proposed, q.2.agentId = id → q.1 ≤ s.raft.applied.length

instance (s : DsccNode ι F) (id : String) : Decidable (s.Settled id) :=
  inferInstanceAs (Decidable (∀ w ∈ s.sweeps, ∀ q ∈ w.proposed, q.2.agentId = id →
    q.1 ≤ s.raft.applied.length))

/-- The agents of the calls that are in session in `s'` and were not in `s`. -/
def newSessions (s s' : DsccNode ι F) : List String :=
  (s'.acquires.zipIdx.filter fun (c, k) =>
    c.inSession s'.table && !(s.acquires[k]?.any fun c => c.inSession s.table)).map
      fun (c, _) => c.agentId

/-- The agent whose RELEASE the step appends, if the node leads. -/
def sweptAgent (s : DsccNode ι F) : Action ι F → Option String
  | .sweep k _ =>
    match s.sweeps[k]? with
    | some { pc := .propose agentId _, .. } => some agentId
    | _ => none
  | _ => none

variable [DecidableEq ι] [Arithmetic F]

/-- The step appends no RELEASE of a sweep for an agent in session, and admits no
session of an agent before such a RELEASE has been applied. -/
def SparesSessions (cfg : ServiceConfig ι F) (s : DsccNode ι F) (a : Action ι F) : Prop :=
  (∀ id ∈ s.sweptAgent a, s.raft.node.state = .leader → ¬ s.InSession id) ∧
    ∀ s' ∈ s.step cfg a, ∀ id ∈ newSessions s s', s.Settled id

instance (cfg : ServiceConfig ι F) (s : DsccNode ι F) (a : Action ι F) :
    Decidable (s.SparesSessions cfg a) :=
  inferInstanceAs (Decidable ((∀ id ∈ s.sweptAgent a, _ → _) ∧ ∀ s' ∈ s.step cfg a, _))

omit [DecidableEq ι] [Arithmetic F] in
theorem newSessions_cases {s s' : DsccNode ι F} {k : ℕ} {c : AcquireCall F}
    (hk : s'.acquires[k]? = some c) (hc : c.inSession s'.table = true) :
    (∃ c₀, s.acquires[k]? = some c₀ ∧ c₀.inSession s.table = true) ∨
      c.agentId ∈ newSessions s s' := by
  cases hold : s.acquires[k]?.any fun c => c.inSession s.table with
  | true => exact Or.inl ((Option.any_eq_true _ _).mp hold)
  | false =>
    refine Or.inr (List.mem_map.mpr ⟨(c, k), List.mem_filter.mpr ⟨?_, ?_⟩, rfl⟩)
    · exact List.mk_mem_zipIdx_iff_getElem?.mpr hk
    · simp [hc, hold]

variable {cfg : ServiceConfig ι F} {s s' : DsccNode ι F} {a : Action ι F}

/-- The calls keep their requests. -/
theorem request_step (hstep : NodeStep cfg s a s') {k : ℕ} {c c' : AcquireCall F}
    (hk : s.acquires[k]? = some c) (hk' : s'.acquires[k]? = some c') :
    c'.request = c.request := by
  have hsame : s'.acquires = s.acquires → c'.request = c.request := by
    intro h
    rw [h, hk, Option.some.injEq] at hk'
    rw [hk']
  cases hstep with
  | acquireGuard request now =>
    rcases getElem?_of_concat hk' with hold | ⟨rfl, -⟩
    · rw [hk, Option.some.injEq] at hold
      rw [hold]
    · rw [List.getElem?_eq_none_iff.mpr le_rfl] at hk
      cases hk
  | acquire j x d p t d' hj hopen hmove =>
    rcases getElem?_of_set hk' with ⟨rfl, rfl⟩ | ⟨-, hold⟩
    · rw [hk, Option.some.injEq] at hj
      subst hj
      exact hmove.request
    · rw [hk, Option.some.injEq] at hold
      rw [hold]
  | _ => exact hsame rfl

/-- What a step does to the records of the sweeps: it keeps them, or a leader appends
the RELEASE of the agent whose turn it is, and then the calls and the table stay. -/
theorem proposed_step (hstep : NodeStep cfg s a s') :
    (∀ w' ∈ s'.sweeps, ∀ q ∈ w'.proposed, ∃ w ∈ s.sweeps, q ∈ w.proposed) ∨
      (s'.acquires = s.acquires ∧ s'.table = s.table ∧
        ∃ b, s.sweptAgent a = some b ∧ s.raft.node.state = .leader ∧
          ∀ w' ∈ s'.sweeps, ∀ q ∈ w'.proposed,
            (∃ w ∈ s.sweeps, q ∈ w.proposed) ∨ q.2.agentId = b) := by
  cases hstep with
  | finishElection sweeps hsweeps =>
    refine Or.inl fun w' hw' q hq => ?_
    rcases List.mem_append.mp hw' with hw' | hw'
    · exact ⟨w', hw', hq⟩
    · rw [hsweeps w' hw'] at hq
      cases hq
  | sweep k x w p t w' hk hmove =>
    have hmem := List.mem_of_getElem? hk
    cases hmove with
    | stay sweepInProgress _ hproposed =>
      refine Or.inl fun v hv q hq => ?_
      rcases List.mem_or_eq_of_mem_set hv with hv | rfl
      · exact ⟨v, hv, hq⟩
      · exact ⟨w, hmem, hproposed ▸ hq⟩
    | propose b orphans _ hlead hpc hproposed =>
      refine Or.inr ⟨rfl, rfl, b, ?_, hlead, fun v hv q hq => ?_⟩
      · obtain ⟨pc, proposed⟩ := w
        subst hpc
        simp [sweptAgent, hk]
      · rcases List.mem_or_eq_of_mem_set hv with hv | rfl
        · exact Or.inl ⟨v, hv, hq⟩
        · rw [hproposed] at hq
          rcases List.mem_append.mp hq with hq | hq
          · exact Or.inl ⟨w, hmem, hq⟩
          · rw [List.mem_singleton.mp hq]
            exact Or.inr rfl
  | _ => exact Or.inl fun w' hw' q hq => ⟨w', hw', hq⟩

/-- The sessions of a node are of agents that the sweeps have finished with. -/
def SweepInv (s : DsccNode ι F) : Prop := ∀ id, s.InSession id → s.Settled id

theorem SweepInv.step (h : SweepInv s) (hspares : s.SparesSessions cfg a)
    (ht : s.step cfg a = some s') : SweepInv s' := by
  have hstep := (step_cases ht).2
  have hsettled : ∀ id, s.Settled id → (∀ b, s.sweptAgent a = some b →
      s.raft.node.state = .leader → s'.acquires = s.acquires → s'.table = s.table → b ≠ id) →
      s'.Settled id := by
    intro id hid hne w' hw' q hq hagent
    refine le_trans ?_ hstep.applied_isPrefix.length_le
    rcases proposed_step hstep with hkeep | ⟨hacq, htable, b, hb, hlead, hkeep⟩
    · obtain ⟨w, hw, hq⟩ := hkeep w' hw' q hq
      exact hid w hw q hq hagent
    · rcases hkeep w' hw' q hq with ⟨w, hw, hq⟩ | hqb
      · exact hid w hw q hq hagent
      · exact absurd (hqb.symm.trans hagent) (hne b hb hlead hacq htable)
  rintro id ⟨k, c', hk', rfl, hc'⟩
  refine hsettled _ ?_ ?_
  · rcases newSessions_cases (s := s) hk' hc' with ⟨c, hk, hc⟩ | hnew
    · have hagent : c'.agentId = c.agentId := by
        rw [AcquireCall.agentId, request_step hstep hk hk']
        rfl
      exact hagent ▸ h c.agentId ⟨k, c, hk, rfl, hc⟩
    · exact hspares.2 s' ht _ hnew
  · rintro b hb hlead hacq htable rfl
    exact hspares.1 _ hb hlead ⟨k, c', hacq ▸ hk', rfl, htable ▸ hc'⟩

/-- No RELEASE that a sweep has proposed takes the slot or the lock of a session of the
same node, in the runs in which no session of the agent is under way when the RELEASE
is appended, and none is admitted before it has been applied. -/
theorem sweep_spares_sessions (cfg : ServiceConfig ι F) (as : List (Action ι F))
    (s : DsccNode ι F) (h : ((system cfg).guard (SparesSessions cfg)).exec as = some s) :
    ¬ s.SweepHits := by
  have hinv : SweepInv s := ((system cfg).guard (SparesSessions cfg)).invariant (P := SweepInv)
    (by
      rintro id ⟨k, c, hk, -⟩
      simp [System.guard, system, start] at hk)
    (fun _ _ _ hs ht => hs.step (System.guard_step.mp ht).1 (System.guard_step.mp ht).2) h
  rintro ⟨m, e, hphase, ⟨w, hw, hq⟩, hin, -⟩
  have hle := hinv e.agentId hin w hw (m, e) hq rfl
  have hcall : s.raft.calls[s.raft.applied.length]? = some (m, e) := by
    simp [Process.calls, hphase]
  have hindex := (applyOk (System.exec_of_guard h)).index _ m e hcall
  simp only at hle
  omega

/-- A session of "a" has proposed its RELEASE when the sweep of the node finds the lock
and proposes another, which is applied after it. -/
def lateSweepRun : List (Action Unit ℤ) :=
  List.flatten [[.acquireGuard ⟨"a", [1, 0], .write⟩ 0], List.replicate 5 (.acquire 0 {}),
    applyNext, List.replicate 3 (.acquire 0 {}), List.replicate 4 (.sweep 0 {}), applyNext,
    [.raftEvent .applyTake]]

theorem sweep_spares_sessions_late :
    ∃ s : DsccNode Unit ℤ, (system .alone).exec lateSweepRun = some s ∧
      (∃ w ∈ s.sweeps, w.proposed.length = 1) ∧ ¬ s.SweepHits := by
  obtain ⟨s, hrun, hsweep⟩ := ((system .alone).guard (SparesSessions .alone)).exists_exec
    lateSweepRun (fun s => ∃ w ∈ s.sweeps, w.proposed.length = 1) (by decide +kernel)
  exact ⟨s, System.exec_of_guard hrun, hsweep, sweep_spares_sessions .alone _ s hrun⟩

/-- A session of "a" is admitted after the node has become leader and before its sweep
takes the snapshot. -/
def earlySessionRun : List (Action Unit ℤ) :=
  List.flatten [[.acquireGuard ⟨"a", [1, 0], .write⟩ 0, .acquire 0 {}, .acquire 0 {}],
    List.replicate 4 (.sweep 0 {}), [.raftEvent .applyTake]]

/-- The callback takes the slot of the session away. -/
theorem sweep_hits_session :
    ∃ s s' : DsccNode Unit ℤ, (system .alone).exec earlySessionRun = some s ∧ s.SweepHits ∧
      (system .alone).exec (earlySessionRun ++ [.onCommit .newest]) = some s' ∧
      s'.InSession "a" ∧ s'.table.active.find "a" = none := by
  have h : ((system .alone).exec earlySessionRun).isSome := rfl
  have h' : ((system .alone).exec (earlySessionRun ++ [.onCommit .newest])).isSome := rfl
  exact ⟨_, _, (Option.some_get h).symm, ⟨_, _, rfl, ⟨_, List.mem_singleton_self _,
    List.mem_singleton_self _⟩, ⟨0, _, rfl, rfl, rfl⟩, rfl⟩, (Option.some_get h').symm,
    ⟨0, _, rfl, rfl, rfl⟩, rfl⟩

end DsccNode

end DistributedLock.Service
