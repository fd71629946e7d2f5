import DistributedLock.Service.Runs

/-! No lock of a stable leader is leaked and no request is stranded. Every lock in the
table answers for a call in session, which has still to append its RELEASE, or for a
RELEASE in the log that has still to be applied; and the same holds of every ACQUIRE in
the log that has still to be applied. -/

namespace DistributedLock.Service

open Library Raft Table

variable {ι F : Type*}

namespace DsccNode

/-- One of the entries releases the agent. -/
def Releases (es : List (LogEntry F)) (id : String) : Prop :=
  ∃ e ∈ es, e.opType = .release ∧ e.agentId = id

structure LeakInv (s : DsccNode ι F) : Prop where
  slot : ∀ id, (s.table.active.find id).isSome → s.InSession id ∨ Releases s.unapplied id
  entry : ∀ es e es', s.unapplied = es ++ e :: es' → e.opType = .acquire →
    s.InSession e.agentId ∨ Releases es' e.agentId

theorem inSession_of_sleeping {s : DsccNode ι F} (theta : F) {k w : ℕ} {d : Demand F}
    (hk : s.sleeps theta k = some (w, d)) (hw : (s.table.waiter w).granted = true) :
    s.InSession d.agentId := by
  obtain ⟨c, hc, hsleep⟩ := Option.bind_eq_some_iff.mp hk
  obtain ⟨-, rfl⟩ := AcquireCall.sleeping_eq_some hsleep
  exact ⟨k, c, hc, rfl, (AcquireCall.stage_of_sleeping hsleep s.table).1.trans hw⟩

namespace LeakInv

variable {s s' : DsccNode ι F}

/-- Steps that leave the log alone. -/
theorem of_unapplied_eq (h : LeakInv s) (hun : s'.unapplied = s.unapplied)
    (hsession : ∀ id, s.InSession id → s'.InSession id)
    (hlocks : ∀ id, (s'.table.active.find id).isSome →
      (s.table.active.find id).isSome ∨ s'.InSession id) : LeakInv s' := by
  refine ⟨fun id hid => ?_, fun es e es' hes he => ?_⟩
  · rw [hun]
    rcases hlocks id hid with hid | hin
    · exact (h.slot id hid).imp_left (hsession id)
    · exact Or.inl hin
  · rw [hun] at hes
    exact (h.entry es e es' hes he).imp_left (hsession _)

/-- Steps that append one entry: an ACQUIRE of a call in session, or a RELEASE. -/
theorem of_append (h : LeakInv s) {x : LogEntry F} (hun : s'.unapplied = s.unapplied ++ [x])
    (htable : s'.table = s.table)
    (hsession : ∀ id, s.InSession id →
      s'.InSession id ∨ (x.opType = .release ∧ x.agentId = id))
    (hx : x.opType = .acquire → s'.InSession x.agentId) : LeakInv s' := by
  have hlast : ∀ {es : List (LogEntry F)} {id : String}, s.InSession id ∨ Releases es id →
      s'.InSession id ∨ Releases (es ++ [x]) id := by
    rintro es id (hin | ⟨e, he, hrel⟩)
    · exact (hsession id hin).imp_right fun hrel => ⟨x, by simp, hrel⟩
    · exact Or.inr ⟨e, List.mem_append_left _ he, hrel⟩
  refine ⟨fun id hid => ?_, fun es e es' hes he => ?_⟩
  · rw [hun]
    exact hlast (h.slot id (htable ▸ hid))
  · rw [hun] at hes
    rcases concat_eq_split hes with ⟨-, rfl, -⟩ | ⟨es₁, hold, rfl⟩
    · exact Or.inl (hx he)
    · exact hlast (h.entry es e es₁ hold he)

/-- The callback of the first entry not yet applied. -/
theorem of_commit (h : LeakInv s) {x : LogEntry F} (hun : s.unapplied = x :: s'.unapplied)
    (hsession : ∀ id, s.InSession id → s'.InSession id)
    (hlocks : ∀ id, (s'.table.active.find id).isSome → s'.InSession id ∨
      (x.opType = .acquire ∧ x.agentId = id) ∨
      ((s.table.active.find id).isSome ∧ ¬ (x.opType = .release ∧ x.agentId = id))) :
    LeakInv s' := by
  refine ⟨fun id hid => ?_, fun es e es' hes he => ?_⟩
  · rcases hlocks id hid with hin | ⟨hacq, rfl⟩ | ⟨hid, hne⟩
    · exact Or.inl hin
    · exact (h.entry [] x s'.unapplied hun hacq).imp_left (hsession _)
    · refine (h.slot id hid).imp (hsession id) ?_
      rintro ⟨e, he, hrel⟩
      rw [hun] at he
      rcases List.mem_cons.mp he with rfl | he
      · exact absurd hrel hne
      · exact ⟨e, he, hrel⟩
  · rw [hes] at hun
    exact (h.entry (x :: es) e es' hun he).imp_left (hsession _)

end LeakInv

/-! ### Calls in session -/

variable {s s' : DsccNode ι F}

/-- A step that keeps the grants of sleeping calls keeps every session of the calls
that it leaves alone. -/
theorem InSession.mono {id : String} (h : s.InSession id) (theta : F)
    (hcalls : ∀ (k : ℕ) c, s.acquires[k]? = some c → c.inSession s.table = true →
      c.agentId = id → s'.acquires[k]? = some c ∨ s'.InSession id)
    (hgranted : ∀ k w d, s.sleeps theta k = some (w, d) → (s.table.waiter w).granted = true →
      (s'.table.waiter w).granted = true) : s'.InSession id := by
  obtain ⟨k, c, hk, hid, hin⟩ := h
  rcases hcalls k c hk hin hid with hk' | hin'
  · have hkeep := c.stage_of_granted theta fun w d hsleep =>
      hgranted k w d ((sleeps_of_get hk).trans hsleep)
    exact ⟨k, c, hk', hid, hkeep.1 hin⟩
  · exact hin'

/-- The same when one call has moved on. -/
theorem InSession.set {id : String} (h : s.InSession id) (theta : F) {k : ℕ}
    {c c' : AcquireCall F} (hk : s.acquires[k]? = some c)
    (hs : s'.acquires = s.acquires.set k c') (hrequest : c'.request = c.request)
    (hc : c.inSession s.table = true → c'.inSession s'.table = true)
    (hgranted : ∀ k w d, s.sleeps theta k = some (w, d) → (s.table.waiter w).granted = true →
      (s'.table.waiter w).granted = true) : s'.InSession id := by
  refine h.mono theta (fun j cj hj hin hid => ?_) hgranted
  rcases eq_or_ne j k with rfl | hne
  · rw [hk, Option.some.injEq] at hj
    subst hj
    have hlt := (List.getElem?_eq_some_iff.mp hk).1
    refine Or.inr ⟨j, c', by simp [hs, hlt], ?_, hc hin⟩
    rw [← hid, AcquireCall.agentId, hrequest]
    rfl
  · exact Or.inl (by rw [hs, List.getElem?_set_ne hne.symm, hj])

variable [Arithmetic F]

/-- A new call is in no session. -/
theorem InSession.arrive {id : String} {cfg : ServiceConfig ι F} {request : AcquireRequest F}
    {now : ℤ} (h : s.InSession id) (htable : s'.table = s.table)
    (hs : s'.acquires = s.acquires ++ [AcquireCall.arrive cfg request now]) :
    s'.InSession id := by
  refine h.mono cfg.theta (fun k c hk _ _ => Or.inl ?_) fun _ _ _ _ hv => htable ▸ hv
  rw [hs, List.getElem?_append_left (List.getElem?_eq_some_iff.mp hk).1, hk]

/-- One step of a call's own thread. -/
theorem LeakInv.acquire [DecidableEq ι] {cfg : ServiceConfig ι F} {k : ℕ} {c c' : AcquireCall F}
    {p : Process ι F} {t : LockTable F} (h : LeakInv s) (hs : StableInv s)
    (hw : WaitersOk s.table [] (s.sleeps cfg.theta)) (hk : s.acquires[k]? = some c)
    (hmove : AcquireMove cfg s.raft s.table c p t c') :
    LeakInv { s with raft := p, table := t, acquires := s.acquires.set k c' } := by
  have hlt := (List.getElem?_eq_some_iff.mp hk).1
  have hkeep : ∀ j w d, s.sleeps cfg.theta j = some (w, d) →
      (s.table.waiter w).granted = true → (s.table.waiter w).granted = true := fun _ _ _ _ hv => hv
  cases hmove with
  | stay c' hrequest hsleep hsleep' hsession hholds =>
    refine h.of_unapplied_eq rfl (fun id hid => ?_) fun id hid => Or.inl hid
    exact hid.set cfg.theta hk rfl hrequest (fun hin => hsession.trans hin) hkeep
  | wait layout a a' t' hpc hwait =>
    have hsleep := sleeps_of_admission cfg.theta hk hpc
    cases hw.admissionMove hsleep hwait with
    | reserve hfree =>
      obtain ⟨lock, hst, -⟩ :=
        LockTable.reservePending_stores layout (c.demand cfg.theta) s.table
      refine h.of_unapplied_eq rfl (fun id hid => ?_) fun id hid => ?_
      · exact hid.set cfg.theta hk rfl rfl (fun _ => rfl) fun _ _ _ _ hv => by rwa [hst.waiter]
      · rcases eq_or_ne id c.agentId with rfl | hne
        · exact Or.inr ⟨k, { c with pc := .admission (.returned { blockingSimilarityScore := 0 }) },
            by simp [hlt], rfl, rfl⟩
        · exact Or.inl (by rwa [hst.find_of_ne hne] at hid)
    | sleep id₀ score hconflict =>
      refine h.of_unapplied_eq rfl (fun id hid => ?_) fun id hid => Or.inl ?_
      · refine hid.set cfg.theta hk rfl rfl (fun hin => ?_) fun j w d hj hv => ?_
        · simp [AcquireCall.inSession, hpc] at hin
        · simpa [LockTable.sleepOn, (hw.fresh j w d hj).ne] using hv
      · rwa [LockTable.sleepOn, LockTable.find_enqueue, Option.isSome_map] at hid
    | wake w trace hgranted =>
      refine h.of_unapplied_eq rfl (fun id hid => ?_) fun id hid => Or.inl hid
      refine hid.set cfg.theta hk rfl rfl (fun _ => rfl) fun j v d hj hv => ?_
      simp only [LockTable.setWaiter_waiter, Function.update_apply]
      split_ifs
      · exact hgranted
      · exact hv
  | appendAcquire index hlead hpc =>
    refine h.of_append (hs.unapplied_append (appended_log _ _ _) rfl) rfl (fun id hid => ?_)
      fun _ => ⟨k, { c with pc := .awaitAcquireCommit index }, by simp [hlt], rfl, rfl⟩
    exact Or.inl (hid.set cfg.theta hk rfl rfl (fun _ => rfl) hkeep)
  | removePending layout message hpc =>
    rcases hw.removePending_frees layout c.agentId with he | hfrees
    · refine h.of_unapplied_eq rfl (fun id hid => ?_) fun id hid => Or.inl (he ▸ hid)
      exact hid.set cfg.theta hk rfl rfl (fun _ => rfl) fun _ _ _ _ hv => by rwa [he]
    · refine h.of_unapplied_eq rfl (fun id hid => ?_) fun id hid => ?_
      · exact hid.set cfg.theta hk rfl rfl (fun _ => rfl) fun j v d _ hv => hfrees.granted v hv
      · rcases hfrees.locks id hid with ⟨-, hid⟩ | ⟨j, w, d, hj, rfl, hv⟩
        · exact Or.inl hid
        · refine Or.inr (inSession_of_sleeping cfg.theta (k := j) (w := w) ?_ hv)
          rw [sleeps_set hk rfl, Function.update_apply]
          split_ifs with hjk
          · rw [hjk, sleeps_of_get hk] at hj
            simp [AcquireCall.sleeping, hpc] at hj
          · exact hj
  | appendRelease c' hlead hrequest hsleep hsleep' hsession =>
    refine h.of_append (hs.unapplied_append (appended_log _ _ _) rfl) rfl (fun id hid => ?_)
      fun hacq => by cases hacq
    obtain ⟨j, cj, hj, hid, hin⟩ := hid
    rcases eq_or_ne j k with rfl | hne
    · rw [hk, Option.some.injEq] at hj
      subst hj
      exact Or.inr ⟨rfl, hid⟩
    · exact Or.inl ⟨j, cj, by simpa [hne.symm] using hj, hid, hin⟩
  | giveUp c' hlead => exact absurd (leads_iff.mp hs.leads).1 hlead

/-- The callback runs on the first entry not yet applied. -/
theorem LeakInv.commit {theta : F} (h : LeakInv s) (hs : StableInv s)
    (hw : WaitersOk s.table [] (s.sleeps theta)) (layout : Layout String) {m : ℕ}
    {e : LogEntry F} (hphase : s.raft.phase = .calling m e) :
    LeakInv { s with
      raft := { s.raft with phase := .returned, applied := s.raft.applied ++ [(m, e)] }
      table := s.table.onCommit layout e } := by
  refine h.of_commit (hs.unapplied_calling hphase rfl rfl) (fun id hid => ?_) fun id hid => ?_
  · refine hid.mono theta (fun k c hk _ _ => Or.inl hk) fun k w d hk hv => ?_
    simp only [LockTable.onCommit]
    cases e.opType with
    | acquire =>
      obtain ⟨lock, hst, -⟩ := s.table.applyAcquire_stores layout e.agentId e.embedding e.theta
      rwa [hst.waiter]
    | release => exact (hw.release_frees layout e.agentId).granted w hv
  · simp only [LockTable.onCommit] at hid
    cases hop : e.opType with
    | acquire =>
      simp only [hop] at hid
      obtain ⟨lock, hst, -⟩ := s.table.applyAcquire_stores layout e.agentId e.embedding e.theta
      rcases eq_or_ne id e.agentId with rfl | hne
      · exact Or.inr (Or.inl ⟨rfl, rfl⟩)
      · rw [hst.find_of_ne hne] at hid
        exact Or.inr (Or.inr ⟨hid, fun hrel => hne hrel.2.symm⟩)
    | release =>
      simp only [hop] at hid
      rcases (hw.release_frees layout e.agentId).locks id hid with
        ⟨hne, hid⟩ | ⟨k, w, d, hk, rfl, hv⟩
      · exact Or.inr (Or.inr ⟨hid, fun hrel => hne hrel.2.symm⟩)
      · refine Or.inl (inSession_of_sleeping theta (k := k) (w := w) hk ?_)
        simpa only [LockTable.onCommit, hop] using hv

/-- Each step of a stable leader keeps its locks and its ACQUIREs accounted for. -/
theorem LeakInv.step [DecidableEq ι] {cfg : ServiceConfig ι F} {a : Action ι F} (h : LeakInv s)
    (hs : StableInv s) (hw : WaitersOk s.table [] (s.sleeps cfg.theta))
    (hstep : NodeStep cfg s a s') (hleads : s'.leads = true) : LeakInv s' := by
  have hrelease : ∀ {p : Process ι F} {b : String}, p = appended cfg.node s.raft (.release b) →
      ∀ s'' : DsccNode ι F, s''.raft = p → s''.table = s.table → s''.acquires = s.acquires →
        LeakInv s'' := by
    rintro p b rfl s'' hraft htable hacq
    refine h.of_append (hs.unapplied_append (hraft ▸ appended_log _ _ _) (hraft ▸ rfl)) htable
      (fun id hid => Or.inl ?_) fun hacq => by cases hacq
    exact hid.mono cfg.theta (fun k c hk _ _ => Or.inl (hacq ▸ hk)) fun _ _ _ _ hv => htable ▸ hv
  cases hstep with
  | raftEvent event p hchange =>
    obtain ⟨happlied, hlog⟩ := hchange.frame
    have hun : DsccNode.unapplied { s with raft := p } = s.unapplied :=
      unapplied_congr (hlog (leads_iff.mp hs.leads).1 (leads_iff.mp hleads).1) happlied
    exact h.of_unapplied_eq hun (fun id hid => hid) fun id hid => Or.inl hid
  | finishElection sweeps hsweeps =>
    exact h.of_unapplied_eq rfl (fun id hid => hid) fun id hid => Or.inl hid
  | onCommit layout m e hphase => exact h.commit hs hw layout hphase
  | acquireGuard request now =>
    exact h.of_unapplied_eq rfl (fun id hid => hid.arrive rfl rfl) fun id hid => Or.inl hid
  | releaseGuard agentId =>
    exact h.of_unapplied_eq rfl (fun id hid => hid) fun id hid => Or.inl hid
  | acquire k x c p t c' hk hopen hmove => exact h.acquire hs hw hk hmove
  | release k x p releases hp =>
    rcases hp with rfl | ⟨-, b, hp⟩
    · exact h.of_unapplied_eq rfl (fun id hid => hid) fun id hid => Or.inl hid
    · exact hrelease hp _ rfl rfl rfl
  | sweep k x w p t w' hk hmove =>
    cases hmove with
    | stay sweepInProgress =>
      exact h.of_unapplied_eq rfl (fun id hid => hid) fun id hid => Or.inl hid
    | propose b orphans => exact hrelease rfl _ rfl rfl rfl

theorem LeakInv.start [DecidableEq ι] (cfg : ServiceConfig ι F) (T : ℕ) :
    LeakInv (leaderStart cfg T) := by
  refine ⟨fun id hid => ?_, fun es e es' hes => ?_⟩
  · simp [leaderStart, LockTable.empty] at hid
  · simp [leaderStart, unapplied, RaftNode.becomeLeader] at hes

variable [DecidableEq ι]

/-- Once the whole log has been applied and no call is in session, a stable leader has
no lock, and no call sleeps. A call between its admission and its return is in session
until it proposes its RELEASE, so less is asked here than that no call is there. -/
theorem no_leak (cfg : ServiceConfig ι F) (T : ℕ) (as : List (Action ι F)) (s : DsccNode ι F)
    (h : (stableSystem cfg T).exec as = some s)
    (happlied : ∀ k, 1 ≤ k → k < s.raft.node.log.length → ∃ e, (k, e) ∈ s.raft.applied)
    (hcalls : ∀ c ∈ s.acquires, c.inSession s.table = false) :
    s.table.active.keys = [] ∧ ∀ c ∈ s.acquires, c.sleeping cfg.theta = none := by
  obtain ⟨⟨hs, hw⟩, hleak⟩ := (stableSystem cfg T).invariant
    (P := fun s => (StableInv s ∧ WaitersOk s.table [] (s.sleeps cfg.theta)) ∧ LeakInv s)
    ⟨⟨.start cfg T, waiters_empty _ rfl rfl⟩, .start cfg T⟩
    (fun _ _ _ ⟨⟨hs, hw⟩, hl⟩ ht =>
      have hstep := stable_step ht
      ⟨⟨hs.step hstep.1 hstep.2, waiters_step hstep.1 hw⟩, hl.step hs hw hstep.1 hstep.2⟩) h
  have hsession : ∀ id, ¬ s.InSession id := by
    rintro id ⟨k, c, hk, -, hin⟩
    rw [hcalls c (List.mem_of_getElem? hk)] at hin
    cases hin
  have hfree : ∀ id, ¬ (s.table.active.find id).isSome := by
    intro id hid
    rcases hleak.slot id hid with hin | ⟨e, he, -⟩
    · exact hsession id hin
    · rw [hs.unapplied_eq_nil happlied] at he
      cases he
  refine ⟨List.eq_nil_iff_forall_not_mem.mpr fun id hid =>
    hfree id ((s.table.active.mem_keys id).mp hid), fun c hc => ?_⟩
  -- a sleeping call is granted, and then in session, or sits in the queue of a lock
  obtain ⟨k, hk⟩ := List.mem_iff_getElem?.mp hc
  rw [Option.eq_none_iff_forall_not_mem]
  rintro ⟨w, d⟩ hsleep
  cases hgranted : (s.table.waiter w).granted with
  | true =>
    have hin := hcalls c hc
    rw [(AcquireCall.stage_of_sleeping hsleep s.table).1, hgranted] at hin
    cases hin
  | false =>
    have hqueued := (hw.queued w).mpr ⟨hgranted, k, d, (sleeps_of_get hk).trans hsleep⟩
    simp only [List.not_mem_nil, false_or] at hqueued
    obtain ⟨id, hid⟩ := hqueued
    exact hfree id (LockTable.isSome_of_mem_queue hid)

/-- Agent "b" waits behind "a" for the same vector. The apply thread is late, so "a"
gives up and leaves a RELEASE in the log, which hands the slot to "b"; Qdrant fails "b",
and its scope guard releases. -/
def handOffRun : List (Action Unit ℤ) :=
  List.flatten [[.acquireGuard ⟨"a", [1, 0], .write⟩ 0, .acquire 0 {}, .acquire 0 {}],
    [.acquireGuard ⟨"b", [1, 0], .write⟩ 0, .acquire 1 {}, .acquire 1 {}],
    List.replicate 3 (.acquire 0 {}), [.acquire 0 { timedOut := true }, .acquire 0 {}],
    applyNext, applyNext, List.replicate 4 (.acquire 1 {}), applyNext,
    [.acquire 1 {}, .acquire 1 { qdrantOk := false }, .acquire 1 {}, .acquire 1 {}], applyNext]

theorem no_leak_handOff :
    ∃ s : DsccNode Unit ℤ, (stableSystem .alone 1).exec handOffRun = some s ∧
      s.raft.applied.length = 4 ∧ s.table.active.keys = [] := by
  obtain ⟨s, hrun, hlen, hall, happlied, hcalls⟩ := (stableSystem .alone 1).exists_exec handOffRun
    (fun s => s.raft.node.log.length = 5 ∧
      (∀ k ∈ List.range 5, 1 ≤ k → k ∈ s.raft.applied.map Prod.fst) ∧
      s.raft.applied.length = 4 ∧ ∀ c ∈ s.acquires, c.inSession s.table = false)
    (by decide +kernel)
  refine ⟨s, hrun, happlied, (no_leak .alone 1 _ s hrun (fun k hpos hk => ?_) hcalls).1⟩
  rw [hlen, ← List.mem_range] at hk
  obtain ⟨⟨k, e⟩, hmem, rfl⟩ := List.mem_map.mp (hall k hk hpos)
  exact ⟨e, hmem⟩

end DsccNode

end DistributedLock.Service
