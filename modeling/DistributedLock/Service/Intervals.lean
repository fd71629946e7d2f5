import DistributedLock.Service.Calm

/-! The lock intervals that `AcquireGuard` reports, and the check that the benchmark runs on
them. A call reads the clock for `lock_acquired_unix_ms` after it has been admitted, and
for `lock_released_unix_ms` after its RELEASE has been applied and has handed the slot over.
The next holder may read the clock between the hand-over and that second reading, and the
check then takes two sessions that excluded each other for a violation. When no holder
does, the intervals of conflicting grants are disjoint. -/

namespace DistributedLock.Service

open Library Raft Table

/-! ### The check of the benchmark -/

/-- The benchmark's own `OperationType`. -/
inductive BenchmarkOperationType where
  | write | read
  deriving DecidableEq

structure BenchmarkOperation (F : Type*) where
  agentId : String
  embedding : List F
  operation : BenchmarkOperationType

structure OperationResult (F : Type*) where
  operation : BenchmarkOperation F
  status : Status
  response : AcquireResponse F

structure ViolationRecord (F : Type*) where
  activeAgentId : String
  violatingAgentId : String
  activeOperation : BenchmarkOperationType
  violatingOperation : BenchmarkOperationType
  similarity : F
  detectedUnixMs : ℤ
  overlapStartUnixMs : ℤ
  overlapEndUnixMs : ℤ

def intervalsOverlap (startA endA startB endB : ℤ) : Bool :=
  if startA ≤ 0 ∨ endA ≤ 0 ∨ startB ≤ 0 ∨ endB ≤ 0 then false
  else max startA startB < min endA endB

section

variable {F : Type*} [Arithmetic F] (lt : F → F → Bool) (theta : F)

/-- The body of the loops of `compute_violation_records`; `lt` is `<` of `float`. -/
def violationRecord (left right : OperationResult F) : Option (ViolationRecord F) :=
  if left.status.code ≠ .ok ∨ right.status.code ≠ .ok ∨
      left.response.granted = false ∨ right.response.granted = false then none
  else
    let similarity := cosineSimilarity left.operation.embedding right.operation.embedding
    let leftStart := left.response.lockAcquiredUnixMs
    let leftEnd := left.response.lockReleasedUnixMs
    let rightStart := right.response.lockAcquiredUnixMs
    let rightEnd := right.response.lockReleasedUnixMs
    if lt similarity theta then none
    else if intervalsOverlap leftStart leftEnd rightStart rightEnd = false then none
    else
      let (active, violating) := if rightStart < leftStart then (right, left) else (left, right)
      some
        { activeAgentId := active.operation.agentId
          violatingAgentId := violating.operation.agentId
          activeOperation := active.operation.operation
          violatingOperation := violating.operation.operation
          similarity := similarity
          detectedUnixMs :=
            max active.response.lockAcquiredUnixMs violating.response.lockAcquiredUnixMs
          overlapStartUnixMs := max leftStart rightStart
          overlapEndUnixMs := min leftEnd rightEnd }

def computeViolationRecords : List (OperationResult F) → List (ViolationRecord F)
  | [] => []
  | left :: operations =>
    operations.filterMap (violationRecord lt theta left) ++ computeViolationRecords operations

variable {lt theta}

theorem computeViolationRecords_eq_nil {operations : List (OperationResult F)}
    (h : operations.Pairwise fun left right => violationRecord lt theta left right = none) :
    computeViolationRecords lt theta operations = [] := by
  induction h with
  | nil => rfl
  | cons hleft _ ih =>
    rw [computeViolationRecords, ih, List.append_nil, List.filterMap_eq_nil_iff]
    exact hleft

/-- Two operations are not reported when one of them was not granted, or when their
vectors do not conflict or their intervals do not overlap. -/
theorem violationRecord_eq_none {left right : OperationResult F}
    (hlt : ∀ x, lt x theta = false → Arithmetic.le theta x = true)
    (h : left.status.code = .ok → right.status.code = .ok → left.response.granted = true →
      right.response.granted = true → Arithmetic.le theta (cosineSimilarity
        left.operation.embedding right.operation.embedding) = true →
      intervalsOverlap left.response.lockAcquiredUnixMs left.response.lockReleasedUnixMs
        right.response.lockAcquiredUnixMs right.response.lockReleasedUnixMs = false) :
    violationRecord lt theta left right = none := by
  unfold violationRecord
  dsimp only
  split_ifs with hgrant hsim hoverlap
  · rfl
  · rfl
  · rfl
  all_goals
    simp only [not_or, ne_eq, not_not, Bool.not_eq_false] at hgrant
    obtain ⟨hleft, hright, hgranted, hgranted'⟩ := hgrant
    exact absurd (h hleft hright hgranted hgranted' (hlt _ (by simpa using hsim))) hoverlap

end

theorem intervalsOverlap_of_le {startA endA startB endB : ℤ}
    (h : endA ≤ startB ∨ endB ≤ startA) : intervalsOverlap startA endA startB endB = false := by
  unfold intervalsOverlap
  split_ifs
  · rfl
  · rw [decide_eq_false_iff_not]
    omega

variable {ι F : Type*}

/-! ### Where the clock is read -/

namespace AcquireCall

/-- The call is about to read the clock for `lock_acquired_unix_ms`. -/
def readsAcquired (c : AcquireCall F) : Bool :=
  match c.pc with
  | .admission (.returned _) => true
  | _ => false

/-- The next step of the call reads the clock. -/
def readsClock (c : AcquireCall F) : Bool :=
  match c.pc with
  | .admission (.returned _) | .qdrant | .released _ => true
  | _ => false

/-- What the benchmark records of a call. -/
def result (c : AcquireCall F) : Option (OperationResult F) :=
  match c.pc with
  | .returned status =>
    let operation := if c.operationType = .read then .read else .write
    some
      { operation := { agentId := c.agentId, embedding := c.embedding, operation := operation }
        status := status
        response := c.response }
  | _ => none

theorem span_open {c : AcquireCall F} {x : Span (List F) ℤ} (h : c.span = some x)
    (hopen : x.stop = none) : c.holdsReport = true ∧ x.value = c.embedding := by
  unfold span at h
  split_ifs at h with hgranted hholds
  · obtain rfl := Option.some.inj h
    cases hopen
  · obtain rfl := Option.some.inj h
    exact ⟨hholds, rfl⟩

theorem arrive_span [Zero F] (cfg : ServiceConfig ι F) (request : AcquireRequest F) (now : ℤ) :
    (arrive cfg request now).span = none := by
  unfold arrive
  dsimp only
  split_ifs <;> rfl

theorem span_granted {c : AcquireCall F} (h : c.response.granted = true) :
    c.span = some
      ⟨c.embedding, c.response.lockAcquiredUnixMs, some c.response.lockReleasedUnixMs⟩ := by
  rw [span, if_pos h]

end AcquireCall

namespace DsccNode

/-- What the clock shows when a step reads it. -/
def clockRead (s : DsccNode ι F) : Action ι F → Option ℤ
  | .acquireGuard _ now => some now
  | .acquire k x => if s.acquires[k]?.any AcquireCall.readsClock then some x.now else none
  | _ => none

/-- Whenever a call reads the clock for `lock_acquired_unix_ms`, the calls it conflicts with
that have yet to read it for `lock_released_unix_ms` still have their slots. -/
def ReadsInOrder [Arithmetic F] (theta : F) (s : DsccNode ι F) : Action ι F → Prop
  | .acquire k _ => ∀ c ∈ s.acquires[k]?, c.readsAcquired = true → ∀ c' ∈ s.acquires,
    c'.holdsReport = true →
      Arithmetic.le theta (cosineSimilarity c.embedding c'.embedding) = true →
        (s.table.active.find c'.agentId).isSome = true
  | _ => True

instance [Arithmetic F] (theta : F) (s : DsccNode ι F) :
    (a : Action ι F) → Decidable (s.ReadsInOrder theta a)
  | .acquire k _ =>
    inferInstanceAs (Decidable (∀ c ∈ s.acquires[k]?, c.readsAcquired = true → ∀ c' ∈ s.acquires,
      c'.holdsReport = true →
        Arithmetic.le theta (cosineSimilarity c.embedding c'.embedding) = true →
          (s.table.active.find c'.agentId).isSome = true))
  | .raftEvent _ | .finishElection | .onCommit _ | .acquireGuard _ _ | .releaseGuard _
  | .release _ _ | .sweep _ _ => isTrue trivial

/-- The runs of a stable leader in which nothing goes wrong, with a clock that never goes
back. -/
def clockedSystem [DecidableEq ι] [Arithmetic F] (cfg : ServiceConfig ι F) (T : ℕ) (start : ℤ) :
    System (DsccNode ι F × ℤ) (Action ι F) where
  init := (leaderStart cfg T, start)
  step s a :=
    let now := (s.1.clockRead a).getD s.2
    if s.1.Calm a ∧ s.2 ≤ now then ((stableSystem cfg T).step s.1 a).map fun t => (t, now)
    else none

theorem clocked_step [DecidableEq ι] [Arithmetic F] {cfg : ServiceConfig ι F} {T : ℕ} {start : ℤ}
    {s s' : DsccNode ι F × ℤ} {a : Action ι F}
    (h : (clockedSystem cfg T start).step s a = some s') :
    (s.1.Calm a ∧ s.2 ≤ (s.1.clockRead a).getD s.2) ∧
      (stableSystem cfg T).step s.1 a = some s'.1 ∧ s'.2 = (s.1.clockRead a).getD s.2 := by
  simp only [clockedSystem] at h
  split_ifs at h with hcalm
  obtain ⟨t, ht, rfl⟩ := Option.map_eq_some_iff.mp h
  exact ⟨hcalm, ht, rfl⟩

/-- The spans that the calls report, or will report. -/
def spans (s : DsccNode ι F) (k : ℕ) : Option (Span (List F) ℤ) :=
  (s.acquires[k]?).bind AcquireCall.span

/-- The operation records a call that has returned. -/
def Reports (s : DsccNode ι F) (operation : OperationResult F) : Prop :=
  ∃ c ∈ s.acquires, c.agentId = operation.operation.agentId ∧
    c.embedding = operation.operation.embedding ∧ c.response = operation.response

theorem reports_of_result {s : DsccNode ι F} {operation : OperationResult F}
    (h : operation ∈ s.acquires.filterMap AcquireCall.result) : s.Reports operation := by
  obtain ⟨c, hc, hresult⟩ := List.mem_filterMap.mp h
  unfold AcquireCall.result at hresult
  split at hresult
  · obtain rfl := Option.some.inj hresult
    exact ⟨c, hc, rfl, rfl, rfl⟩
  · cases hresult

theorem spans_set {s s' : DsccNode ι F} {k : ℕ} {c c' : AcquireCall F}
    (hk : s.acquires[k]? = some c) (hs : s'.acquires = s.acquires.set k c') :
    s'.spans = Function.update s.spans k c'.span := by
  funext j
  rw [spans, hs]
  exact bind_getElem?_set AcquireCall.span hk j

theorem clockRead_of_get {s : DsccNode ι F} {k : ℕ} {c : AcquireCall F}
    (hk : s.acquires[k]? = some c) (x : Choice) :
    s.clockRead (.acquire k x) = if c.readsClock then some x.now else none := by
  rw [clockRead, hk, Option.any_some]

variable [Arithmetic F]

def Conflicting (theta : F) (x y : List F) : Prop :=
  Arithmetic.le theta (cosineSimilarity x y) = true

namespace CalmInv

variable {cfg : ServiceConfig ι F} {s s' : DsccNode ι F} {now now' : ℤ}

/-- A call that has been admitted is apart from every call with a slot. -/
theorem not_conflicting (h : CalmInv cfg.theta s) {c c' : AcquireCall F} (hc : c ∈ s.acquires)
    (hc' : c' ∈ s.acquires) (hne : c ≠ c') (hreads : c.readsAcquired = true)
    (hslot : (s.table.active.find c'.agentId).isSome = true) :
    ¬ Conflicting cfg.theta c.embedding c'.embedding := by
  have hholds : c.holdsSlot s.table = true := by
    unfold AcquireCall.readsAcquired at hreads
    unfold AcquireCall.holdsSlot AcquireCall.inSession
    split at hreads
    · simp_all
    · cases hreads
  obtain ⟨k, hk⟩ := List.mem_iff_getElem?.mp hc
  obtain ⟨k', hk'⟩ := List.mem_iff_getElem?.mp hc'
  obtain ⟨lock, hlock, hcentroid⟩ := h.slot.slot k c hk hholds
  obtain ⟨lock', hlock'⟩ := Option.isSome_iff_exists.mp hslot
  have hmine : s.table.slots c.agentId = some c.embedding :=
    Option.map_eq_some_iff.mpr ⟨lock, hlock, hcentroid⟩
  have hother : s.table.slots c'.agentId = some lock'.centroid :=
    Option.map_eq_some_iff.mpr ⟨lock', hlock', rfl⟩
  have hsame := h.once c'.agentId _ _ (h.apart.owner _ _ hother) ⟨c', hc', rfl, rfl⟩
  have hagents : c.agentId ≠ c'.agentId := by
    intro hagent
    obtain rfl := h.single k k' c c' hk hk' hagent
    rw [hk, Option.some.injEq] at hk'
    exact hne hk'
  rw [hsame] at hother
  rw [Conflicting, h.apart.apart _ _ _ _ hagents hmine hother]
  exact Bool.false_ne_true

/-- The step of a call reads the clock at most once, and opens or closes its span then. -/
theorem spans_acquire {k : ℕ} {x : Choice} {c c' : AcquireCall F} {p p' : Process ι F}
    {t t' : LockTable F} (h : CalmInv cfg.theta s)
    (horder : InOrder (Conflicting cfg.theta) s.spans now)
    (hk : s.acquires[k]? = some c) (hopen : c.isOpen = true)
    (hs : s'.acquires = s.acquires.set k c')
    (hread : s.ReadsInOrder cfg.theta (.acquire k x : Action ι F))
    (hnow : now ≤ ((s.clockRead (.acquire k x)).getD now))
    (hmove : CalmMove cfg p t c x p' t' c') :
    InOrder (Conflicting cfg.theta) s'.spans ((s.clockRead (.acquire k x)).getD now) := by
  have hmem := List.mem_of_getElem? hk
  have hgranted := (h.path c hmem).2 hopen
  have hold : s.spans k = c.span := by rw [spans, hk, Option.bind_some]
  have hkeep : c'.span = c.span → InOrder (Conflicting cfg.theta) s'.spans
      ((s.clockRead (.acquire k x)).getD now) := by
    intro hspan
    rw [spans_set hk hs, hspan, ← hold, Function.update_eq_self]
    exact horder.tick hnow
  rw [clockRead_of_get hk] at hnow hkeep ⊢
  cases hmove with
  | stay c' hrequest hregular hgranted' hspan => exact hkeep hspan
  | wait layout a a' t' hpc =>
    exact hkeep (by simp [AcquireCall.span, AcquireCall.holdsReport, hpc, hgranted])
  | appendAcquire hpc =>
    exact hkeep (by simp [AcquireCall.span, AcquireCall.holdsReport, hpc, AcquireCall.embedding])
  | appendRelease index hpc =>
    exact hkeep (by simp [AcquireCall.span, AcquireCall.holdsReport, hpc, AcquireCall.embedding])
  | record trace count hpc =>
    have hclock : c.readsClock = true := by rw [AcquireCall.readsClock, hpc]
    have hreads : c.readsAcquired = true := by rw [AcquireCall.readsAcquired, hpc]
    have hnew : (c.recordAdmission trace count x.now).span =
        some ⟨c.embedding, x.now, none⟩ := by
      simp [AcquireCall.span, AcquireCall.holdsReport, AcquireCall.recordAdmission, hgranted,
        AcquireCall.embedding]
    rw [hclock] at hnow ⊢
    rw [spans_set hk hs, hnew]
    refine horder.start (fun y z hyz => ?_) hnow c.embedding fun j y hj hy hconflict hstop => ?_
    · rw [Conflicting, cosineSimilarity_comm]
      exact hyz
    -- a span that is still open belongs to a call that still has its slot
    · obtain ⟨d, hd, hspan⟩ := Option.bind_eq_some_iff.mp hy
      obtain ⟨hholds, hvalue⟩ := AcquireCall.span_open hspan hstop
      have hdmem := List.mem_of_getElem? hd
      rw [hvalue] at hconflict
      have hne : c ≠ d := by
        rintro rfl
        simp [AcquireCall.holdsReport, hpc] at hholds
      exact h.not_conflicting hmem hdmem hne hreads
        (hread c hk hreads d hdmem hholds hconflict) hconflict
  | finish hpc =>
    have hclock : c.readsClock = true := by rw [AcquireCall.readsClock, hpc]
    have hspan : c.span = some ⟨c.embedding, c.response.lockAcquiredUnixMs, none⟩ := by
      simp [AcquireCall.span, AcquireCall.holdsReport, hpc, hgranted]
    have hnew : (c.releaseDone .regular x.now).span =
      some ⟨c.embedding, c.response.lockAcquiredUnixMs, some x.now⟩ := rfl
    rw [hclock] at hnow ⊢
    rw [spans_set hk hs, hnew]
    exact horder.stop hnow (hold.trans hspan) rfl

variable [DecidableEq ι] {a : Action ι F}

theorem spans_step (h : CalmInv cfg.theta s) (hcalm : s.Calm a)
    (hread : s.ReadsInOrder cfg.theta a) (hnow : now ≤ (s.clockRead a).getD now)
    (hstep : NodeStep cfg s a s') (horder : InOrder (Conflicting cfg.theta) s.spans now) :
    InOrder (Conflicting cfg.theta) s'.spans ((s.clockRead a).getD now) := by
  obtain ⟨hlead, hrun⟩ := leads_iff.mp h.stable.leads
  cases hstep with
  | acquire k x c p t c' hk hopen hmove hcall =>
    exact h.spans_acquire horder hk hopen rfl hread hnow (AcquireCall.calm_step hrun hlead
      (h.path c (List.mem_of_getElem? hk)).1 hcalm.1 hcalm.2 hcall)
  | acquireGuard request t =>
    have hsame : ({ s with acquires := s.acquires ++ [AcquireCall.arrive cfg request t] } :
        DsccNode ι F).spans = s.spans := by
      funext j
      exact bind_getElem?_concat (AcquireCall.arrive_span cfg request t) j
    rw [hsame]
    exact horder.tick hnow
  | _ => exact horder.tick hnow

end CalmInv

omit [Arithmetic F] in
/-- Conflicting spans that are in order do not overlap. -/
theorem overlap_of_inOrder {conflict : List F → List F → Prop} {s : DsccNode ι F} {now : ℤ}
    (h : InOrder conflict s.spans now) {k k' : ℕ} {c c' : AcquireCall F} (hne : k ≠ k')
    (hk : s.acquires[k]? = some c) (hk' : s.acquires[k']? = some c')
    (hc : c.response.granted = true) (hc' : c'.response.granted = true)
    (hconflict : conflict c.embedding c'.embedding) :
    intervalsOverlap c.response.lockAcquiredUnixMs c.response.lockReleasedUnixMs
      c'.response.lockAcquiredUnixMs c'.response.lockReleasedUnixMs = false := by
  have hspan : s.spans k = c.span := by rw [spans, hk, Option.bind_some]
  have hspan' : s.spans k' = c'.span := by rw [spans, hk', Option.bind_some]
  rw [AcquireCall.span_granted hc] at hspan
  rw [AcquireCall.span_granted hc'] at hspan'
  apply intervalsOverlap_of_le
  rcases h.ordered k k' _ _ hne hspan hspan' hconflict with ⟨b, hb, hle⟩ | ⟨b, hb, hle⟩
  · obtain rfl := Option.some.inj hb
    exact Or.inl hle
  · obtain rfl := Option.some.inj hb
    exact Or.inr hle

variable [DecidableEq ι]

omit [DecidableEq ι] in
theorem spans_start (cfg : ServiceConfig ι F) (T k : ℕ) : (leaderStart cfg T).spans k = none := by
  have hnil : (leaderStart cfg T).acquires = [] := rfl
  rw [spans, hnil, List.getElem?_nil, Option.bind_none]

/-- In the runs in which the clock is read in order, the spans of conflicting calls are in
order. -/
theorem exec_ordered {cfg : ServiceConfig ι F} {T : ℕ} {start : ℤ} {as : List (Action ι F)}
    {s : DsccNode ι F × ℤ}
    (h : ((clockedSystem cfg T start).guard fun s a =>
      s.1.OwnReleases a ∧ s.1.ReadsInOrder cfg.theta a).exec as = some s) :
    CalmInv cfg.theta s.1 ∧ InOrder (Conflicting cfg.theta) s.1.spans s.2 := by
  refine ((clockedSystem cfg T start).guard fun s a =>
    s.1.OwnReleases a ∧ s.1.ReadsInOrder cfg.theta a).invariant
    (P := fun s => CalmInv cfg.theta s.1 ∧ InOrder (Conflicting cfg.theta) s.1.spans s.2)
    ⟨.start cfg T, .empty fun k => spans_start cfg T k⟩ ?_ h
  intro s a s' hs ht
  obtain ⟨⟨hown, hread⟩, hstep⟩ := System.guard_step.mp ht
  obtain ⟨⟨hcalm, hnow⟩, hstep, hclock⟩ := clocked_step hstep
  obtain ⟨hstep, hleads⟩ := stable_step hstep
  rw [hclock]
  exact ⟨hs.1.step hcalm hown hstep hleads, hs.1.spans_step hcalm hread hnow hstep hs.2⟩

/-- Where no other thread proposes a RELEASE, only its own call ends a session. -/
theorem ownReleases_of_quiet {cfg : ServiceConfig ι F} {T : ℕ} {start : ℤ}
    {as : List (Action ι F)} {s : DsccNode ι F × ℤ}
    (h : ((clockedSystem cfg T start).guard fun s a => s.1.Quiet a).exec as = some s)
    (a : Action ι F) : s.1.OwnReleases a := by
  have hinv : CalmInv cfg.theta s.1 ∧ s.1.Released := by
    refine ((clockedSystem cfg T start).guard fun s a => s.1.Quiet a).invariant
      (P := fun s => CalmInv cfg.theta s.1 ∧ s.1.Released) ⟨.start cfg T, .start cfg T⟩ ?_ h
    intro s a s' hs ht
    obtain ⟨hquiet, hstep⟩ := System.guard_step.mp ht
    obtain ⟨⟨hcalm, -⟩, hstep, -⟩ := clocked_step hstep
    obtain ⟨hcase, hleads⟩ := Option.filter_eq_some_iff.mp hstep
    exact ⟨hs.1.step hcalm (hs.2.ownReleases hs.1) (stable_step hstep).1 hleads,
      hs.2.step hs.1 hcalm hquiet hcase hleads⟩
  exact hinv.2.ownReleases hinv.1

/-- In every run of a stable leader with one call for each agent, in which no wait times out,
Qdrant fails no operation and the clock never goes back: when only its own call ends a
session, and every call that reads the clock for `lock_acquired_unix_ms` finds the calls it
conflicts with done with theirs or still in their slots, the intervals of conflicting
grants do not overlap, and the benchmark reports no violation. -/
theorem intervals_apart (cfg : ServiceConfig ι F) (T : ℕ) (start : ℤ) (as : List (Action ι F))
    (s : DsccNode ι F × ℤ)
    (h : ((clockedSystem cfg T start).guard fun s a =>
      s.1.OwnReleases a ∧ s.1.ReadsInOrder cfg.theta a).exec as = some s) :
    (∀ (k k' : ℕ) (c c' : AcquireCall F), s.1.acquires[k]? = some c →
      s.1.acquires[k']? = some c' → k ≠ k' → c.response.granted = true →
      c'.response.granted = true →
      Arithmetic.le cfg.theta (cosineSimilarity c.embedding c'.embedding) = true →
      intervalsOverlap c.response.lockAcquiredUnixMs c.response.lockReleasedUnixMs
        c'.response.lockAcquiredUnixMs c'.response.lockReleasedUnixMs = false) ∧
    ∀ lt : F → F → Bool, (∀ x, lt x cfg.theta = false → Arithmetic.le cfg.theta x = true) →
      ∀ operations : List (OperationResult F),
        (∀ o ∈ operations, o.status.code = .ok → o.response.granted = true → s.1.Reports o) →
        (operations.map fun o => o.operation.agentId).Nodup →
        computeViolationRecords lt cfg.theta operations = [] := by
  have horder := (exec_ordered h).2
  refine ⟨fun k k' c c' hk hk' hne hc hc' hconflict =>
    overlap_of_inOrder horder hne hk hk' hc hc' hconflict,
    fun lt hlt operations hreports hnodup => ?_⟩
  refine computeViolationRecords_eq_nil (List.Pairwise.imp_of_mem ?_ (List.pairwise_map.mp hnodup))
  intro left right hleft hright hagents
  refine violationRecord_eq_none hlt fun hok hok' hgranted hgranted' hconflict => ?_
  obtain ⟨c, hc, hagent, hemb, hresponse⟩ := hreports left hleft hok hgranted
  obtain ⟨c', hc', hagent', hemb', hresponse'⟩ := hreports right hright hok' hgranted'
  obtain ⟨k, hk⟩ := List.mem_iff_getElem?.mp hc
  obtain ⟨k', hk'⟩ := List.mem_iff_getElem?.mp hc'
  have hne : k ≠ k' := by
    rintro rfl
    rw [hk, Option.some.injEq] at hk'
    exact hagents (hagent.symm.trans (hk' ▸ hagent'))
  rw [← hresponse] at hgranted ⊢
  rw [← hresponse'] at hgranted' ⊢
  rw [← hemb, ← hemb'] at hconflict
  exact overlap_of_inOrder horder hne hk hk' hgranted hgranted' hconflict

/-- Agent "b" waits for "a"; `middle` are the steps that follow when the lock of "a" has
been handed over to it, up to the proposal of its ACQUIRE. -/
def handOverRun (middle : List (Action Unit ℤ)) : List (Action Unit ℤ) :=
  List.flatten [[.acquireGuard ⟨"a", [1, 0], .write⟩ 1, .acquireGuard ⟨"b", [1, 0], .read⟩ 1,
      .acquire 0 {}, .acquire 0 {}, .acquire 0 { now := 2 }, .acquire 0 {}, .acquire 0 {},
      .acquire 1 {}, .acquire 1 {}],
    applyNext, [.acquire 0 {}, .acquire 0 { now := 3 }, .acquire 0 {}, .acquire 0 {}],
    applyNext, middle, [.acquire 1 {}, .acquire 1 {}],
    applyNext, [.acquire 1 {}, .acquire 1 { now := 6 }, .acquire 1 {}, .acquire 1 {}],
    applyNext, [.acquire 1 {}, .acquire 1 { now := 7 }]]

/-- Agent "a" reads the clock for the last time before "b" reads it. -/
def orderedRun : List (Action Unit ℤ) :=
  handOverRun [.acquire 0 {}, .acquire 1 {}, .acquire 0 { now := 5 }, .acquire 1 { now := 5 }]

theorem intervals_apart_ordered :
    ∃ (s : DsccNode Unit ℤ × ℤ) (c c' : AcquireCall ℤ),
      (clockedSystem .alone 1 0).exec orderedRun = some s ∧
      s.1.acquires[0]? = some c ∧ s.1.acquires[1]? = some c' ∧
      Arithmetic.le 1 (cosineSimilarity c.embedding c'.embedding) = true ∧
      intervalsOverlap c.response.lockAcquiredUnixMs c.response.lockReleasedUnixMs
        c'.response.lockAcquiredUnixMs c'.response.lockReleasedUnixMs = false ∧
      computeViolationRecords (fun x y => decide (x < y)) 1
        (s.1.acquires.filterMap AcquireCall.result) = [] := by
  obtain ⟨s, hrun, hc, hc', hagents⟩ := ((clockedSystem .alone 1 0).guard fun s a =>
    s.1.OwnReleases a ∧ s.1.ReadsInOrder 1 a).exists_exec orderedRun
    (fun s => (s.1.acquires[0]?.any fun c => c.response.granted ∧ c.embedding = [1, 0]) = true ∧
      (s.1.acquires[1]?.any fun c => c.response.granted ∧ c.embedding = [1, 0]) = true ∧
      ((s.1.acquires.filterMap AcquireCall.result).map fun o => o.operation.agentId) = ["a", "b"])
    (by decide +kernel)
  obtain ⟨c, hk, hc⟩ := (Option.any_eq_true _ _).mp hc
  obtain ⟨c', hk', hc'⟩ := (Option.any_eq_true _ _).mp hc'
  obtain ⟨hgranted, hemb⟩ := of_decide_eq_true hc
  obtain ⟨hgranted', hemb'⟩ := of_decide_eq_true hc'
  have hconflict : Arithmetic.le 1 (cosineSimilarity c.embedding c'.embedding) = true := by
    rw [hemb, hemb']
    rfl
  obtain ⟨hapart, hrecords⟩ := intervals_apart .alone 1 0 orderedRun s hrun
  refine ⟨s, c, c', System.exec_of_guard hrun, hk, hk', hconflict,
    hapart 0 1 c c' hk hk' (by decide) hgranted hgranted' hconflict, ?_⟩
  refine hrecords _ (fun x hx => ?_) _ (fun o ho _ _ => reports_of_result ho) ?_
  · have hle : ¬ x < 1 := of_decide_eq_false hx
    exact decide_eq_true (not_lt.mp hle)
  · rw [hagents]
    decide

/-- Agent "b" reads the clock before "a" reads it for the last time. -/
def crossedRun : List (Action Unit ℤ) :=
  handOverRun [.acquire 0 {}, .acquire 1 {}, .acquire 1 { now := 4 }, .acquire 0 { now := 5 }]

theorem intervals_overlap :
    ∃ s : DsccNode Unit ℤ × ℤ,
      ((clockedSystem .alone 1 0).guard fun s a => s.1.OwnReleases a).exec crossedRun = some s ∧
      (∃ c ∈ s.1.acquires, ∃ c' ∈ s.1.acquires, c.agentId = "a" ∧ c'.agentId = "b" ∧
        c.response.granted = true ∧ c'.response.granted = true ∧
        Arithmetic.le 1 (cosineSimilarity c.embedding c'.embedding) = true ∧
        intervalsOverlap c.response.lockAcquiredUnixMs c.response.lockReleasedUnixMs
          c'.response.lockAcquiredUnixMs c'.response.lockReleasedUnixMs = true) ∧
      (computeViolationRecords (fun x y => decide (x < y)) 1
        (s.1.acquires.filterMap AcquireCall.result)).map (fun r =>
          (r.activeAgentId, r.violatingAgentId, r.overlapStartUnixMs, r.overlapEndUnixMs)) =
        [("a", "b", 4, 5)] :=
  System.exists_exec _ _ _ (by decide +kernel)

end DsccNode

end DistributedLock.Service
