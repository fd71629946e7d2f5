import DistributedLock.Table.Calls

/-! Agents that use the table as it is meant to be used: each has one request at a time,
waits for its admission, and then has its entries applied or cancels. Every lock then
belongs to the open request of its agent, and no two locks conflict, however the slots
are handed over. -/

namespace DistributedLock.Table

open Library Raft

variable {F : Type*}

/-- What an agent has called after `wait_for_admission`: nothing yet, `apply_acquire`, or
`apply_release` or `remove_pending`. -/
inductive Stage where
  | admission | applied | closed
  deriving DecidableEq

/-- A table, and how far the request behind each call is. -/
structure Sessions (F : Type*) where
  replica : Replica F
  stage : ℕ → Stage := fun _ => .admission

/-! ### Slots and their owners -/

/-- The locks against what the open requests ask for: those that hold a slot have a lock
of their own, every lock is the slot of one, and no two locks conflict. -/
structure SlotsOk [Arithmetic F] (theta : F) (t : LockTable F) (asks : ℕ → Option (Demand F))
    (holds applied : ℕ → Prop) : Prop where
  threshold : ∀ k d, asks k = some d → d.threshold = theta
  single : ∀ k k' d d', asks k = some d → asks k' = some d' → d.agentId = d'.agentId → k = k'
  slot : ∀ k d, asks k = some d → holds k → ∃ lock, t.active.find d.agentId = some lock ∧
    lock.centroid = d.embedding ∧ (¬ applied k → lock.pending = true)
  owner : ∀ id lock, t.active.find id = some lock →
    ∃ k d, asks k = some d ∧ holds k ∧ d.agentId = id
  apart : ∀ id id' lock lock', id ≠ id' → t.active.find id = some lock →
    t.active.find id' = some lock' →
      Arithmetic.le theta (cosineSimilarity lock.centroid lock'.centroid) = false

/-- What of a lock matters to its owner. -/
def SemanticLock.slot (lock : SemanticLock F) : List F × Bool := (lock.centroid, lock.pending)

theorem LockTable.slot_enqueue (t : LockTable F) (id : String) (w : ℕ) (j : String) :
    ((t.enqueue id w).active.find j).map SemanticLock.slot =
      (t.active.find j).map SemanticLock.slot := by
  rw [LockTable.find_enqueue, Option.map_map]
  congr 1
  funext lock
  simp only [Function.comp_apply]
  split_ifs <;> rfl

namespace SlotsOk

variable [Arithmetic F] {theta : F} {t t' : LockTable F} {asks : ℕ → Option (Demand F)}
  {holds applied : ℕ → Prop} {k : ℕ} {d : Demand F}

/-- Steps that write to queues only. -/
theorem of_slots (h : SlotsOk theta t asks holds applied)
    (hslot : ∀ id, (t'.active.find id).map SemanticLock.slot =
      (t.active.find id).map SemanticLock.slot) : SlotsOk theta t' asks holds applied := by
  have hback : ∀ id lock', t'.active.find id = some lock' → ∃ lock,
      t.active.find id = some lock ∧ lock.centroid = lock'.centroid := by
    intro id lock' hfind
    have hid := hslot id
    rw [hfind] at hid
    obtain ⟨lock, hlock, heq⟩ := Option.map_eq_some_iff.mp hid.symm
    exact ⟨lock, hlock, congrArg Prod.fst heq⟩
  refine ⟨h.threshold, h.single, fun k d hk hholds => ?_, fun id lock hfind => ?_, ?_⟩
  · obtain ⟨lock, hlock, hcentroid, hpending⟩ := h.slot k d hk hholds
    have hid := hslot d.agentId
    rw [hlock] at hid
    obtain ⟨lock', hlock', heq⟩ := Option.map_eq_some_iff.mp hid
    exact ⟨lock', hlock', (congrArg Prod.fst heq).trans hcentroid,
      fun hk => (congrArg Prod.snd heq).trans (hpending hk)⟩
  · obtain ⟨old, hold, -⟩ := hback id lock hfind
    exact h.owner id old hold
  · intro id id' lock lock' hne hfind hfind'
    obtain ⟨old, hold, hcentroid⟩ := hback id lock hfind
    obtain ⟨old', hold', hcentroid'⟩ := hback id' lock' hfind'
    rw [← hcentroid, ← hcentroid']
    exact h.apart id id' old old' hne hold hold'

/-- An agent that holds nothing has no lock. -/
theorem absent (h : SlotsOk theta t asks holds applied) (hk : asks k = some d)
    (hnot : ¬ holds k) : t.active.find d.agentId = none := by
  cases hfind : t.active.find d.agentId with
  | none => rfl
  | some lock =>
    obtain ⟨k', d', hk', hholds, hagent⟩ := h.owner d.agentId lock hfind
    exact absurd (h.single k' k d' d hk' hk hagent ▸ hholds) hnot

/-- A request that conflicts with no lock gets its slot. -/
theorem admission (h : SlotsOk theta t asks holds applied) (hk : asks k = some d)
    (hnot : ¬ holds k) (hfree : t.findConflict d.embedding d.threshold = none)
    {lock : SemanticLock F} (hs : LockTable.Stores t t' d.agentId lock)
    (hcentroid : lock.centroid = d.embedding) (hpending : lock.pending = true) :
    SlotsOk theta t' asks (fun j => j = k ∨ holds j) applied := by
  have hfree' : ∀ id other, t.active.find id = some other →
      Arithmetic.le theta (cosineSimilarity lock.centroid other.centroid) = false := by
    rw [hcentroid, ← h.threshold k d hk]
    exact LockTable.findConflict_eq_none.mp hfree
  refine ⟨h.threshold, h.single, fun j d' hj hholds => ?_, fun id other hfind => ?_, ?_⟩
  · rcases eq_or_ne j k with rfl | hne
    · obtain rfl := Option.some.inj (hk.symm.trans hj)
      exact ⟨lock, hs.find_self, hcentroid, fun _ => hpending⟩
    · have hagent : d'.agentId ≠ d.agentId := fun heq => hne (h.single j k d' d hj hk heq)
      rw [hs.find_of_ne hagent]
      exact h.slot j d' hj (hholds.resolve_left hne)
  · rcases eq_or_ne id d.agentId with rfl | hne
    · exact ⟨k, d, hk, Or.inl rfl, rfl⟩
    · rw [hs.find_of_ne hne] at hfind
      obtain ⟨j, d', hj, hholds, hagent⟩ := h.owner id other hfind
      exact ⟨j, d', hj, Or.inr hholds, hagent⟩
  · intro id id' lock₁ lock₂ hne h₁ h₂
    rcases eq_or_ne id d.agentId with rfl | hid
    · obtain rfl := Option.some.inj (hs.find_self.symm.trans h₁)
      rw [hs.find_of_ne hne.symm] at h₂
      exact hfree' id' lock₂ h₂
    · rw [hs.find_of_ne hid] at h₁
      rcases eq_or_ne id' d.agentId with rfl | hid'
      · obtain rfl := Option.some.inj (hs.find_self.symm.trans h₂)
        rw [cosineSimilarity_comm]
        exact hfree' id lock₁ h₁
      · rw [hs.find_of_ne hid'] at h₂
        exact h.apart id id' lock₁ lock₂ hne h₁ h₂

/-- A holder has its ACQUIRE applied. -/
theorem apply (h : SlotsOk theta t asks holds applied) (hk : asks k = some d) (hholds : holds k)
    {lock : SemanticLock F} (hs : LockTable.Stores t t' d.agentId lock)
    (hcentroid : lock.centroid = d.embedding) :
    SlotsOk theta t' asks holds (fun j => j = k ∨ applied j) := by
  obtain ⟨old, hold, hcentroid', -⟩ := h.slot k d hk hholds
  have hback : ∀ id lock', t'.active.find id = some lock' → ∃ lock₀,
      t.active.find id = some lock₀ ∧ lock₀.centroid = lock'.centroid := by
    intro id lock' hfind
    rcases eq_or_ne id d.agentId with rfl | hne
    · obtain rfl := Option.some.inj (hs.find_self.symm.trans hfind)
      exact ⟨old, hold, hcentroid'.trans hcentroid.symm⟩
    · exact ⟨lock', hs.find_of_ne hne ▸ hfind, rfl⟩
  refine ⟨h.threshold, h.single, fun j d' hj hj' => ?_, fun id lock' hfind => ?_, ?_⟩
  · rcases eq_or_ne j k with rfl | hne
    · obtain rfl := Option.some.inj (hk.symm.trans hj)
      exact ⟨lock, hs.find_self, hcentroid, fun hnot => absurd (Or.inl rfl) hnot⟩
    · have hagent : d'.agentId ≠ d.agentId := fun heq => hne (h.single j k d' d hj hk heq)
      rw [hs.find_of_ne hagent]
      obtain ⟨lock', hlock', hcentroid', hpending⟩ := h.slot j d' hj hj'
      exact ⟨lock', hlock', hcentroid', fun hnot => hpending fun ha => hnot (Or.inr ha)⟩
  · obtain ⟨lock₀, hlock₀, -⟩ := hback id lock' hfind
    exact h.owner id lock₀ hlock₀
  · intro id id' lock₁ lock₂ hne h₁ h₂
    obtain ⟨old₁, hold₁, he₁⟩ := hback id lock₁ h₁
    obtain ⟨old₂, hold₂, he₂⟩ := hback id' lock₂ h₂
    rw [← he₁, ← he₂]
    exact h.apart id id' old₁ old₂ hne hold₁ hold₂

/-- A new request, of an agent without an open one. -/
theorem request (h : SlotsOk theta t asks holds applied) (hk : ¬ holds k) (hnone : asks k = none)
    (hd : d.threshold = theta) (hidle : ∀ j d', asks j = some d' → d'.agentId ≠ d.agentId) :
    SlotsOk theta t (Function.update asks k (some d)) holds applied := by
  refine ⟨fun j d' hj => ?_, distinct_request h.single hidle, fun j d' hj hholds => ?_,
    fun id lock hfind => ?_, h.apart⟩
  · rcases of_update_some hj with ⟨-, rfl⟩ | ⟨-, hj⟩
    · exact hd
    · exact h.threshold j d' hj
  · rcases of_update_some hj with ⟨rfl, -⟩ | ⟨-, hj⟩
    · exact absurd hholds hk
    · exact h.slot j d' hj hholds
  · obtain ⟨j, d', hj, hholds, hagent⟩ := h.owner id lock hfind
    exact ⟨j, d', update_of_some hnone _ hj, hholds, hagent⟩

/-- A holder is done, and its lock is taken away. -/
theorem close (h : SlotsOk theta t asks holds applied) (hk : asks k = some d) :
    SlotsOk theta (t.erase d.agentId) (Function.update asks k none) holds applied := by
  have hfind : ∀ id, (t.erase d.agentId).active.find id =
      if id = d.agentId then none else t.active.find id := UnorderedMap.find_erase _ _
  refine ⟨fun j d' hj => h.threshold j d' (of_update_none hj).2, fun j j' d₁ d₂ hj hj' =>
    h.single j j' d₁ d₂ (of_update_none hj).2 (of_update_none hj').2, fun j d' hj hholds => ?_,
    fun id lock hlock => ?_, fun id id' lock lock' hne hlock hlock' => ?_⟩
  · obtain ⟨hjk, hj⟩ := of_update_none hj
    rw [hfind, if_neg fun heq => hjk (h.single j k d' d hj hk heq)]
    exact h.slot j d' hj hholds
  · rw [hfind] at hlock
    split_ifs at hlock with hid
    obtain ⟨j, d', hj, hholds, hagent⟩ := h.owner id lock hlock
    have hjk : j ≠ k := by
      rintro rfl
      obtain rfl := Option.some.inj (hk.symm.trans hj)
      exact hid hagent.symm
    exact ⟨j, d', by rwa [Function.update_of_ne hjk], hholds, hagent⟩
  · rw [hfind] at hlock hlock'
    split_ifs at hlock hlock'
    exact h.apart id id' lock lock' hne hlock hlock'

end SlotsOk

/-! ### The runs of the sessions -/

/-- The call has been admitted, directly or by a hand-off. -/
def Call.Admitted (t : LockTable F) (call : Call F) : Prop :=
  match call.admission with
  | .gate => False
  | .asleep w _ => (t.waiter w).granted = true
  | .returned _ => True

/-- Which of the calls have been admitted. -/
def HoldsIn (calls : List (Call F)) (t : LockTable F) (k : ℕ) : Prop :=
  ∃ call, calls[k]? = some call ∧ call.Admitted t

namespace Sessions

inductive Action (F : Type*) where
  | request (agentId : String) (embedding : List F)
  | advance (k : ℕ) (layout : Layout String)
  | applyAcquire (k : ℕ) (layout : Layout String)
  | applyRelease (k : ℕ) (layout : Layout String)
  | removePending (k : ℕ) (layout : Layout String)

/-- What the request behind call `k` asks for, unless it is closed. -/
def asks (s : Sessions F) (k : ℕ) : Option (Demand F) :=
  s.replica.calls[k]?.bind fun call => if s.stage k = .closed then none else some call.demand

/-- The request behind call `k`, if its call has returned and it stands at `stage`. -/
def returned (s : Sessions F) (k : ℕ) (stage : Stage) : Option (Demand F) :=
  match s.replica.calls[k]? with
  | some { demand, admission := .returned _, .. } => if s.stage k = stage then some demand else none
  | _ => none

/-- The agent has no open request. -/
def Idle (s : Sessions F) (agentId : String) : Prop :=
  ∀ k < s.replica.calls.length, ∀ d ∈ s.asks k, d.agentId ≠ agentId

instance (s : Sessions F) (agentId : String) : Decidable (s.Idle agentId) :=
  inferInstanceAs (Decidable (∀ k < s.replica.calls.length, ∀ d ∈ s.asks k, d.agentId ≠ agentId))

variable [Arithmetic F]

def perform (s : Sessions F) (a : Replica.Action F) (stage : ℕ → Stage) : Option (Sessions F) :=
  (s.replica.step a).map fun r => { replica := r, stage := stage }

def step (theta : F) (s : Sessions F) : Action F → Option (Sessions F)
  | .request agentId embedding =>
    if s.Idle agentId then
      s.perform (.request .waitForAdmission ⟨agentId, embedding, theta⟩) s.stage
    else none
  | .advance k layout => s.perform (.advance k layout) s.stage
  | .applyAcquire k layout =>
    (s.returned k .admission).bind fun d =>
      s.perform (.apply (.acquire d.agentId d.embedding d.threshold) layout)
        (Function.update s.stage k .applied)
  | .applyRelease k layout =>
    (s.returned k .applied).bind fun d =>
      s.perform (.apply (.release d.agentId) layout) (Function.update s.stage k .closed)
  | .removePending k layout =>
    (s.returned k .admission).bind fun d =>
      s.perform (.removePending d.agentId layout) (Function.update s.stage k .closed)

def system (theta : F) : System (Sessions F) (Action F) where
  init := { replica := (Replica.system F).init }
  step := step theta

end Sessions

/-! ### Who holds a slot -/

section

variable {calls : List (Call F)} {t t' : LockTable F} {k w : ℕ}

/-- Only the flag of the entry a call sleeps on decides whether it has been admitted. -/
theorem holdsIn_iff (h : ∀ w d, sleepsOf calls k = some (w, d) →
    (t'.waiter w).granted = (t.waiter w).granted) : HoldsIn calls t' k ↔ HoldsIn calls t k := by
  refine exists_congr fun call => and_congr_right fun hcall => ?_
  unfold Call.Admitted
  cases hadm : call.admission with
  | gate => rfl
  | asleep w trace =>
    dsimp only
    rw [h w _ (sleepsOf_eq_some.mpr ⟨call, trace, hcall, hadm, rfl⟩)]
  | returned trace => rfl

theorem holdsIn_congr (h : ∀ w, (t'.waiter w).granted = (t.waiter w).granted) :
    HoldsIn calls t' = HoldsIn calls t :=
  funext fun _ => propext (holdsIn_iff fun w _ _ => h w)

theorem holdsIn_set {call c : Call F} (hk : calls[k]? = some call) :
    HoldsIn (calls.set k c) t = fun j => if j = k then c.Admitted t else HoldsIn calls t j := by
  have hlt := (List.getElem?_eq_some_iff.mp hk).1
  funext j
  rcases eq_or_ne j k with rfl | hj
  · simp [HoldsIn, hlt]
  · simp [HoldsIn, hj, List.getElem?_set_ne hj.symm]

/-- A call that returns with a slot of its own. -/
theorem holdsIn_reserve {call : Call F} (hk : calls[k]? = some call)
    (hwaiter : t'.waiter = t.waiter) (trace : AcquireTrace F) :
    HoldsIn (calls.set k { call with admission := .returned trace }) t' =
      fun j => j = k ∨ HoldsIn calls t j := by
  rw [holdsIn_set hk, holdsIn_congr (t := t) fun _ => by rw [hwaiter]]
  funext j
  split_ifs with hj
  · simp [hj, Call.Admitted]
  · simp [hj]

/-- A call that changes its place in `wait_for_admission` without being admitted, or when
it had been admitted before. -/
theorem holdsIn_stay {call c : Call F} (hk : calls[k]? = some call)
    (hold : call.Admitted t ↔ c.Admitted t') (hothers : ∀ j w d, j ≠ k →
      sleepsOf calls j = some (w, d) → (t'.waiter w).granted = (t.waiter w).granted) :
    HoldsIn (calls.set k c) t' = HoldsIn calls t := by
  rw [holdsIn_set hk]
  funext j
  split_ifs with hj
  · subst hj
    rw [← hold, HoldsIn, hk]
    simp
  · exact propext (holdsIn_iff fun w d => hothers j w d hj)

/-- A new call has not been admitted. -/
theorem holdsIn_request (kind : CallKind) (demand : Demand F) :
    HoldsIn (calls ++ [({ kind, demand } : Call F)]) t = HoldsIn calls t := by
  funext j
  refine propext ⟨?_, ?_⟩
  · rintro ⟨call, hcall, hadmitted⟩
    rcases getElem?_of_concat hcall with hcall | ⟨-, rfl⟩
    · exact ⟨call, hcall, hadmitted⟩
    · exact hadmitted.elim
  · rintro ⟨call, hcall, hadmitted⟩
    have hlt := (List.getElem?_eq_some_iff.mp hcall).1
    exact ⟨call, by rwa [List.getElem?_append_left hlt], hadmitted⟩

theorem not_holdsIn_of_sleeps {d : Demand F} (hk : sleepsOf calls k = some (w, d))
    (hgranted : (t.waiter w).granted = false) : ¬ HoldsIn calls t k := by
  obtain ⟨call, trace, hcall, hadm, -⟩ := sleepsOf_eq_some.mp hk
  rintro ⟨call', hcall', hadmitted⟩
  obtain rfl := Option.some.inj (hcall.symm.trans hcall')
  rw [Call.Admitted, hadm] at hadmitted
  dsimp only at hadmitted
  rw [hgranted] at hadmitted
  cases hadmitted

/-- A grant admits the call that sleeps on the entry, and no other. -/
theorem holdsIn_grant {d : Demand F} (hk : sleepsOf calls k = some (w, d))
    (hunique : ∀ j d', sleepsOf calls j = some (w, d') → j = k) (layout : Layout String) :
    HoldsIn calls (t.grant layout w) = fun j => j = k ∨ HoldsIn calls t j := by
  funext j
  refine propext ?_
  rcases eq_or_ne j k with rfl | hj
  · obtain ⟨call, trace, hcall, hadm, -⟩ := sleepsOf_eq_some.mp hk
    refine iff_of_true ⟨call, hcall, ?_⟩ (Or.inl rfl)
    rw [Call.Admitted, hadm]
    dsimp only
    rw [WaitersOk.grant_waiter, if_pos rfl]
  · rw [or_iff_right hj]
    refine holdsIn_iff fun v d' hsleep => ?_
    have hv : v ≠ w := by
      rintro rfl
      exact hj (hunique j d' hsleep)
    rw [WaitersOk.grant_waiter, if_neg hv]

end

namespace SlotsOk

variable [Arithmetic F] {theta : F} {t : LockTable F} {asks : ℕ → Option (Demand F)}
  {applied : ℕ → Prop} {calls : List (Call F)} {ws : List ℕ}

/-- Waiters that are moved stay without a slot; each that is granted gets its own. -/
theorem rebalance (layout : Layout String)
    (hw : WaitersOk t ws (sleepsOf calls)) (h : SlotsOk theta t asks (HoldsIn calls t) applied)
    (hasleep : ∀ k w d, sleepsOf calls k = some (w, d) → asks k = some d) :
    SlotsOk theta (LockTable.rebalance layout t [] ws).1 asks
      (HoldsIn calls (LockTable.rebalance layout t [] ws).1) applied := by
  refine (hw.rebalance (P := fun t => SlotsOk theta t asks (HoldsIn calls t) applied) layout []
    h ?_ ?_).2
  · intro t w ws id s hw _ _ h
    rw [holdsIn_congr (hw.requeue_granted id)]
    exact h.of_slots ((t.setWaiter w _).slot_enqueue id w)
  · intro t w ws k d hw hk hfree h
    have hnot := not_holdsIn_of_sleeps hk hw.head.1
    obtain ⟨lock, hs, hcentroid, hpending⟩ := hw.grant_stores layout hk
    rw [holdsIn_grant hk (fun j d' hj => hw.unique j k w d' d hj hk)]
    have hadmitted := h.admission (hasleep k w d hk) hnot hfree hs hcentroid
      (hpending (h.absent (hasleep k w d hk) hnot))
    exact hadmitted.of_slots fun _ => rfl

/-- The lock of a request that is done is taken away. -/
theorem removeLock {k : ℕ} {d : Demand F} {lock : SemanticLock F} (layout : Layout String)
    (hw : WaitersOk t [] (sleepsOf calls)) (h : SlotsOk theta t asks (HoldsIn calls t) applied)
    (hasleep : ∀ k w d, sleepsOf calls k = some (w, d) → asks k = some d)
    (hk : asks k = some d) (hawake : sleepsOf calls k = none)
    (hfind : t.active.find d.agentId = some lock) :
    SlotsOk theta (t.removeLock layout d.agentId lock).1 (Function.update asks k none)
      (HoldsIn calls (t.removeLock layout d.agentId lock).1) applied :=
  rebalance layout (hw.erase hfind) (h.close hk) (asks_close hasleep hawake)

theorem of_applied {applied' : ℕ → Prop} {holds : ℕ → Prop} (h : SlotsOk theta t asks holds applied)
    (happlied : ∀ k d, asks k = some d → applied k → applied' k) :
    SlotsOk theta t asks holds applied' where
  threshold := h.threshold
  single := h.single
  slot k d hk hholds := by
    obtain ⟨lock, hfind, hcentroid, hpending⟩ := h.slot k d hk hholds
    exact ⟨lock, hfind, hcentroid, fun hnot => hpending fun ha => hnot (happlied k d hk ha)⟩
  owner := h.owner
  apart := h.apart

end SlotsOk

namespace Sessions

/-! ### Mutual exclusion -/

variable [Arithmetic F] {theta : F} {s s' : Sessions F}

/-- The requests follow the protocol, and the slots are theirs. -/
structure SessionsOk (theta : F) (s : Sessions F) : Prop where
  waiters : WaitersOk s.replica.table [] (sleepsOf s.replica.calls)
  kind : ∀ (k : ℕ) (call : Call F), s.replica.calls[k]? = some call → call.kind = .waitForAdmission
  stage : ∀ k, s.stage k ≠ .admission → ∃ call trace, s.replica.calls[k]? = some call ∧
    call.admission = .returned trace
  slots : SlotsOk theta s.replica.table s.asks (HoldsIn s.replica.calls s.replica.table)
    fun k => s.stage k ≠ .admission

theorem perform_eq_some {a : Replica.Action F} {stage : ℕ → Stage} :
    s.perform a stage = some s' ↔ s.replica.step a = some s'.replica ∧ s'.stage = stage := by
  simp only [perform, Option.map_eq_some_iff]
  constructor
  · rintro ⟨r, hr, rfl⟩
    exact ⟨hr, rfl⟩
  · rintro ⟨hr, hstage⟩
    exact ⟨s'.replica, hr, by rw [← hstage]⟩

omit [Arithmetic F] in
theorem returned_eq_some {k : ℕ} {stage : Stage} {d : Demand F} :
    s.returned k stage = some d ↔ ∃ call trace, s.replica.calls[k]? = some call ∧
      call.admission = .returned trace ∧ call.demand = d ∧ s.stage k = stage := by
  unfold returned
  cases hk : s.replica.calls[k]? with
  | none => simp
  | some call =>
    obtain ⟨kind, demand, admission⟩ := call
    cases admission with
    | returned trace => simp [and_comm]
    | gate => simp
    | asleep w trace => simp

omit [Arithmetic F] in
theorem asks_eq (s : Sessions F) :
    s.asks = openOf s.replica.calls fun k => s.stage k = .closed := rfl

omit [Arithmetic F] in
theorem asks_of_get {k : ℕ} {call : Call F} (hk : s.replica.calls[k]? = some call)
    (hstage : s.stage k ≠ .closed) : s.asks k = some call.demand := by
  simp [asks, hk, hstage]

theorem asks_of_sleeps (h : SessionsOk theta s) (k w : ℕ) (d : Demand F)
    (hk : sleepsOf s.replica.calls k = some (w, d)) : s.asks k = some d := by
  rw [asks_eq]
  refine openOf_of_sleeps (fun j hclosed => h.stage j ?_) hk
  rw [hclosed]
  exact Stage.noConfusion

/-! #### The steps -/

theorem ok_request {agentId : String} {embedding : List F} (h : SessionsOk theta s)
    (hidle : s.Idle agentId) (hstep : s.replica.step
      (.request .waitForAdmission ⟨agentId, embedding, theta⟩) = some s'.replica)
    (hstage : s'.stage = s.stage) : SessionsOk theta s' := by
  have hw := Replica.waitersOk_step h.waiters hstep
  have hr := Option.some.inj hstep
  have hcalls : s'.replica.calls = s.replica.calls ++
      [({ kind := .waitForAdmission, demand := ⟨agentId, embedding, theta⟩ } : Call F)] := by
    rw [← hr]
  have htable : s'.replica.table = s.replica.table := by rw [← hr]
  have hfresh : s.replica.calls[s.replica.calls.length]? = none := List.getElem?_eq_none le_rfl
  have hadmission : s.stage s.replica.calls.length = .admission := by
    by_contra hne
    obtain ⟨call, trace, hcall, -⟩ := h.stage _ hne
    rw [hfresh] at hcall
    cases hcall
  refine ⟨hw, Replica.kind_step h.waiters h.kind hstep ?_, fun k hk => ?_, ?_⟩
  · rintro kind demand ⟨⟩
    rfl
  · exact Replica.returned_step h.waiters hstep (h.stage k (hstage ▸ hk))
  · rw [asks_eq, hcalls, htable, hstage, holdsIn_request,
      openOf_request _ _ (by rw [hadmission]; exact Stage.noConfusion), ← asks_eq]
    refine h.slots.request ?_ ?_ rfl fun j d' hj => ?_
    · rintro ⟨call, hcall, -⟩
      rw [hfresh] at hcall
      cases hcall
    · rw [asks, hfresh]
      rfl
    · obtain ⟨call, hcall, -⟩ := Option.bind_eq_some_iff.mp hj
      exact hidle j (List.getElem?_eq_some_iff.mp hcall).1 d' hj

theorem ok_advance {k : ℕ} {layout : Layout String} (h : SessionsOk theta s)
    (hstep : s.replica.step (.advance k layout) = some s'.replica) (hstage : s'.stage = s.stage) :
    SessionsOk theta s' := by
  have hw := Replica.waitersOk_step h.waiters hstep
  obtain ⟨call, t', a', hk, hmove, hr⟩ := Replica.advance_cases h.waiters hstep
  have hcalls : s'.replica.calls = s.replica.calls.set k { call with admission := a' } := by rw [hr]
  have htable : s'.replica.table = t' := by rw [hr]
  -- a call that has a step left has not returned
  have hadmission : s.stage k = .admission := by
    by_contra hne
    exact Replica.not_returned_of_advance h.waiters hstep (h.stage k hne)
  refine ⟨hw, Replica.kind_step h.waiters h.kind hstep fun _ _ ha => (by cases ha), fun j hj => ?_,
    ?_⟩
  · exact Replica.returned_step h.waiters hstep (h.stage j (hstage ▸ hj))
  · rw [asks_eq, hcalls, htable, hstage, openOf_set hk, ← asks_eq]
    have hasks : s.asks k = some call.demand :=
      asks_of_get hk (by rw [hadmission]; exact Stage.noConfusion)
    have hsleeps := sleepsOf_of_get hk
    have hkind := h.kind k call hk
    generalize hadm : call.admission = adm at hmove hsleeps
    cases hmove with
    | reserve hfree =>
      have hnot : ¬ HoldsIn s.replica.calls s.replica.table k := by
        rintro ⟨call', hk', hadmitted⟩
        obtain rfl := Option.some.inj (hk.symm.trans hk')
        rwa [Call.Admitted, hadm] at hadmitted
      obtain ⟨lock, hs, hcentroid, -, hpending⟩ := s.replica.table.insertPending_stores layout
        call.demand.agentId call.demand.embedding call.demand.threshold
      rw [h.slots.absent hasks hnot] at hpending
      have hreserve : call.reserve layout s.replica.table = s.replica.table.insertPending layout
          call.demand.agentId call.demand.embedding call.demand.threshold := by
        rw [Call.reserve, hkind]
        rfl
      rw [hreserve]
      rw [holdsIn_reserve hk hs.waiter]
      exact h.slots.admission hasks hnot hfree hs hcentroid hpending
    | sleep id score hconflict =>
      rw [holdsIn_stay (t := s.replica.table) hk]
      · exact h.slots.of_slots (s.replica.table.slot_enqueue id s.replica.table.next)
      · rw [Call.Admitted, hadm]
        simp [Call.Admitted, LockTable.sleepOn, LockTable.newWaiter]
      · intro j w d _ hj
        have hw := (h.waiters.fresh j w d hj).ne
        simp [LockTable.sleepOn, hw]
    | wake w trace hgranted =>
      rw [holdsIn_stay (t := s.replica.table) hk]
      · exact h.slots.of_slots fun _ => rfl
      · rw [Call.Admitted, hadm]
        exact iff_of_true hgranted trivial
      · intro j v d hj hsleep
        have hne : v ≠ w := by
          rintro rfl
          exact hj (h.waiters.unique j k v d _ hsleep hsleeps)
        simp [hne]

omit [Arithmetic F] in
/-- A returned call holds its slot, and what it has asked for is known. -/
theorem of_returned {k : ℕ} {stage : Stage} {d : Demand F}
    (hreturned : s.returned k stage = some d) (hopen : stage ≠ .closed) :
    s.asks k = some d ∧ HoldsIn s.replica.calls s.replica.table k ∧
      sleepsOf s.replica.calls k = none ∧ s.stage k = stage := by
  obtain ⟨call, trace, hk, hadm, rfl, hstage⟩ := returned_eq_some.mp hreturned
  refine ⟨asks_of_get hk (hstage ▸ hopen), ⟨call, hk, by rw [Call.Admitted, hadm]; trivial⟩, ?_,
    hstage⟩
  rw [sleepsOf_of_get hk, hadm]
  rfl

theorem stage_update (h : SessionsOk theta s) {k : ℕ} {stage stage' : Stage} {d : Demand F}
    (hreturned : s.returned k stage = some d) (hcalls : s'.replica.calls = s.replica.calls)
    (hstage : s'.stage = Function.update s.stage k stage') (j : ℕ) (hj : s'.stage j ≠ .admission) :
    ∃ call trace, s'.replica.calls[j]? = some call ∧ call.admission = .returned trace := by
  rw [hcalls]
  rcases eq_or_ne j k with rfl | hne
  · obtain ⟨call, trace, hk, hadm, -⟩ := returned_eq_some.mp hreturned
    exact ⟨call, trace, hk, hadm⟩
  · rw [hstage, Function.update_of_ne hne] at hj
    exact h.stage j hj

theorem ok_applyAcquire {k : ℕ} {layout : Layout String} {d : Demand F} (h : SessionsOk theta s)
    (hreturned : s.returned k .admission = some d) (hstep : s.replica.step
      (.apply (.acquire d.agentId d.embedding d.threshold) layout) = some s'.replica)
    (hstage : s'.stage = Function.update s.stage k .applied) : SessionsOk theta s' := by
  have hw := Replica.waitersOk_step h.waiters hstep
  have hr := Option.some.inj hstep
  have hcalls : s'.replica.calls = s.replica.calls := by rw [← hr]
  have htable : s'.replica.table =
      s.replica.table.applyAcquire layout d.agentId d.embedding d.threshold := by
    rw [← hr]
    rfl
  obtain ⟨hasks, hholds, -, hadmission⟩ := of_returned hreturned Stage.noConfusion
  obtain ⟨lock, hs, hcentroid, -⟩ := s.replica.table.applyAcquire_stores layout d.agentId
    d.embedding d.threshold
  refine ⟨hw, hcalls ▸ h.kind, stage_update h hreturned hcalls hstage, ?_⟩
  have hsame : s'.asks = s.asks := by
    rw [asks_eq, hcalls, hstage]
    refine openOf_congr fun j => ?_
    rcases eq_or_ne j k with rfl | hne
    · rw [Function.update_self, hadmission]
      exact iff_of_false Stage.noConfusion Stage.noConfusion
    · rw [Function.update_of_ne hne]
  have hheld : HoldsIn s.replica.calls
      (s.replica.table.applyAcquire layout d.agentId d.embedding d.threshold) =
      HoldsIn s.replica.calls s.replica.table := holdsIn_congr fun _ => by rw [hs.waiter]
  rw [hsame, hcalls, htable, hstage, hheld]
  refine (h.slots.apply hasks hholds hs hcentroid).of_applied fun j _ _ hj => ?_
  rcases eq_or_ne j k with rfl | hne
  · rw [Function.update_self]
    exact Stage.noConfusion
  · rw [Function.update_of_ne hne]
    exact hj.resolve_left hne

/-- A request that is done takes its lock away, by a release or a cancellation. -/
theorem ok_close {k : ℕ} {stage : Stage} {d : Demand F} {a : Replica.Action F}
    (layout : Layout String) (h : SessionsOk theta s) (hreturned : s.returned k stage = some d)
    (hopen : stage ≠ .closed) (hstep : s.replica.step a = some s'.replica)
    (hcalls : s'.replica.calls = s.replica.calls)
    (htable : ∀ lock, s.replica.table.active.find d.agentId = some lock →
      (stage = .admission → lock.pending = true) →
      s'.replica.table = (s.replica.table.removeLock layout d.agentId lock).1)
    (hstage : s'.stage = Function.update s.stage k .closed) : SessionsOk theta s' := by
  have hw := Replica.waitersOk_step h.waiters hstep
  obtain ⟨hasks, hholds, hawake, hat⟩ := of_returned hreturned hopen
  obtain ⟨lock, hfind, -, hpending⟩ := h.slots.slot k d hasks hholds
  have hremoved := htable lock hfind fun heq => hpending (not_not.mpr (hat.trans heq))
  refine ⟨hw, hcalls ▸ h.kind, stage_update h hreturned hcalls hstage, ?_⟩
  have hupdate : s'.asks = Function.update s.asks k none := by
    rw [asks_eq, hcalls, hstage]
    refine openOf_close fun j => ?_
    rcases eq_or_ne j k with rfl | hne
    · simp
    · simp [hne]
  rw [hupdate, hcalls, hremoved]
  refine (h.slots.removeLock layout h.waiters (asks_of_sleeps h) hasks hawake
    hfind).of_applied fun j d' hj hne => ?_
  rw [hstage]
  rcases eq_or_ne j k with rfl | hjk
  · rw [Function.update_self]
    exact Stage.noConfusion
  · rwa [Function.update_of_ne hjk]

theorem ok_step {a : Action F} (h : SessionsOk theta s) (hstep : s.step theta a = some s') :
    SessionsOk theta s' := by
  cases a with
  | request agentId embedding =>
    simp only [step] at hstep
    split_ifs at hstep with hidle
    obtain ⟨hstep, hstage⟩ := perform_eq_some.mp hstep
    exact ok_request h hidle hstep hstage
  | advance k layout =>
    obtain ⟨hstep, hstage⟩ := perform_eq_some.mp hstep
    exact ok_advance h hstep hstage
  | applyAcquire k layout =>
    obtain ⟨d, hreturned, hstep⟩ := Option.bind_eq_some_iff.mp hstep
    obtain ⟨hstep, hstage⟩ := perform_eq_some.mp hstep
    exact ok_applyAcquire h hreturned hstep hstage
  | applyRelease k layout =>
    obtain ⟨d, hreturned, hstep⟩ := Option.bind_eq_some_iff.mp hstep
    obtain ⟨hstep, hstage⟩ := perform_eq_some.mp hstep
    have hr := Option.some.inj hstep
    refine ok_close layout h hreturned Stage.noConfusion hstep (by rw [← hr])
      (fun lock hfind _ => ?_) hstage
    rw [← hr]
    simp [LockTable.onCommit, LogEntry.release, LockTable.release, hfind]
  | removePending k layout =>
    obtain ⟨d, hreturned, hstep⟩ := Option.bind_eq_some_iff.mp hstep
    obtain ⟨hstep, hstage⟩ := perform_eq_some.mp hstep
    have hr := Option.some.inj hstep
    refine ok_close layout h hreturned Stage.noConfusion hstep (by rw [← hr])
      (fun lock hfind hpending => ?_) hstage
    rw [← hr]
    simp [LockTable.removePending, hfind, hpending rfl]

/-- No two locks conflict, and every agent that has been admitted has its own vector locked
until it releases or cancels. -/
theorem exclusive (theta : F) (as : List (Action F)) (s : Sessions F)
    (h : (system theta).exec as = some s) :
    (∀ id id' lock lock', id ≠ id' → s.replica.table.active.find id = some lock →
      s.replica.table.active.find id' = some lock' →
        Arithmetic.le theta (cosineSimilarity lock.centroid lock'.centroid) = false) ∧
      ∀ (k : ℕ) (call : Call F), s.replica.calls[k]? = some call →
        call.Admitted s.replica.table → s.stage k ≠ .closed →
          ∃ lock, s.replica.table.active.find call.demand.agentId = some lock ∧
            lock.centroid = call.demand.embedding := by
  have hinit : SessionsOk theta (system theta).init := by
    refine ⟨.empty fun _ => rfl, fun k call hk => (by cases hk), fun k hk => absurd rfl hk, ?_⟩
    exact
      { threshold := fun k d hk => by cases hk
        single := fun k k' d d' hk => by cases hk
        slot := fun k d hk => by cases hk
        owner := fun id lock hfind => by cases hfind
        apart := fun id id' lock lock' _ hfind => by cases hfind }
  have hok := (system theta).invariant hinit (fun _ _ _ => ok_step) h
  refine ⟨hok.slots.apart, fun k call hk hadmitted hopen => ?_⟩
  obtain ⟨lock, hfind, hcentroid, -⟩ := hok.slots.slot k call.demand (asks_of_get hk hopen)
    ⟨call, hk, hadmitted⟩
  exact ⟨lock, hfind, hcentroid⟩

/-- "b" and "c" wait behind "a" for one vector, "b" is handed the slot and cancels, and "c"
is handed it then. -/
def passedOnRun : List (Action ℤ) :=
  [.request "a" [1, 0], .advance 0 .newest, .request "b" [1, 0], .advance 1 .newest,
    .request "c" [1, 0], .advance 2 .newest, .applyAcquire 0 .newest, .applyRelease 0 .newest,
    .advance 1 .newest, .removePending 1 .newest, .advance 2 .newest]

theorem exclusive_passedOn :
    ∃ s : Sessions ℤ, (system 1).exec passedOnRun = some s ∧
      s.returned 2 .admission = some ⟨"c", [1, 0], 1⟩ ∧
      ∃ lock, s.replica.table.active.find "c" = some lock ∧ lock.centroid = [1, 0] := by
  obtain ⟨s, hs, hreturned⟩ := System.exists_exec (system (1 : ℤ)) passedOnRun
    (fun s => s.returned 2 .admission = some ⟨"c", [1, 0], 1⟩) (by decide +kernel)
  obtain ⟨call, trace, hk, hadm, hdemand, hstage⟩ := returned_eq_some.mp hreturned
  have hadmitted : call.Admitted s.replica.table := by
    rw [Call.Admitted, hadm]
    trivial
  have hlock := (exclusive 1 passedOnRun s hs).2 2 call hk hadmitted
    (by rw [hstage]; exact Stage.noConfusion)
  rw [hdemand] at hlock
  exact ⟨s, hs, hreturned, hlock⟩

end Sessions

end DistributedLock.Table
