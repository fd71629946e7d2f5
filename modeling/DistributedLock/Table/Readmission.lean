import DistributedLock.Table.Events

/-! A rebalancing as a run of fresh requests. What counts of a table are its locks with
what the agents in their queues ask for; which wait queue entries stand for them does
not. Seen so, `rebalance_waiters_locked` does to a queue what the admission check of
`wait_for_admission` does to the same requests made one after another. -/

namespace DistributedLock.Table

open Library

/-- A lock, with what the agents in its queue ask for. -/
structure LockView (F : Type*) where
  agentId : String
  centroid : List F
  threshold : F
  pending : Bool
  waiters : List (Demand F)

namespace LockTable

variable {F : Type*}

def view (t : LockTable F) (id : String) : Option (LockView F) :=
  (t.active.find id).map fun lock =>
    { agentId := lock.agentId, centroid := lock.centroid, threshold := lock.threshold
      pending := lock.pending, waiters := lock.waiters.map t.demandOf }

/-- The same locks with the same queues, in the same order of iteration. -/
structure SameView (t u : LockTable F) : Prop where
  keys : t.active.keys = u.active.keys
  view : ∀ id, t.view id = u.view id

/-- Every entry in a queue has been allocated. -/
def Allocated (t : LockTable F) : Prop := ∀ id w, w ∈ t.queue id → w < t.next

theorem allocated_of_keys {t : LockTable F}
    (h : ∀ id ∈ t.active.keys, ∀ w ∈ t.queue id, w < t.next) : t.Allocated :=
  fun id w hw => h id ((t.active.mem_keys id).mpr (isSome_of_mem_queue hw)) w hw

/-! ### Requests one after another -/

section

variable [Arithmetic F]

/-- The requests `ds`, each checked for admission against the table as the ones before it
have left it; with those that were admitted. -/
def submitAll (layout : Layout String) (t : LockTable F) :
    List (Demand F) → LockTable F × List (Demand F)
  | [] => (t, [])
  | d :: ds =>
    match t.waitLoop (reservePending layout d) d { blockingSimilarityScore := 0 } with
    | (t', .returned _) => ((submitAll layout t' ds).1, d :: (submitAll layout t' ds).2)
    | (t', _) => submitAll layout t' ds

theorem submitAll_free {layout : Layout String} {t : LockTable F} {d : Demand F}
    (h : t.findConflict d.embedding d.threshold = none) (ds : List (Demand F)) :
    submitAll layout t (d :: ds) =
      ((submitAll layout (reservePending layout d t) ds).1,
        d :: (submitAll layout (reservePending layout d t) ds).2) := by
  rw [submitAll, waitLoop, h]

theorem submitAll_conflict {layout : Layout String} {t : LockTable F} {d : Demand F}
    {id : String} {score : F}
    (h : t.findConflict d.embedding d.threshold = some (id, score)) (ds : List (Demand F)) :
    submitAll layout t (d :: ds) = submitAll layout (t.sleepOn d id) ds := by
  rw [submitAll, waitLoop, h]
  rfl

end

/-! ### What the operations show of themselves -/

@[simp] theorem setWaiter_demandOf (t : LockTable F) (w v : ℕ) (entry : WaitQueueEntry F) :
    (t.setWaiter w entry).demandOf v = if v = w then entry.demand else t.demandOf v := by
  rw [demandOf, setWaiter_waiter, Function.update_apply]
  split_ifs
  · rfl
  · rfl

theorem view_enqueue (t : LockTable F) (id : String) (w : ℕ) (j : String) :
    (t.enqueue id w).view j = (t.view j).map fun v =>
      if j = id then { v with waiters := v.waiters ++ [t.demandOf w] } else v := by
  rw [view, find_enqueue, view, Option.map_map, Option.map_map]
  congr 1
  funext lock
  dsimp only [Function.comp_apply]
  split_ifs
  · simp [demandOf]
  · rfl

/-- Only the demands of the entries in the queues are seen. -/
theorem view_congr {t u : LockTable F} (hactive : u.active = t.active)
    (hdemand : ∀ id w, w ∈ t.queue id → u.demandOf w = t.demandOf w) (id : String) :
    u.view id = t.view id := by
  rw [view, view, hactive]
  cases hfind : t.active.find id with
  | none => rfl
  | some lock =>
    have hwaiters : lock.waiters.map u.demandOf = lock.waiters.map t.demandOf := by
      apply List.map_congr_left
      intro w hw
      exact hdemand id w (by rwa [queue, hfind])
    simp [hwaiters]

/-- What a reservation makes of the slot of its agent. -/
def reservedView (d : Demand F) : Option (LockView F) → LockView F
  | some v => { v with centroid := d.embedding, threshold := d.threshold }
  | none =>
    { agentId := d.agentId, centroid := d.embedding, threshold := d.threshold, pending := true
      waiters := [] }

theorem view_reservePending (layout : Layout String) (d : Demand F) (t : LockTable F)
    (id : String) :
    (reservePending layout d t).view id =
      if id = d.agentId then some (reservedView d (t.view d.agentId)) else t.view id := by
  rw [reservePending, insertPending]
  cases hfind : t.active.find d.agentId with
  | some lock =>
    simp only [view, UnorderedMap.find_modify]
    split_ifs with hid
    · rw [hid, hfind]
      rfl
    · rfl
  | none =>
    simp only [view, UnorderedMap.find_emplace hfind]
    split_ifs with hid
    · rw [hfind]
      rfl
    · rfl

theorem keys_reservePending (layout : Layout String) (d : Demand F) (t : LockTable F) :
    (reservePending layout d t).active.keys =
      if (t.view d.agentId).isSome then t.active.keys
      else layout.order (d.agentId :: t.active.keys) := by
  rw [reservePending, insertPending]
  cases hfind : t.active.find d.agentId with
  | some lock => simp [view, hfind]
  | none => simp [view, hfind, UnorderedMap.emplace]

theorem queue_reservePending (layout : Layout String) (d : Demand F) (t : LockTable F) :
    (reservePending layout d t).queue = t.queue := by
  obtain ⟨lock, hs, -⟩ := t.insertPending_stores layout d.agentId d.embedding d.threshold
  exact hs.queue

/-! ### Tables of one view -/

namespace SameView

variable {t u : LockTable F}

theorem refl (t : LockTable F) : SameView t t := ⟨rfl, fun _ => rfl⟩

theorem reservePending (h : SameView t u) (layout : Layout String) (d : Demand F) :
    SameView (LockTable.reservePending layout d t) (LockTable.reservePending layout d u) where
  keys := by rw [keys_reservePending, keys_reservePending, h.view, h.keys]
  view id := by rw [view_reservePending, view_reservePending, h.view, h.view]

/-- An entry that asks for the same is placed in the same queue. -/
theorem enqueue (h : SameView t u) {w v : ℕ} (hdemand : t.demandOf w = u.demandOf v) (id : String) :
    SameView (t.enqueue id w) (u.enqueue id v) where
  keys := h.keys
  view j := by rw [view_enqueue, view_enqueue, h.view, hdemand]

variable [Arithmetic F]

/-- Only the centroids of the locks matter to the search for a conflict. -/
theorem findConflict (h : SameView t u) (e : List F) (theta : F) :
    t.findConflict e theta = u.findConflict e theta := by
  have hcentroid : ∀ id, (t.active.find id).map SemanticLock.centroid =
      (u.active.find id).map SemanticLock.centroid := by
    intro id
    have hview := congrArg (Option.map LockView.centroid) (h.view id)
    rwa [LockTable.view, LockTable.view, Option.map_map, Option.map_map] at hview
  have hfold : ∀ (keys : List String) (best : Option (String × F)),
      (keys.filterMap fun k => (t.active.find k).map (k, ·)).foldl (findConflictStep e theta) best =
      (keys.filterMap fun k => (u.active.find k).map (k, ·)).foldl
        (findConflictStep e theta) best := by
    intro keys
    induction keys with
    | nil => exact fun _ => rfl
    | cons k keys ih =>
      intro best
      have hk := hcentroid k
      cases ht : t.active.find k with
      | none =>
        rw [ht, Option.map_none] at hk
        have hu := Option.map_eq_none_iff.mp hk.symm
        simp only [List.filterMap_cons, ht, hu, Option.map_none]
        exact ih best
      | some lock =>
        rw [ht, Option.map_some] at hk
        obtain ⟨other, hu, hother⟩ := Option.map_eq_some_iff.mp hk.symm
        simp only [List.filterMap_cons, ht, hu, Option.map_some, List.foldl_cons]
        have hstep : findConflictStep e theta best (k, lock) =
            findConflictStep e theta best (k, other) := by
          simp only [findConflictStep, hother]
        rw [hstep]
        exact ih _
  rw [LockTable.findConflict, LockTable.findConflict, UnorderedMap.toList, UnorderedMap.toList,
    h.keys]
  exact hfold _ none

end SameView

/-! ### A rebalancing against the requests -/

/-- A grant is a reservation, but for the flags of the entry. -/
theorem grant_sameView (layout : Layout String) (t : LockTable F) (w : ℕ) :
    SameView (t.grant layout w) (reservePending layout (t.demandOf w) t) := by
  have hview := view_congr (t := reservePending layout (t.demandOf w) t)
    (u := t.grant layout w) rfl fun id v _ => ?_
  · exact ⟨rfl, hview⟩
  · obtain ⟨lock, hs, -⟩ := t.insertPending_stores layout (t.demandOf w).agentId
      (t.demandOf w).embedding (t.demandOf w).threshold
    rw [grant_demandOf, demandOf, demandOf, reservePending, hs.waiter]

theorem SameView.symm {t u : LockTable F} (h : SameView t u) : SameView u t :=
  ⟨h.keys.symm, fun id => (h.view id).symm⟩

theorem SameView.trans {t u v : LockTable F} (h : SameView t u) (h' : SameView u v) :
    SameView t v :=
  ⟨h.keys.trans h'.keys, fun id => (h.view id).trans (h'.view id)⟩

theorem Allocated.reservePending {t : LockTable F} (h : t.Allocated) (layout : Layout String)
    (d : Demand F) : (reservePending layout d t).Allocated := by
  obtain ⟨lock, hs, -⟩ := t.insertPending_stores layout d.agentId d.embedding d.threshold
  intro id w hw
  rw [queue_reservePending] at hw
  rw [LockTable.reservePending, hs.next]
  exact h id w hw

theorem Allocated.sleepOn {t : LockTable F} (h : t.Allocated) (d : Demand F) {id : String}
    (hid : (t.active.find id).isSome) : (t.sleepOn d id).Allocated := by
  intro j w hw
  have hid' : (({ t.setWaiter t.next (newWaiter d) with next := t.next + 1 } :
      LockTable F).active.find id).isSome := hid
  show w < t.next + 1
  rcases (mem_enqueue_queue hid').mp hw with hw | ⟨-, rfl⟩
  · exact Nat.lt_succ_of_lt (h j w hw)
  · exact Nat.lt_succ_self _

/-- A waiter that is moved is a request that is put to sleep, but for the entry. -/
theorem requeue_sameView {t u : LockTable F} (h : SameView t u) (hu : u.Allocated) (w : ℕ)
    (id : String) : SameView (t.requeue w id) (u.sleepOn (t.demandOf w) id) := by
  let entry := t.waiter w
  let t' := t.setWaiter w { entry with
    ready := false, granted := false, queueHops := entry.queueHops + 1 }
  let u' : LockTable F :=
    { u.setWaiter u.next (newWaiter (t.demandOf w)) with next := u.next + 1 }
  have ht : SameView t' t := by
    refine ⟨rfl, view_congr rfl fun j v _ => ?_⟩
    rw [setWaiter_demandOf]
    split_ifs with hv
    · rw [hv]
      rfl
    · rfl
  have hu' : SameView u u' := by
    refine ⟨rfl, fun j => (view_congr (t := u) (u := u') rfl (fun i v hv => ?_) j).symm⟩
    show (u.setWaiter u.next _).demandOf v = _
    rw [setWaiter_demandOf, if_neg (hu i v hv).ne]
  have hw : t'.demandOf w = t.demandOf w := by
    rw [setWaiter_demandOf, if_pos rfl]
    rfl
  have hnext : u'.demandOf u.next = t.demandOf w := by
    show (u.setWaiter u.next _).demandOf u.next = _
    rw [setWaiter_demandOf, if_pos rfl]
    rfl
  exact (ht.trans (h.trans hu')).enqueue (hw.trans hnext.symm) id

theorem rebalance_requeue [Arithmetic F] (layout : Layout String) {t : LockTable F} {w : ℕ}
    {id : String} {score : F}
    (h : t.findConflict (t.demandOf w).embedding (t.demandOf w).threshold = some (id, score))
    (granted ws : List ℕ) :
    rebalance layout t granted (w :: ws) = rebalance layout (t.requeue w id) granted ws := by
  have hc : t.findConflict (t.waiter w).embedding (t.waiter w).theta = some (id, score) := h
  rw [rebalance, hc]

theorem rebalance_grant [Arithmetic F] (layout : Layout String) {t : LockTable F} {w : ℕ}
    (h : t.findConflict (t.demandOf w).embedding (t.demandOf w).threshold = none)
    (granted ws : List ℕ) :
    rebalance layout t granted (w :: ws) =
      rebalance layout (t.grant layout w) (granted ++ [w]) ws := by
  have hc : t.findConflict (t.waiter w).embedding (t.waiter w).theta = none := h
  rw [rebalance, hc]

theorem rebalance_sameView [Arithmetic F] (layout : Layout String) {t u : LockTable F}
    (h : SameView t u) (hu : u.Allocated) (granted ws : List ℕ) :
    SameView (rebalance layout t granted ws).1 (submitAll layout u (ws.map t.demandOf)).1 ∧
      (rebalance layout t granted ws).2.map t.demandOf =
        granted.map t.demandOf ++ (submitAll layout u (ws.map t.demandOf)).2 := by
  induction ws generalizing t u granted with
  | nil => exact ⟨h, by simp [rebalance, submitAll]⟩
  | cons w ws ih =>
    have hsame := h.findConflict (t.demandOf w).embedding (t.demandOf w).threshold
    rw [List.map_cons]
    cases hc : t.findConflict (t.demandOf w).embedding (t.demandOf w).threshold with
    | some conflict =>
      obtain ⟨id, score⟩ := conflict
      have hc' := hsame.symm.trans hc
      obtain ⟨hview, hgrants⟩ := ih (requeue_sameView h hu w id)
        (hu.sleepOn (t.demandOf w) (isSome_of_findConflict hc')) granted
      rw [requeue_demandOf] at hview hgrants
      rw [rebalance_requeue layout hc, submitAll_conflict hc']
      exact ⟨hview, hgrants⟩
    | none =>
      have hc' := hsame.symm.trans hc
      obtain ⟨hview, hgrants⟩ := ih
        ((grant_sameView layout t w).trans (h.reservePending layout (t.demandOf w)))
        (hu.reservePending layout (t.demandOf w)) (granted ++ [w])
      rw [grant_demandOf] at hview hgrants
      rw [rebalance_grant layout hc, submitAll_free hc']
      refine ⟨hview, ?_⟩
      rw [hgrants]
      simp

end LockTable

/-! ### Conflicts by their strength -/

/-- What holds of the comparisons of `float`, with NaN among its values: two values that
a third one is at most are comparable. -/
structure Comparisons (F : Type*) [Arithmetic F] : Prop where
  trans : ∀ x y z : F, Arithmetic.le x y = true → Arithmetic.le y z = true →
    Arithmetic.le x z = true
  total : ∀ t x y : F, Arithmetic.le t x = true → Arithmetic.le t y = true →
    Arithmetic.le x y = true ∨ Arithmetic.le y x = true

variable {F : Type*} [Arithmetic F]

theorem Comparisons.refl (h : Comparisons F) {t x : F} (hx : Arithmetic.le t x = true) :
    Arithmetic.le x x = true := by
  rcases h.total t x x hx hx with h | h <;> exact h

/-- The lock conflicts with what is asked for, at the threshold of who asks. -/
def Demand.conflicts (d : Demand F) (centroid : List F) : Bool :=
  Arithmetic.le d.threshold (cosineSimilarity d.embedding centroid)

namespace LockTable

/-- The candidate that is left is at least as similar as every other one. -/
theorem foldl_findConflictStep_max (hle : Comparisons F) (d : Demand F)
    {entries : List (String × SemanticLock F)} {best : Option (String × F)} {id : String} {s : F}
    (hbest : ∀ b, best = some b → Arithmetic.le d.threshold b.2 = true)
    (h : entries.foldl (findConflictStep d.embedding d.threshold) best = some (id, s)) :
    (∀ b, best = some b → Arithmetic.le b.2 s = true) ∧
      ∀ entry ∈ entries, d.conflicts entry.2.centroid = true →
        Arithmetic.le (cosineSimilarity d.embedding entry.2.centroid) s = true := by
  induction entries generalizing best with
  | nil =>
    refine ⟨fun b hb => ?_, fun entry hentry => absurd hentry List.not_mem_nil⟩
    have hs : best = some (id, s) := h
    rw [hb, Option.some.injEq] at hs
    rw [hs] at hb ⊢
    exact hle.refl (hbest _ hb)
  | cons entry entries ih =>
    rw [List.foldl_cons] at h
    let similarity := cosineSimilarity d.embedding entry.2.centroid
    by_cases htake : (Arithmetic.le d.threshold similarity &&
        best.all fun b => Arithmetic.le b.2 similarity) = true
    · have hstep : findConflictStep d.embedding d.threshold best entry =
          some (entry.1, similarity) := if_pos htake
      rw [Bool.and_eq_true] at htake
      rw [hstep] at h
      obtain ⟨hself, hrest⟩ := ih (fun b hb => by cases hb; exact htake.1) h
      have hmax := hself _ rfl
      refine ⟨fun b hb => ?_, fun other hother hc => ?_⟩
      · rw [hb] at htake
        exact hle.trans _ _ _ htake.2 hmax
      · rcases List.mem_cons.mp hother with rfl | hother
        · exact hmax
        · exact hrest other hother hc
    · have hstep : findConflictStep d.embedding d.threshold best entry = best := if_neg htake
      rw [hstep] at h
      obtain ⟨hself, hrest⟩ := ih hbest h
      refine ⟨hself, fun other hother hc => ?_⟩
      rcases List.mem_cons.mp hother with rfl | hother
      · -- a candidate that is passed over is less similar than the best so far
        cases hb : best with
        | none =>
          rw [hb] at htake
          exact absurd (Bool.and_eq_true _ _ ▸ ⟨hc, rfl⟩) htake
        | some b =>
          have hlt : ¬ Arithmetic.le b.2 similarity = true := by
            intro hb'
            apply htake
            rw [hb, Bool.and_eq_true]
            exact ⟨hc, hb'⟩
          have hbs := (hle.total _ _ _ (hbest b hb) hc).resolve_left hlt
          exact hle.trans _ _ _ hbs (hself b hb)
      · exact hrest other hother hc

theorem conflicts_of_findConflict_none {t : LockTable F} {d : Demand F}
    (h : t.findConflict d.embedding d.threshold = none) {id : String} {c : List F}
    (hc : t.slots id = some c) : d.conflicts c = false := by
  obtain ⟨lock, hfind, rfl⟩ := Option.map_eq_some_iff.mp hc
  exact findConflict_eq_none.mp h id lock hfind

/-- The lock that blocks a request conflicts with it, and no lock more so. -/
theorem conflicts_of_findConflict_some (hle : Comparisons F) {t : LockTable F} {d : Demand F}
    {id : String} {s : F} (h : t.findConflict d.embedding d.threshold = some (id, s)) :
    ∃ c, t.slots id = some c ∧ d.conflicts c = true ∧
      ∀ id' c', t.slots id' = some c' → d.conflicts c' = true →
        Arithmetic.le (cosineSimilarity d.embedding c') (cosineSimilarity d.embedding c) = true := by
  obtain ⟨lock, hfind, rfl, hs⟩ := findConflict_eq_some h
  refine ⟨lock.centroid, by rw [slots, hfind, Option.map_some], hs, ?_⟩
  intro id' c' hc' hconflict
  obtain ⟨other, hother, rfl⟩ := Option.map_eq_some_iff.mp hc'
  exact (foldl_findConflictStep_max hle d (fun b hb => by cases hb) h).2 (id', other)
    (UnorderedMap.mem_toList.mpr hother) hconflict

/-! ### Where the waiters end -/

theorem rebalance_append (layout : Layout String) (t : LockTable F) (granted ws ws' : List ℕ) :
    rebalance layout t granted (ws ++ ws') =
      rebalance layout (rebalance layout t granted ws).1 (rebalance layout t granted ws).2 ws' := by
  induction ws generalizing t granted with
  | nil => rfl
  | cons w ws ih =>
    rw [List.cons_append]
    cases hc : t.findConflict (t.demandOf w).embedding (t.demandOf w).threshold with
    | some conflict =>
      rw [rebalance_requeue layout hc, rebalance_requeue layout hc]
      exact ih _ _
    | none =>
      rw [rebalance_grant layout hc, rebalance_grant layout hc]
      exact ih _ _

/-- Where the waiters `ws` of a table end when they are rebalanced: granted, or behind what
stood in the queue of one lock, as `added` has it. The turn of each is the table that the
waiters before it in `ws` have left. -/
structure Readmission (layout : Layout String) (t : LockTable F) (ws : List ℕ)
    (added : String → List ℕ) : Prop where
  /-- The locks that were there stay, the granted agents get theirs, and no others come. -/
  kept : ∀ id c, t.slots id = some c →
    (rebalance layout t [] ws).1.slots id = some c
  won : ∀ w ∈ (rebalance layout t [] ws).2,
    (rebalance layout t [] ws).1.slots (t.demandOf w).agentId = some (t.demandOf w).embedding
  locks : ∀ id, ((rebalance layout t [] ws).1.slots id).isSome →
    (t.slots id).isSome ∨ ∃ w ∈ (rebalance layout t [] ws).2, (t.demandOf w).agentId = id
  /-- No granted waiter conflicts with a lock that was there, or one granted before it. -/
  free : ∀ pre w post, (rebalance layout t [] ws).2 = pre ++ w :: post →
    (∀ id c, t.slots id = some c → (t.demandOf w).conflicts c = false) ∧
      ∀ v ∈ pre, (t.demandOf w).conflicts (t.demandOf v).embedding = false
  /-- Queues grow at their ends, and the waiters stay in order. -/
  queue : ∀ id, (rebalance layout t [] ws).1.queue id = t.queue id ++ added id
  added_order : ∀ id, (added id).Sublist ws
  granted_order : (rebalance layout t [] ws).2.Sublist ws
  /-- Each waiter ends in one place. -/
  granted_apart : ∀ w ∈ (rebalance layout t [] ws).2, ∀ id, w ∉ added id
  placed : ∀ w ∈ ws, w ∉ (rebalance layout t [] ws).2 →
    ∃ id, w ∈ added id ∧ ∀ id', w ∈ added id' → id' = id
  /-- A waiter that is not granted still conflicts with the lock it waits for, which no
  lock conflicted with more at its turn. -/
  blocked : ∀ pre w post id, ws = pre ++ w :: post → w ∈ added id →
    ∃ c, (rebalance layout t [] pre).1.slots id = some c ∧
      (rebalance layout t [] ws).1.slots id = some c ∧ (t.demandOf w).conflicts c = true ∧
      ∀ id' c', (rebalance layout t [] pre).1.slots id' = some c' →
        (t.demandOf w).conflicts c' = true →
          Arithmetic.le (cosineSimilarity (t.demandOf w).embedding c')
            (cosineSimilarity (t.demandOf w).embedding c) = true

theorem demandOf_rebalance (layout : Layout String) (t : LockTable F) (granted ws : List ℕ) :
    (rebalance layout t granted ws).1.demandOf = t.demandOf :=
  rebalance_induction (P := fun t' _ => t'.demandOf = t.demandOf) layout
    (fun t' w _ id _ h _ => (requeue_demandOf t' w id).trans h)
    (fun t' w _ h _ => (grant_demandOf t' layout w).trans h) rfl

namespace Readmission

variable {layout : Layout String} {t : LockTable F} {ws : List ℕ} {added : String → List ℕ}
  {w : ℕ}

theorem nil (layout : Layout String) (t : LockTable F) : Readmission layout t [] fun _ => [] where
  kept _ _ h := h
  won _ h := absurd h List.not_mem_nil
  locks _ h := Or.inl h
  free pre w post h := by simp [rebalance] at h
  queue _ := (List.append_nil _).symm
  added_order _ := List.Sublist.slnil
  granted_order := List.Sublist.slnil
  granted_apart _ h := absurd h List.not_mem_nil
  placed _ h := absurd h List.not_mem_nil
  blocked pre w post id h := by simp at h

/-- A waiter that is placed was placed at its turn, and no later one changes what it
found then. -/
theorem blocked_concat {added' : String → List ℕ} (h : Readmission layout t ws added)
    (hw : w ∉ ws) (hadded : ∀ id v, v ∈ added' id → v ≠ w → v ∈ added id)
    (hkept : ∀ id c, (rebalance layout t [] ws).1.slots id = some c →
      (rebalance layout t [] (ws ++ [w])).1.slots id = some c)
    (hlast : ∀ id, w ∈ added' id →
      ∃ c, (rebalance layout t [] ws).1.slots id = some c ∧
        (t.demandOf w).conflicts c = true ∧
        ∀ id' c', (rebalance layout t [] ws).1.slots id' = some c' →
          (t.demandOf w).conflicts c' = true →
            Arithmetic.le (cosineSimilarity (t.demandOf w).embedding c')
              (cosineSimilarity (t.demandOf w).embedding c) = true)
    (pre : List ℕ) (v : ℕ) (post : List ℕ) (id : String) (he : ws ++ [w] = pre ++ v :: post)
    (hv : v ∈ added' id) :
    ∃ c, (rebalance layout t [] pre).1.slots id = some c ∧
      (rebalance layout t [] (ws ++ [w])).1.slots id = some c ∧
      (t.demandOf v).conflicts c = true ∧
      ∀ id' c', (rebalance layout t [] pre).1.slots id' = some c' →
        (t.demandOf v).conflicts c' = true →
          Arithmetic.le (cosineSimilarity (t.demandOf v).embedding c')
            (cosineSimilarity (t.demandOf v).embedding c) = true := by
  rcases concat_eq_split he with ⟨rfl, rfl, -⟩ | ⟨post', hws, -⟩
  · obtain ⟨c, hc, hconflict, hmax⟩ := hlast id hv
    exact ⟨c, hc, hkept id c hc, hconflict, hmax⟩
  · have hne : v ≠ w := by
      rintro rfl
      apply hw
      rw [hws]
      simp
    obtain ⟨c, hturn, hc, hconflict, hmax⟩ := h.blocked pre v post' id hws (hadded id v hv hne)
    exact ⟨c, hturn, hkept id c hc, hconflict, hmax⟩

/-- The next waiter conflicts, and is moved. -/
theorem concat_requeue (hle : Comparisons F) (h : Readmission layout t ws added) (hw : w ∉ ws)
    {id : String} {s : F}
    (hc : (rebalance layout t [] ws).1.findConflict (t.demandOf w).embedding
      (t.demandOf w).threshold = some (id, s)) :
    Readmission layout t (ws ++ [w]) (Function.update added id (added id ++ [w])) := by
  have hdemand := demandOf_rebalance layout t [] ws
  have hturn : rebalance layout t [] (ws ++ [w]) =
      ((rebalance layout t [] ws).1.requeue w id, (rebalance layout t [] ws).2) := by
    rw [rebalance_append, rebalance_requeue layout (by rwa [hdemand]), rebalance]
  have hsame : ∀ j, (rebalance layout t [] (ws ++ [w])).1.slots j =
      (rebalance layout t [] ws).1.slots j := by
    intro j
    rw [hturn]
    rw [requeue_slots]
  have hgranted : (rebalance layout t [] (ws ++ [w])).2 = (rebalance layout t [] ws).2 := by
    rw [hturn]
  have hnew : w ∉ (rebalance layout t [] ws).2 := fun hmem => hw (h.granted_order.subset hmem)
  have hadded : ∀ j v, v ∈ Function.update added id (added id ++ [w]) j ↔
      v ∈ added j ∨ (j = id ∧ v = w) := by
    intro j v
    rw [Function.update_apply]
    split_ifs with hj
    · simp [hj]
    · simp [hj]
  refine ⟨?_, ?_, ?_, ?_, ?_, ?_, ?_, ?_, ?_, ?_⟩
  · intro j c hj
    rw [hsame]
    exact h.kept j c hj
  · rw [hgranted]
    intro v hv
    rw [hsame]
    exact h.won v hv
  · rw [hgranted]
    intro j hj
    rw [hsame] at hj
    exact h.locks j hj
  · rw [hgranted]
    exact h.free
  · intro j
    have hid : (rebalance layout t [] ws).1.active.find id |>.isSome := isSome_of_findConflict hc
    rw [hturn, requeue, enqueue_queue (by exact hid), Function.update_apply]
    split_ifs with hj
    · rw [setWaiter_queue, h.queue, hj, List.append_assoc]
    · exact h.queue j
  · intro j
    rw [Function.update_apply]
    split_ifs with hj
    · exact (h.added_order id).append (List.Sublist.refl [w])
    · exact (h.added_order j).trans (List.sublist_append_left ws [w])
  · rw [hgranted]
    exact h.granted_order.trans (List.sublist_append_left ws [w])
  · rw [hgranted]
    intro v hv j hj
    rcases (hadded j v).mp hj with hj | ⟨-, rfl⟩
    · exact h.granted_apart v hv j hj
    · exact hnew hv
  · rw [hgranted]
    intro v hv hnot
    rcases List.mem_append.mp hv with hmem | hv
    · have hne : v ≠ w := by
        rintro rfl
        exact hw hmem
      obtain ⟨j, hj, hunique⟩ := h.placed v hmem hnot
      refine ⟨j, (hadded j v).mpr (Or.inl hj), fun j' hj' => ?_⟩
      exact hunique j' (((hadded j' v).mp hj').resolve_right fun he => hne he.2)
    · obtain rfl := List.mem_singleton.mp hv
      refine ⟨id, (hadded id v).mpr (Or.inr ⟨rfl, rfl⟩), fun j' hj' => ?_⟩
      rcases (hadded j' v).mp hj' with hj' | ⟨hid, -⟩
      · exact absurd ((h.added_order j').subset hj') hw
      · exact hid
  · refine h.blocked_concat hw ?_ ?_ ?_
    · intro j v hv hne
      exact ((hadded j v).mp hv).resolve_right fun he => hne he.2
    · intro j c hj
      rwa [hsame]
    · intro j hj
      rcases (hadded j w).mp hj with hj | ⟨rfl, -⟩
      · exact absurd ((h.added_order j).subset hj) hw
      · exact conflicts_of_findConflict_some hle hc

/-- The next waiter conflicts with nothing, and is granted. -/
theorem concat_grant (h : Readmission layout t ws added) (hw : w ∉ ws)
    (hfresh : (rebalance layout t [] ws).1.slots (t.demandOf w).agentId = none)
    (hc : (rebalance layout t [] ws).1.findConflict (t.demandOf w).embedding
      (t.demandOf w).threshold = none) :
    Readmission layout t (ws ++ [w]) added := by
  have hdemand := demandOf_rebalance layout t [] ws
  have hturn : rebalance layout t [] (ws ++ [w]) =
      ((rebalance layout t [] ws).1.grant layout w, (rebalance layout t [] ws).2 ++ [w]) := by
    rw [rebalance_append, rebalance_grant layout (by rwa [hdemand]), rebalance]
  have hcentroid : ∀ j, (rebalance layout t [] (ws ++ [w])).1.slots j =
      if j = (t.demandOf w).agentId then some (t.demandOf w).embedding
      else (rebalance layout t [] ws).1.slots j := by
    intro j
    rw [hturn, grant_slots, hdemand, Function.update_apply]
  have hgranted : (rebalance layout t [] (ws ++ [w])).2 = (rebalance layout t [] ws).2 ++ [w] := by
    rw [hturn]
  -- the granted agent had no lock, so that no lock is written over
  have hkept : ∀ j c, (rebalance layout t [] ws).1.slots j = some c →
      (rebalance layout t [] (ws ++ [w])).1.slots j = some c := by
    intro j c hj
    rw [hcentroid, if_neg, hj]
    rintro rfl
    rw [hfresh] at hj
    cases hj
  have hnotAdded : ∀ j, w ∉ added j := fun j hj => hw ((h.added_order j).subset hj)
  refine ⟨?_, ?_, ?_, ?_, ?_, ?_, ?_, ?_, ?_, ?_⟩
  · exact fun j c hj => hkept j c (h.kept j c hj)
  · rw [hgranted]
    intro v hv
    rcases List.mem_append.mp hv with hv | hv
    · exact hkept _ _ (h.won v hv)
    · obtain rfl := List.mem_singleton.mp hv
      rw [hcentroid, if_pos rfl]
  · rw [hgranted]
    intro j hj
    rw [hcentroid] at hj
    split_ifs at hj with hid
    · exact Or.inr ⟨w, by simp, hid.symm⟩
    · refine (h.locks j hj).imp_right fun hv => ?_
      obtain ⟨v, hv, hagent⟩ := hv
      exact ⟨v, List.mem_append_left [w] hv, hagent⟩
  · rw [hgranted]
    intro pre v post he
    rcases concat_eq_split he with ⟨hpre, rfl, -⟩ | ⟨post', he, -⟩
    · constructor
      · exact fun j c hj => conflicts_of_findConflict_none hc (h.kept j c hj)
      · intro u hu
        exact conflicts_of_findConflict_none hc (h.won u (hpre ▸ hu))
    · exact h.free pre v post' he
  · intro j
    obtain ⟨lock, hs, -⟩ := (rebalance layout t [] ws).1.insertPending_stores layout
      ((rebalance layout t [] ws).1.waiter w).waitingAgentId
      ((rebalance layout t [] ws).1.waiter w).embedding
      ((rebalance layout t [] ws).1.waiter w).theta
    rw [hturn, grant, setWaiter_queue, hs.queue]
    exact h.queue j
  · exact fun j => (h.added_order j).trans (List.sublist_append_left ws [w])
  · rw [hgranted]
    exact h.granted_order.append (List.Sublist.refl [w])
  · rw [hgranted]
    intro v hv j hj
    rcases List.mem_append.mp hv with hv | hv
    · exact h.granted_apart v hv j hj
    · obtain rfl := List.mem_singleton.mp hv
      exact hnotAdded j hj
  · rw [hgranted]
    intro v hv hnot
    rw [List.mem_append, not_or] at hnot
    have hv' := (List.mem_append.mp hv).resolve_right hnot.2
    exact h.placed v hv' hnot.1
  · refine h.blocked_concat hw (fun _ _ hv _ => hv) hkept ?_
    exact fun j hj => absurd hj (hnotAdded j)

end Readmission

theorem exists_readmission (hle : Comparisons F) (layout : Layout String) {t : LockTable F}
    {ws : List ℕ} (hdistinct : (ws.map fun w => (t.demandOf w).agentId).Nodup)
    (habsent : ∀ w ∈ ws, t.active.find (t.demandOf w).agentId = none) :
    ∃ added, Readmission layout t ws added := by
  induction ws using List.reverseRecOn with
  | nil => exact ⟨_, Readmission.nil layout t⟩
  | append_singleton ws w ih =>
    rw [List.map_append, List.nodup_append] at hdistinct
    obtain ⟨hdistinct, -, hapart⟩ := hdistinct
    obtain ⟨added, h⟩ := ih hdistinct fun v hv => habsent v (List.mem_append_left [w] hv)
    have hagent : ∀ v ∈ ws, (t.demandOf v).agentId ≠ (t.demandOf w).agentId := fun v hv =>
      hapart _ (List.mem_map_of_mem hv) _ (by simp)
    have hw : w ∉ ws := fun hmem => hagent w hmem rfl
    cases hc : (rebalance layout t [] ws).1.findConflict (t.demandOf w).embedding
        (t.demandOf w).threshold with
    | some conflict => exact ⟨_, h.concat_requeue hle hw hc⟩
    | none =>
      refine ⟨added, h.concat_grant hw ?_ hc⟩
      rw [← Option.not_isSome_iff_eq_none]
      intro hsome
      rcases h.locks _ hsome with hold | ⟨v, hv, hsame⟩
      · rw [slots, habsent w (by simp)] at hold
        cases hold
      · exact hagent v (h.granted_order.subset hv) hsame

/-- Rebalancing a queue is the admission check on its requests one after another: the same
locks, queues and grants; so each waiter ends in one place, without a conflict or behind
the lock it conflicts with most. -/
theorem rebalance_readmits (hle : Comparisons F) (layout : Layout String) (t : LockTable F)
    (ws : List ℕ) (hallocated : t.Allocated)
    (hdistinct : (ws.map fun w => (t.demandOf w).agentId).Nodup)
    (habsent : ∀ w ∈ ws, t.active.find (t.demandOf w).agentId = none) :
    SameView (rebalance layout t [] ws).1 (submitAll layout t (ws.map t.demandOf)).1 ∧
      (rebalance layout t [] ws).2.map t.demandOf =
        (submitAll layout t (ws.map t.demandOf)).2 ∧
      ∃ added, Readmission layout t ws added := by
  obtain ⟨hview, hgrants⟩ := rebalance_sameView layout (SameView.refl t) hallocated [] ws
  exact ⟨hview, hgrants, exists_readmission hle layout hdistinct habsent⟩

/-- "a" and "b" ask for one vector and "c" for the one that "x" holds; "d" is in the queue
of "x". -/
def crowdedTable : LockTable ℤ :=
  let t := (empty.applyAcquire .newest "x" [0, 1] 1).enqueue "x" 3
  let ask (agentId : String) (embedding : List ℤ) : WaitQueueEntry ℤ :=
    { waitingAgentId := agentId, embedding := embedding, theta := 1 }
  { t with
    next := 4
    waiter := fun w =>
      if w = 0 then ask "a" [1, 0] else if w = 1 then ask "b" [1, 0]
      else if w = 2 then ask "c" [0, 1] else ask "d" [0, 1] }

theorem comparisons_int : Comparisons ℤ where
  trans _ _ _ hxy hyz := decide_eq_true ((of_decide_eq_true hxy).trans (of_decide_eq_true hyz))
  total _ x y _ _ := (le_total x y).imp decide_eq_true decide_eq_true

theorem rebalance_readmits_crowded :
    (rebalance .newest crowdedTable [] [0, 1, 2]).2 = [0] ∧
      (rebalance .newest crowdedTable [] [0, 1, 2]).1.queue "a" = [1] ∧
      (rebalance .newest crowdedTable [] [0, 1, 2]).1.queue "x" = [3, 2] ∧
      SameView (rebalance .newest crowdedTable [] [0, 1, 2]).1
        (submitAll .newest crowdedTable ([0, 1, 2].map crowdedTable.demandOf)).1 := by
  refine ⟨by decide +kernel, by decide +kernel, by decide +kernel, ?_⟩
  refine (rebalance_readmits comparisons_int .newest crowdedTable [0, 1, 2] ?_ (by decide +kernel)
    (by decide +kernel)).1
  exact allocated_of_keys (by decide +kernel)

end LockTable

end DistributedLock.Table
