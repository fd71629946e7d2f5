import DistributedLock.Table.Blocking
import DistributedLock.Table.Events

/-! The order in which waiters of one region get their slots. Entries are numbered as
they are made, and a queue is served from its front; but a queue is joined at its back
also by the waiters of another lock that has gone, however long they have waited. In the
runs in which no waiter so falls behind a later one with the same vector and threshold,
and every waiter stays with a lock that blocks it, the earlier one is granted first. -/

namespace DistributedLock.Table

open Library Raft

variable {F : Type*}

namespace LockTable

/-- The two waiters want the same region. -/
def Alike (t : LockTable F) (v w : ℕ) : Prop :=
  (t.demandOf v).embedding = (t.demandOf w).embedding ∧
    (t.demandOf v).threshold = (t.demandOf w).threshold

/-- `v` may stand before `w` in a queue. -/
def InOrder (t : LockTable F) (v w : ℕ) : Prop := t.Alike v w → v < w

instance [DecidableEq F] (t : LockTable F) (v w : ℕ) : Decidable (t.InOrder v w) :=
  inferInstanceAs (Decidable (_ ∧ _ → _))

variable [Arithmetic F]

/-- The turn of a waiter in a rebalancing: it does not fall behind a later one of its
region, and a slot handed over to it keeps its own queue blocked. -/
def placeInOrder [DecidableEq F] (t : LockTable F) (w : ℕ) : Bool :=
  match t.findConflict (t.waiter w).embedding (t.waiter w).theta with
  | some (id, _) => decide (∀ v ∈ t.queue id, t.InOrder v w)
  | none => decide (t.StillBlocks (t.waiter w).waitingAgentId (t.waiter w).embedding)

end LockTable

def TableEvent.queuedAt : TableEvent F → Option ℕ
  | .queued w _ => some w
  | _ => none

/-- The events so far, against the entries: who has started to wait and been granted is on
record, entries are made in the order of their numbers, and at each grant the earlier
waiters of the region had been granted before. -/
structure QueueLog (t : LockTable F) (log : List (TableEvent F)) : Prop where
  queued : ∀ w d, .queued w d ∈ log → w < t.next ∧ t.demandOf w = d
  sorted : (log.filterMap TableEvent.queuedAt).Pairwise (· < ·)
  granted : ∀ w < t.next, (t.waiter w).granted = true → .granted w (t.demandOf w) ∈ log
  fifo : ∀ pre w d post, log = pre ++ .granted w d :: post → w < t.next ∧
    ∀ v < w, t.Alike v w → .granted v (t.demandOf v) ∈ pre

namespace QueueLog

variable {t t' : LockTable F} {log : List (TableEvent F)} {w : ℕ}

theorem of_same (h : QueueLog t log) (hdemand : t'.demandOf = t.demandOf)
    (hnext : t'.next = t.next)
    (hgranted : ∀ w, (t'.waiter w).granted = true → (t.waiter w).granted = true) :
    QueueLog t' log where
  queued := by
    rw [hdemand, hnext]
    exact h.queued
  sorted := h.sorted
  granted w hw hg := by
    rw [hdemand]
    exact h.granted w (hnext ▸ hw) (hgranted w hg)
  fifo := by
    simp only [LockTable.Alike, hdemand, hnext]
    exact h.fifo

/-- An event that is about no waiter. -/
theorem other (h : QueueLog t log) {e : TableEvent F} (hqueued : e.queuedAt = none)
    (hgranted : ∀ w d, e ≠ .granted w d) : QueueLog t (log ++ [e]) where
  queued w d hmem := by
    rcases List.mem_append.mp hmem with hmem | hmem
    · exact h.queued w d hmem
    · rw [← List.mem_singleton.mp hmem] at hqueued
      cases hqueued
  sorted := by
    rw [List.filterMap_append, List.filterMap_cons_none hqueued, List.filterMap_nil,
      List.append_nil]
    exact h.sorted
  granted w hw hg := List.mem_append_left _ (h.granted w hw hg)
  fifo pre w d post hlog := by
    rcases concat_eq_split hlog with ⟨-, he, -⟩ | ⟨post', hlog, -⟩
    · exact absurd he (hgranted w d)
    · exact h.fifo pre w d post' hlog

/-- A grant, after the grants of all earlier waiters of the region. -/
theorem grant (h : QueueLog t log) (hdemand : t'.demandOf = t.demandOf) (hnext : t'.next = t.next)
    (hgranted : ∀ v, v ≠ w → t'.waiter v = t.waiter v) (hw : w < t.next)
    (hearlier : ∀ v < w, t.Alike v w → (t.waiter v).granted = true) :
    QueueLog t' (log ++ [.granted w (t.demandOf w)]) where
  queued v d hmem := by
    rw [hdemand, hnext]
    rcases List.mem_append.mp hmem with hmem | hmem
    · exact h.queued v d hmem
    · cases List.mem_singleton.mp hmem
  sorted := by
    rw [List.filterMap_append, List.filterMap_cons_none rfl, List.filterMap_nil, List.append_nil]
    exact h.sorted
  granted v hv hg := by
    rw [hnext] at hv
    rw [hdemand]
    rcases eq_or_ne v w with rfl | hne
    · simp
    · rw [hgranted v hne] at hg
      exact List.mem_append_left _ (h.granted v hv hg)
  fifo pre v d post hlog := by
    simp only [LockTable.Alike, hdemand, hnext]
    rcases concat_eq_split hlog with ⟨rfl, he, -⟩ | ⟨post', hlog, -⟩
    · obtain ⟨rfl, -⟩ := TableEvent.granted.inj he
      exact ⟨hw, fun u hu halike => h.granted u (hu.trans hw) (hearlier u hu halike)⟩
    · exact h.fifo pre v d post' hlog

/-- A new entry. -/
theorem queue (h : QueueLog t log) {d : Demand F} (hnext : t'.next = t.next + 1)
    (hold : ∀ v < t.next, t'.waiter v = t.waiter v)
    (hnew : t'.demandOf t.next = d ∧ (t'.waiter t.next).granted = false) :
    QueueLog t' (log ++ [.queued t.next d]) where
  queued v d' hmem := by
    rw [hnext]
    rcases List.mem_append.mp hmem with hmem | hmem
    · obtain ⟨hv, hd⟩ := h.queued v d' hmem
      refine ⟨by omega, ?_⟩
      rwa [LockTable.demandOf, hold v hv]
    · obtain ⟨rfl, rfl⟩ := TableEvent.queued.inj (List.mem_singleton.mp hmem)
      exact ⟨Nat.lt_succ_self _, hnew.1⟩
  sorted := by
    rw [List.filterMap_append, List.pairwise_append]
    refine ⟨h.sorted, List.pairwise_singleton _ _, fun v hv w hw => ?_⟩
    obtain rfl : w = t.next := by simpa [TableEvent.queuedAt] using hw
    obtain ⟨e, he, hat⟩ := List.mem_filterMap.mp hv
    cases e with
    | queued u d' =>
      obtain rfl := Option.some.inj hat
      exact (h.queued u d' he).1
    | _ => cases hat
  granted v hv hg := by
    have hne : v ≠ t.next := by
      rintro rfl
      rw [hnew.2] at hg
      cases hg
    have hlt : v < t.next := by omega
    rw [hold v hlt] at hg
    rw [LockTable.demandOf, hold v hlt]
    exact List.mem_append_left _ (h.granted v hlt hg)
  fifo pre w d' post hlog := by
    rcases concat_eq_split hlog with ⟨-, he, -⟩ | ⟨post', hlog, -⟩
    · cases he
    · obtain ⟨hw, hearlier⟩ := h.fifo pre w d' post' hlog
      refine ⟨by omega, fun v hv halike => ?_⟩
      have hvw : t.Alike v w := by
        rw [LockTable.Alike, LockTable.demandOf, LockTable.demandOf, hold v (hv.trans hw),
          hold w hw] at halike
        exact halike
      rw [LockTable.demandOf, hold v (hv.trans hw)]
      exact hearlier v hv hvw

end QueueLog

/-! ### Waiters in order -/

/-- The waiters of a table and the events so far, in the middle of a rebalancing of the
waiters `moving`. -/
structure FifoInv [Arithmetic F] (t : LockTable F) (moving : List ℕ)
    (sleeps : ℕ → Option (ℕ × Demand F)) (log : List (TableEvent F)) : Prop where
  waiters : WaitersOk t moving sleeps
  tracked : t.Tracked
  asleep : ∀ w < t.next, (t.waiter w).granted = false → ∃ k d, sleeps k = some (w, d)
  moving_ordered : moving.Pairwise t.InOrder
  ordered : ∀ id, (t.queue id).Pairwise t.InOrder
  log : QueueLog t log

namespace FifoInv

variable [Arithmetic F] {t t' : LockTable F} {moving ws : List ℕ}
  {sleeps : ℕ → Option (ℕ × Demand F)} {log : List (TableEvent F)} {w : ℕ}

theorem empty (h : ∀ k, sleeps k = none) : FifoInv (.empty : LockTable F) [] sleeps [] where
  waiters := .empty h
  tracked id lock w hfind := by cases hfind
  asleep w hw := absurd hw (Nat.not_lt_zero w)
  moving_ordered := List.Pairwise.nil
  ordered id := List.Pairwise.nil
  log :=
    { queued := fun w d hmem => by cases hmem
      sorted := List.Pairwise.nil
      granted := fun w hw => absurd hw (Nat.not_lt_zero w)
      fifo := fun pre w d post hlog => by
        have := congrArg List.length hlog
        simp at this }

omit [Arithmetic F] in
theorem inOrder_congr (h : t'.demandOf = t.demandOf) : t'.InOrder = t.InOrder := by
  funext v w
  simp only [LockTable.InOrder, LockTable.Alike, h]

/-- A write into the locks, with an event that is about no waiter. -/
theorem of_stores {a : String} {lock : SemanticLock F} (h : FifoInv t moving sleeps log)
    (hs : LockTable.Stores t t' a lock) (hblocks : t.StillBlocks a lock.centroid)
    {e : TableEvent F} (hqueued : e.queuedAt = none) (hgranted : ∀ w d, e ≠ .granted w d) :
    FifoInv t' moving sleeps (log ++ [e]) := by
  have hdemand : t'.demandOf = t.demandOf := by
    funext v
    rw [LockTable.demandOf, hs.waiter]
    rfl
  refine ⟨h.waiters.of_stores hs, h.tracked.of_stores hs hblocks, ?_, ?_, ?_, ?_⟩
  · rw [hs.next, hs.waiter]
    exact h.asleep
  · rw [inOrder_congr hdemand]
    exact h.moving_ordered
  · rw [inOrder_congr hdemand, hs.queue]
    exact h.ordered
  · exact (h.log.of_same hdemand hs.next (fun w hw => by rwa [hs.waiter] at hw)).other hqueued
      hgranted

/-- The flag of the sweep matters to no waiter. -/
theorem of_flag (h : FifoInv t moving sleeps log) (flag : Bool) :
    FifoInv { t with sweepInProgress := flag } moving sleeps log where
  waiters := h.waiters.of_same rfl rfl rfl
  tracked := h.tracked
  asleep := h.asleep
  moving_ordered := h.moving_ordered
  ordered := h.ordered
  log := h.log.of_same rfl rfl fun _ hw => hw

/-- A waiter is placed in the queue of another lock, behind those it may stand behind. -/
theorem requeue {id : String} {s : F} (h : FifoInv t (w :: ws) sleeps log)
    (hc : t.findConflict (t.waiter w).embedding (t.waiter w).theta = some (id, s))
    (hbehind : ∀ v ∈ t.queue id, t.InOrder v w) : FifoInv (t.requeue w id) ws sleeps log := by
  have hid := LockTable.isSome_of_findConflict hc
  have hdemand := t.requeue_demandOf w id
  have hgranted := h.waiters.requeue_granted id
  have hqueue : ∀ j, (t.requeue w id).queue j =
      if j = id then t.queue id ++ [w] else t.queue j :=
    LockTable.enqueue_queue (t := t.setWaiter w _) hid w
  refine ⟨h.waiters.requeue hid, h.tracked.requeue hc, ?_, ?_, fun j => ?_, ?_⟩
  · intro v hv hg
    exact h.asleep v hv (hgranted v ▸ hg)
  · rw [inOrder_congr hdemand]
    exact (List.pairwise_cons.mp h.moving_ordered).2
  · rw [inOrder_congr hdemand, hqueue]
    split_ifs with hj
    · rw [List.pairwise_append]
      refine ⟨h.ordered id, List.pairwise_singleton _ _, fun v hv u hu => ?_⟩
      rw [List.mem_singleton.mp hu]
      exact hbehind v hv
    · exact h.ordered j
  · exact h.log.of_same hdemand rfl fun v hv => hgranted v ▸ hv

/-- The first of the waiters on the move is granted, if nothing blocks it: an earlier one
of its region would still be on the move behind it, or be blocked, and so would it. -/
theorem grant (layout : Layout String) (h : FifoInv t (w :: ws) sleeps log)
    (hc : t.findConflict (t.waiter w).embedding (t.waiter w).theta = none)
    (hblocks : t.StillBlocks (t.waiter w).waitingAgentId (t.waiter w).embedding) :
    FifoInv (t.grant layout w) ws sleeps (log ++ [.granted w (t.demandOf w)]) := by
  obtain ⟨hnot, hws, hqueue, k, d, hk⟩ := h.waiters.head
  have hdemand := t.grant_demandOf layout w
  have hwaiter : ∀ v, v ≠ w → (t.grant layout w).waiter v = t.waiter v := fun v hv => by
    rw [WaitersOk.grant_waiter, if_neg hv]
  obtain ⟨lock, hs, -⟩ := t.insertPending_stores layout (t.waiter w).waitingAgentId
    (t.waiter w).embedding (t.waiter w).theta
  have hearlier : ∀ v < w, t.Alike v w → (t.waiter v).granted = true := by
    intro v hv halike
    by_contra hg
    rw [Bool.not_eq_true] at hg
    have hlt : v < t.next := hv.trans (h.waiters.fresh k w d hk)
    rcases (h.waiters.queued v).mpr ⟨hg, h.asleep v hlt hg⟩ with hmoving | ⟨id, hmem⟩
    · rcases List.mem_cons.mp hmoving with rfl | hmem
      · exact lt_irrefl v hv
      · have hbefore := (List.pairwise_cons.mp h.moving_ordered).1 v hmem
        exact lt_asymm hv (hbefore ⟨halike.1.symm, halike.2.symm⟩)
    · -- the lock that blocks the earlier waiter blocks this one
      obtain ⟨lock', hfind⟩ := Option.isSome_iff_exists.mp (LockTable.isSome_of_mem_queue hmem)
      have hblocked := h.tracked id lock' v hfind hmem
      obtain ⟨hembedding, htheta⟩ := halike
      have hfree := LockTable.findConflict_eq_none.mp hc id lock' hfind
      rw [LockTable.Blocks, show (t.waiter v).embedding = (t.waiter w).embedding from hembedding,
        show (t.waiter v).theta = (t.waiter w).theta from htheta, hfree] at hblocked
      cases hblocked
  refine ⟨h.waiters.grant layout, h.tracked.grant layout hblocks, ?_, ?_, ?_, ?_⟩
  · intro v hv hg
    rcases eq_or_ne v w with rfl | hne
    · exact ⟨k, d, hk⟩
    · rw [hwaiter v hne] at hg
      exact h.asleep v (hs.next ▸ hv) hg
  · rw [inOrder_congr hdemand]
    exact (List.pairwise_cons.mp h.moving_ordered).2
  · rw [inOrder_congr hdemand]
    exact fun id => (congrFun hs.queue id).symm ▸ h.ordered id
  · exact h.log.grant hdemand hs.next hwaiter (h.waiters.fresh k w d hk) hearlier

theorem erase (h : FifoInv t [] sleeps log) {a : String} {lock : SemanticLock F}
    (hfind : t.active.find a = some lock) :
    FifoInv (t.erase a) lock.waiters sleeps (log ++ [.freed a]) := by
  have hlock : lock.waiters = t.queue a := by simp [LockTable.queue, hfind]
  have hlog : QueueLog (t.erase a) log := h.log.of_same rfl rfl fun _ hw => hw
  refine ⟨h.waiters.erase hfind, h.tracked.erase a, h.asleep, hlock ▸ h.ordered a, fun id => ?_,
    hlog.other rfl fun w d he => (by cases he)⟩
  rw [LockTable.erase_queue]
  split_ifs
  · exact List.Pairwise.nil
  · exact h.ordered id

theorem removeLock [DecidableEq F] (h : FifoInv t [] sleeps log) {layout : Layout String}
    {a : String} {lock : SemanticLock F} (hfind : t.active.find a = some lock)
    (hcheck : LockTable.rebalanceChecks LockTable.placeInOrder layout (t.erase a)
      lock.waiters = true) :
    FifoInv (t.removeLock layout a lock).1 [] sleeps
      (log ++ t.removalEvents a (t.removeLock layout a lock).2) := by
  have herase := h.erase hfind
  have hevents : ∀ granted, log ++ t.removalEvents a granted =
      (log ++ [.freed a]) ++ granted.map fun w => .granted w (t.demandOf w) := by
    intro granted
    simp [LockTable.removalEvents]
  rw [hevents]
  have hnil : FifoInv (t.erase a) lock.waiters sleeps ((log ++ [.freed a]) ++
      ([] : List ℕ).map fun w => .granted w (t.demandOf w)) := by simpa using herase
  refine (LockTable.rebalance_checked_induction (P := fun t' granted ws =>
    t'.demandOf = t.demandOf ∧ FifoInv t' ws sleeps ((log ++ [.freed a]) ++
      granted.map fun w => .granted w (t.demandOf w))) layout ?_ ?_ hcheck ⟨rfl, hnil⟩).2
  · rintro t' granted w ws id s hplace ⟨hdemand, h⟩ hc
    rw [LockTable.placeInOrder, hc] at hplace
    exact ⟨(t'.requeue_demandOf w id).trans hdemand, h.requeue hc (of_decide_eq_true hplace)⟩
  · rintro t' granted w ws hplace ⟨hdemand, h⟩ hc
    rw [LockTable.placeInOrder, hc] at hplace
    refine ⟨(t'.grant_demandOf layout w).trans hdemand, ?_⟩
    rw [List.map_append, ← List.append_assoc, ← hdemand]
    rw [← hdemand] at h
    exact h.grant layout hc (of_decide_eq_true hplace)

/-- A new waiter joins a queue behind waiters that are all earlier. -/
theorem sleepOn (h : FifoInv t [] sleeps log) {k : ℕ} (hk : sleeps k = none) {d : Demand F}
    {id : String} {s : F} (hc : t.findConflict d.embedding d.threshold = some (id, s)) :
    FifoInv (t.sleepOn d id) [] (Function.update sleeps k (some (t.next, d)))
      (log ++ [.queued t.next d]) := by
  have hid := LockTable.isSome_of_findConflict hc
  have hold : ∀ v < t.next, (t.sleepOn d id).waiter v = t.waiter v := by
    intro v hv
    simp [LockTable.sleepOn, hv.ne]
  have hnew : (t.sleepOn d id).waiter t.next = LockTable.newWaiter d := by
    simp [LockTable.sleepOn]
  have hqueue : ∀ j, (t.sleepOn d id).queue j =
      if j = id then t.queue id ++ [t.next] else t.queue j :=
    LockTable.enqueue_queue (t := { t.setWaiter t.next _ with next := t.next + 1 }) hid t.next
  have hlt : ∀ j, ∀ v ∈ t.queue j, v < t.next := by
    intro j v hv
    obtain ⟨-, k', d', hk'⟩ := (h.waiters.queued v).mp (Or.inr ⟨j, hv⟩)
    exact h.waiters.fresh k' v d' hk'
  have hsame : ∀ j, (t.queue j).Pairwise (t.sleepOn d id).InOrder := by
    intro j
    refine (h.ordered j).imp_of_mem fun {v w} hv hw hin => ?_
    rw [LockTable.InOrder, LockTable.Alike, LockTable.demandOf, LockTable.demandOf,
      hold v (hlt j v hv), hold w (hlt j w hw)]
    exact hin
  refine ⟨(h.waiters.newWaiter hk d).enqueue hid, h.tracked.sleepOn h.waiters.next_notMem hc, ?_,
    List.Pairwise.nil, fun j => ?_, h.log.queue rfl hold ⟨?_, ?_⟩⟩
  · intro v hv hg
    rcases eq_or_ne v t.next with rfl | hne
    · exact ⟨k, d, Function.update_self _ _ _⟩
    · have hv' : v < t.next := lt_of_le_of_ne (Nat.lt_succ_iff.mp hv) hne
      rw [hold v hv'] at hg
      obtain ⟨k', d', hk'⟩ := h.asleep v hv' hg
      have hkk : k' ≠ k := by
        rintro rfl
        rw [hk] at hk'
        cases hk'
      exact ⟨k', d', by rwa [Function.update_of_ne hkk]⟩
  · rw [hqueue]
    split_ifs with hj
    · rw [List.pairwise_append]
      refine ⟨hsame id, List.pairwise_singleton _ _, fun v hv w hw => ?_⟩
      rw [List.mem_singleton.mp hw]
      exact fun _ => hlt id v hv
    · exact hsame j
  · rw [LockTable.demandOf, hnew]
    rfl
  · rw [hnew]
    rfl

/-- A granted call leaves. -/
theorem wake (h : FifoInv t [] sleeps log) {k : ℕ} {d : Demand F}
    (hk : sleeps k = some (w, d)) (hgranted : (t.waiter w).granted = true) :
    FifoInv (t.setWaiter w { t.waiter w with ready := false }) []
      (Function.update sleeps k none) log := by
  have hflag : ∀ v, ((t.setWaiter w { t.waiter w with ready := false }).waiter v).granted =
      (t.waiter v).granted := by
    intro v
    rcases eq_or_ne v w with rfl | hv
    · simp
    · simp [hv]
  have hdemand : (t.setWaiter w { t.waiter w with ready := false }).demandOf = t.demandOf := by
    funext v
    rcases eq_or_ne v w with rfl | hv
    · simp [LockTable.demandOf, WaitQueueEntry.demand]
    · simp [LockTable.demandOf, hv]
  refine ⟨h.waiters.leave hk hgranted hgranted, h.tracked.setWaiter (Or.inr ⟨rfl, rfl⟩), ?_,
    List.Pairwise.nil, ?_, h.log.of_same hdemand rfl fun v hv => hflag v ▸ hv⟩
  · intro v hv hg
    rw [hflag] at hg
    obtain ⟨k', d', hk'⟩ := h.asleep v hv hg
    have hkk : k' ≠ k := by
      rintro rfl
      obtain rfl := congrArg Prod.fst (Option.some.inj (hk.symm.trans hk'))
      rw [hgranted] at hg
      cases hg
    exact ⟨k', d', by rwa [Function.update_of_ne hkk]⟩
  · rw [inOrder_congr hdemand]
    exact h.ordered

end FifoInv

/-! ### First come, first served -/

namespace Replica

variable [Arithmetic F] [DecidableEq F]

/-- No write of the step into a lock that is there lets a waiter of the lock off, and no
waiter that the step moves falls behind a later one of its region. -/
def KeepsOrder (r : Replica F) (a : Action F) : Prop := r.StepChecks LockTable.placeInOrder a

instance (r : Replica F) (a : Action F) : Decidable (r.KeepsOrder a) :=
  inferInstanceAs (Decidable (r.StepChecks _ a))

variable {r r' : Replica F} {log : List (TableEvent F)} {a : Action F}

theorem fifo_advance (h : FifoInv r.table [] (sleepsOf r.calls) log) {k : ℕ}
    {layout : Layout String} (hkeeps : r.KeepsOrder (.advance k layout))
    (hstep : r.step (.advance k layout) = some r') :
    FifoInv r'.table [] (sleepsOf r'.calls) (log ++ r.events (.advance k layout)) := by
  obtain ⟨call, t', a', hk, hmove, rfl⟩ := advance_cases h.waiters hstep
  have hblocks := hkeeps call hk
  dsimp only
  rw [sleepsOf_set hk]
  have hsleeps := sleepsOf_of_get hk
  generalize hadm : call.admission = adm at hmove hsleeps
  cases hmove with
  | reserve hfree =>
    obtain ⟨lock, hs, hcentroid, -⟩ := call.reserve_stores layout r.table
    have hsame : Function.update (sleepsOf r.calls) k none = sleepsOf r.calls := by
      rw [show (none : Option (ℕ × Demand F)) = sleepsOf r.calls k from hsleeps.symm,
        Function.update_eq_self]
    simp only [events, hk, Call.loops, hadm, hfree, if_true] at hblocks ⊢
    rw [show Admission.sleeping call.demand (.returned _) = none from rfl, hsame]
    exact h.of_stores hs (hcentroid ▸ hblocks trivial trivial) rfl fun w d he => (by cases he)
  | sleep id s hconflict =>
    simp only [events, hk, Call.loops, hadm, hconflict, if_true]
    exact h.sleepOn hsleeps hconflict
  | wake w trace hgranted =>
    have hnone : r.events (.advance k layout) = [] := by
      simp [events, hk, Call.loops, hadm, hgranted]
    rw [hnone, List.append_nil]
    exact h.wake hsleeps hgranted

theorem fifo_step (h : FifoInv r.table [] (sleepsOf r.calls) log) (hkeeps : r.KeepsOrder a)
    (hstep : r.step a = some r') :
    FifoInv r'.table [] (sleepsOf r'.calls) (log ++ r.events a) := by
  cases a with
  | request kind demand =>
    obtain rfl := Option.some.inj hstep
    rw [sleepsOf_request, events, List.append_nil]
    exact h
  | advance k layout => exact fifo_advance h hkeeps hstep
  | removePending agentId layout =>
    obtain rfl := Option.some.inj hstep
    simp only [events, LockTable.removePending]
    cases hfind : r.table.active.find agentId with
    | none => simpa using h
    | some lock =>
      cases hpending : lock.pending with
      | true => simpa [hpending] using h.removeLock hfind (hkeeps lock hfind hpending)
      | false => simpa [hpending] using h
  | apply entry layout =>
    obtain rfl := Option.some.inj hstep
    obtain ⟨hacquire, hrelease⟩ := hkeeps
    simp only [events, LockTable.onCommit]
    cases hop : entry.opType with
    | acquire =>
      obtain ⟨lock, hs, hcentroid, -⟩ := r.table.applyAcquire_stores layout entry.agentId
        entry.embedding entry.theta
      exact h.of_stores hs (hcentroid ▸ hacquire hop) rfl fun w d he => (by cases he)
    | release =>
      simp only [LockTable.release]
      cases hfind : r.table.active.find entry.agentId with
      | none => simpa using h
      | some lock => simpa using h.removeLock hfind (hrelease hop lock hfind)
  | beginLeaderSweep =>
    obtain rfl := Option.some.inj hstep
    rw [events, List.append_nil]
    exact h.of_flag _
  | endLeaderSweep =>
    obtain rfl := Option.some.inj hstep
    rw [events, List.append_nil]
    exact h.of_flag _

/-- Of two waiters for one region the one that entered a queue first is granted first, in
the runs in which no write into a lock that is there lets a waiter of the lock off and
nobody falls behind a later waiter of its region. -/
theorem fifo (as : List (Action F)) (s : Replica F × List (TableEvent F))
    (h : (((system F).guard KeepsOrder).logging events).exec as = some s) (v w : ℕ)
    (d₁ d₂ : Demand F) (hqueued : [.queued v d₁, .queued w d₂].Sublist s.2)
    (hembedding : d₁.embedding = d₂.embedding) (hthreshold : d₁.threshold = d₂.threshold)
    (pre post : List (TableEvent F)) (d : Demand F) (hlog : s.2 = pre ++ .granted w d :: post) :
    .granted v d₁ ∈ pre := by
  have hinv := (((system F).guard KeepsOrder).logging events).invariant
    (P := fun s => FifoInv s.1.table [] (sleepsOf s.1.calls) s.2) (.empty fun _ => rfl)
    (fun s a s' hs hstep => by
      obtain ⟨hstep, hlog⟩ := System.logging_step.mp hstep
      obtain ⟨hkeeps, hstep⟩ := System.guard_step.mp hstep
      rw [hlog]
      exact fifo_step hs hkeeps hstep) h
  have hvw : v < w := by
    have hsorted := hinv.log.sorted.sublist (hqueued.filterMap TableEvent.queuedAt)
    exact List.rel_of_pairwise_cons hsorted List.mem_cons_self
  obtain ⟨-, hv⟩ := hinv.log.queued v d₁ (hqueued.subset (by simp))
  obtain ⟨-, hw⟩ := hinv.log.queued w d₂ (hqueued.subset (by simp))
  have hmem := (hinv.log.fifo pre w d post hlog).2 v hvw
    ⟨by rw [hv, hw, hembedding], by rw [hv, hw, hthreshold]⟩
  rwa [hv] at hmem

/-- "b" and "c" wait behind "a" for one vector; "b" is handed the slot, releases it, and
then "c" gets it. -/
def inOrderRun : List (Action ℤ) :=
  [.apply (.acquire "a" [1, 0] 1) .newest, .request .waitForAdmission ⟨"b", [1, 0], 1⟩,
    .advance 0 .newest, .request .waitForAdmission ⟨"c", [1, 0], 1⟩, .advance 1 .newest,
    .apply (.release "a") .newest, .apply (.release "b") .newest]

theorem fifo_inOrder :
    ∃ s : Replica ℤ × List (TableEvent ℤ),
      (((system ℤ).guard KeepsOrder).logging events).exec inOrderRun = some s ∧
      s.2[6]? = some (.granted 1 ⟨"c", [1, 0], 1⟩) ∧
      .granted 0 ⟨"b", [1, 0], 1⟩ ∈ s.2.take 6 := by
  obtain ⟨s, hs, hlog⟩ := System.exists_exec (((system ℤ).guard KeepsOrder).logging events)
    inOrderRun (fun s => s.2 = [.applied ⟨"a", [1, 0], 1⟩, .queued 0 ⟨"b", [1, 0], 1⟩,
      .queued 1 ⟨"c", [1, 0], 1⟩, .freed "a", .granted 0 ⟨"b", [1, 0], 1⟩, .freed "b",
      .granted 1 ⟨"c", [1, 0], 1⟩]) (by decide +kernel)
  refine ⟨s, hs, by rw [hlog]; rfl, ?_⟩
  refine fifo inOrderRun s hs 0 1 ⟨"b", [1, 0], 1⟩ ⟨"c", [1, 0], 1⟩ ?_ rfl rfl _ []
    ⟨"c", [1, 0], 1⟩ (by rw [hlog]; rfl)
  rw [hlog]
  decide

/-- The first waiter joins the queue of "a", the only lock; the second that of "b", which
is closer to their vector. When "a" is released, the first waiter goes to the back of the
queue of "b". -/
def overtakenRun : List (Action ℚ) :=
  [.apply (.acquire "a" [1, 0] (1 / 2)) .newest,
    .request .waitForAdmission ⟨"first", [3, 4], 1 / 2⟩, .advance 0 .newest,
    .request .waitForAdmission ⟨"b", [0, 1], 1 / 2⟩, .advance 1 .newest,
    .request .waitForAdmission ⟨"second", [3, 4], 1 / 2⟩, .advance 2 .newest,
    .apply (.release "a") .newest, .removePending "b" .newest]

def overtakenLog : List (TableEvent ℚ) :=
  [.applied ⟨"a", [1, 0], 1 / 2⟩, .queued 0 ⟨"first", [3, 4], 1 / 2⟩,
    .reserved ⟨"b", [0, 1], 1 / 2⟩, .queued 1 ⟨"second", [3, 4], 1 / 2⟩, .freed "a", .freed "b",
    .granted 1 ⟨"second", [3, 4], 1 / 2⟩]

theorem second_granted_first :
    ∃ s : Replica ℚ × List (TableEvent ℚ),
      ((system ℚ).logging events).exec overtakenRun = some s ∧ s.2 = overtakenLog ∧
      ¬ ∀ v w (d₁ d₂ : Demand ℚ), [.queued v d₁, .queued w d₂].Sublist s.2 →
        d₁.embedding = d₂.embedding → d₁.threshold = d₂.threshold → ∀ pre post d,
        s.2 = pre ++ .granted w d :: post → .granted v d₁ ∈ pre := by
  obtain ⟨s, hs, hlog⟩ := System.exists_exec ((system ℚ).logging events) overtakenRun
    (fun s => s.2 = overtakenLog) (by decide +kernel)
  refine ⟨s, hs, hlog, fun hall => ?_⟩
  rw [hlog] at hall
  have hmem := hall 0 1 ⟨"first", [3, 4], 1 / 2⟩ ⟨"second", [3, 4], 1 / 2⟩ (by decide +kernel) rfl
    rfl (overtakenLog.take 6) [] ⟨"second", [3, 4], 1 / 2⟩ (by decide +kernel)
  revert hmem
  decide +kernel

end Replica

end DistributedLock.Table
