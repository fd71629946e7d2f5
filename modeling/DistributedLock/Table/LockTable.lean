import DistributedLock.Library.UnorderedMap
import DistributedLock.Raft.Types
import DistributedLock.Table.Similarity

/-! `ActiveLockTable`: the active locks with their queues of waiters, and what the
critical sections of its members do to them. Wait queue entries are shared between
a queue and the call that sleeps on them, so queues hold their addresses. -/

namespace DistributedLock.Table

open Library

structure WaitQueueEntry (F : Type*) where
  waitingAgentId : String
  embedding : List F
  theta : F
  ready : Bool := false
  granted : Bool := false
  queueHops : ℕ := 0

structure SemanticLock (F : Type*) where
  agentId : String
  centroid : List F
  threshold : F
  pending : Bool := false
  waiters : List ℕ := []

/-- The members of `ActiveLockTable`, and the wait queue entries allocated so far:
those at the addresses below `next`. -/
structure LockTable (F : Type*) where
  active : UnorderedMap String (SemanticLock F)
  sweepInProgress : Bool := false
  waiter : ℕ → WaitQueueEntry F
  next : ℕ := 0

namespace LockTable

variable {F : Type*} [Arithmetic F]

def empty : LockTable F where
  active := .empty
  waiter _ := { waitingAgentId := "", embedding := [], theta := 0 }

/-! ### Conflicts -/

/-- The loop body of `find_conflict_locked`: a lock takes the place of one before it
unless it is less similar. -/
def findConflictStep (embedding : List F) (threshold : F) (best : Option (String × F))
    (entry : String × SemanticLock F) : Option (String × F) :=
  let similarity := cosineSimilarity embedding entry.2.centroid
  if Arithmetic.le threshold similarity && best.all fun b => Arithmetic.le b.2 similarity then
    some (entry.1, similarity)
  else best

/-- `find_conflict_locked`: the blocking lock, by its key, and the similarity. -/
def findConflict (t : LockTable F) (embedding : List F) (threshold : F) : Option (String × F) :=
  t.active.toList.foldl (findConflictStep embedding threshold) none

/-! ### Locks -/

omit [Arithmetic F] in
/-- `insert_pending_locked`: an entry that is there keeps its flag. -/
def insertPending (layout : Layout String) (t : LockTable F) (agentId : String)
    (embedding : List F) (threshold : F) : LockTable F :=
  match t.active.find agentId with
  | some _ =>
    let write (lock : SemanticLock F) : SemanticLock F :=
      { lock with centroid := embedding, threshold := threshold }
    { t with active := t.active.modify agentId write }
  | none =>
    let lockEntry : SemanticLock F :=
      { agentId := agentId, centroid := embedding, threshold := threshold, pending := true }
    { t with active := t.active.emplace layout agentId lockEntry }

omit [Arithmetic F] in
/-- `apply_acquire_locked`. -/
def applyAcquire (layout : Layout String) (t : LockTable F) (agentId : String)
    (embedding : List F) (threshold : F) : LockTable F :=
  match t.active.find agentId with
  | some _ =>
    let write (lock : SemanticLock F) : SemanticLock F :=
      { lock with centroid := embedding, threshold := threshold, pending := false }
    { t with active := t.active.modify agentId write }
  | none =>
    let lockEntry : SemanticLock F :=
      { agentId := agentId, centroid := embedding, threshold := threshold }
    { t with active := t.active.emplace layout agentId lockEntry }

/-! ### Waiters -/

omit [Arithmetic F] in
/-- `conflict.lock->waiters.push_back(waiter)`. -/
def enqueue (t : LockTable F) (id : String) (w : ℕ) : LockTable F :=
  { t with active := t.active.modify id fun lock => { lock with waiters := lock.waiters ++ [w] } }

omit [Arithmetic F] in
def setWaiter (t : LockTable F) (w : ℕ) (entry : WaitQueueEntry F) : LockTable F :=
  { t with waiter := Function.update t.waiter w entry }

/-- `rebalance_waiters_locked`, for a waiter that still conflicts with lock `id`. -/
def requeue (t : LockTable F) (w : ℕ) (id : String) : LockTable F :=
  let entry := t.waiter w
  (t.setWaiter w { entry with
    ready := false, granted := false, queueHops := entry.queueHops + 1 }).enqueue id w

/-- `rebalance_waiters_locked`, for a waiter without a conflict. -/
def grant (layout : Layout String) (t : LockTable F) (w : ℕ) : LockTable F :=
  let entry := t.waiter w
  (t.insertPending layout entry.waitingAgentId entry.embedding entry.theta).setWaiter w
    { entry with granted := true, ready := true }

/-- `rebalance_waiters_locked`, with the waiters it has granted. -/
def rebalance (layout : Layout String) (t : LockTable F) (granted : List ℕ) :
    List ℕ → LockTable F × List ℕ
  | [] => (t, granted)
  | w :: waiters =>
    match t.findConflict (t.waiter w).embedding (t.waiter w).theta with
    | some (id, _) => rebalance layout (t.requeue w id) granted waiters
    | none => rebalance layout (t.grant layout w) (granted ++ [w]) waiters

omit [Arithmetic F] in
/-- `active_.erase`. -/
def erase (t : LockTable F) (agentId : String) : LockTable F :=
  { t with active := t.active.erase agentId }

/-- The end of `remove_pending` and `release`: the lock goes, its waiters are
rebalanced, and those granted are notified outside the mutex. -/
def removeLock (layout : Layout String) (t : LockTable F) (agentId : String)
    (lock : SemanticLock F) : LockTable F × List ℕ :=
  rebalance layout (t.erase agentId) [] lock.waiters

/-- `remove_pending`. -/
def removePending (layout : Layout String) (t : LockTable F) (agentId : String) :
    LockTable F × List ℕ :=
  match t.active.find agentId with
  | some lock => if lock.pending then t.removeLock layout agentId lock else (t, [])
  | none => (t, [])

/-- `release`. -/
def release (layout : Layout String) (t : LockTable F) (agentId : String) :
    LockTable F × List ℕ :=
  match t.active.find agentId with
  | some lock => t.removeLock layout agentId lock
  | none => (t, [])

/-! ### The callback of the replicated log -/

/-- The `on_commit_` callback that `main` passes to the `RaftNode`. -/
def onCommit (layout : Layout String) (t : LockTable F) (entry : Raft.LogEntry F) : LockTable F :=
  match entry.opType with
  | .acquire => t.applyAcquire layout entry.agentId entry.embedding entry.theta
  | .release => (t.release layout entry.agentId).1

/-! ### The leader sweep -/

omit [Arithmetic F] in
/-- `begin_leader_sweep`. -/
def beginLeaderSweep (t : LockTable F) : LockTable F × List String :=
  ({ t with sweepInProgress := true }, t.active.keys)

omit [Arithmetic F] in
/-- `end_leader_sweep`. -/
def endLeaderSweep (t : LockTable F) : LockTable F := { t with sweepInProgress := false }

end LockTable

/-! ### Waiting for admission -/

/-- `blocking_agent_id` is empty until the call has waited. -/
structure AcquireTrace (F : Type*) where
  waited : Bool := false
  blockingSimilarityScore : F
  blockingAgentId : String := ""
  waitPosition : ℕ := 0
  wakeCount : ℕ := 0
  queueHops : ℕ := 0

/-- What a blocking call asks for. -/
structure Demand (F : Type*) where
  agentId : String
  embedding : List F
  threshold : F
  deriving DecidableEq

/-- Where a call of `wait_for_admission` or `acquire` stands. The gate on
`sweep_cv_` is only in the first. -/
inductive Admission (F : Type*) where
  | gate
  | asleep (w : ℕ) (trace : AcquireTrace F)
  | returned (trace : AcquireTrace F)

namespace LockTable

variable {F : Type*} [Arithmetic F]

/-- The new entry that a conflict makes the call sleep on. -/
def newWaiter (d : Demand F) : WaitQueueEntry F :=
  { waitingAgentId := d.agentId, embedding := d.embedding, theta := d.threshold }

/-- The trace after the call has entered the queue of `lock`. -/
def traceConflict (trace : AcquireTrace F) (lock : Option (SemanticLock F)) (similarity : F) :
    AcquireTrace F :=
  let stronger := Arithmetic.le trace.blockingSimilarityScore similarity
  let agentId := (lock.map SemanticLock.agentId).getD ""
  let position := (lock.map fun lock => lock.waiters.length).getD 0
  { trace with
    waited := true
    blockingSimilarityScore := if stronger then similarity else trace.blockingSimilarityScore
    blockingAgentId := if stronger then agentId else trace.blockingAgentId
    waitPosition := if trace.waitPosition = 0 then position else trace.waitPosition }

/-- One turn of the loop of `wait_for_admission` and `acquire`, up to the wait.
`reserve` is what a call without a conflict does. -/
def waitLoop (reserve : LockTable F → LockTable F) (t : LockTable F) (d : Demand F)
    (trace : AcquireTrace F) : LockTable F × Admission F :=
  match t.findConflict d.embedding d.threshold with
  | none => (reserve t, .returned trace)
  | some (id, similarity) =>
    let t' := ({ t.setWaiter t.next (newWaiter d) with next := t.next + 1 }).enqueue id t.next
    (t', .asleep t.next (traceConflict trace (t'.active.find id) similarity))

/-- The wake-up from `waiter->cv`, once the entry is ready. -/
def wake (reserve : LockTable F → LockTable F) (t : LockTable F) (d : Demand F) (w : ℕ)
    (trace : AcquireTrace F) : Option (LockTable F × Admission F) :=
  let entry := t.waiter w
  if entry.ready then
    let t := t.setWaiter w { entry with ready := false }
    let trace := { trace with wakeCount := trace.wakeCount + 1, queueHops := entry.queueHops }
    some (if entry.granted then (t, .returned trace) else t.waitLoop reserve d trace)
  else none

omit [Arithmetic F] in
def reservePending (layout : Layout String) (d : Demand F) (t : LockTable F) : LockTable F :=
  t.insertPending layout d.agentId d.embedding d.threshold

omit [Arithmetic F] in
def reserveReal (layout : Layout String) (d : Demand F) (t : LockTable F) : LockTable F :=
  t.applyAcquire layout d.agentId d.embedding d.threshold

/-- The steps of `wait_for_admission`. -/
def waitForAdmission (layout : Layout String) (t : LockTable F) (d : Demand F) :
    Admission F → Option (LockTable F × Admission F)
  | .gate =>
    if t.sweepInProgress then none
    else some (t.waitLoop (reservePending layout d) d { blockingSimilarityScore := 0 })
  | .asleep w trace => t.wake (reservePending layout d) d w trace
  | .returned _ => none

/-- The steps of `acquire`, which has no gate and takes a real lock. -/
def acquire (layout : Layout String) (t : LockTable F) (d : Demand F) :
    Admission F → Option (LockTable F × Admission F)
  | .gate => some (t.waitLoop (reserveReal layout d) d { blockingSimilarityScore := 0 })
  | .asleep w trace => t.wake (reserveReal layout d) d w trace
  | .returned _ => none

end LockTable

end DistributedLock.Table
