import DistributedLock.Service.Runs

/-! Mutual exclusion of the sessions of a stable leader. What protects a session is its
slot in the table, which is found by the agent's id alone. An entry that an earlier
session of the agent has left in the log, applied while the slot is held, overwrites
or erases it. In the runs without such an apply every holder has a slot with its own
vector, and the vectors of any two holders are less similar than `theta`. -/

namespace DistributedLock.Service

open Library Raft Table

variable {ι F : Type*} [Arithmetic F]

namespace DsccNode

/-- Every call that holds a slot has one with its own vector, no two holders conflict,
and no agent has two open calls. -/
structure SlotInv (theta : F) (s : DsccNode ι F) : Prop where
  slot : ∀ (k : ℕ) c, s.acquires[k]? = some c → c.holdsSlot s.table = true →
    ∃ lock, s.table.active.find c.agentId = some lock ∧ lock.centroid = c.embedding
  apart : ∀ (k k' : ℕ) c c', s.acquires[k]? = some c → s.acquires[k']? = some c' → k ≠ k' →
    c.holdsSlot s.table = true → c'.holdsSlot s.table = true →
      Arithmetic.le theta (cosineSimilarity c.embedding c'.embedding) = false
  single : ∀ (k k' : ℕ) c c', s.acquires[k]? = some c → s.acquires[k']? = some c' →
    c.isOpen = true → c'.isOpen = true → c.agentId = c'.agentId → k = k'

namespace SlotInv

variable {s s' : DsccNode ι F} {theta : F}

/-- Steps that give no slot and keep the slots of the holders. -/
theorem of_holders (h : SlotInv theta s)
    (hcalls : ∀ (k : ℕ) c', s'.acquires[k]? = some c' → c'.holdsSlot s'.table = true →
      ∃ c, s.acquires[k]? = some c ∧ c.holdsSlot s.table = true ∧ c'.request = c.request)
    (hfind : ∀ (k : ℕ) c lock, s.acquires[k]? = some c → c.holdsSlot s.table = true →
      s.table.active.find c.agentId = some lock → lock.centroid = c.embedding →
      ∃ lock', s'.table.active.find c.agentId = some lock' ∧ lock'.centroid = c.embedding)
    (hsingle : ∀ (k k' : ℕ) c c', s'.acquires[k]? = some c → s'.acquires[k']? = some c' →
      c.isOpen = true → c'.isOpen = true → c.agentId = c'.agentId → k = k') :
    SlotInv theta s' := by
  refine ⟨fun k c' hk hc' => ?_, fun k k' c₁ c₂ hk hk' hne h₁ h₂ => ?_, hsingle⟩
  · obtain ⟨c, hk, hc, hrequest⟩ := hcalls k c' hk hc'
    obtain ⟨lock, hlock, hcentroid⟩ := h.slot k c hk hc
    have hfound := hfind k c lock hk hc hlock hcentroid
    rwa [AcquireCall.agentId, AcquireCall.embedding, ← hrequest] at hfound
  · obtain ⟨d₁, hk, hd₁, hrequest₁⟩ := hcalls k c₁ hk h₁
    obtain ⟨d₂, hk', hd₂, hrequest₂⟩ := hcalls k' c₂ hk' h₂
    have hapart := h.apart k k' d₁ d₂ hk hk' hne hd₁ hd₂
    rwa [AcquireCall.embedding, AcquireCall.embedding, ← hrequest₁, ← hrequest₂] at hapart

/-- Steps that give call `k` a slot, which finds no conflict in the table. -/
theorem of_admitted (h : SlotInv theta s) {k : ℕ} {d : AcquireCall F} {lock : SemanticLock F}
    (hk : s'.acquires[k]? = some d)
    (hcalls : ∀ (j : ℕ) c, j ≠ k → s'.acquires[j]? = some c → c.holdsSlot s'.table = true →
      s.acquires[j]? = some c ∧ c.holdsSlot s.table = true)
    (hfind : ∀ id, s'.table.active.find id =
      if id = d.agentId then some lock else s.table.active.find id)
    (hcentroid : lock.centroid = d.embedding)
    (hfree : s.table.findConflict d.embedding theta = none)
    (hopen : d.isOpen = true)
    (hsingle : ∀ (k k' : ℕ) c c', s'.acquires[k]? = some c → s'.acquires[k']? = some c' →
      c.isOpen = true → c'.isOpen = true → c.agentId = c'.agentId → k = k') :
    SlotInv theta s' := by
  have hne : ∀ (j : ℕ) c, j ≠ k → s'.acquires[j]? = some c → c.holdsSlot s'.table = true →
      c.agentId ≠ d.agentId := fun j c hj hget hholds heq =>
    hj (hsingle j k c d hget hk (AcquireCall.isOpen_of_inSession
      (AcquireCall.inSession_of_holdsSlot hholds)) hopen heq)
  -- the new holder against an old one
  have hnew : ∀ (j : ℕ) c, j ≠ k → s'.acquires[j]? = some c → c.holdsSlot s'.table = true →
      Arithmetic.le theta (cosineSimilarity d.embedding c.embedding) = false := by
    intro j c hj hget hholds
    obtain ⟨hget', hholds'⟩ := hcalls j c hj hget hholds
    obtain ⟨old, hold, hemb⟩ := h.slot j c hget' hholds'
    rw [← hemb]
    exact LockTable.findConflict_eq_none.mp hfree c.agentId old hold
  refine ⟨fun j c hget hholds => ?_, fun j j' c c' hget hget' hjj hholds hholds' => ?_, hsingle⟩
  · rcases eq_or_ne j k with rfl | hj
    · rw [hk, Option.some.injEq] at hget
      subst hget
      exact ⟨lock, by rw [hfind, if_pos rfl], hcentroid⟩
    · obtain ⟨hget', hholds'⟩ := hcalls j c hj hget hholds
      rw [hfind, if_neg (hne j c hj hget hholds)]
      exact h.slot j c hget' hholds'
  · rcases eq_or_ne j k with rfl | hj
    · rw [hk, Option.some.injEq] at hget
      subst hget
      exact hnew j' c' hjj.symm hget' hholds'
    · rcases eq_or_ne j' k with rfl | hj'
      · rw [hk, Option.some.injEq] at hget'
        subst hget'
        rw [cosineSimilarity_comm]
        exact hnew j c hj hget hholds
      · obtain ⟨hold, hh⟩ := hcalls j c hj hget hholds
        obtain ⟨hold', hh'⟩ := hcalls j' c' hj' hget' hholds'
        exact h.apart j j' c c' hold hold' hjj hh hh'

/-! ### Rebalancing -/

/-- The holders after a waiter is moved are those before. -/
theorem requeue {w : ℕ} {id : String} {t : LockTable F}
    (h : SlotInv theta { s with table := t }) :
    SlotInv theta { s with table := t.requeue w id } := by
  refine h.of_holders (fun k c hk hholds => ⟨c, hk, ?_, rfl⟩) (fun k c lock hk _ hlock hemb => ?_)
    h.single
  · refine (c.stage_of_granted theta fun v d _ hv => ?_).2 hholds
    simp only [LockTable.requeue, LockTable.enqueue_waiter, LockTable.setWaiter_waiter,
      Function.update_apply] at hv
    split_ifs at hv
    exact hv
  · simp only [LockTable.requeue, LockTable.find_enqueue, LockTable.setWaiter_active]
    rw [hlock, Option.map_some]
    refine ⟨_, rfl, ?_⟩
    split_ifs <;> exact hemb

/-- A granted waiter holds its slot from then on. -/
theorem grant {w k : ℕ} {ws : List ℕ} {d : Demand F} {t : LockTable F}
    (h : SlotInv theta { s with table := t }) (layout : Layout String)
    (hw : WaitersOk t (w :: ws) (s.sleeps theta)) (hk : s.sleeps theta k = some (w, d))
    (hfree : t.findConflict d.embedding d.threshold = none) :
    SlotInv theta { s with table := t.grant layout w } := by
  obtain ⟨c, hc, hsleep⟩ := Option.bind_eq_some_iff.mp hk
  obtain ⟨⟨trace, hpc⟩, rfl⟩ := AcquireCall.sleeping_eq_some hsleep
  obtain ⟨lock, hst, hcentroid, -⟩ := hw.grant_stores layout hk
  refine h.of_admitted (k := k) (d := c) hc (fun j cj hj hget hholds => ⟨hget, ?_⟩)
    (fun id => hst.find id) hcentroid hfree (by simp [AcquireCall.isOpen, hpc]) h.single
  refine (cj.stage_of_granted theta fun v dj hcj hv => ?_).2 hholds
  have hvw : v ≠ w := by
    rintro rfl
    exact hj (hw.unique j k v dj _ ((sleeps_of_get hget).trans hcj) hk)
  rwa [WaitersOk.grant_waiter, if_neg hvw] at hv

/-- Taking away the lock of an agent without a holder. -/
theorem removeLock (h : SlotInv theta s) (hw : WaitersOk s.table [] (s.sleeps theta))
    (layout : Layout String) {a : String} {lock : SemanticLock F}
    (hfind : s.table.active.find a = some lock)
    (hnone : ∀ (k : ℕ) c, s.acquires[k]? = some c → c.holdsSlot s.table = true → c.agentId ≠ a) :
    SlotInv theta { s with table := (s.table.removeLock layout a lock).1 } := by
  refine ((hw.erase hfind).rebalance (P := fun t => SlotInv theta { s with table := t }) layout []
    ?_ ?_ ?_).2
  · refine h.of_holders (fun k c hk hholds => ⟨c, hk, ?_, rfl⟩)
      (fun k c lock' hk hholds hlock hemb => ⟨lock', ?_, hemb⟩) h.single
    · exact (c.stage_of_granted theta fun _ _ _ hv => hv).2 hholds
    · simpa [LockTable.erase, UnorderedMap.find_erase_of_ne _ (hnone k c hk hholds)] using hlock
  · exact fun t w ws id sim _ _ _ ht => ht.requeue
  · exact fun t w ws k d hw hk hfree ht => ht.grant layout hw hk hfree

end SlotInv

/-! ### The runs in which no holder meets an entry of an earlier session -/

/-- Each agent has at most one call of `AcquireGuard` open at a time, and nobody calls
`ReleaseGuard`. -/
def OneCallEach (s : DsccNode ι F) : Action ι F → Prop
  | .acquireGuard request _ => ∀ c ∈ s.acquires, c.isOpen = true → c.agentId ≠ request.agentId
  | .releaseGuard _ => False
  | _ => True

instance (s : DsccNode ι F) : (a : Action ι F) → Decidable (s.OneCallEach a)
  | .acquireGuard request _ =>
    inferInstanceAs (Decidable (∀ c ∈ s.acquires, c.isOpen = true → c.agentId ≠ request.agentId))
  | .releaseGuard _ => isFalse id
  | .raftEvent _ | .finishElection | .onCommit _ | .acquire _ _ | .release _ _ | .sweep _ _ =>
    isTrue trivial

/-- The entry whose callback is about to run. -/
def calling (s : DsccNode ι F) : Option (LogEntry F) :=
  match s.raft.phase with
  | .calling _ e => some e
  | _ => none

/-- An entry applied while a call of its agent holds a slot acquires for the vector of
that call. -/
def OwnEntries (s : DsccNode ι F) : Action ι F → Prop
  | .onCommit _ => ∀ e ∈ s.calling, ∀ c ∈ s.acquires, c.holdsSlot s.table = true →
    c.agentId = e.agentId → e.opType = .acquire ∧ e.embedding = c.embedding
  | _ => True

instance [DecidableEq F] (s : DsccNode ι F) : (a : Action ι F) → Decidable (s.OwnEntries a)
  | .onCommit _ =>
    inferInstanceAs (Decidable (∀ e ∈ s.calling, ∀ c ∈ s.acquires, c.holdsSlot s.table = true →
      c.agentId = e.agentId → e.opType = .acquire ∧ e.embedding = c.embedding))
  | .raftEvent _ | .finishElection | .acquireGuard _ _ | .releaseGuard _ | .acquire _ _
  | .release _ _ | .sweep _ _ => isTrue trivial

namespace SlotInv

variable {s s' : DsccNode ι F} {cfg : ServiceConfig ι F}

/-- The callback of an entry: it may write the slot of a holder, with its own vector,
and it erases no holder's slot. -/
theorem commit (h : SlotInv cfg.theta s) (hw : WaitersOk s.table [] (s.sleeps cfg.theta))
    (layout : Layout String) {e : LogEntry F}
    (hown : ∀ c ∈ s.acquires, c.holdsSlot s.table = true → c.agentId = e.agentId →
      e.opType = .acquire ∧ e.embedding = c.embedding) :
    SlotInv cfg.theta { s with table := s.table.onCommit layout e } := by
  unfold LockTable.onCommit
  cases hop : e.opType with
  | acquire =>
    obtain ⟨lock, hst, hcentroid, -⟩ :=
      s.table.applyAcquire_stores layout e.agentId e.embedding e.theta
    refine h.of_holders (fun k c hk hholds => ⟨c, hk, ?_, rfl⟩)
      (fun k c old hk hholds hold hemb => ?_) h.single
    · exact (c.stage_of_granted cfg.theta fun v _ _ hv => by rwa [hst.waiter] at hv).2 hholds
    · rcases eq_or_ne c.agentId e.agentId with heq | hne
      · have hsame := (hown c (List.mem_of_getElem? hk) hholds heq).2
        exact ⟨lock, by rw [heq]; exact hst.find_self, hcentroid.trans hsame⟩
      · exact ⟨old, by rw [hst.find_of_ne hne]; exact hold, hemb⟩
  | release =>
    rcases s.table.release_cases layout e.agentId with ⟨-, he⟩ | ⟨lock, hfind, he⟩
    · simp only [he]
      exact h
    · simp only [he]
      refine h.removeLock hw layout hfind fun k c hk hholds heq => ?_
      rw [(hown c (List.mem_of_getElem? hk) hholds heq).1] at hop
      cases hop

/-- A call that moves on keeps its agent. -/
theorem single_set {k : ℕ} {c c' : AcquireCall F} (h : SlotInv cfg.theta s)
    (hk : s.acquires[k]? = some c) (hopen : c.isOpen = true) (hrequest : c'.request = c.request)
    (j j' : ℕ) (c₁ c₂ : AcquireCall F) (hj : (s.acquires.set k c')[j]? = some c₁)
    (hj' : (s.acquires.set k c')[j']? = some c₂) (ho : c₁.isOpen = true)
    (ho' : c₂.isOpen = true) (hagent : c₁.agentId = c₂.agentId) : j = j' :=
  keyed_set h.single hk hopen (by rw [AcquireCall.agentId, hrequest]; rfl) j j' c₁ c₂ hj hj' ho ho'
    hagent

/-- A call moves on without being admitted, and the others keep their stages and slots. -/
theorem of_set {k : ℕ} {c c' : AcquireCall F} (h : SlotInv cfg.theta s)
    (hk : s.acquires[k]? = some c) (hopen : c.isOpen = true)
    (hs : s'.acquires = s.acquires.set k c') (hrequest : c'.request = c.request)
    (hc : c'.holdsSlot s'.table = true → c.holdsSlot s.table = true)
    (hstage : ∀ (j : ℕ) cj, j ≠ k → s.acquires[j]? = some cj → cj.holdsSlot s'.table = true →
      cj.holdsSlot s.table = true)
    (hfind : ∀ (j : ℕ) cj lock, s.acquires[j]? = some cj → cj.holdsSlot s.table = true →
      s.table.active.find cj.agentId = some lock → lock.centroid = cj.embedding →
      ∃ lock', s'.table.active.find cj.agentId = some lock' ∧ lock'.centroid = cj.embedding) :
    SlotInv cfg.theta s' := by
  refine h.of_holders (fun j cj hj hholds => ?_) hfind (hs ▸ h.single_set hk hopen hrequest)
  rw [hs] at hj
  rcases getElem?_of_set hj with ⟨rfl, rfl⟩ | ⟨hne, hold⟩
  · exact ⟨c, hk, hc hholds, hrequest⟩
  · exact ⟨cj, hold, hstage j cj hne hold hholds, rfl⟩

/-- The call cancels its reservation: it holds the slot no more, and nobody else of its
agent does. -/
theorem removePending {k : ℕ} {c : AcquireCall F} (h : SlotInv cfg.theta s)
    (hw : WaitersOk s.table [] (s.sleeps cfg.theta)) (hk : s.acquires[k]? = some c)
    (hpc : c.pc = .removePending) (layout : Layout String) :
    SlotInv cfg.theta { s with table := (s.table.removePending layout c.agentId).1 } := by
  rcases s.table.removePending_cases layout c.agentId with he | ⟨lock, hfind, -, he⟩
  · rw [he]
    exact h
  · rw [he]
    refine h.removeLock hw layout hfind fun j cj hj hholds heq => ?_
    have hjk := h.single j k cj c hj hk (AcquireCall.isOpen_of_inSession
      (AcquireCall.inSession_of_holdsSlot hholds)) (by simp [AcquireCall.isOpen, hpc]) heq
    subst hjk
    rw [hk, Option.some.injEq] at hj
    subst hj
    simp [AcquireCall.holdsSlot, hpc] at hholds

/-- One step of a call's own thread. -/
theorem acquire {k : ℕ} {c c' : AcquireCall F} {p : Process ι F} {t : LockTable F}
    (h : SlotInv cfg.theta s) (hw : WaitersOk s.table [] (s.sleeps cfg.theta))
    (hk : s.acquires[k]? = some c) (hopen : c.isOpen = true)
    (hmove : AcquireMove cfg s.raft s.table c p t c') :
    SlotInv cfg.theta { s with raft := p, table := t, acquires := s.acquires.set k c' } := by
  have hlt := (List.getElem?_eq_some_iff.mp hk).1
  -- the table stays, and the call is not admitted
  have hstay : ∀ {p : Process ι F} {c' : AcquireCall F}, c'.request = c.request →
      (c'.holdsSlot s.table = true → c.holdsSlot s.table = true) →
      SlotInv cfg.theta { s with raft := p, acquires := s.acquires.set k c' } :=
    fun hrequest hc => h.of_set hk hopen rfl hrequest hc (fun _ _ _ _ hholds => hholds)
      fun _ _ lock _ _ hlock hemb => ⟨lock, hlock, hemb⟩
  cases hmove with
  | stay c' hrequest hsleep hsleep' hsession hholds => exact hstay hrequest hholds
  | wait layout a a' t' hpc hwait =>
    have hsleep := sleeps_of_admission cfg.theta hk hpc
    cases hw.admissionMove hsleep hwait with
    | reserve hfree =>
      obtain ⟨lock, hst, hcentroid, -⟩ :=
        LockTable.reservePending_stores layout (c.demand cfg.theta) s.table
      refine h.of_admitted (k := k)
        (d := { c with pc := .admission (.returned { blockingSimilarityScore := 0 }) })
        (by simp [hlt]) (fun j cj hj hget hholds => ?_) hst.find hcentroid hfree rfl
        (h.single_set hk hopen rfl)
      have hold : s.acquires[j]? = some cj := by simpa [hj.symm] using hget
      exact ⟨hold, (cj.stage_of_granted cfg.theta fun v _ _ hv => by rwa [hst.waiter] at hv).2
        hholds⟩
    | sleep id score hconflict =>
      refine h.of_set hk hopen rfl rfl (fun hholds => ?_) (fun j cj _ hj hholds => ?_)
        fun j cj lock _ _ hlock hemb => ?_
      · simp [AcquireCall.holdsSlot, AcquireCall.inSession, LockTable.sleepOn,
          LockTable.newWaiter] at hholds
      · refine (cj.stage_of_granted cfg.theta fun v d hsleep hv => ?_).2 hholds
        simpa [LockTable.sleepOn, (hw.fresh j v d ((sleeps_of_get hj).trans hsleep)).ne] using hv
      · rw [LockTable.sleepOn, LockTable.find_enqueue]
        simp only [LockTable.setWaiter_active, hlock, Option.map_some]
        refine ⟨_, rfl, ?_⟩
        split_ifs <;> exact hemb
    | wake w trace hgranted =>
      refine h.of_set hk hopen rfl rfl (fun _ => ?_) (fun j cj _ hj hholds => ?_)
        fun j cj lock _ _ hlock hemb => ⟨lock, hlock, hemb⟩
      · simpa [AcquireCall.holdsSlot, AcquireCall.inSession, hpc] using hgranted
      · refine (cj.stage_of_granted cfg.theta fun v _ _ hv => ?_).2 hholds
        simp only [LockTable.setWaiter_waiter, Function.update_apply] at hv
        split_ifs at hv with hvw
        · rw [hvw]
          exact hgranted
        · exact hv
  | appendAcquire index hlead hpc =>
    exact hstay rfl fun _ => by simp [AcquireCall.holdsSlot, AcquireCall.inSession, hpc]
  | removePending layout message hpc =>
    exact (h.removePending hw hk hpc layout).of_set hk hopen rfl rfl
      (fun hholds => by simp [AcquireCall.holdsSlot] at hholds) (fun _ _ _ _ hholds => hholds)
      fun _ _ lock _ _ hlock hemb => ⟨lock, hlock, hemb⟩
  | appendRelease c' hlead hrequest hsleep hsleep' hsession =>
    exact hstay hrequest (by simp [AcquireCall.holdsSlot_of_not_inSession hsession])
  | giveUp c' hlead hrequest hsleep hsleep' hsession =>
    exact hstay hrequest (by simp [AcquireCall.holdsSlot_of_not_inSession hsession])

theorem step [DecidableEq ι] {a : Action ι F} (h : SlotInv cfg.theta s)
    (hw : WaitersOk s.table [] (s.sleeps cfg.theta))
    (hone : ∀ request now, a = .acquireGuard request now →
      ∀ c ∈ s.acquires, c.isOpen = true → c.agentId ≠ request.agentId)
    (hown : s.OwnEntries a) (hstep : NodeStep cfg s a s') : SlotInv cfg.theta s' := by
  have hsame : ∀ s'' : DsccNode ι F, s''.acquires = s.acquires →
      s''.table.active = s.table.active → s''.table.waiter = s.table.waiter →
      SlotInv cfg.theta s'' := by
    intro s'' hacq hactive hwaiter
    refine h.of_holders (fun k c hk hholds => ⟨c, hacq ▸ hk, ?_, rfl⟩)
      (fun k c lock _ _ hlock hemb => ⟨lock, hactive ▸ hlock, hemb⟩) (hacq ▸ h.single)
    exact (c.stage_of_granted cfg.theta fun v _ _ hv => by rwa [hwaiter] at hv).2 hholds
  cases hstep with
  | onCommit layout m e hphase =>
    refine (h.commit hw layout (hown e ?_)).of_holders
      (fun k c hk hholds => ⟨c, hk, hholds, rfl⟩)
      (fun _ _ lock _ _ hlock hemb => ⟨lock, hlock, hemb⟩) h.single
    simp [calling, hphase]
  | acquireGuard request now =>
    have hnew := (AcquireCall.arrive_stage cfg request now s.table cfg.theta).2.2
    refine h.of_holders (fun j cj hj hholds => ?_)
      (fun _ _ lock _ _ hlock hemb => ⟨lock, hlock, hemb⟩)
      (keyed_concat h.single fun c hc hopen => ?_)
    · rcases getElem?_of_concat hj with hold | ⟨-, rfl⟩
      · exact ⟨cj, hold, hholds, rfl⟩
      · rw [hnew] at hholds
        cases hholds
    · rw [AcquireCall.arrive_agentId]
      exact hone request now rfl c hc hopen
  | releaseGuard agentId => exact hsame _ rfl rfl rfl
  | acquire k x c p t c' hk hopen hmove => exact h.acquire hw hk hopen hmove
  | sweep k x w p t w' hk hmove =>
    cases hmove with
    | stay sweepInProgress => exact hsame _ rfl rfl rfl
    | propose b orphans => exact hsame _ rfl rfl rfl
  | _ => exact hsame _ rfl rfl rfl

theorem start [DecidableEq ι] (cfg : ServiceConfig ι F) (T : ℕ) :
    SlotInv cfg.theta (leaderStart cfg T) := by
  refine ⟨?_, ?_, ?_⟩ <;> simp [leaderStart]

end SlotInv

variable [DecidableEq ι] [DecidableEq F]

/-- No two sessions with similar vectors are in their Qdrant phase at once, in the runs
of a stable leader with one open call for each agent in which no entry of an earlier
session is applied to a slot that is held. -/
theorem mutual_exclusion (cfg : ServiceConfig ι F) (T : ℕ) (as : List (Action ι F))
    (s : DsccNode ι F)
    (h : ((stableSystem cfg T).guard fun s a => s.OneCallEach a ∧ s.OwnEntries a).exec as = some s)
    (k k' : ℕ) (c c' : AcquireCall F) (hk : s.acquires[k]? = some c)
    (hk' : s.acquires[k']? = some c') (hne : k ≠ k') (hc : c.inQdrantPhase = true)
    (hc' : c'.inQdrantPhase = true) :
    Arithmetic.le cfg.theta (cosineSimilarity c.embedding c'.embedding) = false := by
  have hinv := ((stableSystem cfg T).guard fun s a => s.OneCallEach a ∧ s.OwnEntries a).invariant
    (P := fun s => WaitersOk s.table [] (s.sleeps cfg.theta) ∧ SlotInv cfg.theta s)
    ⟨waiters_empty _ rfl rfl, .start cfg T⟩
    (fun _ _ _ ⟨hw, hs⟩ ht =>
      have hguard := System.guard_step.mp ht
      have hstep := stable_step hguard.2
      ⟨waiters_step hstep.1 hw,
        hs.step hw (fun _ _ ha => by subst ha; exact hguard.1.1) hguard.1.2 hstep.1⟩) h
  exact hinv.2.apart k k' c c' hk hk' hne (AcquireCall.holdsSlot_of_inQdrantPhase _ hc)
    (AcquireCall.holdsSlot_of_inQdrantPhase _ hc')

/-- Agents "a" and "b" ask for orthogonal vectors and reach Qdrant together. -/
def sharedRun : List (Action Unit ℤ) :=
  List.flatten [[.acquireGuard ⟨"a", [1, 0], .write⟩ 0, .acquireGuard ⟨"b", [0, 1], .write⟩ 0],
    List.replicate 5 (.acquire 0 {}), List.replicate 5 (.acquire 1 {}),
    applyNext, applyNext, [.acquire 0 {}, .acquire 1 {}]]

theorem mutual_exclusion_shared :
    ∃ (s : DsccNode Unit ℤ) (c c' : AcquireCall ℤ),
      (stableSystem .alone 1).exec sharedRun = some s ∧
      s.acquires[0]? = some c ∧ s.acquires[1]? = some c' ∧
      c.inQdrantPhase = true ∧ c'.inQdrantPhase = true ∧
      Arithmetic.le 1 (cosineSimilarity c.embedding c'.embedding) = false := by
  obtain ⟨s, hrun, hphase, hphase'⟩ :=
    ((stableSystem .alone 1).guard fun s a => s.OneCallEach a ∧ s.OwnEntries a).exists_exec
      sharedRun (fun s => s.acquires[0]?.any AcquireCall.inQdrantPhase = true ∧
        s.acquires[1]?.any AcquireCall.inQdrantPhase = true) (by decide +kernel)
  obtain ⟨c, hk, hc⟩ := (Option.any_eq_true _ _).mp hphase
  obtain ⟨c', hk', hc'⟩ := (Option.any_eq_true _ _).mp hphase'
  exact ⟨s, c, c', System.exec_of_guard hrun, hk, hk', hc, hc',
    mutual_exclusion .alone 1 _ s hrun 0 1 c c' hk hk' (by decide) hc hc'⟩

/-- Agent "a" gives up on its first vector when the apply thread is late, and leaves an
ACQUIRE and a RELEASE in the log. It is admitted with a second vector, and the two old
entries are applied to its new slot. Agent "b" is then admitted with the same vector. -/
def staleEntriesRun : List (Action Unit ℤ) :=
  List.flatten [[.acquireGuard ⟨"a", [1, 0], .write⟩ 0], List.replicate 5 (.acquire 0 {}),
    [.acquire 0 { timedOut := true }, .acquire 0 {}],
    [.acquireGuard ⟨"a", [0, 1], .write⟩ 0], List.replicate 5 (.acquire 1 {}),
    applyNext, applyNext,
    [.acquireGuard ⟨"b", [0, 1], .write⟩ 0], List.replicate 5 (.acquire 2 {}),
    applyNext, applyNext, [.acquire 1 {}, .acquire 2 {}]]

theorem sessions_overlap :
    ∃ s : DsccNode Unit ℤ,
      ((stableSystem .alone 1).guard OneCallEach).exec staleEntriesRun = some s ∧
      ∃ c ∈ s.acquires, ∃ c' ∈ s.acquires, c.agentId = "a" ∧ c'.agentId = "b" ∧
        c.inQdrantPhase = true ∧ c'.inQdrantPhase = true ∧
        Arithmetic.le 1 (cosineSimilarity c.embedding c'.embedding) = true :=
  System.exists_exec _ _ _ (by decide +kernel)

end DsccNode

end DistributedLock.Service
