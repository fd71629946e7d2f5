import DistributedLock.Service.Refinement
import DistributedLock.Service.Runs
import DistributedLock.Table.RealLocks

/-! What the leader-change sweep leaves behind. It releases the agents that have a slot
when it begins. The log of a new leader may hold ACQUIREs of earlier terms that have not
been applied by then: their callbacks run once an entry of the new term commits, and
nobody releases what they lock. When every such agent is in the snapshot, the RELEASEs of
the sweep come after all entries of earlier terms, and no lock of these is left. -/

namespace DistributedLock.Service

open Library Raft Table

variable {ι F : Type*}

namespace DsccNode

/-! ### The callbacks of a leader -/

/-- The entries whose callbacks have returned. -/
def appliedEntries (s : DsccNode ι F) : List (LogEntry F) := s.raft.applied.map Prod.snd

/-- The entries of all callbacks in order: those that have returned, the one in progress,
and those that the log still holds. -/
def script (s : DsccNode ι F) : List (LogEntry F) :=
  s.raft.calls.map Prod.snd ++ s.raft.node.log.drop (s.raft.node.lastApplied + 1)

/-- The entries whose callbacks have not returned. -/
def ahead (s : DsccNode ι F) : List (LogEntry F) := s.script.drop s.raft.applied.length

/-- The log reaches to what the apply thread has taken. -/
def LogHolds (s : DsccNode ι F) : Prop := s.raft.node.lastApplied < s.raft.node.log.length

instance (s : DsccNode ι F) : Decidable s.LogHolds := inferInstanceAs (Decidable (_ < _))

theorem appliedEntries_ahead (s : DsccNode ι F) : s.script = s.appliedEntries ++ s.ahead := by
  have htake : s.script.take s.raft.applied.length = s.appliedEntries := by
    obtain ⟨rest, hrest⟩ := ApplyOk.applied_isPrefix s.raft
    rw [script, ← hrest, List.map_append, List.append_assoc, appliedEntries]
    exact List.take_left' (List.length_map _)
  rw [← htake, ahead, List.take_append_drop]

theorem script_length {s : DsccNode ι F} (hok : ApplyOk s.raft) (hrun : s.raft.halted = false)
    (hlog : s.LogHolds) : s.script.length + 1 = s.raft.node.log.length := by
  have hcount := hok.count hrun
  unfold LogHolds at hlog
  rw [script, List.length_append, List.length_map, List.length_drop, hcount]
  omega

theorem LogHolds.append {s s' : DsccNode ι F} {e : LogEntry F} (h : s.LogHolds)
    (hlog : s'.raft.node.log = s.raft.node.log ++ [e]) (hcalls : s'.raft.calls = s.raft.calls)
    (hlast : s'.raft.node.lastApplied = s.raft.node.lastApplied) :
    s'.LogHolds ∧ s'.script = s.script ++ [e] := by
  unfold LogHolds script at *
  rw [hcalls, hlast, hlog, List.length_append, List.drop_append_of_le_length (by omega),
    List.append_assoc]
  exact ⟨by omega, rfl⟩

end DsccNode

open DsccNode

variable [DecidableEq ι] [Arithmetic F] {cfg : ServiceConfig ι F} {s s' : DsccNode ι F}
  {a : Action ι F}

/-- The script of a leader whose log holds what has been taken grows by entries of its
term, and the callbacks go along it. -/
theorem NodeStep.script (hstep : NodeStep cfg s a s') (hs : s.leads = true)
    (hs' : s'.leads = true) (hlog : s.LogHolds) :
    s'.LogHolds ∧ s.raft.node.lastApplied ≤ s'.raft.node.lastApplied ∧
      ∃ es, s'.script = s.script ++ es ∧ ∀ e ∈ es, e.term = s.raft.node.currentTerm := by
  have hrun' := (leads_iff.mp hs').2
  rcases hstep.apply.calls_cases with ⟨hcalls, hlast⟩ | ⟨-, -, hnode, e, he, hcalls⟩
  · obtain ⟨-, hlast⟩ := hlast hrun'
    cases hstep.reign hs hs' with
    | same hterm heq =>
      unfold DsccNode.script LogHolds at *
      rw [hcalls, hlast, heq]
      exact ⟨hlog, le_rfl, [], by simp, by simp⟩
    | append e he hterm heq =>
      obtain ⟨hlog', hscript⟩ := hlog.append heq hcalls hlast
      exact ⟨hlog', hlast.ge, [e], hscript, by simpa using he⟩
  · obtain ⟨hlt, he⟩ := List.getElem?_eq_some_iff.mp he
    unfold DsccNode.script LogHolds at *
    rw [hcalls, hnode]
    refine ⟨hlt, Nat.le_succ _, [], ?_, by simp⟩
    rw [List.drop_eq_getElem_cons hlt, he]
    simp

namespace DsccNode

/-! ### Locks of earlier terms -/

/-- An ACQUIRE of a term before `T`. -/
def Stale (T : ℕ) (e : LogEntry F) : Prop := e.opType = .acquire ∧ e.term < T

instance (T : ℕ) (e : LogEntry F) : Decidable (Stale T e) := inferInstanceAs (Decidable (_ ∧ _))

/-- An agent has a lock, and the last entry applied to it is an ACQUIRE of a term before
`T`. -/
def HoldsStale (T : ℕ) (s : DsccNode ι F) : Prop :=
  ∃ id, (s.table.active.find id).isSome ∧ ∃ e ∈ lastEntry s.appliedEntries id, Stale T e

omit [DecidableEq ι] [Arithmetic F] in
theorem not_stale {T : ℕ} {e : LogEntry F} (h : e.term = T) : ¬ Stale T e := fun hs => by
  have := hs.2
  omega

/-- The runs from a state on in which the node stays leader. -/
def leaderSystem (cfg : ServiceConfig ι F) (s₀ : DsccNode ι F) :
    System (DsccNode ι F) (Action ι F) where
  init := s₀
  step s a := (step cfg s a).filter leads

/-! ### When the sweep misses nothing -/

/-- `Propose` and `WaitUntilApplied` do not fail in this step of a sweep. -/
def succeeds (s : DsccNode ι F) (w : Sweep F) (x : Choice) : Bool :=
  match w.pc with
  | .awaitCommit index _ => pollCommit s.raft index x.timedOut ≠ some false
  | .awaitApplied index _ => pollApplied s.raft index x.timedOut ≠ some false
  | _ => true

/-- The log reaches as far as the apply thread. An ACQUIRE of an earlier term may still be
ahead only if the snapshot is not empty, and may be the last entry ahead about its agent
only if the snapshot has the agent. -/
def SnapshotComplete (s : DsccNode ι F) : Prop :=
  s.LogHolds ∧
    (∀ e ∈ s.ahead, Stale s.raft.node.currentTerm e → s.table.active.keys ≠ []) ∧
    ∀ e ∈ s.ahead, ∀ e' ∈ lastEntry s.ahead e.agentId,
      Stale s.raft.node.currentTerm e' → e.agentId ∈ s.table.active.keys

instance (s : DsccNode ι F) : Decidable s.SnapshotComplete :=
  inferInstanceAs (Decidable (_ ∧ (∀ e ∈ s.ahead, _) ∧ ∀ e ∈ s.ahead, _))

/-- The apply thread is not inside `on_commit_` for a RELEASE of the sweep. -/
def callbackReturned (p : Process ι F) (w : Sweep F) : Bool :=
  match p.phase with
  | .calling index _ => w.proposed.all fun q => q.1 ≠ index
  | _ => true

/-- The sweep takes a complete snapshot, and ends when its RELEASEs have been applied. -/
def seesAll (s : DsccNode ι F) (w : Sweep F) (_ : Choice) : Bool :=
  match w.pc with
  | .begin => s.SnapshotComplete
  | .finish => callbackReturned s.raft w
  | _ => true

/-- The step is not one of sweep `k`, or meets the check. -/
def sweepMeets (check : DsccNode ι F → Sweep F → Choice → Bool) (k : ℕ) (s : DsccNode ι F) :
    Action ι F → Bool
  | .sweep j x => j ≠ k ∨ s.sweeps[k]?.all fun w => check s w x
  | _ => true

/-! ### What a sweep has still to do -/

/-- No lock of an earlier term, and none to come. -/
structure Clean (T : ℕ) (s : DsccNode ι F) : Prop where
  logHolds : s.LogHolds
  applied : ∀ id, ∀ e ∈ lastEntry s.appliedEntries id, ¬ Stale T e
  ahead : ∀ e ∈ s.ahead, ¬ Stale T e

/-- The script begins with what the log held at the snapshot. An agent that this part
leaves with a lock of an earlier term is still to be released, or its RELEASE stands
behind that part. -/
structure Sweeping (T : ℕ) (s : DsccNode ι F) (proposed : List (ℕ × LogEntry F))
    (remaining : List String) (awaited : Option ℕ) : Prop where
  logHolds : s.LogHolds
  waited : ∀ q ∈ proposed, q.1 ≤ s.raft.node.lastApplied ∨ awaited = some q.1
  busy : proposed ≠ [] ∨ remaining ≠ []
  split : ∃ H R, s.script = H ++ R ∧ (∀ e ∈ R, e.term = T) ∧
    (∀ q ∈ proposed, H.length < q.1 ∧ s.script[q.1 - 1]? = some q.2) ∧
    ∀ id, ∀ e ∈ lastEntry H id, Stale T e → id ∈ remaining ∨ ∃ q ∈ proposed, q.2.agentId = id

/-- What the sweep has reached at each point. -/
def Progress (T : ℕ) (s : DsccNode ι F) (w : Sweep F) : Prop :=
  match w.pc with
  | .waiting _ | .begin => w.proposed = []
  | .checkLeader orphans => Sweeping T s w.proposed orphans none
  | .propose agentId orphans => Sweeping T s w.proposed (agentId :: orphans) none
  | .awaitCommit index orphans => Sweeping T s w.proposed orphans (some index)
  | .awaitApplied index orphans => Sweeping T s w.proposed orphans (some index)
  | .finish => Clean T s ∨ Sweeping T s w.proposed [] none
  | .done => Clean T s

end DsccNode

open DsccNode

/-! ### Steps of the other threads -/

variable {T : ℕ} {w w' : Sweep F} {k : ℕ}

theorem NodeStep.clean (hstep : NodeStep cfg s a s') (hs : s.leads = true)
    (hs' : s'.leads = true) (hterm : s.raft.node.currentTerm = T) (h : Clean T s) :
    Clean T s' := by
  obtain ⟨hlog, -, es, hscript, hes⟩ := hstep.script hs hs' h.logHolds
  obtain ⟨more, hmore⟩ := hstep.applied_isPrefix
  have happlied : s'.appliedEntries = s.appliedEntries ++ more.map Prod.snd := by
    rw [appliedEntries, ← hmore, List.map_append]
    rfl
  have hahead : more.map Prod.snd ++ s'.ahead = s.ahead ++ es := by
    rw [appliedEntries_ahead, appliedEntries_ahead s, happlied, List.append_assoc,
      List.append_assoc] at hscript
    exact List.append_cancel_left hscript
  have hfresh : ∀ e ∈ more.map Prod.snd ++ s'.ahead, ¬ Stale T e := by
    intro e he
    rw [hahead] at he
    rcases List.mem_append.mp he with he | he
    · exact h.ahead e he
    · exact not_stale ((hes e he).trans hterm)
  refine ⟨hlog, fun id e he => ?_, fun e he => hfresh e (List.mem_append_right _ he)⟩
  rw [happlied, lastEntry_append, Option.mem_def, Option.or_eq_some_iff] at he
  rcases he with he | ⟨-, he⟩
  · exact hfresh e (List.mem_append_left _ (mem_of_lastEntry he).1)
  · exact h.applied id e he

theorem NodeStep.sweeping (hstep : NodeStep cfg s a s') (hs : s.leads = true)
    (hs' : s'.leads = true) (hterm : s.raft.node.currentTerm = T)
    {proposed : List (ℕ × LogEntry F)} {remaining : List String} {awaited : Option ℕ}
    (h : Sweeping T s proposed remaining awaited) : Sweeping T s' proposed remaining awaited := by
  obtain ⟨hlog, hlast, es, hscript, hes⟩ := hstep.script hs hs' h.logHolds
  obtain ⟨H, R, hsplit, hR, htasks, hcovers⟩ := h.split
  refine ⟨hlog, fun q hq => (h.waited q hq).imp_left (le_trans · hlast), h.busy, H, R ++ es,
    by rw [hscript, hsplit, List.append_assoc], fun e he => ?_, fun q hq => ?_, hcovers⟩
  · rcases List.mem_append.mp he with he | he
    · exact hR e he
    · exact (hes e he).trans hterm
  · obtain ⟨hlt, hget⟩ := htasks q hq
    have hbound := (List.getElem?_eq_some_iff.mp hget).1
    exact ⟨hlt, by rw [hscript, List.getElem?_append_left hbound]; exact hget⟩

theorem NodeStep.progress (hstep : NodeStep cfg s a s') (hs : s.leads = true)
    (hs' : s'.leads = true) (hterm : s.raft.node.currentTerm = T) (h : Progress T s w) :
    Progress T s' w := by
  unfold Progress at *
  split at h
  · exact h
  · exact h
  · exact hstep.sweeping hs hs' hterm h
  · exact hstep.sweeping hs hs' hterm h
  · exact hstep.sweeping hs hs' hterm h
  · exact hstep.sweeping hs hs' hterm h
  · exact h.imp (hstep.clean hs hs' hterm) (hstep.sweeping hs hs' hterm)
  · exact hstep.clean hs hs' hterm h

/-- A sweep moves by its own steps only. -/
theorem NodeStep.sweeps_getElem? (hstep : NodeStep cfg s a s') (hk : s.sweeps[k]? = some w)
    (hne : ∀ x, a ≠ .sweep k x) : s'.sweeps[k]? = some w := by
  cases hstep with
  | finishElection sweeps hsweeps =>
    rw [List.getElem?_append_left (List.getElem?_eq_some_iff.mp hk).1]
    exact hk
  | sweep j x v p t v' hj hmove =>
    have hjk : j ≠ k := by
      rintro rfl
      exact hne x rfl
    rw [List.getElem?_set_ne hjk]
    exact hk
  | _ => exact hk

/-! ### Steps of the sweep -/

namespace DsccNode

/-- An agent whose last applied entry is an ACQUIRE has a lock. -/
theorem isSome_of_lastEntry {bs : List (Action ι F)} (h : (system cfg).exec bs = some s)
    {id : String} {e : LogEntry F} (he : e ∈ lastEntry s.appliedEntries id)
    (hop : e.opType = .acquire) : (s.table.active.find id).isSome := by
  obtain ⟨cs, r, hr, htracks⟩ := (simulates_replica cfg).exec h
  have hlast : lastEntry r.applied id = some e := by rw [htracks.applied]; exact he
  have hreal := Replica.realOk hr id e hlast hop
  unfold LockTable.Real LockTable.realLocks at hreal
  rw [htracks.table] at hreal
  exact Option.isSome_of_isSome_bind hreal

/-- A complete snapshot has every agent that the script of the moment leaves with a lock
of an earlier term. -/
theorem SnapshotComplete.mem_keys {bs : List (Action ι F)} (h : (system cfg).exec bs = some s)
    (hcomplete : s.SnapshotComplete) {id : String} {e : LogEntry F}
    (he : e ∈ lastEntry s.script id) (hstale : Stale s.raft.node.currentTerm e) :
    id ∈ s.table.active.keys := by
  rw [appliedEntries_ahead, lastEntry_append, Option.mem_def, Option.or_eq_some_iff] at he
  rcases he with he | ⟨-, he⟩
  · obtain ⟨hmem, rfl⟩ := mem_of_lastEntry he
    exact hcomplete.2.2 e hmem e he hstale
  · exact (s.table.active.mem_keys id).mpr (isSome_of_lastEntry h he hstale.1)

theorem SnapshotComplete.clean {bs : List (Action ι F)} (h : (system cfg).exec bs = some s)
    (hcomplete : s.SnapshotComplete) (hkeys : s.table.active.keys = []) :
    Clean s.raft.node.currentTerm s := by
  refine ⟨hcomplete.1, fun id e he hstale => ?_, fun e he hstale => ?_⟩
  · have hmem := (s.table.active.mem_keys id).mpr (isSome_of_lastEntry h he hstale.1)
    rw [hkeys] at hmem
    cases hmem
  · exact hcomplete.2.1 e he hstale hkeys

theorem SnapshotComplete.sweeping {bs : List (Action ι F)} (h : (system cfg).exec bs = some s)
    (hcomplete : s.SnapshotComplete) (hkeys : s.table.active.keys ≠ []) :
    Sweeping s.raft.node.currentTerm s [] s.table.active.keys none where
  logHolds := hcomplete.1
  waited q hq := by cases hq
  busy := Or.inr hkeys
  split := ⟨s.script, [], (List.append_nil _).symm, (fun e he => by cases he),
    (fun q hq => by cases hq), fun id e he hstale => Or.inl (hcomplete.mem_keys h he hstale)⟩

omit [DecidableEq ι] [Arithmetic F] in
/-- The RELEASE of the next agent is appended. -/
theorem Sweeping.propose (hok : ApplyOk s.raft) (hrun : s.raft.halted = false)
    {proposed : List (ℕ × LogEntry F)} {agentId : String} {orphans : List String}
    {e : LogEntry F} (h : Sweeping s.raft.node.currentTerm s proposed (agentId :: orphans) none)
    (hagent : e.agentId = agentId) (hterm : e.term = s.raft.node.currentTerm)
    (hgrow : s'.LogHolds ∧ s'.script = s.script ++ [e])
    (hlast : s'.raft.node.lastApplied = s.raft.node.lastApplied) :
    Sweeping s.raft.node.currentTerm s' (proposed ++ [(s.raft.node.log.length, e)]) orphans
      (some s.raft.node.log.length) := by
  have hlength := script_length hok hrun h.logHolds
  obtain ⟨hlog, hscript⟩ := hgrow
  obtain ⟨H, R, hsplit, hR, htasks, hcovers⟩ := h.split
  refine ⟨hlog, fun q hq => ?_, Or.inl (by simp), H, R ++ [e],
    by rw [hscript, hsplit, List.append_assoc], fun x hx => ?_, fun q hq => ?_,
    fun id x hx hstale => ?_⟩
  · rcases List.mem_append.mp hq with hq | hq
    · rw [hlast]
      exact (h.waited q hq).imp_right fun hnone => by cases hnone
    · rw [List.mem_singleton.mp hq]
      exact Or.inr rfl
  · rcases List.mem_append.mp hx with hx | hx
    · exact hR x hx
    · rw [List.mem_singleton.mp hx, hterm]
  · rw [hscript]
    rcases List.mem_append.mp hq with hq | hq
    · obtain ⟨hlt, hget⟩ := htasks q hq
      have hbound := (List.getElem?_eq_some_iff.mp hget).1
      exact ⟨hlt, by rw [List.getElem?_append_left hbound]; exact hget⟩
    · rw [List.mem_singleton.mp hq]
      refine ⟨?_, ?_⟩
      · have hle := congrArg List.length hsplit
        rw [List.length_append] at hle
        dsimp only
        omega
      · rw [← hlength, Nat.add_sub_cancel, List.getElem?_concat_length]
  · rcases hcovers id x hx hstale with hid | ⟨q, hq, hid⟩
    · rcases List.mem_cons.mp hid with rfl | hid
      · exact Or.inr ⟨_, List.mem_append_right _ (List.mem_singleton_self _), hagent⟩
      · exact Or.inl hid
    · exact Or.inr ⟨q, List.mem_append_left _ hq, hid⟩

omit [DecidableEq ι] [Arithmetic F] in
/-- Once all its RELEASEs have been applied, the sweep has left nothing. -/
theorem Sweeping.clean {proposed : List (ℕ × LogEntry F)} (h : Sweeping T s proposed [] none)
    (hreturned : ∀ q ∈ proposed, q.1 ≤ s.raft.applied.length) : Clean T s := by
  obtain ⟨H, R, hsplit, hR, htasks, hcovers⟩ := h.split
  -- the callbacks have gone past what the log held at the snapshot
  have hpast : H.length ≤ s.appliedEntries.length := by
    obtain ⟨q, hq⟩ := List.exists_mem_of_ne_nil _ (h.busy.resolve_right fun hne => hne rfl)
    have hlt := (htasks q hq).1
    have hle := hreturned q hq
    rw [appliedEntries, List.length_map]
    omega
  rw [appliedEntries_ahead] at hsplit
  obtain ⟨R', happlied, hrest⟩ : ∃ R', s.appliedEntries = H ++ R' ∧ R = R' ++ s.ahead := by
    rcases List.append_eq_append_iff.mp hsplit with ⟨xs, hH, hahead⟩ | ⟨xs, happlied, hR⟩
    · have hnil : xs = [] := by
        have := congrArg List.length hH
        rw [List.length_append] at this
        exact List.length_eq_zero_iff.mp (by omega)
      subst hnil
      exact ⟨[], by rw [hH]; simp, by simpa using hahead.symm⟩
    · exact ⟨xs, happlied, hR⟩
  refine ⟨h.logHolds, fun id e he hstale => ?_, fun e he => ?_⟩
  · rw [happlied, lastEntry_append, Option.mem_def, Option.or_eq_some_iff] at he
    rcases he with he | ⟨hnone, he⟩
    · exact not_stale (hR e (hrest ▸ List.mem_append_left _ (mem_of_lastEntry he).1)) hstale
    · -- its RELEASE stands behind that part and has been applied
      obtain ⟨q, hq, rfl⟩ := (hcovers id e he hstale).resolve_left (by simp)
      obtain ⟨hlt, hget⟩ := htasks q hq
      have hle := hreturned q hq
      have hlength : s.appliedEntries.length = s.raft.applied.length := List.length_map _
      rw [appliedEntries_ahead, List.getElem?_append_left (by omega), happlied,
        List.getElem?_append_right (by omega)] at hget
      obtain ⟨e', he'⟩ := exists_lastEntry (List.mem_of_getElem? hget)
      rw [hnone] at he'
      cases he'
  · exact not_stale (hR e (hrest ▸ List.mem_append_right _ he))

omit [DecidableEq ι] [Arithmetic F] in
/-- After the last wait only the callback of an awaited index can be in progress. -/
theorem Sweeping.returned (hok : ApplyOk s.raft) (hrun : s.raft.halted = false)
    (h : Sweeping T s w.proposed [] none) (hreturned : callbackReturned s.raft w = true) :
    ∀ q ∈ w.proposed, q.1 ≤ s.raft.applied.length := by
  intro q hq
  have hle := (h.waited q hq).resolve_right (by simp)
  have hpos : 1 ≤ q.1 := by
    obtain ⟨H, R, -, -, htasks, -⟩ := h.split
    have := (htasks q hq).1
    omega
  have hnot : ∀ e, s.raft.phase ≠ .calling q.1 e := by
    intro e hphase
    simp only [callbackReturned, hphase, List.all_eq_true] at hreturned
    simpa using hreturned q hq
  exact (hok.returned.mp ((hok.returned_iff hrun hle).mpr hnot q.1 hpos le_rfl)).2

omit [DecidableEq ι] [Arithmetic F] in
theorem Sweeping.waitOver {proposed : List (ℕ × LogEntry F)} {remaining : List String}
    {index : ℕ} (h : Sweeping T s proposed remaining (some index))
    (hindex : index ≤ s.raft.node.lastApplied) : Sweeping T s proposed remaining none where
  logHolds := h.logHolds
  waited q hq := by
    rcases h.waited q hq with hle | heq
    · exact Or.inl hle
    · exact Or.inl (Option.some.inj heq ▸ hindex)
  busy := h.busy
  split := h.split

theorem sweep_cases {x : Choice} (hk : s.sweeps[k]? = some w)
    (h : s.step cfg (.sweep k x) = some s') :
    ∃ p t w', w.step cfg.node s.raft s.table x = some (p, t, w') ∧
      s' = { s with raft := p, table := t, sweeps := s.sweeps.set k w' } := by
  unfold step at h
  split_ifs at h
  simp only [sweep, hk, Option.map_eq_some_iff] at h
  obtain ⟨⟨p, t, w'⟩, hw, rfl⟩ := h
  exact ⟨p, t, w', hw, rfl⟩

/-- A step of the sweep that meets the checks. -/
theorem sweep_progress {bs : List (Action ι F)} {x : Choice} (h : (system cfg).exec bs = some s)
    (hs : s.leads = true) (hs' : s'.leads = true) (hk : s.sweeps[k]? = some w)
    (hprogress : Progress s.raft.node.currentTerm s w) (hsucceeds : succeeds s w x = true)
    (hsees : seesAll s w x = true) (hstep : s.step cfg (.sweep k x) = some s') :
    ∃ w', s'.sweeps[k]? = some w' ∧ Progress s.raft.node.currentTerm s' w' := by
  obtain ⟨hlead, hrun⟩ := leads_iff.mp hs
  have hnode := (step_cases hstep).2
  have hok := applyOk h
  obtain ⟨p, t, w', hw, rfl⟩ := sweep_cases hk hstep
  refine ⟨w', List.getElem?_set_self (List.getElem?_eq_some_iff.mp hk).1, ?_⟩
  obtain ⟨pc, proposed⟩ := w
  cases pc with
  | waiting commitIndex =>
    simp only [Sweep.step] at hw
    split_ifs at hw
    · obtain ⟨rfl, rfl, rfl⟩ := hw
      exact hprogress
    · obtain ⟨ok, -, he⟩ := Option.map_eq_some_iff.mp hw
      obtain ⟨rfl, rfl, rfl⟩ := he
      exact hprogress
  | begin =>
    obtain ⟨rfl, rfl, rfl⟩ := hw
    obtain rfl : proposed = [] := hprogress
    have hcomplete : s.SnapshotComplete := of_decide_eq_true hsees
    by_cases hkeys : s.table.active.keys = []
    · rw [if_pos hkeys] at hnode hs' ⊢
      exact Or.inl (hnode.clean hs hs' rfl (hcomplete.clean h hkeys))
    · rw [if_neg hkeys] at hnode hs' ⊢
      exact hnode.sweeping hs hs' rfl (hcomplete.sweeping h hkeys)
  | checkLeader orphans =>
    cases orphans with
    | nil =>
      obtain ⟨rfl, rfl, rfl⟩ := hw
      exact Or.inr (hnode.sweeping hs hs' rfl hprogress)
    | cons agentId orphans =>
      simp only [Sweep.step, hlead, if_true] at hw
      obtain ⟨rfl, rfl, rfl⟩ := hw
      exact hnode.sweeping hs hs' rfl hprogress
  | propose agentId orphans =>
    have hsweeping : Sweeping s.raft.node.currentTerm s proposed (agentId :: orphans) none :=
      hprogress
    rcases beginPropose_cases cfg.node hrun (LogEntry.release agentId) with
      ⟨-, he⟩ | ⟨hnot, -⟩
    · simp only [Sweep.step, he] at hw
      obtain ⟨rfl, rfl, rfl⟩ := hw
      have hlast := (s.raft.node.appendStamped_frame cfg.node (.release agentId)).2.2.2.2.2.1
      refine hsweeping.propose hok hrun rfl rfl ?_ hlast
      exact hsweeping.logHolds.append (appended_log _ _ _) rfl hlast
    · exact absurd hlead hnot
  | awaitCommit index orphans =>
    simp only [Sweep.step, Option.map_eq_some_iff] at hw
    obtain ⟨ok, hok, he⟩ := hw
    obtain ⟨rfl, rfl, rfl⟩ := he
    have htrue : ok = true := by simpa [succeeds, hok] using hsucceeds
    subst htrue
    exact hnode.sweeping hs hs' rfl hprogress
  | awaitApplied index orphans =>
    simp only [Sweep.step, Option.map_eq_some_iff] at hw
    obtain ⟨ok, hok, he⟩ := hw
    obtain ⟨rfl, rfl, rfl⟩ := he
    have htrue : ok = true := by simpa [succeeds, hok] using hsucceeds
    subst htrue
    have happlied : index ≤ s.raft.node.lastApplied := by
      unfold pollApplied at hok
      split_ifs at hok with hwait
      · exact of_decide_eq_true hwait
      · cases hok
    exact (hnode.sweeping hs hs' rfl hprogress).waitOver happlied
  | finish =>
    obtain ⟨rfl, rfl, rfl⟩ := hw
    rcases hprogress with hclean | hsweeping
    · exact hnode.clean hs hs' rfl hclean
    · exact hnode.clean hs hs' rfl (hsweeping.clean (hsweeping.returned hok hrun hsees))
  | done => cases hw

/-- While the node leads and its sweep meets the checks, the sweep gets on. -/
theorem progress_run {as₀ as : List (Action ι F)} {s₀ : DsccNode ι F} {commitIndex : ℕ}
    (h₀ : (system cfg).exec as₀ = some s₀) (hleads : s₀.leads = true)
    (hwaiting : s₀.sweeps[k]? = some { pc := .waiting commitIndex })
    (h : ((leaderSystem cfg s₀).guard fun s a =>
      sweepMeets succeeds k s a ∧ sweepMeets seesAll k s a).exec as = some s) :
    ∃ w, s.sweeps[k]? = some w ∧ Progress s₀.raft.node.currentTerm s w := by
  have hrun := ((leaderSystem cfg s₀).guard fun s a =>
      sweepMeets succeeds k s a ∧ sweepMeets seesAll k s a).invariant
    (P := fun s => (∃ bs, (system cfg).exec bs = some s) ∧ s.leads = true ∧
      s.raft.node.currentTerm = s₀.raft.node.currentTerm ∧
      ∃ w, s.sweeps[k]? = some w ∧ Progress s₀.raft.node.currentTerm s w)
    ⟨⟨as₀, h₀⟩, hleads, rfl, _, hwaiting, rfl⟩ ?_ h
  · exact hrun.2.2.2
  · rintro s a s' ⟨⟨bs, hbs⟩, hs, hterm, w, hk, hprogress⟩ hstep
    obtain ⟨⟨hsucceeds, hsees⟩, hstep⟩ := System.guard_step.mp hstep
    obtain ⟨hstep, hs'⟩ := Option.filter_eq_some_iff.mp hstep
    have hnode := (step_cases hstep).2
    have hterm' : s'.raft.node.currentTerm = s₀.raft.node.currentTerm := by
      cases hnode.reign hs hs' with
      | same hsame => exact hsame.trans hterm
      | append e he hsame => exact hsame.trans hterm
    refine ⟨⟨bs ++ [a], (system cfg).exec_concat.mpr ⟨s, hbs, hstep⟩⟩, hs', hterm', ?_⟩
    by_cases ha : ∃ x, a = .sweep k x
    · obtain ⟨x, rfl⟩ := ha
      rw [← hterm] at hprogress ⊢
      exact sweep_progress hbs hs hs' hk hprogress (by simpa [sweepMeets, hk] using hsucceeds)
        (by simpa [sweepMeets, hk] using hsees) hstep
    · exact ⟨w, hnode.sweeps_getElem? hk fun x hx => ha ⟨x, hx⟩,
        hnode.progress hs hs' hterm hprogress⟩

/-- Once the sweep of a new leader has ended, no lock is of an earlier term as long as the
node leads, in the runs in which the sweep takes a complete snapshot and ends after the
callbacks of its RELEASEs. -/
theorem sweep_misses_none (cfg : ServiceConfig ι F) (as₀ as : List (Action ι F))
    (s₀ s : DsccNode ι F) (k commitIndex : ℕ) (h₀ : (system cfg).exec as₀ = some s₀)
    (hleads : s₀.leads = true) (hwaiting : s₀.sweeps[k]? = some { pc := .waiting commitIndex })
    (h : ((leaderSystem cfg s₀).guard fun s a =>
      sweepMeets succeeds k s a ∧ sweepMeets seesAll k s a).exec as = some s)
    (w : Sweep F) (hk : s.sweeps[k]? = some w) (hdone : w.pc = .done) :
    ¬ HoldsStale s₀.raft.node.currentTerm s := by
  obtain ⟨v, hv, hprogress⟩ := progress_run h₀ hleads hwaiting h
  rw [hk, Option.some.injEq] at hv
  subst hv
  have hclean : Clean s₀.raft.node.currentTerm s := by
    simpa [Progress, hdone] using hprogress
  rintro ⟨id, -, e, he, hstale⟩
  exact hclean.applied id e he hstale

end DsccNode

/-- The second of three nodes. -/
def ServiceConfig.second : ServiceConfig (Fin 3) ℤ where
  node := ClusterConfig.testNodes.node 1
  theta := 1

namespace DsccNode

/-- The leader of term 1 replicates an ACQUIRE of "a" and is lost; the node wins the next
election. -/
def inheritRun (leaderCommit : ℕ) (applied : List (Action (Fin 3) ℤ)) :
    List (Action (Fin 3) ℤ) :=
  List.flatten [[.raftEvent (.appendEntries ⟨1, "node-1", "127.0.0.1:37100", 0, 0,
      [⟨1, .acquire, "a", [1, 0], 1⟩], leaderCommit⟩)], applied,
    [.raftEvent .startElection, .raftEvent (.sendVoteRequest 0),
      .raftEvent (.receiveVote ⟨2, true⟩), .finishElection]]

/-- The sweep releases "a", whose ACQUIRE had been applied before the election. -/
def releasingRun : List (Action (Fin 3) ℤ) :=
  List.flatten [List.replicate 4 (.sweep 0 {}), [.raftEvent (.replicate 0),
    .raftEvent (.receiveAppend 0 2 ⟨2, true, 2, 0, 0⟩), .sweep 0 {}], applyNext,
    List.replicate 3 (.sweep 0 {})]

theorem sweep_misses_none_applied :
    ∃ s₀ s : DsccNode (Fin 3) ℤ, (system .second).exec (inheritRun 1 applyNext) = some s₀ ∧
      HoldsStale s₀.raft.node.currentTerm s₀ ∧
      (leaderSystem .second s₀).exec releasingRun = some s ∧
      ¬ HoldsStale s₀.raft.node.currentTerm s := by
  obtain ⟨s₀, hrun₀, ⟨hleads, hwaiting⟩, ⟨hlock, hlast⟩, hrest⟩ := (system .second).exists_exec
    (inheritRun 1 applyNext)
    (fun s₀ => (s₀.leads = true ∧ s₀.sweeps[0]? = some { pc := .waiting 1 }) ∧
      ((s₀.table.active.find "a").isSome ∧
        (lastEntry s₀.appliedEntries "a").any fun e => Stale s₀.raft.node.currentTerm e) ∧
      (((leaderSystem .second s₀).guard fun s a =>
        sweepMeets succeeds 0 s a ∧ sweepMeets seesAll 0 s a).exec releasingRun).any fun s =>
          s.sweeps[0]?.any fun w => w.pc = .done)
    (by decide +kernel)
  obtain ⟨e, he, hstale⟩ := (Option.any_eq_true _ _).mp hlast
  obtain ⟨s, hrun, hs⟩ := (Option.any_eq_true _ _).mp hrest
  obtain ⟨w, hk, hdone⟩ := (Option.any_eq_true _ _).mp hs
  exact ⟨s₀, s, hrun₀, ⟨"a", hlock, e, he, of_decide_eq_true hstale⟩, System.exec_of_guard hrun,
    sweep_misses_none .second _ _ s₀ s 0 1 hrun₀ hleads hwaiting hrun w hk
      (of_decide_eq_true hdone)⟩

/-- The snapshot is empty; then an entry of the new term commits. -/
def lateAcquireRun : List (Action (Fin 3) ℤ) :=
  List.flatten [List.replicate 3 (.sweep 0 {}), [.acquireGuard ⟨"b", [0, 1], .write⟩ 0],
    List.replicate 4 (.acquire 0 {}), [.raftEvent (.replicate 0),
      .raftEvent (.receiveAppend 0 2 ⟨2, true, 2, 0, 0⟩), .raftEvent .applyTake,
      .onCommit .newest]]

theorem orphan_missed :
    ∃ s₀ s : DsccNode (Fin 3) ℤ, (system .second).exec (inheritRun 0 []) = some s₀ ∧
      s₀.leads = true ∧ s₀.sweeps[0]? = some { pc := .waiting 0 } ∧
      ((leaderSystem .second s₀).guard fun s a => sweepMeets succeeds 0 s a).exec
        lateAcquireRun = some s ∧
      s.sweeps[0]? = some { pc := .done } ∧ HoldsStale s₀.raft.node.currentTerm s := by
  obtain ⟨s₀, hrun₀, hleads, hwaiting, hrest⟩ := (system .second).exists_exec (inheritRun 0 [])
    (fun s₀ => s₀.leads = true ∧ s₀.sweeps[0]? = some { pc := .waiting 0 } ∧
      (((leaderSystem .second s₀).guard fun s a => sweepMeets succeeds 0 s a).exec
        lateAcquireRun).any fun s => s.sweeps[0]? = some { pc := .done } ∧
          (s.table.active.find "a").isSome ∧
          (lastEntry s.appliedEntries "a").any fun e => Stale s₀.raft.node.currentTerm e)
    (by decide +kernel)
  obtain ⟨s, hrun, hs⟩ := (Option.any_eq_true _ _).mp hrest
  obtain ⟨hdone, hlock, hlast⟩ := of_decide_eq_true hs
  obtain ⟨e, he, hstale⟩ := (Option.any_eq_true _ _).mp hlast
  exact ⟨s₀, s, hrun₀, hleads, hwaiting, hrun, hdone, "a", hlock, e, he, of_decide_eq_true hstale⟩

end DsccNode

end DistributedLock.Service
