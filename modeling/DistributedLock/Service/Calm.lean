import DistributedLock.Library.Timeline
import DistributedLock.Service.MutualExclusion
import DistributedLock.Table.Apart

/-! The runs of a stable leader in which every agent calls once, no wait of a call times
out and Qdrant does what it is asked. Unless somebody else releases a session, every slot
belongs to a call, any two slots are apart, and an ACQUIRE entry finds the slot of its
agent in place. -/

namespace DistributedLock.Service

open Library Raft Table

variable {ι F : Type*}

/-! ### What a call has done -/

namespace AcquireCall

/-- The call is on the path on which nothing goes wrong. -/
def regular (c : AcquireCall F) : Bool :=
  match c.pc with
  | .redirect | .removePending | .compensate _ => false
  | .proposeRelease attempt | .awaitReleaseCommit attempt _ => attempt = .regular
  | .awaitReleaseApplied attempt _ | .released attempt => attempt = .regular
  | _ => true

/-- The call has proposed its ACQUIRE, which may be at index `m`: it waits for the index,
or the apply thread has taken it. -/
def proposed (c : AcquireCall F) (lastApplied m : ℕ) : Bool :=
  match c.pc with
  | .awaitAcquireCommit index | .awaitAcquireApplied index => m = index
  | .qdrant | .proposeRelease _ | .awaitReleaseCommit _ _ => m ≤ lastApplied
  | .awaitReleaseApplied _ _ | .released _ | .returned _ => m ≤ lastApplied
  | _ => false

/-- The call has proposed its RELEASE, or has returned. -/
def hasReleased (c : AcquireCall F) : Bool :=
  match c.pc with
  | .awaitReleaseCommit _ _ | .awaitReleaseApplied _ _ | .released _ | .returned _ => true
  | _ => false

/-- The call has read the clock for `lock_acquired_unix_ms`, and has yet to read it for
`lock_released_unix_ms`. -/
def holdsReport (c : AcquireCall F) : Bool :=
  match c.pc with
  | .proposeAcquire | .awaitAcquireCommit _ | .awaitAcquireApplied _ | .qdrant => true
  | .proposeRelease _ | .awaitReleaseCommit _ _ | .awaitReleaseApplied _ _ | .released _ => true
  | _ => false

/-- The span that the response reports, or will report. -/
def span (c : AcquireCall F) : Option (Span (List F) ℤ) :=
  if c.response.granted then
    some { value := c.embedding, start := c.response.lockAcquiredUnixMs,
           stop := some c.response.lockReleasedUnixMs }
  else if c.holdsReport then
    some { value := c.embedding, start := c.response.lockAcquiredUnixMs, stop := none }
  else none

theorem arrive_path [Zero F] (cfg : ServiceConfig ι F) (request : AcquireRequest F) (now : ℤ) :
    (arrive cfg request now).regular = true ∧
      ((arrive cfg request now).isOpen = true →
        (arrive cfg request now).response.granted = false) := by
  unfold arrive
  dsimp only
  split_ifs <;> exact ⟨rfl, fun _ => rfl⟩

theorem proposed_mono {c : AcquireCall F} {last last' m : ℕ} (hle : last ≤ last')
    (h : c.proposed last m = true) : c.proposed last' m = true := by
  unfold proposed at h ⊢
  split at h <;> simp_all
  all_goals omega

theorem not_holdsSlot_of_hasReleased {c : AcquireCall F} (t : LockTable F)
    (h : c.hasReleased = true) : c.holdsSlot t = false := by
  unfold hasReleased at h
  unfold holdsSlot inSession
  split at h
  all_goals simp_all

/-- A call whose ACQUIRE the apply thread has yet to take holds its slot. -/
theorem holdsSlot_of_proposed {c : AcquireCall F} {last m : ℕ} (t : LockTable F)
    (h : c.proposed last m = true) (hlt : last < m) : c.holdsSlot t = true := by
  unfold proposed at h
  unfold holdsSlot inSession
  split at h
  all_goals simp_all
  all_goals omega

end AcquireCall

section Moves

variable [Arithmetic F]

/-- The steps of a call in a run in which nothing goes wrong. -/
inductive CalmMove (cfg : ServiceConfig ι F) (p : Process ι F) (t : LockTable F)
    (c : AcquireCall F) (x : Choice) : Process ι F → LockTable F → AcquireCall F → Prop
  | stay (c' : AcquireCall F) (hrequest : c'.request = c.request) (hregular : c'.regular = true)
    (hgranted : c'.response.granted = c.response.granted) (hspan : c'.span = c.span)
    (hproposed : ∀ m, c.proposed p.node.lastApplied m = true →
      c'.proposed p.node.lastApplied m = true)
    (hreleased : c.hasReleased = true → c'.hasReleased = true) : CalmMove cfg p t c x p t c'
  | wait (layout : Layout String) (a a' : Admission F) (t' : LockTable F)
    (hpc : c.pc = .admission a)
    (hwait : t.waitForAdmission layout (c.demand cfg.theta) a = some (t', a')) :
    CalmMove cfg p t c x p t' { c with pc := .admission a' }
  | record (trace : AcquireTrace F) (count : ℕ) (hpc : c.pc = .admission (.returned trace)) :
    CalmMove cfg p t c x p t (c.recordAdmission trace count x.now)
  | appendAcquire (hpc : c.pc = .proposeAcquire) :
    CalmMove cfg p t c x (appended cfg.node p (c.acquireEntry cfg)) t
      { c with pc := .awaitAcquireCommit p.node.log.length }
  | appendRelease (index : ℕ) (hpc : c.pc = .proposeRelease .regular) :
    CalmMove cfg p t c x (appended cfg.node p (.release c.agentId)) t
      { c with pc := .awaitReleaseCommit .regular index }
  | finish (hpc : c.pc = .released .regular) :
    CalmMove cfg p t c x p t (c.releaseDone .regular x.now)

omit [Arithmetic F] in
theorem pollCommit_eq_true {p : Process ι F} {index : ℕ} {ok : Bool}
    (hlead : p.node.state = .leader) (h : pollCommit p index false = some ok) : ok = true := by
  unfold pollCommit at h
  split_ifs at h with h1 h2
  · exact (Option.some.inj h).symm
  · simp [hlead] at h2

omit [Arithmetic F] in
theorem pollApplied_eq_true {p : Process ι F} {index : ℕ} {ok : Bool}
    (h : pollApplied p index false = some ok) : ok = true ∧ index ≤ p.node.lastApplied := by
  unfold pollApplied at h
  split_ifs at h with hwait
  · exact ⟨(Option.some.inj h).symm, of_decide_eq_true hwait⟩
  · contradiction

theorem AcquireCall.calm_step {cfg : ServiceConfig ι F} {p p' : Process ι F} {t t' : LockTable F}
    {c c' : AcquireCall F} {x : Choice} (hrun : p.halted = false) (hlead : p.node.state = .leader)
    (hregular : c.regular = true) (htime : x.timedOut = false) (hqdrant : x.qdrantOk = true)
    (h : c.step cfg p t x = some (p', t', c')) : CalmMove cfg p t c x p' t' c' := by
  unfold step at h
  cases hpc : c.pc with
  | checkLeader =>
    simp only [hpc, hlead, if_true] at h
    obtain ⟨rfl, rfl, rfl⟩ := h
    exact .stay _ rfl rfl rfl (by simp [span, holdsReport, hpc, embedding])
      (by simp [proposed, hpc]) (by simp [hasReleased, hpc])
  | admission a =>
    cases a with
    | returned trace =>
      simp only [hpc] at h
      obtain ⟨rfl, rfl, rfl⟩ := h
      exact .record trace _ hpc
    | gate =>
      simp only [hpc, Option.map_eq_some_iff] at h
      obtain ⟨⟨t₁, a'⟩, hwait, he⟩ := h
      obtain ⟨rfl, rfl, rfl⟩ := he
      exact .wait x.layout _ _ _ hpc hwait
    | asleep w trace =>
      simp only [hpc, Option.map_eq_some_iff] at h
      obtain ⟨⟨t₁, a'⟩, hwait, he⟩ := h
      obtain ⟨rfl, rfl, rfl⟩ := he
      exact .wait x.layout _ _ _ hpc hwait
  | proposeAcquire =>
    simp only [hpc] at h
    rcases beginPropose_cases cfg.node hrun (c.acquireEntry cfg) with ⟨-, he⟩ | ⟨hno, -⟩
    · rw [he] at h
      obtain ⟨rfl, rfl, rfl⟩ := h
      exact .appendAcquire hpc
    · exact absurd hlead hno
  | awaitAcquireCommit index =>
    simp only [hpc, htime, Option.map_eq_some_iff] at h
    obtain ⟨ok, hok, he⟩ := h
    obtain ⟨rfl, rfl, rfl⟩ := he
    rw [pollCommit_eq_true hlead hok]
    exact .stay _ rfl rfl rfl (by simp [span, holdsReport, hpc, embedding])
      (by simp [proposed, hpc]) (by simp [hasReleased, hpc])
  | awaitAcquireApplied index =>
    simp only [hpc, htime, Option.map_eq_some_iff] at h
    obtain ⟨ok, hok, he⟩ := h
    obtain ⟨rfl, rfl, rfl⟩ := he
    obtain ⟨rfl, hlast⟩ := pollApplied_eq_true hok
    exact .stay _ rfl rfl rfl (by simp [span, holdsReport, hpc, embedding])
      (by simpa [proposed, hpc] using hlast) (by simp [hasReleased, hpc])
  | qdrant =>
    simp only [hpc, hqdrant] at h
    obtain ⟨rfl, rfl, rfl⟩ := h
    exact .stay _ rfl rfl rfl (by simp [span, holdsReport, hpc, embedding, qdrantReturned])
      (by simp [proposed, hpc, qdrantReturned]) (by simp [hasReleased, hpc])
  | proposeRelease attempt =>
    simp only [regular, hpc, decide_eq_true_eq] at hregular
    subst hregular
    simp only [hpc] at h
    rcases beginPropose_cases cfg.node hrun (LogEntry.release c.agentId) with ⟨-, he⟩ | ⟨hno, -⟩
    · rw [he] at h
      obtain ⟨rfl, rfl, rfl⟩ := h
      exact .appendRelease _ hpc
    · exact absurd hlead hno
  | awaitReleaseCommit attempt index =>
    simp only [regular, hpc, decide_eq_true_eq] at hregular
    subst hregular
    simp only [hpc, htime, Option.map_eq_some_iff] at h
    obtain ⟨ok, hok, he⟩ := h
    obtain ⟨rfl, rfl, rfl⟩ := he
    rw [pollCommit_eq_true hlead hok]
    exact .stay _ rfl rfl rfl (by simp [span, holdsReport, hpc, embedding])
      (by simp [proposed, hpc]) (by simp [hasReleased, hpc])
  | awaitReleaseApplied attempt index =>
    simp only [regular, hpc, decide_eq_true_eq] at hregular
    subst hregular
    simp only [hpc, htime, Option.map_eq_some_iff] at h
    obtain ⟨ok, hok, he⟩ := h
    obtain ⟨rfl, rfl, rfl⟩ := he
    rw [(pollApplied_eq_true hok).1]
    exact .stay _ rfl rfl rfl (by simp [span, holdsReport, hpc, embedding])
      (by simp [proposed, hpc]) (by simp [hasReleased, hpc])
  | released attempt =>
    simp only [regular, hpc, decide_eq_true_eq] at hregular
    subst hregular
    simp only [hpc] at h
    obtain ⟨rfl, rfl, rfl⟩ := h
    exact .finish hpc
  | returned status => simp [hpc] at h
  | redirect => simp [regular, hpc] at hregular
  | removePending => simp [regular, hpc] at hregular
  | compensate message => simp [regular, hpc] at hregular

/-- A calm step keeps the request and the path, and grants nothing before the end. -/
theorem CalmMove.call {cfg : ServiceConfig ι F} {p p' : Process ι F} {t t' : LockTable F}
    {c c' : AcquireCall F} {x : Choice} (h : CalmMove cfg p t c x p' t' c') :
    c'.request = c.request ∧ c'.regular = true ∧
      (c'.isOpen = true → c'.response.granted = c.response.granted) := by
  cases h with
  | stay c' hrequest hregular hgranted => exact ⟨hrequest, hregular, fun _ => hgranted⟩
  | wait | record | appendAcquire | appendRelease => exact ⟨rfl, rfl, fun _ => rfl⟩
  | finish =>
    refine ⟨rfl, rfl, fun hopen => ?_⟩
    simp [AcquireCall.releaseDone, AcquireCall.isOpen] at hopen

end Moves

/-! ### What is kept -/

namespace DsccNode

/-- An agent has asked for the vector. -/
def Asked (s : DsccNode ι F) (id : String) (x : List F) : Prop :=
  ∃ c ∈ s.acquires, c.agentId = id ∧ c.embedding = x

/-- Every agent calls `AcquireGuard` once, and its waits and its Qdrant operation go well. -/
def Calm (s : DsccNode ι F) : Action ι F → Prop
  | .acquireGuard request _ => ∀ c ∈ s.acquires, c.agentId ≠ request.agentId
  | .acquire _ x => x.timedOut = false ∧ x.qdrantOk = true
  | _ => True

instance (s : DsccNode ι F) : (a : Action ι F) → Decidable (s.Calm a)
  | .acquireGuard request _ =>
    inferInstanceAs (Decidable (∀ c ∈ s.acquires, c.agentId ≠ request.agentId))
  | .acquire _ x => inferInstanceAs (Decidable (x.timedOut = false ∧ x.qdrantOk = true))
  | .raftEvent _ | .finishElection | .onCommit _ | .releaseGuard _ | .release _ _ | .sweep _ _ =>
    isTrue trivial

/-- No RELEASE is applied to the slot of a call that has yet to propose its own: a call of
`ReleaseGuard` or a sweep may have proposed one. -/
def OwnReleases (s : DsccNode ι F) : Action ι F → Prop
  | .onCommit _ => ∀ e ∈ s.calling, e.opType = .release → ∀ c ∈ s.acquires,
    c.agentId = e.agentId → c.holdsSlot s.table = false
  | _ => True

instance (s : DsccNode ι F) : (a : Action ι F) → Decidable (s.OwnReleases a)
  | .onCommit _ =>
    inferInstanceAs (Decidable (∀ e ∈ s.calling, e.opType = .release → ∀ c ∈ s.acquires,
      c.agentId = e.agentId → c.holdsSlot s.table = false))
  | .raftEvent _ | .finishElection | .acquireGuard _ _ | .releaseGuard _ | .acquire _ _
  | .release _ _ | .sweep _ _ => isTrue trivial

variable [Arithmetic F]

structure CalmInv (theta : F) (s : DsccNode ι F) : Prop where
  stable : StableInv s
  waiters : WaitersOk s.table [] (s.sleeps theta)
  slot : SlotInv theta s
  single : ∀ (k k' : ℕ) c c', s.acquires[k]? = some c → s.acquires[k']? = some c' →
    c.agentId = c'.agentId → k = k'
  path : ∀ c ∈ s.acquires, c.regular = true ∧ (c.isOpen = true → c.response.granted = false)
  placed : ∀ (m : ℕ) e, 1 ≤ m → s.raft.node.log[m]? = some e → e.opType = .acquire →
    ∃ c ∈ s.acquires, c.agentId = e.agentId ∧ c.proposed s.raft.node.lastApplied m = true
  apart : Apart theta s.Asked s.unapplied s.table.slots

namespace CalmInv

variable {cfg : ServiceConfig ι F} {s s' : DsccNode ι F} {theta : F} {a : Action ι F}

theorem once (h : CalmInv theta s) (id : String) (x y : List F) (hx : s.Asked id x)
    (hy : s.Asked id y) : x = y := by
  obtain ⟨c, hc, hagent, rfl⟩ := hx
  obtain ⟨c', hc', hagent', rfl⟩ := hy
  obtain ⟨k, hk⟩ := List.mem_iff_getElem?.mp hc
  obtain ⟨k', hk'⟩ := List.mem_iff_getElem?.mp hc'
  obtain rfl := h.single k k' c c' hk hk' (hagent.trans hagent'.symm)
  rw [hk, Option.some.injEq] at hk'
  rw [hk']

omit [Arithmetic F] in
theorem asked_of_sleeps (k w : ℕ) (d : Demand F) (hk : s.sleeps theta k = some (w, d)) :
    s.Asked d.agentId d.embedding ∧ d.threshold = theta := by
  obtain ⟨c, hc, hsleep⟩ := Option.bind_eq_some_iff.mp hk
  obtain ⟨-, rfl⟩ := AcquireCall.sleeping_eq_some hsleep
  exact ⟨⟨c, List.mem_of_getElem? hc, rfl, rfl⟩, rfl⟩

/-- The entry at hand, and those behind it. -/
theorem unapplied_cons (h : CalmInv theta s) {m : ℕ} {e : LogEntry F}
    (hphase : s.raft.phase = .calling m e) :
    s.unapplied = e :: s.raft.node.log.drop (s.raft.applied.length + 2) := by
  let s' : DsccNode ι F :=
    { s with raft := { s.raft with phase := .returned, applied := s.raft.applied ++ [(m, e)] } }
  have hcons : s.unapplied = e :: s'.unapplied := h.stable.unapplied_calling hphase rfl rfl
  rw [hcons]
  simp [unapplied, s']

variable (cfg) in
theorem unapplied_appended (h : CalmInv theta s) {e : LogEntry F}
    (hraft : s'.raft = appended cfg.node s.raft e) :
    s'.unapplied = s.unapplied ++ [{ e with term := s.raft.node.currentTerm }] :=
  h.stable.unapplied_append (by rw [hraft]; exact appended_log cfg.node s.raft e)
    (by rw [hraft]; rfl)

/-- The last index that the apply thread has taken is that of the entry at hand. -/
theorem lastApplied_calling (h : CalmInv theta s) {m : ℕ} {e : LogEntry F}
    (hphase : s.raft.phase = .calling m e) :
    s.raft.node.lastApplied = s.raft.applied.length + 1 := by
  rw [← h.stable.apply.count (leads_iff.mp h.stable.leads).2]
  simp [Process.calls, hphase]

theorem ownEntries (h : CalmInv theta s) (hown : s.OwnReleases a) : s.OwnEntries a := by
  cases a with
  | onCommit layout =>
    intro e he c hc hholds hagent
    have hphase : ∃ m, s.raft.phase = .calling m e := by
      simp only [calling] at he
      split at he
      · rename_i m e' hphase
        obtain rfl := Option.some.inj he
        exact ⟨m, hphase⟩
      · cases he
    obtain ⟨m, hphase⟩ := hphase
    cases hop : e.opType with
    | acquire =>
      have hmem : e ∈ s.unapplied := by
        rw [h.unapplied_cons hphase]
        exact List.mem_cons_self
      have hslot := h.apart.promoted e hmem hop
      exact ⟨rfl, h.once e.agentId _ _ (h.apart.owner _ _ hslot) ⟨c, hc, hagent, rfl⟩⟩
    | release =>
      rw [hown e he hop c hc hagent] at hholds
      cases hholds
  | _ => trivial

/-- No ACQUIRE stands behind the RELEASE of its agent. -/
theorem released (h : CalmInv theta s) {layout : Layout String} {m : ℕ} {e : LogEntry F}
    (hown : s.OwnReleases (.onCommit layout : Action ι F)) (hphase : s.raft.phase = .calling m e)
    (hop : e.opType = .release) (e' : LogEntry F)
    (he' : e' ∈ s.raft.node.log.drop (s.raft.applied.length + 2)) (hop' : e'.opType = .acquire) :
    e'.agentId ≠ e.agentId := by
  obtain ⟨j, hj⟩ := List.mem_iff_getElem?.mp he'
  rw [List.getElem?_drop] at hj
  obtain ⟨c, hc, hagent, hproposed⟩ := h.placed _ e' (by omega) hj hop'
  have hlast := h.lastApplied_calling hphase
  have hholds := AcquireCall.holdsSlot_of_proposed s.table hproposed (by omega)
  intro heq
  rw [hown e (by simp [calling, hphase]) hop c hc (hagent.trans heq)] at hholds
  cases hholds

/-- Steps that leave the calls alone, and append no ACQUIRE. -/
theorem of_same (h : CalmInv theta s) (hstable : StableInv s')
    (hwaiters : WaitersOk s'.table [] (s'.sleeps theta)) (hslot : SlotInv theta s')
    (hcalls : s'.acquires = s.acquires)
    (hlast : s.raft.node.lastApplied ≤ s'.raft.node.lastApplied)
    (hlog : ∀ (m : ℕ) (e : LogEntry F), s'.raft.node.log[m]? = some e → e.opType = .acquire →
      s.raft.node.log[m]? = some e)
    (hapart : Apart theta s.Asked s'.unapplied s'.table.slots) : CalmInv theta s' := by
  refine ⟨hstable, hwaiters, hslot, hcalls ▸ h.single, hcalls ▸ h.path, fun m e hm he hop => ?_, ?_⟩
  · obtain ⟨c, hc, hagent, hproposed⟩ := h.placed m e hm (hlog m e he hop) hop
    exact ⟨c, hcalls ▸ hc, hagent, AcquireCall.proposed_mono hlast hproposed⟩
  · refine hapart.mono (fun id x hx => ?_) fun e he _ => he
    obtain ⟨c, hc, hx⟩ := hx
    exact ⟨c, hcalls ▸ hc, hx⟩

/-- A call moves on along its path. -/
theorem of_set (h : CalmInv theta s) (hstable : StableInv s')
    (hwaiters : WaitersOk s'.table [] (s'.sleeps theta)) (hslot : SlotInv theta s')
    {k : ℕ} {c c' : AcquireCall F} (hk : s.acquires[k]? = some c) (hopen : c.isOpen = true)
    (hcalls : s'.acquires = s.acquires.set k c')
    (hcall : c'.request = c.request ∧ c'.regular = true ∧
      (c'.isOpen = true → c'.response.granted = c.response.granted))
    (hlast : s'.raft.node.lastApplied = s.raft.node.lastApplied)
    (hproposed : ∀ m, c.proposed s.raft.node.lastApplied m = true →
      c'.proposed s.raft.node.lastApplied m = true)
    (hlog : ∀ (m : ℕ) (e : LogEntry F), s'.raft.node.log[m]? = some e → e.opType = .acquire →
      s.raft.node.log[m]? = some e ∨
        (c.agentId = e.agentId ∧ c'.proposed s.raft.node.lastApplied m = true))
    (hapart : Apart theta s.Asked s'.unapplied s'.table.slots) : CalmInv theta s' := by
  obtain ⟨hrequest, hregular, hgranted⟩ := hcall
  have hsame : c'.agentId = c.agentId := by rw [AcquireCall.agentId, hrequest]; rfl
  have hmem := List.mem_of_getElem? hk
  have hnew : c' ∈ s'.acquires :=
    hcalls ▸ List.mem_set (List.getElem?_eq_some_iff.mp hk).1 c'
  refine ⟨hstable, hwaiters, hslot, fun j j' c₁ c₂ hj hj' hagent => ?_, fun d hd => ?_,
    fun m e hm he hop => ?_, ?_⟩
  · rw [hcalls] at hj hj'
    exact keyed_set (p := fun _ => True) (fun j j' x y hx hy _ _ => h.single j j' x y hx hy) hk
      trivial hsame j j' c₁ c₂ hj hj' trivial trivial hagent
  · rw [hcalls] at hd
    obtain ⟨j, hj⟩ := List.mem_iff_getElem?.mp hd
    rcases getElem?_of_set hj with ⟨rfl, rfl⟩ | ⟨-, hold⟩
    · exact ⟨hregular, fun hopen' => (hgranted hopen').trans ((h.path c hmem).2 hopen)⟩
    · exact h.path d (List.mem_of_getElem? hold)
  · rw [hlast]
    rcases hlog m e he hop with hold | ⟨hagent, hplaced⟩
    · obtain ⟨d, hd, hagent, hplaced⟩ := h.placed m e hm hold hop
      by_cases hdc : d = c
      · exact ⟨c', hnew, by rw [hsame, ← hdc]; exact hagent, hproposed m (hdc ▸ hplaced)⟩
      · exact ⟨d, hcalls ▸ mem_set_of_ne hd hk hdc, hagent, hplaced⟩
    · exact ⟨c', hnew, hsame.trans hagent, hplaced⟩
  · refine hapart.mono (fun id x hx => ?_) fun e he _ => he
    obtain ⟨d, hd, hagent, hemb⟩ := hx
    by_cases hdc : d = c
    · rw [hdc] at hagent hemb
      exact ⟨c', hnew, hsame.trans hagent, by rw [AcquireCall.embedding, hrequest]; exact hemb⟩
    · exact ⟨d, hcalls ▸ mem_set_of_ne hd hk hdc, hagent, hemb⟩

/-- A new agent calls. -/
theorem arrive (h : CalmInv theta s) (hstable : StableInv s')
    (hwaiters : WaitersOk s'.table [] (s'.sleeps theta)) (hslot : SlotInv theta s')
    {request : AcquireRequest F} {now : ℤ}
    (hs : s' = { s with acquires := s.acquires ++ [AcquireCall.arrive cfg request now] })
    (hnew : ∀ c ∈ s.acquires, c.agentId ≠ request.agentId) : CalmInv theta s' := by
  subst hs
  have hagent := AcquireCall.arrive_agentId cfg request now
  have hold : ∀ c ∈ s.acquires, c ∈ s.acquires ++ [AcquireCall.arrive cfg request now] :=
    fun c hc => List.mem_append_left _ hc
  refine ⟨hstable, hwaiters, hslot, fun k k' c c' hk hk' hsame => ?_, fun c hc => ?_,
    fun m e hm he hop => ?_, ?_⟩
  · exact keyed_concat (p := fun _ => True) (fun j j' x y hx hy _ _ => h.single j j' x y hx hy)
      (fun x hx _ => hagent ▸ hnew x hx) k k' c c' hk hk' trivial trivial hsame
  · rcases List.mem_append.mp hc with hc | hc
    · exact h.path c hc
    · rw [List.mem_singleton.mp hc]
      exact AcquireCall.arrive_path cfg request now
  · obtain ⟨c, hc, hplaced⟩ := h.placed m e hm he hop
    exact ⟨c, hold c hc, hplaced⟩
  · refine h.apart.mono (fun id x hx => ?_) fun e he _ => he
    obtain ⟨c, hc, hx⟩ := hx
    exact ⟨c, hold c hc, hx⟩

variable (cfg) in
/-- Other threads write RELEASE entries only. -/
theorem of_release (h : CalmInv theta s) (hstable : StableInv s')
    (hwaiters : WaitersOk s'.table [] (s'.sleeps theta)) (hslot : SlotInv theta s')
    (hcalls : s'.acquires = s.acquires) (hslots : s'.table.slots = s.table.slots)
    (hraft : s'.raft = s.raft ∨ ∃ id, s'.raft = appended cfg.node s.raft (.release id)) :
    CalmInv theta s' := by
  rcases hraft with hraft | ⟨id, hraft⟩
  · refine h.of_same hstable hwaiters hslot hcalls (by rw [hraft]) (fun m e he _ => hraft ▸ he) ?_
    have hsame : s'.unapplied = s.unapplied := unapplied_congr (by rw [hraft]) (by rw [hraft])
    rw [hslots, hsame]
    exact h.apart
  · have hlog := appended_log cfg.node s.raft (LogEntry.release id)
    refine h.of_same hstable hwaiters hslot hcalls ?_ (fun m e he hop => ?_) ?_
    · rw [hraft]
      exact (s.raft.node.appendStamped_frame cfg.node _).2.2.2.2.2.1.ge
    · rw [hraft, hlog] at he
      rcases getElem?_of_concat he with hold | ⟨-, rfl⟩
      · exact hold
      · cases hop
    · rw [hslots, h.unapplied_appended cfg hraft]
      exact h.apart.append fun hop => by cases hop

theorem acquire {k : ℕ} {x : Choice} {c c' : AcquireCall F} {p : Process ι F} {t : LockTable F}
    (h : CalmInv cfg.theta s)
    (hs : s' = { s with raft := p, table := t, acquires := s.acquires.set k c' })
    (hstable : StableInv s') (hwaiters : WaitersOk s'.table [] (s'.sleeps cfg.theta))
    (hslot : SlotInv cfg.theta s') (hk : s.acquires[k]? = some c) (hopen : c.isOpen = true)
    (hmove : CalmMove cfg s.raft s.table c x p t c') : CalmInv cfg.theta s' := by
  have hasked : s.Asked c.agentId c.embedding := ⟨c, List.mem_of_getElem? hk, rfl, rfl⟩
  refine h.of_set hstable hwaiters hslot hk hopen (by rw [hs]) hmove.call ?_ ?_ ?_ ?_
  · rw [hs]
    cases hmove with
    | appendAcquire | appendRelease =>
      exact (s.raft.node.appendStamped_frame cfg.node _).2.2.2.2.2.1
    | _ => rfl
  · intro m hproposed
    cases hmove with
    | stay c' hrequest hregular hgranted hspan hkeep => exact hkeep m hproposed
    | finish hpc => simpa [AcquireCall.proposed, AcquireCall.releaseDone, hpc] using hproposed
    | wait layout a a' t' hpc | record trace count hpc | appendAcquire hpc =>
      simp [AcquireCall.proposed, hpc] at hproposed
    | appendRelease index hpc => simpa [AcquireCall.proposed, hpc] using hproposed
  · intro m e he hop
    rw [hs] at he
    cases hmove with
    | appendAcquire hpc =>
      rcases getElem?_of_concat (appended_log cfg.node s.raft _ ▸ he) with hold | ⟨rfl, rfl⟩
      · exact Or.inl hold
      · exact Or.inr ⟨rfl, by simp [AcquireCall.proposed]⟩
    | appendRelease index hpc =>
      rcases getElem?_of_concat (appended_log cfg.node s.raft _ ▸ he) with hold | ⟨rfl, rfl⟩
      · exact Or.inl hold
      · cases hop
    | _ => exact Or.inl he
  · cases hmove with
    | wait layout a a' t' hpc hwait =>
      have hsleep := sleeps_of_admission cfg.theta hk hpc
      rw [hs]
      exact h.apart.admission h.once hasked rfl (h.waiters.admissionMove hsleep hwait)
    | appendAcquire hpc =>
      have hholds : c.holdsSlot s.table = true := by
        simp [AcquireCall.holdsSlot, AcquireCall.inSession, hpc]
      obtain ⟨lock, hlock, hcentroid⟩ := h.slot.slot k c hk hholds
      rw [h.unapplied_appended cfg (by rw [hs]), hs]
      exact h.apart.append fun _ => Option.map_eq_some_iff.mpr ⟨lock, hlock, hcentroid⟩
    | appendRelease index hpc =>
      rw [h.unapplied_appended cfg (by rw [hs]), hs]
      exact h.apart.append fun hop => by cases hop
    | _ =>
      rw [hs]
      exact h.apart

theorem onCommit (h : CalmInv cfg.theta s) {layout : Layout String} {m : ℕ} {e : LogEntry F}
    (hphase : s.raft.phase = .calling m e)
    (hown : s.OwnReleases (.onCommit layout : Action ι F))
    (hs : s' = { s with
      raft := { s.raft with phase := .returned, applied := s.raft.applied ++ [(m, e)] }
      table := s.table.onCommit layout e })
    (hstable : StableInv s') (hwaiters : WaitersOk s'.table [] (s'.sleeps cfg.theta))
    (hslot : SlotInv cfg.theta s') : CalmInv cfg.theta s' := by
  have hcons : s.unapplied = e :: s'.unapplied :=
    h.stable.unapplied_calling hphase (by rw [hs]) (by rw [hs])
  have hrest : s'.unapplied = s.raft.node.log.drop (s.raft.applied.length + 2) :=
    (List.cons.inj (hcons.symm.trans (h.unapplied_cons hphase))).2
  refine h.of_same hstable hwaiters hslot (by rw [hs]) (by rw [hs])
    (fun m e he _ => by rwa [hs] at he) ?_
  have hapart := h.apart
  rw [hcons] at hapart
  rw [show s'.table = s.table.onCommit layout e by rw [hs]]
  refine hapart.onCommit h.once asked_of_sleeps h.waiters layout fun hop e' he' hop' => ?_
  exact h.released hown hphase hop e' (hrest ▸ he') hop'

variable [DecidableEq ι]

theorem step (h : CalmInv cfg.theta s) (hcalm : s.Calm a) (hown : s.OwnReleases a)
    (hstep : NodeStep cfg s a s') (hleads : s'.leads = true) : CalmInv cfg.theta s' := by
  have hstable := h.stable.step hstep hleads
  have hwaiters := waiters_step hstep h.waiters
  have hnew : ∀ request now, a = .acquireGuard request now →
      ∀ c ∈ s.acquires, c.isOpen = true → c.agentId ≠ request.agentId := by
    rintro request now rfl c hc -
    exact hcalm c hc
  have hslot := h.slot.step h.waiters hnew (h.ownEntries hown) hstep
  obtain ⟨hlead, hrun⟩ := leads_iff.mp h.stable.leads
  cases hstep with
  | raftEvent event p hchange =>
    have hkeep : s.raft.node.lastApplied ≤ p.node.lastApplied ∧ p.node.log = s.raft.node.log ∧
        p.applied = s.raft.applied := by
      cases hchange with
      | node n election hlast hkeep =>
        exact ⟨hlast.ge, (hkeep hlead (leads_iff.mp hleads).1).1, rfl⟩
      | take | fault => exact ⟨Nat.le_succ _, rfl, rfl⟩
      | halt | notify => exact ⟨le_rfl, rfl, rfl⟩
    obtain ⟨hlast, hlog, happlied⟩ := hkeep
    refine h.of_same hstable hwaiters hslot rfl hlast (fun m e he _ => hlog ▸ he) ?_
    rw [unapplied_congr hlog happlied]
    exact h.apart
  | finishElection sweeps hsweeps =>
    exact h.of_same hstable hwaiters hslot rfl le_rfl (fun _ _ he _ => he) h.apart
  | onCommit layout m e hphase => exact h.onCommit hphase hown rfl hstable hwaiters hslot
  | acquireGuard request now => exact h.arrive hstable hwaiters hslot rfl hcalm
  | releaseGuard agentId => exact h.of_release cfg hstable hwaiters hslot rfl rfl (Or.inl rfl)
  | acquire k x c p t c' hk hopen hmove hcall =>
    exact h.acquire rfl hstable hwaiters hslot hk hopen (AcquireCall.calm_step hrun hlead
      (h.path c (List.mem_of_getElem? hk)).1 hcalm.1 hcalm.2 hcall)
  | release k x p releases hp =>
    exact h.of_release cfg hstable hwaiters hslot rfl rfl (hp.imp_right And.right)
  | sweep k x w p t w' hk hmove =>
    cases hmove with
    | stay sweepInProgress =>
      exact h.of_release cfg hstable hwaiters hslot rfl rfl (Or.inl rfl)
    | propose b orphans =>
      exact h.of_release cfg hstable hwaiters hslot rfl rfl (Or.inr ⟨b, rfl⟩)

theorem start (cfg : ServiceConfig ι F) (T : ℕ) : CalmInv cfg.theta (leaderStart cfg T) := by
  refine ⟨.start cfg T, waiters_empty _ rfl rfl, .start cfg T, ?_, ?_, ?_, ?_⟩
  · simp [leaderStart]
  · simp [leaderStart]
  · intro m e hm he
    have hlt := (List.getElem?_eq_some_iff.mp he).1
    simp [leaderStart, RaftNode.becomeLeader] at hlt
    omega
  · exact .empty

end CalmInv

end DsccNode

/-! ### When nobody else releases -/

def ReleaseCall.proposes (c : ReleaseCall) : Bool :=
  match c.pc with
  | .propose => true
  | _ => false

def Sweep.proposes (w : Sweep F) : Bool :=
  match w.pc with
  | .propose _ _ => true
  | _ => false

namespace DsccNode

/-- No other thread proposes a RELEASE: no call of `ReleaseGuard`, and no sweep that has
found an orphan. -/
def Quiet (s : DsccNode ι F) : Action ι F → Prop
  | .release k _ => s.releases[k]?.any ReleaseCall.proposes = false
  | .sweep k _ => s.sweeps[k]?.any Sweep.proposes = false
  | _ => True

instance (s : DsccNode ι F) : (a : Action ι F) → Decidable (s.Quiet a)
  | .release k _ => inferInstanceAs (Decidable (s.releases[k]?.any ReleaseCall.proposes = false))
  | .sweep k _ => inferInstanceAs (Decidable (s.sweeps[k]?.any Sweep.proposes = false))
  | .raftEvent _ | .finishElection | .onCommit _ | .acquireGuard _ _ | .releaseGuard _
  | .acquire _ _ => isTrue trivial

/-- Every RELEASE in the log is that of a call. -/
def Released (s : DsccNode ι F) : Prop :=
  ∀ e ∈ s.raft.node.log, e.opType = .release →
    ∃ c ∈ s.acquires, c.agentId = e.agentId ∧ c.hasReleased = true

variable {cfg : ServiceConfig ι F} {s s' : DsccNode ι F} {a : Action ι F}

namespace Released

/-- Calls that have released stay so, and no RELEASE is written. -/
theorem of_calls (h : s.Released)
    (hcalls : ∀ c ∈ s.acquires, ∃ c' ∈ s'.acquires, c'.agentId = c.agentId ∧
      (c.hasReleased = true → c'.hasReleased = true))
    (hlog : ∀ e ∈ s'.raft.node.log, e.opType = .release → e ∈ s.raft.node.log ∨
      ∃ c ∈ s'.acquires, c.agentId = e.agentId ∧ c.hasReleased = true) : s'.Released := by
  intro e he hop
  rcases hlog e he hop with hold | hnew
  · obtain ⟨c, hc, hagent, hreleased⟩ := h e hold hop
    obtain ⟨c', hc', hsame, hkeep⟩ := hcalls c hc
    exact ⟨c', hc', hsame.trans hagent, hkeep hreleased⟩
  · exact hnew

theorem of_same (h : s.Released) (hcalls : s'.acquires = s.acquires)
    (hlog : s'.raft.node.log = s.raft.node.log) : s'.Released :=
  h.of_calls (fun c hc => ⟨c, hcalls ▸ hc, rfl, id⟩) fun _ he _ => Or.inl (hlog ▸ he)

variable [Arithmetic F]

theorem acquire {k : ℕ} {x : Choice} {c c' : AcquireCall F} {p : Process ι F} {t : LockTable F}
    (h : s.Released) (hk : s.acquires[k]? = some c)
    (hmove : CalmMove cfg s.raft s.table c x p t c') :
    Released { s with raft := p, table := t, acquires := s.acquires.set k c' } := by
  have hsame : c'.agentId = c.agentId := congrArg AcquireRequest.agentId hmove.call.1
  have hnew : c' ∈ s.acquires.set k c' := List.mem_set (List.getElem?_eq_some_iff.mp hk).1 c'
  have hkeep : c.hasReleased = true → c'.hasReleased = true := by
    intro hreleased
    cases hmove with
    | stay c' _ _ _ _ _ hkeep => exact hkeep hreleased
    | wait layout a a' t' hpc | record trace count hpc | appendAcquire hpc =>
      simp [AcquireCall.hasReleased, hpc] at hreleased
    | appendRelease index hpc => simp [AcquireCall.hasReleased, hpc] at hreleased
    | finish hpc => rfl
  refine h.of_calls (fun d hd => ?_) fun e he hop => ?_
  · by_cases hdc : d = c
    · subst hdc
      exact ⟨c', hnew, hsame, hkeep⟩
    · exact ⟨d, mem_set_of_ne hd hk hdc, rfl, id⟩
  · cases hmove with
    | appendAcquire hpc =>
      rcases List.mem_append.mp (appended_log cfg.node s.raft _ ▸ he) with hold | hlast
      · exact Or.inl hold
      · rw [List.mem_singleton.mp hlast] at hop
        cases hop
    | appendRelease index hpc =>
      rcases List.mem_append.mp (appended_log cfg.node s.raft _ ▸ he) with hold | hlast
      · exact Or.inl hold
      · rw [List.mem_singleton.mp hlast]
        exact Or.inr ⟨_, hnew, hsame, rfl⟩
    | _ => exact Or.inl he

/-- A step of `ReleaseGuard` that does not propose leaves the process alone. -/
theorem release_quiet {k : ℕ} {x : Choice} (hrun : s.raft.halted = false)
    (hquiet : s.Quiet (.release k x : Action ι F)) (h : s.release cfg k x = some s') :
    s'.raft = s.raft := by
  obtain ⟨c, p, c', hk, hc, rfl⟩ := release_eq_some h
  rcases ReleaseCall.step_cases hrun hc with hsame | ⟨-, hpc, -⟩
  · exact hsame
  · simp [Quiet, hk, ReleaseCall.proposes, hpc] at hquiet

variable [DecidableEq ι]

theorem step (h : s.Released) (hinv : CalmInv cfg.theta s) (hcalm : s.Calm a)
    (hquiet : s.Quiet a) (hcase : s.step cfg a = some s') (hleads : s'.leads = true) :
    s'.Released := by
  obtain ⟨hrun, hstep⟩ := step_cases hcase
  have hlead := (leads_iff.mp hinv.stable.leads).1
  cases hstep with
  | raftEvent event p hchange =>
    refine h.of_same rfl ?_
    cases hchange with
    | node n election hlast hkeep => exact (hkeep hlead (leads_iff.mp hleads).1).1
    | _ => rfl
  | acquireGuard request now =>
    exact h.of_calls (fun c hc => ⟨c, List.mem_append_left _ hc, rfl, id⟩) fun _ he _ => Or.inl he
  | acquire k x c p t c' hk hopen hmove hcall =>
    exact h.acquire hk (AcquireCall.calm_step hrun hlead
      (hinv.path c (List.mem_of_getElem? hk)).1 hcalm.1 hcalm.2 hcall)
  | release k x p releases hp =>
    have hcall : s.release cfg k x = some { s with raft := p, releases := releases } := by
      simpa [DsccNode.step, hrun] using hcase
    exact h.of_same rfl (congrArg (fun q => q.node.log) (release_quiet hrun hquiet hcall))
  | sweep k x w p t w' hk hmove =>
    cases hmove with
    | stay sweepInProgress => exact h.of_same rfl rfl
    | propose b orphans w' hl hpc => simp [Quiet, hk, Sweep.proposes, hpc] at hquiet
  | _ => exact h.of_same rfl rfl

omit [DecidableEq ι] in
theorem start (cfg : ServiceConfig ι F) (T : ℕ) : (leaderStart cfg T).Released := by
  intro e he hop
  rw [List.mem_singleton.mp he] at hop
  cases hop

omit [DecidableEq ι] in
/-- A call that has proposed its RELEASE holds its slot no more. -/
theorem ownReleases (h : s.Released) (hinv : CalmInv cfg.theta s) : s.OwnReleases a := by
  cases a with
  | onCommit layout =>
    intro e he hop c hc hagent
    have hmem : e ∈ s.raft.node.log := by
      simp only [calling] at he
      split at he
      · rename_i m e' hphase
        obtain rfl := Option.some.inj he
        exact List.mem_of_getElem? (hinv.stable.replay s.raft.applied.length m e' (by
          simp [Process.calls, hphase]))
      · cases he
    obtain ⟨d, hd, hagent', hreleased⟩ := h e hmem hop
    obtain ⟨k, hk⟩ := List.mem_iff_getElem?.mp hc
    obtain ⟨k', hk'⟩ := List.mem_iff_getElem?.mp hd
    obtain rfl := hinv.single k k' c d hk hk' (hagent.trans hagent'.symm)
    rw [hk, Option.some.injEq] at hk'
    subst hk'
    exact AcquireCall.not_holdsSlot_of_hasReleased s.table hreleased
  | _ => trivial

end Released

end DsccNode

end DistributedLock.Service
