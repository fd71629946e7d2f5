import DistributedLock.Service.Agreement

/-! Sessions and the log of the cluster. Beside a run of the deployment stand the entries
that the calls of `AcquireGuard` have appended. In the runs in which no request is
answered over a stale tail and every commit a call is told of is that of its own entry, a
session has its ACQUIRE in the log from its Qdrant operation on, its RELEASE behind it when
it is granted, and no later leader takes them away. -/

namespace DistributedLock.Service

open Library Raft Table

/-- An entry that a call of a node has appended, as it stands in the log. -/
structure SessionEntry (ι F : Type*) where
  node : ι
  call : ℕ
  index : ℕ
  entry : LogEntry F

/-- The entry is this one, stamped with a term. -/
def SessionEntry.Stamps {ι F : Type*} (r : SessionEntry ι F) (e : LogEntry F) : Prop :=
  r.entry = { e with term := r.entry.term }

section

variable {ι F : Type*}

/-- The entry is in the log of the process and committed there. -/
def Confirmed (p : Process ι F) (r : SessionEntry ι F) : Prop :=
  r.index ≤ p.node.commitIndex ∧ p.node.log[r.index]? = some r.entry

/-- The process has called `on_commit_` for the entry. -/
def HandedOver (p : Process ι F) (r : SessionEntry ι F) : Prop := (r.index, r.entry) ∈ p.calls

/-- The entries of one call, in their order. -/
def ownEntries [DecidableEq ι] (es : List (SessionEntry ι F)) (i : ι) (k : ℕ) :
    List (SessionEntry ι F) := es.filter fun r => r.node = i ∧ r.call = k

namespace AcquireCall

/-- The entry that the next step of the call proposes. -/
def proposal [Arithmetic F] (cfg : ServiceConfig ι F) (c : AcquireCall F) : Option (LogEntry F) :=
  match c.pc with
  | .proposeAcquire => some (c.acquireEntry cfg)
  | .proposeRelease _ => some (.release c.agentId)
  | _ => none

/-- The index whose commit the call waits for. -/
def awaited (c : AcquireCall F) : Option ℕ :=
  match c.pc with
  | .awaitAcquireCommit index | .awaitReleaseCommit _ index => some index
  | _ => none

end AcquireCall

variable [Arithmetic F]

/-- What the next step of the call appends, if the node leads. -/
def AcquireCall.sessionEntries (cfg : ServiceConfig ι F) (p : Process ι F) (i : ι) (k : ℕ)
    (c : AcquireCall F) : List (SessionEntry ι F) :=
  if p.node.state = .leader then
    (c.proposal cfg).toList.map fun e =>
      { node := i, call := k, index := p.node.log.length
        entry := { e with term := p.node.currentTerm } }
  else []

def DsccNode.sessionEntries (cfg : ServiceConfig ι F) (i : ι) (s : DsccNode ι F) :
    Action ι F → List (SessionEntry ι F)
  | .acquire k _ => (s.acquires[k]?).toList.flatMap fun c => c.sessionEntries cfg s.raft i k
  | _ => []

/-- The entry that a step of a call appends. -/
def Deployment.sessionEntries (cfg : DeploymentConfig ι F) (s : Deployment ι F) :
    DeploymentAction ι F → List (SessionEntry ι F)
  | .network _ => []
  | .node i a => (s.nodes i).sessionEntries (cfg.service i) i a

/-- A call that is told of a commit finds an entry of the term of its own at the index. -/
def OwnCommits [DecidableEq ι] (s : Deployment ι F × List (SessionEntry ι F)) :
    DeploymentAction ι F → Prop
  | .node i (.acquire k _) =>
    ∀ c ∈ (s.1.nodes i).acquires[k]?, ∀ index ∈ c.awaited,
      index ≤ (s.1.nodes i).raft.node.commitIndex → ∀ r ∈ (ownEntries s.2 i k).getLast?,
        RaftNode.termAt (s.1.nodes i).raft.node.log index = some r.entry.term
  | _ => True

instance [DecidableEq ι] (s : Deployment ι F × List (SessionEntry ι F)) :
    (d : DeploymentAction ι F) → Decidable (OwnCommits s d)
  | .node _ (.acquire _ _) => inferInstanceAs (Decidable (∀ _ ∈ _, ∀ _ ∈ _, _ → ∀ _ ∈ _, _))
  | .network _ | .node _ (.raftEvent _) | .node _ .finishElection => isTrue trivial
  | .node _ (.onCommit _) | .node _ (.acquireGuard _ _) => isTrue trivial
  | .node _ (.releaseGuard _) | .node _ (.release _ _) | .node _ (.sweep _ _) => isTrue trivial

end

/-! ### The entries of one call -/

section Call

variable {ι F : Type*} [Arithmetic F]

/-- The call has appended its ACQUIRE and nothing else. -/
def AcquireOnly (cfg : ServiceConfig ι F) (own : List (SessionEntry ι F)) (c : AcquireCall F)
    (P : SessionEntry ι F → Prop) : Prop :=
  ∃ r, own = [r] ∧ r.Stamps (c.acquireEntry cfg) ∧ P r

/-- The call has appended its ACQUIRE, which has been handed over, and its RELEASE behind. -/
def AcquireRelease (cfg : ServiceConfig ι F) (p : Process ι F) (own : List (SessionEntry ι F))
    (c : AcquireCall F) (P : SessionEntry ι F → Prop) : Prop :=
  ∃ r r', own = [r, r'] ∧ r.Stamps (c.acquireEntry cfg) ∧ HandedOver p r ∧
    r'.Stamps (.release c.agentId) ∧ r.index < r'.index ∧ P r'

/-- How far a call has come with its entries. -/
inductive LogStage where
  | nothing
  | appended (index : ℕ)
  | confirmed (index : ℕ)
  | acquired
  | releasing (index : ℕ)
  | releaseConfirmed (index : ℕ)
  | released
  | ended

def AcquireCall.logStage (c : AcquireCall F) : LogStage :=
  match c.pc with
  | .checkLeader | .redirect | .admission _ | .proposeAcquire => .nothing
  | .awaitAcquireCommit index => .appended index
  | .awaitAcquireApplied index => .confirmed index
  | .qdrant | .proposeRelease .regular | .proposeRelease .qdrantFailed => .acquired
  | .awaitReleaseCommit .regular index | .awaitReleaseCommit .qdrantFailed index =>
    .releasing index
  | .awaitReleaseApplied .regular index | .awaitReleaseApplied .qdrantFailed index =>
    .releaseConfirmed index
  | .released .regular | .released .qdrantFailed => .released
  | _ => .ended

/-- The call is at its Qdrant operation or in its first attempt to release. -/
def AcquireCall.underLock (c : AcquireCall F) : Bool :=
  match c.pc with
  | .qdrant => true
  | .proposeRelease attempt | .awaitReleaseCommit attempt _ | .awaitReleaseApplied attempt _
  | .released attempt => attempt ≠ .second
  | _ => false

omit [Arithmetic F] in
theorem AcquireCall.underLock_of_inQdrantPhase {c : AcquireCall F}
    (h : c.inQdrantPhase = true) : c.underLock = true := by
  unfold AcquireCall.inQdrantPhase at h
  unfold AcquireCall.underLock
  split at h
  · rename_i hpc
    rw [hpc]
  · rename_i attempt hpc
    rw [hpc]
    exact h
  · cases h

/-- What a call has in the log at its stage. -/
def EntriesAt (cfg : ServiceConfig ι F) (p : Process ι F) (own : List (SessionEntry ι F))
    (c : AcquireCall F) : LogStage → Prop
  | .nothing => own = []
  | .appended index => AcquireOnly cfg own c fun r => r.index = index
  | .confirmed index => AcquireOnly cfg own c fun r => r.index = index ∧ Confirmed p r
  | .acquired => AcquireOnly cfg own c (HandedOver p)
  | .releasing index => AcquireRelease cfg p own c fun r => r.index = index
  | .releaseConfirmed index =>
    AcquireRelease cfg p own c fun r => r.index = index ∧ Confirmed p r
  | .released => AcquireRelease cfg p own c (HandedOver p)
  | .ended => c.response.granted = true → AcquireRelease cfg p own c (HandedOver p)

structure EntriesOk (cfg : ServiceConfig ι F) (p : Process ι F) (own : List (SessionEntry ι F))
    (c : AcquireCall F) : Prop where
  entries : EntriesAt cfg p own c c.logStage
  silent : c.isOpen = true → c.response.granted = false

/-- What the process knows of the entries of a call. -/
structure Trusted (p : Process ι F) (own : List (SessionEntry ι F)) : Prop where
  own_entry : ∀ r ∈ own, RaftNode.termAt p.node.log r.index = some r.entry.term →
    p.node.log[r.index]? = some r.entry
  handed : ∀ r ∈ own, Confirmed p r → r.index ≤ p.node.lastApplied → HandedOver p r
  below : ∀ r, HandedOver p r → r.index < p.node.log.length

variable {cfg : ServiceConfig ι F} {p p' : Process ι F} {own : List (SessionEntry ι F)}
  {c c' : AcquireCall F}

omit [Arithmetic F] in
theorem stamps_of_eq {r : SessionEntry ι F} {e : LogEntry F} {T : ℕ}
    (h : r.entry = { e with term := T }) : r.Stamps e := by
  unfold SessionEntry.Stamps
  rw [h]

omit [Arithmetic F] in
theorem AcquireOnly.mono {P Q : SessionEntry ι F → Prop} (h : AcquireOnly cfg own c P)
    (hrequest : c'.request = c.request) (hPQ : ∀ r ∈ own, P r → Q r) :
    AcquireOnly cfg own c' Q := by
  obtain ⟨r, rfl, hr, hP⟩ := h
  refine ⟨r, rfl, ?_, hPQ r (List.mem_singleton_self r) hP⟩
  simpa [AcquireCall.acquireEntry, AcquireCall.agentId, AcquireCall.embedding, hrequest] using hr

theorem AcquireRelease.mono {P Q : SessionEntry ι F → Prop} (h : AcquireRelease cfg p own c P)
    (hrequest : c'.request = c.request) (hhanded : ∀ r, HandedOver p r → HandedOver p' r)
    (hPQ : ∀ r ∈ own, P r → Q r) : AcquireRelease cfg p' own c' Q := by
  obtain ⟨r, r', rfl, hr, hh, hr', hlt, hP⟩ := h
  refine ⟨r, r', rfl, ?_, hhanded r hh, ?_, hlt, hPQ r' (by simp) hP⟩
  · simpa [AcquireCall.acquireEntry, AcquireCall.agentId, AcquireCall.embedding, hrequest] using hr
  · simpa [AcquireCall.agentId, hrequest] using hr'

omit [Arithmetic F] in
theorem AcquireOnly.exists_acquire (h : AcquireOnly cfg own c (HandedOver p)) :
    ∃ r ∈ own, r.Stamps (c.acquireEntry cfg) ∧ HandedOver p r := by
  obtain ⟨r, rfl, hr⟩ := h
  exact ⟨r, List.mem_singleton_self r, hr⟩

theorem AcquireRelease.exists_acquire {P : SessionEntry ι F → Prop}
    (h : AcquireRelease cfg p own c P) :
    ∃ r ∈ own, r.Stamps (c.acquireEntry cfg) ∧ HandedOver p r := by
  obtain ⟨r, r', rfl, hr, hhanded, -⟩ := h
  exact ⟨r, List.mem_cons_self, hr, hhanded⟩

/-- Under its lock a call has its ACQUIRE handed over, whatever has become of its RELEASE. -/
theorem EntriesOk.exists_acquire (h : EntriesOk cfg p own c) (hunder : c.underLock = true) :
    ∃ r ∈ own, r.Stamps (c.acquireEntry cfg) ∧ HandedOver p r := by
  have hentries := h.entries
  unfold AcquireCall.underLock at hunder
  unfold AcquireCall.logStage at hentries
  cases hpc : c.pc with
  | qdrant =>
    rw [hpc] at hentries
    exact AcquireOnly.exists_acquire hentries
  | proposeRelease attempt =>
    rw [hpc] at hunder hentries
    cases attempt with
    | second => simp at hunder
    | _ => exact AcquireOnly.exists_acquire hentries
  | awaitReleaseCommit attempt index =>
    rw [hpc] at hunder hentries
    cases attempt with
    | second => simp at hunder
    | _ => exact AcquireRelease.exists_acquire hentries
  | awaitReleaseApplied attempt index =>
    rw [hpc] at hunder hentries
    cases attempt with
    | second => simp at hunder
    | _ => exact AcquireRelease.exists_acquire hentries
  | released attempt =>
    rw [hpc] at hunder hentries
    cases attempt with
    | second => simp at hunder
    | _ => exact AcquireRelease.exists_acquire hentries
  | _ =>
    rw [hpc] at hunder
    cases hunder

/-- Steps of others do not unsay it. -/
theorem EntriesOk.mono (h : EntriesOk cfg p own c)
    (hconfirmed : ∀ r ∈ own, Confirmed p r → Confirmed p' r)
    (hhanded : ∀ r, HandedOver p r → HandedOver p' r) : EntriesOk cfg p' own c := by
  refine ⟨?_, h.silent⟩
  have hentries := h.entries
  cases hstage : c.logStage with
  | nothing => rwa [hstage] at hentries
  | appended index => rwa [hstage] at hentries
  | confirmed index =>
    rw [hstage] at hentries
    exact AcquireOnly.mono hentries rfl fun r hr hP => ⟨hP.1, hconfirmed r hr hP.2⟩
  | acquired =>
    rw [hstage] at hentries
    exact AcquireOnly.mono hentries rfl fun r _ => hhanded r
  | releasing index =>
    rw [hstage] at hentries
    exact AcquireRelease.mono hentries rfl hhanded fun _ _ => id
  | releaseConfirmed index =>
    rw [hstage] at hentries
    exact AcquireRelease.mono hentries rfl hhanded fun r hr hP => ⟨hP.1, hconfirmed r hr hP.2⟩
  | released =>
    rw [hstage] at hentries
    exact AcquireRelease.mono hentries rfl hhanded fun r _ => hhanded r
  | ended =>
    rw [hstage] at hentries
    exact fun hgranted => AcquireRelease.mono (hentries hgranted) rfl hhanded fun r _ => hhanded r

/-- A call that has come to nothing says nothing. -/
theorem EntriesOk.of_ended (hstage : c.logStage = .ended) (hgranted : c.response.granted = false) :
    EntriesOk cfg p own c := by
  refine ⟨?_, fun _ => hgranted⟩
  rw [hstage]
  intro hcontra
  rw [hgranted] at hcontra
  cases hcontra

theorem EntriesOk.arrive (cfg : ServiceConfig ι F) (p : Process ι F) (request : AcquireRequest F)
    (now : ℤ) : EntriesOk cfg p [] (AcquireCall.arrive cfg request now) := by
  unfold AcquireCall.arrive
  dsimp only
  split_ifs
  · exact .of_ended rfl rfl
  · exact .of_ended rfl rfl
  · exact ⟨rfl, fun _ => rfl⟩

variable {t t' : LockTable F} {x : Choice} {i : ι} {k : ℕ}

omit [Arithmetic F] in
/-- A commit that a call is told of is that of its own entry. -/
theorem Trusted.confirmed {r : SessionEntry ι F} (h : Trusted p own) (hr : own.getLast? = some r)
    (hle : r.index ≤ p.node.commitIndex)
    (hterm : ∀ r ∈ own.getLast?, RaftNode.termAt p.node.log r.index = some r.entry.term) :
    Confirmed p r :=
  ⟨hle, h.own_entry r (List.mem_of_getLast? hr) (hterm r hr)⟩

omit [Arithmetic F] in
theorem pollCommit_true {p : Process ι F} {index : ℕ} {timedOut : Bool}
    (h : pollCommit p index timedOut = some true) : index ≤ p.node.commitIndex := by
  unfold pollCommit at h
  split_ifs at h with hle
  · exact hle
  · cases h

omit [Arithmetic F] in
theorem pollApplied_true {p : Process ι F} {index : ℕ} {timedOut : Bool}
    (h : pollApplied p index timedOut = some true) : index ≤ p.node.lastApplied := by
  unfold pollApplied at h
  split_ifs at h with hle
  · exact of_decide_eq_true hle
  · cases h

omit [Arithmetic F] in
theorem releaseFailed_ended {attempt : Attempt} (hgranted : c.response.granted = false) :
    (c.releaseFailed attempt).logStage = .ended ∧
      (c.releaseFailed attempt).response.granted = false := by
  cases attempt <;> exact ⟨rfl, by first | exact hgranted | rfl⟩

/-- A step of the call, with what it appends. -/
theorem EntriesOk.step (h : EntriesOk cfg p own c) (htrust : Trusted p own)
    (hrun : p.halted = false)
    (hcommits : ∀ index ∈ c.awaited, index ≤ p.node.commitIndex →
      ∀ r ∈ own.getLast?, RaftNode.termAt p.node.log index = some r.entry.term)
    (hstep : c.step cfg p t x = some (p', t', c')) :
    EntriesOk cfg p (own ++ c.sessionEntries cfg p i k) c' := by
  obtain ⟨hentries, hsilent⟩ := h
  have hquiet : c.proposal cfg = none → own ++ c.sessionEntries cfg p i k = own := by
    intro hnone
    simp [AcquireCall.sessionEntries, hnone]
  unfold AcquireCall.step at hstep
  cases hpc : c.pc with
  | checkLeader =>
    rw [hquiet (by simp [AcquireCall.proposal, hpc])]
    simp only [AcquireCall.logStage, hpc, EntriesAt] at hentries
    have hgranted := hsilent (by simp [AcquireCall.isOpen, hpc])
    simp only [hpc] at hstep
    split_ifs at hstep <;> obtain ⟨rfl, rfl, rfl⟩ := hstep <;> exact ⟨hentries, fun _ => hgranted⟩
  | redirect =>
    rw [hquiet (by simp [AcquireCall.proposal, hpc])]
    simp only [hpc] at hstep
    obtain ⟨rfl, rfl, rfl⟩ := hstep
    unfold AcquireCall.redirectTo
    dsimp only
    split_ifs <;> exact .of_ended rfl rfl
  | admission a =>
    rw [hquiet (by simp [AcquireCall.proposal, hpc])]
    simp only [AcquireCall.logStage, hpc, EntriesAt] at hentries
    have hgranted := hsilent (by simp [AcquireCall.isOpen, hpc])
    cases a with
    | returned trace =>
      simp only [hpc] at hstep
      obtain ⟨rfl, rfl, rfl⟩ := hstep
      exact ⟨hentries, fun _ => hgranted⟩
    | gate =>
      simp only [hpc, Option.map_eq_some_iff] at hstep
      obtain ⟨⟨t₁, a'⟩, -, he⟩ := hstep
      obtain ⟨rfl, rfl, rfl⟩ := he
      exact ⟨hentries, fun _ => hgranted⟩
    | asleep w trace =>
      simp only [hpc, Option.map_eq_some_iff] at hstep
      obtain ⟨⟨t₁, a'⟩, -, he⟩ := hstep
      obtain ⟨rfl, rfl, rfl⟩ := he
      exact ⟨hentries, fun _ => hgranted⟩
  | proposeAcquire =>
    simp only [AcquireCall.logStage, hpc, EntriesAt] at hentries
    have hgranted := hsilent (by simp [AcquireCall.isOpen, hpc])
    simp only [hpc] at hstep
    rcases beginPropose_cases cfg.node hrun (c.acquireEntry cfg) with ⟨hlead, he⟩ | ⟨hlead, he⟩ <;>
      rw [he] at hstep <;> obtain ⟨rfl, rfl, rfl⟩ := hstep
    · have hnew : own ++ c.sessionEntries cfg p i k = [⟨i, k, p.node.log.length,
          { c.acquireEntry cfg with term := p.node.currentTerm }⟩] := by
        simp [AcquireCall.sessionEntries, AcquireCall.proposal, hpc, hlead, hentries]
      exact ⟨⟨_, hnew, stamps_of_eq rfl, rfl⟩, fun _ => hgranted⟩
    · exact .of_ended rfl hgranted
  | awaitAcquireCommit index =>
    rw [hquiet (by simp [AcquireCall.proposal, hpc])]
    simp only [AcquireCall.logStage, hpc, EntriesAt] at hentries
    have hgranted := hsilent (by simp [AcquireCall.isOpen, hpc])
    simp only [hpc, Option.map_eq_some_iff] at hstep
    obtain ⟨ok, hpoll, he⟩ := hstep
    obtain ⟨rfl, rfl, rfl⟩ := he
    cases ok with
    | false => exact .of_ended rfl hgranted
    | true =>
      obtain ⟨r, rfl, hr, rfl⟩ := hentries
      have hle := pollCommit_true hpoll
      have hterm := hcommits r.index (by simp [AcquireCall.awaited, hpc]) hle
      exact ⟨⟨r, rfl, hr, rfl, htrust.confirmed rfl hle (by simpa using hterm)⟩, fun _ => hgranted⟩
  | removePending =>
    rw [hquiet (by simp [AcquireCall.proposal, hpc])]
    have hgranted := hsilent (by simp [AcquireCall.isOpen, hpc])
    simp only [hpc] at hstep
    obtain ⟨rfl, rfl, rfl⟩ := hstep
    exact .of_ended rfl hgranted
  | compensate message =>
    rw [hquiet (by simp [AcquireCall.proposal, hpc])]
    simp only [hpc] at hstep
    obtain ⟨rfl, rfl, rfl⟩ := hstep
    exact .of_ended rfl rfl
  | awaitAcquireApplied index =>
    rw [hquiet (by simp [AcquireCall.proposal, hpc])]
    simp only [AcquireCall.logStage, hpc, EntriesAt] at hentries
    have hgranted := hsilent (by simp [AcquireCall.isOpen, hpc])
    simp only [hpc, Option.map_eq_some_iff] at hstep
    obtain ⟨ok, hpoll, he⟩ := hstep
    obtain ⟨rfl, rfl, rfl⟩ := he
    cases ok with
    | false => exact .of_ended rfl hgranted
    | true =>
      refine ⟨AcquireOnly.mono hentries rfl fun r hr hP => ?_, fun _ => hgranted⟩
      exact htrust.handed r hr hP.2 (hP.1 ▸ pollApplied_true hpoll)
  | qdrant =>
    rw [hquiet (by simp [AcquireCall.proposal, hpc])]
    simp only [AcquireCall.logStage, hpc, EntriesAt] at hentries
    have hgranted := hsilent (by simp [AcquireCall.isOpen, hpc])
    simp only [hpc] at hstep
    obtain ⟨rfl, rfl, rfl⟩ := hstep
    unfold AcquireCall.qdrantReturned
    split_ifs
    · exact ⟨AcquireOnly.mono hentries rfl fun _ _ => id, fun _ => hgranted⟩
    · exact ⟨AcquireOnly.mono hentries rfl fun _ _ => id, fun _ => rfl⟩
    · exact ⟨AcquireOnly.mono hentries rfl fun _ _ => id, fun _ => rfl⟩
  | proposeRelease attempt =>
    simp only [AcquireCall.logStage, hpc] at hentries
    have hgranted := hsilent (by simp [AcquireCall.isOpen, hpc])
    simp only [hpc] at hstep
    rcases beginPropose_cases cfg.node hrun (LogEntry.release c.agentId) with
      ⟨hlead, he⟩ | ⟨hlead, he⟩ <;> rw [he] at hstep <;> obtain ⟨rfl, rfl, rfl⟩ := hstep
    · have hnew : c.sessionEntries cfg p i k = [⟨i, k, p.node.log.length,
          { LogEntry.release c.agentId with term := p.node.currentTerm }⟩] := by
        simp [AcquireCall.sessionEntries, AcquireCall.proposal, hpc, hlead]
      -- the RELEASE comes behind everything handed over
      have hrelease : AcquireOnly cfg own c (HandedOver p) →
          AcquireRelease cfg p (own ++ c.sessionEntries cfg p i k) c
            fun r => r.index = p.node.log.length := by
        rintro ⟨r, rfl, hr, hhanded⟩
        exact ⟨r, _, by rw [hnew]; rfl, hr, hhanded, stamps_of_eq rfl, htrust.below r hhanded, rfl⟩
      cases attempt with
      | second => exact .of_ended rfl hgranted
      | regular =>
        exact ⟨AcquireRelease.mono (hrelease hentries) rfl (fun _ => id) fun _ _ => id,
          fun _ => hgranted⟩
      | qdrantFailed =>
        exact ⟨AcquireRelease.mono (hrelease hentries) rfl (fun _ => id) fun _ _ => id,
          fun _ => hgranted⟩
    · exact .of_ended (releaseFailed_ended hgranted).1 (releaseFailed_ended hgranted).2
  | awaitReleaseCommit attempt index =>
    rw [hquiet (by simp [AcquireCall.proposal, hpc])]
    simp only [AcquireCall.logStage, hpc] at hentries
    have hgranted := hsilent (by simp [AcquireCall.isOpen, hpc])
    simp only [hpc, Option.map_eq_some_iff] at hstep
    obtain ⟨ok, hpoll, he⟩ := hstep
    obtain ⟨rfl, rfl, rfl⟩ := he
    cases ok with
    | false => exact .of_ended (releaseFailed_ended hgranted).1 (releaseFailed_ended hgranted).2
    | true =>
      have hle := pollCommit_true hpoll
      have hterm := hcommits index (by simp [AcquireCall.awaited, hpc]) hle
      have hconfirm : AcquireRelease cfg p own c (fun r => r.index = index) →
          AcquireRelease cfg p own c fun r => r.index = index ∧ Confirmed p r := by
        rintro ⟨r, r', rfl, hr, hhanded, hr', hlt, rfl⟩
        have hlast : [r, r'].getLast? = some r' := rfl
        refine ⟨r, r', rfl, hr, hhanded, hr', hlt, rfl, htrust.confirmed hlast hle ?_⟩
        rintro r'' hr''
        obtain rfl := Option.some.inj (hlast.symm.trans hr'')
        exact hterm r' hlast
      cases attempt with
      | second => exact .of_ended rfl hgranted
      | regular =>
        exact ⟨AcquireRelease.mono (hconfirm hentries) rfl (fun _ => id) fun _ _ => id,
          fun _ => hgranted⟩
      | qdrantFailed =>
        exact ⟨AcquireRelease.mono (hconfirm hentries) rfl (fun _ => id) fun _ _ => id,
          fun _ => hgranted⟩
  | awaitReleaseApplied attempt index =>
    rw [hquiet (by simp [AcquireCall.proposal, hpc])]
    simp only [AcquireCall.logStage, hpc] at hentries
    have hgranted := hsilent (by simp [AcquireCall.isOpen, hpc])
    simp only [hpc, Option.map_eq_some_iff] at hstep
    obtain ⟨ok, hpoll, he⟩ := hstep
    obtain ⟨rfl, rfl, rfl⟩ := he
    cases ok with
    | false => exact .of_ended (releaseFailed_ended hgranted).1 (releaseFailed_ended hgranted).2
    | true =>
      have hhanded : ∀ r ∈ own, r.index = index ∧ Confirmed p r → HandedOver p r := fun r hr hP =>
        htrust.handed r hr hP.2 (hP.1 ▸ pollApplied_true hpoll)
      cases attempt with
      | second => exact .of_ended rfl hgranted
      | regular => exact ⟨AcquireRelease.mono hentries rfl (fun _ => id) hhanded, fun _ => hgranted⟩
      | qdrantFailed =>
        exact ⟨AcquireRelease.mono hentries rfl (fun _ => id) hhanded, fun _ => hgranted⟩
  | released attempt =>
    rw [hquiet (by simp [AcquireCall.proposal, hpc])]
    simp only [AcquireCall.logStage, hpc] at hentries
    have hgranted := hsilent (by simp [AcquireCall.isOpen, hpc])
    simp only [hpc] at hstep
    obtain ⟨rfl, rfl, rfl⟩ := hstep
    cases attempt with
    | regular =>
      refine ⟨fun _ => AcquireRelease.mono hentries rfl (fun _ => id) fun _ _ => id, ?_⟩
      exact fun hopen => (by cases hopen)
    | qdrantFailed => exact .of_ended rfl hgranted
    | second => exact .of_ended rfl hgranted
  | returned status => simp [hpc] at hstep

/-- A leader appends what the call proposes. -/
theorem AcquireCall.step_proposal {e : LogEntry F} (hrun : p.halted = false)
    (hlead : p.node.state = .leader) (hproposal : c.proposal cfg = some e)
    (hstep : c.step cfg p t x = some (p', t', c')) : p' = appended cfg.node p e := by
  have hbegin : beginPropose cfg.node p e = (appended cfg.node p e, some p.node.log.length) :=
    ((beginPropose_cases cfg.node hrun e).resolve_right fun hn => hn.1 hlead).2
  unfold proposal at hproposal
  split at hproposal
  · rename_i hpc
    obtain rfl := Option.some.inj hproposal
    simp only [step, hpc, hbegin] at hstep
    obtain ⟨rfl, rfl, rfl⟩ := hstep
    rfl
  · rename_i attempt hpc
    obtain rfl := Option.some.inj hproposal
    simp only [step, hpc, hbegin] at hstep
    obtain ⟨rfl, rfl, rfl⟩ := hstep
    rfl
  · cases hproposal

theorem AcquireCall.mem_sessionEntries {r : SessionEntry ι F}
    (h : r ∈ c.sessionEntries cfg p i k) : r.node = i ∧ r.call = k := by
  unfold sessionEntries at h
  split_ifs at h
  · obtain ⟨e, -, rfl⟩ := List.mem_map.mp h
    exact ⟨rfl, rfl⟩
  · cases h

theorem AcquireCall.sessionEntries_cases (cfg : ServiceConfig ι F) (p : Process ι F) (i : ι)
    (k : ℕ) (c : AcquireCall F) :
    c.sessionEntries cfg p i k = [] ∨ p.node.state = .leader ∧ ∃ e, c.proposal cfg = some e ∧
      c.sessionEntries cfg p i k = [⟨i, k, p.node.log.length,
        { e with term := p.node.currentTerm }⟩] := by
  unfold sessionEntries
  split_ifs with hlead
  · cases hproposal : c.proposal cfg with
    | none => exact Or.inl rfl
    | some e => exact Or.inr ⟨hlead, e, rfl, rfl⟩
  · exact Or.inl rfl

end Call

/-! ### The entries of all calls -/

section

variable {ι F : Type*} [DecidableEq ι] {es fs : List (SessionEntry ι F)} {i j : ι} {k l : ℕ}

theorem mem_ownEntries {r : SessionEntry ι F} :
    r ∈ ownEntries es i k ↔ r ∈ es ∧ r.node = i ∧ r.call = k := by
  simp [ownEntries]

theorem ownEntries_append : ownEntries (es ++ fs) i k = ownEntries es i k ++ ownEntries fs i k :=
  List.filter_append _ _

theorem ownEntries_self (h : ∀ r ∈ es, r.node = i ∧ r.call = k) : ownEntries es i k = es :=
  List.filter_eq_self.mpr fun r hr => decide_eq_true (h r hr)

theorem ownEntries_of_ne (h : ∀ r ∈ es, r.node = j ∧ r.call = l) (hne : ¬ (j = i ∧ l = k)) :
    ownEntries es i k = [] := by
  refine List.filter_eq_nil_iff.mpr fun r hr => ?_
  obtain ⟨rfl, rfl⟩ := h r hr
  simpa using hne

end

namespace Deployment

variable {ι F : Type*} [DecidableEq ι] [Arithmetic F] {cfg : DeploymentConfig ι F}
  {s s' : Deployment ι F} {d : DeploymentAction ι F}

omit [DecidableEq ι] in
theorem sessionEntries_acquire {i : ι} {k : ℕ} {x : Choice} {c : AcquireCall F}
    (hk : (s.nodes i).acquires[k]? = some c) : s.sessionEntries cfg (.node i (.acquire k x)) =
      c.sessionEntries (cfg.service i) (s.nodes i).raft i k := by
  simp [sessionEntries, DsccNode.sessionEntries, hk]

/-- A step appends one entry for a session, at the end of the log of a leader, or none. -/
theorem sessionEntries_cases (h : s.step cfg d = some s') :
    s.sessionEntries cfg d = [] ∨ ∃ r, s.sessionEntries cfg d = [r] ∧
      (s.cluster.node r.node).state = .leader ∧ r.index = (s.cluster.node r.node).log.length ∧
      r.entry.term = (s.cluster.node r.node).currentTerm ∧
      (s'.cluster.node r.node).state = .leader ∧
      (s'.cluster.node r.node).currentTerm = (s.cluster.node r.node).currentTerm ∧
      (s'.cluster.node r.node).log = (s.cluster.node r.node).log ++ [r.entry] := by
  cases d with
  | network a => exact Or.inl rfl
  | node i a =>
    cases a with
    | acquire k x =>
      obtain ⟨-, n, hn, rfl⟩ := node_cases h
      obtain ⟨hrun, hstep⟩ := DsccNode.step_cases hn
      cases hstep with
      | acquire _ _ c p t c' hk hopen hmove hcall =>
        rw [sessionEntries_acquire hk]
        refine (c.sessionEntries_cases (cfg.service i) (s.nodes i).raft i k).imp_right ?_
        rintro ⟨hlead, e, hproposal, he⟩
        obtain rfl := AcquireCall.step_proposal hrun hlead hproposal hcall
        obtain ⟨hlog, hterm, -, hstate, -⟩ :=
          (s.nodes i).raft.node.appendStamped_frame (cfg.cluster.node i) e
        refine ⟨_, he, hlead, rfl, rfl, ?_⟩
        simp only [setNode, cluster, Cluster.node, Function.update_self]
        exact ⟨hstate.trans hlead, hterm, hlog⟩
    | _ => exact Or.inl rfl

/-- What a step does to the calls of a node: nothing, or one arrives, or one goes on. -/
theorem acquires_cases (h : s.step cfg d = some s') (i : ι) :
    ((s'.nodes i).acquires = (s.nodes i).acquires ∧
        ∀ k, ownEntries (s.sessionEntries cfg d) i k = []) ∨
      (∃ request now, (s'.nodes i).acquires =
          (s.nodes i).acquires ++ [AcquireCall.arrive (cfg.service i) request now] ∧
        s.sessionEntries cfg d = []) ∨
      ∃ k x c p t c', d = .node i (.acquire k x) ∧ (s.nodes i).raft.halted = false ∧
        (s.nodes i).acquires[k]? = some c ∧
        c.step (cfg.service i) (s.nodes i).raft (s.nodes i).table x = some (p, t, c') ∧
        (s'.nodes i).acquires = (s.nodes i).acquires.set k c' := by
  cases d with
  | network a =>
    obtain ⟨-, -, hs'⟩ := network_cases h
    exact Or.inl ⟨by rw [hs']; rfl, fun k => rfl⟩
  | node j a =>
    obtain ⟨-, n, hn, rfl⟩ := node_cases h
    obtain ⟨hrun, hstep⟩ := DsccNode.step_cases hn
    rcases eq_or_ne i j with rfl | hne
    · simp only [setNode, Function.update_self]
      cases hstep with
      | acquireGuard request now => exact Or.inr (Or.inl ⟨request, now, rfl, rfl⟩)
      | acquire k x c p t c' hk hopen hmove hcall =>
        exact Or.inr (Or.inr ⟨k, x, c, p, t, c', rfl, hrun, hk, hcall, rfl⟩)
      | _ => exact Or.inl ⟨rfl, fun k => rfl⟩
    · refine Or.inl ⟨by simp [setNode, hne], fun k => ?_⟩
      cases hstep with
      | acquire l x c p t c' hk hopen hmove hcall =>
        rw [sessionEntries_acquire hk]
        exact ownEntries_of_ne (fun r hr => AcquireCall.mem_sessionEntries hr) (by tauto)
      | _ => rfl

end Deployment

end DistributedLock.Service
