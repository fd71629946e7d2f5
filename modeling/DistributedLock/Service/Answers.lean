import DistributedLock.Service.Durability

/-! What the answers of `AcquireGuard` say. In every run of the deployment, whatever the
network and the other calls do, an answer is one of seven kinds, and its status and
message tell which entries the call has proposed: nothing before a refusal or a redirect,
at most its ACQUIRE when the quorum is missed, and its ACQUIRE and one RELEASE when it is
granted. Only a redirect names another node, in the response and in the metadata. The
RELEASE that compensates a failed ACQUIRE is appended without a proposal and comes on top. -/

namespace DistributedLock.Service

open Library Raft Table

section Call

variable {ι F : Type*} [Arithmetic F]

/-- The call has appended its ACQUIRE so often, and then RELEASEs. -/
def Appends (cfg : ServiceConfig ι F) (own : List (SessionEntry ι F)) (c : AcquireCall F)
    (acquires releases : ℕ) : Prop :=
  List.Forall₂ SessionEntry.Stamps own
    (List.replicate acquires (c.acquireEntry cfg) ++ List.replicate releases (.release c.agentId))

omit [Arithmetic F] in
/-- Nothing is granted, and no other node is named. -/
def AcquireCall.Mute (c : AcquireCall F) : Prop :=
  c.response.granted = false ∧ c.response.leaderRedirect = "" ∧ c.trailingMetadata = []

omit [Arithmetic F] in
/-- The status of a call that has returned. -/
def AcquireCall.status (c : AcquireCall F) : Option Status :=
  match c.pc with
  | .returned status => some status
  | _ => none

omit [Arithmetic F] in
theorem AcquireCall.status_eq_some {c : AcquireCall F} {status : Status} :
    c.status = some status ↔ c.pc = .returned status := by
  unfold AcquireCall.status
  cases c.pc <;> simp

/-- The answers, with what the call has appended. -/
inductive Answer (cfg : ServiceConfig ι F) (own : List (SessionEntry ι F)) (c : AcquireCall F) :
    Status → Prop
  | refused (happends : Appends cfg own c 0 0) (hmute : c.Mute)
      (hmessage : c.agentId = "" ∧ c.response.message = "agent_id is required" ∨
        c.agentId ≠ "" ∧ c.embedding = [] ∧ c.response.message = "embedding is required") :
      Answer cfg own c .ok
  | notLeader (happends : Appends cfg own c 0 0) (hgranted : c.response.granted = false)
      (hmessage : c.response.message = "NOT_LEADER")
      (hmetadata : c.trailingMetadata = if c.response.leaderRedirect = "" then []
        else [("leader-address", c.response.leaderRedirect)]) :
      Answer cfg own c { code := .failedPrecondition, message := "NOT_LEADER" }
  | acquireFailed {acquires : ℕ} (happends : Appends cfg own c acquires 0) (hle : acquires ≤ 1)
      (hmute : c.Mute) (hmessage : c.response.message = "Raft quorum not reached for ACQUIRE") :
      Answer cfg own c { code := .unavailable, message := "Raft quorum not reached for ACQUIRE" }
  | applyTimedOut (happends : Appends cfg own c 1 0) (hmute : c.Mute)
      (hmessage : c.response.message = "Raft apply timed out for ACQUIRE") :
      Answer cfg own c { code := .unavailable, message := "Raft apply timed out for ACQUIRE" }
  | qdrantFailed {releases : ℕ} (happends : Appends cfg own c 1 releases) (hle : releases ≤ 1)
      (hmute : c.Mute) (hmessage : c.response.message =
        if c.operationType = .read then "qdrant read failed" else "qdrant write failed") :
      Answer cfg own c .ok
  | releaseFailed {releases : ℕ} (happends : Appends cfg own c 1 releases) (hle : releases ≤ 2)
      (hmute : c.Mute) (hmessage : c.response.message = "Raft quorum not reached for RELEASE") :
      Answer cfg own c { code := .unavailable, message := "Raft quorum not reached for RELEASE" }
  | granted (happends : Appends cfg own c 1 1) (hgranted : c.response.granted = true)
      (hredirect : c.response.leaderRedirect = "") (hmetadata : c.trailingMetadata = [])
      (hmessage : c.response.message = if c.operationType = .read then
        "read granted and committed" else "write granted and committed") :
      Answer cfg own c .ok

/-- What an attempt to release has found and written, with `releases` of its own. -/
def AttemptAt (cfg : ServiceConfig ι F) (own : List (SessionEntry ι F)) (c : AcquireCall F)
    (releases : ℕ) : Attempt → Prop
  | .regular => Appends cfg own c 1 releases
  | .qdrantFailed => Appends cfg own c 1 releases ∧ c.response.message =
      if c.operationType = .read then "qdrant read failed" else "qdrant write failed"
  | .second => (∃ n ≤ 1, Appends cfg own c 1 (n + releases)) ∧
      c.response.message = "Raft quorum not reached for RELEASE"

/-- What the call has appended and answered at its program counter. -/
def AnswerAt (cfg : ServiceConfig ι F) (own : List (SessionEntry ι F)) (c : AcquireCall F) :
    AcquirePc F → Prop
  | .checkLeader | .redirect | .admission _ | .proposeAcquire => Appends cfg own c 0 0
  | .awaitAcquireCommit _ | .awaitAcquireApplied _ | .qdrant => Appends cfg own c 1 0
  | .removePending => ∃ n ≤ 1, Appends cfg own c n 0
  | .compensate message =>
    message = "Raft quorum not reached for ACQUIRE" ∧ (∃ n ≤ 1, Appends cfg own c n 0) ∨
      message = "Raft apply timed out for ACQUIRE" ∧ Appends cfg own c 1 0
  | .proposeRelease attempt => AttemptAt cfg own c 0 attempt
  | .awaitReleaseCommit attempt _ | .awaitReleaseApplied attempt _ | .released attempt =>
    AttemptAt cfg own c 1 attempt
  | .returned status => Answer cfg own c status

structure AnswerOk (cfg : ServiceConfig ι F) (own : List (SessionEntry ι F))
    (c : AcquireCall F) : Prop where
  stage : AnswerAt cfg own c c.pc
  mute : c.isOpen = true → c.Mute

variable {cfg : ServiceConfig ι F} {p p' : Process ι F} {own : List (SessionEntry ι F)}
  {c c' : AcquireCall F} {t t' : LockTable F} {x : Choice} {i : ι} {k : ℕ}

/-- It depends on the request of the call only. -/
theorem Appends.congr {m n : ℕ} (h : Appends cfg own c m n) (hrequest : c'.request = c.request) :
    Appends cfg own c' m n := by
  simpa [Appends, AcquireCall.acquireEntry, AcquireCall.agentId, AcquireCall.embedding, hrequest]
    using h

theorem Appends.acquire (h : Appends cfg own c 0 0) {r : SessionEntry ι F}
    (hr : r.Stamps (c.acquireEntry cfg)) : Appends cfg (own ++ [r]) c 1 0 := by
  rw [Appends, List.replicate_zero, List.replicate_zero, List.append_nil,
    List.forall₂_nil_right_iff] at h
  rw [h]
  exact .cons hr .nil

theorem Appends.release {m n : ℕ} (h : Appends cfg own c m n) {r : SessionEntry ι F}
    (hr : r.Stamps (.release c.agentId)) : Appends cfg (own ++ [r]) c m (n + 1) := by
  rw [Appends, List.replicate_succ', ← List.append_assoc]
  exact List.rel_append h (.cons hr .nil)

/-- A call that has returned has nothing more to keep quiet about. -/
theorem AnswerOk.of_returned {status : Status} (hpc : c.pc = .returned status)
    (h : Answer cfg own c status) : AnswerOk cfg own c := by
  refine ⟨by rwa [hpc], fun hopen => ?_⟩
  simp [AcquireCall.isOpen, hpc] at hopen

theorem AnswerOk.arrive (cfg : ServiceConfig ι F) (request : AcquireRequest F) (now : ℤ) :
    AnswerOk cfg [] (AcquireCall.arrive cfg request now) := by
  unfold AcquireCall.arrive
  dsimp only
  split_ifs with hagent hembedding
  · exact .of_returned rfl (.refused .nil ⟨rfl, rfl, rfl⟩ (Or.inl ⟨hagent, rfl⟩))
  · exact .of_returned rfl (.refused .nil ⟨rfl, rfl, rfl⟩ (Or.inr ⟨hagent, hembedding, rfl⟩))
  · exact ⟨.nil, fun _ => ⟨rfl, rfl, rfl⟩⟩

/-- A step by which the call appends nothing. -/
theorem sessionEntries_of_proposal_none (h : c.proposal cfg = none) :
    own ++ c.sessionEntries cfg p i k = own := by
  simp [AcquireCall.sessionEntries, h]

theorem AttemptAt.congr {n : ℕ} {attempt : Attempt} (h : AttemptAt cfg own c n attempt)
    (hrequest : c'.request = c.request) (hmessage : c'.response.message = c.response.message) :
    AttemptAt cfg own c' n attempt := by
  have htype : c'.operationType = c.operationType := by
    rw [AcquireCall.operationType, hrequest, AcquireCall.operationType]
  cases attempt with
  | regular => exact Appends.congr h hrequest
  | qdrantFailed => exact ⟨h.1.congr hrequest, by rw [hmessage, htype]; exact h.2⟩
  | second =>
    obtain ⟨⟨m, hm, happends⟩, h⟩ := h
    exact ⟨⟨m, hm, happends.congr hrequest⟩, hmessage ▸ h⟩

/-- The attempt appends its RELEASE. -/
theorem AttemptAt.release {attempt : Attempt} (h : AttemptAt cfg own c 0 attempt)
    {r : SessionEntry ι F} (hr : r.Stamps (.release c.agentId)) :
    AttemptAt cfg (own ++ [r]) c 1 attempt := by
  cases attempt with
  | regular => exact Appends.release h hr
  | qdrantFailed => exact ⟨h.1.release hr, h.2⟩
  | second =>
    obtain ⟨⟨m, hm, happends⟩, h⟩ := h
    exact ⟨⟨m, hm, happends.release hr⟩, h⟩

/-- The attempt fails, having appended a RELEASE or not. -/
theorem AnswerOk.releaseFailed {n : ℕ} {attempt : Attempt} (h : AttemptAt cfg own c n attempt)
    (hn : n ≤ 1) (hmute : c.Mute) : AnswerOk cfg own (c.releaseFailed attempt) := by
  cases attempt with
  | regular => exact ⟨⟨⟨n, hn, Appends.congr h rfl⟩, rfl⟩, fun _ => ⟨rfl, hmute.2⟩⟩
  | qdrantFailed => exact .of_returned rfl (.qdrantFailed (h.1.congr rfl) hn hmute h.2)
  | second =>
    obtain ⟨⟨m, hm, happends⟩, h⟩ := h
    exact .of_returned rfl (.releaseFailed (happends.congr rfl) (by omega) hmute h)

theorem AnswerOk.releaseDone {attempt : Attempt} (h : AttemptAt cfg own c 1 attempt)
    (hmute : c.Mute) (now : ℤ) : AnswerOk cfg own (c.releaseDone attempt now) := by
  cases attempt with
  | regular => exact .of_returned rfl (.granted (Appends.congr h rfl) rfl hmute.2.1 hmute.2.2 rfl)
  | qdrantFailed => exact .of_returned rfl (.qdrantFailed (h.1.congr rfl) le_rfl hmute h.2)
  | second =>
    obtain ⟨⟨m, hm, happends⟩, h⟩ := h
    exact .of_returned rfl (.releaseFailed (happends.congr rfl) (by omega) hmute h)

/-- A step of the call, with what it appends. -/
theorem AnswerOk.step (h : AnswerOk cfg own c) (hrun : p.halted = false)
    (hstep : c.step cfg p t x = some (p', t', c')) :
    AnswerOk cfg (own ++ c.sessionEntries cfg p i k) c' := by
  obtain ⟨hstage, hmute⟩ := h
  have hquiet : c.proposal cfg = none → own ++ c.sessionEntries cfg p i k = own :=
    sessionEntries_of_proposal_none
  have hopen : (∀ status, c.pc ≠ .returned status) → c.Mute := by
    intro hpc
    refine hmute ?_
    unfold AcquireCall.isOpen
    split
    · rename_i status heq
      exact absurd heq (hpc status)
    · rfl
  unfold AcquireCall.step at hstep
  cases hpc : c.pc with
  | checkLeader =>
    have hm := hopen (by simp [hpc])
    rw [hquiet (by simp [AcquireCall.proposal, hpc])]
    simp only [hpc] at hstep hstage
    split_ifs at hstep <;> obtain ⟨rfl, rfl, rfl⟩ := hstep <;>
      exact ⟨Appends.congr hstage rfl, fun _ => hm⟩
  | redirect =>
    have hm := hopen (by simp [hpc])
    rw [hquiet (by simp [AcquireCall.proposal, hpc])]
    simp only [hpc] at hstep hstage
    obtain ⟨rfl, rfl, rfl⟩ := hstep
    unfold AcquireCall.redirectTo
    dsimp only
    split_ifs with hempty
    · refine .of_returned rfl (.notLeader (Appends.congr hstage rfl) rfl rfl ?_)
      change c.trailingMetadata = if c.response.leaderRedirect = "" then _ else _
      rw [if_pos hm.2.1, hm.2.2]
    · refine .of_returned rfl (.notLeader (Appends.congr hstage rfl) rfl rfl ?_)
      change c.trailingMetadata ++ [("leader-address", _)] = if _ = "" then _ else _
      rw [if_neg hempty, hm.2.2, List.nil_append]
  | admission a =>
    have hm := hopen (by simp [hpc])
    rw [hquiet (by simp [AcquireCall.proposal, hpc])]
    simp only [hpc] at hstage
    cases a with
    | returned trace =>
      simp only [hpc] at hstep
      obtain ⟨rfl, rfl, rfl⟩ := hstep
      exact ⟨Appends.congr hstage rfl, fun _ => hm⟩
    | gate =>
      simp only [hpc, Option.map_eq_some_iff] at hstep
      obtain ⟨⟨t₁, a'⟩, -, he⟩ := hstep
      obtain ⟨rfl, rfl, rfl⟩ := he
      exact ⟨Appends.congr hstage rfl, fun _ => hm⟩
    | asleep w trace =>
      simp only [hpc, Option.map_eq_some_iff] at hstep
      obtain ⟨⟨t₁, a'⟩, -, he⟩ := hstep
      obtain ⟨rfl, rfl, rfl⟩ := he
      exact ⟨Appends.congr hstage rfl, fun _ => hm⟩
  | proposeAcquire =>
    have hm := hopen (by simp [hpc])
    simp only [hpc] at hstep hstage
    rcases beginPropose_cases cfg.node hrun (c.acquireEntry cfg) with ⟨hlead, he⟩ | ⟨hlead, he⟩ <;>
      rw [he] at hstep <;> obtain ⟨rfl, rfl, rfl⟩ := hstep
    · have hnew : c.sessionEntries cfg p i k = [⟨i, k, p.node.log.length,
          { c.acquireEntry cfg with term := p.node.currentTerm }⟩] := by
        simp [AcquireCall.sessionEntries, AcquireCall.proposal, hpc, hlead]
      rw [hnew]
      exact ⟨(Appends.acquire hstage (stamps_of_eq rfl)).congr rfl, fun _ => hm⟩
    · have hnew : c.sessionEntries cfg p i k = [] := by
        simp [AcquireCall.sessionEntries, hlead]
      rw [hnew, List.append_nil]
      exact ⟨⟨0, Nat.zero_le 1, Appends.congr hstage rfl⟩, fun _ => hm⟩
  | awaitAcquireCommit index =>
    have hm := hopen (by simp [hpc])
    rw [hquiet (by simp [AcquireCall.proposal, hpc])]
    simp only [hpc, Option.map_eq_some_iff] at hstep hstage
    obtain ⟨ok, -, he⟩ := hstep
    obtain ⟨rfl, rfl, rfl⟩ := he
    cases ok with
    | false => exact ⟨⟨1, le_rfl, Appends.congr hstage rfl⟩, fun _ => hm⟩
    | true => exact ⟨Appends.congr hstage rfl, fun _ => hm⟩
  | removePending =>
    have hm := hopen (by simp [hpc])
    rw [hquiet (by simp [AcquireCall.proposal, hpc])]
    simp only [hpc] at hstep hstage
    obtain ⟨rfl, rfl, rfl⟩ := hstep
    obtain ⟨n, hn, happends⟩ := hstage
    exact ⟨Or.inl ⟨rfl, n, hn, happends.congr rfl⟩, fun _ => hm⟩
  | compensate message =>
    have hm := hopen (by simp [hpc])
    rw [hquiet (by simp [AcquireCall.proposal, hpc])]
    simp only [hpc] at hstep hstage
    obtain ⟨rfl, rfl, rfl⟩ := hstep
    rcases hstage with ⟨rfl, n, hn, happends⟩ | ⟨rfl, happends⟩
    · exact .of_returned rfl (.acquireFailed (happends.congr rfl) hn ⟨rfl, hm.2⟩ rfl)
    · exact .of_returned rfl (.applyTimedOut (happends.congr rfl) ⟨rfl, hm.2⟩ rfl)
  | awaitAcquireApplied index =>
    have hm := hopen (by simp [hpc])
    rw [hquiet (by simp [AcquireCall.proposal, hpc])]
    simp only [hpc, Option.map_eq_some_iff] at hstep hstage
    obtain ⟨ok, -, he⟩ := hstep
    obtain ⟨rfl, rfl, rfl⟩ := he
    cases ok with
    | false => exact ⟨Or.inr ⟨rfl, Appends.congr hstage rfl⟩, fun _ => hm⟩
    | true => exact ⟨Appends.congr hstage rfl, fun _ => hm⟩
  | qdrant =>
    have hm := hopen (by simp [hpc])
    rw [hquiet (by simp [AcquireCall.proposal, hpc])]
    simp only [hpc] at hstep hstage
    obtain ⟨rfl, rfl, rfl⟩ := hstep
    unfold AcquireCall.qdrantReturned
    cases x.qdrantOk with
    | true => exact ⟨Appends.congr hstage rfl, fun _ => hm⟩
    | false => exact ⟨⟨Appends.congr hstage rfl, rfl⟩, fun _ => ⟨rfl, hm.2⟩⟩
  | proposeRelease attempt =>
    have hm := hopen (by simp [hpc])
    simp only [hpc] at hstep hstage
    rcases beginPropose_cases cfg.node hrun (LogEntry.release c.agentId) with
      ⟨hlead, he⟩ | ⟨hlead, he⟩ <;> rw [he] at hstep <;> obtain ⟨rfl, rfl, rfl⟩ := hstep
    · have hnew : c.sessionEntries cfg p i k = [⟨i, k, p.node.log.length,
          { LogEntry.release c.agentId with term := p.node.currentTerm }⟩] := by
        simp [AcquireCall.sessionEntries, AcquireCall.proposal, hpc, hlead]
      rw [hnew]
      exact ⟨(AttemptAt.release hstage (stamps_of_eq rfl)).congr rfl rfl, fun _ => hm⟩
    · have hnew : c.sessionEntries cfg p i k = [] := by
        simp [AcquireCall.sessionEntries, hlead]
      rw [hnew, List.append_nil]
      exact .releaseFailed hstage (Nat.zero_le 1) hm
  | awaitReleaseCommit attempt index =>
    have hm := hopen (by simp [hpc])
    rw [hquiet (by simp [AcquireCall.proposal, hpc])]
    simp only [hpc, Option.map_eq_some_iff] at hstep hstage
    obtain ⟨ok, -, he⟩ := hstep
    obtain ⟨rfl, rfl, rfl⟩ := he
    cases ok with
    | false => exact .releaseFailed hstage le_rfl hm
    | true => exact ⟨AttemptAt.congr hstage rfl rfl, fun _ => hm⟩
  | awaitReleaseApplied attempt index =>
    have hm := hopen (by simp [hpc])
    rw [hquiet (by simp [AcquireCall.proposal, hpc])]
    simp only [hpc, Option.map_eq_some_iff] at hstep hstage
    obtain ⟨ok, -, he⟩ := hstep
    obtain ⟨rfl, rfl, rfl⟩ := he
    cases ok with
    | false => exact .releaseFailed hstage le_rfl hm
    | true => exact ⟨AttemptAt.congr hstage rfl rfl, fun _ => hm⟩
  | released attempt =>
    have hm := hopen (by simp [hpc])
    rw [hquiet (by simp [AcquireCall.proposal, hpc])]
    simp only [hpc] at hstep hstage
    obtain ⟨rfl, rfl, rfl⟩ := hstep
    exact .releaseDone hstage hm x.now
  | returned status => simp [hpc] at hstep

end Call

namespace Deployment

variable {ι F : Type*} [DecidableEq ι] [Arithmetic F] {cfg : DeploymentConfig ι F}
  {s s' : Deployment ι F × List (SessionEntry ι F)} {d : DeploymentAction ι F}

/-- All calls answer for what they have appended, and those to come have appended nothing. -/
structure AnswersInv (cfg : DeploymentConfig ι F)
    (s : Deployment ι F × List (SessionEntry ι F)) : Prop where
  calls : ∀ i k c, (s.1.nodes i).acquires[k]? = some c →
    AnswerOk (cfg.service i) (ownEntries s.2 i k) c
  unborn : ∀ i k, (s.1.nodes i).acquires.length ≤ k → ownEntries s.2 i k = []

theorem AnswersInv.step (h : AnswersInv cfg s) (hstep : (recorded cfg).step s d = some s') :
    AnswersInv cfg s' := by
  obtain ⟨hstep, hlog⟩ := System.logging_step.mp hstep
  suffices hall : ∀ i, (∀ k c, (s'.1.nodes i).acquires[k]? = some c →
      AnswerOk (cfg.service i) (ownEntries s'.2 i k) c) ∧
      ∀ k, (s'.1.nodes i).acquires.length ≤ k → ownEntries s'.2 i k = [] from
    ⟨fun i => (hall i).1, fun i => (hall i).2⟩
  intro i
  rcases acquires_cases hstep i with ⟨hsame, hnone⟩ | ⟨request, now, hnew, hnone⟩ |
    ⟨l, x, c₀, p, t, c', rfl, hrun, hl, hcall, hset⟩
  · refine ⟨fun k c hk => ?_, fun k hk => ?_⟩ <;>
      rw [hlog, ownEntries_append, hnone, List.append_nil]
    · exact h.calls i k c (hsame ▸ hk)
    · exact h.unborn i k (hsame ▸ hk)
  · rw [hlog, hnone, List.append_nil, hnew]
    refine ⟨fun k c hk => ?_, fun k hk => h.unborn i k ?_⟩
    · rcases getElem?_of_concat hk with hk | ⟨rfl, rfl⟩
      · exact h.calls i k c hk
      · rw [h.unborn i _ le_rfl]
        exact .arrive _ _ _
    · rw [List.length_append] at hk
      omega
  · have hl' := (List.getElem?_eq_some_iff.mp hl).1
    rw [hset, hlog, sessionEntries_acquire hl]
    refine ⟨fun k c hk => ?_, fun k hk => ?_⟩ <;> rw [ownEntries_append]
    · rcases eq_or_ne k l with rfl | hne
      · rw [List.getElem?_set_self hl', Option.some.injEq] at hk
        subst hk
        rw [ownEntries_self (fun r hr => AcquireCall.mem_sessionEntries hr)]
        exact (h.calls i k c₀ hl).step hrun hcall
      · rw [List.getElem?_set_ne hne.symm] at hk
        rw [ownEntries_of_ne (fun r hr => AcquireCall.mem_sessionEntries hr) (by tauto),
          List.append_nil]
        exact h.calls i k c hk
    · rw [List.length_set] at hk
      rw [h.unborn i k hk, ownEntries_of_ne (fun r hr => AcquireCall.mem_sessionEntries hr)
        (by rintro ⟨-, rfl⟩; omega)]
      rfl

theorem AnswersInv.of_run {as : List (DeploymentAction ι F)}
    (h : (recorded cfg).exec as = some s) : AnswersInv cfg s := by
  refine (recorded cfg).invariant ⟨fun i k c hc => ?_, fun _ _ _ => rfl⟩
    (fun _ _ _ => AnswersInv.step) h
  simp [recorded, System.logging, system, start, DsccNode.start] at hc

/-- Every answer of `AcquireGuard`, in every run of the deployment, is of one of the seven
kinds, and says what its call has appended. -/
theorem acquireGuard_answers (cfg : DeploymentConfig ι F) (as : List (DeploymentAction ι F))
    (s : Deployment ι F × List (SessionEntry ι F)) (h : (recorded cfg).exec as = some s) (i : ι)
    (k : ℕ) (c : AcquireCall F) (hc : (s.1.nodes i).acquires[k]? = some c) (status : Status)
    (hreturned : c.status = some status) :
    Answer (cfg.service i) (ownEntries s.2 i k) c status := by
  have hstage := ((AnswersInv.of_run h).calls i k c hc).stage
  rwa [AcquireCall.status_eq_some.mp hreturned] at hstage

theorem acquireGuard_answers_grant :
    ∃ s : Deployment (Fin 3) ℤ × List (SessionEntry (Fin 3) ℤ),
      (recorded .test).exec grantRun = some s ∧ ∃ c, (s.1.nodes 0).acquires[0]? = some c ∧
        Answer (DeploymentConfig.test.service 0) (ownEntries s.2 0 0) c .ok := by
  obtain ⟨s, hs, c, hc, hreturned⟩ := (recorded .test).exists_exec grantRun
    (fun s => ∃ c ∈ (s.1.nodes 0).acquires[0]?, c.status = some .ok) (by decide +kernel)
  exact ⟨s, hs, c, hc, acquireGuard_answers .test grantRun s hs 0 0 c hc .ok hreturned⟩

end Deployment

end DistributedLock.Service
