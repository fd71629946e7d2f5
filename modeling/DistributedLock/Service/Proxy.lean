import DistributedLock.Service.Steps

/-! `ProxyServiceImpl`: how one call of a client is forwarded. The proxy sees of an
attempt only a status, which may also come from its own end of the connection, while the
handler on the node runs on. A node answers with `UNAVAILABLE` before and after its
Qdrant operation alike, so an attempt may be repeated that took effect. -/

namespace DistributedLock.Service

open Library Raft Table

/-! ### Forwarding -/

/-- What the proxy sees of a forwarded call: the answer of the handler with its trailing
metadata, or a status of the library on its own side: the deadline has passed, the
connection has failed, or any other. -/
inductive Outcome where
  | answered (status : Status) (trailingMetadata : List (String × String))
  | deadlineExceeded
  | unavailable
  | failed
  deriving DecidableEq

/-- What the client gets: the status of the last attempt, or one of the proxy's own with
code `UNAVAILABLE`. -/
inductive Reply where
  | forwarded (outcome : Outcome)
  | unavailable (message : String)
  deriving DecidableEq

/-- `RefreshLeader`: the value returned, and the one that `SetCurrentLeader` has stored. The
backends are asked in order; `none` is a call of `GetLeader` that failed. -/
def refreshLeader : List (Option LeaderInfo) → String × String
  | [] => ("", "")
  | none :: responses => refreshLeader responses
  | some response :: responses =>
    if response.isLeader ∧ response.leaderAddress ≠ "" then
      (response.leaderAddress, response.leaderAddress)
    else if response.leaderAddress ≠ "" then (response.leaderAddress, response.leaderAddress)
    else refreshLeader responses

/-- `ExtractLeaderRedirect`. -/
def extractLeaderRedirect (trailingMetadata : List (String × String)) : String :=
  (trailingMetadata.lookup "leader-address").getD ""

/-- The body of the loop of `ForwardWithLeaderRetry` after an attempt: the target of the
next one, if there is to be one. `refreshed` is what `RefreshLeader` would return. -/
def nextTarget (outcome : Outcome) (refreshed : String) : Option String :=
  let found (target : String) : Option String := if target = "" then none else some target
  match outcome with
  | .answered status trailingMetadata =>
    if status.code = .ok then none
    else if status.code = .failedPrecondition ∧ status.message = "NOT_LEADER" then
      let redirected := extractLeaderRedirect trailingMetadata
      found (if redirected = "" then refreshed else redirected)
    else if status.code = .unavailable then found refreshed
    else none
  | .deadlineExceeded | .unavailable => found refreshed
  | .failed => none

section

variable {A : Type*} (outcome : A → Outcome) (rpc : ℕ → String → A)
  (polls : ℕ → List (Option LeaderInfo))

/-- The loop of `ForwardWithLeaderRetry` with `left` turns left: the attempts made, and
the reply. `rpc attempt target` is what the attempt comes to. -/
def retryLoop (attempt : ℕ) (target : String) : (left : ℕ) → List A × Reply
  | 0 => ([], .unavailable "Leader changed during request forwarding")
  | left + 1 =>
    let a := rpc attempt target
    match nextTarget (outcome a) (refreshLeader (polls attempt)).1 with
    | some target =>
      let (attempts, reply) := retryLoop (attempt + 1) target left
      (a :: attempts, reply)
    | none => ([a], .forwarded (outcome a))

/-- `ForwardWithLeaderRetry`; `cached` is what `CurrentLeader` returns when the first
refresh finds no leader. -/
def forwardWithLeaderRetry (first : List (Option LeaderInfo)) (cached : String) :
    List A × Reply :=
  let refreshed := (refreshLeader first).1
  let target := if refreshed = "" then cached else refreshed
  if target = "" then ([], .unavailable "No leader available")
  else retryLoop outcome rpc polls 0 target 3

theorem retryLoop_length (attempt : ℕ) (target : String) (left : ℕ) :
    (retryLoop outcome rpc polls attempt target left).1.length ≤ left := by
  induction left generalizing attempt target with
  | zero => exact le_rfl
  | succ left ih =>
    unfold retryLoop
    dsimp only
    split
    · exact Nat.succ_le_succ (ih _ _)
    · exact Nat.succ_le_succ (Nat.zero_le _)

/-- Another attempt is made only after one whose outcome asks for it. -/
theorem retryLoop_pairwise (attempt : ℕ) (target : String) (left : ℕ) :
    (retryLoop outcome rpc polls attempt target left).1.Pairwise fun a _ =>
      ∃ refreshed, (nextTarget (outcome a) refreshed).isSome := by
  induction left generalizing attempt target with
  | zero => exact List.Pairwise.nil
  | succ left ih =>
    unfold retryLoop
    dsimp only
    split
    next next hnext =>
      refine List.pairwise_cons.mpr ⟨fun _ _ => ⟨(refreshLeader (polls attempt)).1, ?_⟩, ih _ _⟩
      rw [hnext]
      rfl
    · exact List.pairwise_singleton _ _

theorem forwardWithLeaderRetry_pairwise (first : List (Option LeaderInfo)) (cached : String) :
    (forwardWithLeaderRetry outcome rpc polls first cached).1.Pairwise fun a _ =>
      ∃ refreshed, (nextTarget (outcome a) refreshed).isSome := by
  unfold forwardWithLeaderRetry
  dsimp only
  generalize (if (refreshLeader first).1 = "" then cached else (refreshLeader first).1) = target
  split_ifs
  · exact List.Pairwise.nil
  · exact retryLoop_pairwise outcome rpc polls _ _ _

theorem forwardWithLeaderRetry_length (first : List (Option LeaderInfo)) (cached : String) :
    (forwardWithLeaderRetry outcome rpc polls first cached).1.length ≤ 3 := by
  unfold forwardWithLeaderRetry
  dsimp only
  generalize (if (refreshLeader first).1 = "" then cached else (refreshLeader first).1) = target
  split_ifs
  · exact Nat.zero_le 3
  · exact retryLoop_length outcome rpc polls _ _ _

end

/-! ### A handler and what the proxy sees of it -/

/-- The surroundings of one step of a handler. -/
structure Moment (ι F : Type*) where
  raft : Process ι F
  table : LockTable F
  choice : Choice

namespace AcquireCall

variable {ι F : Type*} [Arithmetic F]

/-- One handler of `AcquireGuard` by itself, in surroundings that others change as they
please. -/
def session (cfg : ServiceConfig ι F) (request : AcquireRequest F) (now : ℤ) :
    System (AcquireCall F) (Moment ι F) where
  init := arrive cfg request now
  step c m := (c.step cfg m.raft m.table m.choice).map fun (_, _, c) => c

/-- The handler has reached its Qdrant operation, or is past it. -/
def reachedQdrant (c : AcquireCall F) : Prop :=
  match c.pc with
  | .qdrant | .proposeRelease _ | .awaitReleaseCommit _ _ | .awaitReleaseApplied _ _ => True
  | .released _ => True
  | .returned status => status = .ok ∨
      status = { code := .unavailable, message := "Raft quorum not reached for RELEASE" }
  | _ => False

variable {cfg : ServiceConfig ι F} {p p' : Process ι F} {t t' : LockTable F}
  {c c' : AcquireCall F} {x : Choice}

omit [Arithmetic F] in
theorem releaseFailed_reachedQdrant (c : AcquireCall F) (attempt : Attempt) :
    (c.releaseFailed attempt).reachedQdrant := by
  cases attempt with
  | regular => trivial
  | qdrantFailed => exact Or.inl rfl
  | second => exact Or.inr rfl

omit [Arithmetic F] in
theorem releaseDone_reachedQdrant (c : AcquireCall F) (attempt : Attempt) (now : ℤ) :
    (c.releaseDone attempt now).reachedQdrant := by
  cases attempt with
  | regular => exact Or.inl rfl
  | qdrantFailed => exact Or.inl rfl
  | second => exact Or.inr rfl

theorem reachedQdrant_step (hc : c.reachedQdrant) (h : c.step cfg p t x = some (p', t', c')) :
    c'.reachedQdrant := by
  unfold reachedQdrant at hc
  unfold step at h
  cases hpc : c.pc with
  | qdrant =>
    simp only [hpc] at h
    obtain ⟨rfl, rfl, rfl⟩ := h
    unfold qdrantReturned
    split_ifs <;> trivial
  | proposeRelease attempt =>
    simp only [hpc] at h
    split at h <;> obtain ⟨rfl, rfl, rfl⟩ := h
    · trivial
    · exact c.releaseFailed_reachedQdrant attempt
  | awaitReleaseCommit attempt index =>
    simp only [hpc, Option.map_eq_some_iff] at h
    obtain ⟨ok, -, he⟩ := h
    obtain ⟨rfl, rfl, rfl⟩ := he
    cases ok with
    | true => trivial
    | false => exact c.releaseFailed_reachedQdrant attempt
  | awaitReleaseApplied attempt index =>
    simp only [hpc, Option.map_eq_some_iff] at h
    obtain ⟨ok, -, he⟩ := h
    obtain ⟨rfl, rfl, rfl⟩ := he
    cases ok with
    | true => trivial
    | false => exact c.releaseFailed_reachedQdrant attempt
  | released attempt =>
    simp only [hpc] at h
    obtain ⟨rfl, rfl, rfl⟩ := h
    exact c.releaseDone_reachedQdrant attempt x.now
  | returned status => simp [hpc] at h
  | _ => simp [hpc] at hc

/-- A handler that has reached its Qdrant operation answers `OK`, or that its RELEASE was
not committed. -/
theorem session_reachedQdrant {request : AcquireRequest F} {now : ℤ} {ms : List (Moment ι F)}
    {c d : AcquireCall F} (h : (session cfg request now).exec ms = some c)
    (hd : (session cfg request now).Passes ms d) (hqdrant : d.pc = .qdrant) :
    c.reachedQdrant := by
  refine ((session cfg request now).runInvariant
    (P := fun ms c => (session cfg request now).exec ms = some c ∧
      ∀ d, (session cfg request now).Passes ms d → d.pc = .qdrant → c.reachedQdrant)
    ⟨rfl, fun d hd hq => ?_⟩ (fun ms c m c' ih hstep => ?_) h).2 d hd hqdrant
  · rw [hd.of_nil] at hq
    unfold session arrive at hq
    dsimp only at hq
    split_ifs at hq <;> cases hq
  · have hexec := (session cfg request now).exec_concat.mpr ⟨c, ih.1, hstep⟩
    refine ⟨hexec, fun d hd hq => ?_⟩
    rcases hd.of_concat with hd | hd
    · obtain ⟨⟨p, t, c₁⟩, hc, rfl⟩ := Option.map_eq_some_iff.mp hstep
      exact reachedQdrant_step (ih.2 d hd hq) hc
    · obtain rfl := Option.some.inj (hd.symm.trans hexec)
      rw [reachedQdrant, hq]
      trivial

end AcquireCall

/-- The surroundings of the steps that call `k` of a node takes. -/
def DsccNode.momentsOf {ι F : Type*} (k : ℕ) (s : DsccNode ι F) : Action ι F → List (Moment ι F)
  | .acquire j x => if j = k then [⟨s.raft, s.table, x⟩] else []
  | _ => []

/-- In every run of a node each call is such a session. -/
theorem DsccNode.session_of_run {ι F : Type*} [DecidableEq ι] [Arithmetic F]
    {cfg : ServiceConfig ι F} {k : ℕ} {as : List (Action ι F)}
    {s : DsccNode ι F × List (Moment ι F)}
    (h : ((system cfg).logging (momentsOf k)).exec as = some s) {c : AcquireCall F}
    (hk : s.1.acquires[k]? = some c) :
    ∃ now, (AcquireCall.session cfg c.request now).exec s.2 = some c := by
  refine (((system cfg).logging (momentsOf k)).invariant
    (P := fun s => (s.1.acquires[k]? = none → s.2 = []) ∧ ∀ c, s.1.acquires[k]? = some c →
      ∃ now, (AcquireCall.session cfg c.request now).exec s.2 = some c)
    ⟨fun _ => rfl, fun c hc => by cases hc⟩ (fun s a s' hs ht => ?_) h).2 c hk
  obtain ⟨hstep, hlog⟩ := System.logging_step.mp ht
  have hsame : s'.1.acquires[k]? = s.1.acquires[k]? → s'.2 = s.2 →
      (s'.1.acquires[k]? = none → s'.2 = []) ∧ ∀ c, s'.1.acquires[k]? = some c →
        ∃ now, (AcquireCall.session cfg c.request now).exec s'.2 = some c := by
    intro hget heq
    rw [hget, heq]
    exact hs
  generalize s'.1 = n at hstep hsame ⊢
  cases (step_cases hstep).2 with
  | acquireGuard request now =>
    have hempty : momentsOf k s.1 (.acquireGuard request now) = [] := rfl
    rw [hempty, List.append_nil] at hlog
    rw [hlog]
    refine ⟨fun hnone => hs.1 ?_, fun c hc => ?_⟩
    · rw [List.getElem?_eq_none_iff] at hnone ⊢
      exact le_trans (by simp) hnone
    · rcases getElem?_of_concat hc with hold | ⟨rfl, rfl⟩
      · exact hs.2 c hold
      · rw [hs.1 (List.getElem?_eq_none le_rfl), AcquireCall.arrive_request]
        exact ⟨now, rfl⟩
  | acquire j x d p t d' hj hopen hmove hcall =>
    rcases eq_or_ne j k with rfl | hne
    · have hlt := (List.getElem?_eq_some_iff.mp hj).1
      rw [momentsOf, if_pos rfl] at hlog
      rw [hlog, List.getElem?_set_self hlt]
      refine ⟨fun hnone => (by cases hnone), fun c hc => ?_⟩
      obtain rfl := Option.some.inj hc
      obtain ⟨now, hexec⟩ := hs.2 d hj
      rw [hmove.request]
      exact ⟨now, System.exec_concat _ |>.mpr ⟨d, hexec, by simp [AcquireCall.session, hcall]⟩⟩
    · refine hsame (List.getElem?_set_ne hne) ?_
      rw [hlog, momentsOf, if_neg hne, List.append_nil]
  | _ => exact hsame rfl (hlog.trans (List.append_nil _))

/-- One attempt to forward the request: what the node's handler does with it, from the
start on and as far as it ever comes, and what the proxy sees of it. -/
structure Forwarded (ι F : Type*) [Arithmetic F] (request : AcquireRequest F) where
  cfg : ServiceConfig ι F
  now : ℤ
  moments : List (Moment ι F)
  call : AcquireCall F
  run : (AcquireCall.session cfg request now).exec moments = some call
  outcome : Outcome
  heard : ∀ status trailingMetadata, outcome = .answered status trailingMetadata →
    call.pc = .returned status ∧ call.trailingMetadata = trailingMetadata

namespace Forwarded

variable {ι F : Type*} [Arithmetic F] {request : AcquireRequest F}

/-- The handler reaches its Qdrant operation. -/
def ReachesQdrant (f : Forwarded ι F request) : Prop :=
  ∃ c, (AcquireCall.session f.cfg request f.now).Passes f.moments c ∧ c.pc = .qdrant

/-- The proxy has not heard the handler out, or has heard that the RELEASE was not
committed. -/
def LeftOpen (f : Forwarded ι F request) : Prop :=
  f.outcome = .deadlineExceeded ∨ f.outcome = .unavailable ∨ ∃ trailingMetadata,
    f.outcome = .answered
      { code := .unavailable, message := "Raft quorum not reached for RELEASE" } trailingMetadata

theorem leftOpen (f : Forwarded ι F request) (h : f.ReachesQdrant) {refreshed : String}
    (hnext : (nextTarget f.outcome refreshed).isSome) : f.LeftOpen := by
  obtain ⟨c, hc, hqdrant⟩ := h
  have hreached := AcquireCall.session_reachedQdrant f.run hc hqdrant
  cases hout : f.outcome with
  | deadlineExceeded => exact Or.inl hout
  | unavailable => exact Or.inr (Or.inl hout)
  | failed => simp [hout, nextTarget] at hnext
  | answered status trailingMetadata =>
    obtain ⟨hpc, -⟩ := f.heard _ _ hout
    rw [AcquireCall.reachedQdrant, hpc] at hreached
    rcases hreached with rfl | rfl
    · simp [hout, nextTarget, Status.ok] at hnext
    · exact Or.inr (Or.inr ⟨trailingMetadata, hout⟩)

/-- One call of a client is forwarded three times at most; and when two of the attempts
reach their Qdrant operation, the proxy had not heard the earlier one out, or had heard
that its RELEASE was not committed. -/
theorem repeated_only_if_left_open (request : AcquireRequest F)
    (rpc : ℕ → String → Forwarded ι F request) (polls : ℕ → List (Option LeaderInfo))
    (first : List (Option LeaderInfo)) (cached : String) :
    (forwardWithLeaderRetry outcome rpc polls first cached).1.length ≤ 3 ∧
      (forwardWithLeaderRetry outcome rpc polls first cached).1.Pairwise fun f g =>
        f.ReachesQdrant → g.ReachesQdrant → f.LeftOpen := by
  refine ⟨forwardWithLeaderRetry_length _ _ _ _ _, ?_⟩
  refine (forwardWithLeaderRetry_pairwise outcome rpc polls first cached).imp ?_
  rintro f g ⟨refreshed, hnext⟩ hf -
  exact f.leftOpen hf hnext

/-! ### Work done twice -/

/-- The proxy's deadline passes while the ACQUIRE of the first call waits to be applied.
The second call waits behind the lock of the first, whose handler runs on, and is handed
the slot when that lock is released. -/
def deadlineRun : List (Action Unit ℤ) :=
  List.flatten [[.acquireGuard ⟨"a", [1, 0], .write⟩ 0], List.replicate 5 (.acquire 0 {}),
    [.acquireGuard ⟨"a", [1, 0], .write⟩ 0], List.replicate 2 (.acquire 1 {}),
    DsccNode.applyNext, List.replicate 4 (.acquire 0 {}), DsccNode.applyNext,
    List.replicate 2 (.acquire 0 {}), List.replicate 4 (.acquire 1 {}), DsccNode.applyNext,
    List.replicate 4 (.acquire 1 {}), DsccNode.applyNext, List.replicate 2 (.acquire 1 {})]

/-- Every node names this leader. -/
def aloneLeader : List (Option LeaderInfo) :=
  [some ⟨"node-1", "127.0.0.1:50051", 1, true⟩]

/-- The status a handler has returned. -/
def answer (c : AcquireCall ℤ) : Option Status :=
  match c.pc with
  | .returned status => some status
  | _ => none

def atQdrant (c : AcquireCall ℤ) : Bool :=
  match c.pc with
  | .qdrant => true
  | _ => false

/-- A session that is computed: it reaches its Qdrant operation and answers `OK`. -/
def succeeds (request : AcquireRequest ℤ) (ms : List (Moment Unit ℤ)) : Bool :=
  let session := AcquireCall.session .alone request 0
  ((session.exec ms).any fun c => answer c = some .ok ∧ c.trailingMetadata = []) &&
    (List.range (ms.length + 1)).any fun n => (session.exec (ms.take n)).any atQdrant

theorem exists_forwarded {request : AcquireRequest ℤ} {ms : List (Moment Unit ℤ)}
    (h : succeeds request ms = true) (outcome : Outcome)
    (houtcome : ∀ status trailingMetadata, outcome = .answered status trailingMetadata →
      status = .ok ∧ trailingMetadata = []) :
    ∃ f : Forwarded Unit ℤ request, f.moments = ms ∧ f.outcome = outcome ∧ f.ReachesQdrant := by
  unfold succeeds at h
  dsimp only at h
  rw [Bool.and_eq_true, Option.any_eq_true, List.any_eq_true] at h
  obtain ⟨⟨c, hrun, hc⟩, n, -, hn⟩ := h
  obtain ⟨d, hd, hqdrant⟩ := (Option.any_eq_true _ _).mp hn
  obtain ⟨hanswer, hmetadata⟩ := of_decide_eq_true hc
  refine ⟨⟨.alone, 0, ms, c, hrun, outcome, fun status metadata heq => ?_⟩, rfl, rfl, d, ⟨n, hd⟩, ?_⟩
  · obtain ⟨rfl, rfl⟩ := houtcome status metadata heq
    refine ⟨?_, hmetadata⟩
    unfold answer at hanswer
    split at hanswer
    next status hpc =>
      rw [hpc, Option.some.inj hanswer]
    · cases hanswer
  · unfold atQdrant at hqdrant
    split at hqdrant
    next hpc => exact hpc
    · cases hqdrant

theorem work_done_twice :
    ∃ (late second : Forwarded Unit ℤ ⟨"a", [1, 0], .write⟩)
      (rpc : ℕ → String → Forwarded Unit ℤ ⟨"a", [1, 0], .write⟩),
      (((DsccNode.system .alone).logging (DsccNode.momentsOf 0)).exec deadlineRun).map Prod.snd =
        some late.moments ∧
      (((DsccNode.system .alone).logging (DsccNode.momentsOf 1)).exec deadlineRun).map Prod.snd =
        some second.moments ∧
      late.outcome = .deadlineExceeded ∧
      forwardWithLeaderRetry outcome rpc (fun _ => aloneLeader) aloneLeader "" =
        ([late, second], .forwarded (.answered .ok [])) ∧
      ¬ (forwardWithLeaderRetry outcome rpc (fun _ => aloneLeader) aloneLeader "").1.Pairwise
        fun f g => ¬ (f.ReachesQdrant ∧ g.ReachesQdrant) := by
  obtain ⟨s, hs, hlate⟩ := System.exists_exec
    ((DsccNode.system .alone).logging (DsccNode.momentsOf 0)) deadlineRun
    (fun s => succeeds ⟨"a", [1, 0], .write⟩ s.2 = true) (by decide +kernel)
  obtain ⟨s', hs', hsecond⟩ := System.exists_exec
    ((DsccNode.system .alone).logging (DsccNode.momentsOf 1)) deadlineRun
    (fun s => succeeds ⟨"a", [1, 0], .write⟩ s.2 = true) (by decide +kernel)
  obtain ⟨late, hmoments, hlateOutcome, hlateQdrant⟩ := exists_forwarded hlate .deadlineExceeded
    fun _ _ heq => by cases heq
  obtain ⟨second, hmoments', hsecondOutcome, hsecondQdrant⟩ := exists_forwarded hsecond
    (.answered .ok []) fun _ _ heq => by
      obtain ⟨rfl, rfl⟩ := Outcome.answered.inj heq
      exact ⟨rfl, rfl⟩
  let rpc (attempt : ℕ) (_ : String) := if attempt = 0 then late else second
  have hmade : forwardWithLeaderRetry outcome rpc (fun _ => aloneLeader) aloneLeader "" =
      ([late, second], .forwarded (.answered .ok [])) := by
    simp [forwardWithLeaderRetry, retryLoop, rpc, hlateOutcome, hsecondOutcome, nextTarget,
      refreshLeader, aloneLeader, Status.ok]
  refine ⟨late, second, rpc, by rw [hs, hmoments]; rfl, by rw [hs', hmoments']; rfl, hlateOutcome,
    hmade, fun hapart => ?_⟩
  rw [hmade] at hapart
  exact List.rel_of_pairwise_cons hapart List.mem_cons_self ⟨hlateQdrant, hsecondQdrant⟩

end Forwarded

end DistributedLock.Service
