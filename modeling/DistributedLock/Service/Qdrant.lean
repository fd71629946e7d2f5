import DistributedLock.Library.Http
import DistributedLock.Service.LockService
import DistributedLock.Service.PointId
import DistributedLock.Service.QdrantBody

/-! The calls of Qdrant that an `AcquireGuard` makes while it holds its lock. What the
network does is a choice of the environment: which addresses can be connected to, how
much each `send` takes, and what each `recv` returns. A call that reports success has
handed over what it was called for, whole and as one request that a server reads as such. -/

namespace DistributedLock.Service

open Library

/-- The constructor arguments of `LockServiceImpl` that name the Qdrant server. -/
structure QdrantConfig where
  host : String
  port : String
  collection : String

/-! ### One request -/

/-- What becomes of an address that `getaddrinfo` has returned. -/
inductive Address where
  | noSocket | refused | connected
  deriving DecidableEq

/-- What the network does during a call of `send_http_json`. -/
structure Exchange where
  /-- Nothing, when the name is not resolved. -/
  addresses : Option (List Address) := some [.connected]
  /-- What the calls of `send` return; those after them fail. -/
  sent : List ℤ
  /-- What the calls of `recv` return, no bytes at the end of the stream; nothing is a failure. -/
  received : List (Option (List UInt8))

/-- `send_all`: the bytes that are sent, and the result. -/
def sendAll : List ℤ → List UInt8 → List UInt8 × Bool
  | _, [] => ([], true)
  | [], _ :: _ => ([], false)
  | sent :: answers, b :: payload =>
    if sent ≤ 0 then ([], false)
    else
      let r := sendAll answers ((b :: payload).drop sent.toNat)
      ((b :: payload).take sent.toNat ++ r.1, r.2)

/-- The loop around `recv`. -/
def receiveAll (responseBody : List UInt8) : List (Option (List UInt8)) → List UInt8 × Bool
  | [] => (responseBody, true)
  | none :: _ => (responseBody, false)
  | some [] :: _ => (responseBody, true)
  | some (b :: buffer) :: answers => receiveAll (responseBody ++ b :: buffer) answers

/-- `std::isspace`. -/
def isSpaceByte (b : UInt8) : Bool := b = 0x20 || (0x09 ≤ b && b ≤ 0x0D)

/-- `>>` into a string: the word, and what is left of the stream. -/
def extractWord (stream : List UInt8) : List UInt8 × List UInt8 :=
  let stream := stream.dropWhile isSpaceByte
  (stream.takeWhile (!isSpaceByte ·), stream.dropWhile (!isSpaceByte ·))

/-- The value of the digits a stream starts with. -/
def extractDigits (stream : List UInt8) : ℤ :=
  (stream.takeWhile fun b => 0x30 ≤ b && b ≤ 0x39).foldl
    (fun value b => 10 * value + (b.toNat - 0x30 : ℕ)) 0

/-- `>>` into an `int`, which is 0 without digits and clipped to the range of the type. -/
def extractInt (stream : List UInt8) : ℤ :=
  match stream.dropWhile isSpaceByte with
  | 0x2D :: stream => max (-2 ^ 31) (-extractDigits stream)
  | 0x2B :: stream => min (2 ^ 31 - 1) (extractDigits stream)
  | stream => min (2 ^ 31 - 1) (extractDigits stream)

/-- The result of `send_http_json` when there is a response, and the status code. -/
def readStatus (responseBody : List UInt8) : Bool × ℤ :=
  let httpVersion := extractWord responseBody
  let statusCode := if httpVersion.1 = [] then 0 else extractInt httpVersion.2
  (httpVersion.1 ≠ [] ∧ 0 < statusCode, statusCode)

/-- What a call of `send_http_json` sends and returns. -/
structure HttpReply where
  wire : List UInt8
  ok : Bool
  statusCode : ℤ
  responseBody : List UInt8
  deriving DecidableEq

/-- The `request` stream. -/
def requestPayload (cfg : QdrantConfig) (method target : String) (body : List UInt8) :
    List UInt8 :=
  bytesOf method ++ bytesOf " " ++ bytesOf target ++ bytesOf " HTTP/1.1\r\n" ++
    bytesOf "Host: " ++ bytesOf cfg.host ++ bytesOf ":" ++ bytesOf cfg.port ++ bytesOf "\r\n" ++
    bytesOf "Content-Type: application/json\r\n" ++ bytesOf "Connection: close\r\n" ++
    bytesOf "Content-Length: " ++ encodeUtf8 (Nat.toDigits 10 body.length) ++
    bytesOf "\r\n\r\n" ++ body

def sendHttpJson (cfg : QdrantConfig) (x : Exchange) (method target : String)
    (body : List UInt8) : HttpReply :=
  match x.addresses with
  | none => { wire := [], ok := false, statusCode := 0, responseBody := [] }
  | some addresses =>
    if .connected ∉ addresses then { wire := [], ok := false, statusCode := 0, responseBody := [] }
    else
      let sent := sendAll x.sent (requestPayload cfg method target body)
      if !sent.2 then { wire := sent.1, ok := false, statusCode := 0, responseBody := [] }
      else
        let received := receiveAll [] x.received
        if !received.2 then
          { wire := sent.1, ok := false, statusCode := 0, responseBody := received.1 }
        else
          let status := readStatus received.1
          { wire := sent.1, ok := status.1, statusCode := status.2, responseBody := received.1 }

/-! ### The operations -/

/-- `find` does not return `npos`. -/
def contains (text word : List UInt8) : Bool := text.tails.any word.isPrefixOf

/-- The value `ensure_qdrant_collection` returns when the request has been answered. -/
def HttpReply.ensured (r : HttpReply) : Bool :=
  r.statusCode = 200 || r.statusCode = 201 || r.statusCode = 409 ||
    (r.statusCode = 400 && contains (r.responseBody.map Http.lower) (bytesOf "already exists"))

def ensureQdrantCollection (cfg : QdrantConfig) (x : Exchange) (vectorSize : ℕ) :
    Bool × List HttpReply :=
  if vectorSize = 0 then (false, [])
  else
    let r := sendHttpJson cfg x "PUT" ("/collections/" ++ cfg.collection) (ensureBody vectorSize)
    (r.ok && r.ensured, [r])

/-- `retryable`. -/
def HttpReply.retryable (r : HttpReply) : Bool :=
  r.statusCode = 500 && contains r.responseBody (bytesOf "Please retry")

/-- The loop over the attempts, of which `left` are left; `call` sends the request. -/
def attempts (call : ℕ → HttpReply) (attempt : ℕ) : ℕ → Bool × List HttpReply
  | 0 => (false, [])
  | left + 1 =>
    let r := call attempt
    let next := attempts call (attempt + 1) left
    if !r.ok then
      if attempt < 3 then (next.1, r :: next.2) else (false, [r])
    else if r.statusCode = 200 ∨ r.statusCode = 201 then (true, [r])
    else if r.retryable ∧ attempt < 3 then (next.1, r :: next.2)
    else (false, [r])

/-- The first call of the network is for the collection, the others are the attempts. -/
def upsertEmbeddingToQdrant (cfg : QdrantConfig) (network : ℕ → Exchange) (pointId : Int64)
    (agentId payloadText sourceFile : String) (timestampUnixMs : Int64)
    (embedding : List Binary32) : Bool × List HttpReply :=
  if embedding = [] then (false, [])
  else
    let ensure := ensureQdrantCollection cfg (network 0) embedding.length
    if !ensure.1 then ensure
    else
      let body := upsertBody pointId agentId payloadText sourceFile timestampUnixMs embedding
      let target := "/collections/" ++ cfg.collection ++ "/points?wait=true"
      let s := attempts (fun attempt => sendHttpJson cfg (network attempt) "PUT" target body) 1 3
      (s.1, ensure.2 ++ s.2)

def queryEmbeddingFromQdrant (cfg : QdrantConfig) (network : ℕ → Exchange)
    (embedding : List Binary32) : Bool × List HttpReply :=
  if embedding = [] then (false, [])
  else
    let target := "/collections/" ++ cfg.collection ++ "/points/search"
    let r := sendHttpJson cfg (network 0) "POST" target (queryBody embedding)
    (r.ok && r.statusCode = 200, [r])

/-- The Qdrant operation of `AcquireGuard`. -/
def qdrantOperation (cfg : QdrantConfig) (network : ℕ → Exchange)
    (operationType : OperationType) (agentId payloadText sourceFile : String)
    (timestampUnixMs : Int64) (embedding : List Binary32) : Bool × List HttpReply :=
  if operationType = .read then queryEmbeddingFromQdrant cfg network embedding
  else
    let pointId := makeNumericPointId agentId timestampUnixMs
    upsertEmbeddingToQdrant cfg network pointId agentId payloadText sourceFile timestampUnixMs
      embedding

/-! ### What reaches the server -/

theorem sendAll_spec (answers : List ℤ) (payload : List UInt8) :
    (sendAll answers payload).1 <+: payload ∧
      ((sendAll answers payload).2 = true → (sendAll answers payload).1 = payload) := by
  induction answers generalizing payload with
  | nil => cases payload <;> simp [sendAll]
  | cons sent answers ih =>
    cases payload with
    | nil => simp [sendAll]
    | cons b payload =>
      rw [sendAll]
      split
      · simp
      · obtain ⟨hpre, hall⟩ := ih ((b :: payload).drop sent.toNat)
        constructor
        · conv_rhs => rw [← List.take_append_drop sent.toNat (b :: payload)]
          exact (List.prefix_append_right_inj _).mpr hpre
        · intro h
          dsimp only at h ⊢
          rw [hall h, List.take_append_drop]

/-- The names in the configuration hold neither blanks nor control characters. -/
def QdrantConfig.Plain (cfg : QdrantConfig) : Prop :=
  ∀ b ∈ bytesOf cfg.host ++ bytesOf cfg.port ++ bytesOf cfg.collection, 0x20 < b

/-- The request that is sent, in the terms of its reader. -/
def httpRequest (cfg : QdrantConfig) (method target : String) (body : List UInt8) :
    Http.Request where
  method := bytesOf method
  target := bytesOf target
  fields := [(Http.ascii "Host", bytesOf cfg.host ++ bytesOf ":" ++ bytesOf cfg.port),
    (Http.ascii "Content-Type", Http.ascii "application/json"),
    (Http.ascii "Connection", Http.ascii "close"),
    (Http.ascii "Content-Length", encodeUtf8 (Nat.toDigits 10 body.length))]
  body := body

theorem requestPayload_eq (cfg : QdrantConfig) (method target : String) (body : List UInt8) :
    requestPayload cfg method target body = (httpRequest cfg method target body).write := by
  have hstart : bytesOf " HTTP/1.1\r\n" = Http.ascii " HTTP/1.1" ++ Http.crlf := by decide +kernel
  have hspace : bytesOf " " = Http.ascii " " := by decide +kernel
  have hhost : bytesOf "Host: " = Http.ascii "Host" ++ Http.ascii ": " := by decide +kernel
  have hend : bytesOf "\r\n" = Http.crlf := by decide +kernel
  have htype : bytesOf "Content-Type: application/json\r\n" =
      Http.writeField (Http.ascii "Content-Type", Http.ascii "application/json") := by decide +kernel
  have hconnection : bytesOf "Connection: close\r\n" =
      Http.writeField (Http.ascii "Connection", Http.ascii "close") := by decide +kernel
  have hlength : bytesOf "Content-Length: " = Http.ascii "Content-Length" ++ Http.ascii ": " := by
    decide +kernel
  have hempty : bytesOf "\r\n\r\n" = Http.crlf ++ Http.crlf := by decide +kernel
  simp only [requestPayload, httpRequest, Http.Request.write, List.flatMap_cons, List.flatMap_nil,
    hstart, hspace, hhost, hend, htype, hconnection, hlength, hempty]
  simp only [Http.writeField, List.append_assoc, List.nil_append]

theorem encodeUtf8_ascii {text : List Char} (h : ∀ c ∈ text, c.toNat < 0x80) :
    encodeUtf8 text = text.map fun c => UInt8.ofNat c.toNat := by
  induction text with
  | nil => rfl
  | cons c text ih =>
    have hc : c.val.toNat ≤ 0x7f := Nat.lt_succ_iff.mp (h c List.mem_cons_self)
    have hbytes : String.utf8EncodeChar c = [UInt8.ofNat c.toNat] := by
      unfold String.utf8EncodeChar
      exact if_pos hc
    rw [encodeUtf8, List.flatMap_cons, hbytes, List.map_cons, List.singleton_append]
    exact congrArg _ (ih fun d hd => h d (List.mem_cons_of_mem c hd))

theorem lt_of_mem_toDigits {n : ℕ} {c : Char} (hc : c ∈ Nat.toDigits 10 n) :
    0x20 < c.toNat ∧ c.toNat < 0x80 := by
  have h := Char.isDigit_iff_toNat.mp (Decimal.isDigit_toDigits c hc)
  exact ⟨lt_of_lt_of_le (by decide) h.1, lt_of_le_of_lt h.2 (by decide)⟩

theorem natural_encodeUtf8_toDigits (n : ℕ) :
    Decimal.natural ((encodeUtf8 (Nat.toDigits 10 n)).map fun b => Char.ofNat b.toNat) =
      some n := by
  have hback : ∀ c ∈ Nat.toDigits 10 n, Char.ofNat (UInt8.ofNat c.toNat).toNat = c := fun c hc => by
    rw [UInt8.toNat_ofNat', Nat.mod_eq_of_lt ((lt_of_mem_toDigits hc).2.trans (by decide)),
      Char.ofNat_toNat]
  rw [encodeUtf8_ascii fun c hc => (lt_of_mem_toDigits hc).2, List.map_map, Function.comp_def,
    List.map_congr_left (g := id) hback, List.map_id, Decimal.natural_toDigits]

theorem plain_encodeUtf8_toDigits (n : ℕ) : ∀ b ∈ encodeUtf8 (Nat.toDigits 10 n), 0x20 < b := by
  rw [encodeUtf8_ascii fun c hc => (lt_of_mem_toDigits hc).2, List.forall_mem_map]
  intro c hc
  obtain ⟨hlow, hhigh⟩ := lt_of_mem_toDigits hc
  rw [UInt8.lt_iff_toNat_lt, UInt8.toNat_ofNat', Nat.mod_eq_of_lt (hhigh.trans (by decide))]
  exact hlow

theorem bytesOf_append (s t : String) : bytesOf (s ++ t) = bytesOf s ++ bytesOf t := by
  rw [bytesOf_eq, bytesOf_eq, bytesOf_eq, String.toList_append, encodeUtf8_append]

theorem ne_of_plain {b : UInt8} (h : 0x20 < b) :
    b ≠ 0x20 ∧ b ≠ 0x0D ∧ ¬ Http.isBlank b := by
  refine ⟨?_, ?_, fun hb => ?_⟩
  · rintro rfl
    exact absurd h (by decide)
  · rintro rfl
    exact absurd h (by decide)
  · simp only [Http.isBlank, Bool.or_eq_true, decide_eq_true_eq] at hb
    rcases hb with rfl | rfl <;> exact absurd h (by decide)

theorem httpRequest_wellFormed {cfg : QdrantConfig} (hcfg : cfg.Plain) {method target : String}
    (hmethod : ∀ b ∈ bytesOf method, 0x20 < b) (htarget : ∀ b ∈ bytesOf target, 0x20 < b)
    (body : List UInt8) : (httpRequest cfg method target body).WellFormed where
  method b hb := ⟨(ne_of_plain (hmethod b hb)).1, (ne_of_plain (hmethod b hb)).2.1⟩
  target b hb := ⟨(ne_of_plain (htarget b hb)).1, (ne_of_plain (htarget b hb)).2.1⟩
  name := by
    simp only [httpRequest, List.forall_mem_cons]
    refine ⟨?_, ?_, ?_, ?_, nofun⟩ <;> decide +kernel
  value := by
    have hvalue : ∀ value : List UInt8, (∀ b ∈ value, 0x20 < b) →
        ∀ b ∈ value, ¬ Http.isBlank b ∧ b ≠ 0x0D := fun value h b hb =>
      ⟨(ne_of_plain (h b hb)).2.2, (ne_of_plain (h b hb)).2.1⟩
    have hcolon : ∀ b ∈ bytesOf ":", 0x20 < b := by decide +kernel
    have hparts := List.forall_mem_append.mp hcfg
    have hnames := List.forall_mem_append.mp hparts.1
    simp only [httpRequest, List.forall_mem_cons]
    refine ⟨hvalue _ ?_, hvalue _ (by decide +kernel), hvalue _ (by decide +kernel),
      hvalue _ (plain_encodeUtf8_toDigits _), nofun⟩
    exact List.forall_mem_append.mpr ⟨List.forall_mem_append.mpr ⟨hnames.1, hcolon⟩, hnames.2⟩
  length := by
    have hfind : (httpRequest cfg method target body).fields.find?
        (fun field => field.1.map Http.lower = Http.ascii "content-length") =
        some (Http.ascii "Content-Length", encodeUtf8 (Nat.toDigits 10 body.length)) := by
      rfl
    rw [Http.contentLength, hfind]
    exact natural_encodeUtf8_toDigits body.length

theorem sendHttpJson_wire (cfg : QdrantConfig) (x : Exchange) (method target : String)
    (body : List UInt8) :
    (sendHttpJson cfg x method target body).wire <+: requestPayload cfg method target body ∧
      ((sendHttpJson cfg x method target body).ok = true →
        (sendHttpJson cfg x method target body).wire = requestPayload cfg method target body) := by
  obtain ⟨hpre, hall⟩ := sendAll_spec x.sent (requestPayload cfg method target body)
  unfold sendHttpJson
  cases x.addresses with
  | none => exact ⟨List.nil_prefix, nofun⟩
  | some addresses =>
    dsimp only
    generalize requestPayload cfg method target body = payload at hpre hall ⊢
    generalize sendAll x.sent payload = sent at hpre hall ⊢
    generalize receiveAll [] x.received = received
    split_ifs with hconnected hsent hreceived
    · exact ⟨hpre, nofun⟩
    · exact ⟨hpre, nofun⟩
    · exact ⟨hpre, fun _ => hall (by simpa using hsent)⟩
    · exact ⟨List.nil_prefix, nofun⟩

/-- A call that succeeds has sent one request, which the server reads as it is meant. -/
theorem request_of_ok {cfg : QdrantConfig} (hcfg : cfg.Plain) {x : Exchange}
    {method target : String} {body : List UInt8} (hmethod : ∀ b ∈ bytesOf method, 0x20 < b)
    (htarget : ∀ b ∈ bytesOf target, 0x20 < b)
    (hok : (sendHttpJson cfg x method target body).ok = true) :
    Http.request (sendHttpJson cfg x method target body).wire =
      some (httpRequest cfg method target body, []) := by
  have h := Http.request_write (httpRequest_wellFormed hcfg hmethod htarget body) []
  rw [List.append_nil, ← requestPayload_eq] at h
  rw [(sendHttpJson_wire cfg x method target body).2 hok, h]

/-! ### The attempts -/

def HttpReply.accepted (r : HttpReply) : Bool := r.ok && (r.statusCode = 200 || r.statusCode = 201)

/-- Another attempt is made after this one, unless it was the third. -/
def HttpReply.again (r : HttpReply) : Bool := !r.ok || r.retryable

/-- The loop ends with the first attempt that is accepted, after attempts that call for
another, or it fails. -/
theorem attempts_spec (call : ℕ → HttpReply) (attempt left : ℕ) :
    ∃ n ≤ left, (attempts call attempt left).2 = (List.range' attempt n).map call ∧
      ((attempts call attempt left).1 = true →
        ∃ k, n = k + 1 ∧ (call (attempt + k)).accepted ∧
          ∀ j < k, (call (attempt + j)).again) := by
  induction left generalizing attempt with
  | zero => exact ⟨0, le_rfl, rfl, nofun⟩
  | succ left ih =>
    obtain ⟨n, hn, hcalls, hresult⟩ := ih (attempt + 1)
    have hnext : (call attempt).again →
        call attempt :: (attempts call (attempt + 1) left).2 =
          (List.range' attempt (n + 1)).map call ∧
        ((attempts call (attempt + 1) left).1 = true →
          ∃ k, n + 1 = k + 1 ∧ (call (attempt + k)).accepted ∧
            ∀ j < k, (call (attempt + j)).again) := by
      intro hagain
      refine ⟨by rw [hcalls, List.range'_succ, List.map_cons], fun h => ?_⟩
      obtain ⟨k, rfl, haccepted, hbefore⟩ := hresult h
      refine ⟨k + 1, rfl, by rwa [Nat.add_right_comm] at haccepted, fun j hj => ?_⟩
      cases j with
      | zero => exact hagain
      | succ j =>
        have h := hbefore j (by omega)
        rwa [Nat.add_right_comm] at h
    rw [attempts]
    split_ifs with hok hlt hstatus hretry
    · exact ⟨n + 1, by omega, hnext (by simp [HttpReply.again, hok])⟩
    · exact ⟨1, by omega, rfl, nofun⟩
    · refine ⟨1, by omega, rfl, fun _ => ⟨0, rfl, ?_, nofun⟩⟩
      have hok' : (call attempt).ok = true := by simpa using hok
      simpa [HttpReply.accepted, hok'] using hstatus
    · exact ⟨n + 1, by omega, hnext (by simp [HttpReply.again, hretry.1])⟩
    · exact ⟨1, by omega, rfl, nofun⟩

/-! ### What success means -/

/-- A call that has handed over what it is meant to: its bytes are one request, whose body
is a document that means it. -/
def HttpReply.Delivers (r : HttpReply) (method target : String) (m : Json.Meaning) : Prop :=
  ∃ (request : Http.Request) (v : Json.Value), Http.request r.wire = some (request, []) ∧
    request.method = bytesOf method ∧ request.target = bytesOf target ∧
    readBody request.body = some v ∧ v.Means m

theorem delivers_of_ok {cfg : QdrantConfig} (hcfg : cfg.Plain) {x : Exchange}
    {method target : String} {body : List UInt8} {v : Json.Value} {m : Json.Meaning}
    (hmethod : ∀ b ∈ bytesOf method, 0x20 < b) (htarget : ∀ b ∈ bytesOf target, 0x20 < b)
    (hbody : readBody body = some v) (hmeans : v.Means m)
    (hok : (sendHttpJson cfg x method target body).ok = true) :
    (sendHttpJson cfg x method target body).Delivers method target m :=
  ⟨_, v, request_of_ok hcfg hmethod htarget hok, rfl, rfl, hbody, hmeans⟩

theorem QdrantConfig.Plain.target {cfg : QdrantConfig} (hcfg : cfg.Plain) (before behind : String)
    (hbefore : ∀ b ∈ bytesOf before, 0x20 < b) (hbehind : ∀ b ∈ bytesOf behind, 0x20 < b) :
    ∀ b ∈ bytesOf (before ++ cfg.collection ++ behind), 0x20 < b := by
  rw [bytesOf_append, bytesOf_append, List.forall_mem_append, List.forall_mem_append]
  exact ⟨⟨hbefore, (List.forall_mem_append.mp hcfg).2⟩, hbehind⟩

/-- The collection that a write creates if it has to. -/
theorem ensureQdrantCollection_spec {cfg : QdrantConfig} (hcfg : cfg.Plain) {x : Exchange}
    {vectorSize : ℕ} (h : (ensureQdrantCollection cfg x vectorSize).1 = true) :
    ∃ r, (ensureQdrantCollection cfg x vectorSize).2 = [r] ∧ r.ensured ∧
      r.Delivers "PUT" ("/collections/" ++ cfg.collection) (collectionMeaning vectorSize) := by
  unfold ensureQdrantCollection at h ⊢
  split at h
  · cases h
  · rename_i hsize
    rw [if_neg hsize]
    rw [Bool.and_eq_true] at h
    have htarget := hcfg.target "/collections/" "" (by decide +kernel)
      (by decide +kernel)
    rw [String.append_empty] at htarget
    exact ⟨_, rfl, h.2, delivers_of_ok hcfg (by decide +kernel) htarget
      (readBody_ensureBody vectorSize) (means_collectionDocument vectorSize) h.1⟩

section

variable {cfg : QdrantConfig} {network : ℕ → Exchange} {pointId timestampUnixMs : Int64}
  {agentId payloadText sourceFile : String} {embedding : List Binary32}

/-- The requests of a write that reports success: one for the collection, and up to three
for the point, of which only the last one has been accepted. -/
theorem upsertEmbeddingToQdrant_spec (hcfg : cfg.Plain)
    (hstrings : ∀ s ∈ [agentId, sourceFile, payloadText], ∀ c ∈ s.toList, ¬ UnescapedControl c)
    (hfinite : ∀ x ∈ embedding, (floatValue x).isSome)
    (h : (upsertEmbeddingToQdrant cfg network pointId agentId payloadText sourceFile
      timestampUnixMs embedding).1 = true) :
    ∃ ensure before last,
      (upsertEmbeddingToQdrant cfg network pointId agentId payloadText sourceFile
        timestampUnixMs embedding).2 = ensure :: (before ++ [last]) ∧
      ensure.ensured ∧
      ensure.Delivers "PUT" ("/collections/" ++ cfg.collection)
        (collectionMeaning embedding.length) ∧
      before.length ≤ 2 ∧ (∀ r ∈ before, r.again ∧ r.wire <+: last.wire) ∧
      last.accepted ∧
      last.Delivers "PUT" ("/collections/" ++ cfg.collection ++ "/points?wait=true")
        (pointMeaning pointId agentId payloadText sourceFile timestampUnixMs embedding) := by
  have hbody := (readBody_upsertBody_iff pointId agentId payloadText sourceFile timestampUnixMs
    embedding _).mpr ⟨rfl, hstrings, hfinite⟩
  have htarget := hcfg.target "/collections/" "/points?wait=true"
    (by decide +kernel) (by decide +kernel)
  unfold upsertEmbeddingToQdrant at h ⊢
  split at h
  · cases h
  · rename_i hne
    dsimp only at h ⊢
    rw [if_neg hne]
    generalize upsertBody pointId agentId payloadText sourceFile timestampUnixMs embedding = body
      at h hbody ⊢
    generalize "/collections/" ++ cfg.collection ++ "/points?wait=true" = target at h htarget ⊢
    split at h
    · rename_i hensure
      rw [h] at hensure
      cases hensure
    · rename_i hensure
      rw [if_neg hensure]
      obtain ⟨ensure, heq, hensured, hdelivers⟩ :=
        ensureQdrantCollection_spec hcfg (by simpa using hensure)
      obtain ⟨n, hn, hcalls, hresult⟩ := attempts_spec
        (fun attempt => sendHttpJson cfg (network attempt) "PUT" target body) 1 3
      obtain ⟨k, rfl, haccepted, hbefore⟩ := hresult h
      have hok : (sendHttpJson cfg (network (1 + k)) "PUT" target body).ok = true :=
        (Bool.and_eq_true _ _ ▸ haccepted).1
      refine ⟨ensure, (List.range' 1 k).map fun attempt =>
        sendHttpJson cfg (network attempt) "PUT" target body, _, ?_, hensured, hdelivers, ?_, ?_,
        haccepted, delivers_of_ok hcfg (by decide +kernel) htarget hbody
          (means_pointDocument hfinite) hok⟩
      · dsimp only
        rw [heq, hcalls, List.range'_1_concat, List.map_append]
        rfl
      · rw [List.length_map, List.length_range']
        omega
      · rw [List.forall_mem_map]
        intro attempt hattempt
        rw [List.mem_range'_1] at hattempt
        obtain ⟨j, rfl⟩ := Nat.exists_eq_add_of_le hattempt.1
        refine ⟨hbefore j (by omega), ?_⟩
        rw [(sendHttpJson_wire cfg (network (1 + k)) "PUT" target body).2 hok]
        exact (sendHttpJson_wire cfg (network (1 + j)) "PUT" target body).1

theorem queryEmbeddingFromQdrant_spec (hcfg : cfg.Plain)
    (hfinite : ∀ x ∈ embedding, (floatValue x).isSome)
    (h : (queryEmbeddingFromQdrant cfg network embedding).1 = true) :
    ∃ r, (queryEmbeddingFromQdrant cfg network embedding).2 = [r] ∧ r.statusCode = 200 ∧
      r.Delivers "POST" ("/collections/" ++ cfg.collection ++ "/points/search")
        (queryMeaning embedding) := by
  have htarget := hcfg.target "/collections/" "/points/search"
    (by decide +kernel) (by decide +kernel)
  unfold queryEmbeddingFromQdrant at h ⊢
  split at h
  · cases h
  · rename_i hne
    rw [if_neg hne]
    rw [Bool.and_eq_true, decide_eq_true_eq] at h
    exact ⟨_, rfl, h.2, delivers_of_ok hcfg (by decide +kernel) htarget
      ((readBody_queryBody_iff embedding _).mpr ⟨rfl, hfinite⟩) (means_queryDocument hfinite) h.1⟩

/-- Whatever the network does, an operation that reports success has been answered as it
has to be: a read on its search, a write on its point, after the collection, with every
attempt before the last one cut off or told to retry. Each request is the one that is
meant, and the server has all of it. -/
theorem qdrantOperation_delivers {operationType : OperationType} (hcfg : cfg.Plain)
    (hstrings : ∀ s ∈ [agentId, sourceFile, payloadText], ∀ c ∈ s.toList, ¬ UnescapedControl c)
    (hfinite : ∀ x ∈ embedding, (floatValue x).isSome)
    (h : (qdrantOperation cfg network operationType agentId payloadText sourceFile
      timestampUnixMs embedding).1 = true) :
    if operationType = .read then
      ∃ r, (qdrantOperation cfg network operationType agentId payloadText sourceFile
          timestampUnixMs embedding).2 = [r] ∧ r.statusCode = 200 ∧
        r.Delivers "POST" ("/collections/" ++ cfg.collection ++ "/points/search")
          (queryMeaning embedding)
    else
      ∃ ensure before last, (qdrantOperation cfg network operationType agentId payloadText
          sourceFile timestampUnixMs embedding).2 = ensure :: (before ++ [last]) ∧
        ensure.ensured ∧
        ensure.Delivers "PUT" ("/collections/" ++ cfg.collection)
          (collectionMeaning embedding.length) ∧
        before.length ≤ 2 ∧ (∀ r ∈ before, r.again ∧ r.wire <+: last.wire) ∧
        last.accepted ∧
        last.Delivers "PUT" ("/collections/" ++ cfg.collection ++ "/points?wait=true")
          (pointMeaning (makeNumericPointId agentId timestampUnixMs) agentId payloadText
            sourceFile timestampUnixMs embedding) := by
  unfold qdrantOperation at h ⊢
  split
  · rename_i hread
    rw [if_pos hread] at h
    exact queryEmbeddingFromQdrant_spec hcfg hfinite h
  · rename_i hwrite
    rw [if_neg hwrite] at h
    exact upsertEmbeddingToQdrant_spec hcfg hstrings hfinite h

end

/-- A server that answers the call for the collection, breaks off the first attempt and
accepts the second one. -/
def breakingOff : ℕ → Exchange
  | 0 => { sent := [40, 1000], received := [some (bytesOf "HTTP/1.1 409 Conflict\r\n\r\n")] }
  | 1 => { sent := [25], received := [] }
  | _ =>
    { sent := [1000]
      received := [some (bytesOf "HTTP/1.1 20"), some (bytesOf "0 OK\r\n\r\n")] }

theorem qdrantOperation_delivers_breakingOff :
    let cfg : QdrantConfig := { host := "qdrant", port := "6333", collection := "dscc_memory" }
    let r := qdrantOperation cfg breakingOff .write "a" "say \"hi\"" "notes.txt" 5
      [⟨0x3F000000⟩]
    r.1 = true ∧ ∃ ensure before last, r.2 = ensure :: (before ++ [last]) ∧ ensure.ensured ∧
      ensure.Delivers "PUT" "/collections/dscc_memory" (collectionMeaning 1) ∧
      before.length ≤ 2 ∧ (∀ r ∈ before, r.again ∧ r.wire <+: last.wire) ∧ last.accepted ∧
      last.Delivers "PUT" "/collections/dscc_memory/points?wait=true"
        (pointMeaning (makeNumericPointId "a" 5) "a" "say \"hi\"" "notes.txt" 5
          [⟨0x3F000000⟩]) := by
  have hplain : QdrantConfig.Plain
      { host := "qdrant", port := "6333", collection := "dscc_memory" } := by
    unfold QdrantConfig.Plain
    decide +kernel
  have h : (qdrantOperation { host := "qdrant", port := "6333", collection := "dscc_memory" }
      breakingOff .write "a" "say \"hi\"" "notes.txt" 5 [⟨0x3F000000⟩]).1 = true := by
    decide +kernel
  have hstrings : ∀ s ∈ ["a", "notes.txt", "say \"hi\""], ∀ c ∈ s.toList, ¬ UnescapedControl c := by
    simp only [List.forall_mem_cons]
    refine ⟨?_, ?_, ?_, nofun⟩ <;> exact List.all_iff_forall_prop.mp (by decide +kernel)
  exact ⟨h, qdrantOperation_delivers hplain hstrings (by decide +kernel) h⟩

end DistributedLock.Service
