import DistributedLock.Library.JsonRoundTrip
import DistributedLock.Service.EscapeJson
import Mathlib.Data.Bool.AllAny

/-! The bodies of the requests to Qdrant: the point of a write, the vector of a read, and
the settings of the collection. Each is put together as a text. It is a JSON document
exactly if the strings hold no control character that is left unescaped and the components
of the vector are finite, and then it means what it is meant to: the strings character by
character, the integers as they are, the components up to a twenty millionth. -/

namespace DistributedLock.Service

open Library

/-! ### The bodies -/

/-- A `float`, by its bits: `Float32` has a single NaN, whose sign is lost. -/
structure Binary32 where
  bits : UInt32
  deriving DecidableEq

namespace Binary32

def unpack (x : Binary32) : Float.Model.UnpackedFloat :=
  .unpack .binary32 x.bits.toBitVec

def signBit (x : Binary32) : Bool := x.bits.toBitVec.msb

end Binary32

/-- A `float` as `<<` writes it after `std::setprecision(8)`. -/
def floatText (x : Binary32) : List Char :=
  match x.unpack with
  | .infinity .positive => "inf".toList
  | .infinity .negative => "-inf".toList
  | .notANumber => if x.signBit then "-nan".toList else "nan".toList
  | .zero .positive => "0".toList
  | .zero .negative => "-0".toList
  | .finite .positive mantissa exponent _ => Decimal.general 8 (mantissa * 2 ^ exponent)
  | .finite .negative mantissa exponent _ => '-' :: Decimal.general 8 (mantissa * 2 ^ exponent)

example : floatText ⟨0xFFC00000⟩ = "-nan".toList := by rfl

/-- The loop over the components. -/
def vectorText (embedding : List Binary32) : List UInt8 :=
  embedding.zipIdx.flatMap fun x =>
    (if x.2 > 0 then bytesOf "," else []) ++ encodeUtf8 (floatText x.1)

-- the braces of the texts are written by their codes

def upsertBody (pointId : Int64) (agentId payloadText sourceFile : String)
    (timestampUnixMs : Int64) (embedding : List Binary32) : List UInt8 :=
  bytesOf "\x7b\"points\":[\x7b\"id\":" ++ encodeUtf8 (Decimal.integer pointId.toInt) ++
    bytesOf ",\"vector\":[" ++ vectorText embedding ++ bytesOf "],\"payload\":\x7b" ++
    bytesOf "\"agent_id\":" ++ quoted agentId ++ bytesOf "," ++
    bytesOf "\"source_file\":" ++ quoted sourceFile ++ bytesOf "," ++
    bytesOf "\"timestamp_unix_ms\":" ++ encodeUtf8 (Decimal.integer timestampUnixMs.toInt) ++
    bytesOf "," ++ bytesOf "\"raw_text\":" ++ quoted payloadText ++ bytesOf "\x7d\x7d]\x7d"

def queryBody (embedding : List Binary32) : List UInt8 :=
  bytesOf "\x7b\"vector\":[" ++ vectorText embedding ++
    bytesOf "],\"limit\":3,\"with_payload\":false,\"with_vector\":false\x7d"

def ensureBody (vectorSize : ℕ) : List UInt8 :=
  bytesOf "\x7b\"vectors\":\x7b\"size\":" ++ encodeUtf8 (Nat.toDigits 10 vectorSize) ++
    bytesOf ",\"distance\":\"Cosine\"\x7d\x7d"

/-! ### The documents as they are written -/

def vectorDocument (embedding : List Binary32) : Json.Value :=
  .array (embedding.map fun x => .number (floatText x))

def pointDocument (pointId : Int64) (agentId payloadText sourceFile : String)
    (timestampUnixMs : Int64) (embedding : List Binary32) : Json.Value :=
  .object [("points".toList, .array [.object [
    ("id".toList, .number (Decimal.integer pointId.toInt)),
    ("vector".toList, vectorDocument embedding),
    ("payload".toList, .object [
      ("agent_id".toList, .string agentId.toList),
      ("source_file".toList, .string sourceFile.toList),
      ("timestamp_unix_ms".toList, .number (Decimal.integer timestampUnixMs.toInt)),
      ("raw_text".toList, .string payloadText.toList)])]])]

def queryDocument (embedding : List Binary32) : Json.Value :=
  .object [("vector".toList, vectorDocument embedding), ("limit".toList, .number "3".toList),
    ("with_payload".toList, .bool false), ("with_vector".toList, .bool false)]

def collectionDocument (vectorSize : ℕ) : Json.Value :=
  .object [("vectors".toList, .object [("size".toList, .number (Nat.toDigits 10 vectorSize)),
    ("distance".toList, .string "Cosine".toList)])]

/-- The number that a finite `float` is. -/
def floatValue (x : Binary32) : Option ℚ :=
  match x.unpack with
  | .infinity _ | .notANumber => none
  | .zero _ => some 0
  | .finite .positive mantissa exponent _ => some (mantissa * 2 ^ exponent)
  | .finite .negative mantissa exponent _ => some (-(mantissa * 2 ^ exponent))

/-! ### What the documents are meant to be -/

/-- A component is off by a twenty millionth of it at most. -/
def componentMeaning (x : Binary32) : Json.Meaning :=
  .number fun q => ∃ v, floatValue x = some v ∧ |q - v| ≤ |v| / 20000000

def integerMeaning (i : ℤ) : Json.Meaning := .number fun q => q = i

def pointMeaning (pointId : Int64) (agentId payloadText sourceFile : String)
    (timestampUnixMs : Int64) (embedding : List Binary32) : Json.Meaning :=
  .object [("points".toList, .array [.object [
    ("id".toList, integerMeaning pointId.toInt),
    ("vector".toList, .array (embedding.map componentMeaning)),
    ("payload".toList, .object [
      ("agent_id".toList, .string agentId.toList),
      ("source_file".toList, .string sourceFile.toList),
      ("timestamp_unix_ms".toList, integerMeaning timestampUnixMs.toInt),
      ("raw_text".toList, .string payloadText.toList)])]])]

def queryMeaning (embedding : List Binary32) : Json.Meaning :=
  .object [("vector".toList, .array (embedding.map componentMeaning)),
    ("limit".toList, integerMeaning 3), ("with_payload".toList, .bool false),
    ("with_vector".toList, .bool false)]

def collectionMeaning (vectorSize : ℕ) : Json.Meaning :=
  .object [("vectors".toList, .object [("size".toList, integerMeaning vectorSize),
    ("distance".toList, .string "Cosine".toList)])]

/-- The document that the bytes of a body stand for. -/
def readBody (body : List UInt8) : Option Json.Value :=
  (decodeUtf8 body).bind Json.document

/-! ### The bodies are texts of the documents -/

theorem zipIdx_flatMap_succ {α β : Type*} (f g : α → List β) (l : List α) (k : ℕ) :
    (l.zipIdx (k + 1)).flatMap (fun x => (if x.2 > 0 then f x.1 else []) ++ g x.1) =
      l.flatMap fun x => f x ++ g x := by
  induction l generalizing k with
  | nil => rfl
  | cons x l ih =>
    rw [List.zipIdx_cons, List.flatMap_cons, List.flatMap_cons, ih, if_pos (Nat.succ_pos k)]

theorem renderItems_numbers (write : Char → List Char) (x : Binary32) (l : List Binary32) :
    Json.renderItems write ((x :: l).map fun x => .number (floatText x)) =
      floatText x ++ (l.flatMap (fun x => ',' :: floatText x) ++ [']']) := by
  induction l generalizing x with
  | nil => rfl
  | cons y l ih =>
    have hy := ih y
    rw [List.map_cons] at hy
    rw [List.map_cons, List.map_cons, Json.renderItems, Json.Value.render, hy, List.flatMap_cons]
    simp only [List.cons_append, List.append_assoc]

/-- The text of the vector is the one of an array of numbers without its brackets. -/
theorem exists_vectorText (embedding : List Binary32) :
    ∃ text, vectorText embedding = encodeUtf8 text ∧
      (vectorDocument embedding).render escapeChar = '[' :: (text ++ [']']) := by
  rw [vectorDocument, Json.Value.render]
  cases embedding with
  | nil => exact ⟨[], rfl, rfl⟩
  | cons x l =>
    refine ⟨floatText x ++ l.flatMap fun x => ',' :: floatText x, ?_, ?_⟩
    · rw [vectorText, List.zipIdx_cons, List.flatMap_cons,
        zipIdx_flatMap_succ (fun _ => bytesOf ",") (fun x => encodeUtf8 (floatText x)), bytesOf_eq]
      simp [encodeUtf8, List.flatMap_assoc]
    · rw [renderItems_numbers, List.append_assoc]

theorem quoted_eq (s : String) :
    quoted s = encodeUtf8 ((Json.Value.string s.toList).render escapeChar) := by
  have hquote : String.utf8EncodeChar '"' = [0x22] := by rfl
  rw [quoted, bytesOf_eq, escapeJson_encodeUtf8, Json.Value.render]
  simp [encodeUtf8, hquote]

theorem upsertBody_eq (pointId : Int64) (agentId payloadText sourceFile : String)
    (timestampUnixMs : Int64) (embedding : List Binary32) :
    upsertBody pointId agentId payloadText sourceFile timestampUnixMs embedding =
      encodeUtf8 ((pointDocument pointId agentId payloadText sourceFile timestampUnixMs
        embedding).render escapeChar) := by
  obtain ⟨vector, htext, hrender⟩ := exists_vectorText embedding
  simp only [upsertBody, bytesOf_eq, quoted_eq, htext, ← encodeUtf8_append]
  refine congrArg encodeUtf8 ?_
  simp only [pointDocument, Json.Value.render, Json.renderItems, Json.renderMembers, hrender]
  generalize Decimal.integer pointId.toInt = id
  generalize agentId.toList.flatMap escapeChar = agent
  generalize sourceFile.toList.flatMap escapeChar = source
  generalize Decimal.integer timestampUnixMs.toInt = timestamp
  generalize payloadText.toList.flatMap escapeChar = payload
  simp only [List.append_assoc, List.cons_append, List.nil_append]
  rfl

theorem queryBody_eq (embedding : List Binary32) :
    queryBody embedding = encodeUtf8 ((queryDocument embedding).render escapeChar) := by
  obtain ⟨vector, htext, hrender⟩ := exists_vectorText embedding
  simp only [queryBody, bytesOf_eq, htext, ← encodeUtf8_append]
  refine congrArg encodeUtf8 ?_
  simp only [queryDocument, Json.Value.render, Json.renderMembers, hrender]
  simp only [List.append_assoc, List.cons_append, List.nil_append]
  rfl

theorem ensureBody_eq (vectorSize : ℕ) :
    ensureBody vectorSize = encodeUtf8 ((collectionDocument vectorSize).render escapeChar) := by
  simp only [ensureBody, bytesOf_eq, ← encodeUtf8_append]
  refine congrArg encodeUtf8 ?_
  simp only [collectionDocument, Json.Value.render, Json.renderMembers]
  generalize Nat.toDigits 10 vectorSize = size
  simp only [List.append_assoc, List.cons_append, List.nil_append]
  rfl

/-! ### Numbers and strings -/

/-- A finite `float` is written as a number that is off by a twenty millionth of it at most. -/
theorem number_floatText {x : Binary32} {v : ℚ} (hx : floatValue x = some v) :
    ∃ q, Decimal.number (floatText x) = some q ∧ |q - v| ≤ |v| / 20000000 := by
  have hpos : ∀ (mantissa : ℕ) (exponent : ℤ), 0 < mantissa →
      (0 : ℚ) < mantissa * 2 ^ exponent := fun mantissa exponent h =>
    mul_pos (Nat.cast_pos.mpr h) (zpow_pos (by norm_num) _)
  have hgeneral : ∀ {q : ℚ}, 0 < q → ∃ r, Decimal.number (Decimal.general 8 q) = some r ∧
      |r - q| ≤ |q| / 20000000 := by
    intro q hq
    obtain ⟨r, hr, hle⟩ := Decimal.exists_number_general (p := 8) (by decide) hq
    refine ⟨r, hr, hle.trans (le_of_eq ?_)⟩
    rw [abs_of_pos hq]
    norm_num
    ring
  have hzero : Decimal.number "0".toList = some 0 := by decide +kernel
  have hminusZero : Decimal.number "-0".toList = some 0 := by decide +kernel
  unfold floatValue at hx
  unfold floatText
  split at hx
  · cases hx
  · cases hx
  · rename_i sign heq
    cases hx
    rw [heq]
    cases sign with
    | positive => exact ⟨0, hzero, by simp⟩
    | negative => exact ⟨0, hminusZero, by simp⟩
  · rename_i mantissa exponent hmantissa heq
    cases hx
    rw [heq]
    exact hgeneral (hpos mantissa exponent hmantissa)
  · rename_i mantissa exponent hmantissa heq
    cases hx
    rw [heq]
    obtain ⟨r, hr, hle⟩ := hgeneral (hpos mantissa exponent hmantissa)
    refine ⟨-r, Decimal.number_neg hr (Decimal.exists_digit_general _ _), ?_⟩
    rw [abs_neg, neg_sub_neg, abs_sub_comm]
    exact hle

/-- What is written of another `float` is no JSON value. -/
theorem broken_floatText {x : Binary32} (hx : floatValue x = none) :
    Json.Broken (floatText x) := by
  have hinf : Json.Broken "inf".toList :=
    ⟨⟨'i', _, rfl, by decide, by decide⟩, fun n _ => by cases n <;> rfl⟩
  have hminusInf : Json.Broken "-inf".toList :=
    ⟨⟨'-', _, rfl, by decide, by decide⟩, fun n _ => by cases n <;> rfl⟩
  have hnan : Json.Broken "nan".toList :=
    ⟨⟨'n', _, rfl, by decide, by decide⟩, fun n _ => by cases n <;> rfl⟩
  have hminusNan : Json.Broken "-nan".toList :=
    ⟨⟨'-', _, rfl, by decide, by decide⟩, fun n _ => by cases n <;> rfl⟩
  unfold floatValue at hx
  unfold floatText
  split at hx
  · rename_i sign heq
    rw [heq]
    cases sign with
    | positive => exact hinf
    | negative => exact hminusInf
  · rename_i heq
    rw [heq]
    dsimp only
    split
    · exact hminusNan
    · exact hnan
  all_goals cases hx

theorem isSome_number_floatText (x : Binary32) :
    (Decimal.number (floatText x)).isSome ↔ (floatValue x).isSome := by
  cases hx : floatValue x with
  | none => exact iff_of_false (broken_floatText hx).not_number (by simp)
  | some v =>
    obtain ⟨q, hq, -⟩ := number_floatText hx
    rw [hq]
    exact iff_of_true rfl rfl

theorem isSome_number_integer (i : ℤ) : (Decimal.number (Decimal.integer i)).isSome := by
  rw [Decimal.number_integer]
  rfl

theorem writes_escapeChar_iff (c : Char) :
    Json.Writes (escapeChar c) c ↔ ¬ UnescapedControl c := by
  refine ⟨fun h hc => ?_, writes_escapeChar⟩
  have hnone := breaks_escapeChar hc ['"']
  rw [h ['"']] at hnone
  cases hnone

theorem writes_or_control (c : Char) :
    Json.Writes (escapeChar c) c ∨
      ∃ d ∈ escapeChar c, d.toNat < 0x20 ∧ ¬ Json.isSpace d := by
  by_cases hc : UnescapedControl c
  · have hself : escapeChar c = [c] := by
      obtain ⟨hlt, hmem⟩ := hc
      unfold escapeChar
      split
      case h_8 => rfl
      all_goals first | exact absurd hlt (by decide) | exact absurd hmem (by decide)
    refine Or.inr ⟨c, by rw [hself]; exact List.mem_cons_self, hc.1, fun hspace => ?_⟩
    simp only [Json.isSpace, Bool.or_eq_true, decide_eq_true_eq] at hspace
    rcases hspace with ((rfl | rfl) | rfl) | rfl
    · exact absurd hc.1 (by decide)
    all_goals exact absurd hc.2 (by decide)
  · exact Or.inl (writes_escapeChar hc)

/-- A body that is written as the document `v` is read as `v` or not at all. -/
theorem readBody_iff {v : Json.Value} (hnumbers : Json.Settled v.numbers) (w : Json.Value) :
    readBody (encodeUtf8 (v.render escapeChar)) = some w ↔
      w = v ∧ Json.Lawful v.numbers ∧ ∀ s ∈ v.strings, ∀ c ∈ s, ¬ UnescapedControl c := by
  rw [readBody, decodeUtf8_encodeUtf8, Option.bind_some,
    Json.document_render_iff writes_or_control hnumbers]
  simp only [Json.Legible, writes_escapeChar_iff]

/-! ### The documents that are read -/

@[simp] theorem numbers_vectorDocument (embedding : List Binary32) :
    (vectorDocument embedding).numbers = embedding.map floatText := by
  rw [vectorDocument, Json.Value.numbers]
  induction embedding with
  | nil => rfl
  | cons x l ih =>
    rw [List.map_cons, List.map_cons, Json.numbersOfItems, ih]
    rfl

@[simp] theorem strings_vectorDocument (embedding : List Binary32) :
    (vectorDocument embedding).strings = [] := by
  rw [vectorDocument, Json.Value.strings]
  induction embedding with
  | nil => rfl
  | cons x l ih =>
    rw [List.map_cons, Json.stringsOfItems, ih]
    rfl

theorem lawful_vector_iff (embedding : List Binary32) :
    Json.Lawful (embedding.map floatText) ↔ ∀ x ∈ embedding, (floatValue x).isSome := by
  simp only [Json.Lawful, List.forall_mem_map, isSome_number_floatText]

theorem settled_vector (embedding : List Binary32) : Json.Settled (embedding.map floatText) := by
  refine List.forall_mem_map.mpr fun x _ => ?_
  cases hx : floatValue x with
  | none => exact Or.inr (broken_floatText hx)
  | some v => exact Or.inl ((isSome_number_floatText x).mpr (by rw [hx]; rfl))

theorem means_integer (i : ℤ) : (Json.Value.number (Decimal.integer i)).Means (integerMeaning i) :=
  ⟨i, Decimal.number_integer i, rfl⟩

theorem means_vector {embedding : List Binary32} (h : ∀ x ∈ embedding, (floatValue x).isSome) :
    (vectorDocument embedding).Means (.array (embedding.map componentMeaning)) := by
  rw [vectorDocument, Json.Value.Means]
  induction embedding with
  | nil => trivial
  | cons x l ih =>
    obtain ⟨hx, hl⟩ := List.forall_mem_cons.mp h
    obtain ⟨v, hv⟩ := Option.isSome_iff_exists.mp hx
    obtain ⟨q, hq, hle⟩ := number_floatText hv
    exact ⟨⟨q, hq, v, hv, hle⟩, ih hl⟩

theorem means_pointDocument {pointId timestampUnixMs : Int64}
    {agentId payloadText sourceFile : String} {embedding : List Binary32}
    (h : ∀ x ∈ embedding, (floatValue x).isSome) :
    (pointDocument pointId agentId payloadText sourceFile timestampUnixMs embedding).Means
      (pointMeaning pointId agentId payloadText sourceFile timestampUnixMs embedding) := by
  have hpayload : (Json.Value.object [
      ("agent_id".toList, .string agentId.toList),
      ("source_file".toList, .string sourceFile.toList),
      ("timestamp_unix_ms".toList, .number (Decimal.integer timestampUnixMs.toInt)),
      ("raw_text".toList, .string payloadText.toList)]).Means (.object [
      ("agent_id".toList, .string agentId.toList),
      ("source_file".toList, .string sourceFile.toList),
      ("timestamp_unix_ms".toList, integerMeaning timestampUnixMs.toInt),
      ("raw_text".toList, .string payloadText.toList)]) :=
    ⟨rfl, rfl, rfl, rfl, rfl, means_integer _, rfl, rfl, trivial⟩
  exact ⟨rfl, ⟨⟨rfl, means_integer _, rfl, means_vector h, rfl, hpayload, trivial⟩, trivial⟩,
    trivial⟩

theorem numbers_pointDocument (pointId : Int64) (agentId payloadText sourceFile : String)
    (timestampUnixMs : Int64) (embedding : List Binary32) :
    (pointDocument pointId agentId payloadText sourceFile timestampUnixMs embedding).numbers =
      Decimal.integer pointId.toInt ::
        (embedding.map floatText ++ [Decimal.integer timestampUnixMs.toInt]) := by
  simp [pointDocument, Json.Value.numbers, Json.numbersOfItems, Json.numbersOfMembers]

theorem strings_pointDocument (pointId : Int64) (agentId payloadText sourceFile : String)
    (timestampUnixMs : Int64) (embedding : List Binary32) :
    (pointDocument pointId agentId payloadText sourceFile timestampUnixMs embedding).strings =
      ["points".toList, "id".toList, "vector".toList, "payload".toList, "agent_id".toList,
        agentId.toList, "source_file".toList, sourceFile.toList, "timestamp_unix_ms".toList,
        "raw_text".toList, payloadText.toList] := by
  simp only [pointDocument, Json.Value.strings, Json.stringsOfItems, Json.stringsOfMembers,
    strings_vectorDocument]
  rfl

instance (c : Char) : Decidable (UnescapedControl c) := by
  unfold UnescapedControl
  infer_instance

/-- The names of the members are texts without control characters. -/
theorem legible_of_all {l : List (List Char)}
    (h : l.all fun s => s.all fun c => ¬ UnescapedControl c) :
    ∀ s ∈ l, ∀ c ∈ s, ¬ UnescapedControl c := fun s hs =>
  List.all_iff_forall_prop.mp (List.all_eq_true.mp h s hs)

theorem readBody_upsertBody_iff (pointId : Int64) (agentId payloadText sourceFile : String)
    (timestampUnixMs : Int64) (embedding : List Binary32) (v : Json.Value) :
    readBody (upsertBody pointId agentId payloadText sourceFile timestampUnixMs embedding) =
        some v ↔
      v = pointDocument pointId agentId payloadText sourceFile timestampUnixMs embedding ∧
        (∀ s ∈ [agentId, sourceFile, payloadText], ∀ c ∈ s.toList, ¬ UnescapedControl c) ∧
        ∀ x ∈ embedding, (floatValue x).isSome := by
  have hsettled : Json.Settled (pointDocument pointId agentId payloadText sourceFile
      timestampUnixMs embedding).numbers := by
    rw [numbers_pointDocument]
    refine List.forall_mem_cons.mpr ⟨Or.inl (isSome_number_integer _), ?_⟩
    refine List.forall_mem_append.mpr ⟨settled_vector embedding, ?_⟩
    exact List.forall_mem_singleton.mpr (Or.inl (isSome_number_integer _))
  have hnumbers : Json.Lawful (pointDocument pointId agentId payloadText sourceFile
      timestampUnixMs embedding).numbers ↔ ∀ x ∈ embedding, (floatValue x).isSome := by
    rw [numbers_pointDocument, ← lawful_vector_iff, Json.Lawful, List.forall_mem_cons,
      List.forall_mem_append, List.forall_mem_singleton,
      and_iff_right (isSome_number_integer _), and_iff_left (isSome_number_integer _), Json.Lawful]
  have hkeys : ∀ s ∈ ["points".toList, "id".toList, "vector".toList, "payload".toList,
      "agent_id".toList, "source_file".toList, "timestamp_unix_ms".toList, "raw_text".toList],
      ∀ c ∈ s, ¬ UnescapedControl c := legible_of_all rfl
  have hnone : ∀ s ∈ ([] : List (List Char)), ∀ c ∈ s, ¬ UnescapedControl c :=
    List.forall_mem_nil _
  rw [upsertBody_eq, readBody_iff hsettled, hnumbers, strings_pointDocument]
  refine and_congr_right' ?_
  rw [and_comm]
  refine and_congr_left' ?_
  simp only [List.forall_mem_cons] at hkeys ⊢
  obtain ⟨hpoints, hid, hvector, hpayload, hagentId, hsourceFile, htimestamp, hrawText, -⟩ := hkeys
  constructor
  · rintro ⟨-, -, -, -, -, hagent, -, hsource, -, -, htext, -⟩
    exact ⟨hagent, hsource, htext, List.forall_mem_nil _⟩
  · rintro ⟨hagent, hsource, htext, -⟩
    exact ⟨hpoints, hid, hvector, hpayload, hagentId, hagent, hsourceFile, hsource, htimestamp,
      hrawText, htext, hnone⟩

/-- The body of a write is a JSON document exactly if no string holds a control character
that `escape_json` leaves and every component is finite, and then it is the point. -/
theorem upsertBody_document_iff (pointId : Int64) (agentId payloadText sourceFile : String)
    (timestampUnixMs : Int64) (embedding : List Binary32) :
    ((readBody (upsertBody pointId agentId payloadText sourceFile timestampUnixMs
        embedding)).isSome ↔
      (∀ s ∈ [agentId, sourceFile, payloadText], ∀ c ∈ s.toList, ¬ UnescapedControl c) ∧
        ∀ x ∈ embedding, (floatValue x).isSome) ∧
    ∀ v, readBody (upsertBody pointId agentId payloadText sourceFile timestampUnixMs
        embedding) = some v →
      v.Means (pointMeaning pointId agentId payloadText sourceFile timestampUnixMs embedding) := by
  have hread := readBody_upsertBody_iff pointId agentId payloadText sourceFile timestampUnixMs
    embedding
  constructor
  · rw [Option.isSome_iff_exists]
    exact ⟨fun ⟨v, hv⟩ => ((hread v).mp hv).2, fun h => ⟨_, (hread _).mpr ⟨rfl, h⟩⟩⟩
  · intro v hv
    obtain ⟨rfl, -, hfinite⟩ := (hread v).mp hv
    exact means_pointDocument hfinite

theorem readBody_queryBody_iff (embedding : List Binary32) (v : Json.Value) :
    readBody (queryBody embedding) = some v ↔
      v = queryDocument embedding ∧ ∀ x ∈ embedding, (floatValue x).isSome := by
  have hlimit : (Decimal.number "3".toList).isSome := isSome_number_integer 3
  have hnumbers : (queryDocument embedding).numbers =
      embedding.map floatText ++ ["3".toList] := by
    simp only [queryDocument, Json.Value.numbers, Json.numbersOfMembers, numbers_vectorDocument]
    rfl
  have hstrings : (queryDocument embedding).strings =
      ["vector".toList, "limit".toList, "with_payload".toList, "with_vector".toList] := by
    simp only [queryDocument, Json.Value.strings, Json.stringsOfMembers, strings_vectorDocument]
    rfl
  have hkeys : ∀ s ∈ ["vector".toList, "limit".toList, "with_payload".toList,
      "with_vector".toList], ∀ c ∈ s, ¬ UnescapedControl c := legible_of_all rfl
  have hsettled : Json.Settled (queryDocument embedding).numbers := by
    rw [hnumbers]
    exact List.forall_mem_append.mpr
      ⟨settled_vector embedding, List.forall_mem_singleton.mpr (Or.inl hlimit)⟩
  rw [queryBody_eq, readBody_iff hsettled, hnumbers, hstrings, and_iff_left hkeys,
    ← lawful_vector_iff, Json.Lawful, List.forall_mem_append, List.forall_mem_singleton,
    and_iff_left hlimit, Json.Lawful]

theorem means_queryDocument {embedding : List Binary32}
    (h : ∀ x ∈ embedding, (floatValue x).isSome) :
    (queryDocument embedding).Means (queryMeaning embedding) :=
  ⟨rfl, means_vector h, rfl, means_integer 3, rfl, rfl, rfl, rfl, trivial⟩

theorem number_toDigits (n : ℕ) : Decimal.number (Nat.toDigits 10 n) = some (n : ℚ) := by
  have h := Decimal.number_integer (n : ℤ)
  rw [Decimal.integer, if_neg (by omega), Int.natAbs_natCast] at h
  rw [h, Int.cast_natCast]

theorem readBody_ensureBody (vectorSize : ℕ) :
    readBody (ensureBody vectorSize) = some (collectionDocument vectorSize) := by
  have hkeys : ∀ s ∈ ["vectors".toList, "size".toList, "distance".toList, "Cosine".toList],
      ∀ c ∈ s, ¬ UnescapedControl c := legible_of_all rfl
  have hnumbers : (collectionDocument vectorSize).numbers = [Nat.toDigits 10 vectorSize] := by
    simp [collectionDocument, Json.Value.numbers, Json.numbersOfMembers]
  have hlawful : Json.Lawful (collectionDocument vectorSize).numbers := by
    rw [hnumbers]
    exact List.forall_mem_singleton.mpr (by rw [number_toDigits]; rfl)
  rw [ensureBody_eq, readBody_iff hlawful.settled]
  exact ⟨rfl, hlawful, hkeys⟩

theorem means_collectionDocument (vectorSize : ℕ) :
    (collectionDocument vectorSize).Means (collectionMeaning vectorSize) :=
  ⟨rfl, ⟨rfl, ⟨vectorSize, number_toDigits vectorSize, rfl⟩, rfl, rfl, trivial⟩, trivial⟩

end DistributedLock.Service
