import DistributedLock.Library.Json
import Mathlib.Data.UInt

/-! `escape_json`, which writes the texts of a request into the body of a Qdrant
request, against the string literals of JSON. The code goes through bytes, JSON through
characters: what is escaped is ASCII, so that the two agree on UTF-8. -/

namespace DistributedLock.Service

open Library

/-- The `switch` on one byte. -/
def escapeByte (c : UInt8) : List UInt8 :=
  match c with
  | 0x22 => [0x5C, 0x22]
  | 0x5C => [0x5C, 0x5C]
  | 0x08 => [0x5C, 0x62]
  | 0x0C => [0x5C, 0x66]
  | 0x0A => [0x5C, 0x6E]
  | 0x0D => [0x5C, 0x72]
  | 0x09 => [0x5C, 0x74]
  | c => [c]

def escapeJson (input : List UInt8) : List UInt8 :=
  input.foldl (fun output c => output ++ escapeByte c) []

/-- The bytes of a `std::string` field. -/
def bytesOf (s : String) : List UInt8 := s.toUTF8.data.toList

/-- A field of the body: a quotation mark, `escape_json` and a quotation mark. -/
def quoted (s : String) : List UInt8 := 0x22 :: escapeJson (bytesOf s) ++ [0x22]

/-- The characters of a text that is received as bytes. -/
def decodeUtf8 (bytes : List UInt8) : Option (List Char) :=
  bytes.toByteArray.utf8Decode?.map Array.toList

/-! ### Bytes and characters -/

/-- The UTF-8 of a text. -/
def encodeUtf8 (text : List Char) : List UInt8 := text.flatMap String.utf8EncodeChar

theorem bytesOf_eq (s : String) : bytesOf s = encodeUtf8 s.toList := by
  rw [bytesOf, String.toUTF8, ← String.utf8Encode_toList, List.utf8Encode]
  simp [encodeUtf8]

theorem decodeUtf8_encodeUtf8 (text : List Char) : decodeUtf8 (encodeUtf8 text) = some text := by
  rw [decodeUtf8, encodeUtf8, ← List.utf8Encode, List.utf8Decode?_utf8Encode]
  rfl

@[simp] theorem encodeUtf8_append (a b : List Char) :
    encodeUtf8 (a ++ b) = encodeUtf8 a ++ encodeUtf8 b :=
  List.flatMap_append

/-- What the `switch` does to a character. -/
def escapeChar (c : Char) : List Char :=
  match c with
  | '"' => ['\\', '"']
  | '\\' => ['\\', '\\']
  | '\x08' => ['\\', 'b']
  | '\x0c' => ['\\', 'f']
  | '\n' => ['\\', 'n']
  | '\r' => ['\\', 'r']
  | '\t' => ['\\', 't']
  | c => [c]

theorem escapeByte_of_le {b : UInt8} (hb : 0x80 ≤ b.toNat) : escapeByte b = [b] := by
  unfold escapeByte
  split <;> first | rfl | exact absurd hb (by decide)

theorem escapeChar_of_le {c : Char} (hc : 0x80 ≤ c.toNat) : escapeChar c = [c] := by
  unfold escapeChar
  split <;> first | rfl | exact absurd hc (by decide)

theorem escapeByte_ascii :
    ∀ n < 0x80, escapeByte (UInt8.ofNat n) = encodeUtf8 (escapeChar (Char.ofNat n)) := by
  decide

/-- Outside ASCII, every byte has its highest bit set. -/
theorem le_of_mem_utf8EncodeChar {c : Char} (hc : 0x80 ≤ c.toNat) {b : UInt8}
    (hb : b ∈ String.utf8EncodeChar c) : 0x80 ≤ b.toNat := by
  have hc' : ¬ c.val.toNat ≤ 0x7f := by
    show ¬ c.toNat ≤ 0x7f
    omega
  unfold String.utf8EncodeChar at hb
  simp only [if_neg hc'] at hb
  split at hb
  · simp only [List.mem_cons, List.not_mem_nil, or_false] at hb
    rcases hb with rfl | rfl <;> rw [UInt8.toNat_ofNat'] <;> omega
  · split at hb
    · simp only [List.mem_cons, List.not_mem_nil, or_false] at hb
      rcases hb with rfl | rfl | rfl <;> rw [UInt8.toNat_ofNat'] <;> omega
    · simp only [List.mem_cons, List.not_mem_nil, or_false] at hb
      rcases hb with rfl | rfl | rfl | rfl <;> rw [UInt8.toNat_ofNat'] <;> omega

theorem flatMap_escapeByte_utf8EncodeChar (c : Char) :
    (String.utf8EncodeChar c).flatMap escapeByte = encodeUtf8 (escapeChar c) := by
  by_cases hc : c.toNat < 0x80
  · have hbytes : String.utf8EncodeChar c = [UInt8.ofNat c.toNat] := by
      have hc' : c.val.toNat ≤ 0x7f := Nat.lt_succ_iff.mp hc
      unfold String.utf8EncodeChar
      exact if_pos hc'
    have h := escapeByte_ascii c.toNat hc
    rw [Char.ofNat_toNat] at h
    rw [hbytes, List.flatMap_singleton, h]
  · have hc' : 0x80 ≤ c.toNat := by omega
    rw [escapeChar_of_le hc', encodeUtf8, List.flatMap_singleton,
      List.flatMap_congr fun b hb => escapeByte_of_le (le_of_mem_utf8EncodeChar hc' hb),
      List.flatMap_singleton']

theorem escapeJson_encodeUtf8 (text : List Char) :
    escapeJson (encodeUtf8 text) = encodeUtf8 (text.flatMap escapeChar) := by
  rw [escapeJson, ← List.flatMap_eq_foldl, encodeUtf8, encodeUtf8, List.flatMap_assoc,
    List.flatMap_assoc]
  exact List.flatMap_congr fun c _ => flatMap_escapeByte_utf8EncodeChar c

/-- A field of the body is the UTF-8 of a text that is escaped character by character. -/
theorem decodeUtf8_quoted (s rest : String) :
    decodeUtf8 (quoted s ++ bytesOf rest) =
      some ('"' :: (s.toList.flatMap escapeChar ++ '"' :: rest.toList)) := by
  have h : quoted s ++ bytesOf rest =
      encodeUtf8 ('"' :: (s.toList.flatMap escapeChar ++ '"' :: rest.toList)) := by
    have hquote : String.utf8EncodeChar '"' = [0x22] := by decide
    rw [quoted, bytesOf_eq, bytesOf_eq, escapeJson_encodeUtf8]
    simp [encodeUtf8, hquote]
  rw [h, decodeUtf8_encodeUtf8]

/-! ### Reading the field back -/

/-- A control character for which the `switch` has no case. -/
def UnescapedControl (c : Char) : Prop :=
  c.toNat < 0x20 ∧ c ∉ ['\x08', '\x0c', '\n', '\r', '\t']

theorem writes_escapeChar {c : Char} (hc : ¬ UnescapedControl c) :
    Json.Writes (escapeChar c) c := by
  unfold escapeChar
  split
  case h_8 hquote hescape hb hf hn hr ht =>
    apply Json.writes_unescaped hquote hescape
    by_contra hlt
    apply hc
    simp only [UnescapedControl, List.mem_cons, List.not_mem_nil, or_false, not_or]
    exact ⟨by omega, hb, hf, hn, hr, ht⟩
  all_goals exact Json.writes_escape (by decide) rfl

theorem breaks_escapeChar {c : Char} (hc : UnescapedControl c) : Json.Breaks (escapeChar c) := by
  obtain ⟨hlt, hmem⟩ := hc
  have h : escapeChar c = [c] := by
    unfold escapeChar
    split
    case h_8 => rfl
    all_goals first | exact absurd hlt (by decide) | exact absurd hmem (by decide)
  rw [h]
  exact Json.breaks_control hlt

/-- A field of the body is read back as the string it was made of, and its literal ends
where the field ends, exactly if the string holds none of the control characters for
which the `switch` has no case. -/
theorem readString_quoted_iff (s rest : String) :
    (decodeUtf8 (quoted s ++ bytesOf rest)).bind Json.readString =
        some (s.toList, rest.toList) ↔
      ∀ c ∈ s.toList, ¬ UnescapedControl c := by
  rw [decodeUtf8_quoted, Option.bind_some]
  constructor
  · intro h c hc hcontrol
    have hall : ∀ d ∈ s.toList, Json.Writes (escapeChar d) d ∨ Json.Breaks (escapeChar d) := by
      intro d _
      by_cases hd : UnescapedControl d
      · exact Or.inr (breaks_escapeChar hd)
      · exact Or.inl (writes_escapeChar hd)
    rw [Json.readString_flatMap_none hall hc (breaks_escapeChar hcontrol)] at h
    cases h
  · intro h
    exact Json.readString_flatMap (fun c hc => writes_escapeChar (h c hc)) rest.toList

/-- An escape character (27) in the text of a payload leaves no literal at all. -/
theorem readString_quoted_control :
    ¬ ∀ s : String, (decodeUtf8 (quoted s)).bind Json.readString = some (s.toList, []) := by
  intro h
  exact absurd (h "red: \x1b[31m") (by decide)

end DistributedLock.Service
