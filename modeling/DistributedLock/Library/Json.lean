import Mathlib.Data.Char
import Mathlib.Data.List.Basic

/-! String literals of JSON: a reader that goes through the text one character at a
time, and what a writer that escapes character by character owes it. -/

namespace DistributedLock.Library.Json

/-- Where the reader stands inside a literal: between two characters, after a reverse
solidus, among the four digits of a `\u` escape, or after the first half of a surrogate
pair, whose second half has to follow. -/
inductive Mode where
  | plain
  | escape
  | digits (high : Option ℕ) (count value : ℕ)
  | second (high : ℕ)
  | secondEscape (high : ℕ)

def hexDigit (c : Char) : Option ℕ :=
  if '0' ≤ c ∧ c ≤ '9' then some (c.toNat - '0'.toNat)
  else if 'a' ≤ c ∧ c ≤ 'f' then some (c.toNat - 'a'.toNat + 10)
  else if 'A' ≤ c ∧ c ≤ 'F' then some (c.toNat - 'A'.toNat + 10)
  else none

/-- The characters with an escape of two characters. -/
def twoCharacterEscape : Char → Option Char
  | '"' => some '"'
  | '\\' => some '\\'
  | '/' => some '/'
  | 'b' => some '\x08'
  | 'f' => some '\x0c'
  | 'n' => some '\n'
  | 'r' => some '\r'
  | 't' => some '\t'
  | _ => none

/-- What four digits stand for: a character, or the first half of a pair. -/
def codeUnit (high : Option ℕ) (value : ℕ) : Option (Char ⊕ ℕ) :=
  match high with
  | none =>
    if 0xD800 ≤ value ∧ value < 0xDC00 then some (.inr value)
    else if 0xDC00 ≤ value ∧ value < 0xE000 then none
    else some (.inl (Char.ofNat value))
  | some high =>
    if 0xDC00 ≤ value ∧ value < 0xE000 then
      some (.inl (Char.ofNat (0x10000 + (high - 0xD800) * 0x400 + (value - 0xDC00))))
    else none

/-- A character of the value in front of the rest that is read. -/
def prepend (c : Char) (r : List Char × List Char) : List Char × List Char :=
  (c :: r.1, r.2)

/-- The value of a literal whose opening quotation mark has been read, and the text
behind its closing quotation mark. -/
def content : Mode → List Char → Option (List Char × List Char)
  | _, [] => none
  | .plain, c :: text =>
    if c = '"' then some ([], text)
    else if c = '\\' then content .escape text
    else if c.toNat < 0x20 then none
    else (content .plain text).map (prepend c)
  | .escape, c :: text =>
    if c = 'u' then content (.digits none 0 0) text
    else (twoCharacterEscape c).bind fun d => (content .plain text).map (prepend d)
  | .digits high count value, c :: text =>
    (hexDigit c).bind fun d =>
      if count < 3 then content (.digits high (count + 1) (16 * value + d)) text
      else (codeUnit high (16 * value + d)).bind fun unit =>
        match unit with
        | .inl e => (content .plain text).map (prepend e)
        | .inr h => content (.second h) text
  | .second high, c :: text => if c = '\\' then content (.secondEscape high) text else none
  | .secondEscape high, c :: text =>
    if c = 'u' then content (.digits (some high) 0 0) text else none

/-- A text that starts with a string literal: its value, and the text behind it. -/
def readString : List Char → Option (List Char × List Char)
  | '"' :: text => content .plain text
  | _ => none

example : readString "\"a\\\"\\u00e9\\ud834\\udd1e\", 1".toList =
    some ("a\"é𝄞".toList, ", 1".toList) := by decide

/-! ### Writing -/

/-- A way to write `c` that a reader takes for `c`, whatever follows. -/
def Writes (out : List Char) (c : Char) : Prop :=
  ∀ text, content .plain (out ++ text) = (content .plain text).map (prepend c)

/-- A way to write that no reader accepts, whatever follows. -/
def Breaks (out : List Char) : Prop :=
  ∀ text, content .plain (out ++ text) = none

theorem writes_unescaped {c : Char} (hquote : c ≠ '"') (hescape : c ≠ '\\')
    (hc : 0x20 ≤ c.toNat) : Writes [c] c := by
  intro text
  rw [List.singleton_append, content, if_neg hquote, if_neg hescape, if_neg (by omega)]

theorem writes_escape {c d : Char} (hu : c ≠ 'u') (h : twoCharacterEscape c = some d) :
    Writes ['\\', c] d := by
  intro text
  rw [List.cons_append, List.singleton_append, content, if_neg (by decide), if_pos rfl, content,
    if_neg hu, h, Option.bind_some]

/-- A control character as it is ends the reading. -/
theorem breaks_control {c : Char} (hc : c.toNat < 0x20) : Breaks [c] := by
  intro text
  have hquote : c ≠ '"' := by rintro rfl; exact absurd hc (by decide)
  have hescape : c ≠ '\\' := by rintro rfl; exact absurd hc (by decide)
  rw [List.singleton_append, content, if_neg hquote, if_neg hescape, if_pos hc]

/-- If every character of `s` is written as something read back as that character, the
literal of `s` is read back as `s`, and the reading ends at its closing quotation mark. -/
theorem readString_flatMap {write : Char → List Char} {s : List Char}
    (h : ∀ c ∈ s, Writes (write c) c) (text : List Char) :
    readString ('"' :: (s.flatMap write ++ '"' :: text)) = some (s, text) := by
  rw [readString]
  induction s with
  | nil => rw [List.flatMap_nil, List.nil_append, content, if_pos rfl]
  | cons c s ih =>
    have hs := ih fun d hd => h d (List.mem_cons_of_mem c hd)
    rw [List.flatMap_cons, List.append_assoc, h c List.mem_cons_self, hs]
    rfl

/-- If some character is written so that the reading breaks off, and every character
before it is written well or so too, there is no literal. -/
theorem readString_flatMap_none {write : Char → List Char} {s : List Char}
    (h : ∀ c ∈ s, Writes (write c) c ∨ Breaks (write c)) {c : Char} (hc : c ∈ s)
    (hb : Breaks (write c)) (text : List Char) :
    readString ('"' :: (s.flatMap write ++ text)) = none := by
  rw [readString]
  induction s with
  | nil => exact absurd hc List.not_mem_nil
  | cons e s ih =>
    rw [List.flatMap_cons, List.append_assoc]
    rcases List.mem_cons.mp hc with rfl | hs
    · exact hb _
    · rcases h e List.mem_cons_self with he | he
      · rw [he, ih (fun a ha => h a (List.mem_cons_of_mem e ha)) hs]
        rfl
      · exact he _

end DistributedLock.Library.Json
