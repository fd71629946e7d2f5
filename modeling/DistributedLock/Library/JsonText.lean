import DistributedLock.Library.Decimal
import DistributedLock.Library.Json
import Mathlib.Data.Bool.AllAny

/-! JSON texts: a parser, which passes no control character but whitespace, and a writer
that adds no whitespace and escapes strings character by character. What a value means
leaves the literals behind: of a number it says what holds of the number that its literal
stands for. -/

namespace DistributedLock.Library.Json

open Decimal

/-- A number stands for itself as its literal. -/
inductive Value where
  | null
  | bool (b : Bool)
  | number (literal : List Char)
  | string (s : List Char)
  | array (items : List Value)
  | object (members : List (List Char × Value))

/-! ### The parser -/

def isSpace (c : Char) : Bool := c = ' ' || c = '\t' || c = '\n' || c = '\r'

def skip (text : List Char) : List Char := text.dropWhile isSpace

/-- A number, or one of the three literal names. -/
def scalar : List Char → Option (Value × List Char)
  | 'n' :: 'u' :: 'l' :: 'l' :: text => some (.null, text)
  | 't' :: 'r' :: 'u' :: 'e' :: text => some (.bool true, text)
  | 'f' :: 'a' :: 'l' :: 's' :: 'e' :: text => some (.bool false, text)
  | text =>
    if (Decimal.number (text.takeWhile isNumeral)).isSome then
      some (.number (text.takeWhile isNumeral), text.dropWhile isNumeral)
    else none

mutual

/-- The value at the start of a text, and the text behind it. -/
def value : ℕ → List Char → Option (Value × List Char)
  | 0, _ => none
  | n + 1, text =>
    match skip text with
    | '"' :: text => (content .plain text).map fun r => (.string r.1, r.2)
    | '[' :: text =>
      match skip text with
      | ']' :: text => some (.array [], text)
      | text => (items n text).map fun r => (.array r.1, r.2)
    | '{' :: text =>
      match skip text with
      | '}' :: text => some (.object [], text)
      | text => (members n text).map fun r => (.object r.1, r.2)
    | text => scalar text

/-- The items of an array up to its closing bracket, one at least. -/
def items : ℕ → List Char → Option (List Value × List Char)
  | 0, _ => none
  | n + 1, text =>
    (value n text).bind fun item =>
      match skip item.2 with
      | ']' :: text => some ([item.1], text)
      | ',' :: text => (items n text).map fun r => (item.1 :: r.1, r.2)
      | _ => none

/-- The members of an object up to its closing brace, one at least. -/
def members : ℕ → List Char → Option (List (List Char × Value) × List Char)
  | 0, _ => none
  | n + 1, text =>
    (readString (skip text)).bind fun name =>
      match skip name.2 with
      | ':' :: text =>
        (value n text).bind fun member =>
          match skip member.2 with
          | '}' :: text => some ([(name.1, member.1)], text)
          | ',' :: text => (members n text).map fun r => ((name.1, member.1) :: r.1, r.2)
          | _ => none
      | _ => none

end

/-- The value of a whole text. -/
def document (text : List Char) : Option Value :=
  (value (text.length + 1) text).bind fun r => if skip r.2 = [] then some r.1 else none

/-! ### Steps of the parser -/

theorem skip_cons {c : Char} (hc : ¬ isSpace c) (text : List Char) :
    skip (c :: text) = c :: text :=
  List.dropWhile_cons_of_neg hc

/-- A character that a value starts with. -/
def Opens (c : Char) : Prop := ¬ isSpace c ∧ c ≠ ']'

theorem value_scalar (n : ℕ) {c : Char} (hc : ¬ isSpace c) (hquote : c ≠ '"') (harray : c ≠ '[')
    (hobject : c ≠ '{') (text : List Char) : value (n + 1) (c :: text) = scalar (c :: text) := by
  rw [value, skip_cons hc]
  split
  · rename_i heq
    exact absurd (List.cons.inj heq).1 hquote
  · rename_i heq
    exact absurd (List.cons.inj heq).1 harray
  · rename_i heq
    exact absurd (List.cons.inj heq).1 hobject
  · rfl

theorem value_string (n : ℕ) (text : List Char) :
    value (n + 1) ('"' :: text) = (content .plain text).map fun r => (.string r.1, r.2) :=
  rfl

theorem value_array (n : ℕ) {c : Char} (hc : Opens c) (text : List Char) :
    value (n + 1) ('[' :: c :: text) = (items n (c :: text)).map fun r => (.array r.1, r.2) := by
  have h : value (n + 1) ('[' :: c :: text) = match skip (c :: text) with
    | ']' :: text => some (.array [], text)
    | text => (items n text).map fun r => (.array r.1, r.2) := rfl
  rw [h, skip_cons hc.1]
  split
  · rename_i heq
    exact absurd (List.cons.inj heq).1 hc.2
  · rfl

theorem value_object (n : ℕ) (text : List Char) :
    value (n + 1) ('{' :: '"' :: text) = (members n ('"' :: text)).map fun r => (.object r.1, r.2) :=
  rfl

theorem items_close {n : ℕ} {text rest : List Char} {item : Value}
    (h : value n text = some (item, ']' :: rest)) : items (n + 1) text = some ([item], rest) := by
  rw [items, h]
  rfl

theorem items_comma {n : ℕ} {text rest : List Char} {item : Value}
    (h : value n text = some (item, ',' :: rest)) :
    items (n + 1) text = (items n rest).map fun r => (item :: r.1, r.2) := by
  rw [items, h]
  rfl

theorem items_none {n : ℕ} {text : List Char} (h : value n text = none) :
    items (n + 1) text = none := by
  rw [items, h]
  rfl

theorem members_close {n : ℕ} {text behind rest name : List Char} {v : Value}
    (hname : readString ('"' :: text) = some (name, ':' :: behind))
    (h : value n behind = some (v, '}' :: rest)) :
    members (n + 1) ('"' :: text) = some ([(name, v)], rest) := by
  rw [members, skip_cons (by decide), hname, Option.bind_some]
  change (value n behind).bind _ = _
  rw [h]
  rfl

theorem members_comma {n : ℕ} {text behind rest name : List Char} {v : Value}
    (hname : readString ('"' :: text) = some (name, ':' :: behind))
    (h : value n behind = some (v, ',' :: rest)) :
    members (n + 1) ('"' :: text) = (members n rest).map fun r => ((name, v) :: r.1, r.2) := by
  rw [members, skip_cons (by decide), hname, Option.bind_some]
  change (value n behind).bind _ = _
  rw [h]
  rfl

theorem members_none {n : ℕ} {text behind name : List Char}
    (hname : readString ('"' :: text) = some (name, ':' :: behind)) (h : value n behind = none) :
    members (n + 1) ('"' :: text) = none := by
  rw [members, skip_cons (by decide), hname, Option.bind_some]
  change (value n behind).bind _ = _
  rw [h]
  rfl

/-! ### The writer -/

mutual

def Value.render (write : Char → List Char) : Value → List Char
  | .null => "null".toList
  | .bool true => "true".toList
  | .bool false => "false".toList
  | .number literal => literal
  | .string s => '"' :: (s.flatMap write ++ ['"'])
  | .array items => '[' :: renderItems write items
  | .object members => '{' :: renderMembers write members

def renderItems (write : Char → List Char) : List Value → List Char
  | [] => [']']
  | [item] => item.render write ++ [']']
  | item :: next :: items => item.render write ++ ',' :: renderItems write (next :: items)

def renderMembers (write : Char → List Char) : List (List Char × Value) → List Char
  | [] => ['}']
  | [(name, v)] => '"' :: (name.flatMap write ++ '"' :: ':' :: (v.render write ++ ['}']))
  | (name, v) :: next :: members =>
    '"' :: (name.flatMap write ++ '"' :: ':' ::
      (v.render write ++ ',' :: renderMembers write (next :: members)))

end

mutual

/-- The literals of the numbers in a value. -/
def Value.numbers : Value → List (List Char)
  | .number literal => [literal]
  | .array items => numbersOfItems items
  | .object members => numbersOfMembers members
  | _ => []

def numbersOfItems : List Value → List (List Char)
  | [] => []
  | item :: items => item.numbers ++ numbersOfItems items

def numbersOfMembers : List (List Char × Value) → List (List Char)
  | [] => []
  | (_, v) :: members => v.numbers ++ numbersOfMembers members

end

mutual

/-- The strings in a value, names of members included. -/
def Value.strings : Value → List (List Char)
  | .string s => [s]
  | .array items => stringsOfItems items
  | .object members => stringsOfMembers members
  | _ => []

def stringsOfItems : List Value → List (List Char)
  | [] => []
  | item :: items => item.strings ++ stringsOfItems items

def stringsOfMembers : List (List Char × Value) → List (List Char)
  | [] => []
  | (name, v) :: members => name :: v.strings ++ stringsOfMembers members

end

/-! ### The meaning -/

/-- What a value is meant to be, up to what has to hold of its numbers. -/
inductive Meaning where
  | null
  | bool (b : Bool)
  | number (P : ℚ → Prop)
  | string (s : List Char)
  | array (items : List Meaning)
  | object (members : List (List Char × Meaning))

mutual

def Value.Means : Value → Meaning → Prop
  | .null, .null => True
  | .bool b, .bool b' => b = b'
  | .number literal, .number P => ∃ q, Decimal.number literal = some q ∧ P q
  | .string s, .string s' => s = s'
  | .array items, .array meanings => itemsMean items meanings
  | .object members, .object meanings => membersMean members meanings
  | _, _ => False

def itemsMean : List Value → List Meaning → Prop
  | [], [] => True
  | item :: items, m :: meanings => item.Means m ∧ itemsMean items meanings
  | _, _ => False

def membersMean : List (List Char × Value) → List (List Char × Meaning) → Prop
  | [], [] => True
  | (name, v) :: members, (name', m) :: meanings =>
    name = name' ∧ v.Means m ∧ membersMean members meanings
  | _, _ => False

end

/-! ### What the parser accepts -/

/-- Between a text and its rest there are no control characters but whitespace. -/
def Passes (text rest : List Char) : Prop :=
  ∃ used, text = used ++ rest ∧ ∀ c ∈ used, 0x20 ≤ c.toNat ∨ isSpace c

theorem Passes.refl (text : List Char) : Passes text text := ⟨[], rfl, by simp⟩

theorem Passes.append {used text rest : List Char} (h : Passes text rest)
    (hused : ∀ c ∈ used, 0x20 ≤ c.toNat ∨ isSpace c) : Passes (used ++ text) rest := by
  obtain ⟨used', rfl, hused'⟩ := h
  exact ⟨used ++ used', (List.append_assoc _ _ _).symm, List.forall_mem_append.mpr ⟨hused, hused'⟩⟩

theorem Passes.word (word : String) (rest : List Char)
    (h : word.toList.all fun c => 0x20 ≤ c.toNat ∨ isSpace c) :
    Passes (word.toList ++ rest) rest :=
  (Passes.refl rest).append (List.all_iff_forall_prop.mp h)

theorem Passes.cons {c : Char} {text rest : List Char} (h : Passes text rest)
    (hc : 0x20 ≤ c.toNat) : Passes (c :: text) rest :=
  Passes.append h (show ∀ d ∈ [c], _ from by simpa using Or.inl hc)

theorem Passes.trans {text middle rest : List Char} (h : Passes text middle)
    (h' : Passes middle rest) : Passes text rest := by
  obtain ⟨used, rfl, hused⟩ := h
  exact h'.append hused

theorem passes_skip (text : List Char) : Passes text (skip text) :=
  ⟨text.takeWhile isSpace, List.takeWhile_append_dropWhile.symm,
    fun _ hc => Or.inr (List.mem_takeWhile_imp hc)⟩

theorem passes_of_skip {text text' : List Char} {c : Char} (h : skip text = c :: text')
    (hc : 0x20 ≤ c.toNat) : Passes text text' :=
  (passes_skip text).trans (h ▸ (Passes.refl text').cons hc)

theorem le_of_hexDigit {c : Char} {d : ℕ} (h : hexDigit c = some d) : 0x20 ≤ c.toNat := by
  have hle : ∀ {a : Char}, a ≤ c → a.toNat ≤ c.toNat := fun hac =>
    UInt32.le_iff_toNat_le.mp (Char.le_def.mp hac)
  unfold hexDigit at h
  split_ifs at h with hdigit hlower hupper
  · exact le_trans (by decide) (hle hdigit.1)
  · exact le_trans (by decide) (hle hlower.1)
  · exact le_trans (by decide) (hle hupper.1)

theorem le_of_twoCharacterEscape {c d : Char} (h : twoCharacterEscape c = some d) :
    0x20 ≤ c.toNat := by
  unfold twoCharacterEscape at h
  split at h <;> first | decide | cases h

/-- The reader of a literal takes one character, which is no control character. -/
theorem content_step {mode : Mode} {c : Char} {text : List Char} {r : List Char × List Char}
    (h : content mode (c :: text) = some r) :
    0x20 ≤ c.toNat ∧ (r.2 = text ∨ ∃ mode' r', content mode' text = some r' ∧ r'.2 = r.2) := by
  have hmap : ∀ {d : Char}, (content .plain text).map (prepend d) = some r →
      ∃ mode' r', content mode' text = some r' ∧ r'.2 = r.2 := by
    intro d h
    obtain ⟨r', hr', rfl⟩ := Option.map_eq_some_iff.mp h
    exact ⟨_, r', hr', rfl⟩
  cases mode with
  | plain =>
    rw [content] at h
    split_ifs at h with hquote hescape hcontrol
    · cases h
      exact ⟨by rw [hquote]; decide, Or.inl rfl⟩
    · exact ⟨by rw [hescape]; decide, Or.inr ⟨_, r, h, rfl⟩⟩
    · exact ⟨not_lt.mp hcontrol, Or.inr (hmap h)⟩
  | escape =>
    rw [content] at h
    split_ifs at h with hu
    · exact ⟨by rw [hu]; decide, Or.inr ⟨_, r, h, rfl⟩⟩
    · obtain ⟨d, hd, h⟩ := Option.bind_eq_some_iff.mp h
      exact ⟨le_of_twoCharacterEscape hd, Or.inr (hmap h)⟩
  | digits high count value =>
    rw [content] at h
    obtain ⟨d, hd, h⟩ := Option.bind_eq_some_iff.mp h
    refine ⟨le_of_hexDigit hd, Or.inr ?_⟩
    split_ifs at h with hcount
    · exact ⟨_, r, h, rfl⟩
    · obtain ⟨unit, -, h⟩ := Option.bind_eq_some_iff.mp h
      cases unit with
      | inl e => exact hmap h
      | inr high => exact ⟨_, r, h, rfl⟩
  | second high =>
    rw [content] at h
    split_ifs at h with hescape
    exact ⟨by rw [hescape]; decide, Or.inr ⟨_, r, h, rfl⟩⟩
  | secondEscape high =>
    rw [content] at h
    split_ifs at h with hu
    exact ⟨by rw [hu]; decide, Or.inr ⟨_, r, h, rfl⟩⟩

theorem content_passes {mode : Mode} {text : List Char} {r : List Char × List Char}
    (h : content mode text = some r) : Passes text r.2 := by
  induction text generalizing mode r with
  | nil =>
    rw [content] at h
    cases h
  | cons c text ih =>
    obtain ⟨hc, hrest | ⟨mode', r', h', hrest⟩⟩ := content_step h
    · rw [hrest]
      exact (Passes.refl text).cons hc
    · rw [← hrest]
      exact (ih h').cons hc

theorem readString_passes {text : List Char} {r : List Char × List Char}
    (h : readString text = some r) : Passes text r.2 := by
  unfold readString at h
  split at h
  · exact (content_passes h).cons (by decide)
  · cases h

theorem le_of_isNumeral {c : Char} (h : isNumeral c) : 0x20 ≤ c.toNat := by
  simp only [isNumeral, Bool.or_eq_true, decide_eq_true_eq] at h
  rcases h with ((((h | rfl) | rfl) | rfl) | rfl) | rfl
  · exact le_trans (by decide) (Char.isDigit_iff_toNat.mp h).1
  all_goals decide

theorem scalar_passes {text rest : List Char} {v : Value} (h : scalar text = some (v, rest)) :
    Passes text rest := by
  unfold scalar at h
  split at h
  · cases h
    exact .word "null" rest (by decide)
  · cases h
    exact .word "true" rest (by decide)
  · cases h
    exact .word "false" rest (by decide)
  · split at h
    · cases h
      exact ⟨_, List.takeWhile_append_dropWhile.symm, fun c hc =>
        Or.inl (le_of_isNumeral (List.mem_takeWhile_imp hc))⟩
    · cases h

theorem value_passes {n : ℕ}
    (hitems : ∀ {text rest l}, items n text = some (l, rest) → Passes text rest)
    (hmembers : ∀ {text rest l}, members n text = some (l, rest) → Passes text rest)
    {text rest : List Char} {v : Value} (h : value (n + 1) text = some (v, rest)) :
    Passes text rest := by
  rw [value] at h
  split at h
  · rename_i text' heq
    obtain ⟨r, hr, h⟩ := Option.map_eq_some_iff.mp h
    cases h
    exact (passes_of_skip heq (by decide)).trans (content_passes hr)
  · rename_i text' heq
    have hopen := passes_of_skip heq (by decide)
    split at h
    · rename_i text'' heq'
      cases h
      exact hopen.trans (passes_of_skip heq' (by decide))
    · obtain ⟨r, hr, h⟩ := Option.map_eq_some_iff.mp h
      cases h
      exact hopen.trans ((passes_skip _).trans (hitems hr))
  · rename_i text' heq
    have hopen := passes_of_skip heq (by decide)
    split at h
    · rename_i text'' heq'
      cases h
      exact hopen.trans (passes_of_skip heq' (by decide))
    · obtain ⟨r, hr, h⟩ := Option.map_eq_some_iff.mp h
      cases h
      exact hopen.trans ((passes_skip _).trans (hmembers hr))
  · exact (passes_skip text).trans (scalar_passes h)

theorem items_passes {n : ℕ}
    (hvalue : ∀ {text rest v}, value n text = some (v, rest) → Passes text rest)
    (hitems : ∀ {text rest l}, items n text = some (l, rest) → Passes text rest)
    {text rest : List Char} {l : List Value} (h : items (n + 1) text = some (l, rest)) :
    Passes text rest := by
  rw [items] at h
  obtain ⟨⟨item, behind⟩, hitem, h⟩ := Option.bind_eq_some_iff.mp h
  split at h
  · rename_i text' heq
    cases h
    exact (hvalue hitem).trans (passes_of_skip heq (by decide))
  · rename_i text' heq
    obtain ⟨r, hr, h⟩ := Option.map_eq_some_iff.mp h
    cases h
    exact (hvalue hitem).trans ((passes_of_skip heq (by decide)).trans (hitems hr))
  · cases h

theorem members_passes {n : ℕ}
    (hvalue : ∀ {text rest v}, value n text = some (v, rest) → Passes text rest)
    (hmembers : ∀ {text rest l}, members n text = some (l, rest) → Passes text rest)
    {text rest : List Char} {l : List (List Char × Value)}
    (h : members (n + 1) text = some (l, rest)) : Passes text rest := by
  rw [members] at h
  obtain ⟨⟨name, behind⟩, hname, h⟩ := Option.bind_eq_some_iff.mp h
  have hstart := (passes_skip text).trans (readString_passes hname)
  split at h
  · rename_i text' heq
    obtain ⟨⟨member, behind'⟩, hmember, h⟩ := Option.bind_eq_some_iff.mp h
    have hfirst := hstart.trans ((passes_of_skip heq (by decide)).trans (hvalue hmember))
    split at h
    · rename_i text'' heq'
      cases h
      exact hfirst.trans (passes_of_skip heq' (by decide))
    · rename_i text'' heq'
      obtain ⟨r, hr, h⟩ := Option.map_eq_some_iff.mp h
      cases h
      exact hfirst.trans ((passes_of_skip heq' (by decide)).trans (hmembers hr))
    · cases h
  · cases h

theorem parse_passes (n : ℕ) :
    (∀ {text rest v}, value n text = some (v, rest) → Passes text rest) ∧
    (∀ {text rest l}, items n text = some (l, rest) → Passes text rest) ∧
    (∀ {text rest l}, members n text = some (l, rest) → Passes text rest) := by
  induction n with
  | zero => exact ⟨nofun, nofun, nofun⟩
  | succ n ih =>
    obtain ⟨hvalue, hitems, hmembers⟩ := ih
    exact ⟨value_passes hitems hmembers, items_passes hvalue hitems, members_passes hvalue hmembers⟩

/-- A text that is accepted holds no control character but whitespace. -/
theorem document_passes {text : List Char} {v : Value} (h : document text = some v) :
    ∀ c ∈ text, 0x20 ≤ c.toNat ∨ isSpace c := by
  obtain ⟨⟨v', rest⟩, hr, h⟩ := Option.bind_eq_some_iff.mp h
  dsimp only at h
  split at h
  · rename_i hrest
    cases h
    obtain ⟨used, heq, hused⟩ := ((parse_passes _).1 hr).trans (hrest ▸ passes_skip rest)
    rw [List.append_nil] at heq
    exact heq ▸ hused
  · cases h

end DistributedLock.Library.Json
