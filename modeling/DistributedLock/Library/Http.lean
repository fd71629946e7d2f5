import DistributedLock.Library.Decimal

/-! Requests of HTTP/1.1, as a server reads them from the bytes of a connection: a request
line, fields up to an empty line, and as many bytes of a body as `Content-Length` says. -/

namespace DistributedLock.Library.Http

open Decimal

structure Request where
  method : List UInt8
  target : List UInt8
  fields : List (List UInt8 × List UInt8)
  body : List UInt8
  deriving DecidableEq

/-- The bytes of a text of ASCII characters. -/
def ascii (text : String) : List UInt8 := text.toList.map fun c => UInt8.ofNat c.toNat

/-! ### Reading -/

/-- A line, and what follows its end. -/
def line : List UInt8 → Option (List UInt8 × List UInt8)
  | [] => none
  | b :: text =>
    if b = 0x0D ∧ text.head? = some 0x0A then some ([], text.tail)
    else (line text).map fun r => (b :: r.1, r.2)

/-- What stands before the first `separator`, and what follows it. -/
def split (separator : UInt8) : List UInt8 → Option (List UInt8 × List UInt8)
  | [] => none
  | b :: text =>
    if b = separator then some ([], text)
    else (split separator text).map fun r => (b :: r.1, r.2)

def isBlank (b : UInt8) : Bool := b = 0x20 || b = 0x09

/-- The value of a field without the whitespace around it. -/
def trim (value : List UInt8) : List UInt8 := (value.dropWhile isBlank).rdropWhile isBlank

/-- The fields up to the empty line, at most `n`, and what follows it. -/
def readFields : ℕ → List UInt8 → Option (List (List UInt8 × List UInt8) × List UInt8)
  | 0, _ => none
  | n + 1, text =>
    (line text).bind fun r =>
      if r.1 = [] then some ([], r.2)
      else (split 0x3A r.1).bind fun field =>
        (readFields n r.2).map fun s => ((field.1, trim field.2) :: s.1, s.2)

/-- Names of fields are compared without regard to case. -/
def lower (b : UInt8) : UInt8 := if 0x41 ≤ b ∧ b ≤ 0x5A then b + 0x20 else b

def contentLength (fields : List (List UInt8 × List UInt8)) : Option ℕ :=
  match fields.find? fun field => field.1.map lower = ascii "content-length" with
  | none => some 0
  | some field => natural (field.2.map fun b => Char.ofNat b.toNat)

/-- The request at the start of a connection, and the bytes that follow it. -/
def request (text : List UInt8) : Option (Request × List UInt8) :=
  (line text).bind fun start =>
    (split 0x20 start.1).bind fun method =>
      (split 0x20 method.2).bind fun target =>
        if target.2 ≠ ascii "HTTP/1.1" then none
        else
          (readFields text.length start.2).bind fun fields =>
            (contentLength fields.1).bind fun n =>
              if fields.2.length < n then none
              else some (⟨method.1, target.1, fields.1, fields.2.take n⟩, fields.2.drop n)

/-! ### Writing -/

def crlf : List UInt8 := [0x0D, 0x0A]

def writeField (field : List UInt8 × List UInt8) : List UInt8 :=
  field.1 ++ ascii ": " ++ field.2 ++ crlf

def Request.write (r : Request) : List UInt8 :=
  r.method ++ ascii " " ++ r.target ++ ascii " HTTP/1.1" ++ crlf ++
    r.fields.flatMap writeField ++ crlf ++ r.body

/-- What the parts of a request may not contain, and the length it has to give. -/
structure Request.WellFormed (r : Request) : Prop where
  method : ∀ b ∈ r.method, b ≠ 0x20 ∧ b ≠ 0x0D
  target : ∀ b ∈ r.target, b ≠ 0x20 ∧ b ≠ 0x0D
  name : ∀ field ∈ r.fields, field.1 ≠ [] ∧ ∀ b ∈ field.1, b ≠ 0x3A ∧ b ≠ 0x0D
  value : ∀ field ∈ r.fields, ∀ b ∈ field.2, ¬ isBlank b ∧ b ≠ 0x0D
  length : contentLength r.fields = some r.body.length

theorem line_append {first : List UInt8} (h : ∀ b ∈ first, b ≠ 0x0D) (text : List UInt8) :
    line (first ++ (crlf ++ text)) = some (first, text) := by
  induction first with
  | nil => rfl
  | cons b first ih =>
    have hb : ¬ (b = 0x0D ∧ (first ++ (crlf ++ text)).head? = some 0x0A) := fun hb =>
      h b List.mem_cons_self hb.1
    rw [List.cons_append, line, if_neg hb, ih fun c hc => h c (List.mem_cons_of_mem b hc)]
    rfl

theorem split_append {separator : UInt8} {first : List UInt8} (h : ∀ b ∈ first, b ≠ separator)
    (text : List UInt8) : split separator (first ++ separator :: text) = some (first, text) := by
  induction first with
  | nil => rw [List.nil_append, split, if_pos rfl]
  | cons b first ih =>
    rw [List.cons_append, split, if_neg (h b List.mem_cons_self),
      ih fun c hc => h c (List.mem_cons_of_mem b hc)]
    rfl

theorem trim_blank {value : List UInt8} (h : ∀ b ∈ value, ¬ isBlank b) :
    trim (0x20 :: value) = value := by
  have hdrop : (0x20 :: value).dropWhile isBlank = value := by
    rw [List.dropWhile_cons_of_pos (by decide)]
    cases value with
    | nil => rfl
    | cons b value => exact List.dropWhile_cons_of_neg (h b List.mem_cons_self)
  rw [trim, hdrop, List.rdropWhile_eq_self_iff]
  exact fun hl => h _ (List.getLast_mem hl)

theorem readFields_write {fields : List (List UInt8 × List UInt8)}
    (hname : ∀ field ∈ fields, field.1 ≠ [] ∧ ∀ b ∈ field.1, b ≠ 0x3A ∧ b ≠ 0x0D)
    (hvalue : ∀ field ∈ fields, ∀ b ∈ field.2, ¬ isBlank b ∧ b ≠ 0x0D) (text : List UInt8)
    {n : ℕ} (hn : fields.length < n) :
    readFields n (fields.flatMap writeField ++ (crlf ++ text)) = some (fields, text) := by
  induction fields generalizing n with
  | nil =>
    obtain ⟨n, rfl⟩ := Nat.exists_eq_succ_of_ne_zero hn.ne'
    rfl
  | cons field fields ih =>
    obtain ⟨n, rfl⟩ := Nat.exists_eq_succ_of_ne_zero (Nat.ne_of_gt (Nat.zero_lt_of_lt hn))
    obtain ⟨hne, hcolon⟩ := hname field List.mem_cons_self
    have hblank := hvalue field List.mem_cons_self
    have hline : ∀ b ∈ field.1 ++ 0x3A :: 0x20 :: field.2, b ≠ 0x0D := by
      simp only [List.mem_append, List.mem_cons]
      rintro b (hb | rfl | rfl | hb)
      · exact (hcolon b hb).2
      · decide
      · decide
      · exact (hblank b hb).2
    have htext : (field :: fields).flatMap writeField ++ (crlf ++ text) =
        (field.1 ++ 0x3A :: 0x20 :: field.2) ++
          (crlf ++ (fields.flatMap writeField ++ (crlf ++ text))) := by
      simp [writeField, ascii, crlf]
    rw [htext, readFields, line_append hline, Option.bind_some, if_neg (by simp [hne]),
      split_append (fun b hb => (hcolon b hb).1), Option.bind_some,
      trim_blank fun b hb => (hblank b hb).1,
      ih (fun f hf => hname f (List.mem_cons_of_mem field hf))
        (fun f hf => hvalue f (List.mem_cons_of_mem field hf)) (Nat.lt_of_succ_lt_succ hn)]
    rfl

theorem length_le_length_fields (fields : List (List UInt8 × List UInt8)) :
    fields.length ≤ (fields.flatMap writeField).length := by
  induction fields with
  | nil => exact le_rfl
  | cons field fields ih =>
    rw [List.flatMap_cons, List.length_append, List.length_cons, writeField, List.length_append]
    have : crlf.length = 2 := rfl
    omega

/-- A request that is written is read back as it is, and ends where the writing ends. -/
theorem request_write {r : Request} (h : r.WellFormed) (text : List UInt8) :
    request (r.write ++ text) = some (r, text) := by
  have hsplit : r.write ++ text =
      (r.method ++ 0x20 :: (r.target ++ 0x20 :: ascii "HTTP/1.1")) ++
        (crlf ++ (r.fields.flatMap writeField ++ (crlf ++ (r.body ++ text)))) := by
    simp [Request.write, ascii, crlf]
  have hstart : ∀ b ∈ r.method ++ 0x20 :: (r.target ++ 0x20 :: ascii "HTTP/1.1"), b ≠ 0x0D := by
    simp only [List.mem_append, List.mem_cons]
    rintro b (hb | rfl | hb | rfl | hb)
    · exact (h.method b hb).2
    · decide
    · exact (h.target b hb).2
    · decide
    · rintro rfl
      exact absurd hb (by decide)
  have hfields : r.fields.length < (r.write ++ text).length := by
    have := length_le_length_fields r.fields
    simp only [hsplit, List.length_append, List.length_cons]
    omega
  unfold request
  generalize (r.write ++ text).length = n at hfields
  rw [hsplit, line_append hstart, Option.bind_some, split_append (fun b hb => (h.method b hb).1),
    Option.bind_some, split_append (fun b hb => (h.target b hb).1), Option.bind_some,
    if_neg (not_not.mpr rfl), readFields_write h.name h.value _ hfields, Option.bind_some, h.length,
    Option.bind_some, if_neg (by simp), List.take_left, List.drop_left]

end DistributedLock.Library.Http
