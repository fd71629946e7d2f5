import DistributedLock.Library.JsonText

/-! The parser of JSON texts on what the writer writes. It reads the value that was written
if every number is a literal and every character of a string is written well; and it reads
nothing at all if a character is written as a control character, or a number as something
that no value starts with. -/

namespace DistributedLock.Library.Json

open Decimal

/-! ### What is written is read back -/

/-- Every number of a value is a literal. -/
def Lawful (numbers : List (List Char)) : Prop :=
  ∀ literal ∈ numbers, (Decimal.number literal).isSome

theorem exists_cons_of_number {literal : List Char} (h : (Decimal.number literal).isSome) :
    ∃ c text, literal = c :: text ∧ (c = '-' ∨ c.isDigit) := by
  unfold Decimal.number at h
  split at h
  · exact ⟨_, _, rfl, Or.inl rfl⟩
  · unfold unsigned at h
    cases literal with
    | nil => exact absurd h (by decide)
    | cons c text =>
      refine ⟨c, text, rfl, Or.inr ?_⟩
      by_contra hc
      rw [List.takeWhile_cons_of_neg hc] at h
      simp at h

theorem not_isSpace {c : Char} (hc : c = '-' ∨ c.isDigit) : ¬ isSpace c := by
  simp only [isSpace, Bool.or_eq_true, decide_eq_true_eq]
  rintro (((rfl | rfl) | rfl) | rfl) <;> exact absurd hc (by decide)

theorem scalar_number {literal text : List Char} (h : (Decimal.number literal).isSome)
    (htext : ∀ c ∈ text.head?, ¬ isNumeral c) :
    scalar (literal ++ text) = some (.number literal, text) := by
  have hspan := span_append (isNumeral_number h) htext
  obtain ⟨c, rest, rfl, hc⟩ := exists_cons_of_number h
  have hfirst : c ≠ 'n' ∧ c ≠ 't' ∧ c ≠ 'f' := by
    rcases hc with rfl | hc
    · decide
    · refine ⟨?_, ?_, ?_⟩ <;> rintro rfl <;> exact absurd hc (by decide)
  unfold scalar
  split
  · rename_i heq
    exact absurd (List.cons.inj heq).1 hfirst.1
  · rename_i heq
    exact absurd (List.cons.inj heq).1 hfirst.2.1
  · rename_i heq
    exact absurd (List.cons.inj heq).1 hfirst.2.2
  · rw [hspan.1, hspan.2, if_pos h]

/-- Something in the place of a number that is no value and starts none. -/
def Broken (literal : List Char) : Prop :=
  (∃ c text, literal = c :: text ∧ Opens c) ∧ ∀ n text, value n (literal ++ text) = none

theorem opens_of_number {literal : List Char} (h : (Decimal.number literal).isSome) :
    ∃ c text, literal = c :: text ∧ Opens c := by
  obtain ⟨c, text, heq, hc⟩ := exists_cons_of_number h
  refine ⟨c, text, heq, not_isSpace hc, ?_⟩
  rintro rfl
  exact absurd hc (by decide)

/-- Every number of a value is a literal or broken. -/
def Settled (numbers : List (List Char)) : Prop :=
  ∀ literal ∈ numbers, (Decimal.number literal).isSome ∨ Broken literal

theorem Lawful.settled {numbers : List (List Char)} (h : Lawful numbers) : Settled numbers :=
  fun literal hmem => Or.inl (h literal hmem)

section

variable {write : Char → List Char}

/-- Every character of the strings is written as something read back as it. -/
def Legible (write : Char → List Char) (strings : List (List Char)) : Prop :=
  ∀ s ∈ strings, ∀ c ∈ s, Writes (write c) c

theorem exists_cons_render {v : Value} (hnumbers : Settled v.numbers) :
    ∃ c text, v.render write = c :: text ∧ Opens c := by
  cases v with
  | number literal => exact (hnumbers literal List.mem_cons_self).elim opens_of_number And.left
  | bool b => cases b <;> exact ⟨_, _, rfl, by decide, by decide⟩
  | _ => exact ⟨_, _, rfl, by decide, by decide⟩

theorem exists_cons_renderItems {item : Value} {l : List Value} (hnumbers : Settled item.numbers) :
    ∃ c text, renderItems write (item :: l) = c :: text ∧ Opens c := by
  obtain ⟨c, text, heq, hc⟩ : ∃ c text, item.render write = c :: text ∧ Opens c :=
    exists_cons_render hnumbers
  cases l with
  | nil => exact ⟨c, text ++ [']'], by rw [renderItems, heq, List.cons_append], hc⟩
  | cons next l =>
    exact ⟨c, text ++ ',' :: renderItems write (next :: l),
      by rw [renderItems, heq, List.cons_append], hc⟩

theorem renderMembers_cons (name : List Char) (v : Value) (l : List (List Char × Value)) :
    ∃ text, renderMembers write ((name, v) :: l) = '"' :: text := by
  cases l with
  | nil => exact ⟨_, rfl⟩
  | cons next l => exact ⟨_, rfl⟩

/-- The round trip of the three parsers with fuel for a text of `n` characters. -/
structure ReadsBack (write : Char → List Char) (n : ℕ) : Prop where
  value : ∀ {v : Value} {text}, (v.render write).length < n → Lawful v.numbers →
    Legible write v.strings → (∀ c ∈ text.head?, ¬ isNumeral c) →
    value n (v.render write ++ text) = some (v, text)
  items : ∀ {item l text}, (renderItems write (item :: l)).length < n →
    Lawful (numbersOfItems (item :: l)) → Legible write (stringsOfItems (item :: l)) →
    items n (renderItems write (item :: l) ++ text) = some (item :: l, text)
  members : ∀ {member l text}, (renderMembers write (member :: l)).length < n →
    Lawful (numbersOfMembers (member :: l)) → Legible write (stringsOfMembers (member :: l)) →
    members n (renderMembers write (member :: l) ++ text) = some (member :: l, text)

theorem value_renderArray (n : ℕ) {item : Value} {l : List Value} (h : Settled item.numbers)
    (text : List Char) :
    value (n + 1) ((Value.array (item :: l)).render write ++ text) =
      (items n (renderItems write (item :: l) ++ text)).map fun r => (.array r.1, r.2) := by
  obtain ⟨c, rest, heq, hc⟩ : ∃ c rest, renderItems write (item :: l) = c :: rest ∧ Opens c :=
    exists_cons_renderItems h
  rw [Value.render, heq, List.cons_append, List.cons_append, value_array n hc]

theorem value_renderObject (n : ℕ) (member : List Char × Value) (l : List (List Char × Value))
    (text : List Char) :
    value (n + 1) ((Value.object (member :: l)).render write ++ text) =
      (members n (renderMembers write (member :: l) ++ text)).map fun r => (.object r.1, r.2) := by
  obtain ⟨name, v⟩ := member
  obtain ⟨rest, heq⟩ : ∃ rest, renderMembers write ((name, v) :: l) = '"' :: rest :=
    renderMembers_cons name v l
  rw [Value.render, heq, List.cons_append, List.cons_append, value_object]

theorem value_render {n : ℕ} (ih : ReadsBack write n) {v : Value} {text : List Char}
    (hlength : (v.render write).length < n + 1) (hnumbers : Lawful v.numbers)
    (hstrings : Legible write v.strings) (htext : ∀ c ∈ text.head?, ¬ isNumeral c) :
    value (n + 1) (v.render write ++ text) = some (v, text) := by
  cases v with
  | null => rfl
  | bool b => cases b <;> rfl
  | number literal =>
    have hliteral := hnumbers literal List.mem_cons_self
    have hscalar := scalar_number hliteral htext
    obtain ⟨c, rest, rfl, hc⟩ := exists_cons_of_number hliteral
    have hdigit : ∀ {d : Char}, ¬ (d = '-' ∨ d.isDigit) → c ≠ d := fun hd h => hd (h ▸ hc)
    rw [Value.render, List.cons_append,
      value_scalar n (not_isSpace hc) (hdigit (by decide)) (hdigit (by decide)) (hdigit (by decide))]
    exact hscalar
  | string s =>
    have hread := readString_flatMap (hstrings s List.mem_cons_self) text
    rw [readString] at hread
    rw [Value.render, List.cons_append, List.append_assoc, List.singleton_append, value_string,
      hread]
    rfl
  | array l =>
    cases l with
    | nil => rfl
    | cons item l =>
      rw [Value.render] at hlength
      rw [Value.numbers] at hnumbers
      rw [Value.strings] at hstrings
      have hitem : Lawful item.numbers := fun literal h =>
        hnumbers literal (List.mem_append_left _ h)
      rw [value_renderArray n hitem.settled,
        ih.items (Nat.lt_of_succ_lt_succ hlength) hnumbers hstrings]
      rfl
  | object l =>
    cases l with
    | nil => rfl
    | cons member l =>
      rw [Value.render] at hlength
      rw [Value.numbers] at hnumbers
      rw [Value.strings] at hstrings
      rw [value_renderObject, ih.members (Nat.lt_of_succ_lt_succ hlength) hnumbers hstrings]
      rfl

theorem items_render {n : ℕ} (ih : ReadsBack write n) {item : Value} {l : List Value}
    {text : List Char} (hlength : (renderItems write (item :: l)).length < n + 1)
    (hnumbers : Lawful (numbersOfItems (item :: l)))
    (hstrings : Legible write (stringsOfItems (item :: l))) :
    items (n + 1) (renderItems write (item :: l) ++ text) = some (item :: l, text) := by
  rw [numbersOfItems] at hnumbers
  rw [stringsOfItems] at hstrings
  obtain ⟨hnumber, hnumbers⟩ := List.forall_mem_append.mp hnumbers
  obtain ⟨hstring, hstrings⟩ := List.forall_mem_append.mp hstrings
  cases l with
  | nil =>
    rw [renderItems, List.length_append, List.length_singleton] at hlength
    rw [renderItems, List.append_assoc]
    exact items_close (ih.value (by omega) hnumber hstring (by simp; decide))
  | cons next l =>
    rw [renderItems, List.length_append, List.length_cons] at hlength
    rw [renderItems, List.append_assoc, List.cons_append,
      items_comma (ih.value (by omega) hnumber hstring (by simp; decide)),
      ih.items (by omega) hnumbers hstrings]
    rfl

theorem members_render {n : ℕ} (ih : ReadsBack write n) {member : List Char × Value}
    {l : List (List Char × Value)} {text : List Char}
    (hlength : (renderMembers write (member :: l)).length < n + 1)
    (hnumbers : Lawful (numbersOfMembers (member :: l)))
    (hstrings : Legible write (stringsOfMembers (member :: l))) :
    members (n + 1) (renderMembers write (member :: l) ++ text) = some (member :: l, text) := by
  obtain ⟨name, v⟩ := member
  rw [numbersOfMembers] at hnumbers
  rw [stringsOfMembers] at hstrings
  obtain ⟨hnumber, hnumbers⟩ := List.forall_mem_append.mp hnumbers
  obtain ⟨hname, hstrings⟩ := List.forall_mem_cons.mp hstrings
  obtain ⟨hstring, hstrings⟩ := List.forall_mem_append.mp hstrings
  cases l with
  | nil =>
    rw [renderMembers] at hlength ⊢
    simp only [List.length_append, List.length_cons, List.length_nil] at hlength
    simp only [List.cons_append, List.append_assoc, List.nil_append]
    exact members_close (readString_flatMap hname _)
      (ih.value (by omega) hnumber hstring (by simp; decide))
  | cons next l =>
    rw [renderMembers] at hlength ⊢
    simp only [List.length_append, List.length_cons] at hlength
    simp only [List.cons_append, List.append_assoc]
    rw [members_comma (readString_flatMap hname _)
      (ih.value (by omega) hnumber hstring (by simp; decide)),
      ih.members (by omega) hnumbers hstrings]
    rfl

theorem readsBack (n : ℕ) : ReadsBack write n := by
  induction n with
  | zero => exact ⟨nofun, nofun, nofun⟩
  | succ n ih => exact ⟨value_render ih, items_render ih, members_render ih⟩

/-- The text of a value is read back as the value. -/
theorem document_render {v : Value} (hnumbers : Lawful v.numbers)
    (hstrings : Legible write v.strings) : document (v.render write) = some v := by
  have h : value ((v.render write).length + 1) (v.render write ++ []) = some (v, []) :=
    (readsBack _).value (Nat.lt_succ_self _) hnumbers hstrings (by simp)
  rw [List.append_nil] at h
  rw [document, h]
  rfl

/-! ### Nothing else is read -/

theorem Broken.not_number {literal : List Char} (h : Broken literal) :
    ¬ (Decimal.number literal).isSome := by
  intro hnumber
  have hreads : ReadsBack (fun c => [c]) (literal.length + 1) := readsBack _
  have hread : value (literal.length + 1) (literal ++ []) = some (.number literal, []) :=
    hreads.value (v := .number literal) (Nat.lt_succ_self _)
      (List.forall_mem_singleton.mpr hnumber) (List.forall_mem_nil _) (by simp)
  rw [h.2] at hread
  cases hread

/-- The first item of an array is followed by something. -/
theorem exists_renderItems (item : Value) (l : List Value) :
    ∃ c tail, renderItems write (item :: l) = item.render write ++ c :: tail := by
  cases l with
  | nil => exact ⟨_, _, rfl⟩
  | cons next l => exact ⟨_, _, rfl⟩

theorem exists_renderMembers (name : List Char) (v : Value) (l : List (List Char × Value)) :
    ∃ c tail, renderMembers write ((name, v) :: l) =
      '"' :: (name.flatMap write ++ '"' :: ':' :: (v.render write ++ c :: tail)) := by
  cases l with
  | nil => exact ⟨_, _, rfl⟩
  | cons next l => exact ⟨_, _, rfl⟩

/-- The three parsers end at a broken number, with fuel for a text of `n` characters. -/
structure BreaksOff (write : Char → List Char) (n : ℕ) : Prop where
  value : ∀ {v : Value} {text}, (v.render write).length < n → Settled v.numbers →
    ¬ Lawful v.numbers → Legible write v.strings → value n (v.render write ++ text) = none
  items : ∀ {item l text}, (renderItems write (item :: l)).length < n →
    Settled (numbersOfItems (item :: l)) → ¬ Lawful (numbersOfItems (item :: l)) →
    Legible write (stringsOfItems (item :: l)) →
    items n (renderItems write (item :: l) ++ text) = none
  members : ∀ {member l text}, (renderMembers write (member :: l)).length < n →
    Settled (numbersOfMembers (member :: l)) → ¬ Lawful (numbersOfMembers (member :: l)) →
    Legible write (stringsOfMembers (member :: l)) →
    members n (renderMembers write (member :: l) ++ text) = none

theorem lawful_nil : Lawful [] := List.forall_mem_nil _

theorem value_broken {n : ℕ} (ih : BreaksOff write n) {v : Value} {text : List Char}
    (hlength : (v.render write).length < n + 1) (hnumbers : Settled v.numbers)
    (hbroken : ¬ Lawful v.numbers) (hstrings : Legible write v.strings) :
    value (n + 1) (v.render write ++ text) = none := by
  cases v with
  | null | bool | string => exact absurd lawful_nil hbroken
  | number literal =>
    rcases hnumbers literal List.mem_cons_self with hliteral | hliteral
    · exact (hbroken (List.forall_mem_singleton.mpr hliteral)).elim
    · exact hliteral.2 _ _
  | array l =>
    cases l with
    | nil => exact absurd lawful_nil hbroken
    | cons item l =>
      rw [Value.render] at hlength
      rw [Value.numbers] at hnumbers hbroken
      rw [Value.strings] at hstrings
      have hitem : Settled item.numbers := fun literal h =>
        hnumbers literal (List.mem_append_left _ h)
      rw [value_renderArray n hitem,
        ih.items (Nat.lt_of_succ_lt_succ hlength) hnumbers hbroken hstrings]
      rfl
  | object l =>
    cases l with
    | nil => exact absurd lawful_nil hbroken
    | cons member l =>
      rw [Value.render] at hlength
      rw [Value.numbers] at hnumbers hbroken
      rw [Value.strings] at hstrings
      rw [value_renderObject, ih.members (Nat.lt_of_succ_lt_succ hlength) hnumbers hbroken hstrings]
      rfl

theorem items_broken {n : ℕ} (ih : BreaksOff write n) {item : Value} {l : List Value}
    {text : List Char} (hlength : (renderItems write (item :: l)).length < n + 1)
    (hnumbers : Settled (numbersOfItems (item :: l)))
    (hbroken : ¬ Lawful (numbersOfItems (item :: l)))
    (hstrings : Legible write (stringsOfItems (item :: l))) :
    items (n + 1) (renderItems write (item :: l) ++ text) = none := by
  rw [numbersOfItems] at hnumbers hbroken
  rw [stringsOfItems] at hstrings
  obtain ⟨hnumber, hnumbers⟩ := List.forall_mem_append.mp hnumbers
  obtain ⟨hstring, hstrings⟩ := List.forall_mem_append.mp hstrings
  by_cases hitem : Lawful item.numbers
  · cases l with
    | nil => exact absurd (List.forall_mem_append.mpr ⟨hitem, lawful_nil⟩) hbroken
    | cons next l =>
      rw [renderItems, List.length_append, List.length_cons] at hlength
      rw [renderItems, List.append_assoc, List.cons_append,
        items_comma ((readsBack n).value (by omega) hitem hstring (by simp; decide)),
        ih.items (by omega) hnumbers
          (fun h => hbroken (List.forall_mem_append.mpr ⟨hitem, h⟩)) hstrings]
      rfl
  · obtain ⟨c, tail, heq⟩ : ∃ c tail,
        renderItems write (item :: l) = item.render write ++ c :: tail :=
      exists_renderItems item l
    rw [heq, List.length_append, List.length_cons] at hlength
    rw [heq, List.append_assoc]
    exact items_none (ih.value (by omega) hnumber hitem hstring)

theorem members_broken {n : ℕ} (ih : BreaksOff write n) {member : List Char × Value}
    {l : List (List Char × Value)} {text : List Char}
    (hlength : (renderMembers write (member :: l)).length < n + 1)
    (hnumbers : Settled (numbersOfMembers (member :: l)))
    (hbroken : ¬ Lawful (numbersOfMembers (member :: l)))
    (hstrings : Legible write (stringsOfMembers (member :: l))) :
    members (n + 1) (renderMembers write (member :: l) ++ text) = none := by
  obtain ⟨name, v⟩ := member
  rw [numbersOfMembers] at hnumbers hbroken
  rw [stringsOfMembers] at hstrings
  obtain ⟨hnumber, hnumbers⟩ := List.forall_mem_append.mp hnumbers
  obtain ⟨hname, hstrings⟩ := List.forall_mem_cons.mp hstrings
  obtain ⟨hstring, hstrings⟩ := List.forall_mem_append.mp hstrings
  by_cases hmember : Lawful v.numbers
  · cases l with
    | nil => exact absurd (List.forall_mem_append.mpr ⟨hmember, lawful_nil⟩) hbroken
    | cons next l =>
      rw [renderMembers] at hlength ⊢
      simp only [List.length_append, List.length_cons] at hlength
      simp only [List.cons_append, List.append_assoc]
      rw [members_comma (readString_flatMap hname _)
        ((readsBack n).value (by omega) hmember hstring (by simp; decide)),
        ih.members (by omega) hnumbers
          (fun h => hbroken (List.forall_mem_append.mpr ⟨hmember, h⟩)) hstrings]
      rfl
  · obtain ⟨c, tail, heq⟩ : ∃ c tail, renderMembers write ((name, v) :: l) =
        '"' :: (name.flatMap write ++ '"' :: ':' :: (v.render write ++ c :: tail)) :=
      exists_renderMembers name v l
    rw [heq] at hlength ⊢
    simp only [List.length_append, List.length_cons] at hlength
    simp only [List.cons_append, List.append_assoc]
    exact members_none (readString_flatMap hname _) (ih.value (by omega) hnumber hmember hstring)

theorem breaksOff (n : ℕ) : BreaksOff write n := by
  induction n with
  | zero => exact ⟨fun h => absurd h (Nat.not_lt_zero _), fun h => absurd h (Nat.not_lt_zero _),
      fun h => absurd h (Nat.not_lt_zero _)⟩
  | succ n ih => exact ⟨value_broken ih, items_broken ih, members_broken ih⟩

/-- A text with a broken number in it is not read, whatever comes before the number. -/
theorem document_broken {v : Value} (hnumbers : Settled v.numbers) (hbroken : ¬ Lawful v.numbers)
    (hstrings : Legible write v.strings) : document (v.render write) = none := by
  have h : value ((v.render write).length + 1) (v.render write ++ []) = none :=
    (breaksOff _).value (Nat.lt_succ_self _) hnumbers hbroken hstrings
  rw [List.append_nil] at h
  rw [document, h]
  rfl

theorem subset_renderItems (item : Value) (l : List Value) :
    item.render write ⊆ renderItems write (item :: l) ∧
      renderItems write l ⊆ renderItems write (item :: l) := by
  cases l with
  | nil => exact ⟨List.subset_append_left _ _, List.subset_append_right _ _⟩
  | cons next l =>
    exact ⟨List.subset_append_left _ _, fun c hc =>
      List.mem_append_right _ (List.mem_cons_of_mem _ hc)⟩

theorem subset_renderMembers (name : List Char) (v : Value) (l : List (List Char × Value)) :
    name.flatMap write ⊆ renderMembers write ((name, v) :: l) ∧
      v.render write ⊆ renderMembers write ((name, v) :: l) ∧
      renderMembers write l ⊆ renderMembers write ((name, v) :: l) := by
  cases l with
  | nil =>
    simp only [renderMembers]
    refine ⟨fun c hc => by simp [hc], fun c hc => by simp [hc], fun c hc => ?_⟩
    simp [List.mem_singleton.mp hc]
  | cons next l =>
    rw [renderMembers]
    exact ⟨fun c hc => by simp [hc], fun c hc => by simp [hc], fun c hc => by simp [hc]⟩

mutual

/-- Every string of a value is in its text, character by character. -/
theorem flatMap_subset_render : ∀ (v : Value), ∀ s ∈ v.strings, s.flatMap write ⊆ v.render write
  | .null | .bool _ | .number _ => nofun
  | .string s => by
    rintro s' hs c hc
    rw [Value.strings, List.mem_singleton] at hs
    rw [Value.render]
    exact List.mem_cons_of_mem _ (List.mem_append_left _ (hs ▸ hc))
  | .array l => by
    intro s hs c hc
    exact List.mem_cons_of_mem _ (flatMap_subset_renderItems l s hs hc)
  | .object l => by
    intro s hs c hc
    exact List.mem_cons_of_mem _ (flatMap_subset_renderMembers l s hs hc)

theorem flatMap_subset_renderItems : ∀ (l : List Value), ∀ s ∈ stringsOfItems l,
    s.flatMap write ⊆ renderItems write l
  | [] => nofun
  | item :: l => by
    intro s hs c hc
    have ⟨hitem, hrest⟩ : item.render write ⊆ renderItems write (item :: l) ∧
        renderItems write l ⊆ renderItems write (item :: l) := subset_renderItems item l
    rcases List.mem_append.mp hs with hs | hs
    · exact hitem (flatMap_subset_render item s hs hc)
    · exact hrest (flatMap_subset_renderItems l s hs hc)

theorem flatMap_subset_renderMembers : ∀ (l : List (List Char × Value)), ∀ s ∈ stringsOfMembers l,
    s.flatMap write ⊆ renderMembers write l
  | [] => nofun
  | (name, v) :: l => by
    intro s hs c hc
    have ⟨hname, hv, hrest⟩ : name.flatMap write ⊆ renderMembers write ((name, v) :: l) ∧
        v.render write ⊆ renderMembers write ((name, v) :: l) ∧
        renderMembers write l ⊆ renderMembers write ((name, v) :: l) := subset_renderMembers name v l
    rcases List.mem_cons.mp hs with rfl | hs
    · exact hname hc
    · rcases List.mem_append.mp hs with hs | hs
      · exact hv (flatMap_subset_render v s hs hc)
      · exact hrest (flatMap_subset_renderMembers l s hs hc)

end

/-- If every character is written well or as a control character, and every number as a
literal or broken, a text is read exactly if all of it is well, and then as the value that
was written. -/
theorem document_render_iff
    (hwrite : ∀ c, Writes (write c) c ∨ ∃ d ∈ write c, d.toNat < 0x20 ∧ ¬ isSpace d)
    {v : Value} (hnumbers : Settled v.numbers) (w : Value) :
    document (v.render write) = some w ↔
      w = v ∧ Lawful v.numbers ∧ Legible write v.strings := by
  constructor
  · intro h
    have hstrings : Legible write v.strings := by
      refine fun s hs c hc => (hwrite c).resolve_right ?_
      rintro ⟨d, hd, hlt, hspace⟩
      have hmem := flatMap_subset_render v s hs (List.mem_flatMap.mpr ⟨c, hc, hd⟩)
      rcases document_passes h d hmem with hle | h
      · omega
      · exact hspace h
    by_cases hlawful : Lawful v.numbers
    · rw [document_render hlawful hstrings] at h
      exact ⟨(Option.some.inj h).symm, hlawful, hstrings⟩
    · rw [document_broken hnumbers hlawful hstrings] at h
      cases h
  · rintro ⟨rfl, hlawful, hstrings⟩
    exact document_render hlawful hstrings

end

end DistributedLock.Library.Json
