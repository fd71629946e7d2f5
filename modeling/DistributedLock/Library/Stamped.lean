import DistributedLock.Library.Lists

/-! Lists whose elements carry an epoch, the number of the writer that made them,
beside the list each writer has made so far. A list is coherent when up to each
element it is what the writer of that element had; two coherent lists then agree
as soon as they agree on one epoch. -/

namespace DistributedLock.Library

variable {α : Type*}

/-- The two lists hold different elements at an index they share. -/
def Disagree (l l' : List α) : Prop := ∃ (m : ℕ) (a b : α), l[m]? = some a ∧ l'[m]? = some b ∧ a ≠ b

theorem prefix_iff_forall_getElem? {l l' : List α} :
    l <+: l' ↔ ∀ (k : ℕ) e, l[k]? = some e → l'[k]? = some e := by
  rw [List.prefix_iff_getElem?]
  constructor
  · intro h k e hk
    obtain ⟨hlt, rfl⟩ := List.getElem?_eq_some_iff.mp hk
    exact h k hlt
  · exact fun h k hk => h k _ (List.getElem?_eq_getElem hk)

theorem take_eq_of_isPrefix {l l' : List α} (hp : l <+: l') {k : ℕ} (hk : k ≤ l.length) :
    l'.take k = l.take k := by
  obtain ⟨rest, rfl⟩ := hp
  rw [List.take_append_of_le_length hk]

theorem Disagree.mono {l l' m : List α} (h : Disagree l l') (hp : l' <+: m) : Disagree l m := by
  obtain ⟨k, a, b, ha, hb, hne⟩ := h
  exact ⟨k, a, b, ha, prefix_iff_forall_getElem?.mp hp k b hb, hne⟩

theorem not_disagree_of_isPrefix {l l' : List α} (h : l <+: l') : ¬ Disagree l l' := by
  rintro ⟨k, a, b, ha, hb, hne⟩
  rw [prefix_iff_forall_getElem?.mp h k a ha, Option.some.injEq] at hb
  exact hne hb

/-- A prefix of a list that is overwritten from some index on is kept, or it
disagrees with the new list. -/
theorem prefix_or_disagree {p l l' : List α} {m : ℕ} (hp : p <+: l) (hm : l.take m = l'.take m)
    (hend : m = l.length ∨ ∃ a b, l[m]? = some a ∧ l'[m]? = some b ∧ a ≠ b) :
    p <+: l' ∨ Disagree p l' := by
  by_cases hle : p.length ≤ m
  · left
    have h : p <+: l.take m := List.prefix_take_iff.mpr ⟨hp, hle⟩
    exact (hm ▸ h).trans (List.take_prefix m l')
  · right
    have hlen := hp.length_le
    obtain rfl | ⟨a, b, ha, hb, hne⟩ := hend
    · omega
    refine ⟨m, a, b, ?_, hb, hne⟩
    rwa [List.prefix_iff_eq_take.mp hp, List.getElem?_take_of_lt (by omega)]

variable (stamp : α → ℕ)

/-- Elements of one epoch at one index of two lists come with the same list up to there. -/
def Matches (l l' : List α) : Prop :=
  ∀ ⦃k : ℕ⦄ ⦃a b : α⦄, l[k]? = some a → l'[k]? = some b → stamp a = stamp b →
    l.take (k + 1) = l'.take (k + 1)

namespace Matches

variable {stamp} {l l' m : List α}

theorem of_isPrefix (h : l <+: l') : Matches stamp l l' := by
  intro k a b ha hb ht
  have hlt := (List.getElem?_eq_some_iff.mp ha).1
  exact (take_eq_of_isPrefix h hlt).symm

theorem trans_isPrefix (h : Matches stamp l l') (hm : m <+: l') : Matches stamp l m := by
  intro k a b ha hb ht
  have hlt := (List.getElem?_eq_some_iff.mp hb).1
  rw [h ha (prefix_iff_forall_getElem?.mp hm k b hb) ht]
  exact take_eq_of_isPrefix hm hlt

theorem eq_of_stamp_eq (h : Matches stamp l l') {k : ℕ} {a b : α} (ha : l[k]? = some a)
    (hb : l'[k]? = some b) (ht : stamp a = stamp b) : a = b := by
  have htake := congrArg (·[k]?) (h ha hb ht)
  simp only [List.getElem?_take_of_lt (Nat.lt_succ_self k), ha, hb, Option.some.injEq] at htake
  exact htake

end Matches

/-- `writes t` is the list the writer of epoch `t` has made so far. -/
def Coherent (writes : ℕ → List α) (l : List α) : Prop :=
  ∀ (k : ℕ) e, l[k]? = some e → l.take (k + 1) <+: writes (stamp e)

namespace Coherent

variable {stamp} {writes writes' : ℕ → List α} {l l' : List α}

theorem of_isPrefix (h : Coherent stamp writes l) (hp : l' <+: l) : Coherent stamp writes l' := by
  intro k e hk
  exact (hp.take (k + 1)).trans (h k e (prefix_iff_forall_getElem?.mp hp k e hk))

theorem mono (h : Coherent stamp writes l) (hw : ∀ t, writes t <+: writes' t) :
    Coherent stamp writes' l := fun k e hk => (h k e hk).trans (hw _)

/-- Coherent lists match. -/
theorem take_eq (h : Coherent stamp writes l) (h' : Coherent stamp writes l') :
    Matches stamp l l' := by
  intro k e e' hk hk' he
  have hl := (List.getElem?_eq_some_iff.mp hk).1
  have hl' := (List.getElem?_eq_some_iff.mp hk').1
  have hp := h k e hk
  have hp' := h' k e' hk'
  rw [he] at hp
  rw [List.prefix_iff_eq_take.mp hp, List.prefix_iff_eq_take.mp hp', List.length_take,
    List.length_take, min_eq_left hl, min_eq_left hl']

theorem eq_of_stamp_eq (h : Coherent stamp writes l) (h' : Coherent stamp writes l') {k : ℕ}
    {e e' : α} (hk : l[k]? = some e) (hk' : l'[k]? = some e') (he : stamp e = stamp e') :
    e = e' := (h.take_eq h').eq_of_stamp_eq hk hk' he

theorem prefix_of_getLast? (h : Coherent stamp writes l) {e : α} (he : l.getLast? = some e) :
    l <+: writes (stamp e) := by
  rw [List.getLast?_eq_getElem?] at he
  have hlt := (List.getElem?_eq_some_iff.mp he).1
  have hp := h _ e he
  rwa [List.take_of_length_le (by omega)] at hp

/-- A writer extends its own list. -/
theorem concat (h : Coherent stamp writes l) {x : α} (hx : l ++ [x] <+: writes (stamp x)) :
    Coherent stamp writes (l ++ [x]) := by
  intro k e hk
  rcases lt_trichotomy k l.length with hlt | rfl | hlt
  · rw [List.getElem?_append_left hlt] at hk
    rw [List.take_append_of_le_length hlt]
    exact h k e hk
  · obtain rfl : x = e := by simpa using hk
    rwa [List.take_of_length_le (by simp)]
  · rw [List.getElem?_eq_none (by simp; omega)] at hk
    cases hk

end Coherent

end DistributedLock.Library
