import Mathlib.Algebra.GroupWithZero.Nat
import Mathlib.Data.List.Basic
import Mathlib.Data.List.Infix

/-! Lists that grow at the end and are updated in place, lists compared by the
indices they share, and partial functions that are updated at one place. -/

namespace DistributedLock.Library

variable {α : Type*}

/-- An update in place keeps every other member. -/
theorem mem_set_of_ne {l : List α} {k : ℕ} {x y z : α} (hx : x ∈ l) (hk : l[k]? = some y)
    (hne : x ≠ y) : x ∈ l.set k z := by
  obtain ⟨m, hm⟩ := List.mem_iff_getElem?.mp hx
  have hkm : k ≠ m := by
    rintro rfl
    rw [hm, Option.some.injEq] at hk
    exact hne hk
  exact List.mem_iff_getElem?.mpr ⟨m, by rw [List.getElem?_set_ne hkm]; exact hm⟩

/-- Every member of the old list is kept, or replaced by the new value. -/
theorem getElem?_set_cases {l : List α} {k m : ℕ} {x y z : α} (hk : l[k]? = some y)
    (hm : l[m]? = some x) : (l.set k z)[m]? = some x ∨ (x = y ∧ (l.set k z)[m]? = some z) := by
  by_cases hkm : k = m
  · subst hkm
    rw [hk, Option.some.injEq] at hm
    have hlt := (List.getElem?_eq_some_iff.mp hk).1
    exact Or.inr ⟨hm.symm, by simp [hlt]⟩
  · exact Or.inl (by rw [List.getElem?_set_ne hkm]; exact hm)

theorem getElem?_of_set {l : List α} {k m : ℕ} {x z : α} (h : (l.set k z)[m]? = some x) :
    (m = k ∧ x = z) ∨ (m ≠ k ∧ l[m]? = some x) := by
  rcases eq_or_ne m k with rfl | hne
  · have hlt := (List.getElem?_eq_some_iff.mp h).1
    rw [List.length_set] at hlt
    rw [List.getElem?_set_self hlt, Option.some.injEq] at h
    exact Or.inl ⟨rfl, h.symm⟩
  · rw [List.getElem?_set_ne hne.symm] at h
    exact Or.inr ⟨hne, h⟩

theorem getElem?_of_concat {l : List α} {m : ℕ} {x z : α} (h : (l ++ [z])[m]? = some x) :
    l[m]? = some x ∨ (m = l.length ∧ x = z) := by
  rcases Nat.lt_trichotomy m l.length with hlt | rfl | hlt
  · rw [List.getElem?_append_left hlt] at h
    exact Or.inl h
  · rw [List.getElem?_concat_length, Option.some.injEq] at h
    exact Or.inr ⟨rfl, h.symm⟩
  · rw [List.getElem?_eq_none (by simp; omega)] at h
    cases h

/-- What is read off the members one by one changes where the list does. -/
theorem bind_getElem?_set {β : Type*} {l : List α} {k : ℕ} {x y : α} (f : α → Option β)
    (hk : l[k]? = some x) (j : ℕ) :
    ((l.set k y)[j]?).bind f = Function.update (fun i => (l[i]?).bind f) k (f y) j := by
  have hlt := (List.getElem?_eq_some_iff.mp hk).1
  by_cases hj : j = k
  · subst hj
    rw [Function.update_self, List.getElem?_set_self hlt, Option.bind_some]
  · rw [Function.update_of_ne hj, List.getElem?_set_ne (Ne.symm hj)]

theorem bind_getElem?_concat {β : Type*} {l : List α} {z : α} {f : α → Option β}
    (hz : f z = none) (j : ℕ) : ((l ++ [z])[j]?).bind f = (l[j]?).bind f := by
  cases hj : (l ++ [z])[j]? with
  | none =>
    rw [List.getElem?_eq_none_iff, List.length_append, List.length_singleton] at hj
    rw [List.getElem?_eq_none_iff.mpr (by omega)]
  | some x =>
    rcases getElem?_of_concat hj with hold | ⟨rfl, rfl⟩
    · rw [hold]
    · rw [List.getElem?_eq_none_iff.mpr le_rfl, Option.bind_some, hz, Option.bind_none]

theorem sum_map_set {l : List α} {k : ℕ} {x : α} {f : α → ℕ} (hk : l[k]? = some x) (y : α) :
    ((l.set k y).map f).sum + f x = (l.map f).sum + f y := by
  induction l generalizing k with
  | nil => simp at hk
  | cons z l ih =>
    cases k with
    | zero =>
      obtain rfl := Option.some.inj hk
      simp only [List.set_cons_zero, List.map_cons, List.sum_cons]
      omega
    | succ k =>
      have := ih (by simpa using hk)
      simp only [List.set_cons_succ, List.map_cons, List.sum_cons]
      omega

/-- A split of a list with one more element at its end. -/
theorem concat_eq_split {l pre post : List α} {x y : α} (h : l ++ [y] = pre ++ x :: post) :
    (l = pre ∧ y = x ∧ post = []) ∨ ∃ post', l = pre ++ x :: post' ∧ post = post' ++ [y] := by
  rcases List.eq_nil_or_concat post with rfl | ⟨post', z, rfl⟩
  · obtain ⟨hpre, he⟩ := List.append_inj' h rfl
    exact Or.inl ⟨hpre, List.head_eq_of_cons_eq he, rfl⟩
  · rw [List.concat_eq_append, ← List.cons_append, ← List.append_assoc] at h
    obtain ⟨hl, hz⟩ := List.append_inj' h rfl
    refine Or.inr ⟨post', hl, ?_⟩
    rw [List.concat_eq_append, ← List.head_eq_of_cons_eq hz]

/-! ### Members told apart by a key -/

section

variable {β : Type*} {l : List α} {p : α → Prop} {key : α → β}

/-- A member that is updated keeps its key. -/
theorem keyed_set
    (h : ∀ (j j' : ℕ) x y, l[j]? = some x → l[j']? = some y → p x → p y → key x = key y → j = j')
    {k : ℕ} {x z : α} (hk : l[k]? = some x) (hx : p x) (hkey : key z = key x) (j j' : ℕ) (y y' : α)
    (hj : (l.set k z)[j]? = some y) (hj' : (l.set k z)[j']? = some y') (hy : p y) (hy' : p y')
    (heq : key y = key y') : j = j' := by
  rcases getElem?_of_set hj with ⟨rfl, rfl⟩ | ⟨-, hold⟩ <;>
    rcases getElem?_of_set hj' with ⟨rfl, rfl⟩ | ⟨-, hold'⟩
  · rfl
  · exact h _ _ x y' hk hold' hx hy' (hkey.symm.trans heq)
  · exact h _ _ y x hold hk hy hx (heq.trans hkey)
  · exact h _ _ y y' hold hold' hy hy' heq

/-- A new member has a key of its own. -/
theorem keyed_concat
    (h : ∀ (j j' : ℕ) x y, l[j]? = some x → l[j']? = some y → p x → p y → key x = key y → j = j')
    {z : α} (hnew : ∀ x ∈ l, p x → key x ≠ key z) (j j' : ℕ) (y y' : α)
    (hj : (l ++ [z])[j]? = some y) (hj' : (l ++ [z])[j']? = some y') (hy : p y) (hy' : p y')
    (heq : key y = key y') : j = j' := by
  rcases getElem?_of_concat hj with hold | ⟨rfl, rfl⟩ <;>
    rcases getElem?_of_concat hj' with hold' | ⟨rfl, rfl⟩
  · exact h j j' y y' hold hold' hy hy' heq
  · exact absurd heq (hnew y (List.mem_of_getElem? hold) hy)
  · exact absurd heq.symm (hnew y' (List.mem_of_getElem? hold') hy')
  · rfl

end

/-! ### Partial functions -/

section

variable {K : Type*} [DecidableEq K] {f : K → Option α} {j k : K} {x y : α}

theorem of_update_some (h : Function.update f k (some x) j = some y) :
    (j = k ∧ y = x) ∨ (j ≠ k ∧ f j = some y) := by
  rw [Function.update_apply] at h
  split_ifs at h with hjk
  · exact Or.inl ⟨hjk, (Option.some.inj h).symm⟩
  · exact Or.inr ⟨hjk, h⟩

theorem of_update_none (h : Function.update f k none j = some y) : j ≠ k ∧ f j = some y := by
  rw [Function.update_apply] at h
  split_ifs at h with hjk
  exact ⟨hjk, h⟩

/-- A value that is given where there was none leaves the others. -/
theorem update_of_some (hk : f k = none) (o : Option α) (hj : f j = some y) :
    Function.update f k o j = some y := by
  have hjk : j ≠ k := by
    rintro rfl
    rw [hk] at hj
    cases hj
  rwa [Function.update_of_ne hjk]

end

end DistributedLock.Library
