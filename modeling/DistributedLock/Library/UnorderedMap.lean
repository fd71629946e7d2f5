import Mathlib.Data.List.Perm.Basic
import Mathlib.Data.List.Nodup
import Mathlib.Logic.Function.Basic

/-! Hash maps with an unspecified iteration order. A map is its lookup function
together with the keys in the order in which a loop visits them; an insertion may
rehash and so put the keys in any order, an erasure keeps the order of the rest. -/

namespace DistributedLock.Library

/-- The order an insertion leaves the keys in. -/
structure Layout (K : Type*) where
  order : List K → List K
  perm : ∀ keys, (order keys).Perm keys

/-- The newest key first. -/
def Layout.newest {K : Type*} : Layout K := ⟨id, List.Perm.refl⟩

structure UnorderedMap (K V : Type*) where
  find : K → Option V
  keys : List K
  nodup : keys.Nodup
  mem_keys : ∀ k, k ∈ keys ↔ (find k).isSome

namespace UnorderedMap

variable {K V : Type*}

def empty : UnorderedMap K V where
  find _ := none
  keys := []
  nodup := List.nodup_nil
  mem_keys := by simp

@[simp] theorem find_empty (k : K) : (empty : UnorderedMap K V).find k = none := rfl

/-- The pairs in the order of iteration. -/
def toList (m : UnorderedMap K V) : List (K × V) :=
  m.keys.filterMap fun k => (m.find k).map (k, ·)

theorem mem_toList {m : UnorderedMap K V} {k : K} {v : V} :
    (k, v) ∈ m.toList ↔ m.find k = some v := by
  simp only [toList, List.mem_filterMap, Option.map_eq_some_iff, Prod.mk.injEq]
  constructor
  · rintro ⟨j, -, w, hw, rfl, rfl⟩
    exact hw
  · intro h
    exact ⟨k, (m.mem_keys k).mpr (by simp [h]), v, h, rfl, rfl⟩

variable [DecidableEq K]

/-- A write through an iterator; nothing happens without the key. -/
def modify (m : UnorderedMap K V) (k : K) (f : V → V) : UnorderedMap K V where
  find j := if j = k then (m.find j).map f else m.find j
  keys := m.keys
  nodup := m.nodup
  mem_keys j := by
    rw [m.mem_keys]
    split_ifs <;> simp

theorem find_modify (m : UnorderedMap K V) (k : K) (f : V → V) (j : K) :
    (m.modify k f).find j = if j = k then (m.find j).map f else m.find j := rfl

@[simp] theorem find_modify_self (m : UnorderedMap K V) (k : K) (f : V → V) :
    (m.modify k f).find k = (m.find k).map f := if_pos rfl

@[simp] theorem keys_modify (m : UnorderedMap K V) (k : K) (f : V → V) :
    (m.modify k f).keys = m.keys := rfl

/-- `emplace`: an existing entry stays. -/
def emplace (m : UnorderedMap K V) (layout : Layout K) (k : K) (v : V) : UnorderedMap K V :=
  if h : (m.find k).isSome then m
  else
    { find := Function.update m.find k (some v)
      keys := layout.order (k :: m.keys)
      nodup := by
        refine (layout.perm _).nodup_iff.mpr (List.nodup_cons.mpr ⟨?_, m.nodup⟩)
        rwa [m.mem_keys]
      mem_keys := fun j => by
        rw [(layout.perm _).mem_iff, List.mem_cons, m.mem_keys, Function.update_apply]
        split_ifs with hj <;> simp [hj] }

theorem find_emplace {m : UnorderedMap K V} {k : K} (h : m.find k = none) (layout : Layout K)
    (v : V) (j : K) : (m.emplace layout k v).find j = if j = k then some v else m.find j := by
  unfold emplace
  rw [dif_neg (by simp [h])]
  exact Function.update_apply _ _ _ _

def erase (m : UnorderedMap K V) (k : K) : UnorderedMap K V where
  find := Function.update m.find k none
  keys := m.keys.erase k
  nodup := m.nodup.erase k
  mem_keys j := by
    rw [m.nodup.mem_erase_iff, m.mem_keys, Function.update_apply]
    split_ifs with hj <;> simp [hj]

theorem find_erase (m : UnorderedMap K V) (k j : K) :
    (m.erase k).find j = if j = k then none else m.find j := Function.update_apply _ _ _ _

@[simp] theorem find_erase_self (m : UnorderedMap K V) (k : K) : (m.erase k).find k = none := by
  simp [find_erase]

theorem find_erase_of_ne (m : UnorderedMap K V) {k j : K} (h : j ≠ k) :
    (m.erase k).find j = m.find j := by
  simp [find_erase, h]

end UnorderedMap

end DistributedLock.Library
