import Mathlib.Algebra.BigOperators.Ring.Finset
import Mathlib.Algebra.Order.BigOperators.Group.Finset
import Mathlib.Tactic.Abel

/-! Finite maps that carry the set of their keys, and sums over their entries. -/

namespace Longcoin.Library
open List Option Finset

variable {K V M : Type}

structure FiniteMap (K V : Type) where
  keys : Finset K
  find : K → Option V
  mem_keys : ∀ key, key ∈ keys ↔ (find key).isSome = true

namespace FiniteMap

def empty : FiniteMap K V := ⟨∅, fun _ => none, fun key => by simp⟩

@[simp] theorem find_empty (key : K) : (empty : FiniteMap K V).find key = none := rfl

theorem mem_of_find {map : FiniteMap K V} {key : K} {value : V} (found : map.find key = some value) : key ∈ map.keys := by
  rw [map.mem_keys, found]
  rfl

theorem find_of_mem {map : FiniteMap K V} {key : K} (member : key ∈ map.keys) : ∃ value, map.find key = some value :=
  isSome_iff_exists.mp ((map.mem_keys key).mp member)

theorem find_eq_none {map : FiniteMap K V} {key : K} : map.find key = none ↔ key ∉ map.keys := by
  rw [map.mem_keys, Bool.not_eq_true, isSome_eq_false_iff, isNone_iff_eq_none]

@[ext] theorem ext {map other : FiniteMap K V} (same : ∀ key, map.find key = other.find key) : map = other := by
  obtain ⟨keys, find, mem⟩ := map
  obtain ⟨keys', find', mem'⟩ := other
  obtain rfl : find = find' := funext same
  obtain rfl : keys = keys' := Finset.ext fun key => (mem key).trans (mem' key).symm
  rfl

/-- Every value is changed, in a way that may depend on its key. -/
def adjust (map : FiniteMap K V) (change : K → V → V) : FiniteMap K V where
  keys := map.keys
  find key := (map.find key).map (change key)
  mem_keys key := by rw [map.mem_keys, Option.isSome_map]

@[simp] theorem find_adjust (map : FiniteMap K V) (change : K → V → V) (key : K) :
    (map.adjust change).find key = (map.find key).map (change key) := rfl

theorem adjust_adjust (map : FiniteMap K V) (first second : K → V → V) :
    (map.adjust first).adjust second = map.adjust fun key value => second key (first key value) := by
  ext1 key
  rw [find_adjust, find_adjust, find_adjust, Option.map_map]
  rfl

theorem adjust_congr {map : FiniteMap K V} {first second : K → V → V}
    (same : ∀ key value, map.find key = some value → first key value = second key value) : map.adjust first = map.adjust second := by
  ext1 key
  rw [find_adjust, find_adjust]
  cases found : map.find key with
  | none => rfl
  | some value => rw [map_some, map_some, same key value found]

theorem adjust_eq_self {map : FiniteMap K V} {change : K → V → V}
    (same : ∀ key value, map.find key = some value → change key value = value) : map.adjust change = map := by
  ext1 key
  rw [find_adjust]
  cases found : map.find key with
  | none => rfl
  | some value => rw [map_some, same key value found]

variable [DecidableEq K]

/-- The value of a key is set, whether or not there was one. -/
def put (map : FiniteMap K V) (key : K) (value : V) : FiniteMap K V where
  keys := insert key map.keys
  find other := if other = key then some value else map.find other
  mem_keys other := by
    rw [Finset.mem_insert, map.mem_keys]
    split
    · next same => simp [same]
    · next different => simp [different]

def erase (map : FiniteMap K V) (key : K) : FiniteMap K V where
  keys := map.keys.erase key
  find other := if other = key then none else map.find other
  mem_keys other := by
    rw [Finset.mem_erase, map.mem_keys]
    split
    · next same => simp [same]
    · next different => simp [different]

def modify (map : FiniteMap K V) (key : K) (change : V → V) : FiniteMap K V where
  keys := map.keys
  find other := if other = key then (map.find other).map change else map.find other
  mem_keys other := by
    rw [map.mem_keys]
    split <;> simp

def insertNew (map : FiniteMap K V) (key : K) (value : V) : FiniteMap K V :=
  if (map.find key).isSome then map else map.put key value

theorem find_put (map : FiniteMap K V) (key : K) (value : V) (other : K) :
    (map.put key value).find other = if other = key then some value else map.find other := rfl

theorem find_erase (map : FiniteMap K V) (key other : K) :
    (map.erase key).find other = if other = key then none else map.find other := rfl

theorem find_modify (map : FiniteMap K V) (key : K) (change : V → V) (other : K) :
    (map.modify key change).find other = if other = key then (map.find other).map change else map.find other := rfl

theorem insertNew_absent {map : FiniteMap K V} {key : K} (absent : map.find key = none) (value : V) :
    map.insertNew key value = map.put key value := by
  rw [insertNew, absent]
  rfl

@[simp] theorem find_put_self (map : FiniteMap K V) (key : K) (value : V) : (map.put key value).find key = some value := if_pos rfl

@[simp] theorem find_erase_self (map : FiniteMap K V) (key : K) : (map.erase key).find key = none := if_pos rfl

@[simp] theorem find_modify_self (map : FiniteMap K V) (key : K) (change : V → V) :
    (map.modify key change).find key = (map.find key).map change := if_pos rfl

theorem find_put_ne {map : FiniteMap K V} {key other : K} {value : V} (different : other ≠ key) :
    (map.put key value).find other = map.find other := if_neg different

theorem find_erase_ne {map : FiniteMap K V} {key other : K} (different : other ≠ key) :
    (map.erase key).find other = map.find other := if_neg different

theorem put_eq_modify {map : FiniteMap K V} {key : K} {old : V} (found : map.find key = some old) (change : V → V) :
    map.put key (change old) = map.modify key change := by
  ext1 other
  rw [find_put, find_modify]
  split
  · next same => rw [same, found, map_some]
  · rfl

theorem put_erase (map : FiniteMap K V) (key : K) (value : V) : (map.erase key).put key value = map.put key value := by
  ext1 other
  rw [find_put, find_put, find_erase]
  split <;> rfl

theorem erase_put (map : FiniteMap K V) (key : K) (value : V) : (map.put key value).erase key = map.erase key := by
  ext1 other
  rw [find_erase, find_erase, find_put]
  split <;> rfl

theorem erase_absent {map : FiniteMap K V} {key : K} (absent : map.find key = none) : map.erase key = map := by
  ext1 other
  rw [find_erase]
  split
  · next same => rw [same, absent]
  · rfl

theorem modify_put (map : FiniteMap K V) (key : K) (value : V) (change : V → V) :
    (map.put key value).modify key change = map.put key (change value) := by
  ext1 other
  rw [find_modify, find_put, find_put]
  split
  · rfl
  · rfl

def eraseAll (map : FiniteMap K V) (gone : Finset K) : FiniteMap K V where
  keys := map.keys \ gone
  find key := if key ∈ gone then none else map.find key
  mem_keys key := by
    rw [Finset.mem_sdiff, map.mem_keys]
    split
    · next member => simp [member]
    · next absent => simp [absent]

theorem find_eraseAll (map : FiniteMap K V) (gone : Finset K) (key : K) :
    (map.eraseAll gone).find key = if key ∈ gone then none else map.find key := rfl

theorem modify_eq_adjust (map : FiniteMap K V) (key : K) (change : V → V) :
    map.modify key change = map.adjust fun other value => if other = key then change value else value := by
  ext1 other
  rw [find_modify, find_adjust]
  split
  · rfl
  · rw [Option.map_id']

theorem put_eq_adjust {map : FiniteMap K V} {key : K} {old : V} (found : map.find key = some old) (value : V) :
    map.put key value = map.adjust fun other before => if other = key then value else before := by
  ext1 other
  rw [find_put, find_adjust]
  split
  · next same => rw [same, found, map_some]
  · rw [Option.map_id']

theorem foldl_modify {items : List K} (distinct : items.Nodup) (change : V → V) (map : FiniteMap K V) :
    items.foldl (fun map key => map.modify key change) map =
      map.adjust fun key value => if key ∈ items then change value else value := by
  induction items generalizing map with
  | nil => exact (adjust_eq_self fun key value _ => if_neg not_mem_nil).symm
  | cons item items ih =>
    obtain ⟨fresh, rest⟩ := nodup_cons.mp distinct
    rw [foldl_cons, ih rest, modify_eq_adjust, adjust_adjust]
    refine adjust_congr fun key value _ => ?_
    by_cases here : key = item
    · rw [here, if_neg fresh, if_pos rfl, if_pos List.mem_cons_self]
    · by_cases later : key ∈ items
      · rw [if_pos later, if_neg here, if_pos (mem_cons_of_mem _ later)]
      · rw [if_neg later, if_neg here, if_neg (not_mem_cons_of_ne_of_not_mem here later)]

theorem erase_eraseAll (map : FiniteMap K V) (gone : Finset K) (key : K) :
    (map.eraseAll gone).erase key = map.eraseAll (insert key gone) := by
  ext1 other
  rw [find_erase, find_eraseAll, find_eraseAll]
  by_cases here : other = key
  · rw [if_pos here, if_pos (here ▸ mem_insert_self _ _)]
  · rw [if_neg here]
    simp only [mem_insert, here, false_or]

theorem eraseAll_empty (map : FiniteMap K V) : map.eraseAll ∅ = map := by
  ext1 key
  rw [find_eraseAll, if_neg (notMem_empty key)]

section Sums

variable [AddCommGroup M]

def sum (map : FiniteMap K V) (amount : V → M) : M := ∑ key ∈ map.keys, (map.find key).elim 0 amount

omit [DecidableEq K] in
theorem sum_empty (amount : V → M) : (empty : FiniteMap K V).sum amount = 0 := Finset.sum_empty

section

variable {map : FiniteMap K V} {key : K}

theorem sum_erase {value : V} (found : map.find key = some value) (amount : V → M) :
    (map.erase key).sum amount = map.sum amount - amount value := by
  have rest : ∑ other ∈ map.keys.erase key, ((map.erase key).find other).elim 0 amount =
      ∑ other ∈ map.keys.erase key, (map.find other).elim 0 amount := by
    refine sum_congr rfl fun other member => ?_
    rw [find_erase_ne (ne_of_mem_erase member)]
  have whole := sum_erase_add map.keys (fun other => (map.find other).elim 0 amount) (mem_of_find found)
  rw [found, elim_some] at whole
  rw [sum, sum, ← whole]
  change ∑ other ∈ map.keys.erase key, ((map.erase key).find other).elim 0 amount = _
  rw [rest, add_sub_cancel_right]

theorem sum_put (absent : map.find key = none) (value : V) (amount : V → M) :
    (map.put key value).sum amount = map.sum amount + amount value := by
  have rest : ∑ other ∈ map.keys, ((map.put key value).find other).elim 0 amount =
      ∑ other ∈ map.keys, (map.find other).elim 0 amount := by
    refine sum_congr rfl fun other member => ?_
    have different : other ≠ key := by
      rintro rfl
      exact find_eq_none.mp absent member
    rw [find_put_ne different]
  rw [sum, sum]
  change ∑ other ∈ insert key map.keys, ((map.put key value).find other).elim 0 amount = _
  rw [sum_insert (find_eq_none.mp absent), find_put_self, rest, elim_some, add_comm]

theorem sum_modify {value : V} (found : map.find key = some value) (change : V → V)
    (amount : V → M) : (map.modify key change).sum amount = map.sum amount - amount value + amount (change value) := by
  have same : map.modify key change = (map.erase key).put key (change value) := by
    ext other : 1
    rw [find_modify, find_put, find_erase]
    by_cases here : other = key
    · subst here
      rw [if_pos rfl, if_pos rfl, found, map_some]
    · rw [if_neg here, if_neg here, if_neg here]
  rw [same, sum_put (find_erase_self _ _), sum_erase found]

theorem sum_put_found {old : V} (found : map.find key = some old) (value : V)
    (amount : V → M) : (map.put key value).sum amount = map.sum amount - amount old + amount value := by
  have same : map.put key value = map.modify key fun _ => value := by
    ext other : 1
    rw [find_put, find_modify]
    by_cases here : other = key
    · rw [if_pos here, if_pos here, here, found, map_some]
    · rw [if_neg here, if_neg here]
  rw [same, sum_modify found]

end

omit [DecidableEq K] in
theorem sum_le {other map : FiniteMap K V} {amount : V → Int} (nonneg : ∀ value, 0 ≤ amount value)
    (among : ∀ key value, other.find key = some value → ∃ old, map.find key = some old ∧ amount value = amount old) :
    other.sum amount ≤ map.sum amount := by
  have inside : other.keys ⊆ map.keys := fun key member => by
    obtain ⟨value, found⟩ := find_of_mem member
    obtain ⟨old, here, -⟩ := among key value found
    exact mem_of_find here
  have same : other.sum amount = ∑ key ∈ other.keys, (map.find key).elim 0 amount := by
    refine sum_congr rfl fun key member => ?_
    obtain ⟨value, found⟩ := find_of_mem member
    obtain ⟨old, here, equal⟩ := among key value found
    rw [found, here, elim_some, elim_some, equal]
  rw [same]
  refine sum_le_sum_of_subset_of_nonneg inside fun key _ _ => ?_
  cases map.find key with
  | none => exact le_refl 0
  | some value => exact nonneg value

end Sums

def count (map : FiniteMap K V) (test : V → Bool) : Nat := (map.keys.filter fun key => (map.find key).any test = true).card

omit [DecidableEq K] in
theorem count_eq_sum (map : FiniteMap K V) (test : V → Bool) :
    (map.count test : Int) = map.sum fun value => if test value then 1 else 0 := by
  rw [count, card_filter, sum, Nat.cast_sum]
  refine sum_congr rfl fun key member => ?_
  obtain ⟨value, found⟩ := find_of_mem member
  rw [found, any_some, elim_some]
  split <;> rfl

theorem find_foldl_erase {A : Type} (key : A → K) (items : List A) (map : FiniteMap K V) (other : K) :
    (items.foldl (fun map item => map.erase (key item)) map).find other =
      if other ∈ items.map key then none else map.find other := by
  induction items generalizing map with
  | nil => simp
  | cons item items ih =>
    rw [List.foldl_cons, ih, find_erase, List.map_cons]
    by_cases later : other ∈ items.map key
    · rw [if_pos later, if_pos (List.mem_cons_of_mem _ later)]
    · rw [if_neg later]
      by_cases here : other = key item
      · rw [if_pos here, if_pos (by rw [here]; exact List.mem_cons_self)]
      · rw [if_neg here, if_neg]
        rw [List.mem_cons, not_or]
        exact ⟨here, later⟩

theorem find_foldl_put {A : Type} (key : A → K) (value : A → V) {items : List A} (distinct : (items.map key).Nodup)
    (map : FiniteMap K V) (other : K) (result : V) :
    (items.foldl (fun map item => map.put (key item) (value item)) map).find other = some result ↔
      (∃ item ∈ items, key item = other ∧ value item = result) ∨ other ∉ items.map key ∧ map.find other = some result := by
  induction items generalizing map with
  | nil => simp
  | cons item items ih =>
    obtain ⟨fresh, distinct'⟩ := nodup_cons.mp distinct
    rw [List.foldl_cons, ih distinct', find_put, List.exists_mem_cons_iff, List.map_cons, List.mem_cons, not_or]
    by_cases here : other = key item
    · subst here
      rw [if_pos rfl, some.injEq]
      constructor
      · rintro (later | ⟨-, same⟩)
        · exact .inl (.inr later)
        · exact .inl (.inl ⟨rfl, same⟩)
      · rintro ((⟨-, same⟩ | later) | ⟨⟨absurd', -⟩, -⟩)
        · exact .inr ⟨fresh, same⟩
        · exact .inl later
        · exact absurd rfl absurd'
    · rw [if_neg here]
      constructor
      · rintro (later | ⟨absent, found⟩)
        · exact .inl (.inr later)
        · exact .inr ⟨⟨here, absent⟩, found⟩
      · rintro ((⟨same, -⟩ | later) | ⟨⟨-, absent⟩, found⟩)
        · exact absurd same.symm here
        · exact .inl later
        · exact .inr ⟨absent, found⟩

theorem foldl_insertNew {A : Type} (key : A → K) (value : A → V) {items : List A} (distinct : (items.map key).Nodup)
    {map : FiniteMap K V} (absent : ∀ item ∈ items, map.find (key item) = none) :
    items.foldl (fun map item => map.insertNew (key item) (value item)) map =
      items.foldl (fun map item => map.put (key item) (value item)) map := by
  induction items generalizing map with
  | nil => rfl
  | cons item items ih =>
    obtain ⟨fresh, distinct'⟩ := nodup_cons.mp distinct
    rw [foldl_cons, foldl_cons, insertNew_absent (absent item mem_cons_self)]
    refine ih distinct' fun later member => ?_
    have different : key later ≠ key item := fun same => fresh (mem_map.mpr ⟨later, member, same⟩)
    rw [find_put_ne different]
    exact absent later (mem_cons_of_mem _ member)

end FiniteMap

end Longcoin.Library
