import Mathlib.Data.List.Nodup
import Mathlib.Order.Lattice

/-! `std::multimap`: entries in the order of their keys, where a new entry comes after those with the same key. -/

namespace Longcoin.Library
open List

variable {V X : Type} [LinearOrder V]

structure Multimap (V X : Type) [LinearOrder V] where
  entries : List (V × X)
  sorted : entries.Pairwise fun first later => first.1 ≤ later.1

namespace Multimap

def empty : Multimap V X := ⟨[], List.Pairwise.nil⟩

def insertEntry (value : V) (item : X) : List (V × X) → List (V × X)
  | [] => [(value, item)]
  | entry :: rest => if value < entry.1 then (value, item) :: entry :: rest else entry :: insertEntry value item rest

theorem perm_insertEntry (value : V) (item : X) (entries : List (V × X)) :
    (insertEntry value item entries).Perm ((value, item) :: entries) := by
  induction entries with
  | nil => exact Perm.refl _
  | cons entry rest ih =>
    rw [insertEntry]
    split
    · exact Perm.refl _
    · exact (ih.cons entry).trans (Perm.swap _ _ rest)

theorem sorted_insertEntry (value : V) (item : X) {entries : List (V × X)}
    (sorted : entries.Pairwise fun first later => first.1 ≤ later.1) :
    (insertEntry value item entries).Pairwise fun first later => first.1 ≤ later.1 := by
  induction entries with
  | nil => simp [insertEntry]
  | cons entry rest ih =>
    have ordered := pairwise_cons.mp sorted
    rw [insertEntry]
    split
    next below =>
      apply pairwise_cons.mpr
      constructor
      · intro later member
        rcases mem_cons.mp member with rfl | after
        · exact below.le
        · exact below.le.trans (ordered.1 later after)
      · exact sorted
    next above =>
      apply pairwise_cons.mpr
      constructor
      · intro later member
        rcases mem_cons.mp ((perm_insertEntry value item rest).mem_iff.mp member) with rfl | after
        · exact not_lt.mp above
        · exact ordered.1 later after
      · exact ih ordered.2

def insert (map : Multimap V X) (value : V) (item : X) : Multimap V X :=
  ⟨insertEntry value item map.entries, sorted_insertEntry value item map.sorted⟩

theorem perm_insert (map : Multimap V X) (value : V) (item : X) : (map.insert value item).entries.Perm ((value, item) :: map.entries) :=
  perm_insertEntry value item map.entries

@[simp] theorem mem_insert (map : Multimap V X) (value : V) (item : X) (entry : V × X) :
    entry ∈ (map.insert value item).entries ↔ entry = (value, item) ∨ entry ∈ map.entries := by
  rw [(perm_insert map value item).mem_iff, mem_cons]

theorem nodup_insert {map : Multimap V X} (once : map.entries.Nodup) {value : V} {item : X} (fresh : (value, item) ∉ map.entries) :
    (map.insert value item).entries.Nodup :=
  (perm_insert map value item).nodup_iff.mpr (nodup_cons.mpr ⟨fresh, once⟩)

def eraseBegin (map : Multimap V X) : Multimap V X := ⟨map.entries.tail, map.sorted.tail⟩

theorem begin_le {map : Multimap V X} {entry : V × X} {rest : List (V × X)} (first : map.entries = entry :: rest) :
    ∀ other ∈ map.entries, entry.1 ≤ other.1 := by
  have sorted := map.sorted
  rw [first] at sorted ⊢
  intro other member
  rcases mem_cons.mp member with rfl | later
  · exact le_rfl
  · exact rel_of_pairwise_cons sorted later

section Search

variable [DecidableEq X]

def equalRange (map : Multimap V X) (value : V) : List (V × X) := map.entries.filter (·.1 = value)

/-- The entry of the range that holds the item is erased, if there is one. -/
def eraseIn (map : Multimap V X) (value : V) (item : X) : Option (Multimap V X) :=
  match (map.equalRange value).find? (·.2 = item) with
  | none => none
  | some entry => some ⟨map.entries.erase entry, map.sorted.sublist List.erase_sublist⟩

theorem eraseIn_of_mem {map : Multimap V X} {value : V} {item : X} (member : (value, item) ∈ map.entries) :
    ∃ sorted, map.eraseIn value item = some ⟨map.entries.erase (value, item), sorted⟩ := by
  have inside : (value, item) ∈ map.equalRange value := mem_filter.mpr ⟨member, decide_eq_true rfl⟩
  have found : ((map.equalRange value).find? (·.2 = item)).isSome = true :=
    find?_isSome.mpr ⟨_, inside, decide_eq_true rfl⟩
  rw [eraseIn]
  cases search : (map.equalRange value).find? (·.2 = item) with
  | none =>
    rw [search] at found
    cases found
  | some entry =>
    have key : entry.1 = value := of_decide_eq_true (mem_filter.mp (mem_of_find?_eq_some search)).2
    have held := find?_some search
    rw [decide_eq_true_eq] at held
    have same : entry = (value, item) := Prod.ext key held
    subst same
    exact ⟨_, rfl⟩

end Search

end Multimap

end Longcoin.Library
