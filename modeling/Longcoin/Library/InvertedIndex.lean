import Longcoin.Library.FiniteMap

/-! Which keys carry a tag, as a map from tags to sets that are not empty. -/

namespace Longcoin.Library.InvertedIndex
open List Option Finset

variable {K T : Type} [DecidableEq K] [DecidableEq T]

def under (index : FiniteMap T (Finset K)) (tag : T) : Finset K := (index.find tag).getD ∅

def Tidy (index : FiniteMap T (Finset K)) : Prop := ∀ tag, index.find tag ≠ some ∅

def insertUnder (key : K) (index : FiniteMap T (Finset K)) (tag : T) : FiniteMap T (Finset K) :=
  index.put tag (insert key (under index tag))

/-- A key leaves a tag, whose set goes with the last one. -/
def eraseUnder (key : K) (index : FiniteMap T (Finset K)) (tag : T) : FiniteMap T (Finset K) :=
  match index.find tag with
  | none => index
  | some keys => if keys.erase key = ∅ then index.erase tag else index.put tag (keys.erase key)

variable {index : FiniteMap T (Finset K)}

omit [DecidableEq K] [DecidableEq T] in
theorem Tidy.find_eq (tidy : Tidy index) (tag : T) :
    index.find tag = if (under index tag).Nonempty then some (under index tag) else none := by
  rw [under]
  cases found : index.find tag with
  | none => exact (if_neg Finset.not_nonempty_empty).symm
  | some keys =>
    have filled : keys.Nonempty := nonempty_iff_ne_empty.mpr fun none => tidy tag (none ▸ found)
    exact (if_pos filled).symm

open FiniteMap

theorem under_insertUnder (key : K) (index : FiniteMap T (Finset K)) (tag other : T) :
    under (insertUnder key index tag) other = if other = tag then insert key (under index other) else under index other := by
  rw [under, insertUnder, find_put]
  split
  · next same => rw [same, getD_some]
  · rfl

theorem eraseUnder_cases (key : K) (index : FiniteMap T (Finset K)) (tag : T) :
    (index.find tag = none ∧ eraseUnder key index tag = index) ∨
    ∃ keys, index.find tag = some keys ∧ ((keys.erase key = ∅ ∧ eraseUnder key index tag = index.erase tag) ∨
      (keys.erase key ≠ ∅ ∧ eraseUnder key index tag = index.put tag (keys.erase key))) := by
  rw [eraseUnder]
  cases index.find tag with
  | none => exact .inl ⟨rfl, rfl⟩
  | some keys =>
    by_cases last : keys.erase key = ∅
    · exact .inr ⟨keys, rfl, .inl ⟨last, if_pos last⟩⟩
    · exact .inr ⟨keys, rfl, .inr ⟨last, if_neg last⟩⟩

theorem under_eraseUnder (key : K) (index : FiniteMap T (Finset K)) (tag other : T) :
    under (eraseUnder key index tag) other = if other = tag then (under index other).erase key else under index other := by
  obtain ⟨absent, same⟩ | ⟨keys, found, ⟨last, same⟩ | ⟨-, same⟩⟩ := eraseUnder_cases key index tag
  · rw [same]
    split
    · next here => rw [here, under, absent, getD_none, erase_empty]
    · rfl
  · rw [same, under, find_erase]
    split
    · next here => rw [here, under, found, getD_none, getD_some, last]
    · rfl
  · rw [same, under, find_put]
    split
    · next here => rw [here, under, found, getD_some, getD_some]
    · rfl

theorem Tidy.insertUnder (tidy : Tidy index) (key : K) (tag : T) : Tidy (insertUnder key index tag) := by
  intro other
  rw [InvertedIndex.insertUnder, find_put]
  split
  · exact fun none => insert_ne_empty _ _ (some.inj none)
  · exact tidy other

theorem Tidy.eraseUnder (tidy : Tidy index) (key : K) (tag : T) : Tidy (eraseUnder key index tag) := by
  intro other
  obtain ⟨-, same⟩ | ⟨keys, -, ⟨-, same⟩ | ⟨more, same⟩⟩ := eraseUnder_cases key index tag
  · rw [same]
    exact tidy other
  · rw [same, find_erase]
    split
    · exact fun none => some_ne_none _ none.symm
    · exact tidy other
  · rw [same, find_put]
    split
    · exact fun none => more (some.inj none)
    · exact tidy other

theorem under_foldl_insertUnder (key : K) (tags : List T) (index : FiniteMap T (Finset K)) (other : T) :
    under (tags.foldl (insertUnder key) index) other = if other ∈ tags then insert key (under index other) else under index other := by
  induction tags generalizing index with
  | nil => rw [List.foldl_nil, if_neg List.not_mem_nil]
  | cons tag tags ih =>
    rw [List.foldl_cons, ih, under_insertUnder]
    by_cases here : other = tag
    · have listed : other ∈ tag :: tags := here ▸ List.mem_cons_self
      rw [if_pos here, if_pos listed, Finset.insert_idem, ite_self]
    · rw [if_neg here]
      simp only [List.mem_cons, here, false_or]

theorem under_foldl_eraseUnder (key : K) (tags : List T) (index : FiniteMap T (Finset K)) (other : T) :
    under (tags.foldl (eraseUnder key) index) other = if other ∈ tags then (under index other).erase key else under index other := by
  induction tags generalizing index with
  | nil => rw [List.foldl_nil, if_neg List.not_mem_nil]
  | cons tag tags ih =>
    rw [List.foldl_cons, ih, under_eraseUnder]
    by_cases here : other = tag
    · have listed : other ∈ tag :: tags := here ▸ List.mem_cons_self
      rw [if_pos here, if_pos listed, Finset.erase_idem, ite_self]
    · rw [if_neg here]
      simp only [List.mem_cons, here, false_or]

omit [DecidableEq K] [DecidableEq T] in
theorem Tidy.foldl {step : FiniteMap T (Finset K) → T → FiniteMap T (Finset K)}
    (keeps : ∀ index tag, Tidy index → Tidy (step index tag)) (tidy : Tidy index) (tags : List T) : Tidy (tags.foldl step index) := by
  induction tags generalizing index with
  | nil => exact tidy
  | cons tag tags ih => exact ih (keeps index tag tidy)

end Longcoin.Library.InvertedIndex
