import Mathlib.Data.List.NodupEquivFin

/-! Matching the items of one list with the places of another, in order. Taking the first place that fits
finds a matching whenever there is one. -/

namespace Longcoin.Library.Matching
open List

variable {α β : Type}

/-- One pass over the places: an item stays until a place fits it. -/
def greedy (accepts : α → β → Bool) : List β → List α → Bool
  | _, [] => true
  | [], _ :: _ => false
  | place :: places, item :: items =>
    if accepts item place then greedy accepts places items else greedy accepts places (item :: items)

/-- Each item has a place that fits it, the places in the order of the items. -/
def Matches (accepts : α → β → Bool) (items : List α) (places : List β) : Prop :=
  List.SublistForall₂ (fun item place => accepts item place = true) items places

section Exchange
variable {accepts : α → β → Bool} {item : α} {items : List α} {place : β} {places : List β}

theorem matches_nil (places : List β) : Matches accepts [] places := SublistForall₂.nil

theorem not_matches_empty : ¬ Matches accepts (item :: items) [] := nofun

theorem matches_tail (matching : Matches accepts (item :: items) places) : Matches accepts items places := by
  induction places with
  | nil => exact absurd matching not_matches_empty
  | cons place places ih =>
    cases matching with
    | cons _ rest => exact rest.cons_right
    | cons_right rest => exact (ih rest).cons_right

theorem matches_cons_of_accepts (accepted : accepts item place = true) :
    Matches accepts (item :: items) (place :: places) ↔ Matches accepts items places := by
  constructor
  · intro matching
    cases matching with
    | cons _ rest => exact rest
    | cons_right rest => exact matches_tail rest
  · exact fun rest => SublistForall₂.cons accepted rest

theorem matches_cons_of_refuses (refused : accepts item place = false) :
    Matches accepts (item :: items) (place :: places) ↔ Matches accepts (item :: items) places := by
  constructor
  · intro matching
    cases matching with
    | cons accepted _ => cases refused.symm.trans accepted
    | cons_right rest => exact rest
  · exact fun rest => rest.cons_right

theorem greedy_iff (accepts : α → β → Bool) (places : List β) (items : List α) :
    greedy accepts places items = true ↔ Matches accepts items places := by
  induction places generalizing items with
  | nil =>
    cases items with
    | nil => simp [greedy, matches_nil]
    | cons item items => simp [greedy, not_matches_empty]
  | cons place places ih =>
    cases items with
    | nil => simp [greedy, matches_nil]
    | cons item items =>
      unfold greedy
      cases fits : accepts item place with
      | true => rw [if_pos rfl, ih, matches_cons_of_accepts fits]
      | false => rw [if_neg Bool.false_ne_true, ih, matches_cons_of_refuses fits]

theorem matches_length (matching : Matches accepts items places) : items.length ≤ places.length := by
  obtain ⟨chosen, fits, sublist⟩ := sublistForall₂_iff.mp matching
  rw [fits.length_eq]
  exact sublist.length_le

theorem greedy_short (more : places.length < items.length) : greedy accepts places items = false := by
  rw [← Bool.not_eq_true, greedy_iff]
  exact fun matching => absurd (matches_length matching) (Nat.not_le.mpr more)

theorem matches_reverse : Matches accepts items.reverse places.reverse ↔ Matches accepts items places := by
  have turn {items : List α} {places : List β} (matching : Matches accepts items places) :
      Matches accepts items.reverse places.reverse := by
    obtain ⟨chosen, fits, sublist⟩ := sublistForall₂_iff.mp matching
    exact sublistForall₂_iff.mpr ⟨chosen.reverse, rel_reverse fits, sublist.reverse⟩
  constructor
  · intro matching
    have back := turn matching
    rwa [reverse_reverse, reverse_reverse] at back
  · exact turn

theorem matches_of_take (fewer : items.length ≤ places.length)
    (fits : ∀ (i : Nat) (inside : i < items.length), accepts items[i] places[i] = true) : Matches accepts items places := by
  apply sublistForall₂_iff.mpr
  refine ⟨places.take items.length, ?_, take_sublist _ _⟩
  apply forall₂_iff_get.mpr
  constructor
  · rw [length_take, Nat.min_eq_left fewer]
  · intro i inside _
    simp only [get_eq_getElem, getElem_take]
    exact fits i inside

theorem exists_of_matches (matching : Matches accepts items places) (member : item ∈ items) :
    ∃ place ∈ places, accepts item place = true := by
  obtain ⟨chosen, fits, sublist⟩ := sublistForall₂_iff.mp matching
  obtain ⟨i, inside, there⟩ := getElem_of_mem member
  have fit := fits.get inside (fits.length_eq ▸ inside)
  simp only [get_eq_getElem, there] at fit
  exact ⟨_, sublist.subset (getElem_mem _), fit⟩

theorem matches_iff_strictMono : Matches accepts items places ↔
    ∃ assign : Fin items.length → Fin places.length, StrictMono assign ∧ ∀ i, accepts items[i] places[assign i] = true := by
  rw [Matches, List.sublistForall₂_iff]
  constructor
  · intro matching
    obtain ⟨chosen, fits, sublist⟩ := matching
    obtain ⟨place, there⟩ := List.sublist_iff_exists_fin_orderEmbedding_get_eq.mp sublist
    have same : items.length = chosen.length := fits.length_eq
    refine ⟨fun i => place (Fin.cast same i), fun i j below => place.strictMono below, fun i => ?_⟩
    have fit := fits.get i.isLt (same ▸ i.isLt)
    have found := there (Fin.cast same i)
    simp only [List.get_eq_getElem, Fin.val_cast] at fit found
    rw [Fin.getElem_fin, Fin.getElem_fin, ← found]
    exact fit
  · intro assigned
    obtain ⟨assign, increasing, fits⟩ := assigned
    refine ⟨List.ofFn fun i => places[assign i], ?_, ?_⟩
    · apply List.forall₂_iff_get.mpr
      simp only [List.length_ofFn, List.get_eq_getElem, List.getElem_ofFn, true_and]
      exact fun i inside _ => fits ⟨i, inside⟩
    · apply List.sublist_iff_exists_fin_orderEmbedding_get_eq.mpr
      have length := List.length_ofFn (f := fun i => places[assign i])
      refine ⟨OrderEmbedding.ofStrictMono (fun i => assign (Fin.cast length i)) ?_, fun i => ?_⟩
      · exact fun i j below => increasing below
      · simp only [List.get_eq_getElem, List.getElem_ofFn]
        rfl

end Exchange

end Longcoin.Library.Matching
