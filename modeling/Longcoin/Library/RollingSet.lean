import Mathlib.Data.List.Basic

/-! A set of the latest items, kept in two sets that are cleared in turn: each is filled with twice as many items as are to be
remembered, and the one that was not cleared last is asked. -/

namespace Longcoin.Library

variable {F K : Type}

/-- The sets, and how many items came since the first one was cleared. -/
structure RollingSet (F : Type) where
  first : F
  second : F
  count : Nat

/-- What a set tells of the items that came since it was cleared, the latest first. -/
structure Tracking (add : F → K → F) (clear : F → F) where
  valid : F → Prop
  tracks : F → List K → Prop
  valid_clear : ∀ set, valid set → valid (clear set)
  valid_add : ∀ set item, valid set → valid (add set item)
  tracks_clear : ∀ set, valid set → tracks (clear set) []
  tracks_add : ∀ set item items, valid set → tracks set items → tracks (add set item) (item :: items)

namespace RollingSet

def nextCount (half count : Nat) : Nat := if count + 1 = 2 * half then 0 else count + 1

def firstSize (half count : Nat) : Nat := if count = 0 then 2 * half else count

def secondSize (half count : Nat) : Nat := if count ≤ half then half + count else count - half

theorem nextCount_lt {half count : Nat} (below : count < 2 * half) : nextCount half count < 2 * half := by
  unfold nextCount
  split_ifs with wraps
  · exact Nat.lt_of_le_of_lt (Nat.zero_le count) below
  · exact Nat.lt_of_le_of_ne below wraps

theorem firstSize_next (half count : Nat) : firstSize half (nextCount half count) = count + 1 := by
  unfold firstSize nextCount
  by_cases wraps : count + 1 = 2 * half
  · rw [if_pos wraps, if_pos rfl, wraps]
  · rw [if_neg wraps, if_neg (Nat.succ_ne_zero _)]

theorem secondSize_next {half count : Nat} (positive : 0 < half) (below : count < 2 * half) :
    secondSize half (nextCount half count) = (if count < half then half + count else count - half) + 1 := by
  have inside : count + 1 ≤ 2 * half := below
  unfold secondSize nextCount
  by_cases wraps : count + 1 = 2 * half
  · rw [if_pos wraps]
    split_ifs <;> omega
  · rw [if_neg wraps]
    split_ifs <;> omega

variable (add : F → K → F) (clear : F → F) (half : Nat)

def insert (rolling : RollingSet F) (item : K) : RollingSet F where
  first := add (if rolling.count = 0 then clear rolling.first else rolling.first) item
  second := add (if rolling.count ≠ 0 ∧ rolling.count = half then clear rolling.second else rolling.second) item
  count := nextCount half rolling.count

def asked (rolling : RollingSet F) : F := if rolling.count < half then rolling.second else rolling.first

variable {add clear half}

/-- Both sets track what came since they were cleared; `items` are all that came, the latest first. -/
structure Filled (tracking : Tracking add clear) (half : Nat) (rolling : RollingSet F) (items : List K) : Prop where
  valid : tracking.valid rolling.first ∧ tracking.valid rolling.second
  below : rolling.count < 2 * half
  first : tracking.tracks rolling.first (items.take (firstSize half rolling.count))
  second : tracking.tracks rolling.second (items.take (secondSize half rolling.count))

variable {tracking : Tracking add clear} {rolling : RollingSet F} {items : List K}

theorem Filled.insert (filled : Filled tracking half rolling items) (positive : 0 < half) (new : K) :
    Filled tracking half (rolling.insert add clear half new) (new :: items) := by
  have below := filled.below
  constructor
  · constructor
    · apply tracking.valid_add
      split_ifs
      · exact tracking.valid_clear _ filled.valid.1
      · exact filled.valid.1
    · apply tracking.valid_add
      split_ifs
      · exact tracking.valid_clear _ filled.valid.2
      · exact filled.valid.2
  · exact nextCount_lt below
  · -- the first set grows by one, from nothing when it was full
    rw [show (rolling.insert add clear half new).count = nextCount half rolling.count from rfl, firstSize_next, List.take_succ_cons]
    by_cases start : rolling.count = 0
    · simp only [RollingSet.insert, start]
      exact tracking.tracks_add _ new _ (tracking.valid_clear _ filled.valid.1) (tracking.tracks_clear _ filled.valid.1)
    · have before := filled.first
      rw [firstSize, if_neg start] at before
      simp only [RollingSet.insert, if_neg start]
      exact tracking.tracks_add _ new _ filled.valid.1 before
  · rw [show (rolling.insert add clear half new).count = nextCount half rolling.count from rfl, secondSize_next positive below,
      List.take_succ_cons]
    by_cases full : rolling.count ≠ 0 ∧ rolling.count = half
    · have restart : (if rolling.count < half then half + rolling.count else rolling.count - half) = 0 := by
        rw [if_neg (Nat.not_lt.mpr (Nat.le_of_eq full.2.symm)), full.2, Nat.sub_self]
      simp only [RollingSet.insert, if_pos full, restart]
      exact tracking.tracks_add _ new _ (tracking.valid_clear _ filled.valid.2) (tracking.tracks_clear _ filled.valid.2)
    · have before := filled.second
      have same : secondSize half rolling.count = if rolling.count < half then half + rolling.count else rolling.count - half := by
        unfold secondSize
        split_ifs <;> omega
      rw [same] at before
      simp only [RollingSet.insert, if_neg full]
      exact tracking.tracks_add _ new _ filled.valid.2 before

theorem Filled.asked (filled : Filled tracking half rolling items) :
    ∃ size, half ≤ size ∧ size ≤ 2 * half ∧ tracking.tracks (rolling.asked half) (items.take size) := by
  have below := filled.below
  rw [RollingSet.asked]
  split_ifs with early
  · refine ⟨secondSize half rolling.count, ?_, ?_, filled.second⟩
    · rw [secondSize, if_pos (Nat.le_of_lt early)]
      exact Nat.le_add_right _ _
    · rw [secondSize, if_pos (Nat.le_of_lt early)]
      omega
  · have started : rolling.count ≠ 0 := by omega
    refine ⟨firstSize half rolling.count, ?_, ?_, filled.first⟩
    · rw [firstSize, if_neg started]
      exact Nat.not_lt.mp early
    · rw [firstSize, if_neg started]
      exact Nat.le_of_lt below

end RollingSet

end Longcoin.Library
