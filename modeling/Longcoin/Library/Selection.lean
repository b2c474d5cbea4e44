import Mathlib.Data.List.Perm.Basic
import Mathlib.Order.Lattice

/-! Queues that give out a largest element. -/

namespace Longcoin.Library.Selection
open List Option

variable {α : Type}

/-- An element that is not less than any other, and the others. -/
def takeMax (less : α → α → Bool) : List α → Option (α × List α)
  | [] => none
  | item :: rest =>
      match takeMax less rest with
      | none => some (item, [])
      | some (best, others) => if less item best then some (best, item :: others) else some (item, rest)

theorem takeMax_none {less : α → α → Bool} {items : List α} (nothing : takeMax less items = none) : items = [] := by
  cases items with
  | nil => rfl
  | cons item rest =>
    rw [takeMax] at nothing
    split at nothing
    · cases nothing
    · split at nothing
      · cases nothing
      · cases nothing

theorem takeMax_perm {less : α → α → Bool} {items others : List α} {best : α}
    (taken : takeMax less items = some (best, others)) : items.Perm (best :: others) := by
  induction items generalizing best others with
  | nil => exact absurd taken (by simp [takeMax])
  | cons item rest ih =>
    rw [takeMax] at taken
    split at taken
    next nothing =>
      obtain ⟨rfl, rfl⟩ := Prod.mk.inj (some.inj taken)
      rw [takeMax_none nothing]
    next best' others' found =>
      have split := ih found
      split at taken
      next below =>
        obtain ⟨rfl, rfl⟩ := Prod.mk.inj (some.inj taken)
        exact (split.cons item).trans (Perm.swap _ _ _)
      next above =>
        obtain ⟨rfl, rfl⟩ := Prod.mk.inj (some.inj taken)
        exact Perm.refl _

theorem takeMax_le {κ : Type} [LinearOrder κ] {less : α → α → Bool} (key : α → κ)
    {items others : List α} {best : α} (agrees : ∀ first ∈ items, ∀ second ∈ items, less first second = true ↔ key first < key second)
    (taken : takeMax less items = some (best, others)) : ∀ item ∈ items, key item ≤ key best := by
  induction items generalizing best others with
  | nil => exact nofun
  | cons item rest ih =>
    have inside : ∀ first ∈ rest, ∀ second ∈ rest, less first second = true ↔ key first < key second :=
      fun first one second two => agrees first (mem_cons_of_mem _ one) second (mem_cons_of_mem _ two)
    rw [takeMax] at taken
    split at taken
    next nothing =>
      obtain ⟨rfl, rfl⟩ := Prod.mk.inj (some.inj taken)
      rw [takeMax_none nothing]
      intro other member
      rw [mem_singleton.mp member]
    next best' others' found =>
      have bounded := ih inside found
      have member : best' ∈ rest := (takeMax_perm found).mem_iff.mpr mem_cons_self
      have order := agrees item mem_cons_self best' (mem_cons_of_mem _ member)
      split at taken
      next below =>
        obtain ⟨rfl, rfl⟩ := Prod.mk.inj (some.inj taken)
        rintro other (_ | ⟨_, later⟩)
        · exact le_of_lt (order.mp below)
        · exact bounded other later
      next above =>
        obtain ⟨rfl, rfl⟩ := Prod.mk.inj (some.inj taken)
        have least : key best' ≤ key item := not_lt.mp fun larger => above (order.mpr larger)
        rintro other (_ | ⟨_, later⟩)
        · exact le_rfl
        · exact (bounded other later).trans least

end Longcoin.Library.Selection
