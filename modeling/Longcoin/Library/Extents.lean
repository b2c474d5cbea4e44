import Mathlib.Data.List.Basic

/-! Stretches of files, handed out at the ends of the files. -/

namespace Longcoin.Library

variable {φ : Type}

/-- `size` units of a file from `start`. -/
structure Extent (φ : Type) where
  file : φ
  start : Nat
  size : Nat
deriving DecidableEq, Repr

namespace Extent

def finish (extent : Extent φ) : Nat := extent.start + extent.size

def Apart (a b : Extent φ) : Prop := a.file = b.file → a.finish ≤ b.start ∨ b.finish ≤ a.start

instance [DecidableEq φ] (a b : Extent φ) : Decidable (a.Apart b) := inferInstanceAs (Decidable (_ → _))

theorem apart_of_end {a b : Extent φ} (ends : φ → Nat) (inside : a.finish ≤ ends a.file) (at_end : b.start = ends b.file) :
    a.Apart b := by
  intro same
  left
  rw [at_end, ← same]
  exact inside

end Extent

end Longcoin.Library
