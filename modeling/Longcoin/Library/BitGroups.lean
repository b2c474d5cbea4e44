import Mathlib.Data.List.Basic
import Mathlib.Data.Nat.Bitwise

/-! Numbers of one width regrouped into numbers of another by a machine that keeps the bits not yet given out. -/

namespace Longcoin.Library.BitGroups
open List

/-- The lowest `width` bits of a number, the highest of them first. -/
def bits : Nat → Nat → List Bool
  | 0, _ => []
  | width + 1, number => number.testBit width :: bits width number

@[simp] theorem length_bits (width number : Nat) : (bits width number).length = width := by
  induction width with
  | zero => rfl
  | succ width ih => rw [bits, length_cons, ih]

theorem testBit_of_bits {width a b : Nat} (same : bits width a = bits width b) : ∀ i < width, a.testBit i = b.testBit i := by
  induction width with
  | zero => exact fun i inside => absurd inside (Nat.not_lt_zero i)
  | succ width ih =>
    obtain ⟨high, low⟩ := cons.inj same
    intro i inside
    rcases Nat.lt_succ_iff_lt_or_eq.mp inside with below | rfl
    · exact ih low i below
    · exact high

theorem bits_inj {width a b : Nat} (fits : a < 2 ^ width) (fits' : b < 2 ^ width) (same : bits width a = bits width b) : a = b := by
  apply Nat.eq_of_testBit_eq
  intro i
  by_cases inside : i < width
  · exact testBit_of_bits same i inside
  · have large : 2 ^ width ≤ 2 ^ i := Nat.pow_le_pow_right (by decide) (Nat.le_of_not_lt inside)
    rw [Nat.testBit_lt_two_pow (Nat.lt_of_lt_of_le fits large), Nat.testBit_lt_two_pow (Nat.lt_of_lt_of_le fits' large)]

theorem bits_low {width number : Nat} (low : ∀ i < width, number.testBit i = false) : bits width number = replicate width false := by
  induction width with
  | zero => rfl
  | succ width ih => rw [bits, low width (Nat.lt_succ_self width), ih fun i inside => low i (Nat.lt_succ_of_lt inside), replicate_succ]

theorem length_flatMap_bits (width : Nat) (numbers : List Nat) : (numbers.flatMap (bits width)).length = width * numbers.length := by
  induction numbers with
  | nil => rfl
  | cons number rest ih => rw [flatMap_cons, length_append, ih, length_bits, length_cons, Nat.mul_succ, Nat.add_comm]

/-- Numbers are determined by their bits, also with less than the bits of one more number behind them. -/
theorem groups_inj {width : Nat} {numbers numbers' : List Nat} {back back' : List Bool} (fits : ∀ number ∈ numbers, number < 2 ^ width)
    (fits' : ∀ number ∈ numbers', number < 2 ^ width) (short : back.length < width) (short' : back'.length < width)
    (same : numbers.flatMap (bits width) ++ back = numbers'.flatMap (bits width) ++ back') : numbers = numbers' ∧ back = back' := by
  have count : numbers.length = numbers'.length := by
    have total := congrArg length same
    rw [length_append, length_append, length_flatMap_bits, length_flatMap_bits] at total
    have quotient := congrArg (· / width) total
    simpa only [Nat.mul_add_div (Nat.zero_lt_of_lt short), Nat.div_eq_of_lt short, Nat.div_eq_of_lt short', Nat.add_zero] using quotient
  induction numbers generalizing numbers' with
  | nil =>
    obtain rfl := eq_nil_of_length_eq_zero count.symm
    exact ⟨rfl, same⟩
  | cons number rest ih =>
    obtain ⟨number', rest', rfl⟩ := exists_cons_of_length_eq_add_one count.symm
    rw [flatMap_cons, flatMap_cons, append_assoc, append_assoc] at same
    obtain ⟨first, others⟩ := append_inj same (by rw [length_bits, length_bits])
    obtain ⟨rfl, rfl⟩ := ih (fun n inside => fits n (.tail _ inside)) (fun n inside => fits' n (.tail _ inside)) others (Nat.succ.inj count)
    exact ⟨congrArg (· :: rest) (bits_inj (fits number (.head _)) (fits' number' (.head _)) first), rfl⟩

/-- A turn of a machine takes a number in its state, gives numbers out and leaves a state. -/
def run {σ : Type} (turn : σ → Nat → List Nat × σ) : σ → List Nat → List Nat × σ
  | s, [] => ([], s)
  | s, number :: rest =>
    let after := turn s number
    let last := run turn after.2 rest
    (after.1 ++ last.1, last.2)

/-- The bits that a state stands for go before those of the numbers to come. -/
theorem run_groups {σ : Type} {turn : σ → Nat → List Nat × σ} {holds : σ → List Bool → Prop} {width width' : Nat}
    (step : ∀ s kept number, holds s kept → number < 2 ^ width → (∀ out ∈ (turn s number).1, out < 2 ^ width') ∧
      ∃ kept', holds (turn s number).2 kept' ∧ kept ++ bits width number = (turn s number).1.flatMap (bits width') ++ kept')
    {s : σ} {kept : List Bool} (start : holds s kept) (numbers : List Nat) (fits : ∀ number ∈ numbers, number < 2 ^ width) :
    (∀ out ∈ (run turn s numbers).1, out < 2 ^ width') ∧ ∃ kept', holds (run turn s numbers).2 kept' ∧
      kept ++ numbers.flatMap (bits width) = (run turn s numbers).1.flatMap (bits width') ++ kept' := by
  induction numbers generalizing s kept with
  | nil => exact ⟨nofun, kept, start, append_nil kept⟩
  | cons number rest ih =>
    obtain ⟨small, kept₁, holds₁, same₁⟩ := step s kept number start (fits number (.head _))
    obtain ⟨small₂, kept₂, holds₂, same₂⟩ := ih holds₁ fun other inside => fits other (.tail _ inside)
    refine ⟨fun out inside => (mem_append.mp inside).elim (small out) (small₂ out), kept₂, holds₂, ?_⟩
    rw [flatMap_cons, ← append_assoc, same₁, append_assoc, same₂, run, flatMap_append, append_assoc]

theorem bits_shiftLeft (width number added : Nat) :
    bits (width + added) (number <<< added) = bits width number ++ replicate added false := by
  induction width with
  | zero =>
    rw [Nat.zero_add]
    exact bits_low fun i inside => by rw [Nat.testBit_shiftLeft, decide_eq_false (Nat.not_le_of_lt inside), Bool.false_and]
  | succ width ih =>
    rw [Nat.add_right_comm, bits, bits, ih, Nat.testBit_shiftLeft, decide_eq_true (Nat.le_add_left _ _), Bool.true_and,
      Nat.add_sub_cancel, cons_append]

/-- A machine that regroups numbers of `a` bits into numbers of `b`: its state is a mode and the bits kept, which
`lift` says how far to the left they stand. The mode counts the numbers taken, and says how many bits are kept. -/
structure Regroups (turn : Nat × Nat → Nat → List Nat × (Nat × Nat)) (a b modes : Nat) (lift : Nat → Nat) : Prop where
  fresh : ∀ left number, turn (0, left) number = turn (0, 0) number
  turns : ∀ mode < modes, ∀ r < 2 ^ (a * mode % b), ∀ number < 2 ^ a,
    let turned := turn (mode, r <<< lift (a * mode % b)) number
    let kept := a * turned.2.1 % b
    let r' := if turned.2.1 = 0 then 0 else turned.2.2 >>> lift kept
    (∀ out ∈ turned.1, out < 2 ^ b) ∧ turned.2.1 < modes ∧ r' < 2 ^ kept ∧ (turned.2.1 ≠ 0 → turned.2.2 = r' <<< lift kept) ∧
      bits (a * mode % b) r ++ bits a number = turned.1.flatMap (bits b) ++ bits kept r'

/-- The bits kept in a state. -/
def Keeps (a b modes : Nat) (lift : Nat → Nat) (s : Nat × Nat) (kept : List Bool) : Prop :=
  s.1 < modes ∧ ∃ r < 2 ^ (a * s.1 % b), (s.1 ≠ 0 → s.2 = r <<< lift (a * s.1 % b)) ∧ kept = bits (a * s.1 % b) r

theorem Regroups.run {turn : Nat × Nat → Nat → List Nat × (Nat × Nat)} {a b modes : Nat} {lift : Nat → Nat}
    (regroups : Regroups turn a b modes lift) (some' : 0 < modes) (numbers : List Nat) (fits : ∀ number ∈ numbers, number < 2 ^ a) :
    (∀ out ∈ (BitGroups.run turn (0, 0) numbers).1, out < 2 ^ b) ∧ ∃ kept, Keeps a b modes lift (BitGroups.run turn (0, 0) numbers).2 kept ∧
      numbers.flatMap (bits a) = (BitGroups.run turn (0, 0) numbers).1.flatMap (bits b) ++ kept := by
  have start : Keeps a b modes lift (0, 0) [] := by
    refine ⟨some', 0, Nat.two_pow_pos _, fun some' => absurd rfl some', ?_⟩
    rw [Nat.mul_zero, Nat.zero_mod]
    rfl
  refine run_groups ?_ start numbers fits
  rintro ⟨mode, left⟩ kept number ⟨inside, r, small, shape, rfl⟩ fit
  have step := regroups.turns mode inside r small number fit
  have same : turn (mode, left) number = turn (mode, r <<< lift (a * mode % b)) number := by
    by_cases first : mode = 0
    · rw [first, regroups.fresh left, regroups.fresh (_ <<< _)]
    · exact congrArg (fun left => turn (mode, left) number) (shape first)
  rw [same]
  exact ⟨step.1, _, ⟨step.2.1, _, step.2.2.1, step.2.2.2.1, rfl⟩, step.2.2.2.2⟩

end Longcoin.Library.BitGroups
