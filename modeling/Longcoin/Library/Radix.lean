import Longcoin.Library.Outcome
import Mathlib.Data.List.TakeWhile
import Mathlib.Data.Nat.Digits.Defs

/-! Conversion of a number from one base into another, digit by digit, in a buffer of a fixed size: for each digit the buffer is
multiplied by the one base and carried in the other. The buffer has its least significant digit first. -/

namespace Longcoin.Library.Radix
open Outcome List

/-- `buffer * mul + carry`, with what is carried out of the buffer. -/
def mulAdd (mul base : Nat) : List Nat → Nat → List Nat × Nat
  | [], carry => ([], carry)
  | digit :: rest, carry =>
      let later := mulAdd mul base rest ((carry + mul * digit) / base)
      ((carry + mul * digit) % base :: later.1, later.2)

/-- One more digit; it is a failure when the number does not fit. -/
def push {ε : Type} (overflow : ε) (mul base : Nat) (buffer : List Nat) (digit : Nat) : Except ε (List Nat) :=
  let next := mulAdd mul base buffer digit
  if next.2 = 0 then .ok next.1 else .error overflow

/-- The number of a list of digits, the most significant one first. -/
def number (base : Nat) (digits : List Nat) : Nat := Nat.ofDigits base digits.reverse

/-- The digits of a buffer without leading zeros, the most significant one first. -/
def strip (buffer : List Nat) : List Nat := buffer.reverse.dropWhile (· == 0)

structure Canonical (base : Nat) (digits : List Nat) : Prop where
  small : ∀ digit ∈ digits, digit < base
  head : digits.head? ≠ some 0

variable {mul base : Nat}

theorem number_append (base : Nat) (front back : List Nat) :
    number base (front ++ back) = number base front * base ^ back.length + number base back := by
  rw [number, reverse_append, Nat.ofDigits_append, length_reverse, number, number]
  ring

theorem number_singleton (base digit : Nat) : number base [digit] = digit := by
  simp [number]

theorem mulAdd_length (mul base : Nat) (buffer : List Nat) (carry : Nat) : (mulAdd mul base buffer carry).1.length = buffer.length := by
  induction buffer generalizing carry with
  | nil => rfl
  | cons digit rest ih => exact congrArg Nat.succ (ih _)

theorem mulAdd_small (positive : 0 < base) (buffer : List Nat) (carry : Nat) : ∀ digit ∈ (mulAdd mul base buffer carry).1, digit < base := by
  induction buffer generalizing carry with
  | nil => exact forall_mem_nil _
  | cons digit rest ih => exact forall_mem_cons.mpr ⟨Nat.mod_lt _ positive, ih _⟩

theorem mulAdd_value (mul base : Nat) (buffer : List Nat) (carry : Nat) :
    Nat.ofDigits base (mulAdd mul base buffer carry).1 + base ^ buffer.length * (mulAdd mul base buffer carry).2 =
      mul * Nat.ofDigits base buffer + carry := by
  induction buffer generalizing carry with
  | nil => simp [mulAdd]
  | cons digit rest ih =>
    rw [mulAdd, Nat.ofDigits_cons, Nat.ofDigits_cons, length_cons]
    have later := ih ((carry + mul * digit) / base)
    have whole := Nat.mod_add_div (carry + mul * digit) base
    calc (carry + mul * digit) % base + base * Nat.ofDigits base (mulAdd mul base rest ((carry + mul * digit) / base)).1 +
          base ^ (rest.length + 1) * (mulAdd mul base rest ((carry + mul * digit) / base)).2
        = (carry + mul * digit) % base + base * (Nat.ofDigits base (mulAdd mul base rest ((carry + mul * digit) / base)).1 +
          base ^ rest.length * (mulAdd mul base rest ((carry + mul * digit) / base)).2) := by ring
      _ = (carry + mul * digit) % base + base * (mul * Nat.ofDigits base rest + (carry + mul * digit) / base) := by rw [later]
      _ = (carry + mul * digit) % base + base * ((carry + mul * digit) / base) + base * (mul * Nat.ofDigits base rest) := by ring
      _ = mul * (digit + base * Nat.ofDigits base rest) + carry := by rw [whole]; ring

theorem push_ok {ε : Type} {overflow : ε} (positive : 0 < base) {buffer : List Nat} {digit : Nat}
    (room : mul * Nat.ofDigits base buffer + digit < base ^ buffer.length) : ∃ buffer', push overflow mul base buffer digit = .ok buffer' ∧
      buffer'.length = buffer.length ∧ (∀ digit ∈ buffer', digit < base) ∧
        Nat.ofDigits base buffer' = mul * Nat.ofDigits base buffer + digit := by
  have value := mulAdd_value mul base buffer digit
  have none : (mulAdd mul base buffer digit).2 = 0 := by
    by_contra carried
    have least : base ^ buffer.length ≤ base ^ buffer.length * (mulAdd mul base buffer digit).2 :=
      Nat.le_mul_of_pos_right _ (Nat.pos_of_ne_zero carried)
    omega
  rw [none, Nat.mul_zero, Nat.add_zero] at value
  exact ⟨_, if_pos none, mulAdd_length _ _ _ _, mulAdd_small positive _ _, value⟩

theorem convert_ok {ε : Type} {overflow : ε} (positive : 0 < base) (digits : List Nat) : ∀ (done : List Nat) (buffer : List Nat),
    (∀ digit ∈ done ++ digits, digit < mul) → mul ^ (done ++ digits).length ≤ base ^ buffer.length →
      (∀ digit ∈ buffer, digit < base) → Nat.ofDigits base buffer = number mul done →
        ∃ buffer', digits.foldlM (push overflow mul base) buffer = .ok buffer' ∧ (∀ digit ∈ buffer', digit < base) ∧
          Nat.ofDigits base buffer' = number mul (done ++ digits) := by
  induction digits with
  | nil =>
    intro done buffer _ _ small value
    rw [append_nil]
    exact ⟨buffer, rfl, small, value⟩
  | cons digit rest ih =>
    intro done buffer fits room small value
    rw [append_cons] at fits room ⊢
    have front : ∀ other ∈ (done ++ [digit]).reverse, other < mul := fun other member =>
      fits other (mem_append_left _ (mem_reverse.mp member))
    have next : number mul (done ++ [digit]) = mul * Nat.ofDigits base buffer + digit := by
      rw [number_append, number_singleton, value, length_singleton, Nat.pow_one, Nat.mul_comm]
    have below : number mul (done ++ [digit]) < base ^ buffer.length := by
      have last : digit < mul := fits digit (mem_append_left _ (mem_append_right _ (mem_singleton_self _)))
      have bound : number mul (done ++ [digit]) < mul ^ (done ++ [digit]).length := by
        rcases Nat.lt_or_ge 1 mul with large | one
        · rw [← length_reverse]
          exact Nat.ofDigits_lt_base_pow_length large front
        · -- the only digit of base one is zero
          have unit : mul = 1 := by omega
          have zero : ∀ other ∈ (done ++ [digit]).reverse, other = 0 := fun other member => by
            have := front other member
            omega
          rw [number, eq_replicate_of_mem zero, Nat.ofDigits_replicate_zero, unit, Nat.one_pow]
          exact Nat.one_pos
      refine Nat.lt_of_lt_of_le bound (Nat.le_trans ?_ room)
      apply Nat.pow_le_pow_right (by omega)
      exact (prefix_append (done ++ [digit]) rest).length_le
    obtain ⟨buffer', step, length, small', value'⟩ := @push_ok mul base ε overflow positive buffer digit (next ▸ below)
    obtain ⟨last, run, spec⟩ := ih (done ++ [digit]) buffer' fits (length ▸ room) small' (value'.trans next.symm)
    exact ⟨last, foldlM_cons_ok.mpr ⟨buffer', step, run⟩, spec⟩

theorem Canonical.digits_number {digits : List Nat} (canonical : Canonical base digits) (large : 1 < base) :
    Nat.digits base (number base digits) = digits.reverse := by
  apply Nat.digits_ofDigits base large
  · exact fun digit member => canonical.small digit (mem_reverse.mp member)
  · intro nonempty zero
    apply canonical.head
    rw [← getLast?_reverse, getLast?_eq_getLast_of_ne_nil nonempty, zero]

theorem Canonical.unique {digits digits' : List Nat} (canonical : Canonical base digits) (canonical' : Canonical base digits')
    (large : 1 < base) (same : number base digits = number base digits') : digits = digits' := by
  apply reverse_injective
  rw [← canonical.digits_number large, ← canonical'.digits_number large, same]

theorem head?_dropWhile_zero (digits : List Nat) : (digits.dropWhile (· == 0)).head? ≠ some 0 := by
  intro zero
  have first := head?_dropWhile_not (· == 0) digits
  rw [zero] at first
  cases first

theorem number_dropWhile_zero (base : Nat) (digits : List Nat) : number base (digits.dropWhile (· == 0)) = number base digits := by
  conv_rhs => rw [← @takeWhile_append_dropWhile _ (· == 0) digits]
  have zeros : ∀ digit ∈ digits.takeWhile (· == 0), digit = 0 := by
    intro digit member
    have held : (digit == 0) = true := mem_takeWhile_imp (p := (· == 0)) member
    exact beq_iff_eq.mp held
  rw [number_append, eq_replicate_of_mem zeros, number, number, reverse_replicate, Nat.ofDigits_replicate_zero]
  simp

theorem strip_canonical {buffer : List Nat} (small : ∀ digit ∈ buffer, digit < base) : Canonical base (strip buffer) ∧
    number base (strip buffer) = Nat.ofDigits base buffer := by
  refine ⟨⟨fun digit member => ?_, head?_dropWhile_zero _⟩, ?_⟩
  · exact small digit (mem_reverse.mp ((dropWhile_suffix _).subset member))
  · rw [strip, number_dropWhile_zero, number, reverse_reverse]

theorem convert_canonical {ε : Type} {overflow : ε} (positive : 0 < base) {digits : List Nat} {size : Nat}
    (small : ∀ digit ∈ digits, digit < mul) (room : mul ^ digits.length ≤ base ^ size) :
    ∃ buffer, digits.foldlM (push overflow mul base) (replicate size 0) = .ok buffer ∧ Canonical base (strip buffer) ∧
      number base (strip buffer) = number mul digits := by
  have zeros : ∀ digit ∈ replicate size 0, digit < base := fun digit member => (eq_of_mem_replicate member) ▸ positive
  obtain ⟨buffer, run, small', value⟩ := @convert_ok mul base ε overflow positive digits [] (replicate size 0) small
    (by rwa [length_replicate]) zeros Nat.ofDigits_replicate_zero
  obtain ⟨canonical, same⟩ := strip_canonical small'
  exact ⟨buffer, run, canonical, same.trans value⟩

theorem room_of_ratio {a b p q n k : Nat} (powers : a ^ p ≤ b ^ q) (ratio : q * n ≤ p * k) (positive : 0 < p) (base : 0 < b) : a ^ n ≤ b ^ k := by
  have raised : (a ^ n) ^ p ≤ (b ^ k) ^ p :=
    calc (a ^ n) ^ p = (a ^ p) ^ n := by rw [← Nat.pow_mul, ← Nat.pow_mul, Nat.mul_comm]
      _ ≤ (b ^ q) ^ n := Nat.pow_le_pow_left powers n
      _ = b ^ (q * n) := (Nat.pow_mul b q n).symm
      _ ≤ b ^ (p * k) := Nat.pow_le_pow_right base ratio
      _ = (b ^ k) ^ p := by rw [← Nat.pow_mul, Nat.mul_comm]
  exact (Nat.pow_le_pow_iff_left (Nat.pos_iff_ne_zero.mp positive)).mp raised

end Longcoin.Library.Radix
