import Longcoin.Mempool
import Longcoin.Miner
import Mathlib.Algebra.Order.Field.Basic
import Mathlib.Algebra.Order.Ring.Rat
import Mathlib.Data.Prod.Lex

/-! The comparisons by which the ordered indices of `mapTx` sort the memory pool. -/

namespace Longcoin.Mempool
open Miner (hashKey)

variable (double : Int → Int)

/-- Which score to use for an entry. `double` is the `double` nearest to a whole number, a whole number itself. -/
def useDescendantScore (a : CTxMemPoolEntry) : Bool :=
  let f1 := double (double a.getModifiedFee * double a.nSizeWithDescendants)
  let f2 := double (double a.nModFeesWithDescendants * double a.nTxSize)
  decide (f2 > f1)

def compareTxMemPoolEntryByDescendantScore (a b : CTxMemPoolEntry) : Bool :=
  let fUseADescendants := useDescendantScore double a
  let fUseBDescendants := useDescendantScore double b
  let aModFee := double (if fUseADescendants then a.nModFeesWithDescendants else a.getModifiedFee)
  let aSize := double (if fUseADescendants then a.nSizeWithDescendants else a.nTxSize)
  let bModFee := double (if fUseBDescendants then b.nModFeesWithDescendants else b.getModifiedFee)
  let bSize := double (if fUseBDescendants then b.nSizeWithDescendants else b.nTxSize)
  let f1 := double (aModFee * bSize)
  let f2 := double (aSize * bModFee)
  if f1 = f2 then decide (a.nTime ≥ b.nTime) else decide (f1 < f2)

def compareTxMemPoolEntryByScore (a b : CTxMemPoolEntry) : Bool :=
  let f1 := double (double a.getModifiedFee * double b.nTxSize)
  let f2 := double (double b.getModifiedFee * double a.nTxSize)
  if f1 = f2 then decide (hashKey b.tx.hash < hashKey a.tx.hash) else decide (f1 > f2)

def compareTxMemPoolEntryByEntryTime (a b : CTxMemPoolEntry) : Bool := decide (a.nTime < b.nTime)

/-- The entries of a pool that `double` is exact on: sizes positive, and no product of a fee and a size as large as 2^53. -/
structure Fits (pool : List CTxMemPoolEntry) : Prop where
  exact : ∀ number : Int, |number| ≤ 2 ^ 53 → double number = number
  sized : ∀ a ∈ pool, 0 < a.nTxSize ∧ (a.nTxSize : Int) ≤ a.nSizeWithDescendants
  products : ∀ a ∈ pool, ∀ b ∈ pool, ∀ fee ∈ [a.getModifiedFee, a.nModFeesWithDescendants],
    ∀ size ∈ [(b.nTxSize : Int), b.nSizeWithDescendants], |fee * size| < 2 ^ 53

/-- What an ordered index asks of its comparison, over the entries it holds. -/
structure StrictWeakOn (pool : List CTxMemPoolEntry) (compare : CTxMemPoolEntry → CTxMemPoolEntry → Bool) : Prop where
  irrefl : ∀ a ∈ pool, compare a a = false
  asymm : ∀ a ∈ pool, ∀ b ∈ pool, compare a b = true → compare b a = false
  trans : ∀ a ∈ pool, ∀ b ∈ pool, ∀ c ∈ pool, compare a b = true → compare b c = true → compare a c = true
  level : ∀ a ∈ pool, ∀ b ∈ pool, ∀ c ∈ pool, compare a b = false → compare b a = false → compare b c = false →
    compare c b = false → compare a c = false ∧ compare c a = false

section Orders
variable {double : Int → Int} {pool : List CTxMemPoolEntry} {compare : CTxMemPoolEntry → CTxMemPoolEntry → Bool}

theorem strictWeakOn_key {K : Type} [LinearOrder K] (key : CTxMemPoolEntry → K)
    (before : ∀ a ∈ pool, ∀ b ∈ pool, compare a b = true ↔ key a < key b) : StrictWeakOn pool compare := by
  have after (a) (inside : a ∈ pool) (b) (inside' : b ∈ pool) : compare a b = false ↔ key b ≤ key a := by
    rw [← Bool.not_eq_true, before a inside b inside', not_lt]
  constructor
  · intro a inA
    exact (after a inA a inA).mpr le_rfl
  · intro a inA b inB less
    exact (after b inB a inA).mpr (le_of_lt ((before a inA b inB).mp less))
  · intro a inA b inB c inC less less'
    exact (before a inA c inC).mpr (lt_trans ((before a inA b inB).mp less) ((before b inB c inC).mp less'))
  · intro a inA b inB c inC ab ba bc cb
    rw [after a inA b inB] at ab
    rw [after b inB a inA] at ba
    rw [after b inB c inC] at bc
    rw [after c inC b inB] at cb
    exact ⟨(after a inA c inC).mpr (le_trans bc ab), (after c inC a inA).mpr (le_trans ba cb)⟩

theorem fraction_lt {fee fee' size size' : Int} (positive : 0 < size) (positive' : 0 < size') :
    (fee : ℚ) / size < fee' / size' ↔ fee * size' < size * fee' := by
  rw [div_lt_div_iff₀ (by exact_mod_cast positive) (by exact_mod_cast positive'), mul_comm (fee' : ℚ)]
  exact_mod_cast Iff.rfl

theorem fraction_eq {fee fee' size size' : Int} (positive : 0 < size) (positive' : 0 < size') :
    (fee : ℚ) / size = fee' / size' ↔ fee * size' = size * fee' := by
  rw [div_eq_div_iff (by exact_mod_cast positive.ne') (by exact_mod_cast positive'.ne'), mul_comm (fee' : ℚ)]
  exact_mod_cast Iff.rfl

/-- A product below 2^53 of a fee and a positive size is exact, its factors rounded or not. -/
theorem Fits.product (fits : Fits double pool) {fee size : Int} (positive : 0 < size) (small : |fee * size| < 2 ^ 53) :
    double (double fee * double size) = fee * size := by
  by_cases free : fee = 0
  · have zero : double 0 = 0 := fits.exact 0 (by decide)
    rw [free, zero, zero_mul, zero_mul, zero]
  · have one : 1 ≤ |fee| := Int.one_le_abs free
    rw [abs_mul] at small
    have feeFits : |fee| ≤ 2 ^ 53 := le_trans (le_mul_of_one_le_right (abs_nonneg fee) (Int.one_le_abs positive.ne')) small.le
    have sizeFits : |size| ≤ 2 ^ 53 := le_trans (le_mul_of_one_le_left (abs_nonneg size) one) small.le
    rw [fits.exact fee feeFits, fits.exact size sizeFits, fits.exact _ (by rw [abs_mul]; exact small.le)]

/-- The larger of the entry's own score and that with all its descendants. -/
def score (a : CTxMemPoolEntry) : ℚ :=
  max ((a.getModifiedFee : ℚ) / (a.nTxSize : Int)) (a.nModFeesWithDescendants / a.nSizeWithDescendants)

/-- The fee and the size that an entry is compared by. -/
def chosen (a : CTxMemPoolEntry) : Int × Int :=
  if useDescendantScore double a then (a.nModFeesWithDescendants, a.nSizeWithDescendants) else (a.getModifiedFee, a.nTxSize)

variable {a : CTxMemPoolEntry}

theorem Fits.chosen_mem (fits : Fits double pool) (inside : a ∈ pool) :
    (@chosen double a).1 ∈ [a.getModifiedFee, a.nModFeesWithDescendants] ∧
      (@chosen double a).2 ∈ [(a.nTxSize : Int), a.nSizeWithDescendants] ∧ 0 < (@chosen double a).2 := by
  have sized := fits.sized a inside
  rw [chosen]
  split
  · exact ⟨.tail _ (.head _), .tail _ (.head _), by dsimp only; omega⟩
  · exact ⟨.head _, .head _, by dsimp only; omega⟩

theorem Fits.score_eq (fits : Fits double pool) (inside : a ∈ pool) :
    score a = ((@chosen double a).1 : ℚ) / (@chosen double a).2 := by
  have sized := fits.sized a inside
  have own : (0 : Int) < a.nTxSize := by omega
  have all : 0 < a.nSizeWithDescendants := by omega
  have uses : useDescendantScore double a = true ↔
      (a.getModifiedFee : ℚ) / (a.nTxSize : Int) < a.nModFeesWithDescendants / a.nSizeWithDescendants := by
    rw [useDescendantScore, decide_eq_true_eq, fits.product all (fits.products a inside a inside _ (.head _) _ (.tail _ (.head _))),
      fits.product own (fits.products a inside a inside _ (.tail _ (.head _)) _ (.head _)), fraction_lt own all,
      mul_comm a.nModFeesWithDescendants]
  rw [score, chosen]
  split
  · next yes => exact max_eq_right (uses.mp yes).le
  · next no => exact max_eq_left (not_lt.mp (mt uses.mpr no))

variable {b : CTxMemPoolEntry}

theorem Fits.byDescendantScore_iff (fits : Fits double pool) (inA : a ∈ pool) (inB : b ∈ pool) :
    compareTxMemPoolEntryByDescendantScore double a b = true ↔ score a < score b ∨ score a = score b ∧ a.nTime ≥ b.nTime := by
  obtain ⟨feeA, sizeA, positiveA⟩ := fits.chosen_mem inA
  obtain ⟨feeB, sizeB, positiveB⟩ := fits.chosen_mem inB
  have left := fits.product positiveB (fits.products a inA b inB _ feeA _ sizeB)
  have right := fits.product positiveA (fits.products b inB a inA _ feeB _ sizeA)
  rw [mul_comm, mul_comm (@chosen double b).1] at right
  have shape : compareTxMemPoolEntryByDescendantScore double a b =
      if double (double (@chosen double a).1 * double (@chosen double b).2) =
          double (double (@chosen double a).2 * double (@chosen double b).1) then decide (a.nTime ≥ b.nTime)
      else decide (double (double (@chosen double a).1 * double (@chosen double b).2) <
        double (double (@chosen double a).2 * double (@chosen double b).1)) := by
    simp only [compareTxMemPoolEntryByDescendantScore, chosen, apply_ite Prod.fst, apply_ite Prod.snd]
  rw [shape, left, right, fits.score_eq inA, fits.score_eq inB, fraction_lt positiveA positiveB, fraction_eq positiveA positiveB]
  split
  · next tie => simp [tie]
  · next apart => simp [apart]

theorem Fits.byScore_iff (fits : Fits double pool) (inA : a ∈ pool) (inB : b ∈ pool) :
    compareTxMemPoolEntryByScore double a b = true ↔
      (toLex ((b.getModifiedFee : ℚ) / (b.nTxSize : Int), hashKey b.tx.hash) : ℚ ×ₗ ℕ) <
        toLex ((a.getModifiedFee : ℚ) / (a.nTxSize : Int), hashKey a.tx.hash) := by
  have sizeA := (fits.sized a inA).1
  have sizeB := (fits.sized b inB).1
  have left := fits.product (Int.natCast_pos.mpr sizeB) (fits.products a inA b inB _ (.head _) _ (.head _))
  have right := fits.product (Int.natCast_pos.mpr sizeA) (fits.products b inB a inA _ (.head _) _ (.head _))
  rw [Prod.Lex.toLex_lt_toLex, fraction_lt (Int.natCast_pos.mpr sizeB) (Int.natCast_pos.mpr sizeA),
    fraction_eq (Int.natCast_pos.mpr sizeB) (Int.natCast_pos.mpr sizeA), mul_comm (b.nTxSize : Int)]
  simp only [compareTxMemPoolEntryByScore, left, right]
  split
  · next tie => simp [tie]
  · next apart => simp [Ne.symm apart]

/-- Equal scores and equal times: each of the two is then before the other. -/
def Tied (a b : CTxMemPoolEntry) : Prop := score a = score b ∧ a.nTime = b.nTime

theorem Fits.asymm_iff (fits : Fits double pool) (inA : a ∈ pool) (inB : b ∈ pool) :
    (compareTxMemPoolEntryByDescendantScore double a b = true → compareTxMemPoolEntryByDescendantScore double b a = false) ↔
      ¬ Tied a b := by
  rw [← Bool.not_eq_true, fits.byDescendantScore_iff inA inB, fits.byDescendantScore_iff inB inA, Tied]
  constructor
  · rintro apart ⟨level, together⟩
    exact apart (.inr ⟨level, together.symm.le⟩) (.inr ⟨level.symm, together.le⟩)
  · rintro apart (less | ⟨level, late⟩) (less' | ⟨level', late'⟩)
    · exact lt_asymm less less'
    · exact less.ne level'.symm
    · exact less'.ne level.symm
    · exact apart ⟨level, le_antisymm late' late⟩

theorem Fits.byDescendantScore_trans (fits : Fits double pool) {c : CTxMemPoolEntry} (inA : a ∈ pool) (inB : b ∈ pool)
    (inC : c ∈ pool) (first : compareTxMemPoolEntryByDescendantScore double a b = true)
    (second : compareTxMemPoolEntryByDescendantScore double b c = true) :
    compareTxMemPoolEntryByDescendantScore double a c = true := by
  rw [fits.byDescendantScore_iff inA inB] at first
  rw [fits.byDescendantScore_iff inB inC] at second
  rw [fits.byDescendantScore_iff inA inC]
  rcases first with less | ⟨level, late⟩
  · rcases second with less' | ⟨level', -⟩
    · exact .inl (lt_trans less less')
    · exact .inl (level' ▸ less)
  · rcases second with less' | ⟨level', late'⟩
    · exact .inl (level ▸ less')
    · exact .inr ⟨level.trans level', le_trans late' late⟩

/-- The comparison by descendant score has `>=` where the others are strict, so an entry is before itself. -/
theorem orders_strict_iff (fits : Fits double pool) :
    (StrictWeakOn pool (compareTxMemPoolEntryByDescendantScore double) ∧ StrictWeakOn pool (compareTxMemPoolEntryByScore double) ∧
      StrictWeakOn pool compareTxMemPoolEntryByEntryTime ↔ pool = []) ∧
    (∀ a ∈ pool, ∀ b ∈ pool, (compareTxMemPoolEntryByDescendantScore double a b = true →
      compareTxMemPoolEntryByDescendantScore double b a = false) ↔ ¬ Tied a b) ∧
    (∀ a ∈ pool, ∀ b ∈ pool, ∀ c ∈ pool, compareTxMemPoolEntryByDescendantScore double a b = true →
      compareTxMemPoolEntryByDescendantScore double b c = true → compareTxMemPoolEntryByDescendantScore double a c = true) ∧
    StrictWeakOn pool (compareTxMemPoolEntryByScore double) ∧ StrictWeakOn pool compareTxMemPoolEntryByEntryTime := by
  have byScore : StrictWeakOn pool (compareTxMemPoolEntryByScore double) :=
    strictWeakOn_key (fun a => OrderDual.toDual (toLex ((a.getModifiedFee : ℚ) / (a.nTxSize : Int), hashKey a.tx.hash)))
      fun a inA b inB => fits.byScore_iff inA inB
  have byTime : StrictWeakOn pool compareTxMemPoolEntryByEntryTime :=
    strictWeakOn_key CTxMemPoolEntry.nTime fun a _ b _ => decide_eq_true_iff
  refine ⟨⟨fun strict => ?_, ?_⟩, fun a inA b inB => fits.asymm_iff inA inB,
    fun a inA b inB c inC => fits.byDescendantScore_trans inA inB inC, byScore, byTime⟩
  · cases pool with
    | nil => rfl
    | cons a pool => exact absurd ⟨rfl, rfl⟩ ((fits.asymm_iff (.head _) (.head _)).mp fun _ => strict.1.irrefl a (.head _))
  · rintro rfl
    exact ⟨by constructor <;> simp, byScore, byTime⟩

def plainEntry : CTxMemPoolEntry where
  tx := { hash := 1, vin := [], vout := [] }
  nFee := 100
  nTxSize := 200
  nSizeWithDescendants := 200
  nModFeesWithDescendants := 100

def samplePool : List CTxMemPoolEntry := [plainEntry, { plainEntry with tx := { hash := 2, vin := [], vout := [] }, nFee := 50 }]

theorem fits_plainEntry : Fits id samplePool where
  exact number _ := rfl
  sized := by decide
  products := by simp [samplePool, plainEntry, CTxMemPoolEntry.getModifiedFee]

theorem orders_strict_iff_plainEntry : ¬ (StrictWeakOn samplePool (compareTxMemPoolEntryByDescendantScore id) ∧
    StrictWeakOn samplePool (compareTxMemPoolEntryByScore id) ∧ StrictWeakOn samplePool compareTxMemPoolEntryByEntryTime) :=
  fun strict => List.cons_ne_nil _ _ ((orders_strict_iff fits_plainEntry).1.mp strict)

theorem before_itself : Fits id samplePool ∧ compareTxMemPoolEntryByDescendantScore id plainEntry plainEntry = true ∧
    ¬ StrictWeakOn samplePool (compareTxMemPoolEntryByDescendantScore id) := by
  have before : compareTxMemPoolEntryByDescendantScore id plainEntry plainEntry = true := by decide
  refine ⟨fits_plainEntry, before, fun strict => ?_⟩
  rw [strict.irrefl plainEntry (.head _)] at before
  cases before

end Orders
end Longcoin.Mempool
