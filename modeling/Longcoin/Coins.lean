import Mathlib.Data.List.DropRight
import Longcoin.Primitives

/-! `CCoins` from `coins.h`: the unspent outputs of one transaction with its
height, version and coinbase flag. -/

namespace Longcoin.Coins
open Primitives List

structure CCoins where
  fCoinBase : Bool := false
  vout : List CTxOut := []
  nHeight : Nat := 0
  nVersion : Int := 0
deriving DecidableEq, Repr

namespace CCoins

/-- Remove spent outputs at the end of `vout`. -/
def cleanup (coins : CCoins) : CCoins := { coins with vout := coins.vout.rdropWhile CTxOut.isNull }

def clear (_ : CCoins) : CCoins := {}

def clearUnspendable (coins : CCoins) : CCoins :=
  cleanup { coins with vout := coins.vout.map fun out => if out.scriptPubKey.isUnspendable then .setNull else out }

def fromTx (tx : CTransaction) (nHeight : Nat) : CCoins :=
  clearUnspendable { fCoinBase := tx.isCoinBase, vout := tx.vout, nHeight, nVersion := tx.nVersion }

def isAvailable (coins : CCoins) (nPos : Nat) : Bool :=
  match coins.vout[nPos]? with
  | some out => !out.isNull
  | none => false

def isPruned (coins : CCoins) : Bool := coins.vout.all CTxOut.isNull

/-- `CCoins::Spend`: false, and no change, when the output is not there. -/
def spend (coins : CCoins) (nPos : Nat) : Bool × CCoins :=
  if coins.isAvailable nPos then (true, cleanup { coins with vout := coins.vout.set nPos .setNull })
  else (false, coins)

/-- `operator==`: empty records are always equal. -/
def beq (a b : CCoins) : Bool :=
  if a.isPruned && b.isPruned then true
  else a.fCoinBase == b.fCoinBase && a.nHeight == b.nHeight && a.nVersion == b.nVersion && a.vout == b.vout

theorem beq_iff (a b : CCoins) : beq a b = true ↔ a.isPruned = true ∧ b.isPruned = true ∨ a = b := by
  unfold beq
  split
  next both => simpa using Or.inl both
  next distinct =>
    rcases a with ⟨_, _, _, _⟩
    rcases b with ⟨_, _, _, _⟩
    simp only [Bool.and_eq_true] at distinct
    simp only [Bool.and_eq_true, beq_iff_eq, mk.injEq, distinct, false_or]
    tauto

/-- The relation `operator==` decides. -/
instance : Setoid CCoins where
  r a b := a.isPruned = true ∧ b.isPruned = true ∨ a = b
  iseqv := {
    refl := fun _ => Or.inr rfl
    symm := by
      rintro a b (both | rfl)
      · exact Or.inl both.symm
      · exact Or.inr rfl
    trans := by
      rintro a b c (first | rfl) (second | rfl)
      · exact Or.inl ⟨first.1, second.2⟩
      · exact Or.inl first
      · exact Or.inl second
      · exact Or.inr rfl }

theorem equiv_iff {a b : CCoins} : a ≈ b ↔ a.isPruned = true ∧ b.isPruned = true ∨ a = b := Iff.rfl

theorem beq_iff_equiv {a b : CCoins} : beq a b = true ↔ a ≈ b := beq_iff a b

theorem equiv_of_pruned {a b : CCoins} (first : a.isPruned = true) (second : b.isPruned = true) : a ≈ b :=
  .inl ⟨first, second⟩

theorem equiv_isPruned {a b : CCoins} (same : a ≈ b) : a.isPruned = b.isPruned := by
  rcases same with both | rfl
  · rw [both.1, both.2]
  · rfl

variable {coins : CCoins}

theorem isAvailable_isPruned {nPos : Nat} (available : coins.isAvailable nPos = true) : coins.isPruned = false := by
  unfold isAvailable at available
  split at available
  next out found =>
    have member := mem_of_getElem? found
    simp only [isPruned, all_eq_false]
    exact ⟨out, member, by simpa using available⟩
  next => simp at available

theorem exists_isAvailable (unspent : coins.isPruned = false) : ∃ nPos, coins.isAvailable nPos = true := by
  simp only [isPruned, all_eq_false] at unspent
  obtain ⟨out, member, live⟩ := unspent
  obtain ⟨nPos, found⟩ := mem_iff_getElem?.mp member
  exact ⟨nPos, by simpa [isAvailable, found] using live⟩

@[simp] theorem isPruned_empty : ({} : CCoins).isPruned = true := rfl

/-- No spent output at the end: what `Cleanup` leaves behind and what every stored record satisfies. -/
def Clean (coins : CCoins) : Prop := coins.cleanup = coins

instance (coins : CCoins) : Decidable coins.Clean := inferInstanceAs (Decidable (_ = _))

theorem clean_cleanup (coins : CCoins) : coins.cleanup.Clean := by
  simp [Clean, cleanup, rdropWhile_idempotent]

theorem clean_empty : Clean {} := rfl

private theorem rdropWhile_all {α : Type} (p : α → Bool) (xs : List α) : (xs.rdropWhile p).all p = xs.all p := by
  induction xs using reverseRecOn with
  | nil => rfl
  | append_singleton xs x ih =>
    by_cases last : p x = true
    · rw [rdropWhile_concat_pos _ _ _ last, ih]
      simp [last]
    · rw [rdropWhile_concat_neg _ _ _ last]

@[simp] theorem isPruned_cleanup (coins : CCoins) : coins.cleanup.isPruned = coins.isPruned :=
  rdropWhile_all CTxOut.isNull coins.vout

theorem vout_isEmpty_of_clean (clean : coins.Clean) : coins.vout.isEmpty = coins.isPruned := by
  have same : coins.vout.rdropWhile CTxOut.isNull = coins.vout := congrArg CCoins.vout clean
  cases pruned : coins.isPruned with
  | false =>
    rw [isEmpty_eq_false_iff]
    rintro empty
    simp [isPruned, empty] at pruned
  | true =>
    have all : ∀ out ∈ coins.vout, out.isNull = true := by simpa [isPruned] using pruned
    rw [← same, rdropWhile_eq_nil_iff.mpr all]
    rfl

/-- The output at `nPos`, if it is unspent. -/
def unspentOut (coins : CCoins) (nPos : Nat) : Option CTxOut := coins.vout[nPos]?.filter fun out => !out.isNull

theorem unspentOut_eq_some {nPos : Nat} {out : CTxOut} :
    coins.unspentOut nPos = some out ↔ coins.vout[nPos]? = some out ∧ out.isNull = false := by
  simp [unspentOut, Option.filter_eq_some_iff]

theorem isAvailable_eq (coins : CCoins) (nPos : Nat) : coins.isAvailable nPos = (coins.unspentOut nPos).isSome := by
  unfold isAvailable unspentOut
  cases coins.vout[nPos]? with
  | none => rfl
  | some out => cases null : out.isNull <;> simp [Option.filter, null]

theorem unspentOut_of_pruned (pruned : coins.isPruned = true) (nPos : Nat) : coins.unspentOut nPos = none := by
  cases found : coins.unspentOut nPos with
  | none => rfl
  | some out =>
    have available : coins.isAvailable nPos = true := by rw [isAvailable_eq, found]; rfl
    simp [isAvailable_isPruned available] at pruned

theorem isPruned_iff_unspentOut : coins.isPruned = true ↔ ∀ nPos, coins.unspentOut nPos = none := by
  constructor
  · exact fun pruned nPos => unspentOut_of_pruned pruned nPos
  · intro none
    by_contra unspent
    obtain ⟨nPos, available⟩ := exists_isAvailable (Bool.not_eq_true _ ▸ unspent)
    simp [isAvailable_eq, none nPos] at available

private theorem filter_rdropWhile (vout : List CTxOut) (nPos : Nat) :
    (vout.rdropWhile CTxOut.isNull)[nPos]?.filter (fun out => !out.isNull) = vout[nPos]?.filter fun out => !out.isNull := by
  induction vout using reverseRecOn with
  | nil => rfl
  | append_singleton vout out ih =>
    by_cases null : out.isNull = true
    · rw [rdropWhile_concat_pos _ _ _ null, ih]
      rcases lt_trichotomy nPos vout.length with inside | rfl | outside
      · rw [getElem?_append_left inside]
      · simp [null, Option.filter]
      · rw [getElem?_eq_none (by omega), getElem?_eq_none (by simp; omega)]
    · rw [rdropWhile_concat_neg _ _ _ null]

@[simp] theorem unspentOut_cleanup (coins : CCoins) (nPos : Nat) :
    coins.cleanup.unspentOut nPos = coins.unspentOut nPos := filter_rdropWhile coins.vout nPos

theorem unspentOut_spend (coins : CCoins) (n nPos : Nat) :
    (coins.spend n).2.unspentOut nPos = if nPos = n then none else coins.unspentOut nPos := by
  cases available : coins.isAvailable n with
  | false =>
    simp only [spend, available, Bool.false_eq_true, if_false]
    split_ifs with same
    · subst same
      rwa [isAvailable_eq, Option.isSome_eq_false_iff, Option.isNone_iff_eq_none] at available
    · rfl
  | true =>
    simp only [spend, available, if_true, unspentOut_cleanup]
    simp only [unspentOut, getElem?_set]
    by_cases same : nPos = n
    · subst same
      rw [if_pos rfl, if_pos rfl]
      split_ifs <;> rfl
    · rw [if_neg (Ne.symm same), if_neg same]

theorem unspentOut_fromTx (tx : CTransaction) (nHeight nPos : Nat) : (fromTx tx nHeight).unspentOut nPos =
      tx.vout[nPos]?.filter fun out => !out.scriptPubKey.isUnspendable && !out.isNull := by
  rw [fromTx, clearUnspendable, unspentOut_cleanup]
  simp only [unspentOut, getElem?_map]
  cases tx.vout[nPos]? with
  | none => rfl
  | some out => by_cases unspendable : out.scriptPubKey.isUnspendable = true <;> simp [unspendable, Option.filter]

end CCoins

end Longcoin.Coins
