import Mathlib.Data.BitVec

/-! Merkle trees in which a missing right half is replaced by the left one. What the root says about
the leaves, as long as no two different pairs that were hashed have one hash. -/

namespace Longcoin.Library.MerkleTree
open List Bool

variable {α : Type}

/-- The root of the tree of a given height; a list that fits in the left half stands for both. -/
def root [Inhabited α] (hash : α → α → α) : Nat → List α → α
  | 0, leaves => leaves.headD default
  | height + 1, leaves =>
      if leaves.length ≤ 2 ^ height then hash (root hash height leaves) (root hash height leaves)
      else hash (root hash height (leaves.take (2 ^ height))) (root hash height (leaves.drop (2 ^ height)))

def repeats [DecidableEq α] [Inhabited α] (hash : α → α → α) : Nat → List α → Bool
  | 0, _ => false
  | height + 1, leaves =>
      if leaves.length ≤ 2 ^ height then repeats hash height leaves
      else repeats hash height (leaves.take (2 ^ height)) || repeats hash height (leaves.drop (2 ^ height)) ||
        (leaves.length == 2 ^ (height + 1) &&
          root hash height (leaves.take (2 ^ height)) == root hash height (leaves.drop (2 ^ height)))

def pairs [Inhabited α] (hash : α → α → α) : Nat → List α → List (α × α)
  | 0, _ => []
  | height + 1, leaves =>
      if leaves.length ≤ 2 ^ height then
        (root hash height leaves, root hash height leaves) :: pairs hash height leaves
      else (root hash height (leaves.take (2 ^ height)), root hash height (leaves.drop (2 ^ height))) ::
        (pairs hash height (leaves.take (2 ^ height)) ++ pairs hash height (leaves.drop (2 ^ height)))

/-- The height of the tree over a list: the least with room for it. -/
def IsHeight (height : Nat) (leaves : List α) : Prop := leaves.length ≤ 2 ^ height ∧ 2 ^ height < 2 * leaves.length

/-- No two different pairs of the collection have one hash. -/
def CollisionFree (hash : α → α → α) (collection : List (α × α)) : Prop :=
  ∀ one ∈ collection, ∀ two ∈ collection, hash one.1 one.2 = hash two.1 two.2 → one = two

def Fresh (hash : α → α → α) (collection : List (α × α)) (leaves : List α) : Prop :=
  ∀ pair ∈ collection, ∀ leaf ∈ leaves, hash pair.1 pair.2 ≠ leaf

instance [DecidableEq α] (hash : α → α → α) (collection : List (α × α)) : Decidable (CollisionFree hash collection) :=
  inferInstanceAs (Decidable (∀ one ∈ collection, ∀ two ∈ collection, _ → one = two))

instance [DecidableEq α] (hash : α → α → α) (collection : List (α × α)) (leaves : List α) : Decidable (Fresh hash collection leaves) :=
  inferInstanceAs (Decidable (∀ pair ∈ collection, ∀ leaf ∈ leaves, _ ≠ leaf))

variable {hash : α → α → α}

theorem CollisionFree.subset {collection part : List (α × α)} (free : CollisionFree hash collection)
    (inside : part ⊆ collection) : CollisionFree hash part :=
  fun one oneMember two twoMember => free one (inside oneMember) two (inside twoMember)

variable {leaves : List α}

theorem Fresh.subset {collection part : List (α × α)} {some : List α} (fresh : Fresh hash collection leaves)
    (inside : part ⊆ collection) (fewer : some ⊆ leaves) : Fresh hash part some :=
  fun pair pairMember leaf leafMember => fresh pair (inside pairMember) leaf (fewer leafMember)

/-- Both halves, where the left one stands in for a right one that is missing. -/
def halves (height : Nat) (leaves : List α) : List α × List α :=
  if leaves.length ≤ 2 ^ height then (leaves, leaves) else (leaves.take (2 ^ height), leaves.drop (2 ^ height))

theorem halves_fit {height : Nat} (nonempty : leaves ≠ []) (fits : leaves.length ≤ 2 ^ (height + 1)) :
    ((halves height leaves).1 ≠ [] ∧ (halves height leaves).1.length ≤ 2 ^ height) ∧
      (halves height leaves).2 ≠ [] ∧ (halves height leaves).2.length ≤ 2 ^ height := by
  rw [halves]
  have positive : 0 < leaves.length := length_pos_iff.mpr nonempty
  have power : 0 < 2 ^ height := Nat.two_pow_pos height
  rw [Nat.pow_succ] at fits
  split_ifs with short
  · exact ⟨⟨nonempty, short⟩, nonempty, short⟩
  · refine ⟨⟨?_, ?_⟩, ?_, ?_⟩
    · rw [← length_pos_iff, length_take]
      omega
    · rw [length_take]
      omega
    · rw [← length_pos_iff, length_drop]
      omega
    · rw [length_drop]
      omega

theorem halves_subset (height : Nat) (leaves : List α) :
    (halves height leaves).1 ⊆ leaves ∧ (halves height leaves).2 ⊆ leaves := by
  rw [halves]
  split_ifs
  · exact ⟨Subset.refl _, Subset.refl _⟩
  · exact ⟨take_subset _ _, drop_subset _ _⟩

variable [Inhabited α]

theorem root_succ (height : Nat) (leaves : List α) : root hash (height + 1) leaves =
      hash (root hash height (halves height leaves).1) (root hash height (halves height leaves).2) := by
  rw [root, halves]
  split_ifs <;> rfl

theorem mem_pairs_succ (height : Nat) (leaves : List α) :
    (root hash height (halves height leaves).1, root hash height (halves height leaves).2) ∈ pairs hash (height + 1) leaves := by
  rw [pairs, halves]
  split_ifs <;> exact mem_cons_self

theorem pairs_halves (height : Nat) (leaves : List α) :
    pairs hash height (halves height leaves).1 ⊆ pairs hash (height + 1) leaves ∧
      pairs hash height (halves height leaves).2 ⊆ pairs hash (height + 1) leaves := by
  rw [pairs, halves]
  split_ifs
  · exact ⟨subset_cons_self _ _, subset_cons_self _ _⟩
  · exact ⟨fun pair member => mem_cons_of_mem _ (mem_append_left _ member),
      fun pair member => mem_cons_of_mem _ (mem_append_right _ member)⟩

theorem root_zero (nonempty : leaves ≠ []) (fits : leaves.length ≤ 2 ^ 0) :
    leaves = [root hash 0 leaves] := by
  cases leaves with
  | nil => exact absurd rfl nonempty
  | cons leaf rest =>
    cases rest with
    | nil => rfl
    | cons other rest => simp at fits

theorem root_zero_mem (nonempty : leaves ≠ []) : root hash 0 leaves ∈ leaves := by
  cases leaves with
  | nil => exact absurd rfl nonempty
  | cons leaf rest => exact mem_cons_self

theorem height_eq (first second : Nat) : ∀ (one two : List α), one ≠ [] → two ≠ [] → one.length ≤ 2 ^ first →
    two.length ≤ 2 ^ second → CollisionFree hash (pairs hash first one ++ pairs hash second two) →
    Fresh hash (pairs hash first one ++ pairs hash second two) (one ++ two) →
    root hash first one = root hash second two → first = second := by
  induction first generalizing second with
  | zero =>
    intro one two oneNonempty twoNonempty oneFits twoFits free fresh same
    cases second with
    | zero => rfl
    | succ second =>
      rw [root_succ second two] at same
      refine absurd same.symm (fresh _ (mem_append_right _ (mem_pairs_succ second two)) _ ?_)
      exact mem_append_left _ (root_zero_mem oneNonempty)
  | succ first ih =>
    intro one two oneNonempty twoNonempty oneFits twoFits free fresh same
    cases second with
    | zero =>
      rw [root_succ first one] at same
      refine absurd same (fresh _ (mem_append_left _ (mem_pairs_succ first one)) _ ?_)
      exact mem_append_right _ (root_zero_mem twoNonempty)
    | succ second =>
      rw [root_succ, root_succ] at same
      have pair := free _ (mem_append_left _ (mem_pairs_succ first one)) _
        (mem_append_right _ (mem_pairs_succ second two)) same
      have inside := append_subset.mpr ⟨Subset.trans (@pairs_halves α hash _ first one).1 (subset_append_left _ _),
        Subset.trans (@pairs_halves α hash _ second two).1 (subset_append_right _ _)⟩
      have fewer := append_subset.mpr ⟨Subset.trans (halves_subset first one).1 (subset_append_left one two),
        Subset.trans (halves_subset second two).1 (subset_append_right one two)⟩
      have oneHalf := (halves_fit oneNonempty oneFits).1
      have twoHalf := (halves_fit twoNonempty twoFits).1
      exact congrArg (· + 1) (ih second (halves first one).1 (halves second two).1 oneHalf.1 twoHalf.1 oneHalf.2 twoHalf.2
        (free.subset inside) (fresh.subset inside fewer) (Prod.mk.inj pair).1)

variable [DecidableEq α]

theorem repeats_halves {height : Nat} (distinct : repeats hash (height + 1) leaves = false) :
    repeats hash height (halves height leaves).1 = false ∧ repeats hash height (halves height leaves).2 = false := by
  rw [repeats] at distinct
  rw [halves]
  split_ifs at distinct ⊢
  · exact ⟨distinct, distinct⟩
  · rw [or_eq_false_iff, or_eq_false_iff] at distinct
    exact distinct.1

theorem no_mixed_halves {height : Nat} {one two : List α} (long : ¬two.length ≤ 2 ^ height) (fits : two.length ≤ 2 ^ (height + 1))
    (distinct : repeats hash (height + 1) two = false) (left : one = two.take (2 ^ height))
    (right : one = two.drop (2 ^ height)) : False := by
  have lengths := congrArg length (left.symm.trans right)
  rw [length_take, length_drop] at lengths
  rw [repeats, if_neg long, or_eq_false_iff, ← left, ← right] at distinct
  have complete : two.length = 2 ^ (height + 1) := by
    rw [Nat.pow_succ] at fits ⊢
    omega
  have flagged := distinct.2
  rw [complete] at flagged
  simp at flagged

theorem leaves_eq (height : Nat) : ∀ one two : List α, one ≠ [] → two ≠ [] → one.length ≤ 2 ^ height →
    two.length ≤ 2 ^ height → CollisionFree hash (pairs hash height one ++ pairs hash height two) →
    repeats hash height one = false → repeats hash height two = false →
    root hash height one = root hash height two → one = two := by
  induction height with
  | zero =>
    intro one two oneNonempty twoNonempty oneFits twoFits _ _ _ same
    rw [root_zero oneNonempty oneFits, root_zero twoNonempty twoFits, same]
  | succ height ih =>
    intro one two oneNonempty twoNonempty oneFits twoFits free oneDistinct twoDistinct same
    rw [root_succ, root_succ] at same
    have pair := Prod.mk.inj (free _ (mem_append_left _ (mem_pairs_succ height one)) _
      (mem_append_right _ (mem_pairs_succ height two)) same)
    obtain ⟨oneLeft, oneRight⟩ := halves_fit oneNonempty oneFits
    obtain ⟨twoLeft, twoRight⟩ := halves_fit twoNonempty twoFits
    obtain ⟨oneLeftPairs, oneRightPairs⟩ := @pairs_halves α hash _ height one
    obtain ⟨twoLeftPairs, twoRightPairs⟩ := @pairs_halves α hash _ height two
    have inside {first second : List (α × α)} (oneInside : first ⊆ pairs hash (height + 1) one)
        (twoInside : second ⊆ pairs hash (height + 1) two) :
        first ++ second ⊆ pairs hash (height + 1) one ++ pairs hash (height + 1) two :=
      append_subset.mpr ⟨Subset.trans oneInside (subset_append_left _ _),
        Subset.trans twoInside (subset_append_right _ _)⟩
    have left := ih _ _ oneLeft.1 twoLeft.1 oneLeft.2 twoLeft.2 (free.subset (inside oneLeftPairs twoLeftPairs))
      (repeats_halves oneDistinct).1 (repeats_halves twoDistinct).1 pair.1
    have right := ih _ _ oneRight.1 twoRight.1 oneRight.2 twoRight.2 (free.subset (inside oneRightPairs twoRightPairs))
      (repeats_halves oneDistinct).2 (repeats_halves twoDistinct).2 pair.2
    by_cases oneShort : one.length ≤ 2 ^ height
    · by_cases twoShort : two.length ≤ 2 ^ height
      · rw [halves, halves, if_pos oneShort, if_pos twoShort] at left
        exact left
      · rw [halves, halves, if_pos oneShort, if_neg twoShort] at left right
        exact (no_mixed_halves twoShort twoFits twoDistinct left right).elim
    · by_cases twoShort : two.length ≤ 2 ^ height
      · rw [halves, halves, if_neg oneShort, if_pos twoShort] at left right
        exact (no_mixed_halves oneShort oneFits oneDistinct left.symm right.symm).elim
      · rw [halves, halves, if_neg oneShort, if_neg twoShort] at left right
        rw [← take_append_drop (2 ^ height) one, ← take_append_drop (2 ^ height) two]
        exact congrArg₂ (· ++ ·) left right

end Longcoin.Library.MerkleTree
