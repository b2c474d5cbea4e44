import Longcoin.Merkle
import Longcoin.Library.Segments

/-! Partial merkle trees (`merkleblock.cpp`): what `ExtractMatches` reports is in the list whose root it
returns, and it stays within the bits and hashes it was given. -/

namespace Longcoin.MerkleBlock
open Primitives Library.MerkleTree Library.Segments Merkle List Option

structure CPartialMerkleTree where
  nTransactions : Nat
  vBits : List Bool
  vHash : List Uint256
  fBad : Bool

/-- The locals of `TraverseAndExtract` and `fBad`. `hashed` records which pairs were hashed; the code
has no use for it. -/
structure Cursor where
  fBad : Bool
  nBitsUsed : Nat
  nHashUsed : Nat
  vMatch : List Uint256
  hashed : List (Uint256 × Uint256)

def MAX_BLOCK_SIZE : Nat := 1000000

namespace CPartialMerkleTree

def calcTreeWidth (T : CPartialMerkleTree) (height : Nat) : Nat := (T.nTransactions + 2 ^ height - 1) >>> height

/-- The loop that looks for the height; a shift by 31 or more is undefined. -/
def treeHeight (T : CPartialMerkleTree) : Nat → Nat → Option Nat
  | 0, _ => none
  | shifts + 1, nHeight => if T.calcTreeWidth nHeight > 1 then treeHeight T shifts (nHeight + 1) else some nHeight

/-- `TraverseAndExtract`; `none` would be an index out of range. -/
def traverseAndExtract (hash : Uint256 → Uint256 → Uint256) (T : CPartialMerkleTree) :
    Nat → Nat → Cursor → Option (Uint256 × Cursor)
  | height, pos, c =>
    if c.nBitsUsed ≥ T.vBits.length then some (0, { c with fBad := true })
    else do
      let fParentOfMatch ← T.vBits[c.nBitsUsed]?
      let c := { c with nBitsUsed := c.nBitsUsed + 1 }
      match height with
      | 0 =>
          if c.nHashUsed ≥ T.vHash.length then return (0, { c with fBad := true })
          else do
            let h ← T.vHash[c.nHashUsed]?
            return (h, { c with
              nHashUsed := c.nHashUsed + 1
              vMatch := if fParentOfMatch then c.vMatch ++ [h] else c.vMatch })
      | height + 1 =>
          if !fParentOfMatch then
            if c.nHashUsed ≥ T.vHash.length then return (0, { c with fBad := true })
            else do
              let h ← T.vHash[c.nHashUsed]?
              return (h, { c with nHashUsed := c.nHashUsed + 1 })
          else do
            let (left, c) ← traverseAndExtract hash T height (pos * 2) c
            if pos * 2 + 1 < T.calcTreeWidth height then do
              let (right, c) ← traverseAndExtract hash T height (pos * 2 + 1) c
              return (hash left right, { c with fBad := c.fBad || right == left, hashed := c.hashed ++ [(left, right)] })
            else return (hash left left, { c with hashed := c.hashed ++ [(left, left)] })

/-- `ExtractMatches`: the root, or null for a failure, and what is in `vMatch` then. -/
def extractMatches (hash : Uint256 → Uint256 → Uint256) (T : CPartialMerkleTree) : Option (Uint256 × Cursor) :=
  let c : Cursor := { fBad := T.fBad, nBitsUsed := 0, nHashUsed := 0, vMatch := [], hashed := [] }
  if T.nTransactions = 0 then some (0, c)
  else if T.nTransactions > MAX_BLOCK_SIZE / 60 then some (0, c)
  else if T.vHash.length > T.nTransactions then some (0, c)
  else if T.vBits.length < T.vHash.length then some (0, c)
  else do
    let nHeight ← T.treeHeight 31 0
    let (hashMerkleRoot, c) ← T.traverseAndExtract hash nHeight 0 c
    if c.fBad then return (0, c)
    else if (c.nBitsUsed + 7) / 8 ≠ (T.vBits.length + 7) / 8 then return (0, c)
    else if c.nHashUsed ≠ T.vHash.length then return (0, c)
    else return (hashMerkleRoot, c)

end CPartialMerkleTree

variable {hash : Uint256 → Uint256 → Uint256} {T : CPartialMerkleTree}

/-- The leaves under the node at a height and position. -/
def segment (leaves : List Uint256) (height pos : Nat) : List Uint256 := (leaves.drop (pos * 2 ^ height)).take (2 ^ height)

theorem length_segment (leaves : List Uint256) (height pos : Nat) :
    (segment leaves height pos).length = min (2 ^ height) (leaves.length - pos * 2 ^ height) := length_span leaves height pos

open CPartialMerkleTree

variable {height pos : Nat}

theorem lt_calcTreeWidth : pos < T.calcTreeWidth height ↔ pos * 2 ^ height < T.nTransactions := by
  have power := Nat.two_pow_pos height
  rw [calcTreeWidth, Nat.shiftRight_eq_div_pow, Nat.lt_iff_add_one_le, Nat.le_div_iff_mul_le power,
    Nat.add_mul, Nat.one_mul]
  omega

variable {leaves : List Uint256}

theorem halves_segment :
    (segment leaves (height + 1) pos).take (2 ^ height) = segment leaves height (pos * 2) ∧
      (segment leaves (height + 1) pos).drop (2 ^ height) = segment leaves height (pos * 2 + 1) :=
  ⟨take_span leaves height pos, drop_span leaves height pos⟩

theorem segment_short (short : (segment leaves (height + 1) pos).length ≤ 2 ^ height) :
    segment leaves height (pos * 2) = segment leaves (height + 1) pos := span_short short

theorem wide_iff {α : Type} {items : List α} (length : T.nTransactions = items.length) :
    pos * 2 + 1 < T.calcTreeWidth height ↔ ¬(span items (height + 1) pos).length ≤ 2 ^ height := by
  rw [lt_calcTreeWidth, length, long_iff]

theorem right_iff (length : leaves.length = T.nTransactions) :
    pos * 2 + 1 < T.calcTreeWidth height ↔ ¬(segment leaves (height + 1) pos).length ≤ 2 ^ height := wide_iff length.symm

/-- What a traversal below a node returns, and what it has matched if the hash is that of the real node. -/
structure Extracted (hash : Uint256 → Uint256 → Uint256) (T : CPartialMerkleTree) (height pos : Nat) (c : Cursor)
    (h : Uint256) (c' : Cursor) : Prop where
  hashed : c.hashed ⊆ c'.hashed
  matched : ∀ leaves : List Uint256, leaves.length = T.nTransactions → pos * 2 ^ height < T.nTransactions →
    CollisionFree hash (pairs hash height (segment leaves height pos) ++ c'.hashed) →
    h = root hash height (segment leaves height pos) →
    ∃ new : List Uint256, c'.vMatch = c.vMatch ++ new ∧ new.Sublist (segment leaves height pos)

variable {c : Cursor}

theorem extracted_nothing {c' : Cursor} {h : Uint256} (hashed : c'.hashed = c.hashed) (same : c'.vMatch = c.vMatch) :
    Extracted hash T height pos c h c' := by
  refine ⟨hashed ▸ Subset.refl _, fun _ _ _ _ _ => ⟨[], ?_, nil_sublist _⟩⟩
  rw [same, append_nil]

theorem extracted_leaf {c' : Cursor} {h : Uint256} (hashed : c'.hashed = c.hashed) (fParentOfMatch : Bool)
    (same : c'.vMatch = if fParentOfMatch then c.vMatch ++ [h] else c.vMatch) : Extracted hash T 0 pos c h c' := by
  cases fParentOfMatch with
  | false => exact extracted_nothing hashed same
  | true =>
    refine ⟨hashed ▸ Subset.refl _, fun leaves length inside _ isRoot => ⟨[h], same, ?_⟩⟩
    have fits : (segment leaves 0 pos).length ≤ 2 ^ 0 := by
      rw [length_segment]
      exact Nat.min_le_left _ _
    have nonempty : segment leaves 0 pos ≠ [] := by
      rw [← length_pos_iff, length_segment, length]
      omega
    rw [@root_zero _ hash _ _ nonempty fits, isRoot]

theorem pairs_long (long : ¬leaves.length ≤ 2 ^ height) :
    pairs hash (height + 1) leaves = (root hash height (leaves.take (2 ^ height)), root hash height (leaves.drop (2 ^ height))) ::
      (pairs hash height (leaves.take (2 ^ height)) ++ pairs hash height (leaves.drop (2 ^ height))) := by
  rw [pairs, if_neg long]

theorem pairs_short (short : leaves.length ≤ 2 ^ height) :
    pairs hash (height + 1) leaves = (root hash height leaves, root hash height leaves) :: pairs hash height leaves := by
  rw [pairs, if_pos short]

theorem extracted_both {one two after : Cursor} {left right : Uint256} (first : Extracted hash T height (pos * 2) c left one)
    (second : Extracted hash T height (pos * 2 + 1) one right two) (wide : pos * 2 + 1 < T.calcTreeWidth height)
    (same : after.vMatch = two.vMatch) (hashed : after.hashed = two.hashed ++ [(left, right)]) :
    Extracted hash T (height + 1) pos c (hash left right) after := by
  have inside : two.hashed ⊆ after.hashed := hashed ▸ subset_append_left _ _
  refine ⟨Subset.trans first.hashed (Subset.trans second.hashed inside), ?_⟩
  intro leaves length _ free isRoot
  have long := (right_iff length).mp wide
  obtain ⟨takes, drops⟩ := @halves_segment height pos leaves
  rw [pairs_long long, takes, drops] at free
  rw [root, if_neg long, takes, drops] at isRoot
  have pair := free (left, right) (mem_append_right _ (hashed ▸ mem_append_right _ (mem_singleton.mpr rfl)))
    _ (mem_append_left _ mem_cons_self) isRoot
  obtain ⟨isLeft, isRight⟩ := Prod.mk.inj pair
  have subtree {part : List (Uint256 × Uint256)} {known : List (Uint256 × Uint256)} (small : part ⊆
      pairs hash height (segment leaves height (pos * 2)) ++ pairs hash height (segment leaves height (pos * 2 + 1)))
      (fewer : known ⊆ two.hashed) : CollisionFree hash (part ++ known) := by
    refine free.subset (append_subset.mpr ⟨fun pair member => ?_, fun pair member => ?_⟩)
    · exact mem_append_left _ (mem_cons_of_mem _ (small member))
    · exact mem_append_right _ (inside (fewer member))
  have rightInside := (@lt_calcTreeWidth T height (pos * 2 + 1)).mp wide
  obtain ⟨new, oneMatch, newInside⟩ := first.matched leaves length (by
    rw [Nat.add_mul] at rightInside
    omega) (subtree (subset_append_left _ _) second.hashed) isLeft
  obtain ⟨more, twoMatch, moreInside⟩ := second.matched leaves length rightInside
    (subtree (subset_append_right _ _) (Subset.refl _)) isRight
  refine ⟨new ++ more, by rw [same, twoMatch, oneMatch, append_assoc], ?_⟩
  rw [← take_append_drop (2 ^ height) (segment leaves (height + 1) pos), takes, drops]
  exact newInside.append moreInside

theorem extracted_left {one after : Cursor} {left : Uint256} (first : Extracted hash T height (pos * 2) c left one)
    (narrow : ¬pos * 2 + 1 < T.calcTreeWidth height) (same : after.vMatch = one.vMatch)
    (hashed : after.hashed = one.hashed ++ [(left, left)]) :
    Extracted hash T (height + 1) pos c (hash left left) after := by
  have inside : one.hashed ⊆ after.hashed := hashed ▸ subset_append_left _ _
  refine ⟨Subset.trans first.hashed inside, ?_⟩
  intro leaves length above free isRoot
  have short : (segment leaves (height + 1) pos).length ≤ 2 ^ height := by
    by_contra long
    exact narrow ((right_iff length).mpr long)
  have whole := segment_short short
  rw [pairs_short short] at free
  rw [root, if_pos short] at isRoot
  have pair := free (left, left) (mem_append_right _ (hashed ▸ mem_append_right _ (mem_singleton.mpr rfl)))
    _ (mem_append_left _ mem_cons_self) isRoot
  have room : pos * 2 * 2 ^ height < T.nTransactions := by
    rw [Nat.mul_assoc, ← Nat.pow_succ']
    exact above
  obtain ⟨new, oneMatch, newInside⟩ := first.matched leaves length room (by
    rw [whole]
    refine free.subset (append_subset.mpr ⟨fun pair member => ?_, fun pair member => ?_⟩)
    · exact mem_append_left _ (mem_cons_of_mem _ member)
    · exact mem_append_right _ (inside member)) (by rw [whole]; exact (Prod.mk.inj pair).1)
  exact ⟨new, same.trans oneMatch, whole ▸ newInside⟩

theorem traverse_spec (height : Nat) : ∀ (pos : Nat) (c : Cursor), ∃ h c',
    T.traverseAndExtract hash height pos c = some (h, c') ∧ Extracted hash T height pos c h c' := by
  induction height with
  | zero =>
    intro pos c
    unfold traverseAndExtract
    by_cases noBits : c.nBitsUsed ≥ T.vBits.length
    · exact ⟨0, { c with fBad := true }, if_pos noBits, extracted_nothing rfl rfl⟩
    · obtain ⟨fParentOfMatch, bit⟩ : ∃ bit, T.vBits[c.nBitsUsed]? = some bit := ⟨_, getElem?_eq_getElem (by omega)⟩
      rw [if_neg noBits, bit, bind_eq_bind, bind_some]
      by_cases noHash : c.nHashUsed ≥ T.vHash.length
      · exact ⟨0, { c with fBad := true, nBitsUsed := c.nBitsUsed + 1 }, if_pos noHash, extracted_nothing rfl rfl⟩
      · have bound : c.nHashUsed < T.vHash.length := by omega
        refine ⟨T.vHash[c.nHashUsed], { c with
          nBitsUsed := c.nBitsUsed + 1
          nHashUsed := c.nHashUsed + 1
          vMatch := if fParentOfMatch then c.vMatch ++ [T.vHash[c.nHashUsed]] else c.vMatch }, ?_,
          extracted_leaf rfl _ rfl⟩
        refine (if_neg noHash).trans ?_
        change (T.vHash[c.nHashUsed]?).bind _ = _
        rw [getElem?_eq_getElem bound]
        rfl
  | succ height ih =>
    intro pos c
    unfold traverseAndExtract
    by_cases noBits : c.nBitsUsed ≥ T.vBits.length
    · exact ⟨0, { c with fBad := true }, if_pos noBits, extracted_nothing rfl rfl⟩
    · obtain ⟨fParentOfMatch, bit⟩ : ∃ bit, T.vBits[c.nBitsUsed]? = some bit := ⟨_, getElem?_eq_getElem (by omega)⟩
      rw [if_neg noBits, bit, bind_eq_bind, bind_some]
      cases fParentOfMatch with
      | false =>
        by_cases noHash : c.nHashUsed ≥ T.vHash.length
        · exact ⟨0, { c with fBad := true, nBitsUsed := c.nBitsUsed + 1 }, if_pos noHash, extracted_nothing rfl rfl⟩
        · have bound : c.nHashUsed < T.vHash.length := by omega
          refine ⟨T.vHash[c.nHashUsed], { c with
            nBitsUsed := c.nBitsUsed + 1
            nHashUsed := c.nHashUsed + 1 }, ?_, extracted_nothing rfl rfl⟩
          refine (if_neg noHash).trans ?_
          change (T.vHash[c.nHashUsed]?).bind _ = _
          rw [getElem?_eq_getElem bound]
          rfl
      | true =>
        obtain ⟨left, one, firstResult, first⟩ := ih (pos * 2) { c with nBitsUsed := c.nBitsUsed + 1 }
        have start : Extracted hash T height (pos * 2) c left one := ⟨first.hashed, first.matched⟩
        simp only [Bool.not_true, Bool.false_eq_true, if_false, firstResult, bind_eq_bind, bind_some]
        by_cases wide : pos * 2 + 1 < T.calcTreeWidth height
        · obtain ⟨right, two, secondResult, second⟩ := ih (pos * 2 + 1) one
          rw [if_pos wide, secondResult]
          exact ⟨hash left right, { two with
            fBad := two.fBad || right == left
            hashed := two.hashed ++ [(left, right)] }, rfl, extracted_both start second wide rfl rfl⟩
        · rw [if_neg wide]
          exact ⟨hash left left, { one with hashed := one.hashed ++ [(left, left)] }, rfl,
            extracted_left start wide rfl rfl⟩

theorem calcTreeWidth_le_one : ¬T.calcTreeWidth height > 1 ↔ T.nTransactions ≤ 2 ^ height := by
  have wide := @lt_calcTreeWidth T height 1
  rw [Nat.one_mul] at wide
  rw [gt_iff_lt, wide, not_lt]

theorem treeHeight_spec (shifts : Nat) : ∀ nHeight : Nat, shifts + nHeight = 31 → T.nTransactions ≤ 2 ^ 30 →
    (nHeight = 0 ∨ 2 ^ nHeight < 2 * T.nTransactions) → 0 < T.nTransactions →
    nHeight ≤ 30 → ∃ height, T.treeHeight shifts nHeight = some height ∧ T.nTransactions ≤ 2 ^ height ∧
      2 ^ height < 2 * T.nTransactions := by
  induction shifts with
  | zero => exact fun _ room _ _ _ bounded => absurd room (by omega)
  | succ shifts ih =>
    intro nHeight room small least positive bounded
    rw [treeHeight]
    by_cases wide : T.calcTreeWidth nHeight > 1
    · rw [if_pos wide]
      have long : ¬T.nTransactions ≤ 2 ^ nHeight := fun fits => absurd wide (calcTreeWidth_le_one.mpr fits)
      have below : nHeight < 30 := by
        by_contra large
        rw [show nHeight = 30 by omega] at long
        exact long small
      exact ih (nHeight + 1) (by omega) small (.inr (by rw [Nat.pow_succ]; omega)) positive (by omega)
    · rw [if_neg wide]
      refine ⟨nHeight, rfl, calcTreeWidth_le_one.mp wide, ?_⟩
      rcases least with rfl | least
      · omega
      · exact least

theorem extractMatches_returns (hash : Uint256 → Uint256 → Uint256) (T : CPartialMerkleTree) :
    ∃ result, T.extractMatches hash = some result := by
  unfold extractMatches
  dsimp only
  split_ifs with empty many hashes bits
  · exact ⟨_, rfl⟩
  · exact ⟨_, rfl⟩
  · exact ⟨_, rfl⟩
  · exact ⟨_, rfl⟩
  · have small : T.nTransactions ≤ 2 ^ 30 := (not_lt.mp many).trans (by decide)
    obtain ⟨height, isHeight, -⟩ := treeHeight_spec 31 0 rfl small (.inl rfl) (by omega) (by omega)
    obtain ⟨h, c, result, -⟩ := @traverse_spec hash T height 0 ⟨T.fBad, 0, 0, [], []⟩
    simp only [isHeight, result, bind_eq_bind, bind_some]
    split_ifs <;> exact ⟨_, rfl⟩

theorem extractMatches_sublist (length : leaves.length = T.nTransactions) {inner : Nat → Uint256} {merkleRoot : Uint256}
    {mutated : Bool} (isRoot : computeMerkleRoot hash inner leaves = some (merkleRoot, mutated)) (notNull : merkleRoot ≠ 0)
    (result : T.extractMatches hash = some (merkleRoot, c)) (free : CollisionFree hash (merklePairs hash leaves ++ c.hashed)) :
    c.vMatch.Sublist leaves := by
  have failed {other : Cursor} (same : some (0, other) = some (merkleRoot, c)) : False :=
    notNull (Prod.mk.inj (some.inj same)).1.symm
  unfold extractMatches at result
  dsimp only at result
  split_ifs at result with empty many hashes bits
  · exact (failed result).elim
  · exact (failed result).elim
  · exact (failed result).elim
  · exact (failed result).elim
  · have small : T.nTransactions ≤ 2 ^ 30 := (not_lt.mp many).trans (by decide)
    have nonempty : leaves ≠ [] := by
      rw [← length_pos_iff, length]
      omega
    obtain ⟨height, isHeight, fits, least⟩ := treeHeight_spec 31 0 rfl small (.inl rfl) (by omega) (by omega)
    obtain ⟨h, after, traversed, extracted⟩ := @traverse_spec hash T height 0 ⟨T.fBad, 0, 0, [], []⟩
    simp only [isHeight, traversed, bind_eq_bind, bind_some] at result
    split_ifs at result with bad unusedBits unusedHashes
    · exact (failed result).elim
    · exact (failed result).elim
    · exact (failed result).elim
    · obtain ⟨sameRoot, sameCursor⟩ := Prod.mk.inj (some.inj result)
      have whole : segment leaves height 0 = leaves := by
        rw [segment, Nat.zero_mul, drop_zero, take_of_length_le (length ▸ fits)]
      have shape : IsHeight height leaves := ⟨length ▸ fits, length ▸ least⟩
      have computed : merkleRoot = root hash height leaves := by
        rcases @merkleComputation_spec hash inner leaves nonempty (by omega) with ⟨other, isOther, computed⟩ | ⟨-, long⟩
        · have same := (height_of_isHeight nonempty isOther).trans (height_of_isHeight nonempty shape).symm
          rw [← same]
          exact (Prod.mk.inj (some.inj (computed.symm.trans isRoot))).1.symm
        · omega
      have matched := extracted.matched leaves length (by omega)
      rw [whole, sameCursor] at matched
      rw [merklePairs, ← height_of_isHeight nonempty shape] at free
      obtain ⟨new, same, inside⟩ := matched free (sameRoot.trans computed)
      rw [same]
      exact inside

/-- Whatever the bits and hashes are, the traversal stays within them, and with the root of a real list
it reports only entries of that list, in their order and each once. -/
theorem partial_merkle_sound (hash : Uint256 → Uint256 → Uint256) (T : CPartialMerkleTree) :
    (∃ result, T.extractMatches hash = some result) ∧
    ∀ leaves : List Uint256, leaves.Nodup → leaves.length = T.nTransactions →
      ∀ (inner : Nat → Uint256) (merkleRoot : Uint256) (mutated : Bool),
        computeMerkleRoot hash inner leaves = some (merkleRoot, mutated) → merkleRoot ≠ 0 →
        ∀ c, T.extractMatches hash = some (merkleRoot, c) → CollisionFree hash (merklePairs hash leaves ++ c.hashed) →
          c.vMatch.Sublist leaves ∧ c.vMatch.Nodup := by
  refine ⟨extractMatches_returns hash T, ?_⟩
  intro leaves distinct length inner merkleRoot mutated isRoot notNull c result free
  have inside := extractMatches_sublist length isRoot notNull result free
  exact ⟨inside, distinct.sublist inside⟩

/-- The third of three transactions, proved with the hash of the other two. -/
def sampleTree : CPartialMerkleTree where
  nTransactions := 3
  vBits := [true, false, true, true, false, false, false, false]
  vHash := [1013, 3]
  fBad := false

theorem partial_merkle_sound_sample : (∃ c, sampleTree.extractMatches sampleHash = some (9159, c) ∧ c.vMatch = [3]) ∧
    ∀ c, sampleTree.extractMatches sampleHash = some (9159, c) → c.vMatch.Sublist [1, 2, 3] ∧ c.vMatch.Nodup := by
  have extracted : sampleTree.extractMatches sampleHash =
      some (9159, ⟨false, 4, 2, [3], [(3, 3), (1013, 1024)]⟩) := by rfl
  refine ⟨⟨_, extracted, rfl⟩, fun c result => ?_⟩
  refine (partial_merkle_sound sampleHash sampleTree).2 [1, 2, 3] (by decide) rfl (fun _ => 7) 9159 false (by decide +kernel)
    (by decide) c result ?_
  rw [extracted] at result
  rw [← (Prod.mk.inj (some.inj result)).2]
  decide +kernel

/-- Null is what a failure returns: with bits left over, a list whose only transaction id is null
has its root returned, and the match is what the sender wrote. -/
theorem null_root_proves_nothing : ¬∀ (hash : Uint256 → Uint256 → Uint256) (T : CPartialMerkleTree) (leaves : List Uint256),
    leaves.Nodup → leaves.length = T.nTransactions → ∀ (inner : Nat → Uint256) (merkleRoot : Uint256) (mutated : Bool),
        computeMerkleRoot hash inner leaves = some (merkleRoot, mutated) →
        ∀ c, T.extractMatches hash = some (merkleRoot, c) → CollisionFree hash (merklePairs hash leaves ++ c.hashed) →
          Fresh hash (merklePairs hash leaves ++ c.hashed) leaves → c.vMatch.Sublist leaves ∧ c.vMatch.Nodup := by
  intro claim
  have both := claim sampleHash ⟨1, [true, false, false, false, false, false, false, false, false], [5], false⟩ [0] (by decide)
    rfl (fun _ => 7) 0 false (by decide +kernel) ⟨false, 1, 1, [5], []⟩ rfl (by simp [CollisionFree, merklePairs, pairs])
    (by simp [Fresh, merklePairs, pairs])
  exact absurd both.1 (by decide)

end Longcoin.MerkleBlock
