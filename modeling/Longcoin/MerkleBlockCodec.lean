import Longcoin.Library.BitPack
import Longcoin.VectorCodec
import Longcoin.MerkleBlockBuild

/-! Partial merkle trees on the wire (`merkleblock.h`): what is built, sent and read again gives back the matched transactions. -/

namespace Longcoin.MerkleBlock
open Primitives Serialize Library.MerkleTree Library.Segments Library.Codec Library.Bytes Library.BitPack Merkle CPartialMerkleTree List

namespace CPartialMerkleTree

def write (T : CPartialMerkleTree) : List UInt8 :=
  littleBytes 4 T.nTransactions ++ writeVector writeUint256 T.vHash ++ writeByteVector (pack T.vBits)

def read : Reader CPartialMerkleTree := do
  let nTransactions ← readUint 4
  let vHash ← readVector readUint256
  let vBytes ← readByteVector
  return { nTransactions, vBits := unpack vBytes, vHash, fBad := false }

end CPartialMerkleTree

variable {hash : Uint256 → Uint256 → Uint256}

theorem read_write {T : CPartialMerkleTree} (count : T.nTransactions < 2 ^ 32) (hashes : T.vHash.length ≤ MAX_SIZE)
    (bits : (T.vBits.length + 7) / 8 ≤ MAX_SIZE) :
    Reads read T.write { T with
      vBits := T.vBits ++ replicate ((8 - T.vBits.length % 8) % 8) false
      fBad := false } := by
  rw [← unpack_pack, write, append_assoc]
  refine (readUint_reads count).bind ((readVector_reads hashes fun number _ => readUint256_reads number).bind ?_)
  exact (readByteVector_reads (by rw [length_pack]; exact bits)).bind_pure
    fun vBytes => ({ nTransactions := T.nTransactions, vBits := unpack vBytes, vHash := T.vHash, fBad := false } : CPartialMerkleTree)

theorem length_flags_le (height : Nat) (items : List (Uint256 × Bool)) : (flags height items).length < 2 ^ (height + 1) := by
  induction height generalizing items with
  | zero => exact Nat.lt_succ_self 1
  | succ height ih =>
    have left := ih (items.take (2 ^ height))
    have right := ih (items.drop (2 ^ height))
    have power : 2 ^ (height + 1 + 1) = 2 ^ (height + 1) + 2 ^ (height + 1) := by rw [Nat.pow_succ, Nat.mul_two]
    have positive := Nat.two_pow_pos height
    rw [flags]
    split_ifs
    · rw [append_nil, length_cons]
      omega
    · rw [length_cons, length_append]
      omega
    · rw [length_singleton, power, Nat.pow_succ]
      omega

theorem extractMatches_built {T : CPartialMerkleTree} {items : List (Uint256 × Bool)} {height : Nat} {padding : List Bool}
    (length : T.nTransactions = items.length) (positive : 0 < items.length) (small : items.length ≤ MAX_BLOCK_SIZE / 60)
    (isHeight : T.treeHeight 31 0 = some height) (fits : items.length ≤ 2 ^ height) (distinct : (items.map (·.1)).Nodup)
    (free : CollisionFree hash (pairs hash height (items.map (·.1)))) (good : T.fBad = false)
    (vBits : T.vBits = flags height items ++ padding) (vHash : T.vHash = stored hash height items)
    (whole : ((flags height items).length + 7) / 8 = (T.vBits.length + 7) / 8) :
    ∃ c, T.extractMatches hash = some (root hash height (items.map (·.1)), c) ∧ c.fBad = false ∧
      c.vMatch = selected items ∧ c.nHashUsed = T.vHash.length ∧ c.nBitsUsed = (flags height items).length := by
  have all := span_whole items height fits
  have ready : Ready hash T ⟨T.fBad, 0, 0, [], []⟩ height (span items height 0) padding [] := by
    rw [all]
    exact ⟨vBits, vHash.trans (append_nil _).symm⟩
  obtain ⟨c, result, taken⟩ := traverse_taken length distinct height (by rw [Nat.zero_mul]; exact positive) (by rw [all]; exact free) ready
  rw [all] at result taken
  have bitsUsed : c.nBitsUsed = (flags height items).length := taken.bits.trans (Nat.zero_add _)
  have hashesUsed : c.nHashUsed = T.vHash.length := by
    rw [vHash]
    exact taken.hashes.trans (Nat.zero_add _)
  have noneBad : c.fBad = false := taken.good.trans good
  refine ⟨c, ?_, noneBad, taken.vMatch, hashesUsed, bitsUsed⟩
  have fewHashes : ¬T.vHash.length > T.nTransactions := by
    rw [vHash, length]
    exact not_lt.mpr (length_stored_le height positive)
  have manyBits : ¬T.vBits.length < T.vHash.length := by
    have least := @length_stored_le_flags hash height items
    rw [vHash, vBits, length_append]
    omega
  rw [extractMatches, if_neg (by omega), if_neg (by omega), if_neg fewHashes, if_neg manyBits, isHeight]
  dsimp only [bind, Option.bind]
  rw [result]
  dsimp only
  rw [noneBad, if_neg Bool.false_ne_true, bitsUsed, if_neg (not_not.mpr whole), hashesUsed, if_neg (not_not.mpr rfl)]
  rfl

theorem treeHeight_eq {T T' : CPartialMerkleTree} (same : T'.nTransactions = T.nTransactions) (shifts nHeight : Nat) :
    T'.treeHeight shifts nHeight = T.treeHeight shifts nHeight := by
  induction shifts generalizing nHeight with
  | zero => rfl
  | succ shifts ih =>
    rw [treeHeight, treeHeight, ih, calcTreeWidth,
      calcTreeWidth, same]

theorem ofMatches_eq {vTxid : List Uint256} {vMatch : List Bool} (nonempty : vTxid ≠ []) (small : vTxid.length ≤ 2 ^ 30)
    (length : vMatch.length = vTxid.length) :
    ∃ height, IsHeight height vTxid ∧
      (∀ T : CPartialMerkleTree, T.nTransactions = vTxid.length → T.treeHeight 31 0 = some height) ∧
      ofMatches hash vTxid vMatch = some {
        nTransactions := vTxid.length
        vBits := flags height (vTxid.zip vMatch)
        vHash := stored hash height (vTxid.zip vMatch)
        fBad := false } := by
  have positive := length_pos_iff.mpr nonempty
  have count : (vTxid.zip vMatch).length = vTxid.length := by rw [length_zip, length, Nat.min_self]
  have txids : (vTxid.zip vMatch).map (·.1) = vTxid := map_fst_zip length.ge
  have bits : (vTxid.zip vMatch).map (·.2) = vMatch := map_snd_zip length.le
  obtain ⟨height, isHeight, fits, least⟩ := @treeHeight_spec { nTransactions := vTxid.length, vBits := [], vHash := [], fBad := false }
    31 0 rfl small (.inl rfl) positive (by omega)
  have whole := span_whole (vTxid.zip vMatch) height (by rw [count]; exact fits)
  have built := @traverseAndBuild_eq hash (vTxid.zip vMatch) height 0
    { nTransactions := vTxid.length, vBits := [], vHash := [], fBad := false } count.symm (by rw [count, Nat.zero_mul]; exact positive)
  refine ⟨height, ⟨fits, least⟩, fun T same => (treeHeight_eq same 31 0).trans isHeight, ?_⟩
  rw [txids, bits, whole, nil_append, nil_append] at built
  rw [ofMatches, Nat.mod_eq_of_lt (by omega), isHeight]
  exact built

/-- A partial merkle tree that is built, sent and read again has the root of its list and exactly the matched
transactions, and nothing of it is left over but the padding of its bits. -/
theorem partial_merkle_round_trip (inner : Nat → Uint256) {vTxid : List Uint256} {vMatch : List Bool} (nonempty : vTxid ≠ [])
    (small : vTxid.length ≤ MAX_BLOCK_SIZE / 60) (distinct : vTxid.Nodup) (length : vMatch.length = vTxid.length)
    (free : CollisionFree hash (merklePairs hash vTxid)) : ∃ T T' merkleRoot mutated c, ofMatches hash vTxid vMatch = some T ∧
      Reads read T.write T' ∧ computeMerkleRoot hash inner vTxid = some (merkleRoot, mutated) ∧
      T'.extractMatches hash = some (merkleRoot, c) ∧ c.fBad = false ∧
      c.vMatch = ((vTxid.zip vMatch).filter (·.2)).map (·.1) ∧
      c.nHashUsed = T'.vHash.length ∧ c.nBitsUsed = T.vBits.length := by
  have limit : MAX_BLOCK_SIZE / 60 = 16666 := by decide
  have maximum : MAX_SIZE = 33554432 := by decide
  have positive := length_pos_iff.mpr nonempty
  have count : (vTxid.zip vMatch).length = vTxid.length := by rw [length_zip, length, Nat.min_self]
  have txids : (vTxid.zip vMatch).map (·.1) = vTxid := map_fst_zip length.ge
  obtain ⟨height, isHeight, sameHeight, built⟩ := @ofMatches_eq hash vTxid vMatch nonempty (by omega) length
  have bits := length_flags_le height (vTxid.zip vMatch)
  have hashes := @length_stored_le hash height (vTxid.zip vMatch) (by omega)
  have least := isHeight.2
  rw [Nat.pow_succ] at bits
  have sent := @read_write
    ⟨vTxid.length, flags height (vTxid.zip vMatch), stored hash height (vTxid.zip vMatch), false⟩ (by dsimp only; omega)
    (by dsimp only; omega) (by dsimp only; omega)
  obtain ⟨c, result, good, matched, hashesUsed, bitsUsed⟩ := @extractMatches_built hash
    ⟨vTxid.length, flags height (vTxid.zip vMatch) ++ replicate ((8 - (flags height (vTxid.zip vMatch)).length % 8) % 8) false,
      stored hash height (vTxid.zip vMatch), false⟩
    (vTxid.zip vMatch) height _ count.symm (by omega) (by omega) (sameHeight _ rfl) (by rw [count]; exact isHeight.1)
    (by rw [txids]; exact distinct)
    (by
      rw [txids, height_of_isHeight nonempty isHeight]
      exact free) rfl rfl rfl (by
      rw [length_append, length_replicate]
      omega)
  rcases @merkleComputation_spec hash inner vTxid nonempty (by omega) with ⟨other, isOther, computed⟩ | ⟨-, long⟩
  · have same := (height_of_isHeight nonempty isOther).trans (height_of_isHeight nonempty isHeight).symm
    rw [same] at computed
    rw [txids] at result
    exact ⟨_, _, _, _, c, built, sent, computed, result, good, matched, hashesUsed, bitsUsed⟩
  · omega

theorem partial_merkle_round_trip_sample : ∃ T T' merkleRoot mutated c,
    ofMatches sampleHash [1, 2, 3] [false, false, true] = some T ∧
      Reads read T.write T' ∧ computeMerkleRoot sampleHash (fun _ => 7) [1, 2, 3] = some (merkleRoot, mutated) ∧
      T'.extractMatches sampleHash = some (merkleRoot, c) ∧ c.fBad = false ∧
      c.vMatch = (([1, 2, 3].zip [false, false, true]).filter (·.2)).map (·.1) ∧
      c.nHashUsed = T'.vHash.length ∧ c.nBitsUsed = T.vBits.length := by
  exact partial_merkle_round_trip (fun _ => 7) (by decide) (by decide) (by decide) rfl (by decide +kernel)

end Longcoin.MerkleBlock
