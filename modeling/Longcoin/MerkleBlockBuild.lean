import Longcoin.MerkleBlock

/-! Building a partial merkle tree (`merkleblock.cpp`), and extracting from it what went in. -/

namespace Longcoin.MerkleBlock
open Primitives Library.MerkleTree Library.Segments CPartialMerkleTree

namespace CPartialMerkleTree

/-- `CalcHash`; `none` would be an index out of range. -/
def calcHash (hash : Uint256 → Uint256 → Uint256) (T : CPartialMerkleTree) (vTxid : List Uint256) : Nat → Nat → Option Uint256
  | 0, pos => vTxid[pos]?
  | height + 1, pos => do
      let left ← calcHash hash T vTxid height (pos * 2)
      if pos * 2 + 1 < T.calcTreeWidth height then do
        let right ← calcHash hash T vTxid height (pos * 2 + 1)
        return hash left right
      else return hash left left

/-- The loop of `TraverseAndBuild` over the positions below a node. -/
def matchLoop (T : CPartialMerkleTree) (vMatch : List Bool) : Nat → Nat → Bool → Option Bool
  | 0, _, fParentOfMatch => some fParentOfMatch
  | turns + 1, p, fParentOfMatch =>
      if p < T.nTransactions then do
        let bit ← vMatch[p]?
        matchLoop T vMatch turns (p + 1) (fParentOfMatch || bit)
      else some fParentOfMatch

def traverseAndBuild (hash : Uint256 → Uint256 → Uint256) (vTxid : List Uint256) (vMatch : List Bool) :
    Nat → Nat → CPartialMerkleTree → Option CPartialMerkleTree
  | height, pos, T => do
      let fParentOfMatch ← T.matchLoop vMatch (2 ^ height) (pos * 2 ^ height) false
      let T := { T with vBits := T.vBits ++ [fParentOfMatch] }
      match height with
      | 0 => do
          let h ← T.calcHash hash vTxid 0 pos
          return { T with vHash := T.vHash ++ [h] }
      | height + 1 =>
          if !fParentOfMatch then do
            let h ← T.calcHash hash vTxid (height + 1) pos
            return { T with vHash := T.vHash ++ [h] }
          else do
            let T ← traverseAndBuild hash vTxid vMatch height (pos * 2) T
            if pos * 2 + 1 < T.calcTreeWidth height then traverseAndBuild hash vTxid vMatch height (pos * 2 + 1) T
            else return T

/-- `CPartialMerkleTree(vTxid, vMatch)`. -/
def ofMatches (hash : Uint256 → Uint256 → Uint256) (vTxid : List Uint256) (vMatch : List Bool) : Option CPartialMerkleTree := do
  let T : CPartialMerkleTree := { nTransactions := vTxid.length % 2 ^ 32, vBits := [], vHash := [], fBad := false }
  let nHeight ← T.treeHeight 31 0
  traverseAndBuild hash vTxid vMatch nHeight 0 T

end CPartialMerkleTree

/-- The transactions with their matches, and those that are matched. -/
def selected (items : List (Uint256 × Bool)) : List Uint256 := (items.filter (·.2)).map (·.1)

def flags : Nat → List (Uint256 × Bool) → List Bool
  | 0, items => [items.any (·.2)]
  | height + 1, items =>
      if items.any (·.2) then
        true :: (flags height (items.take (2 ^ height)) ++
          if items.length ≤ 2 ^ height then [] else flags height (items.drop (2 ^ height)))
      else [false]

def stored (hash : Uint256 → Uint256 → Uint256) : Nat → List (Uint256 × Bool) → List Uint256
  | 0, items => [root hash 0 (items.map (·.1))]
  | height + 1, items =>
      if items.any (·.2) then
        stored hash height (items.take (2 ^ height)) ++
          if items.length ≤ 2 ^ height then [] else stored hash height (items.drop (2 ^ height))
      else [root hash (height + 1) (items.map (·.1))]

variable {hash : Uint256 → Uint256 → Uint256} {T : CPartialMerkleTree} {items : List (Uint256 × Bool)}

theorem selected_append (front back : List (Uint256 × Bool)) : selected (front ++ back) = selected front ++ selected back := by
  rw [selected, List.filter_append, List.map_append, selected, selected]

theorem selected_none (none : items.any (·.2) = false) : selected items = [] := by
  rw [selected, List.map_eq_nil_iff, List.filter_eq_nil_iff]
  intro item member matched
  have some : items.any (·.2) = true := List.any_eq_true.mpr ⟨item, member, matched⟩
  rw [none] at some
  cases some

theorem length_stored_le_flags (height : Nat) (items : List (Uint256 × Bool)) :
    (stored hash height items).length ≤ (flags height items).length := by
  induction height generalizing items with
  | zero => exact le_rfl
  | succ height ih =>
    have left := ih (items.take (2 ^ height))
    have right := ih (items.drop (2 ^ height))
    rw [stored, flags]
    split_ifs
    · rw [List.append_nil, List.append_nil, List.length_cons]
      omega
    · rw [List.length_append, List.length_cons, List.length_append]
      omega
    · exact le_rfl

theorem length_stored_le (height : Nat) {items : List (Uint256 × Bool)} (positive : 0 < items.length) :
    (stored hash height items).length ≤ items.length := by
  induction height generalizing items with
  | zero => exact positive
  | succ height ih =>
    have power := Nat.two_pow_pos height
    have split := congrArg List.length (List.take_append_drop (2 ^ height) items)
    rw [List.length_append] at split
    have left := @ih (items.take (2 ^ height)) (by rw [List.length_take]; omega)
    rw [stored]
    split_ifs with _ short
    · rw [List.append_nil]
      omega
    · have right := @ih (items.drop (2 ^ height)) (by rw [List.length_drop]; omega)
      rw [List.length_append]
      omega
    · exact positive

theorem left_inside {count height pos : Nat} (inside : pos * 2 ^ (height + 1) < count) : pos * 2 * 2 ^ height < count := by
  rw [left_start]
  exact inside

theorem root_span {leaves : List Uint256} (length : T.nTransactions = leaves.length) (height pos : Nat) :
    root hash (height + 1) (span leaves (height + 1) pos) =
      if pos * 2 + 1 < T.calcTreeWidth height then
        hash (root hash height (span leaves height (pos * 2))) (root hash height (span leaves height (pos * 2 + 1)))
      else hash (root hash height (span leaves height (pos * 2))) (root hash height (span leaves height (pos * 2))) := by
  rw [root]
  by_cases wide : pos * 2 + 1 < T.calcTreeWidth height
  · rw [if_neg ((wide_iff length).mp wide), if_pos wide, take_span, drop_span]
  · have short := not_not.mp ((wide_iff length).not.mp wide)
    rw [if_pos short, if_neg wide, ← take_span, List.take_of_length_le short]

theorem calcHash_eq {leaves : List Uint256} (length : T.nTransactions = leaves.length) (height : Nat) {pos : Nat}
    (inside : pos * 2 ^ height < leaves.length) : T.calcHash hash leaves height pos = some (root hash height (span leaves height pos)) := by
  induction height generalizing pos with
  | zero =>
    rw [Nat.pow_zero, Nat.mul_one] at inside
    rw [calcHash, root, span, Nat.pow_zero, Nat.mul_one, List.headD_eq_head?_getD, List.head?_take,
      if_neg Nat.one_ne_zero, List.head?_drop, List.getElem?_eq_getElem inside, Option.getD_some]
  | succ height ih =>
    rw [calcHash, ih (left_inside inside), root_span length]
    dsimp only [bind, Option.bind]
    split_ifs with wide
    · have right := lt_calcTreeWidth.mp wide
      rw [length] at right
      rw [ih right]
      rfl
    · rfl

theorem matchLoop_eq (length : T.nTransactions = items.length) (turns p : Nat) (found : Bool) :
    T.matchLoop (items.map (·.2)) turns p found = some (found || ((items.drop p).take turns).any (·.2)) := by
  induction turns generalizing p found with
  | zero => rw [matchLoop, List.take_zero, List.any_nil, Bool.or_false]
  | succ turns ih =>
    rw [matchLoop, length]
    split_ifs with inside
    · rw [List.getElem?_map, List.getElem?_eq_getElem inside, List.drop_eq_getElem_cons inside, List.take_succ_cons, List.any_cons,
        ← Bool.or_assoc]
      exact ih (p + 1) _
    · rw [List.drop_of_length_le (not_lt.mp inside), List.take_nil, List.any_nil, Bool.or_false]

theorem traverseAndBuild_eq (height : Nat) {pos : Nat} {T : CPartialMerkleTree} (length : T.nTransactions = items.length)
    (inside : pos * 2 ^ height < items.length) :
    traverseAndBuild hash (items.map (·.1)) (items.map (·.2)) height pos T = some { T with
      vBits := T.vBits ++ flags height (span items height pos)
      vHash := T.vHash ++ stored hash height (span items height pos) } := by
  induction height generalizing pos T with
  | zero =>
    have loop := matchLoop_eq length (2 ^ 0) (pos * 2 ^ 0) false
    have leaf := @calcHash_eq hash { T with vBits := T.vBits ++ [(span items 0 pos).any (·.2)] } (items.map (·.1))
      (by rw [List.length_map, length]) 0 pos (by rw [List.length_map]; exact inside)
    rw [Bool.false_or] at loop
    rw [traverseAndBuild, loop]
    change (calcHash hash _ _ 0 pos).bind _ = _
    rw [← span, leaf, flags, stored, map_span]
    rfl
  | succ height ih =>
    have loop := matchLoop_eq length (2 ^ (height + 1)) (pos * 2 ^ (height + 1)) false
    rw [Bool.false_or, ← span] at loop
    rw [traverseAndBuild, loop, flags, stored, take_span, drop_span]
    dsimp only [bind, Option.bind]
    by_cases matched : (span items (height + 1) pos).any (·.2) = true
    · rw [matched, Bool.not_true, if_neg Bool.false_ne_true, if_pos rfl, if_pos rfl,
        @ih (pos * 2) { T with vBits := T.vBits ++ [true] } length (left_inside inside)]
      dsimp only
      by_cases wide : pos * 2 + 1 < T.calcTreeWidth height
      · have long := (wide_iff length).mp wide
        have right := lt_calcTreeWidth.mp wide
        rw [length] at right
        rw [if_neg long, if_neg long]
        refine (if_pos wide).trans ?_
        refine (@ih (pos * 2 + 1) { T with
          vBits := T.vBits ++ [true] ++ flags height (span items height (pos * 2))
          vHash := T.vHash ++ stored hash height (span items height (pos * 2)) } length right).trans ?_
        simp only [List.append_assoc, List.cons_append, List.nil_append]
      · have short := not_not.mp ((wide_iff length).not.mp wide)
        rw [if_pos short, if_pos short, List.append_nil, List.append_nil]
        refine (if_neg wide).trans ?_
        simp only [List.append_assoc, List.singleton_append]
        rfl
    · have node := @calcHash_eq hash { T with vBits := T.vBits ++ [false] } (items.map (·.1)) (by rw [List.length_map, length])
        (height + 1) pos (by rw [List.length_map]; exact inside)
      rw [Bool.not_eq_true] at matched
      rw [matched, Bool.not_false, if_pos rfl, if_neg Bool.false_ne_true, if_neg Bool.false_ne_true, node, map_span]
      rfl

theorem head_eq (height : Nat) {one two : List Uint256} (oneNonempty : one ≠ []) (twoNonempty : two ≠ [])
    (free : CollisionFree hash (pairs hash height one ++ pairs hash height two)) (same : root hash height one = root hash height two) :
    one.head? = two.head? := by
  induction height generalizing one two with
  | zero =>
    obtain ⟨first, rest, rfl⟩ := List.exists_cons_of_ne_nil oneNonempty
    obtain ⟨second, rest', rfl⟩ := List.exists_cons_of_ne_nil twoNonempty
    exact congrArg some same
  | succ height ih =>
    have half {leaves : List Uint256} (nonempty : leaves ≠ []) :
        (halves height leaves).1 ≠ [] ∧ (halves height leaves).1.head? = leaves.head? := by
      have power := Nat.two_pow_pos height
      rw [halves]
      split_ifs
      · exact ⟨nonempty, rfl⟩
      · obtain ⟨first, rest, rfl⟩ := List.exists_cons_of_ne_nil nonempty
        obtain ⟨count, same⟩ := Nat.exists_eq_succ_of_ne_zero power.ne'
        rw [same, List.take_succ_cons]
        exact ⟨List.cons_ne_nil _ _, rfl⟩
    rw [root_succ, root_succ] at same
    have pair := free _ (List.mem_append_left _ (mem_pairs_succ height one)) _
      (List.mem_append_right _ (mem_pairs_succ height two)) same
    have inside := List.append_subset.mpr ⟨List.Subset.trans (@pairs_halves _ hash _ height one).1 (List.subset_append_left _ _),
      List.Subset.trans (@pairs_halves _ hash _ height two).1 (List.subset_append_right _ _)⟩
    rw [← (half oneNonempty).2, ← (half twoNonempty).2]
    exact ih (half oneNonempty).1 (half twoNonempty).1 (free.subset inside) (Prod.mk.inj pair).1

theorem root_ne {height : Nat} {one two : List Uint256} (oneNonempty : one ≠ []) (twoNonempty : two ≠ [])
    (distinct : (one ++ two).Nodup) (free : CollisionFree hash (pairs hash height one ++ pairs hash height two)) :
    root hash height two ≠ root hash height one := by
  intro same
  have heads := head_eq height oneNonempty twoNonempty free same.symm
  obtain ⟨first, rest, rfl⟩ := List.exists_cons_of_ne_nil oneNonempty
  obtain ⟨second, rest', rfl⟩ := List.exists_cons_of_ne_nil twoNonempty
  obtain rfl : first = second := Option.some.inj heads
  exact (List.nodup_append.mp distinct).2.2 first List.mem_cons_self first List.mem_cons_self rfl

structure Ready (hash : Uint256 → Uint256 → Uint256) (T : CPartialMerkleTree) (c : Cursor) (height : Nat) (node : List (Uint256 × Bool))
    (bits : List Bool) (hashes : List Uint256) : Prop where
  bits : T.vBits.drop c.nBitsUsed = flags height node ++ bits
  hashes : T.vHash.drop c.nHashUsed = stored hash height node ++ hashes

/-- What a node has used of the bits and the hashes, and what was matched below it. -/
structure Taken (hash : Uint256 → Uint256 → Uint256) (c c' : Cursor) (height : Nat) (node : List (Uint256 × Bool)) : Prop where
  good : c'.fBad = c.fBad
  bits : c'.nBitsUsed = c.nBitsUsed + (flags height node).length
  hashes : c'.nHashUsed = c.nHashUsed + (stored hash height node).length
  vMatch : c'.vMatch = c.vMatch ++ selected node

theorem drop_used {α : Type} {list front back : List α} {used : Nat} (next : list.drop used = front ++ back) :
    list.drop (used + front.length) = back := by
  rw [← List.drop_drop, next, List.drop_left]

theorem next_of_drop {α : Type} {list rest : List α} {used : Nat} {first : α} (next : list.drop used = first :: rest) :
    used < list.length ∧ list[used]? = some first ∧ list.drop (used + 1) = rest := by
  have here : list[used]? = some first := by
    have found := congrArg (fun part => part[0]?) next
    rw [List.getElem?_drop, Nat.add_zero] at found
    exact found
  refine ⟨(List.getElem?_eq_some_iff.mp here).1, here, ?_⟩
  rw [← List.drop_drop, next]
  rfl

variable {c : Cursor} {bits : List Bool} {hashes : List Uint256}

theorem traverse_stored (height : Nat) {pos : Nat} {h : Uint256} {fParentOfMatch : Bool}
    (bit : T.vBits.drop c.nBitsUsed = fParentOfMatch :: bits) (next : T.vHash.drop c.nHashUsed = h :: hashes)
    (stops : height = 0 ∨ fParentOfMatch = false) :
    T.traverseAndExtract hash height pos c = some (h, { c with
      nBitsUsed := c.nBitsUsed + 1
      nHashUsed := c.nHashUsed + 1
      vMatch := if fParentOfMatch then c.vMatch ++ [h] else c.vMatch }) := by
  obtain ⟨inBits, here, -⟩ := next_of_drop bit
  obtain ⟨inHashes, found, -⟩ := next_of_drop next
  rw [traverseAndExtract, if_neg (by omega), here]
  dsimp only [bind, Option.bind]
  cases height with
  | zero =>
    refine (if_neg (by omega)).trans ?_
    change (T.vHash[c.nHashUsed]?).bind _ = _
    rw [found]
    rfl
  | succ height =>
    obtain rfl := stops.resolve_left (Nat.succ_ne_zero height)
    rw [Bool.not_false]
    refine (if_pos rfl).trans ?_
    refine (if_neg (by omega)).trans ?_
    change (T.vHash[c.nHashUsed]?).bind _ = _
    rw [found]
    rfl

theorem traverse_leaf {pos : Nat} (inside : pos * 2 ^ 0 < items.length)
    (ready : Ready hash T c 0 (span items 0 pos) bits hashes) :
    ∃ c', T.traverseAndExtract hash 0 pos c = some (root hash 0 ((span items 0 pos).map (·.1)), c') ∧
      Taken hash c c' 0 (span items 0 pos) := by
  obtain ⟨item, leaf⟩ := span_leaf inside
  obtain ⟨bits, hashes⟩ := ready
  rw [leaf] at bits hashes ⊢
  refine ⟨_, traverse_stored 0 bits hashes (.inl rfl), rfl, rfl, rfl, ?_⟩
  obtain ⟨txid, isMatch⟩ := item
  cases isMatch with
  | false => exact (List.append_nil _).symm
  | true => rfl

theorem traverse_unmatched {height pos : Nat} {node : List (Uint256 × Bool)} (none : node.any (·.2) = false)
    (ready : Ready hash T c (height + 1) node bits hashes) :
    ∃ c', T.traverseAndExtract hash (height + 1) pos c = some (root hash (height + 1) (node.map (·.1)), c') ∧
      Taken hash c c' (height + 1) node := by
  have oneBit : flags (height + 1) node = [false] := by rw [flags, none, if_neg Bool.false_ne_true]
  have oneHash : stored hash (height + 1) node = [root hash (height + 1) (node.map (·.1))] := by
    rw [stored, none, if_neg Bool.false_ne_true]
  obtain ⟨bits, hashes⟩ := ready
  rw [oneBit] at bits
  rw [oneHash] at hashes
  refine ⟨_, traverse_stored (height + 1) bits hashes (.inr rfl), rfl, ?_, ?_, ?_⟩
  · rw [oneBit]
    rfl
  · rw [oneHash]
    rfl
  · rw [selected_none none, List.append_nil]
    rfl

theorem traverse_matched {height pos : Nat} (bit : T.vBits.drop c.nBitsUsed = true :: bits) :
    T.traverseAndExtract hash (height + 1) pos c = (do
      let (left, c) ← T.traverseAndExtract hash height (pos * 2) { c with nBitsUsed := c.nBitsUsed + 1 }
      if pos * 2 + 1 < T.calcTreeWidth height then do
        let (right, c) ← T.traverseAndExtract hash height (pos * 2 + 1) c
        return (hash left right, { c with fBad := c.fBad || right == left, hashed := c.hashed ++ [(left, right)] })
      else return (hash left left, { c with hashed := c.hashed ++ [(left, left)] })) := by
  obtain ⟨inBits, here, -⟩ := next_of_drop bit
  rw [traverseAndExtract, if_neg (by omega), here]
  dsimp only [bind, Option.bind]
  rw [Bool.not_true, if_neg Bool.false_ne_true]

section Children

variable {height pos : Nat} (long : ¬(span items (height + 1) pos).length ≤ 2 ^ height)
include long

theorem pairs_span : pairs hash (height + 1) ((span items (height + 1) pos).map (·.1)) =
    (root hash height ((span items height (pos * 2)).map (·.1)), root hash height ((span items height (pos * 2 + 1)).map (·.1))) ::
      (pairs hash height ((span items height (pos * 2)).map (·.1)) ++
        pairs hash height ((span items height (pos * 2 + 1)).map (·.1))) := by
  rw [pairs_long (by rw [List.length_map]; exact long), ← List.map_take, ← List.map_drop, take_span, drop_span]

theorem root_both : root hash (height + 1) ((span items (height + 1) pos).map (·.1)) =
    hash (root hash height ((span items height (pos * 2)).map (·.1))) (root hash height ((span items height (pos * 2 + 1)).map (·.1))) := by
  rw [root, if_neg (by rw [List.length_map]; exact long), ← List.map_take, ← List.map_drop, take_span, drop_span]

theorem nonempty_both : (span items height (pos * 2)).map (·.1) ≠ [] ∧ (span items height (pos * 2 + 1)).map (·.1) ≠ [] := by
  have power := Nat.two_pow_pos height
  rw [← take_span, ← drop_span, ← List.length_pos_iff, ← List.length_pos_iff, List.length_map, List.length_map, List.length_take,
    List.length_drop]
  omega

theorem root_right_ne (distinct : (items.map (·.1)).Nodup)
    (free : CollisionFree hash (pairs hash (height + 1) ((span items (height + 1) pos).map (·.1)))) :
    root hash height ((span items height (pos * 2 + 1)).map (·.1)) ≠ root hash height ((span items height (pos * 2)).map (·.1)) := by
  obtain ⟨left, right⟩ := nonempty_both long
  have inside : (span items (height + 1) pos).Sublist items := (List.take_sublist _ _).trans (List.drop_sublist _ _)
  rw [pairs_span long] at free
  refine root_ne left right ?_ (free.subset (List.subset_cons_self _ _))
  rw [← List.map_append, ← take_span, ← drop_span, List.take_append_drop]
  exact distinct.sublist (inside.map _)

end Children

theorem taken_both {height pos : Nat} {one two after : Cursor} (matched : (span items (height + 1) pos).any (·.2) = true)
    (long : ¬(span items (height + 1) pos).length ≤ 2 ^ height)
    (first : Taken hash { c with nBitsUsed := c.nBitsUsed + 1 } one height (span items height (pos * 2)))
    (second : Taken hash one two height (span items height (pos * 2 + 1))) (good : after.fBad = two.fBad)
    (bits : after.nBitsUsed = two.nBitsUsed) (hashes : after.nHashUsed = two.nHashUsed) (vMatch : after.vMatch = two.vMatch) :
    Taken hash c after (height + 1) (span items (height + 1) pos) where
  good := good.trans (second.good.trans first.good)
  bits := by
    have used := first.bits
    dsimp only at used
    rw [flags, matched, if_pos rfl, take_span, drop_span, if_neg long, List.length_cons, List.length_append, bits, second.bits]
    omega
  hashes := by
    have used := first.hashes
    dsimp only at used
    rw [stored, matched, if_pos rfl, take_span, drop_span, if_neg long, List.length_append, hashes, second.hashes]
    omega
  vMatch := by
    have whole := List.take_append_drop (2 ^ height) (span items (height + 1) pos)
    rw [take_span, drop_span] at whole
    rw [← whole, selected_append, ← List.append_assoc, vMatch, second.vMatch, first.vMatch]

theorem taken_left {height pos : Nat} {one after : Cursor} (matched : (span items (height + 1) pos).any (·.2) = true)
    (short : (span items (height + 1) pos).length ≤ 2 ^ height)
    (first : Taken hash { c with nBitsUsed := c.nBitsUsed + 1 } one height (span items height (pos * 2)))
    (good : after.fBad = one.fBad) (bits : after.nBitsUsed = one.nBitsUsed) (hashes : after.nHashUsed = one.nHashUsed)
    (vMatch : after.vMatch = one.vMatch) :
    Taken hash c after (height + 1) (span items (height + 1) pos) where
  good := good.trans first.good
  bits := by
    have used := first.bits
    dsimp only at used
    rw [flags, matched, if_pos rfl, take_span, if_pos short, List.append_nil, List.length_cons, bits]
    omega
  hashes := by
    rw [stored, matched, if_pos rfl, take_span, if_pos short, List.append_nil, hashes]
    exact first.hashes
  vMatch := by
    rw [← span_short short, vMatch]
    exact first.vMatch

/-- `TraverseAndExtract` goes through the bits and hashes of a node, whatever follows them. -/
theorem traverse_taken (length : T.nTransactions = items.length) (distinct : (items.map (·.1)).Nodup) (height : Nat)
    {pos : Nat} (inside : pos * 2 ^ height < items.length)
    (free : CollisionFree hash (pairs hash height ((span items height pos).map (·.1))))
    (ready : Ready hash T c height (span items height pos) bits hashes) :
    ∃ c', T.traverseAndExtract hash height pos c = some (root hash height ((span items height pos).map (·.1)), c') ∧
      Taken hash c c' height (span items height pos) := by
  induction height generalizing pos c bits hashes with
  | zero => exact traverse_leaf inside ready
  | succ height ih =>
    by_cases none : (span items (height + 1) pos).any (·.2) = false
    · exact traverse_unmatched none ready
    have matched : (span items (height + 1) pos).any (·.2) = true := Bool.eq_true_of_not_eq_false none
    obtain ⟨inBits, inHashes⟩ := ready
    rw [flags, matched, if_pos rfl, take_span, drop_span, List.cons_append] at inBits
    rw [stored, matched, if_pos rfl, take_span, drop_span] at inHashes
    rw [traverse_matched inBits]
    have start := (next_of_drop inBits).2.2
    by_cases wide : pos * 2 + 1 < T.calcTreeWidth height
    · have long := (wide_iff length).mp wide
      have right := lt_calcTreeWidth.mp wide
      rw [length] at right
      rw [if_neg long, List.append_assoc] at start inHashes
      have different := root_right_ne long distinct free
      rw [pairs_span long] at free
      have freeOne := free.subset (List.Subset.trans (List.subset_append_left _ _) (List.subset_cons_self _ _))
      have freeTwo := free.subset (List.Subset.trans (List.subset_append_right _ _) (List.subset_cons_self _ _))
      obtain ⟨one, firstResult, first⟩ := @ih { c with nBitsUsed := c.nBitsUsed + 1 } _ _ (pos * 2) (left_inside inside) freeOne
        ⟨start, inHashes⟩
      have nextBits := drop_used start
      have nextHashes := drop_used inHashes
      obtain ⟨two, secondResult, second⟩ := ih right freeTwo ⟨first.bits ▸ nextBits, first.hashes ▸ nextHashes⟩
      rw [firstResult, root_both long]
      refine ⟨{ two with
        fBad := two.fBad || false
        hashed := two.hashed ++ [(root hash height ((span items height (pos * 2)).map (·.1)),
          root hash height ((span items height (pos * 2 + 1)).map (·.1)))] }, (if_pos wide).trans ?_, ?_⟩
      · rw [secondResult]
        dsimp only [bind, Option.bind]
        rw [beq_false_of_ne different]
        rfl
      · exact taken_both matched long first second (Bool.or_false _) rfl rfl rfl
    · have short := not_not.mp ((wide_iff length).not.mp wide)
      have same : ((span items (height + 1) pos).map (·.1)).length ≤ 2 ^ height := by
        rw [List.length_map]
        exact short
      rw [if_pos short, List.append_nil] at start inHashes
      rw [pairs_short same, ← span_short short] at free
      obtain ⟨one, firstResult, first⟩ := @ih { c with nBitsUsed := c.nBitsUsed + 1 } _ _ (pos * 2) (left_inside inside)
        (free.subset (List.subset_cons_self _ _)) ⟨start, inHashes⟩
      rw [firstResult, root, if_pos same]
      refine ⟨{ one with
        hashed := one.hashed ++ [(root hash height ((span items height (pos * 2)).map (·.1)),
          root hash height ((span items height (pos * 2)).map (·.1)))] }, (if_neg wide).trans ?_, ?_⟩
      · rw [← span_short short]
        rfl
      · exact taken_left matched short first rfl rfl rfl rfl

end Longcoin.MerkleBlock
