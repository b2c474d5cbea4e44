import Longcoin.BlockTreeInvariant

/-! Block locators (`chain.h`, `chain.cpp`, `main.cpp`): the active chain as the vector `vChain`, the
hashes with which a node tells a peer where it stands, and where the peer finds itself in them. -/

namespace Longcoin.BlockTree
open Primitives Library Ancestry Node

namespace Node

/-- `CChain::vChain` of the active chain: the block at each height, genesis first. -/
def vChain (s : Node) : List Uint256 := s.chainActive.reverse

/-- `chainActive.Contains`. -/
def contains (s : Node) (pindex : Uint256) : Bool := s.vChain[s.nHeight pindex]? == some pindex

/-- `chainActive.Next`. -/
def next (s : Node) (pindex : Uint256) : Option Uint256 :=
  if s.contains pindex then s.vChain[s.nHeight pindex + 1]? else none

/-- `CBlockIndex::GetAncestor`. -/
def getAncestor (s : Node) (pindex : Uint256) (height : Nat) : Option Uint256 := (s.path pindex).reverse[height]?

/-- Where the loop of `GetLocator` goes: by the vector of the active chain if the block is on it. -/
def stepBack (s : Node) (pindex : Uint256) (nHeight : Nat) : Option Uint256 :=
  if s.contains pindex then s.vChain[nHeight]? else s.getAncestor pindex nHeight

/-- The loop of `GetLocator`. The height falls at every turn, so the bound is the number of blocks below. -/
def locatorLoop (s : Node) : Nat → Nat → List Uint256 → Uint256 → List Uint256
  | 0, _, vHave, _ => vHave
  | bound + 1, nStep, vHave, pindex =>
      let vHave := vHave ++ [pindex]
      if s.nHeight pindex = 0 then vHave
      else
        match s.stepBack pindex (s.nHeight pindex - nStep) with
        | none => vHave
        | some pindex => locatorLoop s bound (if vHave.length > 10 then nStep * 2 else nStep) vHave pindex

/-- `chainActive.GetLocator`. -/
def getLocator (s : Node) (pindex : Option Uint256) : List Uint256 :=
  match pindex <|> s.tip with
  | none => []
  | some pindex => s.locatorLoop (s.nHeight pindex + 1) 1 [] pindex

/-- `FindForkInGlobalIndex(chainActive, locator)`. -/
def findForkInGlobalIndex (s : Node) (locator : List Uint256) : Option Uint256 :=
  match locator.find? fun hash => s.mapBlockIndex.contains hash && s.contains hash with
  | some pindex => some pindex
  | none => s.vChain[0]?

end Node

section Chain

variable {P : Params} {s : Node} {tip pindex : Uint256} {height : Nat}

theorem path_reverse_getElem {known : Uint256 → Prop} {ancestors : Uint256 → List Uint256} {root : Uint256}
    (tree : Tree known ancestors root) (isKnown : known tip) (found : (path ancestors tip).reverse[height]? = some pindex) :
    (ancestors pindex).length = height ∧ pindex ∈ path ancestors tip ∧
      (path ancestors pindex).reverse = (path ancestors tip).reverse.take (height + 1) := by
  have inside : height < (path ancestors tip).reverse.length := (List.getElem?_eq_some_iff.mp found).1
  have split : (path ancestors tip).reverse =
      (path ancestors tip).reverse.take height ++ pindex :: (path ancestors tip).reverse.drop (height + 1) := by
    rw [← (List.getElem?_eq_some_iff.mp found).2, List.getElem_cons_drop, List.take_append_drop]
  have turned : path ancestors tip = ((path ancestors tip).reverse.drop (height + 1)).reverse ++
      pindex :: ((path ancestors tip).reverse.take height).reverse := by
    have flipped := congrArg List.reverse split
    rw [List.reverse_reverse, List.reverse_append, List.reverse_cons, List.append_assoc] at flipped
    exact flipped
  have suffix : pindex :: ((path ancestors tip).reverse.take height).reverse <:+ path ancestors tip := ⟨_, turned.symm⟩
  have below := tree.eq_path_of_suffix isKnown suffix
  refine ⟨?_, suffix.subset List.mem_cons_self, ?_⟩
  · have same : ancestors pindex = ((path ancestors tip).reverse.take height).reverse := (List.cons.inj below).2.symm
    rw [same, List.length_reverse, List.length_take]
    omega
  · rw [← below, List.reverse_cons, List.reverse_reverse, List.take_add_one, found]
    rfl

section

variable (shape : Tree (· ∈ s.mapBlockIndex) s.ancestors P.hashGenesisBlock) (known : tip ∈ s.mapBlockIndex)
  (chain : s.chainActive = s.path tip) (found : s.vChain[height]? = some pindex)
include shape known chain found

theorem nHeight_of_vChain : s.nHeight pindex = height := by
  rw [vChain, chain] at found
  exact (path_reverse_getElem shape known found).1

theorem contains_of_vChain : s.contains pindex = true := by
  rw [contains, nHeight_of_vChain shape known chain found, found, beq_self_eq_true]

theorem next_of_vChain : s.next pindex = s.vChain[height + 1]? := by
  rw [next, if_pos (contains_of_vChain shape known chain found), nHeight_of_vChain shape known chain found]

end

theorem vChain_of_contains (holds : s.contains pindex = true) : s.vChain[s.nHeight pindex]? = some pindex :=
  beq_iff_eq.mp holds

end Chain

section Locators

variable {P : Params} {s : Node} {tip : Uint256}

section

variable (tree : Tree (· ∈ s.mapBlockIndex) s.ancestors P.hashGenesisBlock) (known : tip ∈ s.mapBlockIndex)
  (chain : s.chainActive = s.path tip)
include tree known chain

theorem mem_path_of_step {pindex back : Uint256} {nHeight : Nat} (lower : nHeight ≤ s.nHeight pindex)
    (stepped : s.stepBack pindex nHeight = some back) : back ∈ s.path pindex := by
  rw [stepBack] at stepped
  split_ifs at stepped with holds
  · have found := vChain_of_contains holds
    rw [vChain, chain] at found stepped
    have below := (path_reverse_getElem tree known found).2.2
    have reached : (s.path pindex).reverse[nHeight]? = some back := by
      calc (s.path pindex).reverse[nHeight]? = ((s.path tip).reverse.take (s.nHeight pindex + 1))[nHeight]? :=
            congrArg (·[nHeight]?) below
        _ = (s.path tip).reverse[nHeight]? := by rw [List.getElem?_take, if_pos (by omega)]
        _ = some back := stepped
    exact List.mem_reverse.mp (List.mem_of_getElem? reached)
  · exact List.mem_reverse.mp (List.mem_of_getElem? stepped)

theorem mem_locatorLoop (bound nStep : Nat) (vHave : List Uint256)
    {pindex hash : Uint256} (start : pindex ∈ s.mapBlockIndex) (member : hash ∈ s.locatorLoop bound nStep vHave pindex) :
    hash ∈ vHave ∨ hash ∈ s.path pindex := by
  induction bound generalizing nStep vHave pindex with
  | zero => exact .inl member
  | succ bound ih =>
    have here (inside : hash ∈ vHave ++ [pindex]) : hash ∈ vHave ∨ hash ∈ s.path pindex := by
      rcases List.mem_append.mp inside with before | same
      · exact .inl before
      · rw [List.mem_singleton.mp same]
        exact .inr (s.mem_path_self pindex)
    simp only [locatorLoop] at member
    by_cases bottom : s.nHeight pindex = 0
    · rw [if_pos bottom] at member
      exact here member
    · rw [if_neg bottom] at member
      split at member
      next missing => exact here member
      next back stepped =>
        have above := mem_path_of_step tree known chain (Nat.sub_le _ _) stepped
        rcases ih _ _ (tree.known_of_mem start above) member with inside | below
        · exact here inside
        · exact .inr (tree.mem_trans start above below)

theorem mem_path_of_mem_locator {pindex hash : Uint256}
    (start : pindex ∈ s.mapBlockIndex) (member : hash ∈ s.getLocator (some pindex)) : hash ∈ s.path pindex :=
  (mem_locatorLoop tree known chain _ _ _ start member).resolve_left List.not_mem_nil

end

theorem locatorLoop_grows (bound nStep : Nat) (vHave : List Uint256) (pindex : Uint256) :
    vHave <+: s.locatorLoop bound nStep vHave pindex := by
  induction bound generalizing nStep vHave pindex with
  | zero => exact List.prefix_rfl
  | succ bound ih =>
    have longer : vHave <+: vHave ++ [pindex] := List.prefix_append _ _
    simp only [locatorLoop]
    by_cases bottom : s.nHeight pindex = 0
    · rw [if_pos bottom]
      exact longer
    · rw [if_neg bottom]
      split
      · exact longer
      · exact longer.trans (ih _ _ _)

theorem locator_head (s : Node) (pindex : Uint256) : ∃ rest, s.getLocator (some pindex) = pindex :: rest := by
  have first : [pindex] <+: s.getLocator (some pindex) := by
    change [pindex] <+: s.locatorLoop (s.nHeight pindex + 1) 1 [] pindex
    simp only [locatorLoop, List.nil_append]
    by_cases bottom : s.nHeight pindex = 0
    · rw [if_pos bottom]
    · rw [if_neg bottom]
      split
      · exact List.prefix_rfl
      · exact locatorLoop_grows _ _ _ _
  obtain ⟨rest, whole⟩ := first
  exact ⟨rest, whole.symm⟩

end Locators

end Longcoin.BlockTree
