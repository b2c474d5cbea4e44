import Longcoin.SkipList

/-! The active chain as a vector of pointers (`CChain`), its fork with a block, and the last common ancestor of two blocks. -/

namespace Longcoin.Chain
open Library ParentForest List Option Bool Except

/-- `CChain::vChain`. -/
abbrev VChain := List (Option Nat)

namespace VChain

/-- `Tip()`. -/
def tip (vChain : VChain) : Option Nat := vChain.getLast?.join

/-- `Genesis()`. -/
def genesis (vChain : VChain) : Option Nat := vChain.head?.join

/-- `operator[]`. -/
def get (vChain : VChain) (nHeight : Int) : Option Nat :=
  if nHeight < 0 || nHeight ≥ vChain.length then none else vChain[nHeight.toNat]?.join

/-- `Height()`. -/
def height (vChain : VChain) : Int := vChain.length - 1

/-- `std::vector::resize`. -/
def resize (vChain : VChain) (size : Nat) : VChain := vChain.take size ++ List.replicate (size - vChain.length) none

end VChain

def contains (index : Index) (vChain : VChain) (pindex : Nat) : Except Fault Bool := do
  let block ← deref index (some pindex)
  return vChain.get block.nHeight == some pindex

def setTipLoop (index : Index) : Nat → Option Nat → VChain → Except Fault VChain
  | _, none, vChain => .ok vChain
  | 0, some _, _ => .error .endless
  | bound + 1, some pindex, vChain => do
      let block ← deref index (some pindex)
      match vChain[block.nHeight]? with
      | none => .error .badPointer
      | some slot =>
          if slot ≠ some pindex then setTipLoop index bound block.pprev (vChain.set block.nHeight (some pindex))
          else .ok vChain

def setTip (index : Index) (vChain : VChain) (pindex : Option Nat) : Except Fault VChain :=
  match pindex with
  | none => .ok []
  | some _ => do
      let block ← deref index pindex
      setTipLoop index (block.nHeight + 1) pindex (vChain.resize (block.nHeight + 1))

def findForkLoop (index : Index) (vChain : VChain) : Nat → Option Nat → Except Fault (Option Nat)
  | _, none => .ok none
  | 0, some _ => .error .endless
  | bound + 1, some pindex => do
      if ← contains index vChain pindex then return some pindex
      else
        let block ← deref index (some pindex)
        findForkLoop index vChain bound block.pprev

def findFork (index : Index) (vChain : VChain) (pindex : Option Nat) : Except Fault (Option Nat) :=
  match pindex with
  | none => .ok none
  | some _ => do
      let block ← deref index pindex
      let start ← if block.nHeight > vChain.height then getAncestor index pindex vChain.height else pure pindex
      findForkLoop index vChain (block.nHeight + 1) start

def lastCommonLoop (index : Index) : Nat → Option Nat → Option Nat → Except Fault (Option Nat)
  | bound, pa, pb =>
      if pa ≠ pb ∧ pa.isSome ∧ pb.isSome then
        match bound with
        | 0 => .error .endless
        | bound + 1 => do
            let blockA ← deref index pa
            let blockB ← deref index pb
            lastCommonLoop index bound blockA.pprev blockB.pprev
      else if pa = pb then .ok pa
      else .error .assertion

def lastCommonAncestor (index : Index) (pa pb : Option Nat) : Except Fault (Option Nat) := do
  let blockA ← deref index pa
  let blockB ← deref index pb
  if blockA.nHeight > blockB.nHeight then
    let pa ← getAncestor index pa blockB.nHeight
    lastCommonLoop index (blockB.nHeight + 1) pa pb
  else if blockB.nHeight > blockA.nHeight then
    let pb ← getAncestor index pb blockA.nHeight
    lastCommonLoop index (blockA.nHeight + 1) pa pb
  else lastCommonLoop index (blockA.nHeight + 1) pa pb

/-- The vector holds the ancestors of the tip by their heights. -/
def Path (index : Index) : Option Nat → VChain → Prop
  | none, vChain => vChain = []
  | some tip, vChain => tip < index.length ∧ vChain.length = nHeight index tip + 1 ∧
      ∀ height ≤ nHeight index tip, vChain[height]? = some (followPprev index (nHeight index tip - height) tip)

/-- A block that stands in a slot, up to that height, has its ancestors in the slots below. -/
def Consistent (index : Index) (vChain : VChain) (top : Nat) : Prop :=
  ∀ height < top, ∀ block, vChain[height]? = some (some block) →
    ∀ lower ≤ height, vChain[lower]? = some (followPprev index (height - lower) block)

theorem path_empty {index : Index} : Path index none [] := rfl

section Tip

variable {index : Index} {vChain : VChain} {pindex : Nat} {tip : Option Nat}

theorem Path.consistent (path : Path index tip vChain) (top : Nat) : Consistent index vChain top := by
  intro height _ block slot lower below
  cases tip with
  | none =>
    obtain rfl : vChain = [] := path
    cases slot
  | some tip =>
    obtain ⟨inside, length, slots⟩ := path
    have place : height < vChain.length := (List.getElem?_eq_some_iff.mp slot).1
    rw [slots height (by omega), some.injEq] at slot
    rw [slots lower (by omega)]
    have split : nHeight index tip - lower = nHeight index tip - height + (height - lower) := by omega
    rw [followPprev] at slot
    rw [followPprev, followPprev, split, climb_add, slot, bind_some]

theorem getElem?_resize (vChain : VChain) {size height : Nat} (inside : height < size) :
    (vChain.resize size)[height]? = some (vChain[height]?.join) := by
  rw [VChain.resize, getElem?_append, length_take]
  split_ifs with old
  · rw [getElem?_take_of_lt inside]
    obtain ⟨slot, here⟩ : ∃ slot, vChain[height]? = some slot := ⟨_, getElem?_eq_getElem (by omega)⟩
    rw [here]
    rfl
  · rw [getElem?_replicate_of_lt (by omega), getElem?_eq_none (by omega)]
    rfl

theorem Consistent.resize {size : Nat} (consistent : Consistent index vChain size) :
    Consistent index (vChain.resize size) size := by
  intro height inside block slot lower below
  rw [getElem?_resize vChain inside, some.injEq] at slot
  obtain ⟨inner, here, same⟩ : ∃ inner, vChain[height]? = some inner ∧ inner = some block := by
    cases found : vChain[height]? with
    | none => rw [found] at slot; cases slot
    | some inner => exact ⟨inner, rfl, by rw [found] at slot; exact slot⟩
  rw [same] at here
  rw [getElem?_resize vChain (below.trans_lt inside), consistent height inside block here lower below]
  rfl

theorem setTipLoop_none (index : Index) (bound : Nat) (vChain : VChain) : setTipLoop index bound none vChain = .ok vChain := by
  cases bound <;> rfl

theorem setTipLoop_eq (shape : WellFormed index) (bound : Nat) {vChain : VChain} (inside : pindex < index.length)
    (enough : nHeight index pindex < bound) (length : nHeight index pindex < vChain.length)
    (consistent : Consistent index vChain (nHeight index pindex + 1)) :
    ∃ vChain', setTipLoop index bound (some pindex) vChain = .ok vChain' ∧ vChain'.length = vChain.length ∧
      (∀ height ≤ nHeight index pindex, vChain'[height]? = some (followPprev index (nHeight index pindex - height) pindex)) ∧
      ∀ height, nHeight index pindex < height → vChain'[height]? = vChain[height]? := by
  induction bound generalizing pindex vChain with
  | zero => omega
  | succ bound ih =>
    obtain ⟨block, here⟩ := WellFormed.exists_of_lt inside
    have value := WellFormed.nHeight_eq here
    obtain ⟨slot, found⟩ : ∃ slot, vChain[block.nHeight]? = some slot := ⟨_, getElem?_eq_getElem (by omega)⟩
    rw [setTipLoop, WellFormed.deref_eq here]
    dsimp only [bind, Except.bind]
    rw [found]
    dsimp only
    by_cases same : slot = some pindex
    · -- The slot matches already, so the slots below do.
      rw [if_neg (not_not.mpr same)]
      refine ⟨vChain, rfl, rfl, fun height low => ?_, fun _ _ => rfl⟩
      rw [same, ← value] at found
      exact consistent _ (Nat.lt_succ_self _) pindex found height low
    · rw [if_pos same]
      have new : (vChain.set block.nHeight (some pindex))[nHeight index pindex]? = some (some pindex) := by
        rw [value, getElem?_set_self (by omega)]
      have old {height : Nat} (other : height ≠ nHeight index pindex) :
          (vChain.set block.nHeight (some pindex))[height]? = vChain[height]? := by
        rw [getElem?_set_ne (by omega)]
      obtain parent | ⟨above, parent⟩ := eq_none_or_eq_some block.pprev
      · have bottom := shape.root pindex block here parent
        rw [parent]
        refine ⟨_, setTipLoop_none .., length_set, fun height low => ?_, fun height high => old (by omega)⟩
        obtain rfl : height = nHeight index pindex := by omega
        rw [new, Nat.sub_self]
        rfl
      · obtain ⟨prev, there, one⟩ := shape.child pindex block above here parent
        have lower := WellFormed.nHeight_eq there
        have below : Consistent index (vChain.set block.nHeight (some pindex)) (nHeight index above + 1) := by
          intro height low other slot deeper order
          rw [old (by omega)] at slot ⊢
          exact consistent height (by omega) other slot deeper order
        obtain ⟨vChain', done, size, slots, kept⟩ := ih (WellFormed.lt_of_here there) (by omega)
          (by rw [length_set]; omega) below
        rw [parent]
        refine ⟨vChain', done, size.trans length_set, fun height low => ?_, fun height high => ?_⟩
        · rcases Nat.lt_or_ge height (nHeight index pindex) with less | more
          · have split : nHeight index pindex - height = nHeight index above - height + 1 := by omega
            rw [slots height (by omega), followPprev, followPprev, split, climb, WellFormed.pprev_eq here, parent,
              bind_some]
          · obtain rfl : height = nHeight index pindex := by omega
            rw [kept _ (by omega), new, Nat.sub_self]
            rfl
        · rw [kept height (by omega), old (by omega)]

/-- `SetTip` leaves the path of the new tip, whatever tip there was. -/
theorem setTip_eq (shape : WellFormed index) (path : Path index tip vChain) {pindex : Option Nat}
    (valid : ∀ place ∈ pindex, place < index.length) : ∃ vChain', setTip index vChain pindex = .ok vChain' ∧ Path index pindex vChain' := by
  cases pindex with
  | none => exact ⟨[], rfl, rfl⟩
  | some pindex =>
    have inside := valid pindex rfl
    obtain ⟨block, here⟩ := WellFormed.exists_of_lt inside
    have value := WellFormed.nHeight_eq here
    have size : (vChain.resize (block.nHeight + 1)).length = block.nHeight + 1 := by
      rw [VChain.resize, length_append, length_take, length_replicate]
      omega
    obtain ⟨vChain', done, length, slots, -⟩ := setTipLoop_eq shape (block.nHeight + 1) inside (by omega) (by rw [size]; omega)
      (by rw [value]; exact (path.consistent _).resize)
    refine ⟨vChain', ?_, inside, by omega, slots⟩
    rw [setTip, WellFormed.deref_eq here]
    exact done

theorem setTips_eq (shape : WellFormed index) {tips : List (Option Nat)} (path : Path index tip vChain)
    (valid : ∀ next ∈ tips, ∀ place ∈ next, place < index.length) :
    ∃ vChain', tips.foldlM (setTip index) vChain = .ok vChain' ∧ Path index (tips.getLast?.getD tip) vChain' := by
  induction tips generalizing tip vChain with
  | nil => exact ⟨vChain, rfl, path⟩
  | cons next tips ih =>
    obtain ⟨middle, first, path'⟩ := setTip_eq shape path (valid next mem_cons_self)
    obtain ⟨vChain', rest, last⟩ := ih path' (forall_mem_cons.mp valid).2
    refine ⟨vChain', ?_, ?_⟩
    · rw [foldlM_cons, first]
      exact rest
    · rw [getLast?_cons]
      exact last

def InChain (index : Index) (tip : Option Nat) (pindex : Nat) : Prop := ∃ top ∈ tip, Ancestor (pprev index) pindex top

theorem Path.get_eq (path : Path index tip vChain) (height : Nat) :
    vChain.get height = tip.bind fun top => if height ≤ nHeight index top then followPprev index (nHeight index top - height) top else none := by
  rw [VChain.get, Int.toNat_natCast]
  cases tip with
  | none =>
    obtain rfl : vChain = [] := path
    simp
  | some top =>
    obtain ⟨inside, length, slots⟩ := path
    rw [bind_some]
    by_cases low : height ≤ nHeight index top
    · rw [if_pos low, slots height low, if_neg]
      · rfl
      · rw [or_eq_true, decide_eq_true_iff, decide_eq_true_iff]
        omega
    · rw [if_neg low, if_pos]
      rw [or_eq_true, decide_eq_true_iff, decide_eq_true_iff]
      omega

theorem Path.tip_eq (path : Path index tip vChain) : vChain.tip = tip := by
  cases tip with
  | none =>
    obtain rfl : vChain = [] := path
    rfl
  | some top =>
    obtain ⟨inside, length, slots⟩ := path
    rw [VChain.tip, getLast?_eq_getElem?, length, Nat.add_sub_cancel, slots _ le_rfl, Nat.sub_self]
    rfl

theorem Path.contains_eq (shape : WellFormed index) (path : Path index tip vChain) (inside : pindex < index.length) :
    ∃ answer, contains index vChain pindex = .ok answer ∧ (answer = true ↔ InChain index tip pindex) := by
  obtain ⟨block, here⟩ := WellFormed.exists_of_lt inside
  have value := WellFormed.nHeight_eq here
  refine ⟨vChain.get block.nHeight == some pindex, ?_, ?_⟩
  · rw [contains, WellFormed.deref_eq here]
    rfl
  · rw [beq_iff_eq, path.get_eq, InChain, ← value]
    constructor
    · intro found
      obtain ⟨top, here, rest⟩ := bind_eq_some_iff.mp found
      split_ifs at rest with low
      exact ⟨top, here, _, rest⟩
    · rintro ⟨top, here, below⟩
      obtain ⟨low, found⟩ := shape.graded.ancestor_iff.mp below
      rw [here, bind_some, if_pos low]
      exact found

theorem InChain.nHeight_le (shape : WellFormed index) (path : Path index tip vChain) (member : InChain index tip pindex) :
    (nHeight index pindex : Int) ≤ vChain.height := by
  obtain ⟨top, here, below⟩ := member
  rw [here] at path
  obtain ⟨-, length, -⟩ := path
  have low := shape.graded.height_le below
  rw [VChain.height]
  omega

/-- The answer of `FindFork`: the highest block that is an ancestor of the block and in the chain, if there is one. -/
def IsFork (index : Index) (tip : Option Nat) (pindex : Nat) (answer : Option Nat) : Prop :=
  (∀ fork ∈ answer, Ancestor (pprev index) fork pindex ∧ InChain index tip fork) ∧
    ∀ other, Ancestor (pprev index) other pindex → InChain index tip other → ∃ fork ∈ answer, Ancestor (pprev index) other fork

theorem findForkLoop_eq (shape : WellFormed index) (path : Path index tip vChain) (bound : Nat) (inside : pindex < index.length)
    (enough : nHeight index pindex < bound) :
    ∃ answer, findForkLoop index vChain bound (some pindex) = .ok answer ∧ IsFork index tip pindex answer := by
  induction bound generalizing pindex with
  | zero => omega
  | succ bound ih =>
    obtain ⟨block, here⟩ := WellFormed.exists_of_lt inside
    have value := WellFormed.nHeight_eq here
    obtain ⟨holds, checked, meaning⟩ := path.contains_eq shape inside
    rw [findForkLoop, checked]
    dsimp only [bind, Except.bind]
    cases holds with
    | true =>
      refine ⟨some pindex, rfl, ?_, fun other below _ => ⟨pindex, rfl, below⟩⟩
      rintro fork ⟨⟩
      exact ⟨.refl _, meaning.mp rfl⟩
    | false =>
      have out : ¬ InChain index tip pindex := fun member => Bool.false_ne_true (meaning.mpr member)
      rw [if_neg Bool.false_ne_true, WellFormed.deref_eq here]
      dsimp only
      obtain parent | ⟨above, parent⟩ := eq_none_or_eq_some block.pprev
      · refine ⟨none, by rw [parent]; cases bound <;> rfl, fun fork none => absurd none (not_mem_none _), ?_⟩
        intro other below member
        rcases Ancestor.cases_parent.mp below with rfl | ⟨above, up, -⟩
        · exact absurd member out
        · rw [WellFormed.pprev_eq here, parent] at up
          cases up
      · obtain ⟨prev, there, one⟩ := shape.child pindex block above here parent
        have lower := WellFormed.nHeight_eq there
        have up : pprev index pindex = some above := (WellFormed.pprev_eq here).trans parent
        obtain ⟨answer, done, right, last⟩ := ih (WellFormed.lt_of_here there) (by omega)
        rw [parent]
        refine ⟨answer, done, fun fork found => ⟨.of_parent up (right fork found).1, (right fork found).2⟩, ?_⟩
        intro other below member
        rcases Ancestor.cases_parent.mp below with rfl | ⟨above', up', rest⟩
        · exact absurd member out
        · rw [up, Option.some.injEq] at up'
          exact last other (up' ▸ rest) member

theorem findFork_eq (shape : WellFormed index) (path : Path index tip vChain) (inside : pindex < index.length) :
    ∃ answer, findFork index vChain (some pindex) = .ok answer ∧ IsFork index tip pindex answer := by
  obtain ⟨block, here⟩ := WellFormed.exists_of_lt inside
  have value := WellFormed.nHeight_eq here
  rw [findFork, WellFormed.deref_eq here]
  dsimp only [bind, Except.bind]
  by_cases high : (block.nHeight : Int) > vChain.height
  · rw [if_pos high, shape.getAncestor_eq inside]
    dsimp only
    by_cases some : 0 ≤ vChain.height
    · obtain ⟨top, level⟩ := Int.eq_ofNat_of_zero_le some
      obtain ⟨start, found, low⟩ := shape.followPprev_exists (by omega : top ≤ nHeight index pindex)
      rw [if_pos ⟨some, by omega⟩, level, Int.toNat_natCast, found]
      obtain ⟨answer, done, right, last⟩ := findForkLoop_eq shape path (block.nHeight + 1) (shape.ancestor_lt inside found) (by omega)
      have lower : Ancestor (pprev index) start pindex := ⟨_, found⟩
      refine ⟨answer, done, fun fork member => ⟨lower.trans (right fork member).1, (right fork member).2⟩, ?_⟩
      intro other below member
      have order := member.nHeight_le shape path
      exact last other (shape.graded.ancestor_of_le below lower (by omega)) member
    · rw [if_neg (fun range => some range.1)]
      refine ⟨none, rfl, fun fork none => absurd none (not_mem_none _), fun other below member => ?_⟩
      have order := member.nHeight_le shape path
      omega
  · rw [if_neg high]
    exact findForkLoop_eq shape path (block.nHeight + 1) inside (by omega)

def SingleRooted (index : Index) : Prop := ∀ first < index.length, ∀ second < index.length,
  pprev index first = none → pprev index second = none → first = second

theorem lastCommonLoop_eq (shape : WellFormed index) (single : SingleRooted index) (bound : Nat) {first second : Nat}
    (inside : first < index.length) (inside' : second < index.length) (level : nHeight index first = nHeight index second)
    (enough : nHeight index first < bound) : ∃ meet, lastCommonLoop index bound (some first) (some second) = .ok (some meet) ∧
      Meet (pprev index) first second meet := by
  induction bound generalizing first second with
  | zero => omega
  | succ bound ih =>
    rw [lastCommonLoop]
    by_cases same : first = second
    · subst same
      rw [if_neg (fun differ => differ.1 rfl), if_pos rfl]
      exact ⟨first, rfl, .refl _, .refl _, fun other below _ => below⟩
    · rw [if_pos ⟨fun equal => same (some.inj equal), rfl, rfl⟩]
      obtain ⟨block, here⟩ := WellFormed.exists_of_lt inside
      obtain ⟨block', here'⟩ := WellFormed.exists_of_lt inside'
      have up := WellFormed.pprev_eq here
      have up' := WellFormed.pprev_eq here'
      have value := WellFormed.nHeight_eq here
      have value' := WellFormed.nHeight_eq here'
      rw [WellFormed.deref_eq here, WellFormed.deref_eq here']
      dsimp only [bind, Except.bind]
      obtain parent | ⟨above, parent⟩ := eq_none_or_eq_some block.pprev
      · have bottom := shape.root first block here parent
        obtain parent' | ⟨above', parent'⟩ := eq_none_or_eq_some block'.pprev
        · exact absurd (single first inside second inside' (up.trans parent) (up'.trans parent')) same
        · obtain ⟨prev', there', one'⟩ := shape.child second block' above' here' parent'
          omega
      · obtain ⟨prev, there, one⟩ := shape.child first block above here parent
        obtain parent' | ⟨above', parent'⟩ := eq_none_or_eq_some block'.pprev
        · have bottom := shape.root second block' here' parent'
          omega
        · obtain ⟨prev', there', one'⟩ := shape.child second block' above' here' parent'
          have lower := WellFormed.nHeight_eq there
          have lower' := WellFormed.nHeight_eq there'
          obtain ⟨meet, done, meets⟩ := ih (WellFormed.lt_of_here there) (WellFormed.lt_of_here there') (by omega) (by omega)
          rw [parent, parent']
          exact ⟨meet, done, shape.graded.meet_parents same level (up.trans parent) (up'.trans parent') meets⟩

theorem lastCommonAncestor_eq (shape : WellFormed index) (single : SingleRooted index) {first second : Nat}
    (inside : first < index.length) (inside' : second < index.length) :
    ∃ meet, lastCommonAncestor index (some first) (some second) = .ok (some meet) ∧ Meet (pprev index) first second meet := by
  obtain ⟨block, here⟩ := WellFormed.exists_of_lt inside
  obtain ⟨block', here'⟩ := WellFormed.exists_of_lt inside'
  have value := WellFormed.nHeight_eq here
  have value' := WellFormed.nHeight_eq here'
  rw [lastCommonAncestor, WellFormed.deref_eq here, WellFormed.deref_eq here']
  dsimp only [bind, Except.bind]
  rcases lt_trichotomy block.nHeight block'.nHeight with less | same | more
  · obtain ⟨lower, found, level⟩ := shape.followPprev_exists (by omega : block.nHeight ≤ nHeight index second)
    obtain ⟨meet, done, meets⟩ := lastCommonLoop_eq shape single (block.nHeight + 1) inside (shape.ancestor_lt inside' found)
      (by omega) (by omega)
    rw [if_neg (by omega), if_pos less, shape.getAncestor_eq inside', if_pos (by omega), Int.toNat_natCast, found]
    exact ⟨meet, done, (shape.graded.meet_lower ⟨_, found⟩ (by omega) meets.symm).symm⟩
  · rw [if_neg (by omega), if_neg (by omega)]
    exact lastCommonLoop_eq shape single _ inside inside' (by omega) (by omega)
  · obtain ⟨lower, found, level⟩ := shape.followPprev_exists (by omega : block'.nHeight ≤ nHeight index first)
    obtain ⟨meet, done, meets⟩ := lastCommonLoop_eq shape single (block'.nHeight + 1) (shape.ancestor_lt inside found) inside'
      (by omega) (by omega)
    rw [if_pos more, shape.getAncestor_eq inside, if_pos (by omega), Int.toNat_natCast, found]
    exact ⟨meet, done, shape.graded.meet_lower ⟨_, found⟩ (by omega) meets⟩

end Tip

structure ChainOf (index : Index) (tip : Option Nat) (vChain : VChain) : Prop where
  last : vChain.tip = tip
  slots : ∀ height : Nat, vChain.get height =
    tip.bind fun top => if height ≤ nHeight index top then followPprev index (nHeight index top - height) top else none
  contains : ∀ pindex < index.length, ∃ answer, contains index vChain pindex = .ok answer ∧ (answer = true ↔ InChain index tip pindex)
  fork : ∀ pindex < index.length, ∃ answer, findFork index vChain (some pindex) = .ok answer ∧ IsFork index tip pindex answer

/-- After any calls of `SetTip` the vector is the path of the last tip, and the common ancestors are found. -/
theorem setTip_path {calls : List Build} {index : Index} {tips : List (Option Nat)} (built : calls.foldlM build [] = .ok index)
    (valid : ∀ tip ∈ tips, ∀ pindex ∈ tip, pindex < index.length) :
    (∃ vChain, tips.foldlM (setTip index) [] = .ok vChain ∧ ChainOf index (tips.getLast?.getD none) vChain) ∧
      (SingleRooted index → ∀ first < index.length, ∀ second < index.length, ∃ meet,
        lastCommonAncestor index (some first) (some second) = .ok (some meet) ∧ Meet (pprev index) first second meet) := by
  have shape := WellFormed.empty.of_built built
  obtain ⟨vChain, done, path⟩ := setTips_eq shape path_empty valid
  refine ⟨⟨vChain, done, path.tip_eq, path.get_eq, ?_, ?_⟩, ?_⟩
  · exact fun pindex inside => path.contains_eq shape inside
  · exact fun pindex inside => findFork_eq shape path inside
  · exact fun single first inside second inside' => lastCommonAncestor_eq shape single inside inside'

def branches : Index := [⟨0, none, none, 0⟩, ⟨1, some 0, some 0, 1⟩, ⟨2, some 1, some 0, 2⟩, ⟨3, some 0, none, 1⟩]

theorem branches_built : [Build.addBlock 0 none, .addBlock 1 (some 0), .buildSkip 1, .addBlock 2 (some 1), .buildSkip 2,
    .addBlock 3 (some 0)].foldlM build [] = .ok branches := rfl

theorem branches_path : Path branches (some 2) [some 0, some 1, some 2] := by
  unfold Chain.Path
  decide

theorem setTip_path_branches :
    (∃ vChain, [some 2, none, some 3, some 2].foldlM (setTip branches) [] = .ok vChain ∧ ChainOf branches (some 2) vChain) ∧
      (SingleRooted branches → ∀ first < branches.length, ∀ second < branches.length, ∃ meet,
        lastCommonAncestor branches (some first) (some second) = .ok (some meet) ∧ Meet (pprev branches) first second meet) :=
  @setTip_path _ _ [some 2, none, some 3, some 2] branches_built (by decide)

end Longcoin.Chain
