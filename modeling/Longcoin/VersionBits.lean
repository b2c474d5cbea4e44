import Longcoin.Primitives
import Longcoin.Library.Ancestry

/-! The state of a soft fork (`versionbits.cpp`): `GetStateFor` with its cache gives what the plain
recursion over the periods gives. A `CBlockIndex` pointer is a block hash, and null is `none`. -/

namespace Longcoin.VersionBits
open Primitives Library Ancestry Option

structure BlockIndex where
  mapBlockIndex : List Uint256
  hashGenesisBlock : Uint256
  ancestors : Uint256 → List Uint256
  nTime : Uint256 → Nat
  nVersion : Uint256 → BitVec 32
  tree : Tree (· ∈ mapBlockIndex) ancestors hashGenesisBlock

namespace BlockIndex

/-- A pointer and the chain of its `pprev` pointers. -/
def path (I : BlockIndex) : Option Uint256 → List Uint256
  | none => []
  | some pindex => Ancestry.path I.ancestors pindex

def nHeight (I : BlockIndex) (pindex : Uint256) : Int := (I.ancestors pindex).length

def pprev (I : BlockIndex) (pindex : Uint256) : Option Uint256 := (I.ancestors pindex).head?

/-- `CBlockIndex::GetAncestor`; the skip pointers only make it faster. -/
def getAncestor (I : BlockIndex) (pindex : Uint256) (height : Int) : Option Uint256 :=
  if height > I.nHeight pindex ∨ height < 0 then none
  else (I.path (some pindex))[(I.nHeight pindex - height).toNat]?

def nMedianTimeSpan : Nat := 11

/-- `GetMedianTimePast`. -/
def getMedianTimePast (I : BlockIndex) (pindex : Uint256) : Int :=
  let times := (((I.path (some pindex)).take nMedianTimeSpan).map I.nTime).insertionSort (· ≤ ·)
  (times[times.length / 2]?).getD 0

end BlockIndex

inductive ThresholdState where
  | defined
  | started
  | lockedIn
  | active
  | failed
deriving DecidableEq, Repr

abbrev ThresholdConditionCache := Option Uint256 → Option ThresholdState

/-- `AbstractThresholdConditionChecker`: what its subclasses fill in. -/
structure Checker where
  condition : Uint256 → Bool
  beginTime : Int
  endTime : Int
  period : Nat
  threshold : Int
  positive : 0 < period

namespace Checker

/-- The loop that counts the signalling blocks; `none` would be a null pointer that is followed. -/
def count (I : BlockIndex) (C : Checker) : Nat → Option Uint256 → Option Int
  | 0, _ => some 0
  | _ + 1, none => none
  | i + 1, some pindexCount => do
      let rest ← count I C i (I.pprev pindexCount)
      return (if C.condition pindexCount then 1 else 0) + rest

/-- The `switch` over the state before a period whose last block is `pindexPrev`. -/
def stateNext (I : BlockIndex) (C : Checker) (state : ThresholdState) (pindexPrev : Uint256) : Option ThresholdState :=
  match state with
  | .defined =>
      if I.getMedianTimePast pindexPrev ≥ C.endTime then some .failed
      else if I.getMedianTimePast pindexPrev ≥ C.beginTime then some .started
      else some .defined
  | .started =>
      if I.getMedianTimePast pindexPrev ≥ C.endTime then some .failed
      else do
        let count ← C.count I C.period (some pindexPrev)
        return if count ≥ C.threshold then .lockedIn else .started
  | .lockedIn => some .active
  | .failed => some .failed
  | .active => some .active

/-- The walk back to a pointer whose state is known; `vToCompute` has the last pointer first. -/
def walkBack (I : BlockIndex) (C : Checker) : Nat → ThresholdConditionCache → Option Uint256 → List Uint256 →
    Option (ThresholdConditionCache × Option Uint256 × List Uint256)
  | 0, _, _, _ => none
  | fuel + 1, cache, pindexPrev, vToCompute =>
      if (cache pindexPrev).isSome then some (cache, pindexPrev, vToCompute)
      else
        match pindexPrev with
        | none => some (Function.update cache none (some .defined), none, vToCompute)
        | some pindex =>
            if I.getMedianTimePast pindex < C.beginTime then
              some (Function.update cache (some pindex) (some .defined), some pindex, vToCompute)
            else walkBack I C fuel cache (I.getAncestor pindex (I.nHeight pindex - C.period)) (pindex :: vToCompute)

def walkForward (I : BlockIndex) (C : Checker) : ThresholdConditionCache → ThresholdState → List Uint256 →
    Option (ThresholdState × ThresholdConditionCache)
  | cache, state, [] => some (state, cache)
  | cache, state, pindexPrev :: vToCompute => do
      let state ← C.stateNext I state pindexPrev
      walkForward I C (Function.update cache (some pindexPrev) (some state)) state vToCompute

/-- The last block of the period before the one a block would be in. -/
def periodEnd (I : BlockIndex) (C : Checker) : Option Uint256 → Option Uint256
  | none => none
  | some pindexPrev => I.getAncestor pindexPrev (I.nHeight pindexPrev - (I.nHeight pindexPrev + 1) % C.period)

/-- `GetStateFor`. -/
def getStateFor (I : BlockIndex) (C : Checker) (pindexPrev : Option Uint256) (cache : ThresholdConditionCache) :
    Option (ThresholdState × ThresholdConditionCache) := do
  let pindexPrev := C.periodEnd I pindexPrev
  let (cache, pindexPrev, vToCompute) ← C.walkBack I ((I.path pindexPrev).length + 1) cache pindexPrev []
  let state ← cache pindexPrev
  C.walkForward I cache state vToCompute

def answers (I : BlockIndex) (C : Checker) : ThresholdConditionCache → List (Option Uint256) → Option (List ThresholdState)
  | _, [] => some []
  | cache, pindexPrev :: queries => do
      let (state, cache) ← C.getStateFor I pindexPrev cache
      let rest ← answers I C cache queries
      return state :: rest

end Checker

def versionBitsCondition (I : BlockIndex) (bit : Nat) (pindex : Uint256) : Bool :=
  (I.nVersion pindex &&& 0xE0000000#32) == 0x20000000#32 && (I.nVersion pindex &&& (1#32 <<< bit)) != 0

namespace Checker

/-- The state after one more period, by the definition of the soft fork: `blocks` is the chain at the
end of the period, the last block first. -/
def nextPeriod (I : BlockIndex) (C : Checker) (state : ThresholdState) (blocks : List Uint256) : ThresholdState :=
  let median := (blocks.head?.map I.getMedianTimePast).getD 0
  match state with
  | .defined => if C.endTime ≤ median then .failed else if C.beginTime ≤ median then .started else .defined
  | .started =>
      if C.endTime ≤ median then .failed
      else if C.threshold ≤ (blocks.take C.period).countP C.condition then .lockedIn else .started
  | .lockedIn => .active
  | .failed => .failed
  | .active => .active

def stateAfter (I : BlockIndex) (C : Checker) : Nat → List Uint256 → ThresholdState
  | 0, _ => .defined
  | periods + 1, blocks => C.nextPeriod I (stateAfter I C periods (blocks.drop C.period)) blocks

/-- The state for the block after `pindexPrev`: that of the whole periods behind it. -/
def stateByDefinition (I : BlockIndex) (C : Checker) (pindexPrev : Option Uint256) : ThresholdState :=
  let blocks := I.path pindexPrev
  C.stateAfter I (blocks.length / C.period) (blocks.drop (blocks.length % C.period))

end Checker

variable {I : BlockIndex} {C : Checker}

def Known (I : BlockIndex) (pindexPrev : Option Uint256) : Prop := ∀ pindex, pindexPrev = some pindex → pindex ∈ I.mapBlockIndex

theorem nHeight_eq (I : BlockIndex) (pindex : Uint256) : I.nHeight pindex + 1 = (I.path (some pindex)).length := by
  rw [BlockIndex.nHeight, BlockIndex.path, Ancestry.path, List.length_cons]
  omega

variable {pindex : Uint256}

theorem getAncestor_back (known : pindex ∈ I.mapBlockIndex) (back : Nat) :
    Known I (I.getAncestor pindex (I.nHeight pindex - back)) ∧
      I.path (I.getAncestor pindex (I.nHeight pindex - back)) = (I.path (some pindex)).drop back := by
  have height := nHeight_eq I pindex
  rw [BlockIndex.getAncestor]
  by_cases short : (I.path (some pindex)).length ≤ back
  · rw [if_pos (by omega), List.drop_eq_nil_of_le short]
    exact ⟨by simp [Known], rfl⟩
  · rw [if_neg (by omega)]
    have index : (I.nHeight pindex - (I.nHeight pindex - back)).toNat = back := by omega
    rw [index, List.getElem?_eq_getElem (by omega)]
    have split := List.drop_eq_getElem_cons (l := I.path (some pindex)) (i := back) (by omega)
    have suffix : (I.path (some pindex))[back] :: (I.path (some pindex)).drop (back + 1) <:+ I.path (some pindex) :=
      split ▸ List.drop_suffix _ _
    constructor
    · rintro other same
      rw [← some.inj same]
      exact I.tree.known_of_mem known (suffix.subset List.mem_cons_self)
    · rw [split]
      exact (I.tree.eq_path_of_suffix known suffix).symm

variable {pindexPrev : Option Uint256}

open Checker

theorem periodEnd_spec (known : Known I pindexPrev) : Known I (C.periodEnd I pindexPrev) ∧
      I.path (C.periodEnd I pindexPrev) = (I.path pindexPrev).drop ((I.path pindexPrev).length % C.period) := by
  cases pindexPrev with
  | none => exact ⟨known, rfl⟩
  | some pindex =>
    have height := nHeight_eq I pindex
    have back := getAncestor_back (known pindex rfl) ((I.path (some pindex)).length % C.period)
    have same : (I.nHeight pindex + 1) % (C.period : Int) = (((I.path (some pindex)).length % C.period : Nat) : Int) := by
      rw [height]
      rfl
    rw [periodEnd, same]
    exact back

/-- The pointers that the cache is about: the chain behind them is a number of whole periods. -/
structure AtPeriodEnd (I : BlockIndex) (C : Checker) (pindexPrev : Option Uint256) : Prop where
  known : Known I pindexPrev
  whole : (I.path pindexPrev).length % C.period = 0

theorem whole_of_length {length period : Nat} (positive : 0 < period) (whole : length % period = 0) (nonempty : length ≠ 0) :
    period ≤ length ∧ length / period = (length - period) / period + 1 ∧ (length - period) % period = 0 := by
  have enough : period ≤ length := Nat.le_of_dvd (Nat.pos_of_ne_zero nonempty) (Nat.dvd_of_mod_eq_zero whole)
  refine ⟨enough, Nat.div_eq_sub_div positive enough, ?_⟩
  rw [← Nat.mod_eq_sub_mod enough]
  exact whole

theorem stateByDefinition_of_whole (whole : (I.path pindexPrev).length % C.period = 0) :
    C.stateByDefinition I pindexPrev = C.stateAfter I ((I.path pindexPrev).length / C.period) (I.path pindexPrev) := by
  rw [stateByDefinition, whole]
  rfl

def before (I : BlockIndex) (C : Checker) (pindex : Uint256) : Option Uint256 :=
  I.getAncestor pindex (I.nHeight pindex - C.period)

namespace AtPeriodEnd

theorem enough {pindex : Uint256} (atEnd : AtPeriodEnd I C (some pindex)) : C.period ≤ (I.path (some pindex)).length :=
  (whole_of_length C.positive atEnd.whole (by simp [BlockIndex.path, Ancestry.path])).1

theorem back {pindex : Uint256} (atEnd : AtPeriodEnd I C (some pindex)) : AtPeriodEnd I C (before I C pindex) ∧
    I.path (before I C pindex) = (I.path (some pindex)).drop C.period ∧ C.stateByDefinition I (some pindex) =
        C.nextPeriod I (C.stateByDefinition I (before I C pindex)) (I.path (some pindex)) := by
  obtain ⟨known, path⟩ := getAncestor_back (atEnd.known pindex rfl) C.period
  obtain ⟨-, quotient, whole⟩ := whole_of_length C.positive atEnd.whole
    (by simp [BlockIndex.path, Ancestry.path] : (I.path (some pindex)).length ≠ 0)
  have length : (I.path (before I C pindex)).length = (I.path (some pindex)).length - C.period := by
    rw [before, path, List.length_drop]
  have wholeBefore : (I.path (before I C pindex)).length % C.period = 0 := length.symm ▸ whole
  refine ⟨⟨known, wholeBefore⟩, path, ?_⟩
  rw [stateByDefinition_of_whole atEnd.whole, quotient, stateAfter, stateByDefinition_of_whole wholeBefore, length]
  exact congrArg (fun blocks => C.nextPeriod I (C.stateAfter I _ blocks) _) path.symm

end AtPeriodEnd

theorem pprev_spec (known : pindex ∈ I.mapBlockIndex) :
    Known I (I.pprev pindex) ∧ I.path (I.pprev pindex) = I.ancestors pindex := by
  by_cases genesis : pindex = I.hashGenesisBlock
  · rw [BlockIndex.pprev, genesis, I.tree.root_ancestors]
    exact ⟨by simp [Known], rfl⟩
  · obtain ⟨parent, parentKnown, list⟩ := I.tree.child pindex known genesis
    rw [BlockIndex.pprev, list]
    refine ⟨fun other same => ?_, rfl⟩
    rw [← some.inj same]
    exact parentKnown

theorem count_spec (i : Nat) : ∀ pindexCount : Option Uint256, Known I pindexCount → i ≤ (I.path pindexCount).length →
    C.count I i pindexCount = some (((I.path pindexCount).take i).countP C.condition : Int) := by
  induction i with
  | zero => exact fun _ _ _ => rfl
  | succ i ih =>
    intro pindexCount known enough
    cases pindexCount with
    | none => simp [BlockIndex.path] at enough
    | some pindex =>
      obtain ⟨prevKnown, path⟩ := pprev_spec (known pindex rfl)
      have whole : I.path (some pindex) = pindex :: I.path (I.pprev pindex) := by
        rw [path]
        rfl
      rw [whole, List.length_cons] at enough
      rw [count, ih (I.pprev pindex) prevKnown (by omega), whole, List.take_succ_cons, List.countP_cons]
      cases C.condition pindex
      · simp
      · simp [add_comm]

theorem stateNext_spec (atEnd : AtPeriodEnd I C (some pindex)) (state : ThresholdState) :
    C.stateNext I state pindex = some (C.nextPeriod I state (I.path (some pindex))) := by
  have counted := count_spec (C := C) C.period (some pindex) atEnd.known atEnd.enough
  have median : ((I.path (some pindex)).head?.map I.getMedianTimePast).getD 0 = I.getMedianTimePast pindex := rfl
  cases state with
  | defined =>
    simp only [stateNext, nextPeriod, median, ge_iff_le]
    split_ifs <;> rfl
  | started =>
    simp only [stateNext, nextPeriod, median, counted, ge_iff_le]
    split_ifs <;> simp_all
  | lockedIn => rfl
  | active => rfl
  | failed => rfl

/-- The median time does not decrease from a block to its children. -/
def MedianGrows (I : BlockIndex) : Prop := ∀ pindex ∈ I.mapBlockIndex, ∀ parent, I.pprev pindex = some parent →
  I.getMedianTimePast parent ≤ I.getMedianTimePast pindex

/-- No block is past the timeout before the start; so it is whenever the start is not after the timeout. -/
def NeverTooEarly (I : BlockIndex) (C : Checker) : Prop :=
  ∀ pindex ∈ I.mapBlockIndex, I.getMedianTimePast pindex < C.beginTime → I.getMedianTimePast pindex < C.endTime

theorem median_le {other : Uint256} (grows : MedianGrows I) (known : pindex ∈ I.mapBlockIndex)
    (member : other ∈ I.path (some pindex)) : I.getMedianTimePast other ≤ I.getMedianTimePast pindex := by
  refine I.tree.le_of_mem_path I.getMedianTimePast (fun node parent nodeKnown list => ?_) known member
  exact grows node nodeKnown parent (by rw [BlockIndex.pprev, list]; rfl)

theorem before_mem {other : Uint256} (atEnd : AtPeriodEnd I C (some pindex)) (same : before I C pindex = some other) :
    other ∈ I.path (some pindex) := by
  have path := atEnd.back.2.1
  rw [same] at path
  exact (List.drop_subset C.period _) (path ▸ List.mem_cons_self)

theorem defined_before_start (grows : MedianGrows I) (never : NeverTooEarly I C) (periods : Nat) : ∀ pindex : Uint256,
    AtPeriodEnd I C (some pindex) → (I.path (some pindex)).length / C.period = periods →
    I.getMedianTimePast pindex < C.beginTime → C.stateByDefinition I (some pindex) = .defined := by
  induction periods with
  | zero =>
    intro pindex atEnd count _
    rw [stateByDefinition_of_whole atEnd.whole, count]
    rfl
  | succ periods ih =>
    intro pindex atEnd count early
    obtain ⟨atEndBefore, path, state⟩ := atEnd.back
    have known := atEnd.known pindex rfl
    have quotient : (I.path (before I C pindex)).length / C.period = periods := by
      have := (whole_of_length C.positive atEnd.whole (by simp [BlockIndex.path, Ancestry.path])).2.1
      rw [path, List.length_drop]
      omega
    have stateBefore : C.stateByDefinition I (before I C pindex) = .defined := by
      cases same : before I C pindex with
      | none => exact stateByDefinition_of_whole (same ▸ atEndBefore).whole |>.trans (by simp [BlockIndex.path]; rfl)
      | some other =>
        rw [same] at atEndBefore quotient
        exact ih other atEndBefore quotient ((median_le grows known (before_mem atEnd same)).trans_lt early)
    have median : ((I.path (some pindex)).head?.map I.getMedianTimePast).getD 0 = I.getMedianTimePast pindex := rfl
    rw [state, stateBefore, nextPeriod]
    simp only [median]
    rw [if_neg (not_le.mpr (never pindex known early)), if_neg (not_le.mpr early)]

def Sound (I : BlockIndex) (C : Checker) (cache : ThresholdConditionCache) : Prop := ∀ pindexPrev state,
  cache pindexPrev = some state → state = C.stateByDefinition I pindexPrev

theorem sound_update {cache : ThresholdConditionCache} (sound : Sound I C cache) {state : ThresholdState}
    (same : state = C.stateByDefinition I pindexPrev) : Sound I C (Function.update cache pindexPrev (some state)) := by
  intro other value found
  by_cases here : other = pindexPrev
  · subst here
    rw [Function.update_self, some.injEq] at found
    exact found ▸ same
  · rw [Function.update_of_ne here] at found
    exact sound other value found

/-- Period by period, the pointers in the list lead from one pointer to another. -/
def Leads (I : BlockIndex) (C : Checker) : Option Uint256 → List Uint256 → Option Uint256 → Prop
  | first, [], last => first = last
  | first, pindex :: rest, last =>
      AtPeriodEnd I C (some pindex) ∧ before I C pindex = first ∧ Leads I C (some pindex) rest last

theorem leads_append {middle : Option Uint256} (atEnd : AtPeriodEnd I C (some pindex)) (next : before I C pindex = middle) :
    ∀ (list : List Uint256) (first : Option Uint256), Leads I C first list middle →
    Leads I C first (list ++ [pindex]) (some pindex) := by
  intro list
  induction list with
  | nil =>
    intro first same
    exact ⟨atEnd, next.trans same.symm, rfl⟩
  | cons other rest ih =>
    rintro first ⟨otherEnd, otherNext, leads⟩
    exact ⟨otherEnd, otherNext, ih (some other) leads⟩

theorem walkBack_spec (grows : MedianGrows I) (never : NeverTooEarly I C) (fuel : Nat) : ∀ (cache : ThresholdConditionCache)
    (pindexPrev : Option Uint256) (vToCompute : List Uint256), Sound I C cache → AtPeriodEnd I C pindexPrev →
    (I.path pindexPrev).length < fuel → ∃ cache' first more,
      C.walkBack I fuel cache pindexPrev vToCompute = some (cache', first, more ++ vToCompute) ∧ Sound I C cache' ∧
        cache' first = some (C.stateByDefinition I first) ∧ Leads I C first more pindexPrev := by
  induction fuel with
  | zero => exact fun _ _ _ _ _ enough => absurd enough (by omega)
  | succ fuel ih =>
    intro cache pindexPrev vToCompute sound atEnd enough
    unfold walkBack
    cases cached : cache pindexPrev with
    | some state =>
      exact ⟨cache, pindexPrev, [], rfl, sound, by rw [cached, sound pindexPrev state cached], rfl⟩
    | none =>
      rw [isSome_none, if_neg (by decide)]
      cases pindexPrev with
      | none =>
        have start : ThresholdState.defined = C.stateByDefinition I none := by
          simp [stateByDefinition, BlockIndex.path, stateAfter]
        exact ⟨_, none, [], rfl, sound_update sound start, by rw [Function.update_self, start], rfl⟩
      | some pindex =>
        dsimp only
        by_cases early : I.getMedianTimePast pindex < C.beginTime
        · rw [if_pos early]
          have start := (defined_before_start grows never _ pindex atEnd rfl early).symm
          exact ⟨_, some pindex, [], rfl, sound_update sound start, by rw [Function.update_self, start], rfl⟩
        · rw [if_neg early]
          obtain ⟨atEndBefore, path, -⟩ := atEnd.back
          have shorter : (I.path (before I C pindex)).length < fuel := by
            have positive := C.positive
            have enough' := atEnd.enough
            rw [path, List.length_drop]
            omega
          obtain ⟨cache', first, more, result, sound', found, leads⟩ :=
            ih cache (before I C pindex) (pindex :: vToCompute) sound atEndBefore shorter
          refine ⟨cache', first, more ++ [pindex], ?_, sound', found, leads_append atEnd rfl more first leads⟩
          rw [List.append_assoc, List.singleton_append]
          exact result

theorem walkForward_spec (vToCompute : List Uint256) : ∀ (cache : ThresholdConditionCache) (first last : Option Uint256),
    Sound I C cache → Leads I C first vToCompute last → ∃ cache',
      C.walkForward I cache (C.stateByDefinition I first) vToCompute = some (C.stateByDefinition I last, cache') ∧
        Sound I C cache' := by
  induction vToCompute with
  | nil =>
    rintro cache first last sound rfl
    exact ⟨cache, rfl, sound⟩
  | cons pindex rest ih =>
    rintro cache first last sound ⟨atEnd, same, leads⟩
    have state := atEnd.back.2.2
    rw [same] at state
    rw [walkForward, stateNext_spec atEnd, ← state]
    exact ih _ (some pindex) last (sound_update sound rfl) leads

theorem stateByDefinition_periodEnd (known : Known I pindexPrev) : AtPeriodEnd I C (C.periodEnd I pindexPrev) ∧
      C.stateByDefinition I (C.periodEnd I pindexPrev) = C.stateByDefinition I pindexPrev := by
  obtain ⟨endKnown, path⟩ := @periodEnd_spec I C pindexPrev known
  have length : (I.path (C.periodEnd I pindexPrev)).length =
      (I.path pindexPrev).length - (I.path pindexPrev).length % C.period := by rw [path, List.length_drop]
  have whole : (I.path (C.periodEnd I pindexPrev)).length % C.period = 0 := by
    rw [length]
    exact Nat.sub_mod_eq_zero_of_mod_eq (by rw [Nat.mod_mod])
  refine ⟨⟨endKnown, whole⟩, ?_⟩
  rw [stateByDefinition_of_whole whole, length, path, stateByDefinition, ← Nat.div_eq_sub_mod_div]

theorem getStateFor_spec (grows : MedianGrows I) (never : NeverTooEarly I C) {cache : ThresholdConditionCache}
    (sound : Sound I C cache) (known : Known I pindexPrev) : ∃ cache',
      C.getStateFor I pindexPrev cache = some (C.stateByDefinition I pindexPrev, cache') ∧ Sound I C cache' := by
  obtain ⟨atEnd, same⟩ := @stateByDefinition_periodEnd I C pindexPrev known
  obtain ⟨walked, first, more, result, soundWalked, found, leads⟩ :=
    walkBack_spec grows never ((I.path (C.periodEnd I pindexPrev)).length + 1) cache (C.periodEnd I pindexPrev) [] sound
      atEnd (Nat.lt_succ_self _)
  obtain ⟨cache', answer, soundAfter⟩ := walkForward_spec more walked first (C.periodEnd I pindexPrev) soundWalked leads
  refine ⟨cache', ?_, soundAfter⟩
  rw [List.append_nil] at result
  rw [getStateFor, result]
  change (walked first).bind _ = _
  rw [found, ← same]
  exact answer

theorem answers_spec (grows : MedianGrows I) (never : NeverTooEarly I C) (queries : List (Option Uint256)) :
    ∀ cache : ThresholdConditionCache, Sound I C cache → (∀ pindexPrev ∈ queries, Known I pindexPrev) →
      C.answers I cache queries = some (queries.map (C.stateByDefinition I)) := by
  induction queries with
  | nil => exact fun _ _ _ => rfl
  | cons pindexPrev queries ih =>
    intro cache sound known
    obtain ⟨cache', result, sound'⟩ := getStateFor_spec grows never sound (known pindexPrev List.mem_cons_self)
    rw [answers, result]
    change (C.answers I cache' queries).bind _ = _
    rw [ih cache' sound' (List.forall_mem_cons.mp known).2]
    rfl

/-- With a shared cache every answer is the state by definition, and that is one for all blocks of a period. -/
theorem cached_state_by_definition (I : BlockIndex) (C : Checker) (grows : MedianGrows I) (never : NeverTooEarly I C) :
    (∀ queries : List (Option Uint256), (∀ pindexPrev ∈ queries, Known I pindexPrev) →
      C.answers I (fun _ => none) queries = some (queries.map (C.stateByDefinition I))) ∧
    ∀ pindex ∈ I.mapBlockIndex, ∀ other ∈ I.path (some pindex),
      (I.path (some other)).length / C.period = (I.path (some pindex)).length / C.period →
      C.stateByDefinition I (some other) = C.stateByDefinition I (some pindex) := by
  refine ⟨fun queries known => answers_spec grows never queries _ (fun _ _ found => by simp at found) known, ?_⟩
  intro pindex known other member samePeriod
  obtain ⟨skipped, split⟩ := (I.tree.suffix known member).2
  have split : skipped ++ I.path (some other) = I.path (some pindex) := split
  have length : (I.path (some pindex)).length = skipped.length + (I.path (some other)).length := by
    rw [← split, List.length_append]
  have first := Nat.div_add_mod (I.path (some pindex)).length C.period
  have second := Nat.div_add_mod (I.path (some other)).length C.period
  rw [samePeriod] at second
  have rest : (I.path (some pindex)).length % C.period = skipped.length + (I.path (some other)).length % C.period := by omega
  have dropped : (I.path (some pindex)).drop ((I.path (some pindex)).length % C.period) =
      (I.path (some other)).drop ((I.path (some other)).length % C.period) := by
    rw [rest, ← split, List.drop_append]
    simp
  rw [stateByDefinition, stateByDefinition, samePeriod, dropped]

/-- A chain of three blocks, an hour between each two; block 1 signals. -/
def sampleIndex : BlockIndex where
  mapBlockIndex := [2, 1, 0]
  hashGenesisBlock := 0
  ancestors pindex := if pindex = 2 then [1, 0] else if pindex = 1 then [0] else []
  nTime pindex := 3600 * pindex.toNat
  nVersion pindex := if pindex = 1 then 0x20000001#32 else 1
  tree := by
    refine ⟨by decide, by decide, fun node known other => ?_⟩
    have cases : node = 2 ∨ node = 1 ∨ node = 0 := by simpa using known
    rcases cases with rfl | rfl | rfl
    · exact ⟨1, by decide, by decide⟩
    · exact ⟨0, by decide, by decide⟩
    · exact absurd rfl other

def sampleChecker (beginTime endTime : Int) : Checker where
  condition := versionBitsCondition sampleIndex 0
  beginTime := beginTime
  endTime := endTime
  period := 1
  threshold := 1
  positive := by decide

theorem known_sample (known : pindex ∈ sampleIndex.mapBlockIndex) : pindex = 2 ∨ pindex = 1 ∨ pindex = 0 := by
  have list : sampleIndex.mapBlockIndex = [2, 1, 0] := rfl
  simpa only [list, List.mem_cons, List.not_mem_nil, or_false] using known

theorem medianGrows_sample : MedianGrows sampleIndex := by
  intro pindex known parent same
  rcases known_sample known with rfl | rfl | rfl
  · have isParent : sampleIndex.pprev 2 = some 1 := by decide
    rw [← some.inj (isParent.symm.trans same)]
    decide +kernel
  · have isParent : sampleIndex.pprev 1 = some 0 := by decide
    rw [← some.inj (isParent.symm.trans same)]
    decide +kernel
  · have isRoot : sampleIndex.pprev 0 = none := by decide
    rw [isRoot] at same
    simp at same

theorem cached_state_by_definition_sample :
    (sampleChecker 0 9000).answers sampleIndex (fun _ => none) [some 2, none, some 1, some 0] =
      some [.active, .defined, .lockedIn, .started] := by
  have known : ∀ pindexPrev ∈ [some (2 : Uint256), none, some 1, some 0], Known sampleIndex pindexPrev := by
    intro pindexPrev member pindex same
    subst same
    have cases : pindex = 2 ∨ pindex = 1 ∨ pindex = 0 := by simpa using member
    rcases cases with rfl | rfl | rfl <;> decide
  have never : NeverTooEarly sampleIndex (sampleChecker 0 9000) := by
    intro pindex inIndex _
    rcases known_sample inIndex with rfl | rfl | rfl <;> decide +kernel
  refine ((cached_state_by_definition sampleIndex (sampleChecker 0 9000) medianGrows_sample never).1 _ known).trans ?_
  decide +kernel

/-- When the timeout lies before the start, the walk back stops at a block whose period has already failed. -/
theorem timeout_before_start : ¬∀ (I : BlockIndex) (C : Checker), MedianGrows I → ∀ queries : List (Option Uint256),
    (∀ pindexPrev ∈ queries, Known I pindexPrev) →
    C.answers I (fun _ => none) queries = some (queries.map (C.stateByDefinition I)) := by
  intro claim
  have known : ∀ pindexPrev ∈ [some (1 : Uint256)], Known sampleIndex pindexPrev := by
    intro pindexPrev member pindex same
    rw [List.mem_singleton.mp member, some.injEq] at same
    exact same ▸ (by decide)
  have same := claim sampleIndex (sampleChecker 5000 1000) medianGrows_sample _ known
  exact absurd same (by decide +kernel)

end Longcoin.VersionBits
