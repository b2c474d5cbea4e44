import Longcoin.FeeRate
import Longcoin.MempoolAncestors
import Longcoin.MempoolDescendants
import Longcoin.MempoolUpdate
import Mathlib.Tactic.Linarith

/-! Replacing transactions of the pool: the checks of `AcceptToMemoryPoolWorker` (`main.cpp`) on the conflicts of a
transaction and on its fees. -/

namespace Longcoin.Mempool
open Primitives Library FeeRate FiniteMap CFeeRate List Option Finset

/-- What the checks take from outside of the pool. `mempoolMinFee` is `GetMinFee` of the pool. -/
structure ReplacementPolicy where
  fEnableReplacement : Bool
  minRelayTxFee : CFeeRate
  mempoolMinFee : CFeeRate
  limits : AncestorLimits

/-- A transaction opts out of replacement by the sequence numbers of all its inputs. -/
def replacementOptOut (policy : ReplacementPolicy) (tx : CTransaction) : Bool :=
  !(policy.fEnableReplacement && tx.vin.any fun txin => txin.nSequence < 4294967295 - 1)

/-- The conflicts of the inputs, or the reason to refuse. -/
def findConflicts (policy : ReplacementPolicy) (pool : CTxMemPool) : List CTxIn → Finset Uint256 → Except String (Finset Uint256)
  | [], setConflicts => .ok setConflicts
  | txin :: vin, setConflicts =>
    match pool.mapNextTx.find txin.prevout with
    | none => findConflicts policy pool vin setConflicts
    | some conflicting =>
      if conflicting.ptx.hash ∈ setConflicts then findConflicts policy pool vin setConflicts
      else if replacementOptOut policy conflicting.ptx then .error "txn-mempool-conflict"
      else findConflicts policy pool vin (insert conflicting.ptx.hash setConflicts)

structure Conflicting where
  setIterConflicting : Finset Uint256 := ∅
  setConflictsParents : Finset Uint256 := ∅
  nConflictingCount : Int := 0

/-- A direct conflict must be tracked and have a lower rate. -/
def checkConflict (pool : CTxMemPool) (newFeeRate : CFeeRate) (gathered : Conflicting) (hashConflicting : Uint256) :
    Except String Conflicting :=
  match pool.mapTx.find hashConflicting with
  | none => .ok gathered
  | some mi =>
    if mi.isDirty then .error "too many potential replacements"
    else if newFeeRate.nSatoshisPerK ≤ (CFeeRate.ofFee mi.getModifiedFee mi.nTxSize).nSatoshisPerK then .error "insufficient fee"
    else .ok {
      setIterConflicting := insert hashConflicting gathered.setIterConflicting
      setConflictsParents := gathered.setConflictsParents ∪ (mi.tx.vin.map fun txin => txin.prevout.hash).toFinset
      nConflictingCount := gathered.nConflictingCount + mi.nCountWithDescendants }

def modifiedFeeOf (pool : CTxMemPool) (hash : Uint256) : Int :=
  (pool.mapTx.find hash).elim 0 fun entry => entry.getModifiedFee

/-- The fee of a new entry with the delta that was given before it came. -/
def nModifiedFees (pool : CTxMemPool) (entry : CTxMemPoolEntry) : Int :=
  entry.nFee + (pool.mapDeltas.find entry.tx.hash).getD 0

/-- No sum of modified fees overflows a `CAmount`. -/
def FeesFit (pool : CTxMemPool) (entry : CTxMemPoolEntry) : Prop :=
  ∑ hash ∈ pool.mapTx.keys, |modifiedFeeOf pool hash| + |nModifiedFees pool entry| < 2 ^ 63

def maxDescendantsToVisit : Int := 100

structure Replacement where
  setConflicts : Finset Uint256
  setAncestors : Finset Uint256
  allConflicting : Finset Uint256

/-- The sums are those of 64 bits. -/
def checkEviction (policy : ReplacementPolicy) (pool : CTxMemPool) (entry : CTxMemPoolEntry) (gathered : Conflicting)
    (allConflicting : Finset Uint256) : Except String Unit :=
  let nConflictingFees := (∑ hash ∈ allConflicting, modifiedFeeOf pool hash).bmod (2 ^ 64)
  if entry.tx.vin.any fun txin =>
      txin.prevout.hash ∉ gathered.setConflictsParents && (pool.mapTx.find txin.prevout.hash).isSome then
    .error "replacement-adds-unconfirmed"
  else if nModifiedFees pool entry < nConflictingFees then .error "insufficient fee"
  else if (nModifiedFees pool entry - nConflictingFees).bmod (2 ^ 64) < policy.minRelayTxFee.getFee entry.nTxSize then .error "insufficient fee"
  else .ok ()

def checkConflicts (order : Iteration) (policy : ReplacementPolicy) (pool : CTxMemPool) (entry : CTxMemPoolEntry)
    (setConflicts : Finset Uint256) : Option (Except String (Finset Uint256)) :=
  let newFeeRate := CFeeRate.ofFee (nModifiedFees pool entry) entry.nTxSize
  match (order.list setConflicts).foldlM (checkConflict pool newFeeRate) {} with
  | .error reason => some (.error reason)
  | .ok gathered =>
    if gathered.nConflictingCount > maxDescendantsToVisit then some (.error "too many potential replacements")
    else
      match (order.list gathered.setIterConflicting).foldlM (fun found it => calculateDescendants order pool it found) ∅ with
      | none => none
      | some allConflicting => some ((checkEviction policy pool entry gathered allConflicting).map fun _ => allConflicting)

/-- The checks on the conflicts and the fees of a transaction: the reason to refuse it, or what it replaces. -/
def replacementChecks (order : Iteration) (policy : ReplacementPolicy) (pool : CTxMemPool) (entry : CTxMemPoolEntry) :
    Option (Except String Replacement) :=
  if (pool.mapTx.find entry.tx.hash).isSome then some (.error "txn-already-in-mempool")
  else
    match findConflicts policy pool entry.tx.vin ∅ with
    | .error reason => some (.error reason)
    | .ok setConflicts =>
      let mempoolRejectFee := policy.mempoolMinFee.getFee entry.nTxSize
      if mempoolRejectFee > 0 ∧ nModifiedFees pool entry < mempoolRejectFee then some (.error "mempool min fee not met")
      else
        match calculateMemPoolAncestors order pool (pool.mapTx.keys.card + 1) entry policy.limits true with
        | none => none
        | some (.error _) => some (.error "too-long-mempool-chain")
        | some (.ok setAncestors) =>
          if setAncestors ∩ setConflicts ≠ ∅ then some (.error "bad-txns-spends-conflicting-tx")
          else if setConflicts = ∅ then some (.ok ⟨∅, setAncestors, ∅⟩)
          else
            match checkConflicts order policy pool entry setConflicts with
            | none => none
            | some (.error reason) => some (.error reason)
            | some (.ok allConflicting) => some (.ok ⟨setConflicts, setAncestors, allConflicting⟩)

/-- The pool claims just the outputs that its transactions spend, and their sizes are positive. -/
structure Claims (pool : CTxMemPool) : Prop where
  nextTx : ∀ outpoint inpoint, pool.mapNextTx.find outpoint = some inpoint ↔
    ∃ entry, pool.mapTx.find inpoint.ptx.hash = some entry ∧ entry.tx = inpoint.ptx ∧
      (inpoint.ptx.vin[inpoint.n]?).map (fun txin => txin.prevout) = some outpoint
  sized : ∀ hash entry, pool.mapTx.find hash = some entry → 0 < entry.nTxSize

/-- A transaction of the pool that spends an output that another transaction spends too. -/
def DirectConflict (pool : CTxMemPool) (tx : CTransaction) (hash : Uint256) : Prop :=
  ∃ entry, pool.mapTx.find hash = some entry ∧ ∃ txin ∈ tx.vin, ∃ other ∈ entry.tx.vin, other.prevout = txin.prevout

variable {policy : ReplacementPolicy} {pool : CTxMemPool} {setConflicts : Finset Uint256}

theorem mem_findConflicts {vin : List CTxIn} {before : Finset Uint256}
    (found : findConflicts policy pool vin before = .ok setConflicts) (hash : Uint256) :
    hash ∈ setConflicts ↔ hash ∈ before ∨ ∃ txin ∈ vin, ∃ inpoint, pool.mapNextTx.find txin.prevout = some inpoint ∧ inpoint.ptx.hash = hash := by
  induction vin generalizing before with
  | nil =>
    cases found
    simp
  | cons txin vin ih =>
    rw [findConflicts] at found
    rw [exists_mem_cons_iff]
    split at found
    · next unclaimed =>
      rw [ih found, unclaimed]
      simp
    · next conflicting claimed =>
      have one : (∃ inpoint, pool.mapNextTx.find txin.prevout = some inpoint ∧ inpoint.ptx.hash = hash) ↔ hash = conflicting.ptx.hash := by
        rw [claimed]
        constructor
        · rintro ⟨inpoint, same, hashed⟩
          rw [← hashed, some.inj same]
        · intro same
          exact ⟨_, rfl, same.symm⟩
      rw [one]
      split at found
      · next inside =>
        rw [ih found]
        constructor
        · rintro (old | later)
          · exact .inl old
          · exact .inr (.inr later)
        · rintro (old | same | later)
          · exact .inl old
          · exact .inl (same ▸ inside)
          · exact .inr later
      split at found
      · cases found
      · rw [ih found, mem_insert]
        tauto

theorem setConflicts_direct (linked : Linked pool) (claims : Claims pool) {tx : CTransaction}
    (found : findConflicts policy pool tx.vin ∅ = .ok setConflicts) (hash : Uint256) :
    hash ∈ setConflicts ↔ DirectConflict pool tx hash := by
  rw [mem_findConflicts found]
  constructor
  · rintro (none | ⟨txin, member, inpoint, claimed, rfl⟩)
    · exact absurd none (notMem_empty _)
    · obtain ⟨entry, here, same, spends⟩ := (claims.nextTx _ _).mp claimed
      obtain ⟨other, at', prevout⟩ := map_eq_some_iff.mp spends
      rw [← same] at at'
      exact ⟨entry, here, txin, member, other, mem_of_getElem? at', prevout⟩
  · rintro ⟨entry, here, txin, member, other, inside, same⟩
    obtain ⟨n, at'⟩ := mem_iff_getElem?.mp inside
    have own := linked.keyed _ _ here
    refine .inr ⟨txin, member, ⟨entry.tx, n⟩, (claims.nextTx _ _).mpr ⟨entry, own.symm ▸ here, rfl, ?_⟩, own⟩
    rw [at', map_some, same]

theorem checkConflict_fold {newFeeRate : CFeeRate} {items : List Uint256} {before gathered : Conflicting}
    (inPool : ∀ hash ∈ items, hash ∈ pool.mapTx.keys)
    (checked : items.foldlM (checkConflict pool newFeeRate) before = .ok gathered) :
    gathered.setIterConflicting = items.toFinset ∪ before.setIterConflicting ∧
    ∀ hash ∈ items, ∀ mi, pool.mapTx.find hash = some mi →
      (ofFee mi.getModifiedFee mi.nTxSize).nSatoshisPerK < newFeeRate.nSatoshisPerK := by
  induction items generalizing before with
  | nil =>
    cases checked
    simp
  | cons hash items ih =>
    obtain ⟨mi, found⟩ := find_of_mem (inPool hash mem_cons_self)
    rw [foldlM_cons, checkConflict, found] at checked
    dsimp only at checked
    split at checked
    · cases checked
    split at checked
    · cases checked
    next higher =>
    obtain ⟨gathers, rates⟩ := ih (forall_mem_cons.mp inPool).2 checked
    constructor
    · rw [gathers, toFinset_cons, union_insert, insert_union]
    · intro other member otherMi otherFound
      rcases mem_cons.mp member with rfl | later
      · rw [found] at otherFound
        rw [← some.inj otherFound]
        omega
      · exact rates other later otherMi otherFound

variable {entry : CTxMemPoolEntry}

theorem checkEviction_ok (fits : FeesFit pool entry) {gathered : Conflicting} {allConflicting : Finset Uint256}
    (inPool : allConflicting ⊆ pool.mapTx.keys)
    (checked : checkEviction policy pool entry gathered allConflicting = .ok ()) :
    ∑ hash ∈ allConflicting, modifiedFeeOf pool hash + policy.minRelayTxFee.getFee entry.nTxSize ≤ nModifiedFees pool entry := by
  have part : |∑ hash ∈ allConflicting, modifiedFeeOf pool hash| ≤ ∑ hash ∈ pool.mapTx.keys, |modifiedFeeOf pool hash| :=
    (abs_sum_le_sum_abs _ _).trans (sum_le_sum_of_subset_of_nonneg inPool fun _ _ _ => abs_nonneg _)
  obtain ⟨above, below⟩ := abs_le.mp part
  obtain ⟨least, most⟩ := abs_le.mp (le_refl |nModifiedFees pool entry|)
  rw [FeesFit] at fits
  have sum : (∑ hash ∈ allConflicting, modifiedFeeOf pool hash).bmod (2 ^ 64) = ∑ hash ∈ allConflicting, modifiedFeeOf pool hash :=
    Int.bmod_eq_of_le (by omega) (by omega)
  have rest : (nModifiedFees pool entry - ∑ hash ∈ allConflicting, modifiedFeeOf pool hash).bmod (2 ^ 64) =
      nModifiedFees pool entry - ∑ hash ∈ allConflicting, modifiedFeeOf pool hash := Int.bmod_eq_of_le (by omega) (by omega)
  simp only [checkEviction, sum, rest] at checked
  split at checked
  · cases checked
  split at checked
  · cases checked
  split at checked
  · cases checked
  · omega

theorem checkConflicts_ok {order : Iteration} (linked : Linked pool) (fits : FeesFit pool entry) {allConflicting : Finset Uint256}
    (inPool : setConflicts ⊆ pool.mapTx.keys)
    (checked : checkConflicts order policy pool entry setConflicts = some (.ok allConflicting)) :
    allConflicting = descendantsOf pool setConflicts ∧
    (∀ hash ∈ setConflicts, ∀ mi, pool.mapTx.find hash = some mi → (ofFee mi.getModifiedFee mi.nTxSize).nSatoshisPerK <
      (ofFee (nModifiedFees pool entry) entry.nTxSize).nSatoshisPerK) ∧
    ∑ hash ∈ allConflicting, modifiedFeeOf pool hash + policy.minRelayTxFee.getFee entry.nTxSize ≤ nModifiedFees pool entry := by
  simp only [checkConflicts] at checked
  split at checked
  · cases checked
  next gathered folded =>
  obtain ⟨gathers, rates⟩ := checkConflict_fold (fun hash member => inPool ((order.mem_list _ _).mp member)) folded
  rw [order.toFinset_list] at gathers
  have same : gathered.setIterConflicting = setConflicts := gathers.trans (union_empty _)
  split at checked
  · cases checked
  split at checked
  · cases checked
  next found evicted =>
  have inside : ∀ hash ∈ order.list gathered.setIterConflicting, hash ∈ pool.mapTx.keys :=
    fun hash member => inPool (same ▸ (order.mem_list _ _).mp member)
  have all := calculateDescendants_fold linked order (empty_subset _) inside
  rw [descendantsOf_empty, evicted, order.toFinset_list, union_empty, same] at all
  cases fees : checkEviction policy pool entry gathered found with
  | error reason =>
    rw [fees] at checked
    cases checked
  | ok done =>
    rw [fees] at checked
    cases checked
    refine ⟨some.inj all, fun hash member => rates hash ((order.mem_list _ _).mpr member), checkEviction_ok fits ?_ fees⟩
    exact some.inj all ▸ closure_subset _ _ _

theorem replacementChecks_ok {order : Iteration} (linked : Linked pool) (claims : Claims pool) {replacement : Replacement}
    (accepted : replacementChecks order policy pool entry = some (.ok replacement)) :
    (∀ hash, hash ∈ replacement.setConflicts ↔ DirectConflict pool entry.tx hash) ∧ 1 ≤ nModifiedFees pool entry ∧
    replacement.setAncestors = ancestorsOf pool entry.tx ∧ replacement.setAncestors ∩ replacement.setConflicts = ∅ ∧
    (replacement.setConflicts ≠ ∅ →
      checkConflicts order policy pool entry replacement.setConflicts = some (.ok replacement.allConflicting)) := by
  have positive := policy.mempoolMinFee.getFee_positive entry.nTxSize
  simp only [replacementChecks] at accepted
  split at accepted
  · cases accepted
  split at accepted
  · cases accepted
  next setConflicts found =>
  split at accepted
  · cases accepted
  next paid =>
  split at accepted
  · cases accepted
  · cases accepted
  next setAncestors calculated =>
  split at accepted
  · cases accepted
  next apart =>
  have ancestors : setAncestors = ancestorsOf pool entry.tx := ancestors_of_accepted linked calculated
  have direct := setConflicts_direct linked claims found
  have fees : 1 ≤ nModifiedFees pool entry := by omega
  split at accepted
  · next none =>
    cases accepted
    subst none
    exact ⟨direct, fees, ancestors, not_not.mp apart, fun some => absurd rfl some⟩
  split at accepted
  · cases accepted
  · cases accepted
  next allConflicting checked =>
  cases accepted
  exact ⟨direct, fees, ancestors, not_not.mp apart, fun _ => checked⟩

/-- A replacement has a higher feerate than each of its direct conflicts, pays for all it evicts and for its own size,
and evicts no ancestor of its own. -/
structure NeverLowers (policy : ReplacementPolicy) (pool : CTxMemPool) (entry : CTxMemPoolEntry) (replacement : Replacement) :
    Prop where
  feerate : ∀ hash old, DirectConflict pool entry.tx hash → pool.mapTx.find hash = some old →
    (old.getModifiedFee : ℚ) / old.nTxSize < nModifiedFees pool entry / entry.nTxSize
  fees : ∑ hash ∈ replacement.allConflicting, modifiedFeeOf pool hash + policy.minRelayTxFee.getFee entry.nTxSize ≤
    nModifiedFees pool entry
  ancestors : ∀ hash ∈ replacement.allConflicting, hash ∉ ancestorsOf pool entry.tx

theorem feerate_lt {old new : Int} {oldSize newSize : Nat} (positive : 0 < oldSize) (positiveToo : 0 < newSize) :
    (old : ℚ) / oldSize < new / newSize ↔ old * newSize < new * oldSize := by
  rw [div_lt_div_iff₀ (by exact_mod_cast positive) (by exact_mod_cast positiveToo)]
  exact_mod_cast Iff.rfl

theorem evicted_not_ancestor {tx : CTransaction} (apart : ancestorsOf pool tx ∩ setConflicts = ∅) {hash : Uint256}
    (evicted : hash ∈ descendantsOf pool setConflicts) : hash ∉ ancestorsOf pool tx := by
  intro ancestor
  obtain ⟨conflict, member, reach⟩ := ancestor_of_descendant (mem_closure.mp evicted).2 (mem_closure.mp ancestor).2
  have above : conflict ∈ ancestorsOf pool tx := by
    refine mem_closure.mpr ⟨reach.inside (parentsOf_subset pool tx) fun other _ => poolParents_subset pool other, reach⟩
  have both := mem_inter.mpr ⟨above, member⟩
  rw [apart] at both
  exact notMem_empty _ both

/-- What is accepted in place of others never lowers the feerate just where the direct conflicts do not that the comparison
of the rates is blind for: those of up to 1000 bytes, and those whose fee leaves 64 bits when it is scaled. -/
theorem replacement_neverLowers_iff {order : Iteration} {policy : ReplacementPolicy} {pool : CTxMemPool} (linked : Linked pool)
    (claims : Claims pool) {entry : CTxMemPoolEntry} (sized : 0 < entry.nTxSize) (fits : FeesFit pool entry) {replacement : Replacement}
    (accepted : replacementChecks order policy pool entry = some (.ok replacement)) (replaces : replacement.setConflicts ≠ ∅) :
    NeverLowers policy pool entry replacement ↔ ∀ hash old, DirectConflict pool entry.tx hash → pool.mapTx.find hash = some old →
      old.nTxSize ≤ 1000 ∨ 2 ^ 64 ≤ old.getModifiedFee * 1000 →
      old.getModifiedFee * entry.nTxSize < nModifiedFees pool entry * old.nTxSize := by
  obtain ⟨direct, positive, ancestors, apart, checked⟩ := replacementChecks_ok linked claims accepted
  have inPool : replacement.setConflicts ⊆ pool.mapTx.keys := by
    intro hash member
    obtain ⟨old, found, -⟩ := (direct hash).mp member
    exact mem_of_find found
  obtain ⟨evicted, rates, fees⟩ := checkConflicts_ok linked fits inPool (checked replaces)
  constructor
  · intro never hash old conflict found _
    exact (feerate_lt (claims.sized hash old found) sized).mp (never.feerate hash old conflict found)
  · intro blind
    refine ⟨fun hash old conflict found => ?_, fees, fun hash member => ?_⟩
    · rw [feerate_lt (claims.sized hash old found) sized]
      by_cases seen : old.nTxSize ≤ 1000 ∨ 2 ^ 64 ≤ old.getModifiedFee * 1000
      · exact blind hash old conflict found seen
      · obtain ⟨large, fits⟩ := not_or.mp seen
        exact lower_of_ofFee_lt positive (by omega) (by omega) (rates hash ((direct hash).mpr conflict) old found)
    · rw [ancestors] at apart
      rw [evicted] at member
      exact evicted_not_ancestor apart member

def oldTx : CTransaction := { hash := 1, vin := [{ prevout := ⟨9, 0⟩, nSequence := 0 }], vout := [⟨5, []⟩] }

def rivalTx : CTransaction := { hash := 3, vin := [{ prevout := ⟨9, 0⟩ }], vout := [⟨4, []⟩] }

def oldEntry : CTxMemPoolEntry := { tx := oldTx, nFee := 10, nTxSize := 200, nSizeWithDescendants := 200, nModFeesWithDescendants := 10 }

def rivalEntry (nFee : Int) : CTxMemPoolEntry :=
  { tx := rivalTx, nFee, nTxSize := 2000, nSizeWithDescendants := 2000, nModFeesWithDescendants := nFee }

def onePool : CTxMemPool where
  mapTx := FiniteMap.empty.put 1 oldEntry
  mapLinks := FiniteMap.empty.put 1 {}
  mapNextTx := FiniteMap.empty.put ⟨9, 0⟩ ⟨oldTx, 0⟩

def samplePolicy : ReplacementPolicy := ⟨true, .ofPerK 1, .ofPerK 1, ⟨25, 101000, 25, 101000⟩⟩

theorem rival_accepted {nFee : Int} (fee : nFee = 12 ∨ nFee = 250) :
    replacementChecks listOrder samplePolicy onePool (rivalEntry nFee) = some (.ok ⟨{1}, ∅, {1}⟩) := by
  have one : listOrder.list {1} = [1] := toList_singleton 1
  have first : listOrder.begin {1} = some 1 := by rw [Iteration.begin, one]; rfl
  have last : listOrder.begin ∅ = none := by
    rw [Iteration.begin, show listOrder.list ∅ = [] from toList_empty]
    rfl
  have ancestors : calculateMemPoolAncestors listOrder onePool 2 (rivalEntry nFee) samplePolicy.limits true = some (.ok ∅) := by
    have searched : searchParents onePool samplePolicy.limits.limitAncestorCount (rivalEntry nFee).tx.vin ∅ = .ok ∅ := rfl
    simp only [calculateMemPoolAncestors, if_true, searched, ancestorsLoop, last]
  have evicted : calculateDescendants listOrder onePool 1 ∅ = some {1} := by
    have keys : onePool.mapTx.keys.card + 1 = 2 := rfl
    have links : onePool.mapLinks.find 1 = some {} := rfl
    have nothing : ({1} : Finset Uint256).erase 1 ∪ ({} : TxLinks).children \ insert 1 ∅ = ∅ := by decide
    rw [calculateDescendants, keys, if_neg (notMem_empty _)]
    simp only [descendantsLoop, first, links, bind, Option.bind, nothing, last]
    rfl
  have conflicts : checkConflicts listOrder samplePolicy onePool (rivalEntry nFee) {1} = some (.ok {1}) := by
    have gathered : [1].foldlM (checkConflict onePool (ofFee (nModifiedFees onePool (rivalEntry nFee)) (rivalEntry nFee).nTxSize)) {} =
        .ok ⟨{1}, {9}, 1⟩ := by rcases fee with rfl | rfl <;> rfl
    have eviction : checkEviction samplePolicy onePool (rivalEntry nFee) ⟨{1}, {9}, 1⟩ {1} = .ok () := by
      rcases fee with rfl | rfl <;> rfl
    simp only [checkConflicts, one, gathered, foldlM_cons, foldlM_nil, evicted, eviction, bind, Option.bind, pure]
    rfl
  have found : findConflicts samplePolicy onePool (rivalEntry nFee).tx.vin ∅ = .ok {1} := rfl
  have paid : ¬ (samplePolicy.mempoolMinFee.getFee (rivalEntry nFee).nTxSize > 0 ∧
      nModifiedFees onePool (rivalEntry nFee) < samplePolicy.mempoolMinFee.getFee (rivalEntry nFee).nTxSize) := by
    rcases fee with rfl | rfl <;> decide
  have new : ¬ (onePool.mapTx.find (rivalEntry nFee).tx.hash).isSome = true := by
    rcases fee with rfl | rfl <;> decide
  have keys : onePool.mapTx.keys.card + 1 = 2 := rfl
  simp only [replacementChecks, if_neg new, found, if_neg paid, keys, ancestors, conflicts]
  rfl

theorem onePool_found {hash : Uint256} (found : onePool.mapTx.find hash = some entry) : hash = 1 ∧ entry = oldEntry := by
  rw [onePool, find_put] at found
  split at found
  · next same => exact ⟨same, (some.inj found).symm⟩
  · cases found

theorem onePool_parents (hash : Uint256) : poolParents onePool hash = ∅ := by
  rw [eq_empty_iff_forall_notMem]
  intro parent member
  cases found : onePool.mapTx.find hash with
  | none =>
    rw [poolParents, found] at member
    exact notMem_empty _ member
  | some entry =>
    obtain ⟨rfl, rfl⟩ := onePool_found found
    have none : poolParents onePool 1 = ∅ := by decide
    rw [none] at member
    exact notMem_empty _ member

theorem onePool_linked : Linked onePool where
  keyed hash entry found := by
    obtain ⟨rfl, rfl⟩ := onePool_found found
    rfl
  keys := rfl
  parents hash links found := by
    rw [onePool_parents]
    rw [onePool, find_put] at found
    split at found
    · exact some.inj found ▸ rfl
    · cases found
  children hash links child found := by
    rw [onePool_parents]
    rw [onePool, find_put] at found
    split at found
    · obtain rfl := some.inj found
      exact iff_of_false (notMem_empty _) (notMem_empty _)
    · cases found

theorem onePool_claims : Claims onePool where
  nextTx outpoint inpoint := by
    constructor
    · intro found
      rw [onePool, find_put] at found
      split at found
      · next same =>
        obtain rfl := some.inj found
        exact ⟨oldEntry, rfl, rfl, same ▸ rfl⟩
      · cases found
    · rintro ⟨entry, found, same, spends⟩
      obtain ⟨-, rfl⟩ := onePool_found found
      obtain ⟨ptx, n⟩ := inpoint
      dsimp only at same spends
      subst same
      match n, spends with
      | 0, spends =>
        obtain rfl := some.inj spends
        rfl
  sized hash entry found := by
    obtain ⟨-, rfl⟩ := onePool_found found
    decide

theorem onePool_fits {nFee : Int} (fee : nFee = 12 ∨ nFee = 250) : FeesFit onePool (rivalEntry nFee) := by
  rw [FeesFit]
  rcases fee with rfl | rfl <;> decide

theorem replacement_neverLowers_sample : NeverLowers samplePolicy onePool (rivalEntry 250) ⟨{1}, ∅, {1}⟩ := by
  refine (replacement_neverLowers_iff onePool_linked onePool_claims (by decide) (onePool_fits (.inr rfl)) (rival_accepted (.inr rfl)) (by decide)).mpr ?_
  intro hash old conflict found small
  obtain ⟨rfl, rfl⟩ := onePool_found found
  decide

/-- Twelve units for 2000 bytes replace ten units for 200 bytes. -/
theorem replacement_lowers : ¬ ∀ (order : Iteration) (policy : ReplacementPolicy) (pool : CTxMemPool) (entry : CTxMemPoolEntry)
    (replacement : Replacement), Linked pool → Claims pool → 0 < entry.nTxSize → FeesFit pool entry →
    replacementChecks order policy pool entry = some (.ok replacement) → replacement.setConflicts ≠ ∅ →
    NeverLowers policy pool entry replacement := by
  intro every
  have never := every listOrder samplePolicy onePool (rivalEntry 12) ⟨{1}, ∅, {1}⟩ onePool_linked onePool_claims (by decide)
    (onePool_fits (Or.inl rfl)) (rival_accepted (Or.inl rfl)) (by decide)
  have conflict : DirectConflict onePool (rivalEntry 12).tx 1 :=
    ⟨oldEntry, rfl, _, List.mem_singleton_self _, _, List.mem_singleton_self _, rfl⟩
  have lower := (feerate_lt (by decide) (by decide)).mp (never.feerate 1 oldEntry conflict rfl)
  cases lower

end Longcoin.Mempool
