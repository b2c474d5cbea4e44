import Longcoin.Library.Sweep
import Longcoin.WalletCacheInvariant
import Longcoin.WalletSpends

/-! Abandoning a transaction, and marking one as in conflict with a block (`wallet/wallet.cpp`): both loops with their assertions and
their walks through `mapTxSpends`. -/

namespace Longcoin.WalletAbandon
open Primitives Library Wallet WalletCache WalletSpends List Option Finset
open Library.Sweep (Pick Halt sweep)
open Mempool (memcmpLE)

variable {Dest : Type}

/-- `*todo.begin()`. -/
def byHash : Pick Uint256 where
  pick todo := (todo.sort memcmpLE).head?
  mem_of_pick _ _ first := (Finset.mem_sort memcmpLE).mp (List.mem_of_head? first)
  eq_empty_of_none todo empty := by
    rw [← Finset.sort_toFinset todo memcmpLE, List.head?_eq_none_iff.mp empty, List.toFinset_nil]

/-- What a turn of either loop does to a transaction, and to those it spends from. -/
def mark (s : State Dest) (hashBlock : Uint256) (wtx : CWalletTx) : State Dest :=
  markSpent (markDirty (update s wtx.tx.hash fun wtx => { wtx with nIndex := -1, hashBlock := hashBlock }) wtx.tx.hash) wtx.tx.vin

/-- A turn of either loop: what its assertions refuse, what it marks, and where the walk for `now` starts. -/
def markTurn (hashBlock : Uint256) (refuses marks : State Dest → CWalletTx → Bool) (start : Uint256 → Uint256) (s : State Dest)
    (now : Uint256) : Option (State Dest × List Uint256) :=
  (findTx s.mapWallet now).bind fun wtx =>
    if refuses s wtx then none
    else if marks s wtx then some (mark s hashBlock wtx, spendsFrom s.mapWallet (start now) now)
    else some (s, [])

/-- `currentconfirm == 0 && !wtx.isAbandoned()`. -/
def abandonMarks (s : State Dest) (wtx : CWalletTx) : Bool := getDepthInMainChain s.node wtx == 0 && !wtx.isAbandoned

/-- The two assertions about `wtx`. The second one is only met by what gets marked. -/
def abandonRefuses (s : State Dest) (wtx : CWalletTx) : Bool :=
  decide (0 < getDepthInMainChain s.node wtx) || (abandonMarks s wtx && s.inMempool wtx.tx.hash)

def abandonTurn (hashTx : Uint256) : State Dest → Uint256 → Option (State Dest × List Uint256) :=
  markTurn ABANDON_HASH abandonRefuses abandonMarks fun _ => hashTx

def abandonTransaction (s : State Dest) (hashTx : Uint256) : Except Halt (State Dest × Bool) :=
  match findTx s.mapWallet hashTx with
  | none => .error .assertion
  | some origtx =>
    if decide (0 < getDepthInMainChain s.node origtx) || s.inMempool origtx.tx.hash then .ok (s, false)
    else (sweep byHash (abandonTurn hashTx) (s.mapWallet.length + 2) {hashTx} ∅ s).map fun after => (after, true)

def confirmsOf (s : State Dest) (hashBlock : Uint256) : Int :=
  (s.node.heightOf hashBlock).elim 0 fun nHeight => -(s.node.nHeight - nHeight + 1)

def conflictMarks (conflictconfirms : Int) (s : State Dest) (wtx : CWalletTx) : Bool :=
  decide (conflictconfirms < getDepthInMainChain s.node wtx)

def conflictTurn (hashBlock : Uint256) (conflictconfirms : Int) : State Dest → Uint256 → Option (State Dest × List Uint256) :=
  markTurn hashBlock (fun _ _ => false) (conflictMarks conflictconfirms) id

def markConflicted (s : State Dest) (hashBlock hashTx : Uint256) : Except Halt (State Dest) :=
  if 0 ≤ confirmsOf s hashBlock then .ok s
  else sweep byHash (conflictTurn hashBlock (confirmsOf s hashBlock)) (s.mapWallet.length + 2) {hashTx} ∅ s

def dirtied (wallet : List CWalletTx) (chosen : Finset Uint256) (key : Uint256 × Field) : Prop :=
  ∃ hash ∈ chosen, (findTx wallet hash).any fun wtx => breaks hash key || wtx.tx.vin.any fun txin => breaks txin.prevout.hash key

instance (wallet : List CWalletTx) (chosen : Finset Uint256) (key : Uint256 × Field) : Decidable (dirtied wallet chosen key) :=
  inferInstanceAs (Decidable (∃ hash ∈ chosen, ((findTx wallet hash).any fun wtx =>
    breaks hash key || wtx.tx.vin.any fun txin => breaks txin.prevout.hash key) = true))

def markRecord (hashBlock : Uint256) (chosen : Finset Uint256) (wtx : CWalletTx) : CWalletTx :=
  if wtx.tx.hash ∈ chosen then { wtx with nIndex := -1, hashBlock := hashBlock } else wtx

/-- The state when the transactions of a set have been marked. -/
def marked (s : State Dest) (hashBlock : Uint256) (chosen : Finset Uint256) : State Dest :=
  { s with
    mapWallet := s.mapWallet.map (markRecord hashBlock chosen)
    cached := fun key => if dirtied s.mapWallet chosen key then none else s.cached key }

variable {s : State Dest} {hashBlock : Uint256} {chosen : Finset Uint256}

/-- A turn whose assertions hold does what the turn without them does, and leads to the same transactions. -/
def Agrees (checked : Option (State Dest × List Uint256)) (plain : State Dest × List Uint256) : Prop :=
  ∃ next, checked = some (plain.1, next) ∧ ∀ spender, spender ∈ next ↔ spender ∈ plain.2

theorem mem_spendersOf {wallet : List CWalletTx} {hash spender : Uint256} :
    spender ∈ spendersOf wallet hash ↔ Spends wallet hash spender := by
  simp only [spendersOf, Spends, List.mem_map, List.mem_filter, Bool.and_eq_true, Bool.not_eq_true', List.any_eq_true, beq_iff_eq]
  exact ⟨fun ⟨wtx, ⟨member, apart⟩, same⟩ => ⟨wtx, member, same, apart⟩, fun ⟨wtx, member, same, apart⟩ => ⟨wtx, ⟨member, apart⟩, same⟩⟩

theorem conflictTurn_agrees {conflictconfirms : Int} {now : Uint256} (known : (findTx s.mapWallet now).isSome = true) :
    Agrees (conflictTurn hashBlock conflictconfirms s now) (WalletCache.conflictTurn hashBlock conflictconfirms s now) := by
  obtain ⟨wtx, found⟩ := Option.isSome_iff_exists.mp known
  obtain rfl := (findTx_some found).2
  simp only [conflictTurn, WalletCache.conflictTurn, markTurn, found, bind_some, conflictMarks, decide_eq_true_eq, Bool.false_eq_true, if_false]
  split
  · exact ⟨_, rfl, fun _ => mem_spendsFrom_self.trans mem_spendersOf.symm⟩
  · exact ⟨_, rfl, fun _ => Iff.rfl⟩

theorem abandonTurn_agrees {hashTx : Uint256} {wtx : CWalletTx} (found : findTx s.mapWallet wtx.tx.hash = some wtx)
    (allowed : abandonRefuses s wtx = false) (started : wtx.tx.hash ≠ hashTx → ∃ spender, Spends s.mapWallet hashTx spender) :
    Agrees (abandonTurn hashTx s wtx.tx.hash) (WalletCache.abandonTurn hashTx s wtx.tx.hash) := by
  simp only [abandonTurn, WalletCache.abandonTurn, markTurn, found, bind_some, allowed, Bool.false_eq_true, if_false]
  by_cases marks : abandonMarks s wtx = true
  · rw [if_pos marks, if_pos (by simpa [abandonMarks] using marks)]
    refine ⟨_, rfl, fun spender => ?_⟩
    split
    next same => rw [same, mem_spendsFrom_self, mem_spendersOf]
    next other =>
      obtain ⟨_, spent⟩ := started other
      rw [spendsFrom_other spent other]
  · rw [if_neg marks, if_neg (by simpa [abandonMarks] using marks)]
    exact ⟨_, rfl, fun _ => Iff.rfl⟩

theorem markRecord_tx (wtx : CWalletTx) : (markRecord hashBlock chosen wtx).tx = wtx.tx := by
  unfold markRecord
  split <;> rfl

theorem marked_cached (key : Uint256 × Field) :
    (marked s hashBlock chosen).cached key = if dirtied s.mapWallet chosen key then none else s.cached key := by rw [marked]

theorem marked_empty : marked s hashBlock ∅ = s := by
  have records : s.mapWallet.map (markRecord hashBlock ∅) = s.mapWallet := by
    have same : ∀ wtx ∈ s.mapWallet, markRecord hashBlock ∅ wtx = wtx := fun wtx _ => if_neg (notMem_empty _)
    rw [List.map_congr_left same, List.map_id']
  have caches : (fun key => if dirtied s.mapWallet ∅ key then none else s.cached key) = s.cached := by
    funext key
    refine if_neg ?_
    rintro ⟨hash, member, -⟩
    exact absurd member (notMem_empty _)
  rw [marked, records, caches]

theorem findTx_marked (hash : Uint256) :
    findTx (marked s hashBlock chosen).mapWallet hash = (findTx s.mapWallet hash).map (markRecord hashBlock chosen) := by
  rw [findTx, findTx, marked, find?_map]
  congr 1
  refine congrArg (find? · s.mapWallet) (funext fun wtx => ?_)
  exact congrArg (fun tx : CTransaction => tx.hash == hash) (markRecord_tx wtx)

theorem mapTxSpends_marked : mapTxSpends (marked s hashBlock chosen).mapWallet = mapTxSpends s.mapWallet := by
  have same : ∀ wtx, spendsOf (markRecord hashBlock chosen wtx) = spendsOf wtx := fun wtx => by
    rw [spendsOf, markRecord_tx, spendsOf]
  rw [mapTxSpends, marked, flatMap_map, flatMap_congr fun wtx _ => same wtx, mapTxSpends]

theorem spendsFrom_marked (start now : Uint256) :
    spendsFrom (marked s hashBlock chosen).mapWallet start now = spendsFrom s.mapWallet start now := by
  rw [spendsFrom, mapTxSpends_marked, spendsFrom]

theorem markSpent_eq (s : State Dest) (vin : List CTxIn) :
    markSpent s vin =
      { s with cached := fun key => if vin.any fun txin => breaks txin.prevout.hash key then none else s.cached key } := by
  induction vin generalizing s with
  | nil => rfl
  | cons txin vin ih =>
    have turn : markSpent s (txin :: vin) = markSpent (markDirty s txin.prevout.hash) vin := rfl
    rw [turn, ih, markDirty]
    refine congrArg (fun cached => { s with cached := cached }) (funext fun key => ?_)
    rw [any_cons]
    cases first : breaks txin.prevout.hash key <;> cases later : vin.any fun txin => breaks txin.prevout.hash key <;>
      simp [first]

theorem dirtied_insert {wallet : List CWalletTx} {wtx : CWalletTx} (found : findTx wallet wtx.tx.hash = some wtx)
    (key : Uint256 × Field) : dirtied wallet (insert wtx.tx.hash chosen) key ↔
      (breaks wtx.tx.hash key || wtx.tx.vin.any fun txin => breaks txin.prevout.hash key) = true ∨ dirtied wallet chosen key := by
  rw [dirtied, dirtied, exists_mem_insert, found, any_some]

theorem mark_marked {wtx : CWalletTx} (found : findTx s.mapWallet wtx.tx.hash = some wtx) :
    mark (marked s hashBlock chosen) hashBlock wtx = marked s hashBlock (insert wtx.tx.hash chosen) := by
  have records : (s.mapWallet.map (markRecord hashBlock chosen)).map (fun other =>
      if other.tx.hash = wtx.tx.hash then { other with nIndex := -1, hashBlock := hashBlock } else other) =
        s.mapWallet.map (markRecord hashBlock (insert wtx.tx.hash chosen)) := by
    rw [List.map_map]
    refine map_congr_left fun other _ => ?_
    rw [Function.comp_apply, markRecord_tx]
    unfold markRecord
    by_cases same : other.tx.hash = wtx.tx.hash
    · rw [if_pos same, same, if_pos (mem_insert_self _ _)]
      split <;> rfl
    · rw [if_neg same]
      refine if_congr ?_ rfl rfl
      rw [mem_insert, or_iff_right same]
  rw [mark, markSpent_eq, markDirty, update, marked, marked]
  refine congrArg₂ (fun mapWallet cached => { s with mapWallet := mapWallet, cached := cached }) records (funext fun key => ?_)
  have both : dirtied s.mapWallet (insert wtx.tx.hash chosen) key ↔ _ := dirtied_insert found key
  by_cases before : dirtied s.mapWallet chosen key <;> by_cases own : breaks wtx.tx.hash key = true <;>
    by_cases parent : (wtx.tx.vin.any fun txin => breaks txin.prevout.hash key) = true <;>
      simp_all

/-- A judgement of a transaction that reads its record, its depth and the pool, but neither the wallet nor its caches. -/
def Stable (judges : State Dest → CWalletTx → Bool) : Prop :=
  ∀ s hashBlock chosen wtx, judges (marked s hashBlock chosen) wtx = judges s wtx

theorem abandonMarks_stable : Stable (abandonMarks : State Dest → CWalletTx → Bool) := fun _ _ _ _ => rfl

theorem abandonRefuses_stable : Stable (abandonRefuses : State Dest → CWalletTx → Bool) := fun _ _ _ _ => rfl

theorem conflictMarks_stable (conflictconfirms : Int) : Stable (conflictMarks conflictconfirms : State Dest → CWalletTx → Bool) :=
  fun _ _ _ _ => rfl

theorem never_stable : Stable fun (_ : State Dest) _ => false := fun _ _ _ _ => rfl

section Loop

variable {refuses marks : State Dest → CWalletTx → Bool} {start : Uint256 → Uint256}

/-- The wallet's transaction of a hash satisfies a judgement. -/
def judged (judges : State Dest → CWalletTx → Bool) (s : State Dest) (hash : Uint256) : Bool := (findTx s.mapWallet hash).any (judges s)

def nextOf (marks : State Dest → CWalletTx → Bool) (start : Uint256 → Uint256) (s : State Dest) (now : Uint256) : Finset Uint256 :=
  if judged marks s now then (spendsFrom s.mapWallet (start now) now).toFinset else ∅

def hashes (wallet : List CWalletTx) : Finset Uint256 := (wallet.map fun wtx => wtx.tx.hash).toFinset

theorem markTurn_turns (start : Uint256 → Uint256) (stableRefuses : Stable refuses) (stableMarks : Stable marks) (hashBlock : Uint256)
    (whole : Finset Uint256) : Sweep.Turns (markTurn hashBlock refuses marks start) whole (nextOf marks start s)
      (fun done state => state = marked s hashBlock (done.filter fun hash => judged marks s hash))
      fun hash => findTx s.mapWallet hash = none ∨ judged refuses s hash := by
  rintro done state now rfl fresh -
  have unmarked : now ∉ done.filter fun hash => judged marks s hash := fun member => fresh (mem_filter.mp member).1
  have record : findTx (marked s hashBlock (done.filter fun hash => judged marks s hash)).mapWallet now = findTx s.mapWallet now := by
    rw [findTx_marked]
    cases found : findTx s.mapWallet now with
    | none => rfl
    | some wtx =>
      obtain ⟨-, rfl⟩ := findTx_some found
      rw [map_some, markRecord, if_neg unmarked]
  rw [markTurn, record]
  cases found : findTx s.mapWallet now with
  | none => exact .inl ⟨rfl, .inl found⟩
  | some wtx =>
    obtain ⟨-, rfl⟩ := findTx_some found
    have refusing : judged refuses s wtx.tx.hash = refuses s wtx := by rw [judged, found, any_some]
    have marking : judged marks s wtx.tx.hash = marks s wtx := by rw [judged, found, any_some]
    rw [bind_some, stableRefuses, stableMarks, spendsFrom_marked]
    by_cases refused : refuses s wtx = true
    · rw [if_pos refused]
      exact .inl ⟨rfl, .inr (refusing.trans refused)⟩
    · rw [if_neg refused]
      right
      by_cases taken : marks s wtx = true
      · rw [if_pos taken, nextOf, marking, if_pos taken]
        refine ⟨_, rfl, rfl, ?_⟩
        dsimp only
        rw [mark_marked found, filter_insert, if_pos (marking.trans taken)]
      · rw [if_neg taken, nextOf, marking, if_neg taken]
        refine ⟨_, rfl, toFinset_nil, ?_⟩
        dsimp only
        rw [filter_insert, marking, if_neg taken]

theorem nextOf_subset (now : Uint256) : nextOf marks start s now ⊆ hashes s.mapWallet := by
  intro spender member
  rw [nextOf] at member
  split at member
  · obtain ⟨entry, walked, rfl⟩ := mem_map.mp (mem_toFinset.mp member)
    have listed := (dropWhile_sublist _).subset ((takeWhile_sublist _).subset walked)
    obtain ⟨wtx, inside, same, -⟩ := mem_mapTxSpends.mp listed
    exact mem_toFinset.mpr (mem_map.mpr ⟨wtx, inside, same⟩)
  · exact absurd member (notMem_empty _)

theorem sweep_markTurn (start : Uint256 → Uint256) (stableRefuses : Stable refuses) (stableMarks : Stable marks) (s : State Dest)
    (hashBlock hashTx : Uint256) :
    sweep byHash (markTurn hashBlock refuses marks start) (s.mapWallet.length + 2) {hashTx} ∅ s = .error .assertion ∧
        (∃ hash, Reach (nextOf marks start s) {hashTx} hash ∧ (findTx s.mapWallet hash = none ∨ judged refuses s hash)) ∨
      ∃ chosen : Finset Uint256, (∀ hash, hash ∈ chosen ↔ Reach (nextOf marks start s) {hashTx} hash ∧ judged marks s hash = true) ∧
        sweep byHash (markTurn hashBlock refuses marks start) (s.mapWallet.length + 2) {hashTx} ∅ s =
          .ok (marked s hashBlock chosen) := by
  have inside : ({hashTx} : Finset Uint256) ⊆ insert hashTx (hashes s.mapWallet) :=
    singleton_subset_iff.mpr (mem_insert_self _ _)
  have stays : ∀ hash ∈ insert hashTx (hashes s.mapWallet), nextOf marks start s hash ⊆ insert hashTx (hashes s.mapWallet) :=
    fun hash _ => (nextOf_subset hash).trans (Finset.subset_insert _ _)
  have enough : (insert hashTx (hashes s.mapWallet)).card < s.mapWallet.length + 2 := by
    have one := card_insert_le hashTx (hashes s.mapWallet)
    have others := toFinset_card_le (s.mapWallet.map fun wtx => wtx.tx.hash)
    rw [length_map] at others
    rw [hashes] at one ⊢
    omega
  have starts : s = marked s hashBlock ((∅ : Finset Uint256).filter fun hash => judged marks s hash) := by
    rw [filter_empty, marked_empty]
  rcases Sweep.sweep_closure byHash (markTurn_turns start stableRefuses stableMarks hashBlock _) inside stays starts enough with
    ⟨stuck, why⟩ | ⟨last, result, rfl⟩
  · exact .inl ⟨stuck, why⟩
  · refine .inr ⟨_, fun hash => ?_, result⟩
    rw [Finset.mem_filter, mem_closure]
    exact and_congr_left fun _ => ⟨And.right, fun reach => ⟨reach.inside inside stays, reach⟩⟩

end Loop

end Longcoin.WalletAbandon
