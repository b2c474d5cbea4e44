import Longcoin.Library.InvertedIndex
import Longcoin.MempoolUpdate

/-! Transactions whose inputs are not known yet (`main.cpp`): `AddOrphanTx`, `EraseOrphanTx`, `EraseOrphansFor` and
`LimitOrphanTxSize`. -/

namespace Longcoin.OrphanPool
open Primitives Library Library.InvertedIndex FiniteMap List Option Finset
open Mempool (memcmpLE)

structure COrphanTx where
  tx : CTransaction
  fromPeer : Int
deriving DecidableEq

structure OrphanPool where
  mapOrphanTransactions : FiniteMap Uint256 COrphanTx := .empty
  mapOrphanTransactionsByPrev : FiniteMap Uint256 (Finset Uint256) := .empty

/-- The hashes whose outputs a transaction spends, one for each input. -/
def prevHashes (tx : CTransaction) : List Uint256 := tx.vin.map fun txin => txin.prevout.hash

def lowerBoundOrBegin (keys : Finset Uint256) (randomhash : Uint256) : Option Uint256 :=
  ((keys.sort memcmpLE).find? fun key => decide (memcmpLE randomhash key)).or (keys.sort memcmpLE).head?

theorem lowerBoundOrBegin_mem {keys : Finset Uint256} {randomhash it : Uint256} (found : lowerBoundOrBegin keys randomhash = some it) :
    it ∈ keys := by
  rw [← mem_sort memcmpLE]
  obtain found | ⟨-, found⟩ := or_eq_some_iff.mp found
  · exact mem_of_find?_eq_some found
  · exact mem_of_head? found

theorem lowerBoundOrBegin_none {keys : Finset Uint256} {randomhash : Uint256} (none : lowerBoundOrBegin keys randomhash = none) :
    keys = ∅ := by
  have empty := head?_eq_none_iff.mp (or_eq_none_iff.mp none).2
  rw [← sort_toFinset keys memcmpLE, empty, toFinset_nil]

section Operations

variable (getSerializeSize : CTransaction → Nat)

def addOrphanTx (pool : OrphanPool) (tx : CTransaction) (peer : Int) : OrphanPool × Bool :=
  if (pool.mapOrphanTransactions.find tx.hash).isSome then (pool, false)
  else if 5000 < getSerializeSize tx then (pool, false)
  else
    ({ mapOrphanTransactions := pool.mapOrphanTransactions.put tx.hash ⟨tx, peer⟩
       mapOrphanTransactionsByPrev := (prevHashes tx).foldl (insertUnder tx.hash) pool.mapOrphanTransactionsByPrev }, true)

def eraseOrphanTx (pool : OrphanPool) (hash : Uint256) : OrphanPool :=
  match pool.mapOrphanTransactions.find hash with
  | none => pool
  | some it =>
    { mapOrphanTransactions := pool.mapOrphanTransactions.erase hash
      mapOrphanTransactionsByPrev := (prevHashes it.tx).foldl (eraseUnder hash) pool.mapOrphanTransactionsByPrev }

/-- One step of the iterator, which has gone on before the entry is erased. -/
def eraseIfFrom (peer : Int) (pool : OrphanPool) (maybeErase : Uint256) : OrphanPool :=
  match pool.mapOrphanTransactions.find maybeErase with
  | none => pool
  | some entry => if entry.fromPeer = peer then eraseOrphanTx pool entry.tx.hash else pool

def eraseOrphansFor (pool : OrphanPool) (peer : Int) : OrphanPool :=
  (pool.mapOrphanTransactions.keys.sort memcmpLE).foldl (eraseIfFrom peer) pool

theorem card_eraseOrphanTx {pool : OrphanPool} {hash : Uint256} (stored : hash ∈ pool.mapOrphanTransactions.keys) :
    (eraseOrphanTx pool hash).mapOrphanTransactions.keys.card + 1 = pool.mapOrphanTransactions.keys.card := by
  obtain ⟨it, found⟩ := find_of_mem stored
  rw [eraseOrphanTx, found]
  exact card_erase_add_one stored

/-- The loop of `LimitOrphanTxSize`. `GetRandHash` gives `rand 0`, `rand 1` and so on. -/
def limitLoop (rand : Nat → Uint256) (nMaxOrphans : Nat) (pool : OrphanPool) (nEvicted : Nat) : OrphanPool × Nat :=
  if nMaxOrphans < pool.mapOrphanTransactions.keys.card then
    match found : lowerBoundOrBegin pool.mapOrphanTransactions.keys (rand nEvicted) with
    | none => (pool, nEvicted)
    | some it => limitLoop rand nMaxOrphans (eraseOrphanTx pool it) (nEvicted + 1)
  else (pool, nEvicted)
termination_by pool.mapOrphanTransactions.keys.card
decreasing_by
  have stored := card_eraseOrphanTx (lowerBoundOrBegin_mem found)
  omega

def limitOrphanTxSize (rand : Nat → Uint256) (pool : OrphanPool) (nMaxOrphans : Nat) : OrphanPool × Nat :=
  limitLoop rand nMaxOrphans pool 0

inductive OrphanEvent where
  | addOrphanTx (tx : CTransaction) (peer : Int)
  | eraseOrphanTx (hash : Uint256)
  | eraseOrphansFor (peer : Int)
  | limitOrphanTxSize (rand : Nat → Uint256) (nMaxOrphans : Nat)

def OrphanPool.next (pool : OrphanPool) : OrphanEvent → OrphanPool
  | .addOrphanTx tx peer => (OrphanPool.addOrphanTx getSerializeSize pool tx peer).1
  | .eraseOrphanTx hash => OrphanPool.eraseOrphanTx pool hash
  | .eraseOrphansFor peer => OrphanPool.eraseOrphansFor pool peer
  | .limitOrphanTxSize rand nMaxOrphans => (OrphanPool.limitOrphanTxSize rand pool nMaxOrphans).1

end Operations

/-- The stored orphans with an input from a transaction. -/
def orphansSpending (pool : OrphanPool) (prev : Uint256) : Finset Uint256 :=
  pool.mapOrphanTransactions.keys.filter fun hash =>
    (pool.mapOrphanTransactions.find hash).any (fun orphan => (prevHashes orphan.tx).contains prev) = true

theorem mem_orphansSpending {pool : OrphanPool} {prev hash : Uint256} : hash ∈ orphansSpending pool prev ↔
    ∃ orphan, pool.mapOrphanTransactions.find hash = some orphan ∧ prev ∈ prevHashes orphan.tx := by
  rw [orphansSpending, Finset.mem_filter, Option.any_eq_true]
  constructor
  · rintro ⟨-, orphan, found, listed⟩
    exact ⟨orphan, found, contains_iff_mem.mp listed⟩
  · rintro ⟨orphan, found, listed⟩
    exact ⟨mem_of_find found, orphan, found, contains_iff_mem.mpr listed⟩

variable {getSerializeSize : CTransaction → Nat}

/-- The two maps agree, and what is stored is small and under its own hash. -/
structure Agrees (getSerializeSize : CTransaction → Nat) (pool : OrphanPool) : Prop where
  under_eq : ∀ prev, under pool.mapOrphanTransactionsByPrev prev = orphansSpending pool prev
  tidy : Tidy pool.mapOrphanTransactionsByPrev
  keyed : ∀ hash orphan, pool.mapOrphanTransactions.find hash = some orphan → orphan.tx.hash = hash
  small : ∀ hash orphan, pool.mapOrphanTransactions.find hash = some orphan → getSerializeSize orphan.tx ≤ 5000

theorem agrees_empty : Agrees getSerializeSize {} where
  under_eq prev := rfl
  tidy tag none := by cases none
  keyed hash orphan found := by cases found
  small hash orphan found := by cases found

theorem Agrees.addOrphanTx {pool : OrphanPool} (agrees : Agrees getSerializeSize pool) (tx : CTransaction) (peer : Int) :
    Agrees getSerializeSize (addOrphanTx getSerializeSize pool tx peer).1 := by
  rw [OrphanPool.addOrphanTx]
  split
  · exact agrees
  next fresh =>
  split
  · exact agrees
  next fits =>
  have absent : pool.mapOrphanTransactions.find tx.hash = none := not_isSome_iff_eq_none.mp fresh
  refine ⟨fun prev => ?_, ?_, fun hash orphan found => ?_, fun hash orphan found => ?_⟩
  · ext hash
    rw [under_foldl_insertUnder, mem_orphansSpending, agrees.under_eq]
    simp only [find_put]
    by_cases here : hash = tx.hash
    · subst here
      simp only [↓reduceIte, some.injEq, exists_eq_left']
      split
      · next listed => exact iff_of_true (mem_insert_self _ _) listed
      · next unlisted =>
        refine iff_of_false (fun member => ?_) unlisted
        obtain ⟨orphan, found, -⟩ := mem_orphansSpending.mp member
        cases absent.symm.trans found
    · simp only [if_neg here]
      rw [← mem_orphansSpending]
      split
      · exact mem_insert.trans (or_iff_right here)
      · exact Iff.rfl
  · exact agrees.tidy.foldl (fun index tag tidy => tidy.insertUnder tx.hash tag) _
  · rw [find_put] at found
    split at found
    · next here => rw [← some.inj found, here]
    · exact agrees.keyed hash orphan found
  · rw [find_put] at found
    split at found
    · rw [← some.inj found]
      exact not_lt.mp fits
    · exact agrees.small hash orphan found

theorem find_eraseOrphanTx (pool : OrphanPool) (hash other : Uint256) :
    (eraseOrphanTx pool hash).mapOrphanTransactions.find other =
      if other = hash then none else pool.mapOrphanTransactions.find other := by
  rw [eraseOrphanTx]
  cases found : pool.mapOrphanTransactions.find hash with
  | none =>
    by_cases same : other = hash
    · rw [if_pos same, same, found]
    · rw [if_neg same]
  | some it => exact find_erase _ _ _

section

variable {pool : OrphanPool} (agrees : Agrees getSerializeSize pool)
include agrees

theorem Agrees.eraseOrphanTx (hash : Uint256) : Agrees getSerializeSize (eraseOrphanTx pool hash) := by
  have kept : ∀ other orphan, (OrphanPool.eraseOrphanTx pool hash).mapOrphanTransactions.find other = some orphan →
      other ≠ hash ∧ pool.mapOrphanTransactions.find other = some orphan := by
    intro other orphan found
    rw [find_eraseOrphanTx] at found
    split at found
    · cases found
    · next different => exact ⟨different, found⟩
  refine ⟨fun prev => ?_, ?_, fun other orphan found => agrees.keyed other orphan (kept other orphan found).2,
    fun other orphan found => agrees.small other orphan (kept other orphan found).2⟩
  · ext other
    rw [mem_orphansSpending]
    simp only [find_eraseOrphanTx]
    have rest : other ∈ (orphansSpending pool prev).erase hash ↔ ∃ orphan,
        (if other = hash then none else pool.mapOrphanTransactions.find other) = some orphan ∧ prev ∈ prevHashes orphan.tx := by
      rw [mem_erase, mem_orphansSpending]
      split
      · next same => simp [same]
      · next different => simp [different]
    rw [← rest, OrphanPool.eraseOrphanTx]
    cases found : pool.mapOrphanTransactions.find hash with
    | none =>
      have absent : hash ∉ orphansSpending pool prev := by
        intro member
        obtain ⟨orphan, stored, -⟩ := mem_orphansSpending.mp member
        rw [found] at stored
        cases stored
      rw [erase_eq_of_notMem absent, agrees.under_eq]
    | some it =>
      rw [under_foldl_eraseUnder, agrees.under_eq]
      split
      · exact Iff.rfl
      · next unlisted =>
        rw [erase_eq_of_notMem]
        intro member
        obtain ⟨orphan, stored, listed⟩ := mem_orphansSpending.mp member
        obtain rfl := some.inj (found.symm.trans stored)
        exact unlisted listed
  · rw [OrphanPool.eraseOrphanTx]
    cases pool.mapOrphanTransactions.find hash with
    | none => exact agrees.tidy
    | some it => exact agrees.tidy.foldl (fun index tag tidy => tidy.eraseUnder hash tag) _

theorem Agrees.eraseIfFrom_eq (peer : Int) (hash : Uint256) :
    eraseIfFrom peer pool hash =
      if (pool.mapOrphanTransactions.find hash).any (fun orphan => orphan.fromPeer = peer) then OrphanPool.eraseOrphanTx pool hash
      else pool := by
  rw [eraseIfFrom]
  cases found : pool.mapOrphanTransactions.find hash with
  | none => rfl
  | some orphan => simp only [any_some, decide_eq_true_eq, agrees.keyed hash orphan found]

theorem Agrees.eraseIfFrom (peer : Int) (hash : Uint256) : Agrees getSerializeSize (eraseIfFrom peer pool hash) := by
  rw [agrees.eraseIfFrom_eq]
  split
  · exact agrees.eraseOrphanTx hash
  · exact agrees

theorem Agrees.find_eraseIfFrom (peer : Int) (hash other : Uint256) :
    (OrphanPool.eraseIfFrom peer pool hash).mapOrphanTransactions.find other =
      if other = hash then (pool.mapOrphanTransactions.find other).filter (fun orphan => decide (orphan.fromPeer ≠ peer))
      else pool.mapOrphanTransactions.find other := by
  rw [agrees.eraseIfFrom_eq]
  by_cases here : other = hash
  · subst here
    rw [if_pos rfl]
    cases found : pool.mapOrphanTransactions.find other with
    | none => exact found
    | some orphan =>
      by_cases from_ : orphan.fromPeer = peer
      · simp [from_, find_eraseOrphanTx, filter_some]
      · simp [from_, found, filter_some]
  · rw [if_neg here]
    split
    · rw [find_eraseOrphanTx, if_neg here]
    · rfl

theorem Agrees.foldl_eraseIfFrom (peer : Int) (hashes : List Uint256) :
    Agrees getSerializeSize (hashes.foldl (OrphanPool.eraseIfFrom peer) pool) ∧
    ∀ other, (hashes.foldl (OrphanPool.eraseIfFrom peer) pool).mapOrphanTransactions.find other =
      if other ∈ hashes then (pool.mapOrphanTransactions.find other).filter (fun orphan => decide (orphan.fromPeer ≠ peer))
      else pool.mapOrphanTransactions.find other := by
  induction hashes generalizing pool with
  | nil => exact ⟨agrees, fun other => (if_neg List.not_mem_nil).symm⟩
  | cons hash hashes ih =>
    obtain ⟨kept, finds⟩ := ih (agrees.eraseIfFrom peer hash)
    refine ⟨kept, fun other => ?_⟩
    rw [List.foldl_cons, finds, agrees.find_eraseIfFrom]
    by_cases here : other = hash
    · have listed : other ∈ hash :: hashes := here ▸ List.mem_cons_self
      rw [if_pos here, if_pos listed, Option.filter_filter]
      simp only [Bool.and_self, ite_self]
    · rw [if_neg here]
      simp only [List.mem_cons, here, false_or]

theorem Agrees.eraseOrphansFor (peer : Int) : Agrees getSerializeSize (eraseOrphansFor pool peer) ∧
    ∀ hash, (eraseOrphansFor pool peer).mapOrphanTransactions.find hash =
      (pool.mapOrphanTransactions.find hash).filter fun orphan => decide (orphan.fromPeer ≠ peer) := by
  obtain ⟨kept, finds⟩ := agrees.foldl_eraseIfFrom peer (pool.mapOrphanTransactions.keys.sort memcmpLE)
  refine ⟨kept, fun hash => (finds hash).trans ?_⟩
  split
  · rfl
  · next absent =>
    rw [find_eq_none.mpr fun stored => absent ((mem_sort memcmpLE).mpr stored)]
    rfl

end

/-- What the loop leaves: the pool agrees, what is left was there, and there is not too much of it. -/
structure Limited (getSerializeSize : CTransaction → Nat) (pool : OrphanPool) (nMaxOrphans : Nat) (left : OrphanPool) : Prop where
  agrees : Agrees getSerializeSize left
  kept : ∀ hash orphan, left.mapOrphanTransactions.find hash = some orphan → pool.mapOrphanTransactions.find hash = some orphan
  bounded : left.mapOrphanTransactions.keys.card ≤ nMaxOrphans

section

variable {pool : OrphanPool} (agrees : Agrees getSerializeSize pool)
include agrees

theorem Agrees.limitLoop (rand : Nat → Uint256) (nMaxOrphans nEvicted : Nat) :
    Limited getSerializeSize pool nMaxOrphans (limitLoop rand nMaxOrphans pool nEvicted).1 := by
  fun_induction OrphanPool.limitLoop rand nMaxOrphans pool nEvicted with
  | case1 pool nEvicted above found =>
    rw [lowerBoundOrBegin_none found] at above
    cases above
  | case2 pool nEvicted above it found ih =>
    obtain ⟨agrees', kept, bounded⟩ := ih (agrees.eraseOrphanTx it)
    refine ⟨agrees', fun hash orphan stored => ?_, bounded⟩
    have before := kept hash orphan stored
    rw [find_eraseOrphanTx] at before
    split at before
    · cases before
    · exact before
  | case3 pool nEvicted within => exact ⟨agrees, fun _ _ stored => stored, not_lt.mp within⟩

theorem Agrees.next (event : OrphanEvent) : Agrees getSerializeSize (pool.next getSerializeSize event) := by
  cases event with
  | addOrphanTx tx peer => exact agrees.addOrphanTx tx peer
  | eraseOrphanTx hash => exact agrees.eraseOrphanTx hash
  | eraseOrphansFor peer => exact (agrees.eraseOrphansFor peer).1
  | limitOrphanTxSize rand nMaxOrphans => exact (agrees.limitLoop rand nMaxOrphans 0).agrees

theorem Agrees.run (events : List OrphanEvent) :
    Agrees getSerializeSize (events.foldl (OrphanPool.next getSerializeSize) pool) := by
  induction events generalizing pool with
  | nil => exact agrees
  | cons event events ih => exact ih (agrees.next event)

end

/-- Whatever has happened to the pool: the orphans listed under a hash are those that spend from it and no list is empty, the
orphans are small, and the limits and the erasure of a peer's orphans do what they are for. -/
theorem orphans_indexed (getSerializeSize : CTransaction → Nat) (events : List OrphanEvent) :
    let pool := events.foldl (OrphanPool.next getSerializeSize) {}
    (∀ prev, pool.mapOrphanTransactionsByPrev.find prev =
      if (orphansSpending pool prev).Nonempty then some (orphansSpending pool prev) else none) ∧
    (∀ hash orphan, pool.mapOrphanTransactions.find hash = some orphan → getSerializeSize orphan.tx ≤ 5000) ∧
    (∀ rand nMaxOrphans, (limitOrphanTxSize rand pool nMaxOrphans).1.mapOrphanTransactions.keys.card ≤ nMaxOrphans ∧
      ∀ hash orphan, (limitOrphanTxSize rand pool nMaxOrphans).1.mapOrphanTransactions.find hash = some orphan →
        pool.mapOrphanTransactions.find hash = some orphan) ∧
    ∀ peer hash, (eraseOrphansFor pool peer).mapOrphanTransactions.find hash =
      (pool.mapOrphanTransactions.find hash).filter fun orphan => decide (orphan.fromPeer ≠ peer) := by
  intro pool
  have agrees : Agrees getSerializeSize pool := agrees_empty.run events
  have limited := fun rand nMaxOrphans => agrees.limitLoop rand nMaxOrphans 0
  refine ⟨fun prev => ?_, agrees.small, fun rand nMaxOrphans => ⟨(limited rand nMaxOrphans).bounded, (limited rand nMaxOrphans).kept⟩,
    fun peer => (agrees.eraseOrphansFor peer).2⟩
  rw [agrees.tidy.find_eq, agrees.under_eq]

end Longcoin.OrphanPool
