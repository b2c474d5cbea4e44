import Longcoin.OrphanPool

/-! Orphans that wait for an accepted transaction (`main.cpp`): the work loop of `ProcessMessage` for `tx`. -/

namespace Longcoin.OrphanResolution
open Primitives Library Library.InvertedIndex OrphanPool FiniteMap List Finset Function
open Mempool (memcmpLE)

/-- `mempool.mapTx` -/
abbrev Pool := FiniteMap Uint256 CTransaction

/-- What `AcceptToMemoryPoolWorker` asks beside the pool: the coins of the chain, its checks of a transaction alone (the
score of a refusal), its refusal of conflicts that opted out, and its checks of the inputs, fees and scripts, which give
the entries that the transaction replaces. -/
structure Node where
  haveCoins : Uint256 → Bool
  checkAlone : CTransaction → Option Nat
  optedOut : Pool → CTransaction → Bool
  checkInputs : Pool → CTransaction → Except Nat (Finset Uint256)

inductive Verdict where
  | accepted (mempool : Pool)
  | missingInputs
  | invalid (nDoS : Nat)

variable (node : Node)

/-- `CCoinsViewMemPool::HaveCoins` -/
def viewHaveCoins (mempool : Pool) (hash : Uint256) : Bool := decide (hash ∈ mempool.keys) || node.haveCoins hash

/-- `AcceptToMemoryPool`, where the size limit of the pool removes nothing. -/
def acceptToMemoryPool (mempool : Pool) (tx : CTransaction) : Verdict :=
  match node.checkAlone tx with
  | some nDoS => .invalid nDoS
  | none =>
    if tx.hash ∈ mempool.keys then .invalid 0
    else if node.optedOut mempool tx then .invalid 0
    else if viewHaveCoins node mempool tx.hash then .invalid 0
    else if (prevHashes tx).any fun hash => !viewHaveCoins node mempool hash then .missingInputs
    else
      match node.checkInputs mempool tx with
      | .error nDoS => .invalid nDoS
      | .ok allConflicting => .accepted ((mempool.eraseAll allConflicting).put tx.hash tx)

/-- The local variables of the loop and what it changes; `recentRejects` lists what was inserted, with the pool at
that moment. -/
structure Work where
  mempool : Pool
  vWorkQueue : List Uint256
  i : Nat := 0
  vEraseQueue : List Uint256 := []
  setMisbehaving : Finset Int := ∅
  recentRejects : List (Uint256 × Pool) := []

variable (orphans : OrphanPool)

def retry (w : Work) (orphanHash : Uint256) : Work :=
  match orphans.mapOrphanTransactions.find orphanHash with
  | none => w
  | some orphan =>
    if orphan.fromPeer ∈ w.setMisbehaving then w
    else
      match acceptToMemoryPool node w.mempool orphan.tx with
      | .accepted mempool =>
        { w with
          mempool := mempool
          vWorkQueue := w.vWorkQueue ++ [orphanHash]
          vEraseQueue := w.vEraseQueue ++ [orphanHash] }
      | .missingInputs => w
      | .invalid nDoS =>
        { w with
          setMisbehaving := if 0 < nDoS then insert orphan.fromPeer w.setMisbehaving else w.setMisbehaving
          vEraseQueue := w.vEraseQueue ++ [orphanHash]
          recentRejects := w.recentRejects ++ [(orphanHash, w.mempool)] }

/-- The orphans listed under a hash, in the order of the set. -/
def listed (hash : Uint256) : List Uint256 := (under orphans.mapOrphanTransactionsByPrev hash).sort memcmpLE

def turn (w : Work) : Work :=
  match w.vWorkQueue[w.i]? with
  | none => w
  | some hash => { (listed orphans hash).foldl (retry node orphans) w with i := w.i + 1 }

def alreadyHave (rejected : Uint256 → Bool) (mempool : Pool) (hash : Uint256) : Bool :=
  rejected hash || decide (hash ∈ mempool.keys) || (orphans.mapOrphanTransactions.find hash).isSome || node.haveCoins hash

def start (mempool : Pool) (tx : CTransaction) : Work := { mempool := mempool, vWorkQueue := [tx.hash] }

def eraseQueued (vEraseQueue : List Uint256) : OrphanPool := vEraseQueue.foldl eraseOrphanTx orphans

/-- What the handler does with a transaction that it accepts, if its loop ends within so many turns. -/
def processTx (rejected : Uint256 → Bool) (mempool : Pool) (tx : CTransaction) (turns : Nat) : Option (Work × OrphanPool) :=
  if alreadyHave node orphans rejected mempool tx.hash then none
  else
    match acceptToMemoryPool node mempool tx with
    | .accepted mempool =>
      let w := (turn node orphans)^[turns] (start mempool tx)
      if w.vWorkQueue.length ≤ w.i then some (w, eraseQueued orphans w.vEraseQueue) else none
    | _ => none

/-- Each orphan that spends an accepted transaction is gone, accepted or refused, or it stays with an input that is still
missing or a sender that misbehaved; none is accepted twice, and no hash of a pool transaction was put in the filter. -/
structure Resolved (result : Work × OrphanPool) : Prop where
  settled : ∀ hash orphan, orphans.mapOrphanTransactions.find hash = some orphan →
    ∀ prev ∈ prevHashes orphan.tx, prev ∈ result.1.vWorkQueue →
      (result.2.mapOrphanTransactions.find hash = none ∧
        (hash ∈ result.1.vWorkQueue ∨ ∃ mempool, (hash, mempool) ∈ result.1.recentRejects)) ∨
      (result.2.mapOrphanTransactions.find hash = some orphan ∧
        ((∃ missing ∈ prevHashes orphan.tx, viewHaveCoins node result.1.mempool missing = false) ∨
          orphan.fromPeer ∈ result.1.setMisbehaving))
  once : result.1.vWorkQueue.Nodup
  outside : ∀ hash mempool, (hash, mempool) ∈ result.1.recentRejects → hash ∉ mempool.keys

/-- The retries of some orphans, each with the state before it. -/
def retriesOf : Work → List Uint256 → List (Work × Uint256)
  | _, [] => []
  | w, hash :: hashes => (w, hash) :: retriesOf (retry node orphans w hash) hashes

def retries (w : Work) : List (Work × Uint256) :=
  match w.vWorkQueue[w.i]? with
  | none => []
  | some hash => retriesOf node orphans w (listed orphans hash)

/-- The orphan that is retried is not in the pool, and if it was accepted before it is not acceptable again. -/
def Fresh (w : Work) (hash : Uint256) : Prop :=
  ∀ orphan, orphans.mapOrphanTransactions.find hash = some orphan → orphan.fromPeer ∉ w.setMisbehaving →
    hash ∉ w.mempool.keys ∧ (hash ∈ w.vWorkQueue → ∀ mempool, acceptToMemoryPool node w.mempool orphan.tx ≠ .accepted mempool)

variable {node orphans} {w : Work} {getSerializeSize : CTransaction → Nat}

variable {mempool : Pool}

theorem accepted_pool {mempool' : Pool} {tx : CTransaction}
    (accepted : acceptToMemoryPool node mempool tx = .accepted mempool') :
    ∃ gone, mempool' = (mempool.eraseAll gone).put tx.hash tx := by
  unfold acceptToMemoryPool at accepted
  split at accepted
  · cases accepted
  · split_ifs at accepted
    split at accepted
    · cases accepted
    next gone _ =>
      cases accepted
      exact ⟨gone, rfl⟩

theorem missing_input {tx : CTransaction} (missing : acceptToMemoryPool node mempool tx = .missingInputs) :
    ∃ prev ∈ prevHashes tx, viewHaveCoins node mempool prev = false := by
  unfold acceptToMemoryPool at missing
  split at missing
  · cases missing
  · split_ifs at missing with _ _ _ absent
    · obtain ⟨prev, member, none⟩ := any_eq_true.mp absent
      exact ⟨prev, member, Bool.not_eq_true' _ ▸ none⟩
    · split at missing <;> cases missing

theorem present_invalid {tx : CTransaction} (present : tx.hash ∈ mempool.keys) :
    ∃ nDoS, acceptToMemoryPool node mempool tx = .invalid nDoS := by
  unfold acceptToMemoryPool
  split
  next nDoS _ => exact ⟨nDoS, rfl⟩
  · exact ⟨0, if_pos present⟩

variable {hash : Uint256}

theorem accepted_have {mempool' : Pool} {tx : CTransaction}
    (accepted : acceptToMemoryPool node mempool tx = .accepted mempool') (other : hash ≠ tx.hash)
    (absent : viewHaveCoins node mempool hash = false) : viewHaveCoins node mempool' hash = false := by
  obtain ⟨gone, rfl⟩ := accepted_pool accepted
  unfold viewHaveCoins at absent ⊢
  rw [Bool.or_eq_false_iff, decide_eq_false_iff_not, ← find_eq_none] at absent ⊢
  refine ⟨?_, absent.2⟩
  rw [find_put_ne other, find_eraseAll, absent.1, ite_self]

theorem retry_cases (w : Work) {orphan : COrphanTx} (found : orphans.mapOrphanTransactions.find hash = some orphan) :
    (orphan.fromPeer ∈ w.setMisbehaving ∧ retry node orphans w hash = w) ∨
    (orphan.fromPeer ∉ w.setMisbehaving ∧
      ((∃ mempool, acceptToMemoryPool node w.mempool orphan.tx = .accepted mempool ∧ retry node orphans w hash =
          { w with mempool := mempool, vWorkQueue := w.vWorkQueue ++ [hash], vEraseQueue := w.vEraseQueue ++ [hash] }) ∨
        (acceptToMemoryPool node w.mempool orphan.tx = .missingInputs ∧ retry node orphans w hash = w) ∨
        ∃ nDoS misbehaving, acceptToMemoryPool node w.mempool orphan.tx = .invalid nDoS ∧
          w.setMisbehaving ⊆ misbehaving ∧ retry node orphans w hash =
            { w with setMisbehaving := misbehaving, vEraseQueue := w.vEraseQueue ++ [hash],
                     recentRejects := w.recentRejects ++ [(hash, w.mempool)] })) := by
  unfold retry
  rw [found]
  by_cases flagged : orphan.fromPeer ∈ w.setMisbehaving
  · exact .inl ⟨flagged, if_pos flagged⟩
  · apply Or.inr
    apply And.intro flagged
    simp only [if_neg flagged]
    cases acceptToMemoryPool node w.mempool orphan.tx with
    | accepted mempool => exact .inl ⟨mempool, rfl, rfl⟩
    | missingInputs => exact .inr (.inl ⟨rfl, rfl⟩)
    | invalid nDoS =>
      refine .inr (.inr ⟨nDoS, _, rfl, ?_, rfl⟩)
      split
      · exact subset_insert _ _
      · exact Subset.refl _

/-- No hash was accepted twice, and none of the pool was put in the filter. -/
structure Right (w : Work) : Prop where
  once : w.vWorkQueue.Nodup
  outside : ∀ hash mempool, (hash, mempool) ∈ w.recentRejects → hash ∉ mempool.keys

theorem nodup_snoc {hashes : List Uint256} : (hashes ++ [hash]).Nodup ↔ hashes.Nodup ∧ hash ∉ hashes := by
  rw [nodup_append_comm, singleton_append, nodup_cons]
  exact and_comm

section

variable (agrees : Agrees getSerializeSize orphans) (w : Work)
include agrees

theorem retry_right_iff (hash : Uint256) : Right (retry node orphans w hash) ↔ Right w ∧ Fresh node orphans w hash := by
  cases found : orphans.mapOrphanTransactions.find hash with
  | none =>
    have same : retry node orphans w hash = w := by
      unfold retry
      rw [found]
    rw [same]
    exact (and_iff_left fun orphan there _ => absurd (found.symm.trans there) (Option.some_ne_none orphan).symm).symm
  | some orphan =>
    have keyed := agrees.keyed hash orphan found
    have fresh_iff : Fresh node orphans w hash ↔ (orphan.fromPeer ∉ w.setMisbehaving → hash ∉ w.mempool.keys ∧
        (hash ∈ w.vWorkQueue → ∀ mempool, acceptToMemoryPool node w.mempool orphan.tx ≠ .accepted mempool)) := by
      constructor
      · exact fun fresh => fresh orphan found
      · intro fresh orphan' found'
        rw [found] at found'
        injection found' with same
        exact same ▸ fresh
    have absent (verdict : ∀ nDoS, acceptToMemoryPool node w.mempool orphan.tx ≠ .invalid nDoS) : hash ∉ w.mempool.keys := by
      intro present
      obtain ⟨nDoS, invalid⟩ := @present_invalid node w.mempool orphan.tx (keyed ▸ present)
      exact verdict nDoS invalid
    rw [fresh_iff]
    rcases retry_cases w found with ⟨flagged, same⟩ | ⟨unflagged, ⟨mempool, verdict, same⟩ | ⟨verdict, same⟩ |
        ⟨nDoS, _, verdict, _, same⟩⟩
    · rw [same]
      exact (and_iff_left fun unflagged => absurd flagged unflagged).symm
    · rw [same]
      constructor
      · intro right
        obtain ⟨once, new⟩ := nodup_snoc.mp right.once
        exact ⟨⟨once, right.outside⟩, fun _ => ⟨absent (by rw [verdict]; exact nofun),
          fun old => absurd old new⟩⟩
      · rintro ⟨right, fresh⟩
        exact ⟨nodup_snoc.mpr ⟨right.once, fun old => (fresh unflagged).2 old mempool verdict⟩, right.outside⟩
    · rw [same]
      apply (and_iff_left _).symm
      intro _
      exact ⟨absent (by rw [verdict]; exact nofun), fun _ => by rw [verdict]; exact nofun⟩
    · rw [same]
      constructor
      · intro right
        have inserted := right.outside hash w.mempool (List.mem_append_right _ List.mem_cons_self)
        refine ⟨⟨right.once, fun other mempool member => right.outside other mempool (List.mem_append_left _ member)⟩, ?_⟩
        exact fun _ => ⟨inserted, fun _ => by rw [verdict]; exact nofun⟩
      · rintro ⟨right, fresh⟩
        refine ⟨right.once, fun other mempool member => ?_⟩
        rcases List.mem_append.mp member with old | new
        · exact right.outside other mempool old
        · cases List.mem_singleton.mp new
          exact (fresh unflagged).1

theorem foldl_right_iff (hashes : List Uint256) : Right (hashes.foldl (retry node orphans) w) ↔
      Right w ∧ ∀ step ∈ retriesOf node orphans w hashes, Fresh node orphans step.1 step.2 := by
  induction hashes generalizing w with
  | nil => exact (and_iff_left nofun).symm
  | cons hash hashes ih =>
    rw [List.foldl_cons, ih, retry_right_iff agrees, retriesOf, List.forall_mem_cons, and_assoc]

theorem turn_right_iff :
    Right (turn node orphans w) ↔ Right w ∧ ∀ step ∈ retries node orphans w, Fresh node orphans step.1 step.2 := by
  unfold turn retries
  cases w.vWorkQueue[w.i]? with
  | none => exact (and_iff_left nofun).symm
  | some hash =>
    have moved (w : Work) (i : Nat) : Right { w with i := i } ↔ Right w := ⟨fun r => ⟨r.once, r.outside⟩, fun r => ⟨r.once, r.outside⟩⟩
    exact (moved _ _).trans (foldl_right_iff agrees w _)

theorem run_right_iff (turns : Nat) : Right ((turn node orphans)^[turns] w) ↔ Right w ∧ ∀ earlier < turns,
      ∀ step ∈ retries node orphans ((turn node orphans)^[earlier] w), Fresh node orphans step.1 step.2 := by
  induction turns with
  | zero => exact (and_iff_left fun earlier below => absurd below (Nat.not_lt_zero earlier)).symm
  | succ turns ih =>
    rw [iterate_succ_apply', turn_right_iff agrees, ih, and_assoc]
    apply and_congr_right
    intro _
    constructor
    · rintro ⟨before, here⟩ earlier below
      rcases Nat.lt_succ_iff_lt_or_eq.mp below with less | rfl
      · exact before earlier less
      · exact here
    · exact fun all => ⟨fun earlier below => all earlier (by omega), all turns (Nat.lt_succ_self turns)⟩

end

/-- Nothing is left to do for an orphan but what the queue holds from a place on. -/
def Settled (node : Node) (w : Work) (place : Nat) (hash : Uint256) (orphan : COrphanTx) : Prop :=
  hash ∈ w.vEraseQueue ∨ orphan.fromPeer ∈ w.setMisbehaving ∨
    ∃ prev ∈ prevHashes orphan.tx, viewHaveCoins node w.mempool prev = false ∨ prev ∈ w.vWorkQueue.drop place

structure Grows (w w' : Work) : Prop where
  queue : w.vWorkQueue <+: w'.vWorkQueue
  i : w'.i = w.i
  keeps : ∀ place hash orphan, place ≤ w.vWorkQueue.length → Settled node w place hash orphan → Settled node w' place hash orphan

theorem Grows.trans {w w' w'' : Work} (first : @Grows node w w') (second : @Grows node w' w'') : @Grows node w w'' where
  queue := first.queue.trans second.queue
  i := second.i.trans first.i
  keeps place hash orphan within settled :=
    second.keeps place hash orphan (within.trans first.queue.length_le) (first.keeps place hash orphan within settled)

theorem retry_grows (agrees : Agrees getSerializeSize orphans) (w : Work) (hash : Uint256) :
    @Grows node w (retry node orphans w hash) := by
  have refl : @Grows node w w := ⟨prefix_rfl, rfl, fun _ _ _ _ settled => settled⟩
  cases found : orphans.mapOrphanTransactions.find hash with
  | none =>
    unfold retry
    rw [found]
    exact refl
  | some orphan =>
    have keyed := agrees.keyed hash orphan found
    rcases retry_cases w found with ⟨_, same⟩ | ⟨_, ⟨mempool, verdict, same⟩ | ⟨_, same⟩ | ⟨_, misbehaving, _, subset, same⟩⟩
    · rw [same]
      exact refl
    · rw [same]
      refine ⟨prefix_append _ _, rfl, fun place other orphan' within settled => ?_⟩
      rcases settled with erased | flagged | ⟨prev, member, absent | pending⟩
      · exact .inl (mem_append_left _ erased)
      · exact .inr (.inl flagged)
      · refine .inr (.inr ⟨prev, member, ?_⟩)
        by_cases now : prev = hash
        · rw [drop_append_of_le_length within, now]
          exact .inr (mem_append_right _ mem_cons_self)
        · exact .inl (accepted_have verdict (keyed ▸ now) absent)
      · refine .inr (.inr ⟨prev, member, .inr ?_⟩)
        rw [drop_append_of_le_length within]
        exact mem_append_left _ pending
    · rw [same]
      exact refl
    · rw [same]
      refine ⟨prefix_rfl, rfl, fun place other orphan' _ settled => ?_⟩
      exact settled.imp (mem_append_left _) (Or.imp (fun flagged => subset flagged) id)

/-- An orphan that is retried is settled, whatever the queue holds. -/
theorem retry_settled (w : Work) {orphan : COrphanTx} (found : orphans.mapOrphanTransactions.find hash = some orphan)
    (place : Nat) : Settled node (retry node orphans w hash) place hash orphan := by
  rcases retry_cases w found with ⟨flagged, same⟩ | ⟨_, ⟨_, _, same⟩ | ⟨verdict, same⟩ | ⟨_, _, _, _, same⟩⟩
  · rw [same]
    exact .inr (.inl flagged)
  · rw [same]
    exact .inl (mem_append_right _ mem_cons_self)
  · obtain ⟨prev, member, absent⟩ := missing_input verdict
    rw [same]
    exact .inr (.inr ⟨prev, member, .inl absent⟩)
  · rw [same]
    exact .inl (mem_append_right _ mem_cons_self)

theorem foldl_grows (agrees : Agrees getSerializeSize orphans) (w : Work) (hashes : List Uint256) :
    @Grows node w (hashes.foldl (retry node orphans) w) := by
  induction hashes generalizing w with
  | nil => exact ⟨prefix_rfl, rfl, fun _ _ _ _ settled => settled⟩
  | cons hash hashes ih => exact (retry_grows agrees w hash).trans (ih _)

theorem foldl_settled (agrees : Agrees getSerializeSize orphans) {w : Work} {hashes : List Uint256} {orphan : COrphanTx}
    (found : orphans.mapOrphanTransactions.find hash = some orphan) (member : hash ∈ hashes) {place : Nat}
    (within : place ≤ w.vWorkQueue.length) : Settled node (hashes.foldl (retry node orphans) w) place hash orphan := by
  induction hashes generalizing w with
  | nil => cases member
  | cons other hashes ih =>
    have grown : Grows w (retry node orphans w other) := retry_grows agrees w other
    rw [foldl_cons]
    rcases mem_cons.mp member with rfl | later
    · exact (foldl_grows agrees _ hashes).keeps place _ orphan (within.trans grown.queue.length_le) (retry_settled w found place)
    · exact ih later (within.trans grown.queue.length_le)

/-- What holds before each turn: the orphans of the entries that are done are settled but for the rest of the queue, and
what is to be erased was accepted or refused. -/
structure Kept (node : Node) (orphans : OrphanPool) (tx : CTransaction) (w : Work) : Prop where
  index : w.i ≤ w.vWorkQueue.length
  settled : ∀ hash orphan, orphans.mapOrphanTransactions.find hash = some orphan →
    ∀ prev ∈ prevHashes orphan.tx, prev ∈ w.vWorkQueue.take w.i → Settled node w w.i hash orphan
  reasons : ∀ hash ∈ w.vEraseQueue, hash ∈ w.vWorkQueue ∨ ∃ mempool, (hash, mempool) ∈ w.recentRejects
  queue : ∀ hash ∈ w.vWorkQueue, hash = tx.hash ∨ hash ∈ orphans.mapOrphanTransactions.keys

variable {tx : CTransaction}

theorem kept_start (mempool : Pool) : Kept node orphans tx (start mempool tx) where
  index := Nat.zero_le _
  settled _ _ _ _ _ none := absurd none not_mem_nil
  reasons _ none := absurd none not_mem_nil
  queue _ member := .inl (List.mem_singleton.mp member)

def Traced (orphans : OrphanPool) (tx : CTransaction) (w : Work) : Prop :=
  (∀ hash ∈ w.vEraseQueue, hash ∈ w.vWorkQueue ∨ ∃ mempool, (hash, mempool) ∈ w.recentRejects) ∧
    ∀ hash ∈ w.vWorkQueue, hash = tx.hash ∨ hash ∈ orphans.mapOrphanTransactions.keys

theorem retry_traced (traced : Traced orphans tx w) (hash : Uint256) : Traced orphans tx (retry node orphans w hash) := by
  cases found : orphans.mapOrphanTransactions.find hash with
  | none =>
    unfold retry
    rw [found]
    exact traced
  | some orphan =>
    rcases retry_cases w found with ⟨_, same⟩ | ⟨_, ⟨_, _, same⟩ | ⟨_, same⟩ | ⟨_, _, _, _, same⟩⟩
    · rw [same]
      exact traced
    · rw [same]
      constructor
      · intro other member
        rcases mem_append.mp member with old | new
        · exact (traced.1 other old).imp (mem_append_left _) id
        · exact .inl (mem_append_right _ new)
      · intro other member
        rcases mem_append.mp member with old | new
        · exact traced.2 other old
        · exact .inr (List.mem_singleton.mp new ▸ mem_of_find found)
    · rw [same]
      exact traced
    · rw [same]
      refine ⟨fun other member => ?_, traced.2⟩
      rcases mem_append.mp member with old | new
      · exact (traced.1 other old).imp id fun ⟨mempool, before⟩ => ⟨mempool, mem_append_left _ before⟩
      · exact .inr ⟨w.mempool, List.mem_append_right _ (List.mem_singleton.mp new ▸ List.mem_cons_self)⟩

theorem mem_listed (agrees : Agrees getSerializeSize orphans) {prev : Uint256} : hash ∈ listed orphans prev ↔
    ∃ orphan, orphans.mapOrphanTransactions.find hash = some orphan ∧ prev ∈ prevHashes orphan.tx := by
  unfold listed
  rw [mem_sort, agrees.under_eq, mem_orphansSpending]

theorem Kept.turn (agrees : Agrees getSerializeSize orphans) (kept : Kept node orphans tx w) :
    Kept node orphans tx (turn node orphans w) := by
  unfold OrphanResolution.turn
  cases here : w.vWorkQueue[w.i]? with
  | none => exact kept
  | some now =>
    have short : w.i < w.vWorkQueue.length := (List.getElem?_eq_some_iff.mp here).1
    have grown : Grows w ((listed orphans now).foldl (retry node orphans) w) := foldl_grows agrees w (listed orphans now)
    have traced : Traced orphans tx ((listed orphans now).foldl (retry node orphans) w) := by
      exact List.foldlRecOn _ _ ⟨kept.reasons, kept.queue⟩ fun _ traced hash _ => retry_traced traced hash
    have whole : ((listed orphans now).foldl (retry node orphans) w).vWorkQueue[w.i]? = some now := by
      obtain ⟨more, same⟩ := grown.queue
      rw [← same, List.getElem?_append_left short, here]
    constructor
    · exact short.trans_le grown.queue.length_le
    · intro hash orphan found prev member done
      by_cases spends : hash ∈ listed orphans now
      · exact foldl_settled agrees found spends short
      · -- the orphan does not spend what was taken up now, so it was settled before and not by way of it
        have before : prev ∈ w.vWorkQueue.take w.i := by
          obtain ⟨more, same⟩ := grown.queue
          dsimp only at done
          rw [take_add_one, whole, mem_append] at done
          rcases done with old | new
          · rwa [← same, take_append_of_le_length kept.index] at old
          · rw [Option.toList_some, List.mem_singleton] at new
            exact absurd ((mem_listed agrees).mpr ⟨orphan, found, new ▸ member⟩) spends
        rcases grown.keeps w.i hash orphan kept.index (kept.settled hash orphan found prev member before) with
          erased | flagged | ⟨other, member', absent | pending⟩
        · exact .inl erased
        · exact .inr (.inl flagged)
        · exact .inr (.inr ⟨other, member', .inl absent⟩)
        · refine .inr (.inr ⟨other, member', .inr ?_⟩)
          obtain ⟨below, value⟩ := List.getElem?_eq_some_iff.mp whole
          rw [List.drop_eq_getElem_cons below, value, List.mem_cons] at pending
          rcases pending with rfl | later
          · exact absurd ((mem_listed agrees).mpr ⟨orphan, found, member'⟩) spends
          · exact later
    · exact traced.1
    · exact traced.2

theorem Kept.run (agrees : Agrees getSerializeSize orphans) (kept : Kept node orphans tx w) (turns : Nat) :
    Kept node orphans tx ((OrphanResolution.turn node orphans)^[turns] w) := by
  induction turns with
  | zero => exact kept
  | succ turns ih =>
    rw [iterate_succ_apply']
    exact ih.turn agrees

theorem find_eraseQueued (hashes : List Uint256) (hash : Uint256) :
    (eraseQueued orphans hashes).mapOrphanTransactions.find hash =
      if hash ∈ hashes then none else orphans.mapOrphanTransactions.find hash := by
  unfold eraseQueued
  induction hashes generalizing orphans with
  | nil => rfl
  | cons first hashes ih =>
    rw [List.foldl_cons, ih, find_eraseOrphanTx]
    by_cases same : hash = first
    · rw [if_pos same, ite_self, if_pos (same ▸ List.mem_cons_self)]
    · rw [if_neg same]
      simp only [List.mem_cons, same, false_or]

theorem Kept.resolved (kept : Kept node orphans tx w) (ended : w.vWorkQueue.length ≤ w.i) (right : Right w) :
    Resolved node orphans (w, eraseQueued orphans w.vEraseQueue) := by
  refine ⟨fun hash orphan found prev member done => ?_, right.once, right.outside⟩
  have settled := kept.settled hash orphan found prev member (by rw [take_of_length_le ended]; exact done)
  dsimp only
  rw [find_eraseQueued]
  by_cases erased : hash ∈ w.vEraseQueue
  · rw [if_pos erased]
    exact .inl ⟨rfl, kept.reasons hash erased⟩
  · rw [if_neg erased]
    apply Or.inr
    apply And.intro found
    rcases settled with wrong | flagged | ⟨other, member', absent | pending⟩
    · exact absurd wrong erased
    · exact .inr flagged
    · exact .inl ⟨other, member', absent⟩
    · rw [drop_of_length_le ended] at pending
      cases pending

theorem turn_ended (ended : w.vWorkQueue.length ≤ w.i) : turn node orphans w = w := by
  unfold turn
  rw [getElem?_eq_none ended]

theorem turn_index {now : Uint256} (here : w.vWorkQueue[w.i]? = some now) : (turn node orphans w).i = w.i + 1 := by
  unfold turn
  rw [here]

/-- A run that does no wrong accepts each orphan once, so that its queue is short. -/
theorem queue_short (kept : Kept node orphans tx w) (right : Right w) :
    w.vWorkQueue.length ≤ orphans.mapOrphanTransactions.keys.card + 1 := by
  have inside : w.vWorkQueue.toFinset ⊆ insert tx.hash orphans.mapOrphanTransactions.keys := by
    intro hash member
    exact mem_insert.mpr (kept.queue hash (mem_toFinset.mp member))
  rw [← toFinset_card_of_nodup right.once]
  exact (card_le_card inside).trans (card_insert_le _ _)

theorem index_run (w : Work) (turns : Nat) :
    ((turn node orphans)^[turns] w).vWorkQueue.length ≤ ((turn node orphans)^[turns] w).i ∨
      ((turn node orphans)^[turns] w).i = w.i + turns := by
  induction turns with
  | zero => exact .inr rfl
  | succ turns ih =>
    rw [iterate_succ_apply']
    rcases ih with ended | going
    · rw [turn_ended ended]
      exact .inl ended
    · cases here : ((turn node orphans)^[turns] w).vWorkQueue[((turn node orphans)^[turns] w).i]? with
      | none =>
        have ended := getElem?_eq_none_iff.mp here
        rw [turn_ended ended]
        exact .inl ended
      | some now =>
        apply Or.inr
        rw [turn_index here]
        omega

theorem processTx_eq {rejected : Uint256 → Bool} {before : Pool}
    (new : alreadyHave node orphans rejected before tx.hash = false)
    (accepted : acceptToMemoryPool node before tx = .accepted mempool) (turns : Nat) :
    processTx node orphans rejected before tx turns =
      if ((turn node orphans)^[turns] (start mempool tx)).vWorkQueue.length ≤ ((turn node orphans)^[turns] (start mempool tx)).i
      then some ((turn node orphans)^[turns] (start mempool tx),
        eraseQueued orphans ((turn node orphans)^[turns] (start mempool tx)).vEraseQueue) else none := by
  unfold processTx
  rw [new, if_neg Bool.false_ne_true, accepted]

/-- An accepted transaction's orphans are resolved exactly if the loop retries no orphan that is in the pool, and none
that was accepted before and is acceptable again. -/
theorem resolved_iff (agrees : Agrees getSerializeSize orphans) {rejected : Uint256 → Bool} {before mempool : Pool}
    (new : alreadyHave node orphans rejected before tx.hash = false)
    (accepted : acceptToMemoryPool node before tx = .accepted mempool) :
    (∃ turns result, processTx node orphans rejected before tx turns = some result ∧ Resolved node orphans result) ↔
      ∀ turns, ∀ step ∈ retries node orphans ((turn node orphans)^[turns] (start mempool tx)),
        Fresh node orphans step.1 step.2 := by
  have starts : Right (start mempool tx) := ⟨nodup_singleton _, nofun⟩
  have whole := processTx_eq new accepted
  constructor
  · rintro ⟨last, result, done, resolved⟩ turns step member
    rw [whole] at done
    split at done
    next ended =>
      cases done
      have right : Right ((turn node orphans)^[last] (start mempool tx)) := ⟨resolved.once, resolved.outside⟩
      by_cases below : turns < last
      · exact ((run_right_iff agrees _ last).mp right).2 turns below step member
      · -- the loop has ended, and there are no retries
        obtain ⟨more, rfl⟩ := Nat.exists_eq_add_of_le (Nat.not_lt.mp below)
        rw [Nat.add_comm, iterate_add_apply, iterate_fixed (turn_ended ended)] at member
        unfold retries at member
        rw [getElem?_eq_none ended] at member
        cases member
    · cases done
  · intro fresh
    have right := (run_right_iff agrees (start mempool tx) (orphans.mapOrphanTransactions.keys.card + 1)).mpr
      ⟨starts, fun earlier _ => fresh earlier⟩
    have kept : Kept node orphans tx ((turn node orphans)^[orphans.mapOrphanTransactions.keys.card + 1] (start mempool tx)) :=
      (kept_start mempool).run agrees _
    have short := queue_short kept right
    have ended := @index_run node orphans (start mempool tx) (orphans.mapOrphanTransactions.keys.card + 1)
    have stopped : ((turn node orphans)^[orphans.mapOrphanTransactions.keys.card + 1] (start mempool tx)).vWorkQueue.length ≤
        ((turn node orphans)^[orphans.mapOrphanTransactions.keys.card + 1] (start mempool tx)).i := by
      rcases ended with ended | going
      · exact ended
      · rw [going]
        exact short.trans (Nat.le_add_left _ _)
    exact ⟨_, _, (whole _).trans (if_pos stopped), kept.resolved stopped right⟩

/-- A node that finds coins for hash 9 only and has no further objections. -/
def easyNode : Node := ⟨fun hash => hash == 9, fun _ => none, fun _ _ => false, fun _ _ => .ok ∅⟩

def spending (hash : Uint256) (prevs : List Uint256) : CTransaction :=
  { hash := hash, vin := prevs.map fun prev => { prevout := ⟨prev, 0⟩ }, vout := [] }

def diamond : OrphanPool :=
  (addOrphanTx (fun _ => 100) (addOrphanTx (fun _ => 100) {} (spending 2 [1]) 5).1 (spending 3 [1, 2]) 5).1

theorem diamond_agrees : Agrees (fun _ => 100) diamond :=
  (agrees_empty.addOrphanTx (spending 2 [1]) 5).addOrphanTx (spending 3 [1, 2]) 5

theorem resolved_iff_diamond :
    (∃ turns result, processTx easyNode diamond (fun _ => false) .empty (spending 1 [9]) turns = some result ∧
      Resolved easyNode diamond result) ↔ ∀ turns, ∀ step ∈ retries easyNode diamond ((turn easyNode diamond)^[turns]
        (start ((empty.eraseAll ∅).put 1 (spending 1 [9])) (spending 1 [9]))), Fresh easyNode diamond step.1 step.2 :=
  resolved_iff diamond_agrees (by decide +kernel) rfl

theorem listed_diamond : listed diamond 1 = [2, 3] := by
  have both : under diamond.mapOrphanTransactionsByPrev 1 = {2, 3} := by decide +kernel
  have less : memcmpLE 2 3 := by
    have two : Mempool.memory 32 (2 : Uint256).toNat = 2 :: replicate 31 0 := by decide +kernel
    have three : Mempool.memory 32 (3 : Uint256).toNat = 3 :: replicate 31 0 := by decide +kernel
    unfold memcmpLE
    rw [two, three]
    exact le_of_lt (Lex.rel (by decide))
  unfold listed
  rw [both, sort_insert, sort_singleton]
  · intro hash member
    rw [Finset.mem_singleton.mp member]
    exact less
  · decide

def bothAccepted : Work :=
  { [2, 3].foldl (retry easyNode diamond)
      (start ((FiniteMap.empty.eraseAll ∅).put 1 (spending 1 [9])) (spending 1 [9])) with i := 1 }

theorem turn_diamond : turn easyNode diamond
    (start ((empty.eraseAll ∅).put 1 (spending 1 [9])) (spending 1 [9])) = bothAccepted := by
  unfold turn
  change { (listed diamond 1).foldl (retry easyNode diamond) _ with i := 1 } = bothAccepted
  rw [listed_diamond]
  rfl

/-- Transaction 3 is accepted after 2, and is then retried as an orphan of 2. -/
theorem diamond_rejected :
    ¬ ∃ turns result, processTx easyNode diamond (fun _ => false) .empty (spending 1 [9]) turns = some result ∧
      Resolved easyNode diamond result := by
  rintro ⟨turns, result, done, resolved⟩
  rw [processTx_eq (by decide +kernel)
    (show acceptToMemoryPool easyNode .empty (spending 1 [9]) = .accepted ((empty.eraseAll ∅).put 1 (spending 1 [9]))
      from rfl)] at done
  match turns with
  | 0 =>
    rw [if_neg (by decide +kernel)] at done
    cases done
  | 1 =>
    rw [iterate_one, turn_diamond] at done
    rw [if_neg (by decide +kernel)] at done
    cases done
  | more + 2 =>
    split at done
    · cases done
      have right := (run_right_iff diamond_agrees _ (more + 2)).mp ⟨resolved.once, resolved.outside⟩
      have again : (bothAccepted, 3) ∈ retries easyNode diamond bothAccepted := by
        have queue : bothAccepted.vWorkQueue[bothAccepted.i]? = some 2 := by decide +kernel
        have under2 : listed diamond 2 = [3] := by decide +kernel
        unfold retries
        rw [queue]
        dsimp only
        rw [under2]
        exact mem_cons_self
      have fresh := right.2 1 (by omega)
      rw [iterate_one, turn_diamond] at fresh
      have found : diamond.mapOrphanTransactions.find 3 = some ⟨spending 3 [1, 2], 5⟩ := by decide +kernel
      exact (fresh _ again _ found (by decide +kernel)).1 (by decide +kernel)
    · cases done

end Longcoin.OrphanResolution
