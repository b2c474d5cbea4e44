import Longcoin.Library.FiniteMap
import Longcoin.Library.SortedRows
import Longcoin.TransactionCodec

/-! The transactions that are kept for peers that ask for them (`RelayTransaction` in `net.cpp`, `ProcessGetData` in `main.cpp`). -/

namespace Longcoin.RelayMemory
open Primitives Serialize Library List

structure CInv where
  type : Nat
  hash : Uint256
deriving DecidableEq

def MSG_TX : Nat := 1

def CInv.isKnownType (inv : CInv) : Bool := 1 ≤ inv.type && inv.type < 4

/-- `mapRelay` and `vRelayExpiration` -/
structure Memory where
  mapRelay : FiniteMap CInv (List UInt8) := .empty
  vRelayExpiration : List (Int × CInv) := []

def streamOf (tx : CTransaction) : List UInt8 := writeTransaction tx.nVersion tx.vin tx.vout tx.nLockTime

def invOf (tx : CTransaction) : CInv := ⟨MSG_TX, tx.hash⟩

def expire (now : Int) : List (Int × CInv) → FiniteMap CInv (List UInt8) → Memory
  | [], mapRelay => ⟨mapRelay, []⟩
  | front :: rest, mapRelay => if front.1 < now then expire now rest (mapRelay.erase front.2) else ⟨mapRelay, front :: rest⟩

/-- `RelayTransaction(tx, ss)` at the time `now`. `map::insert` leaves an entry that is there as it is. -/
def relayStream (s : Memory) (tx : CTransaction) (ss : List UInt8) (now : Int) : Memory :=
  let s := expire now s.vRelayExpiration s.mapRelay
  { mapRelay := s.mapRelay.insertNew (invOf tx) ss
    vRelayExpiration := s.vRelayExpiration ++ [(now + 15 * 60, invOf tx)] }

def relayTransaction (s : Memory) (tx : CTransaction) (now : Int) : Memory := relayStream s tx (streamOf tx) now

/-- What `ProcessGetData` answers for an item that is not a block; without an answer the item goes to `vNotFound`. -/
def answer (s : Memory) (lookup : Uint256 → Option CTransaction) (inv : CInv) : Option (List UInt8) :=
  if !inv.isKnownType then none
  else
    match s.mapRelay.find inv with
    | some stream => some stream
    | none => if inv.type = MSG_TX then (lookup inv.hash).map streamOf else none

structure Relayed where
  tx : CTransaction
  time : Int

def run (calls : List Relayed) : Memory := calls.foldl (fun s call => relayTransaction s call.tx call.time) {}

def Ordered (calls : List Relayed) : Prop := calls.Pairwise fun call later => call.time ≤ later.time

/-- What was relayed in the 15 minutes before `now` is kept. -/
def Remembers (calls : List Relayed) (now : Int) (s : Memory) : Prop :=
  ∀ call ∈ calls, now ≤ call.time + 15 * 60 → invOf call.tx ∈ s.mapRelay.keys

def Expires (s : Memory) : Prop := ∀ inv ∈ s.mapRelay.keys, ∃ time, (time, inv) ∈ s.vRelayExpiration

/-- What is kept was relayed in the 15 minutes before `now`. -/
def Forgets (calls : List Relayed) (now : Int) (s : Memory) : Prop :=
  ∀ inv ∈ s.mapRelay.keys, ∃ call ∈ calls, invOf call.tx = inv ∧ now ≤ call.time + 15 * 60

/-- No entry that expires with the call is for a transaction with a later entry that does not, unless it is the one that is relayed. -/
def Unrepeated (s : Memory) (call : Relayed) : Prop :=
  ∀ old ∈ s.vRelayExpiration, old.1 < call.time → ∀ young ∈ s.vRelayExpiration, call.time ≤ young.1 → young.2 = old.2 →
    old.2 = invOf call.tx

section Call

variable {s : Memory} {call : Relayed} {inv : CInv} {now : Int}

theorem expire_queue (now : Int) (queue : List (Int × CInv)) (mapRelay : FiniteMap CInv (List UInt8)) :
    (expire now queue mapRelay).vRelayExpiration = queue.dropWhile (·.1 < now) := by
  induction queue generalizing mapRelay with
  | nil => rfl
  | cons front rest ih =>
    rw [expire, dropWhile_cons]
    by_cases old : front.1 < now
    · rw [if_pos old, if_pos (decide_eq_true old)]
      exact ih _
    · rw [if_neg old, if_neg (by simpa using old)]

theorem mem_expire (now : Int) (queue : List (Int × CInv)) (mapRelay : FiniteMap CInv (List UInt8)) :
    inv ∈ (expire now queue mapRelay).mapRelay.keys ↔
      inv ∈ mapRelay.keys ∧ ∀ old ∈ queue.takeWhile (·.1 < now), old.2 ≠ inv := by
  induction queue generalizing mapRelay with
  | nil => simp [expire]
  | cons front rest ih =>
    rw [expire, takeWhile_cons]
    by_cases old : front.1 < now
    · rw [if_pos old, if_pos (decide_eq_true old), ih]
      simp only [FiniteMap.erase, Finset.mem_erase, forall_mem_cons]
      constructor
      · exact fun kept => ⟨kept.1.2, kept.1.1.symm, kept.2⟩
      · exact fun kept => ⟨⟨kept.2.1.symm, kept.1⟩, kept.2.2⟩
    · rw [if_neg old, if_neg (by simpa using old)]
      simp

theorem relayTransaction_queue (s : Memory) (call : Relayed) : (relayTransaction s call.tx call.time).vRelayExpiration =
    s.vRelayExpiration.dropWhile (·.1 < call.time) ++ [(call.time + 15 * 60, invOf call.tx)] := by
  unfold relayTransaction relayStream
  simp only [expire_queue]

theorem mem_insertNew {K V : Type} [DecidableEq K] (map : FiniteMap K V) (key other : K) (value : V) :
    other ∈ (map.insertNew key value).keys ↔ other = key ∨ other ∈ map.keys := by
  rw [FiniteMap.insertNew]
  split
  next known =>
    constructor
    · exact .inr
    · rintro (rfl | member)
      · exact (map.mem_keys other).mpr known
      · exact member
  next => exact Finset.mem_insert

theorem mem_relayTransaction (s : Memory) (call : Relayed) : inv ∈ (relayTransaction s call.tx call.time).mapRelay.keys ↔
    inv = invOf call.tx ∨ inv ∈ s.mapRelay.keys ∧ ∀ old ∈ s.vRelayExpiration.takeWhile (·.1 < call.time), old.2 ≠ inv := by
  unfold relayTransaction relayStream
  simp only [mem_insertNew, mem_expire]

theorem Expires.relayTransaction (expires : Expires s) (call : Relayed) : Expires (relayTransaction s call.tx call.time) := by
  intro inv kept
  rw [relayTransaction_queue]
  rcases (mem_relayTransaction s call).mp kept with rfl | ⟨before, stays⟩
  · exact ⟨_, mem_append_right _ mem_cons_self⟩
  · obtain ⟨time, queued⟩ := expires inv before
    rw [← @takeWhile_append_dropWhile _ (·.1 < call.time) s.vRelayExpiration, mem_append] at queued
    rcases queued with old | young
    · exact absurd rfl (stays _ old)
    · exact ⟨time, mem_append_left _ young⟩

end Call

/-- The entry of a call in `vRelayExpiration`. -/
def entryOf (call : Relayed) : Int × CInv := (call.time + 15 * 60, invOf call.tx)

section Queue

variable {calls before after : List Relayed} {call : Relayed}

theorem run_snoc (calls : List Relayed) (call : Relayed) : run (calls ++ [call]) = relayTransaction (run calls) call.tx call.time := by
  rw [run, foldl_append]
  rfl

theorem Ordered.left (ordered : Ordered (before ++ after)) : Ordered before := (pairwise_append.mp ordered).1

theorem young_entries {queue : List (Int × CInv)} (sorted : queue.Pairwise fun first later => first.1 ≤ later.1) (now : Int) :
    queue.dropWhile (·.1 < now) = queue.filter (now ≤ ·.1) := by
  have first : queue.Pairwise fun entry later => decide (later.1 < now) = true → decide (entry.1 < now) = true := by
    apply sorted.imp
    intro entry later order old
    rw [decide_eq_true_eq] at old ⊢
    exact order.trans_lt old
  rw [dropWhile_pairwise first]
  congr 1
  funext entry
  rw [← decide_not, decide_eq_decide, not_lt]

theorem sorted_entries (ordered : Ordered calls) : (calls.map entryOf).Pairwise fun first later => first.1 ≤ later.1 := by
  rw [pairwise_map]
  apply ordered.imp
  intro call later order
  exact Int.add_le_add_right order _

theorem run_queue : ∀ {calls : List Relayed} {call : Relayed}, Ordered (calls ++ [call]) →
    (run (calls ++ [call])).vRelayExpiration = ((calls ++ [call]).map entryOf).filter (call.time ≤ ·.1) := by
  intro calls
  induction calls using reverseRecOn with
  | nil =>
    intro call _
    simp [run, relayTransaction, relayStream, expire, entryOf]
  | append_singleton earlier last ih =>
    intro call ordered
    have sorted := (sorted_entries ordered.left).filter fun entry => decide (last.time ≤ entry.1)
    have order : last.time ≤ call.time :=
      (pairwise_append.mp ordered).2.2 last (mem_append_right _ mem_cons_self) call mem_cons_self
    rw [run_snoc, relayTransaction_queue, ih ordered.left, young_entries sorted, filter_filter,
      @map_append _ _ entryOf (earlier ++ [last]) [call], filter_append]
    congr 1
    · apply filter_congr
      intro entry _
      rw [← Bool.decide_and, decide_eq_decide]
      exact ⟨And.left, fun young => ⟨young, order.trans young⟩⟩
    · simp [entryOf]

theorem mem_run_queue (ordered : Ordered (calls ++ [call])) {entry : Int × CInv} :
    entry ∈ (run (calls ++ [call])).vRelayExpiration ↔ ∃ earlier ∈ calls ++ [call], entryOf earlier = entry ∧ call.time ≤ entry.1 := by
  rw [run_queue ordered, mem_filter, mem_map, decide_eq_true_eq]
  constructor
  · exact fun ⟨⟨earlier, member, same⟩, young⟩ => ⟨earlier, member, same, young⟩
  · exact fun ⟨earlier, member, same, young⟩ => ⟨⟨earlier, member, same⟩, young⟩

theorem remembers_iff (ordered : Ordered (calls ++ [call])) : Remembers (calls ++ [call]) call.time (run (calls ++ [call])) ↔
    ∀ entry ∈ (run (calls ++ [call])).vRelayExpiration, entry.2 ∈ (run (calls ++ [call])).mapRelay.keys := by
  constructor
  · intro remembers entry queued
    obtain ⟨earlier, member, rfl, young⟩ := (mem_run_queue ordered).mp queued
    exact remembers earlier member young
  · exact fun kept earlier member young => kept (entryOf earlier) ((mem_run_queue ordered).mpr ⟨earlier, member, rfl, young⟩)

end Queue

section Run

variable {s : Memory} {calls before : List Relayed} {call : Relayed}

theorem expires_run (calls : List Relayed) : Expires (run calls) := by
  induction calls using reverseRecOn with
  | nil => exact fun inv nothing => absurd nothing (Finset.notMem_empty inv)
  | append_singleton calls call ih =>
    rw [run_snoc]
    exact ih.relayTransaction call

theorem forgets_run (ordered : Ordered (calls ++ [call])) : Forgets (calls ++ [call]) call.time (run (calls ++ [call])) := by
  intro inv kept
  obtain ⟨time, queued⟩ := expires_run _ inv kept
  obtain ⟨earlier, member, same, young⟩ := (mem_run_queue ordered).mp queued
  rw [← same] at young
  exact ⟨earlier, member, congrArg Prod.snd same, young⟩

/-- Where every entry of the queue is kept, it is so after a call if and only if the call finds no old entry of a transaction that
also has a young one. -/
theorem kept_iff (sorted : s.vRelayExpiration.Pairwise fun first later => first.1 ≤ later.1)
    (kept : ∀ entry ∈ s.vRelayExpiration, entry.2 ∈ s.mapRelay.keys) :
    (∀ entry ∈ (relayTransaction s call.tx call.time).vRelayExpiration,
      entry.2 ∈ (relayTransaction s call.tx call.time).mapRelay.keys) ↔ Unrepeated s call := by
  have young (entry : Int × CInv) : entry ∈ s.vRelayExpiration.dropWhile (·.1 < call.time) ↔
      entry ∈ s.vRelayExpiration ∧ call.time ≤ entry.1 := by
    rw [young_entries sorted, mem_filter, decide_eq_true_eq]
  have old (entry : Int × CInv) : entry ∈ s.vRelayExpiration.takeWhile (·.1 < call.time) ↔
      entry ∈ s.vRelayExpiration ∧ entry.1 < call.time := by
    have first : s.vRelayExpiration.Pairwise fun entry later => decide (later.1 < call.time) = true → decide (entry.1 < call.time) = true := by
      apply sorted.imp
      intro entry later order isOld
      rw [decide_eq_true_eq] at isOld ⊢
      exact order.trans_lt isOld
    rw [takeWhile_pairwise first, mem_filter, decide_eq_true_eq]
  rw [relayTransaction_queue]
  constructor
  · intro stays entry queued isOld other queued' isYoung same
    have member := stays other (mem_append_left _ ((young other).mpr ⟨queued', isYoung⟩))
    rcases (mem_relayTransaction s call).mp member with isNew | ⟨-, none⟩
    · exact same.symm.trans isNew
    · exact absurd same.symm (none entry ((old entry).mpr ⟨queued, isOld⟩))
  · intro unrepeated entry queued
    rw [mem_relayTransaction]
    rcases mem_append.mp queued with isYoung | isNew
    · obtain ⟨queued', isYoung⟩ := (young entry).mp isYoung
      by_cases again : entry.2 = invOf call.tx
      · exact .inl again
      · refine .inr ⟨kept entry queued', fun other isOld same => again ?_⟩
        obtain ⟨queued'', isOld⟩ := (old other).mp isOld
        exact same ▸ unrepeated other queued'' isOld entry queued' isYoung same.symm
    · rw [mem_singleton.mp isNew]
      exact .inl rfl

theorem sorted_run (ordered : Ordered calls) : (run calls).vRelayExpiration.Pairwise fun first later => first.1 ≤ later.1 := by
  induction calls using reverseRecOn with
  | nil => exact Pairwise.nil
  | append_singleton calls call =>
    rw [run_queue ordered]
    exact (sorted_entries ordered).filter _

/-- What is asked of the calls so far, each in the state before it. -/
def Single (calls : List Relayed) : Prop := ∀ before call, before ++ [call] <+: calls → Unrepeated (run before) call

/-- After each of the calls what was relayed in the last 15 minutes is there. -/
def AlwaysRemembers (calls : List Relayed) : Prop :=
  ∀ before call, before ++ [call] <+: calls → Remembers (before ++ [call]) call.time (run (before ++ [call]))

theorem kept_run (ordered : Ordered calls) (remembers : AlwaysRemembers calls) :
    ∀ entry ∈ (run calls).vRelayExpiration, entry.2 ∈ (run calls).mapRelay.keys := by
  induction calls using reverseRecOn with
  | nil => exact nofun
  | append_singleton calls call => exact (remembers_iff ordered).mp (remembers calls call (prefix_refl _))

theorem alwaysRemembers_iff (ordered : Ordered calls) : AlwaysRemembers calls ↔ Single calls := by
  induction calls using reverseRecOn with
  | nil =>
    have none (before : List Relayed) (call : Relayed) : ¬ before ++ [call] <+: [] := by simp
    exact ⟨fun _ before call inside => absurd inside (none before call), fun _ before call inside => absurd inside (none before call)⟩
  | append_singleton calls call ih =>
    have step (remembers : AlwaysRemembers calls) : Remembers (calls ++ [call]) call.time (run (calls ++ [call])) ↔ Unrepeated (run calls) call := by
      rw [remembers_iff ordered, run_snoc]
      exact kept_iff (sorted_run ordered.left) (kept_run ordered.left remembers)
    have inside {before : List Relayed} {other : Relayed} (begins : before ++ [other] <+: calls ++ [call]) :
        before ++ [other] <+: calls ∨ before = calls ∧ other = call := by
      rcases prefix_concat_iff.mp begins with whole | shorter
      · exact .inr (append_singleton_inj.mp whole)
      · exact .inl shorter
    constructor
    · intro remembers before other begins
      have earlier : AlwaysRemembers calls := fun before other begins => remembers before other (begins.trans (prefix_append _ _))
      rcases inside begins with shorter | ⟨rfl, rfl⟩
      · exact (ih ordered.left).mp earlier before other shorter
      · exact (step earlier).mp (remembers _ _ (prefix_refl _))
    · intro single before other begins
      have earlier := (ih ordered.left).mpr fun before other begins => single before other (begins.trans (prefix_append _ _))
      rcases inside begins with shorter | ⟨rfl, rfl⟩
      · exact earlier before other shorter
      · exact (step earlier).mpr (single _ _ (prefix_refl _))

end Run

theorem answer_kept {s : Memory} {tx : CTransaction} (kept : invOf tx ∈ s.mapRelay.keys)
    (lookup : Uint256 → Option CTransaction) : (answer s lookup (invOf tx)).isSome = true := by
  obtain ⟨stream, found⟩ := FiniteMap.find_of_mem kept
  have known : (invOf tx).isKnownType = true := rfl
  simp [answer, known, found]

/-- After each of the calls every entry of the memory will expire and was relayed in the last 15 minutes; all that was relayed in
the last 15 minutes is there if and only if no call finds an old entry of a transaction that was relayed again since. What is
there is served. -/
theorem relay_memory {calls : List Relayed} (ordered : Ordered calls) : (∀ before call, before ++ [call] <+: calls →
      Expires (run (before ++ [call])) ∧ Forgets (before ++ [call]) call.time (run (before ++ [call]))) ∧
      (AlwaysRemembers calls ↔ Single calls) ∧
      ∀ s tx lookup, invOf tx ∈ s.mapRelay.keys → (answer s lookup (invOf tx)).isSome = true := by
  refine ⟨?_, alwaysRemembers_iff ordered, fun _ _ lookup kept => answer_kept kept lookup⟩
  · intro before call begins
    have inside : Ordered (before ++ [call]) := ordered.sublist begins.sublist
    exact ⟨expires_run _, forgets_run inside⟩

def sampleTx (hash : Uint256) : CTransaction := { hash, vin := [], vout := [] }

theorem relay_memory_sample : AlwaysRemembers [⟨sampleTx 1, 0⟩, ⟨sampleTx 2, 1000⟩] := by
  apply (relay_memory (by unfold Ordered; decide)).2.1.mpr
  intro before call begins old queued isOld young queued' isYoung
  cases before with
  | nil => cases queued
  | cons first rest =>
    cases rest with
    | nil =>
      simp only [singleton_append, cons_prefix_cons, prefix_nil, and_true] at begins
      obtain ⟨rfl, rfl⟩ := begins
      rw [show (run [⟨sampleTx 1, 0⟩]).vRelayExpiration = [(900, invOf (sampleTx 1))] from rfl, mem_singleton] at queued'
      rw [queued'] at isYoung
      cases isYoung
    | cons second rest =>
      have short := begins.length_le
      simp at short

/-- The transaction was relayed five minutes ago, but its first entry is 15 minutes old. -/
theorem relay_forgets_repeated : Ordered [⟨sampleTx 1, 0⟩, ⟨sampleTx 1, 600⟩, ⟨sampleTx 2, 901⟩] ∧
    ¬ AlwaysRemembers [⟨sampleTx 1, 0⟩, ⟨sampleTx 1, 600⟩, ⟨sampleTx 2, 901⟩] := by
  constructor
  · unfold Ordered
    decide
  · intro remembers
    have kept := remembers [⟨sampleTx 1, 0⟩, ⟨sampleTx 1, 600⟩] ⟨sampleTx 2, 901⟩ (prefix_refl _) ⟨sampleTx 1, 600⟩
      (by simp) (by decide)
    exact absurd kept (by decide)

end Longcoin.RelayMemory
