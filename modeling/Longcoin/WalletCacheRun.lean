import Longcoin.Library.Steps
import Longcoin.WalletCacheInvariant

/-! Runs of the wallet: transactions and blocks come and go, keys are imported, balances are asked for in
between. What is answered from a cache is what would be computed. -/

namespace Longcoin.WalletCache
open Library Primitives Validation Wallet List

variable {Dest : Type} [DecidableEq Dest]

inductive Event (Dest : Type) where
  | syncTransaction (tx : CTransaction)
  | connectTip (block : CBlock) (txConflicted : List CTransaction)
  | disconnectTip (block : CBlock)
  | commitTransaction (tx : CTransaction) (strFromAccount : String)
  | abandonTransaction (hashTx : Uint256)
  | markConflicted (hashBlock hashTx : Uint256)
  | importKeys (keys : KeyStore Dest)
  | ask (hash : Uint256) (field : Field)
  | node (adjustedTime : Int) (inMempool : Uint256 → Bool) (bSpendZeroConfChange : Bool)

def Event.transactions : Event Dest → List CTransaction
  | .syncTransaction tx => [tx]
  | .connectTip block txConflicted => txConflicted ++ block.vtx
  | .disconnectTip block => block.vtx
  | .commitTransaction tx _ => [tx]
  | _ => []

/-- A block is told of after the tip has moved, and before anyone can ask for a balance. -/
def apply (s : State Dest) : Event Dest → State Dest
  | .syncTransaction tx => syncTransaction s tx none
  | .connectTip block txConflicted =>
    deliver (setTip s (block.hash :: s.chainActive)) (connectDeliveries block txConflicted)
  | .disconnectTip block => deliver (setTip s s.chainActive.tail) (disconnectDeliveries block)
  | .commitTransaction tx strFromAccount => commitTransaction s tx strFromAccount
  | .abandonTransaction hashTx => abandonTransaction s hashTx
  | .markConflicted hashBlock hashTx => markConflicted s hashBlock hashTx
  | .importKeys keys => importKeys s keys
  | .ask hash field => ask s hash field
  | .node adjustedTime inMempool bSpendZeroConfChange =>
    { s with adjustedTime := adjustedTime, inMempool := inMempool, bSpendZeroConfChange := bSpendZeroConfChange }

/-- Only the tip is disconnected, and only what spends coins of the wallet is committed. -/
def Allowed (s : State Dest) : Event Dest → Prop
  | .disconnectTip block => s.chainActive.head? = some block.hash
  | .commitTransaction tx _ => ∀ txin ∈ tx.vin, (findTx s.mapWallet txin.prevout.hash).isSome = true
  | _ => True

/-- The steps of a wallet; `named` tells which transaction has an id. -/
def Step (named : Uint256 → CTransaction) (s : State Dest) (event : Event Dest) (s' : State Dest) : Prop :=
  (∀ tx ∈ event.transactions, named tx.hash = tx) ∧ Allowed s event ∧ s' = apply s event

/-- Nothing that is cached is left behind: no transaction arrives after the debit of what spends it is
cached; no spent output of a transaction with a cached available credit turns with the tip unless the block
marks the transaction; no import changes a cached immature credit. -/
def LeavesNothing (s : State Dest) : Event Dest → Prop
  | .syncTransaction tx => ArrivesInTime s tx
  | .connectTip block txConflicted =>
    (∀ tx ∈ txConflicted ++ block.vtx, ArrivesInTime s tx) ∧
      TipMovesInTime s (block.hash :: s.chainActive) (connectDeliveries block txConflicted)
  | .disconnectTip block =>
    (∀ tx ∈ block.vtx, ArrivesInTime s tx) ∧ TipMovesInTime s s.chainActive.tail (disconnectDeliveries block)
  | .commitTransaction tx _ => ArrivesInTime s tx
  | .importKeys keys => ∀ wtx ∈ s.mapWallet, s.cached (wtx.tx.hash, .immatureCredit) = none ∨
      creditOfTx keys ISMINE_SPENDABLE wtx.tx = creditOfTx s.keys ISMINE_SPENDABLE wtx.tx
  | _ => True

variable {named : Uint256 → CTransaction} {s : State Dest}

theorem SoundBut.tip (sound : SoundBut ∅ s) (names : Named named s) {chainActive : List Uint256}
    {deliveries : List (CTransaction × Option CBlock)}
    (namedAll : ∀ delivery ∈ deliveries, named delivery.1.hash = delivery.1)
    (clean : ∀ delivery ∈ deliveries, ArrivesInTime s delivery.1) (inTime : TipMovesInTime s chainActive deliveries) :
    SoundBut ∅ (deliver (WalletCache.setTip s chainActive) deliveries) ∧
      Named named (deliver (WalletCache.setTip s chainActive) deliveries) := by
  obtain ⟨delivered, names'⟩ := deliver_sound deliveries (sound.setTip inTime) names namedAll clean
  exact ⟨delivered.mono fun _ inside => (inside.2 inside.1).elim, names'⟩

theorem SoundBut.importKeys (sound : SoundBut ∅ s) {keys : KeyStore Dest}
    (same : ∀ wtx ∈ s.mapWallet, s.cached (wtx.tx.hash, .immatureCredit) = none ∨
      creditOfTx keys ISMINE_SPENDABLE wtx.tx = creditOfTx s.keys ISMINE_SPENDABLE wtx.tx) :
    SoundBut ∅ (importKeys s keys) := by
  refine Memo.SoundOutside.move sound fun key _ value found => ⟨fun inside => inside.1.elim, ?_⟩
  simp only [WalletCache.importKeys] at found
  split at found
  next => cases found
  next immature =>
    obtain ⟨hash, field⟩ := key
    have isImmature : field = .immatureCredit := by simpa using immature
    subst isImmature
    refine ⟨found, ?_⟩
    unfold fresh
    change (findTx s.mapWallet hash).bind _ = _
    cases there : findTx s.mapWallet hash with
    | none => rfl
    | some wtx =>
      obtain ⟨member, equal⟩ := findTx_some there
      exact (same wtx member).resolve_left (by rw [equal, found]; exact Option.some_ne_none _)

theorem SoundBut.ask (sound : SoundBut ∅ s) (hash : Uint256) (field : Field) : SoundBut ∅ (ask s hash field) := by
  unfold WalletCache.ask
  split
  next => exact sound
  next wtx found =>
    split
    next =>
      have computed : fresh s (hash, field) = s.recompute wtx field := by
        unfold fresh
        rw [found]
        rfl
      have filled := Memo.SoundOutside.fill sound (hash, field)
      rw [computed] at filled
      exact filled
    next => exact sound

theorem step_sound {event : Event Dest} {s' : State Dest} (sound : SoundBut ∅ s) (names : Named named s)
    (step : Step named s event s') (nothing : LeavesNothing s event) : SoundBut ∅ s' ∧ Named named s' := by
  obtain ⟨namedAll, allowed, rfl⟩ := step
  cases event with
  | syncTransaction tx =>
    have name := namedAll tx mem_cons_self
    exact ⟨(sound.syncTransaction names name nothing none).mono fun _ inside => inside.1,
      (syncTransaction_grows sound names name none).2⟩
  | connectTip block txConflicted =>
    refine sound.tip names (fun delivery member => namedAll delivery.1 ?_) (fun delivery member => nothing.1 delivery.1 ?_)
      nothing.2
    all_goals
      rcases mem_append.mp member with conflicted | confirmed
      · obtain ⟨tx, there, rfl⟩ := mem_map.mp conflicted
        exact mem_append_left _ there
      · obtain ⟨tx, there, rfl⟩ := mem_map.mp confirmed
        exact mem_append_right _ there
  | disconnectTip block =>
    refine sound.tip names (fun delivery member => namedAll delivery.1 ?_) (fun delivery member => nothing.1 delivery.1 ?_)
      nothing.2
    all_goals
      obtain ⟨tx, there, rfl⟩ := mem_map.mp member
      exact there
  | commitTransaction tx strFromAccount =>
    have name := namedAll tx mem_cons_self
    let wtx : CWalletTx := { tx := tx, hashBlock := 0, nIndex := -1, strFromAccount := strFromAccount }
    have added : SoundBut _ (markSpent (addToWallet s wtx) wtx.tx.vin) := sound.addToWallet names name nothing
    refine ⟨added.mono fun _ inside => inside.1,
      (Settles.markSpent (addToWallet s wtx) tx.vin).keepsNames fun tx' member => ?_⟩
    rcases txs_addToWallet s wtx tx' member with old | new
    · exact names tx' old
    · rw [new]
      exact name
  | abandonTransaction hashTx =>
    have kept := (Kept.refl sound names).abandonTransaction hashTx
    exact ⟨kept.sound, kept.names⟩
  | markConflicted hashBlock hashTx =>
    have kept := (Kept.refl sound names).markConflicted hashBlock hashTx
    exact ⟨kept.sound, kept.names⟩
  | importKeys keys => exact ⟨sound.importKeys nothing, names⟩
  | ask hash field =>
    refine ⟨sound.ask hash field, ?_⟩
    change Named named (ask s hash field)
    unfold WalletCache.ask
    split
    · exact names
    · split <;> exact names
  | node adjustedTime inMempool bSpendZeroConfChange => exact ⟨sound, names⟩

theorem mapM_congr {α β : Type} {entries : List α} {f g : α → Option β} (same : ∀ entry ∈ entries, f entry = g entry) :
    entries.mapM f = entries.mapM g := by
  induction entries with
  | nil => rfl
  | cons entry rest ih =>
    rw [mapM_cons, mapM_cons, same entry mem_cons_self,
      ih (forall_mem_cons.mp same).2]

section

variable (sound : SoundBut ∅ s) (names : Named named s) {wtx : CWalletTx} (member : wtx ∈ s.mapWallet)
include sound names member

theorem amount_cached (field : Field) : amount s true wtx field = amount s false wtx field := by
  have computed : fresh s (wtx.tx.hash, field) = s.recompute wtx field := by
    unfold fresh
    cases there : findTx s.mapWallet wtx.tx.hash with
    | none =>
      have known := findTx_isSome.mpr ⟨wtx, member, rfl⟩
      rw [there] at known
      cases known
    | some first => exact recompute_congr rfl rfl (names.found there wtx member rfl).symm fun _ _ => rfl
  have everywhere : Memo.SoundOutside ∅ s.cached (fresh s) := Memo.SoundOutside.mono sound fun _ inside => inside.1.elim
  unfold amount
  rw [if_pos rfl, if_neg Bool.false_ne_true, Option.none_or, ← computed, everywhere.answer]

theorem getDebit_cached (filter : IsMineFilter) : getDebit s true filter wtx = getDebit s false filter wtx := by
  unfold getDebit
  rw [amount_cached sound names member, amount_cached sound names member]

theorem isTrusted_cached : isTrusted s true wtx = isTrusted s false wtx := by
  unfold isTrusted
  rw [getDebit_cached sound names member]

theorem isPending_cached : isPending s true wtx = isPending s false wtx := by
  unfold isPending
  rw [isTrusted_cached sound names member]

end

theorem total_cached (sound : SoundBut ∅ s) (names : Named named s) (field : Field) {counted counted' : CWalletTx → Bool}
    (same : ∀ wtx ∈ s.mapWallet, counted wtx = counted' wtx) : total s true field counted = total s false field counted' := by
  unfold total
  rw [filter_congr same]
  refine congrArg _ (mapM_congr fun wtx member => ?_)
  exact amount_cached sound names (mem_filter.mp member).1 field

/-- From a wallet that has nothing cached, the caches are right in every state that is reached by steps that
leave nothing behind. -/
theorem run_sound {start last : State Dest} {events : List (Event Dest)} (empty : start.cached = fun _ => none)
    (names : Named named start)
    (run : Steps (fun s event s' => Step named s event s' ∧ LeavesNothing s event) start events last) :
    SoundBut ∅ last ∧ Named named last := by
  refine run.invariant (fun s => SoundBut ∅ s ∧ Named named s)
    (fun s event s' holds step => step_sound holds.1 holds.2 step.1 step.2) ⟨?_, names⟩
  unfold SoundBut
  rw [empty]
  exact Memo.SoundOutside.empty

/-- Then every amount and every balance is the same with and without the caches. -/
theorem cached_amounts_are_fresh {start last : State Dest} {events : List (Event Dest)}
    (empty : start.cached = fun _ => none) (names : Named named start)
    (run : Steps (fun s event s' => Step named s event s' ∧ LeavesNothing s event) start events last) :
    (∀ wtx ∈ last.mapWallet, ∀ field, amount last true wtx field = amount last false wtx field) ∧
      getBalance last true = getBalance last false ∧ getUnconfirmedBalance last true = getUnconfirmedBalance last false ∧
      getImmatureBalance last true = getImmatureBalance last false ∧
      getWatchOnlyBalance last true = getWatchOnlyBalance last false ∧
      getUnconfirmedWatchOnlyBalance last true = getUnconfirmedWatchOnlyBalance last false ∧
      getImmatureWatchOnlyBalance last true = getImmatureWatchOnlyBalance last false := by
  obtain ⟨sound, names'⟩ := run_sound empty names run
  have trusted := fun (wtx : CWalletTx) (member : wtx ∈ last.mapWallet) => isTrusted_cached sound names' member
  have pending := fun (wtx : CWalletTx) (member : wtx ∈ last.mapWallet) => isPending_cached sound names' member
  exact ⟨fun wtx member field => amount_cached sound names' member field, total_cached sound names' _ trusted,
    total_cached sound names' _ pending, total_cached sound names' _ fun _ _ => rfl, total_cached sound names' _ trusted,
    total_cached sound names' _ pending, total_cached sound names' _ fun _ _ => rfl⟩

/-- The scripts `own` are the wallet's. -/
def sampleKeys (own : List CScript) : KeyStore Nat where
  isMine script := if script ∈ own then .spendable else .no
  destination _ := none
  mapAddressBook := []

/-- A wallet without transactions, with one key; the active chain ends in block 50. -/
def sampleStart : State Nat where
  chainActive := [50]
  adjustedTime := 0
  inMempool _ := false
  bSpendZeroConfChange := true
  keys := sampleKeys [[0x51]]
  mapWallet := []
  cached _ := none

def reward : CTransaction := { hash := 9, vin := [{ prevout := ⟨0, 4294967295⟩ }], vout := [⟨30, [0x51]⟩, ⟨20, [0x52]⟩] }

def received : CTransaction := { hash := 11, vin := [{ prevout := ⟨3, 0⟩ }], vout := [⟨30, [0x51]⟩] }

def receivedToo : CTransaction := { hash := 12, vin := [{ prevout := ⟨4, 0⟩ }], vout := [⟨20, [0x51]⟩] }

def payment : CTransaction :=
  { hash := 13, vin := [{ prevout := ⟨11, 0⟩ }, { prevout := ⟨12, 0⟩ }], vout := [⟨50, [0x53]⟩] }

def rival : CTransaction := { hash := 14, vin := [{ prevout := ⟨11, 0⟩ }], vout := [⟨30, [0x54]⟩] }

def rivalBlock : CBlock := { hash := 52, hashPrevBlock := 51, vtx := [rival] }

def sampleNames (hash : Uint256) : CTransaction :=
  if hash = 9 then reward else if hash = 11 then received else if hash = 12 then receivedToo
  else if hash = 13 then payment else rival

/-- A block with a rival of the payment comes and goes. -/
def reorganisation : List (Event Nat) :=
  [.connectTip { hash := 51, hashPrevBlock := 50, vtx := [received, receivedToo] } [], .syncTransaction payment,
    .connectTip rivalBlock [payment], .ask 12 .availableCredit, .disconnectTip rivalBlock]

/-- The key of the second output of a reward is imported while the reward is immature. -/
def lateImport : List (Event Nat) :=
  [.connectTip { hash := 51, hashPrevBlock := 50, vtx := [reward] } [], .ask 9 .immatureCredit,
    .importKeys (sampleKeys [[0x51], [0x52]])]

/-- What is cached is marked when the payment comes and when its rival comes and goes; the key imported then is not paid
by the reward. -/
def watchful : List (Event Nat) :=
  [.connectTip { hash := 51, hashPrevBlock := 50, vtx := [reward, received, receivedToo] } [], .ask 9 .immatureCredit,
    .ask 11 .availableCredit, .syncTransaction payment, .ask 13 .debit, .connectTip rivalBlock [payment],
    .ask 11 .availableCredit, .disconnectTip rivalBlock, .importKeys (sampleKeys [[0x51], [0x53]])]

theorem cached_amounts_are_fresh_sample : getImmatureBalance (watchful.foldl apply sampleStart) true = some 30 := by
  have none' : ∀ tx ∈ ([] : List CTransaction), sampleNames tx.hash = tx := nofun
  have run : Steps (fun s event s' => Step sampleNames s event s' ∧ LeavesNothing s event) sampleStart watchful
      (watchful.foldl apply sampleStart) := by
    refine .more ⟨⟨by decide, trivial, rfl⟩, ?_⟩ (.more ⟨⟨none', trivial, rfl⟩, trivial⟩
      (.more ⟨⟨none', trivial, rfl⟩, trivial⟩ (.more ⟨⟨by decide, trivial, rfl⟩, ?_⟩
      (.more ⟨⟨none', trivial, rfl⟩, trivial⟩ (.more ⟨⟨by decide, trivial, rfl⟩, ?_⟩
      (.more ⟨⟨none', trivial, rfl⟩, trivial⟩ (.more ⟨⟨by decide, rfl, rfl⟩, ?_⟩
      (.more ⟨⟨none', trivial, rfl⟩, ?_⟩ (.done _)))))))))
    all_goals
      simp only [LeavesNothing, ArrivesInTime, TipMovesInTime, touched, prevs, Set.mem_union, Set.mem_singleton_iff, Set.mem_ofPred_eq]
      decide +kernel
  rw [(cached_amounts_are_fresh rfl (fun _ member => absurd member not_mem_nil) run).2.2.2.1]
  decide +kernel

/-- The payment is in conflict with the block while it is in the chain, so what it spends counts; when the
block goes, nobody tells. And an import leaves the immature credit as it was. -/
theorem caches_go_stale : (Steps (Step sampleNames) sampleStart reorganisation (reorganisation.foldl apply sampleStart) ∧
        getBalance (reorganisation.foldl apply sampleStart) true = some 20 ∧
        getBalance (reorganisation.foldl apply sampleStart) false = some 0) ∧
      Steps (Step sampleNames) sampleStart lateImport (lateImport.foldl apply sampleStart) ∧
        getImmatureBalance (lateImport.foldl apply sampleStart) true = some 30 ∧
        getImmatureBalance (lateImport.foldl apply sampleStart) false = some 50 := by
  have none' : ∀ tx ∈ ([] : List CTransaction), sampleNames tx.hash = tx := nofun
  refine ⟨⟨?_, by decide +kernel, by decide +kernel⟩, ?_, by decide +kernel, by decide +kernel⟩
  · exact .more ⟨by decide, trivial, rfl⟩ (.more ⟨by decide, trivial, rfl⟩ (.more ⟨by decide, trivial, rfl⟩
      (.more ⟨none', trivial, rfl⟩ (.more ⟨by decide, rfl, rfl⟩ (.done _)))))
  · exact .more ⟨by decide, trivial, rfl⟩ (.more ⟨none', trivial, rfl⟩ (.more ⟨none', trivial, rfl⟩ (.done _)))

omit [DecidableEq Dest] in
/-- The loops of `MarkConflicted` and `AbandonTransaction` end: they work off each transaction at most once. -/
theorem worklists_end {s : State Dest} {hashTx : Uint256} (known : (findTx s.mapWallet hashTx).isSome = true) :
    (∀ hashBlock conflictconfirms, Ends (conflictTurn hashBlock conflictconfirms) s hashTx) ∧ Ends (abandonTurn hashTx) s hashTx :=
  ⟨fun _ _ => turns_enough (conflictTurn_inside _ _) known, turns_enough (abandonTurn_inside hashTx) known⟩

theorem worklists_end_sample : Ends (abandonTurn 13) (reorganisation.foldl apply sampleStart) 13 :=
  (worklists_end (by decide +kernel)).2

end Longcoin.WalletCache
