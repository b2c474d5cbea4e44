import Longcoin.WalletCache

/-! What each operation of the wallet keeps of its caches: a cached amount is what would be computed, except
that available credits may be out of date where a change of the tip has just turned spent outputs into
unspent ones or back. -/

namespace Longcoin.WalletCache
open Library Primitives Validation Wallet Worklist List Option Bool Function

variable {Dest : Type} {s s' : State Dest} {stale : Set Uint256}

def Field.isAvailable : Field → Bool
  | .availableCredit | .availableWatchCredit => true
  | _ => false

def prevs (vin : List CTxIn) : Set Uint256 := {hash | ∃ txin ∈ vin, txin.prevout.hash = hash}

def txs (s : State Dest) : List CTransaction := s.mapWallet.map (·.tx)

theorem findTx_map_tx (wallet : List CWalletTx) (hash : Uint256) :
    (findTx wallet hash).map (·.tx) = (wallet.map (·.tx)).find? fun tx => tx.hash == hash := by
  rw [find?_map]
  rfl

variable {wallet : List CWalletTx}

theorem findTx_some {hash : Uint256} {wtx : CWalletTx} (found : findTx wallet hash = some wtx) :
    wtx ∈ wallet ∧ wtx.tx.hash = hash :=
  ⟨mem_of_find?_eq_some found, by simpa using find?_some found⟩

theorem findTx_isSome {hash : Uint256} : (findTx wallet hash).isSome = true ↔ ∃ wtx ∈ wallet, wtx.tx.hash = hash := by
  simp [findTx, find?_isSome]

theorem debitOfInput_eq (keys : KeyStore Dest) (wallet : List CWalletTx) (filter : IsMineFilter) (prevout : COutPoint) :
    debitOfInput keys wallet filter prevout =
      (((wallet.map (·.tx)).find? fun tx => tx.hash == prevout.hash).bind fun tx => tx.vout[prevout.n]?).elim 0 fun txout =>
        if (keys.isMine txout.scriptPubKey).passes filter then txout.nValue else 0 := by
  rw [← findTx_map_tx, debitOfInput, bind_map]
  rfl

theorem debitOfTx_congr (keys : KeyStore Dest) {wallet' : List CWalletTx} (filter : IsMineFilter) (tx : CTransaction)
    (same : wallet'.map (·.tx) = wallet.map (·.tx)) : debitOfTx keys wallet' filter tx = debitOfTx keys wallet filter tx := by
  simp only [debitOfTx, debitOfInput_eq, same]

theorem availableCredit_congr {node node' : NodeView} (keys : KeyStore Dest) {wallet' : List CWalletTx}
    (filter : IsMineFilter) {wtx wtx' : CWalletTx} (tx : wtx'.tx = wtx.tx)
    (spent : ∀ n, isSpent node' wallet' ⟨wtx.tx.hash, n⟩ = isSpent node wallet ⟨wtx.tx.hash, n⟩) :
    availableCredit node' keys wallet' filter wtx' = availableCredit node keys wallet filter wtx := by
  simp only [availableCredit, tx, spent]

theorem isSpent_map (node : NodeView) (wallet : List CWalletTx) (outpoint : COutPoint) (f : CWalletTx → CWalletTx)
    (keeps : ∀ wtx, (f wtx).tx = wtx.tx)
    (same : ∀ wtx ∈ wallet, (∃ txin ∈ wtx.tx.vin, txin.prevout = outpoint) → f wtx = wtx) :
    isSpent node (wallet.map f) outpoint = isSpent node wallet outpoint := by
  unfold isSpent
  rw [List.any_map, Bool.eq_iff_iff, List.any_eq_true, List.any_eq_true]
  refine exists_congr fun wtx => and_congr_right fun member => ?_
  by_cases spends : ∃ txin ∈ wtx.tx.vin, txin.prevout = outpoint
  · rw [Function.comp_apply, same wtx member spends]
  · have none' : (wtx.tx.vin.any fun txin => txin.prevout == outpoint) = false := by
      simpa using spends
    simp only [Function.comp_apply, keeps, none', Bool.and_false, Bool.false_and]

theorem txs_update (s : State Dest) (hash : Uint256) {f : CWalletTx → CWalletTx} (keeps : ∀ wtx, (f wtx).tx = wtx.tx) :
    txs (update s hash f) = txs s := by
  unfold txs update
  rw [List.map_map]
  refine List.map_congr_left fun wtx _ => ?_
  rw [Function.comp_apply]
  split
  · exact keeps wtx
  · rfl

/-- Each id names one transaction: `named` tells which. -/
def Named (named : Uint256 → CTransaction) (s : State Dest) : Prop := ∀ tx ∈ txs s, named tx.hash = tx

/-- What setting and clearing flags does at most: no key, no transaction and no cached amount is new. -/
structure Settles (s s' : State Dest) : Prop where
  keys : s'.keys = s.keys
  txs : txs s' = txs s
  cached : ∀ key value, s'.cached key = some value → s.cached key = some value

theorem Settles.refl (s : State Dest) : Settles s s := ⟨rfl, rfl, fun _ _ found => found⟩

theorem Settles.trans {s'' : State Dest} (first : Settles s s') (second : Settles s' s'') : Settles s s'' :=
  ⟨second.keys.trans first.keys, second.txs.trans first.txs,
    fun key value found => first.cached key value (second.cached key value found)⟩

theorem Settles.markDirty (s : State Dest) (hash : Uint256) : Settles s (markDirty s hash) := by
  refine ⟨rfl, rfl, fun key value found => ?_⟩
  simp only [WalletCache.markDirty] at found
  split at found
  · cases found
  · exact found

theorem Settles.markSpent (s : State Dest) (vin : List CTxIn) : Settles s (markSpent s vin) := by
  induction vin generalizing s with
  | nil => exact .refl s
  | cons txin rest ih => exact (Settles.markDirty s txin.prevout.hash).trans (ih _)

theorem Settles.update (s : State Dest) (hash : Uint256) {f : CWalletTx → CWalletTx} (keeps : ∀ wtx, (f wtx).tx = wtx.tx) :
    Settles s (update s hash f) :=
  ⟨rfl, txs_update s hash keeps, fun _ _ found => found⟩

theorem Settles.settle (s : State Dest) (hash : Uint256) (vin : List CTxIn) {f : CWalletTx → CWalletTx}
    (keeps : ∀ wtx, (f wtx).tx = wtx.tx) :
    Settles s (WalletCache.markSpent (WalletCache.markDirty (WalletCache.update s hash f) hash) vin) :=
  ((Settles.update s hash keeps).trans (.markDirty _ hash)).trans (.markSpent _ vin)

variable {named : Uint256 → CTransaction}

theorem Settles.keepsNames (settles : Settles s s') (names : Named named s) : Named named s' := by
  unfold Named
  rw [settles.txs]
  exact names

theorem Named.tx_eq (names : Named named s) {wtx : CWalletTx} (member : wtx ∈ s.mapWallet) {tx : CTransaction}
    (name : named tx.hash = tx) (same : wtx.tx.hash = tx.hash) : wtx.tx = tx := by
  rw [← names wtx.tx (mem_map_of_mem member), same, name]

theorem Named.found (names : Named named s) {hash : Uint256} {wtx : CWalletTx} (found : findTx s.mapWallet hash = some wtx) :
    ∀ other ∈ s.mapWallet, other.tx.hash = hash → other.tx = wtx.tx := by
  obtain ⟨member, same⟩ := findTx_some found
  intro other inside equal
  exact names.tx_eq inside (names wtx.tx (mem_map_of_mem member)) (equal.trans same.symm)

variable {t : State Dest}

theorem spendersOf_subset (s : State Dest) (hash : Uint256) : spendersOf s.mapWallet hash ⊆ (txs s).map (·.hash) := by
  intro spender member
  obtain ⟨wtx, found, rfl⟩ := mem_map.mp member
  exact mem_map_of_mem (mem_map_of_mem (mem_filter.mp found).1)

theorem conflictTurn_inside (hashBlock : Uint256) (conflictconfirms : Int) (t : State Dest) (now : Uint256) :
    txs (conflictTurn hashBlock conflictconfirms t now).1 = txs t ∧
      (conflictTurn hashBlock conflictconfirms t now).2 ⊆ (txs t).map (·.hash) := by
  unfold conflictTurn
  split
  next => exact ⟨rfl, nil_subset _⟩
  next wtx _ =>
    split
    · refine ⟨Settles.txs (Settles.settle t now wtx.tx.vin ?_), spendersOf_subset t now⟩
      exact fun _ => rfl
    · exact ⟨rfl, nil_subset _⟩

theorem abandonTurn_inside (hashTx : Uint256) (t : State Dest) (now : Uint256) :
    txs (abandonTurn hashTx t now).1 = txs t ∧ (abandonTurn hashTx t now).2 ⊆ (txs t).map (·.hash) := by
  unfold abandonTurn
  split
  next => exact ⟨rfl, nil_subset _⟩
  next wtx _ =>
    split
    · refine ⟨Settles.txs (Settles.settle t now wtx.tx.vin ?_), ?_⟩
      · exact fun _ => rfl
      · split
        · exact spendersOf_subset t now
        · exact nil_subset _
    · exact ⟨rfl, nil_subset _⟩

/-- A loop that empties `todo` and works off no transaction twice; turns beyond that change nothing. -/
def Ends (turn : State Dest → Uint256 → State Dest × List Uint256) (s : State Dest) (hashTx : Uint256) : Prop :=
  ∃ worked, progress turn s.mapWallet.length [hashTx] [] s = ([], worked) ∧ worked.Nodup ∧ worked ⊆ (txs s).map (·.hash) ∧
    ∀ more, run turn (s.mapWallet.length + more) [hashTx] [] s = run turn s.mapWallet.length [hashTx] [] s

theorem turns_enough {turn : State Dest → Uint256 → State Dest × List Uint256}
    (inside : ∀ t now, txs (turn t now).1 = txs t ∧ (turn t now).2 ⊆ (txs t).map (·.hash)) {hashTx : Uint256}
    (known : (findTx s.mapWallet hashTx).isSome = true) : Ends turn s hashTx := by
  suffices emptied : ∃ worked, progress turn s.mapWallet.length [hashTx] [] s = ([], worked) ∧ worked.Nodup ∧
      worked ⊆ (txs s).map (·.hash) by
    obtain ⟨worked, ended, once, within⟩ := emptied
    exact ⟨worked, ended, once, within, run_of_progress ended⟩
  refine progress_enough (fun t => txs t = txs s) ((txs s).map (·.hash)) (fun t now same => ?_) _ _ _ rfl
    (nodup_singleton _) (fun hash member => ?_) (fun _ _ => not_mem_nil) nodup_nil (nil_subset _) ?_
  · obtain ⟨kept, children⟩ := inside t now
    exact ⟨kept.trans same, same ▸ children⟩
  · obtain ⟨wtx, there, equal⟩ := findTx_isSome.mp known
    rw [mem_singleton.mp member, ← equal]
    exact mem_map_of_mem (mem_map_of_mem there)
  · refine (length_filter_le _ _).trans (le_of_eq ?_)
    rw [length_map, txs, length_map]

def receivedBy (keys : KeyStore Dest) (filter : IsMineFilter) (tx : CTransaction) (n : Nat) : CAmount :=
  (tx.vout[n]?).elim 0 fun txout => if (keys.isMine txout.scriptPubKey).passes filter then txout.nValue else 0

/-- No cached debit lacks what the transaction pays to the wallet: either the wallet has it, or nothing that
spends a payment of it has cached its debit. -/
def ArrivesInTime (s : State Dest) (tx : CTransaction) : Prop :=
  (findTx s.mapWallet tx.hash).isSome ∨ ∀ wtx ∈ s.mapWallet, ∀ txin ∈ wtx.tx.vin, txin.prevout.hash = tx.hash →
    (s.cached (wtx.tx.hash, .debit) = none ∨ receivedBy s.keys ISMINE_SPENDABLE tx txin.prevout.n = 0) ∧
    (s.cached (wtx.tx.hash, .watchDebit) = none ∨ receivedBy s.keys ISMINE_WATCH_ONLY tx txin.prevout.n = 0)

theorem findTx_append (wallet : List CWalletTx) {wtx : CWalletTx} {hash : Uint256} (other : wtx.tx.hash ≠ hash) :
    findTx (wallet ++ [wtx]) hash = findTx wallet hash := by
  have none' : findTx [wtx] hash = none := by simp [findTx, other]
  unfold findTx at none' ⊢
  rw [find?_append, none', or_none]

theorem isSpent_append (node : NodeView) (wallet : List CWalletTx) {wtx : CWalletTx} {outpoint : COutPoint}
    (foreign : outpoint.hash ∉ prevs wtx.tx.vin) : isSpent node (wallet ++ [wtx]) outpoint = isSpent node wallet outpoint := by
  have none' : (wtx.tx.vin.any fun txin => txin.prevout == outpoint) = false := by
    rw [List.any_eq_false]
    intro txin member same
    exact foreign ⟨txin, member, by rw [eq_of_beq same]⟩
  unfold isSpent
  rw [List.any_append, List.any_cons, none', List.any_nil, Bool.and_false, Bool.false_and, Bool.false_or, Bool.or_false]

theorem debitOfInput_append (keys : KeyStore Dest) (wallet : List CWalletTx) (filter : IsMineFilter) {wtx : CWalletTx}
    {prevout : COutPoint} (unknown : findTx wallet wtx.tx.hash = none)
    (nothing : prevout.hash = wtx.tx.hash → receivedBy keys filter wtx.tx prevout.n = 0) :
    debitOfInput keys (wallet ++ [wtx]) filter prevout = debitOfInput keys wallet filter prevout := by
  by_cases same : wtx.tx.hash = prevout.hash
  · have found : findTx (wallet ++ [wtx]) prevout.hash = some wtx := by
      rw [← same]
      unfold findTx at unknown ⊢
      rw [find?_append, unknown, none_or]
      simp
    unfold debitOfInput
    rw [found, ← same, unknown]
    exact nothing same.symm
  · unfold debitOfInput
    rw [findTx_append wallet same]

theorem debitOfTx_append (keys : KeyStore Dest) (wallet : List CWalletTx) (filter : IsMineFilter) {wtx : CWalletTx}
    {tx : CTransaction} (unknown : findTx wallet wtx.tx.hash = none)
    (nothing : ∀ txin ∈ tx.vin, txin.prevout.hash = wtx.tx.hash → receivedBy keys filter wtx.tx txin.prevout.n = 0) :
    debitOfTx keys (wallet ++ [wtx]) filter tx = debitOfTx keys wallet filter tx := by
  unfold debitOfTx
  refine congrArg sumInRange (map_congr_left fun txin member => ?_)
  exact debitOfInput_append keys wallet filter unknown (nothing txin member)

def insert (s : State Dest) (wtxIn : CWalletTx) : State Dest :=
  { s with
    mapWallet := s.mapWallet ++ [wtxIn]
    cached := fun key => if key.1 == wtxIn.tx.hash then none else s.cached key }

theorem merge_tx (wtxIn wtx : CWalletTx) : (merge wtxIn wtx).tx = wtx.tx := rfl

/-- What a delivery does at most: the keys are the same, the transactions are still there, and neither a new
one nor an old one has an amount cached that was not. -/
structure Grows (s s' : State Dest) : Prop where
  keys : s'.keys = s.keys
  known : txs s ⊆ txs s'
  cached : ∀ key value, s'.cached key = some value → s.cached key = some value
  new : ∀ tx ∈ txs s', tx ∈ txs s ∨ ∀ field, s'.cached (tx.hash, field) = none

theorem Settles.grows (settles : Settles s s') : Grows s s' :=
  ⟨settles.keys, by rw [settles.txs]; exact Subset.refl _, settles.cached, fun tx member => .inl (settles.txs ▸ member)⟩

theorem Grows.none_of_none (grows : Grows s s') {key : Uint256 × Field} (nothing : s.cached key = none) :
    s'.cached key = none := by
  cases found : s'.cached key with
  | none => rfl
  | some value => rw [grows.cached key value found] at nothing; cases nothing

theorem Grows.trans {s'' : State Dest} (first : Grows s s') (second : Grows s' s'') : Grows s s'' where
  keys := second.keys.trans first.keys
  known _ member := second.known (first.known member)
  cached key value found := first.cached key value (second.cached key value found)
  new tx member := by
    rcases second.new tx member with before | fresh
    · exact (first.new tx before).imp_right fun nothing field => second.none_of_none (nothing field)
    · exact .inr fresh

theorem Grows.insert (s : State Dest) (wtxIn : CWalletTx) : Grows s (insert s wtxIn) where
  keys := rfl
  known := by
    unfold txs WalletCache.insert
    rw [map_append]
    exact subset_append_left _ _
  cached key value found := by
    simp only [WalletCache.insert] at found
    split at found
    · cases found
    · exact found
  new tx member := by
    unfold txs WalletCache.insert at member
    rw [map_append, mem_append] at member
    refine member.imp_right fun same field => ?_
    rw [map_singleton, mem_singleton] at same
    simp [WalletCache.insert, same]

theorem Grows.addToWallet (s : State Dest) (wtxIn : CWalletTx) : Grows s (addToWallet s wtxIn) := by
  unfold WalletCache.addToWallet
  split
  · exact ((Settles.update s _ (merge_tx wtxIn)).trans (.markDirty _ _)).grows
  · exact Grows.insert s wtxIn

theorem txs_addToWallet (s : State Dest) (wtxIn : CWalletTx) :
    ∀ tx ∈ txs (addToWallet s wtxIn), tx ∈ txs s ∨ tx = wtxIn.tx := by
  intro tx member
  unfold WalletCache.addToWallet at member
  split at member
  · exact .inl ((Settles.update s wtxIn.tx.hash (merge_tx wtxIn)).trans (.markDirty _ _) |>.txs ▸ member)
  · simpa [txs] using member

theorem known_iff {hash : Uint256} : (findTx s.mapWallet hash).isSome = true ↔ ∃ tx ∈ txs s, tx.hash = hash := by
  rw [findTx_isSome]
  simp [txs]

theorem Grows.knows (grows : Grows s s') {hash : Uint256} (known : (findTx s.mapWallet hash).isSome = true) :
    (findTx s'.mapWallet hash).isSome = true := by
  obtain ⟨tx, member, same⟩ := known_iff.mp known
  exact known_iff.mpr ⟨tx, grows.known member, same⟩

theorem ArrivesInTime.grows {tx : CTransaction} (clean : ArrivesInTime s tx) (grows : Grows s s') : ArrivesInTime s' tx := by
  refine clean.imp grows.knows fun inTime wtx member txin spends same => ?_
  rw [grows.keys]
  rcases grows.new wtx.tx (mem_map_of_mem member) with old | fresh
  · obtain ⟨before, there, equal⟩ := mem_map.mp old
    have late := inTime before there txin (by rw [equal]; exact spends) same
    rw [equal] at late
    exact ⟨late.1.imp_left grows.none_of_none, late.2.imp_left grows.none_of_none⟩
  · exact ⟨.inl (fresh _), .inl (fresh _)⟩

def isKnownOrMine (s : State Dest) (tx : CTransaction) : Bool :=
  (findTx s.mapWallet tx.hash).isSome || tx.vout.any fun txout => s.keys.isMine txout.scriptPubKey != .no

theorem Grows.knownOrMine (grows : Grows s s') {tx : CTransaction} (mine : isKnownOrMine s tx = true) :
    isKnownOrMine s' tx = true := by
  unfold isKnownOrMine at mine ⊢
  rw [or_eq_true] at mine ⊢
  rw [grows.keys]
  exact mine.imp_left grows.knows

theorem Settles.involvesMe (settles : Settles s s') (tx : CTransaction) : involvesMe s' tx = involvesMe s tx := by
  have known : (findTx s'.mapWallet tx.hash).isSome = (findTx s.mapWallet tx.hash).isSome := by
    rw [Bool.eq_iff_iff, known_iff, known_iff, settles.txs]
  unfold WalletCache.involvesMe
  rw [known, settles.keys, debitOfTx_congr _ _ _ settles.txs]

/-- What the delivery of a transaction that involves the wallet marks: the transaction and what it spends. -/
def touched (tx : CTransaction) : Set Uint256 := {tx.hash} ∪ prevs tx.vin

theorem setMerkleBranch_tx (tx : CTransaction) (pblock : Option CBlock) : (setMerkleBranch tx pblock).tx = tx := by
  cases pblock <;> rfl

theorem sumInRange_filter (amounts : List CAmount) : sumInRange (amounts.filter (· != 0)) = sumInRange amounts := by
  unfold sumInRange
  have fold : ∀ total : CAmount, moneyRange total = true →
      (amounts.filter (· != 0)).foldlM
          (fun total amount => if moneyRange (total + amount) then some (total + amount) else none) total =
        amounts.foldlM (fun total amount => if moneyRange (total + amount) then some (total + amount) else none) total := by
    induction amounts with
    | nil => exact fun _ _ => rfl
    | cons amount rest ih =>
      intro total inRange
      by_cases zero : amount = 0
      · rw [filter_cons_of_neg (by simp [zero]), foldlM_cons, zero, add_zero, if_pos inRange, ih total inRange]
        rfl
      · rw [filter_cons_of_pos (by simpa using zero), foldlM_cons, foldlM_cons]
        split
        next still => exact ih _ still
        next => rfl
  exact fold 0 (by decide)

theorem sum_credits_congr {α : Type} (outs : List α) (p q : α → Bool) (credit : α → Option CAmount)
    (same : ∀ out ∈ outs, p out ≠ q out → credit out = some 0) :
    ((outs.filter p).mapM credit).bind sumInRange = ((outs.filter q).mapM credit).bind sumInRange := by
  have nonzero : ((outs.filter p).mapM credit).map (List.filter (· != 0)) =
      ((outs.filter q).mapM credit).map (List.filter (· != 0)) := by
    induction outs with
    | nil => rfl
    | cons out rest ih =>
      have later := ih (forall_mem_cons.mp same).2
      have here := same out List.mem_cons_self
      have counted : ∀ r : α → Bool, ((out :: rest).filter r).mapM credit =
          if r out then (credit out).bind fun amount => ((rest.filter r).mapM credit).map (amount :: ·)
          else (rest.filter r).mapM credit := by
        intro r
        rw [List.filter_cons]
        split
        · rw [List.mapM_cons]
          cases credit out <;> cases (rest.filter r).mapM credit <;> rfl
        · rfl
      have skipped : credit out = some 0 → ∀ r : α → Bool,
          (((out :: rest).filter r).mapM credit).map (List.filter (· != 0)) =
            ((rest.filter r).mapM credit).map (List.filter (· != 0)) := by
        intro zero r
        rw [counted, zero]
        split
        · rw [Option.bind_some, Option.map_map]
          rfl
        · rfl
      by_cases agree : p out = q out
      · rw [counted, counted, agree]
        split
        · cases credit out with
          | none => rfl
          | some amount =>
            rw [Option.bind_some, Option.bind_some, Option.map_map, Option.map_map]
            have drops : (List.filter (· != 0) ∘ fun amounts => amount :: amounts) =
                (fun amounts => (if amount != 0 then [amount] else []) ++ amounts) ∘ List.filter (· != 0) := by
              funext amounts
              simp only [Function.comp_apply, List.filter_cons]
              split <;> rfl
            rw [drops, ← Option.map_map, ← Option.map_map, later]
        · exact later
      · rw [skipped (here agree), skipped (here agree), later]
  calc ((outs.filter p).mapM credit).bind sumInRange
      = (((outs.filter p).mapM credit).map (List.filter (· != 0))).bind sumInRange := by
        rw [Option.bind_map]
        exact congrArg _ (funext fun amounts => (sumInRange_filter amounts).symm)
    _ = (((outs.filter q).mapM credit).map (List.filter (· != 0))).bind sumInRange := by rw [nonzero]
    _ = ((outs.filter q).mapM credit).bind sumInRange := by
        rw [Option.bind_map]
        exact congrArg _ (funext fun amounts => sumInRange_filter amounts)

variable [DecidableEq Dest]

def fresh (s : State Dest) (key : Uint256 × Field) : Option CAmount :=
  (findTx s.mapWallet key.1).bind fun wtx => s.recompute wtx key.2

/-- Cached amounts are what would be computed, up to the available credits of the transactions in `stale`. -/
def SoundBut (stale : Set Uint256) (s : State Dest) : Prop :=
  Memo.SoundOutside {key | key.1 ∈ stale ∧ key.2.isAvailable = true} s.cached (fresh s)

theorem SoundBut.mono {stale' : Set Uint256} (sound : SoundBut stale s) (within : stale ⊆ stale') : SoundBut stale' s :=
  Memo.SoundOutside.mono sound fun _ inside => ⟨within inside.1, inside.2⟩

/-- The keys and the transactions determine every amount but the available credits, which also depend on
what is spent. -/
theorem recompute_congr {wtx wtx' : CWalletTx} {field : Field} (keys : s'.keys = s.keys) (same : txs s' = txs s)
    (tx : wtx'.tx = wtx.tx) (spent : field.isAvailable = true → ∀ n,
      isSpent s'.node s'.mapWallet ⟨wtx.tx.hash, n⟩ = isSpent s.node s.mapWallet ⟨wtx.tx.hash, n⟩) :
    s'.recompute wtx' field = s.recompute wtx field := by
  cases field with
  | debit | watchDebit =>
    simp only [State.recompute, recompute, keys, tx]
    exact debitOfTx_congr _ _ _ same
  | availableCredit | availableWatchCredit =>
    simp only [State.recompute, recompute, keys]
    exact availableCredit_congr _ _ tx (spent rfl)
  | credit | watchCredit | immatureCredit | immatureWatchCredit | change =>
    simp only [State.recompute, recompute, keys, tx]

theorem fresh_congr {key : Uint256 × Field} (keys : s'.keys = s.keys) (same : txs s' = txs s)
    (spent : key.2.isAvailable = true → ∀ n,
      isSpent s'.node s'.mapWallet ⟨key.1, n⟩ = isSpent s.node s.mapWallet ⟨key.1, n⟩) : fresh s' key = fresh s key := by
  have found : (findTx s'.mapWallet key.1).map (·.tx) = (findTx s.mapWallet key.1).map (·.tx) := by
    rw [findTx_map_tx, findTx_map_tx]
    exact congrArg _ same
  unfold fresh
  cases before : findTx s.mapWallet key.1 with
  | none =>
    rw [before, map_none, map_eq_none_iff] at found
    rw [found]
    rfl
  | some wtx =>
    rw [before, map_some, map_eq_some_iff] at found
    obtain ⟨wtx', after, tx⟩ := found
    rw [after]
    refine recompute_congr keys same tx fun available n => ?_
    rw [(findTx_some before).2]
    exact spent available n

theorem SoundBut.markDirty (sound : SoundBut stale s) (hash : Uint256) : SoundBut (stale \ {hash}) (markDirty s hash) := by
  refine Memo.SoundOutside.mono (Memo.SoundOutside.forget sound (breaks hash)) ?_
  rintro ⟨hash', field⟩ ⟨⟨inside, available⟩, kept⟩
  refine ⟨⟨inside, fun same => ?_⟩, available⟩
  cases same
  cases field with
  | availableCredit | availableWatchCredit => simp [breaks] at kept
  | debit | watchDebit | credit | watchCredit | immatureCredit | immatureWatchCredit | change => cases available

theorem SoundBut.markSpent (sound : SoundBut stale s) (vin : List CTxIn) :
    SoundBut (stale \ prevs vin) (markSpent s vin) := by
  induction vin generalizing s stale with
  | nil =>
    refine sound.mono fun hash inside => ⟨inside, ?_⟩
    rintro ⟨txin, member, -⟩
    cases member
  | cons txin rest ih =>
    refine (ih (sound.markDirty txin.prevout.hash)).mono ?_
    rintro hash ⟨⟨inside, other⟩, elsewhere⟩
    refine ⟨inside, ?_⟩
    rintro ⟨txin', member, same⟩
    rcases mem_cons.mp member with rfl | later
    · exact other same.symm
    · exact elsewhere ⟨txin', later, same⟩

section

variable (sound : SoundBut stale s) {hash : Uint256} {f : CWalletTx → CWalletTx} {tx : CTransaction}
  (keeps : ∀ wtx, (f wtx).tx = wtx.tx) (alone : ∀ wtx ∈ s.mapWallet, wtx.tx.hash = hash → wtx.tx = tx)
include sound keeps alone

theorem SoundBut.update : SoundBut (stale ∪ prevs tx.vin) (update s hash f) := by
  refine Memo.SoundOutside.move sound fun key outside value found =>
    ⟨fun inside => outside ⟨.inl inside.1, inside.2⟩, found, ?_⟩
  refine fresh_congr rfl (txs_update s hash keeps) fun available n => ?_
  have foreign : key.1 ∉ prevs tx.vin := fun inside => outside ⟨.inr inside, available⟩
  refine isSpent_map _ _ _ _ (fun wtx => ?_) fun wtx member spends => ?_
  · split
    · exact keeps wtx
    · rfl
  · obtain ⟨txin, there, prevout⟩ := spends
    rw [if_neg]
    intro same
    rw [alone wtx member same] at there
    exact foreign ⟨txin, there, by rw [prevout]⟩

theorem SoundBut.settle : SoundBut (stale \ ({hash} ∪ prevs tx.vin))
      (WalletCache.markSpent (WalletCache.markDirty (WalletCache.update s hash f) hash) tx.vin) := by
  refine (((sound.update keeps alone).markDirty hash).markSpent tx.vin).mono ?_
  rintro other ⟨⟨inside, different⟩, elsewhere⟩
  exact ⟨inside.resolve_right elsewhere, fun either => either.elim different elsewhere⟩

end

/-- What the loops keep: soundness, and what `Settles` says. -/
structure Kept (named : Uint256 → CTransaction) (stale : Set Uint256) (s s' : State Dest) : Prop where
  sound : SoundBut stale s'
  names : Named named s'
  settles : Settles s s'

theorem Kept.refl (sound : SoundBut stale s) (names : Named named s) : Kept named stale s s := ⟨sound, names, .refl s⟩

theorem Kept.settle (kept : Kept named stale s t) {hash : Uint256} {f : CWalletTx → CWalletTx} {wtx : CWalletTx}
    (keeps : ∀ wtx, (f wtx).tx = wtx.tx) (found : findTx t.mapWallet hash = some wtx) :
    Kept named stale s (markSpent (markDirty (update t hash f) hash) wtx.tx.vin) := by
  have settles := Settles.settle t hash wtx.tx.vin keeps
  exact ⟨(kept.sound.settle keeps (kept.names.found found)).mono fun _ inside => inside.1, settles.keepsNames kept.names,
    kept.settles.trans settles⟩

theorem conflictTurn_kept (hashBlock : Uint256) (conflictconfirms : Int) (now : Uint256) (kept : Kept named stale s t) :
    Kept named stale s (conflictTurn hashBlock conflictconfirms t now).1 := by
  unfold conflictTurn
  split
  next => exact kept
  next wtx found =>
    split
    · exact kept.settle (fun _ => rfl) found
    · exact kept

theorem abandonTurn_kept (hashTx : Uint256) (now : Uint256) (kept : Kept named stale s t) :
    Kept named stale s (abandonTurn hashTx t now).1 := by
  unfold abandonTurn
  split
  next => exact kept
  next wtx found =>
    split
    · exact kept.settle (fun _ => rfl) found
    · exact kept

theorem Kept.markConflicted (kept : Kept named stale s t) (hashBlock hashTx : Uint256) :
    Kept named stale s (markConflicted t hashBlock hashTx) := by
  unfold WalletCache.markConflicted
  dsimp only
  split
  · exact kept
  · exact run_invariant (Kept named stale s) (fun _ now => conflictTurn_kept hashBlock _ now) _ _ _ kept

theorem Kept.abandonTransaction (kept : Kept named stale s t) (hashTx : Uint256) :
    Kept named stale s (abandonTransaction t hashTx) := by
  unfold WalletCache.abandonTransaction
  split
  next => exact kept
  next =>
    split
    · exact kept
    · exact run_invariant (Kept named stale s) (fun _ now => abandonTurn_kept hashTx now) _ _ _ kept

theorem Kept.markRivals (sound : SoundBut stale s) (names : Named named s) (tx : CTransaction) (pblock : Option CBlock) :
    Kept named stale s (markRivals s tx pblock) := by
  cases pblock with
  | none => exact .refl sound names
  | some block =>
    unfold WalletCache.markRivals
    generalize rivals s.mapWallet tx = hashes
    have folds : ∀ t : State Dest, Kept named stale s t →
        Kept named stale s (hashes.foldl (fun s hash => WalletCache.markConflicted s block.hash hash) t) := by
      induction hashes with
      | nil => exact fun _ kept => kept
      | cons hash rest ih => exact fun t kept => ih _ (kept.markConflicted block.hash hash)
    exact folds s (.refl sound names)

theorem recompute_insert {wtxIn wtx : CWalletTx} {field : Field} {value : CAmount}
    (unknown : findTx s.mapWallet wtxIn.tx.hash = none) (clean : ArrivesInTime s wtxIn.tx) (member : wtx ∈ s.mapWallet)
    (found : s.cached (wtx.tx.hash, field) = some value)
    (foreign : field.isAvailable = true → wtx.tx.hash ∉ prevs wtxIn.tx.vin) :
    (insert s wtxIn).recompute wtx field = s.recompute wtx field := by
  have inTime := clean.resolve_left (by rw [unknown]; exact false_ne_true)
  cases field with
  | debit =>
    refine debitOfTx_append s.keys s.mapWallet _ unknown fun txin spends same => ?_
    exact (inTime wtx member txin spends same).1.resolve_left (by rw [found]; exact some_ne_none _)
  | watchDebit =>
    refine debitOfTx_append s.keys s.mapWallet _ unknown fun txin spends same => ?_
    exact (inTime wtx member txin spends same).2.resolve_left (by rw [found]; exact some_ne_none _)
  | availableCredit | availableWatchCredit =>
    exact availableCredit_congr _ _ rfl fun n => isSpent_append _ _ (foreign rfl)
  | credit | watchCredit | immatureCredit | immatureWatchCredit | change => rfl

theorem SoundBut.insert (sound : SoundBut stale s) {wtxIn : CWalletTx} (unknown : findTx s.mapWallet wtxIn.tx.hash = none)
    (clean : ArrivesInTime s wtxIn.tx) : SoundBut ((stale ∪ prevs wtxIn.tx.vin) \ {wtxIn.tx.hash}) (insert s wtxIn) := by
  refine Memo.SoundOutside.move sound fun key outside value found => ?_
  simp only [WalletCache.insert] at found
  split at found
  next => cases found
  next differs =>
    have other : wtxIn.tx.hash ≠ key.1 := fun same => differs (by rw [same]; exact beq_self_eq_true _)
    have distinct : key.1 ∉ ({wtxIn.tx.hash} : Set Uint256) := fun same => other same.symm
    refine ⟨fun inside => outside ⟨⟨.inl inside.1, distinct⟩, inside.2⟩, found, ?_⟩
    unfold fresh
    change (findTx (s.mapWallet ++ [wtxIn]) key.1).bind _ = _
    rw [findTx_append _ other]
    cases there : findTx s.mapWallet key.1 with
    | none => rfl
    | some wtx =>
      obtain ⟨member, hash⟩ := findTx_some there
      change (WalletCache.insert s wtxIn).recompute wtx key.2 = s.recompute wtx key.2
      refine recompute_insert unknown clean member (by rw [hash]; exact found) fun available => ?_
      rw [hash]
      exact fun inside => outside ⟨⟨.inr inside, distinct⟩, available⟩

theorem SoundBut.addToWallet (sound : SoundBut stale s) (names : Named named s) {wtxIn : CWalletTx}
    (name : named wtxIn.tx.hash = wtxIn.tx) (clean : ArrivesInTime s wtxIn.tx) :
    SoundBut (stale \ ({wtxIn.tx.hash} ∪ prevs wtxIn.tx.vin))
      (WalletCache.markSpent (WalletCache.addToWallet s wtxIn) wtxIn.tx.vin) := by
  unfold WalletCache.addToWallet
  split
  next => exact sound.settle (merge_tx wtxIn) fun wtx member same => names.tx_eq member name same
  next unknown =>
    refine ((sound.insert (by simpa using unknown) clean).markSpent wtxIn.tx.vin).mono ?_
    rintro hash ⟨⟨inside, other⟩, elsewhere⟩
    exact ⟨inside.resolve_right elsewhere, fun either => either.elim other elsewhere⟩

theorem SoundBut.syncTransaction (sound : SoundBut stale s) (names : Named named s) {tx : CTransaction}
    (name : named tx.hash = tx) (clean : ArrivesInTime s tx) (pblock : Option CBlock) :
    SoundBut {hash ∈ stale | ¬(isKnownOrMine s tx = true ∧ hash ∈ touched tx)} (syncTransaction s tx pblock) := by
  have kept := Kept.markRivals sound names tx pblock
  unfold WalletCache.syncTransaction
  rw [kept.settles.involvesMe]
  split
  next =>
    have added := SoundBut.addToWallet kept.sound kept.names
      (show named (setMerkleBranch tx pblock).tx.hash = _ by rw [setMerkleBranch_tx]; exact name)
      (by rw [setMerkleBranch_tx]; exact clean.grows kept.settles.grows)
    rw [setMerkleBranch_tx] at added
    exact added.mono fun hash inside => ⟨inside.1, fun marked => inside.2 marked.2⟩
  next foreign =>
    refine kept.sound.mono fun hash inside => ⟨inside, fun marked => foreign ?_⟩
    unfold WalletCache.involvesMe
    exact or_eq_true_iff.mpr (.inl marked.1)

theorem syncTransaction_grows (sound : SoundBut stale s) (names : Named named s) {tx : CTransaction}
    (name : named tx.hash = tx) (pblock : Option CBlock) :
    Grows s (syncTransaction s tx pblock) ∧ Named named (syncTransaction s tx pblock) := by
  have kept := Kept.markRivals sound names tx pblock
  unfold WalletCache.syncTransaction
  split
  · have marks := Settles.markSpent (addToWallet (markRivals s tx pblock) (setMerkleBranch tx pblock)) tx.vin
    refine ⟨(kept.settles.grows.trans (.addToWallet _ _)).trans marks.grows, marks.keepsNames fun tx' member => ?_⟩
    rcases txs_addToWallet _ _ tx' member with old | new
    · exact kept.names tx' old
    · rw [new, setMerkleBranch_tx]
      exact name
  · exact ⟨kept.settles.grows, kept.names⟩

theorem deliver_sound (deliveries : List (CTransaction × Option CBlock)) (sound : SoundBut stale s) (names : Named named s)
    (namedAll : ∀ delivery ∈ deliveries, named delivery.1.hash = delivery.1)
    (clean : ∀ delivery ∈ deliveries, ArrivesInTime s delivery.1) :
    SoundBut {hash ∈ stale | ¬∃ delivery ∈ deliveries, isKnownOrMine s delivery.1 = true ∧ hash ∈ touched delivery.1}
        (deliver s deliveries) ∧ Named named (deliver s deliveries) := by
  induction deliveries generalizing s stale with
  | nil => exact ⟨sound.mono fun hash inside => ⟨inside, by simp⟩, names⟩
  | cons delivery rest ih =>
    have name := namedAll delivery mem_cons_self
    have synced := sound.syncTransaction names name (clean delivery mem_cons_self) delivery.2
    obtain ⟨grows, namesAfter⟩ := syncTransaction_grows sound names name delivery.2
    obtain ⟨delivered, named'⟩ := ih synced namesAfter (forall_mem_cons.mp namedAll).2
      fun later member => (clean later (mem_cons_of_mem _ member)).grows grows
    refine ⟨delivered.mono ?_, named'⟩
    rintro hash ⟨⟨inside, notFirst⟩, notLater⟩
    refine ⟨inside, ?_⟩
    rintro ⟨which, member, mine, marked⟩
    rcases mem_cons.mp member with rfl | later
    · exact notFirst ⟨mine, marked⟩
    · exact notLater ⟨which, later, grows.knownOrMine mine, marked⟩

/-- Where another tip makes spent outputs unspent or unspent ones spent, either a delivery marks the
transaction, or no available credit that counts such an output is cached. -/
def TipMovesInTime (s : State Dest) (chainActive : List Uint256) (deliveries : List (CTransaction × Option CBlock)) : Prop :=
  ∀ wtx ∈ s.mapWallet, ∀ out ∈ wtx.tx.vout.zipIdx,
    isSpent (setTip s chainActive).node s.mapWallet ⟨wtx.tx.hash, out.2⟩ ≠ isSpent s.node s.mapWallet ⟨wtx.tx.hash, out.2⟩ →
    (∃ delivery ∈ deliveries, isKnownOrMine s delivery.1 = true ∧ wtx.tx.hash ∈ touched delivery.1) ∨
      ((s.cached (wtx.tx.hash, .availableCredit) = none ∨ creditOfOutput s.keys ISMINE_SPENDABLE out.1 = some 0) ∧
        (s.cached (wtx.tx.hash, .availableWatchCredit) = none ∨ creditOfOutput s.keys ISMINE_WATCH_ONLY out.1 = some 0))

theorem SoundBut.setTip (sound : SoundBut ∅ s) {chainActive : List Uint256} {deliveries : List (CTransaction × Option CBlock)}
    (inTime : TipMovesInTime s chainActive deliveries) :
    SoundBut {hash | ∃ delivery ∈ deliveries, isKnownOrMine s delivery.1 = true ∧ hash ∈ touched delivery.1}
      (setTip s chainActive) := by
  refine Memo.SoundOutside.move sound fun key outside value found => ⟨fun inside => inside.1.elim, found, ?_⟩
  unfold fresh
  change (findTx s.mapWallet key.1).bind _ = _
  cases there : findTx s.mapWallet key.1 with
  | none => rfl
  | some wtx =>
    obtain ⟨member, hash⟩ := findTx_some there
    change (WalletCache.setTip s chainActive).recompute wtx key.2 = s.recompute wtx key.2
    have flips : key.2.isAvailable = true → ∀ out ∈ wtx.tx.vout.zipIdx, _ := fun available out listed flip =>
      (inTime wtx member out listed flip).resolve_left fun marked => outside ⟨hash ▸ marked, available⟩
    obtain ⟨hash', field⟩ := key
    dsimp only at hash
    subst hash
    cases field with
    | availableCredit =>
      refine sum_credits_congr _ _ _ _ fun out listed differ => ?_
      exact (flips rfl out listed fun same => differ (congrArg (!·) same)).1.resolve_left
        (by rw [show s.cached _ = _ from found]; exact some_ne_none _)
    | availableWatchCredit =>
      refine sum_credits_congr _ _ _ _ fun out listed differ => ?_
      exact (flips rfl out listed fun same => differ (congrArg (!·) same)).2.resolve_left
        (by rw [show s.cached _ = _ from found]; exact some_ne_none _)
    | debit | watchDebit | credit | watchCredit | immatureCredit | immatureWatchCredit | change => rfl

end Longcoin.WalletCache
