import Longcoin.CoinsCache
import Longcoin.UtxoSet

/-! A stack of caches behaves like the plain map of `UtxoSet`. DIRTY and FRESH are
statements about what the layers below report, and every operation keeps them true. -/

namespace Longcoin.CoinsRefinement
open Primitives Coins Library CoinsCache UtxoSet CCoinsView AList CCoins KeyedFold

/-- What a view reports for a transaction; one it does not know reads as the empty record. -/
def report : CCoinsView → Uint256 → CCoins
  | .db store, txid =>
      match store.coins txid with
      | some coins => coins.val
      | none => {}
  | .cache layer base, txid =>
      match layer.cacheCoins.lookup txid with
      | some entry => entry.coins.val
      | none => report base txid

/-- What the caller of `GetCoins` makes of its answer. -/
def answered (answer : Option StoredCoins) : CCoins :=
  match answer with
  | some coins => coins.val
  | none => {}

/-- An entry that is not DIRTY repeats the record below, and a FRESH one has nothing below it. -/
structure EntrySound (entry : CCoinsCacheEntry) (below : CCoins) : Prop where
  same : entry.dirty = false → entry.coins.val ≈ below
  absent : entry.fresh = true → below.isPruned = true

def LayerSound (layer : CCoinsViewCache) (below : Uint256 → CCoins) : Prop :=
  ∀ txid entry, layer.cacheCoins.lookup txid = some entry → EntrySound entry (below txid)

def Sound : CCoinsView → Prop
  | .db _ => True
  | .cache layer base => LayerSound layer (report base) ∧ Sound base

theorem report_hit {layer : CCoinsViewCache} {base : CCoinsView} {txid : Uint256} {entry : CCoinsCacheEntry}
    (found : layer.cacheCoins.lookup txid = some entry) : report (.cache layer base) txid = entry.coins.val := by
  simp [report, found]

theorem report_miss {layer : CCoinsViewCache} {base : CCoinsView} {txid : Uint256}
    (missing : layer.cacheCoins.lookup txid = none) : report (.cache layer base) txid = report base txid := by
  simp [report, missing]

theorem report_clean (view : CCoinsView) (txid : Uint256) : (report view txid).Clean := by
  induction view with
  | db store =>
    cases found : store.coins txid with
    | none => simp only [report, found, clean_empty]
    | some coins => simp only [report, found, coins.property]
  | cache layer base ih =>
    cases found : layer.cacheCoins.lookup txid with
    | none => rwa [report_miss found]
    | some entry => rw [report_hit found]; exact entry.coins.property

theorem getCoins_spec (view : CCoinsView) (sound : Sound view) (txid : Uint256) :
    answered (view.getCoins txid).1 = report view txid ∧
      report (view.getCoins txid).2 = report view ∧ Sound (view.getCoins txid).2 := by
  induction view with
  | db store => exact ⟨rfl, rfl, trivial⟩
  | cache layer base ih =>
    obtain ⟨layerSound, baseSound⟩ := sound
    obtain ⟨answer, reported, soundBelow⟩ := ih baseSound
    cases found : layer.cacheCoins.lookup txid with
    | some entry =>
      simp only [getCoins, found]
      exact ⟨(report_hit found).symm, trivial, layerSound, baseSound⟩
    | none =>
      rcases below : base.getCoins txid with ⟨_ | coins, base'⟩
      · simp only [below] at answer reported soundBelow
        simp only [getCoins, found, below]
        refine ⟨by rw [report_miss found, ← answer], ?_, by rwa [Sound, reported, and_iff_left soundBelow]⟩
        funext other
        simp only [report, reported]
      · simp only [below] at answer reported soundBelow
        simp only [getCoins, found, below]
        have filled : report base txid = coins.val := answer.symm
        refine ⟨by rw [report_miss found, filled]; rfl, ?_, ?_, soundBelow⟩
        · funext other
          by_cases same : other = txid
          · subst same
            rw [report_miss found, filled, report_hit (lookup_insert _)]
          · simp only [report, lookup_insert_ne same, reported]
        · intro other entry hit
          rw [reported]
          by_cases same : other = txid
          · subst same
            rw [lookup_insert, Option.some.injEq] at hit
            subst hit
            rw [filled]
            exact ⟨fun _ => Setoid.refl _, id⟩
          · rw [lookup_insert_ne same] at hit
            exact layerSound other entry hit

theorem haveCoins_spec {layer : CCoinsViewCache} {base : CCoinsView} (sound : Sound (.cache layer base)) (txid : Uint256) :
    ((cache layer base).haveCoins txid).1 = !(report (.cache layer base) txid).isPruned ∧
      ((cache layer base).haveCoins txid).2 = ((cache layer base).getCoins txid).2 := by
  obtain ⟨answer, -, -⟩ := getCoins_spec _ sound txid
  rcases read : (cache layer base).getCoins txid with ⟨_ | coins, view'⟩
  · simp only [read] at answer
    simp only [haveCoins, read, ← answer, answered, isPruned_empty]
    exact ⟨rfl, trivial⟩
  · simp only [read] at answer
    simp only [haveCoins, read, ← answer, answered]
    exact ⟨by rw [vout_isEmpty_of_clean coins.property], trivial⟩

/-- An edit that cannot tell one record with nothing left from another. -/
def PrunedBlind (edit : CCoins → CCoins) : Prop :=
  ∀ a b : CCoins, a.isPruned = true → b.isPruned = true → edit a ≈ edit b

theorem equiv_edit {edit : CCoins → CCoins} (blind : PrunedBlind edit) {a b : CCoins} (same : a ≈ b) : edit a ≈ edit b := by
  rcases same with ⟨first, second⟩ | rfl
  · exact blind a b first second
  · exact Setoid.refl _

theorem cleanup_equiv {a b : CCoins} (same : a ≈ b) : a.cleanup ≈ canonical b :=
  canonical_eq_of_equiv same ▸ cleanup_equiv_canonical a

theorem closeModifier_spec (layer : CCoinsViewCache) (below : CCoinsView) (txid : Uint256)
    (entry : CCoinsCacheEntry) (edit : CCoins → CCoins) (dirty : entry.dirty = true)
    (absent : entry.fresh = true → (report below txid).isPruned = true) (sound : LayerSound layer (report below)) :
    LayerSound (closeModifier layer txid entry edit) (report below) ∧
      report (.cache (closeModifier layer txid entry edit) below) txid ≈ (edit entry.coins.val).cleanup ∧
      ∀ other, other ≠ txid →
        report (.cache (closeModifier layer txid entry edit) below) other = report (.cache layer below) other := by
  simp only [closeModifier]
  split_ifs with gone
  · rw [Bool.and_eq_true] at gone
    refine ⟨?_, ?_, ?_⟩
    · intro other kept hit
      by_cases same : other = txid
      · subst same
        simp [lookup_erase] at hit
      · rw [lookup_erase_ne same] at hit
        exact sound other kept hit
    · rw [report_miss (lookup_erase _ _)]
      exact equiv_of_pruned (absent gone.1) gone.2
    · intro other different
      simp only [report, lookup_erase_ne different]
  · refine ⟨?_, ?_, ?_⟩
    · intro other kept hit
      by_cases same : other = txid
      · subst same
        rw [lookup_insert, Option.some.injEq] at hit
        subst hit
        exact ⟨fun clean => by simp [dirty] at clean, absent⟩
      · rw [lookup_insert_ne same] at hit
        exact sound other kept hit
    · rw [report_hit (lookup_insert _)]
      exact Setoid.refl _
    · intro other different
      simp only [report, lookup_insert_ne different]

structure Refines (view : CCoinsView) (utxo : UtxoSet) : Prop where
  sound : Sound view
  agrees : ∀ txid, report view txid ≈ utxo.coins txid

theorem refines_closeModifier {layer : CCoinsViewCache} {base base' : CCoinsView} {utxo : UtxoSet}
    (refines : Refines (.cache layer base) utxo) (below : report base' = report base) (soundBelow : Sound base')
    (txid : Uint256) (entry : CCoinsCacheEntry) (edit : CCoins → CCoins) (dirty : entry.dirty = true)
    (absent : entry.fresh = true → (report base txid).isPruned = true)
    (edited : edit entry.coins.val ≈ edit (utxo.coins txid)) :
    Refines (.cache (closeModifier layer txid entry edit) base') (utxo.modify txid edit) := by
  obtain ⟨layerSound, here, elsewhere⟩ := closeModifier_spec layer base' txid entry edit dirty
    (by rw [below]; exact absent) (by rw [below]; exact refines.sound.1)
  refine ⟨⟨layerSound, soundBelow⟩, fun other => ?_⟩
  by_cases same : other = txid
  · subst same
    rw [UtxoSet.modify_self]
    exact Setoid.trans here (cleanup_equiv edited)
  · rw [elsewhere other same, UtxoSet.modify_of_ne _ _ same]
    have agrees := refines.agrees other
    simp only [report, below] at agrees ⊢
    exact agrees

section

variable {layer : CCoinsViewCache} {base : CCoinsView} {utxo : UtxoSet} (refines : Refines (.cache layer base) utxo)
  (txid : Uint256)
include refines

theorem refines_modifyCoins {edit : CCoins → CCoins} (blind : PrunedBlind edit) :
    Refines (.cache (modifyCoins layer base txid edit).1 (modifyCoins layer base txid edit).2) (utxo.modify txid edit) := by
  obtain ⟨layerSound, baseSound⟩ := refines.sound
  have agrees := refines.agrees txid
  cases found : layer.cacheCoins.lookup txid with
  | some entry =>
    simp only [modifyCoins, found]
    rw [report_hit found] at agrees
    exact refines_closeModifier refines rfl baseSound txid _ edit rfl (layerSound txid entry found).absent
      (equiv_edit blind agrees)
  | none =>
    rw [report_miss found] at agrees
    obtain ⟨answer, reported, soundBelow⟩ := getCoins_spec base baseSound txid
    rcases below : base.getCoins txid with ⟨_ | coins, base'⟩
    · simp only [below] at answer reported soundBelow
      simp only [modifyCoins, found, below]
      have nothing : report base txid = {} := answer.symm
      rw [nothing] at agrees
      exact refines_closeModifier refines reported soundBelow txid _ edit rfl
        (fun _ => by rw [nothing]; rfl) (equiv_edit blind agrees)
    · simp only [below] at answer reported soundBelow
      simp only [modifyCoins, found, below]
      have filled : report base txid = coins.val := answer.symm
      rw [filled] at agrees
      exact refines_closeModifier refines reported soundBelow txid _ edit rfl
        (fun fresh => by rw [filled]; exact fresh) (equiv_edit blind agrees)

/-- `ModifyNewCoins` needs the layer below to have nothing left of the transaction,
since the FRESH mark claims so without a look. -/
theorem refines_modifyNewCoins (edit : CCoins → CCoins) (unspentHere : (report (.cache layer base) txid).isPruned = true)
    (unspentBelow : (report base txid).isPruned = true) :
    Refines (.cache (modifyNewCoins layer txid edit) base) (utxo.modify txid edit) := by
  have nothing : utxo.coins txid = {} := by
    apply utxo.coins_of_pruned
    rw [← equiv_isPruned (refines.agrees txid), unspentHere]
  refine refines_closeModifier refines rfl refines.sound.2 txid _ edit rfl (fun _ => unspentBelow) ?_
  rw [nothing]
  exact Setoid.refl _

theorem refines_uncache : Refines (.cache (uncache layer txid) base) utxo := by
  obtain ⟨layerSound, baseSound⟩ := refines.sound
  cases found : layer.cacheCoins.lookup txid with
  | none => simpa only [uncache, found] using refines
  | some entry =>
    by_cases flagged : (entry.dirty || entry.fresh) = true
    · simpa only [uncache, found, flagged, if_true] using refines
    · have unmarked : entry.dirty = false := by
        simp only [Bool.or_eq_true, not_or, Bool.not_eq_true] at flagged
        exact flagged.1
      simp only [uncache, found, flagged]
      refine ⟨⟨fun other kept hit => ?_, baseSound⟩, fun other => ?_⟩
      · by_cases same : other = txid
        · subst same
          simp [lookup_erase] at hit
        · simp only [Bool.false_eq_true, if_false, lookup_erase_ne same] at hit
          exact layerSound other kept hit
      · by_cases same : other = txid
        · subst same
          have agrees := refines.agrees other
          rw [report_hit found] at agrees
          simp only [Bool.false_eq_true, if_false]
          rw [report_miss (lookup_erase _ _)]
          exact Setoid.trans (Setoid.symm ((layerSound other entry found).same unmarked)) agrees
        · have agrees := refines.agrees other
          simp only [Bool.false_eq_true, if_false, report, lookup_erase_ne same] at agrees ⊢
          exact agrees

end

/-- The entry a layer holds after the entry `theirs` of the layer above was written to it. -/
def merged (ours : Option CCoinsCacheEntry) (theirs : CCoinsCacheEntry) : Option CCoinsCacheEntry :=
  if theirs.dirty then
    match ours with
    | none =>
        if theirs.fresh && theirs.coins.val.isPruned then none
        else some { coins := theirs.coins, dirty := true, fresh := theirs.fresh }
    | some our =>
        if our.fresh && theirs.coins.val.isPruned then none
        else some { our with coins := theirs.coins, dirty := true }
  else ours

theorem batchWriteEntry_local : Local batchWriteEntry (fun (ours : CCoinsMap) txid => ours.lookup txid) merged where
  own ours txid theirs := by
    unfold batchWriteEntry merged
    cases found : ours.lookup txid with
    | none => dsimp only; split_ifs <;> simp [found]
    | some our => dsimp only; split_ifs <;> simp [found]
  other ours txid theirs other different := by
    unfold batchWriteEntry
    cases ours.lookup txid <;> dsimp only <;> split_ifs <;>
      simp [lookup_erase_ne different, lookup_insert_ne different]

theorem writeEntry_local :
    Local writeEntry (fun coins txid => coins txid) (fun old (entry : CCoinsCacheEntry) =>
      if entry.dirty then (if entry.coins.val.isPruned then none else some entry.coins) else old) where
  own coins txid entry := by
    unfold writeEntry
    split_ifs <;> simp
  other coins txid entry other different := by
    unfold writeEntry
    split_ifs <;> simp [Function.update_of_ne different]

/-- What a layer shows whose entry is `ours`, over the record `below`. -/
def shown (ours : Option CCoinsCacheEntry) (below : CCoins) : CCoins :=
  match ours with
  | some entry => entry.coins.val
  | none => below

theorem report_cache (layer : CCoinsViewCache) (base : CCoinsView) (txid : Uint256) :
    report (.cache layer base) txid = shown (layer.cacheCoins.lookup txid) (report base txid) := by
  cases found : layer.cacheCoins.lookup txid with
  | none => rw [report_miss found]; rfl
  | some entry => rw [report_hit found]; rfl

theorem merged_sound {ours : Option CCoinsCacheEntry} {theirs : CCoinsCacheEntry} {below : CCoins}
    (oursSound : ∀ entry, ours = some entry → EntrySound entry below) (theirsSound : EntrySound theirs (shown ours below)) :
    (∀ entry, merged ours theirs = some entry → EntrySound entry below) ∧
      shown (merged ours theirs) below ≈ theirs.coins.val := by
  by_cases dirty : theirs.dirty = true
  · cases ours with
    | none =>
      by_cases gone : (theirs.fresh && theirs.coins.val.isPruned) = true
      · simp only [merged, dirty, gone, if_true]
        rw [Bool.and_eq_true] at gone
        exact ⟨by simp, equiv_of_pruned (theirsSound.absent gone.1) gone.2⟩
      · simp only [merged, dirty, gone, if_true]
        refine ⟨?_, Setoid.refl _⟩
        rintro entry ⟨⟩
        exact ⟨fun clean => by simp at clean, theirsSound.absent⟩
    | some our =>
      by_cases gone : (our.fresh && theirs.coins.val.isPruned) = true
      · simp only [merged, dirty, gone, if_true]
        rw [Bool.and_eq_true] at gone
        exact ⟨by simp, equiv_of_pruned ((oursSound our rfl).absent gone.1) gone.2⟩
      · simp only [merged, dirty, gone, if_true]
        refine ⟨?_, Setoid.refl _⟩
        rintro entry ⟨⟩
        exact ⟨fun clean => by simp at clean, (oursSound our rfl).absent⟩
  · simp only [Bool.not_eq_true] at dirty
    simp only [merged, dirty, Bool.false_eq_true, if_false]
    exact ⟨oursSound, Setoid.symm (theirsSound.same dirty)⟩

theorem batchWrite_spec (view : CCoinsView) (sound : Sound view) (mapCoins : CCoinsMap) (hashBlock : Uint256)
    (entries : LayerSound { cacheCoins := mapCoins } (report view)) :
    Sound (view.batchWrite mapCoins hashBlock) ∧
      ∀ txid, report (view.batchWrite mapCoins hashBlock) txid ≈
        report (.cache { cacheCoins := mapCoins } view) txid := by
  cases view with
  | db store =>
    refine ⟨trivial, fun txid => ?_⟩
    have written := look_run writeEntry_local mapCoins store.coins txid
    cases found : mapCoins.lookup txid with
    | none =>
      rw [report_miss found]
      simp only [found] at written
      simp only [batchWrite, CCoinsViewDB.batchWrite, report, written]
      exact Setoid.refl _
    | some entry =>
      rw [report_hit found]
      have entrySound := entries txid entry found
      simp only [found] at written
      by_cases dirty : entry.dirty = true
      · simp only [batchWrite, CCoinsViewDB.batchWrite, report, written, dirty, if_true]
        by_cases pruned : entry.coins.val.isPruned = true
        · simp only [pruned, if_true]
          exact equiv_of_pruned isPruned_empty pruned
        · simp only [pruned, Bool.false_eq_true, if_false]
          exact Setoid.refl _
      · simp only [batchWrite, CCoinsViewDB.batchWrite, report, written, dirty]
        exact Setoid.symm (entrySound.same (by simpa using dirty))
  | cache layer base =>
    have written (txid : Uint256) := look_run batchWriteEntry_local mapCoins layer.cacheCoins txid
    have pointwise (txid : Uint256) :
        (∀ entry, (layer.batchWrite mapCoins hashBlock).cacheCoins.lookup txid = some entry →
          EntrySound entry (report base txid)) ∧
        report (.cache (layer.batchWrite mapCoins hashBlock) base) txid ≈
          report (.cache { cacheCoins := mapCoins } (.cache layer base)) txid := by
      have here := written txid
      cases found : mapCoins.lookup txid with
      | none =>
        have above : report (.cache { cacheCoins := mapCoins } (.cache layer base)) txid = report (.cache layer base) txid :=
          report_miss found
        rw [above]
        simp only [found] at here
        refine ⟨fun entry hit => sound.1 txid entry (by rw [← here]; exact hit), ?_⟩
        simp only [report, CCoinsViewCache.batchWrite, here]
        exact Setoid.refl _
      | some theirs =>
        have above : report (.cache { cacheCoins := mapCoins } (.cache layer base)) txid = theirs.coins.val :=
          report_hit found
        rw [above]
        simp only [found] at here
        obtain ⟨kept, same⟩ := merged_sound (sound.1 txid)
          (by rw [← report_cache]; exact entries txid theirs found)
        refine ⟨fun entry hit => kept entry (by rw [← here]; exact hit), ?_⟩
        rw [report_cache]
        simp only [CCoinsViewCache.batchWrite, here]
        exact same
    exact ⟨⟨fun txid entry hit => (pointwise txid).1 entry hit, sound.2⟩, fun txid => (pointwise txid).2⟩

theorem refines_flush {layer : CCoinsViewCache} {base : CCoinsView} {utxo : UtxoSet}
    (refines : Refines (.cache layer base) utxo) : Refines (.cache (flush layer base).1 (flush layer base).2) utxo := by
  obtain ⟨sound, same⟩ := batchWrite_spec base refines.sound.2 layer.cacheCoins layer.hashBlock refines.sound.1
  refine ⟨⟨fun txid entry hit => by simp [flush] at hit, sound⟩, fun txid => ?_⟩
  exact Setoid.trans (same txid) (refines.agrees txid)

theorem flushInto_agrees {base : CCoinsView} {utxo : UtxoSet} (mapCoins : CCoinsMap) (hashBlock : Uint256)
    (refines : Refines (.cache { cacheCoins := mapCoins } base) utxo) (txid : Uint256) :
    answered ((flushInto base mapCoins hashBlock).coins txid) ≈ utxo.coins txid := by
  induction base generalizing mapCoins hashBlock with
  | db store =>
    obtain ⟨-, same⟩ := batchWrite_spec (.db store) trivial mapCoins hashBlock refines.sound.1
    exact Setoid.trans (same txid) (refines.agrees txid)
  | cache layer base ih =>
    obtain ⟨sound, same⟩ := batchWrite_spec (.cache layer base) refines.sound.2 mapCoins hashBlock refines.sound.1
    exact ih _ _ ⟨sound, fun other => Setoid.trans (same other) (refines.agrees other)⟩

theorem flushAll_agrees {view : CCoinsView} {utxo : UtxoSet} (refines : Refines view utxo) (txid : Uint256) :
    answered (view.flushAll.coins txid) ≈ utxo.coins txid := by
  cases view with
  | db store => exact refines.agrees txid
  | cache layer base =>
    exact flushInto_agrees layer.cacheCoins layer.hashBlock ⟨refines.sound, refines.agrees⟩ txid

end Longcoin.CoinsRefinement
