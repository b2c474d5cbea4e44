import Longcoin.WalletSlots

/-! When `ReorderTransactions` leaves the whole history in order (`wallet/walletdb.cpp`). -/

namespace Longcoin.WalletOrder
open Primitives Serialize Library Library.Bytes CAccountingEntry Counters History List Option

theorem items_write (history : History) (key : Uint256 ⊕ List Nat) (nOrderPos : Int) :
    (history.write key nOrderPos).items = history.items.map fun item => if item.key = key then item.setOrderPos nOrderPos else item := by
  rw [items, items, write, List.map_append, List.map_map, List.map_map, List.map_map, List.map_map]
  congr 1
  · refine List.map_congr_left fun wtx _ => ?_
    change TxPair.wtx (if Sum.inl wtx.hash = key then _ else wtx) = if Sum.inl wtx.hash = key then _ else _
    split <;> rfl
  · refine List.map_congr_left fun acentry _ => ?_
    change TxPair.acentry (if Sum.inr acentry.key = key then _ else acentry) = if Sum.inr acentry.key = key then _ else _
    split <;> rfl

theorem nodup_keys (history : History) : (history.items.map TxPair.key).Nodup := by
  rw [items, List.map_append, List.map_map, List.map_map, List.nodup_append']
  refine ⟨?_, ?_, ?_⟩
  · have keys : history.mapWallet.map (TxPair.key ∘ TxPair.wtx) = (history.mapWallet.map CWalletTx.hash).map Sum.inl := by
      rw [List.map_map]
      rfl
    rw [keys]
    exact history.distinct.map Sum.inl_injective
  · have keys : history.acentries.map (TxPair.key ∘ TxPair.acentry) = (history.acentries.map key).map Sum.inr := by
      rw [List.map_map]
      rfl
    rw [keys]
    exact (history.sorted.imp ne_of_lt).map _ fun _ _ different same => different (Sum.inr_injective same)
  · intro key inside outside
    obtain ⟨wtx, -, rfl⟩ := List.mem_map.mp inside
    obtain ⟨acentry, -, same⟩ := List.mem_map.mp outside
    cases same

theorem eq_of_key {history : History} {first second : TxPair} (inside : first ∈ history.items) (inside' : second ∈ history.items)
    (same : first.key = second.key) : first = second := inj_on_of_nodup_map (nodup_keys history) inside inside' same

theorem head_acentryKey (strAccount : List UInt8) (nEntryNo : Nat) :
    ∃ first rest, acentryKey strAccount nEntryNo = first :: rest ∧ 8 ≤ rest.length ∧ (first = 0 ↔ strAccount = []) := by
  have tail : ∀ front : List UInt8, 8 ≤ ((front ++ littleBytes 8 nEntryNo).map UInt8.toNat).length := by
    intro front
    rw [length_map, length_append, length_littleBytes]
    exact Nat.le_add_left 8 _
  rw [acentryKey, writeByteVector, writeCompactSize]
  by_cases short : strAccount.length < 253
  · refine ⟨(UInt8.ofNat strAccount.length).toNat, ((strAccount ++ littleBytes 8 nEntryNo).map UInt8.toNat), ?_, tail _, ?_⟩
    · rw [if_pos short, append_assoc]
      rfl
    · rw [UInt8.toNat_ofNat', Nat.mod_eq_of_lt (by omega), length_eq_zero_iff]
  · have long : strAccount ≠ [] := by
      rintro rfl
      exact short (by decide)
    rw [if_neg short]
    split
    · refine ⟨253, ((littleBytes 2 strAccount.length ++ strAccount ++ littleBytes 8 nEntryNo).map UInt8.toNat), ?_, tail _,
        iff_of_false (by decide) long⟩
      rw [append_assoc (littleBytes 1 253), append_assoc (littleBytes 1 253)]
      rfl
    · split
      · refine ⟨254, ((littleBytes 4 strAccount.length ++ strAccount ++ littleBytes 8 nEntryNo).map UInt8.toNat), ?_, tail _,
          iff_of_false (by decide) long⟩
        rw [append_assoc (littleBytes 1 254), append_assoc (littleBytes 1 254)]
        rfl
      · refine ⟨255, ((littleBytes 8 strAccount.length ++ strAccount ++ littleBytes 8 nEntryNo).map UInt8.toNat), ?_, tail _,
          iff_of_false (by decide) long⟩
        rw [append_assoc (littleBytes 1 255), append_assoc (littleBytes 1 255)]
        rfl

theorem not_lt_zeros {count : Nat} {key : List Nat} (long : count ≤ key.length) : ¬ key < replicate count 0 := by
  induction count generalizing key with
  | zero => exact not_lt_nil key
  | succ count ih =>
    cases key with
    | nil => exact absurd long (by rw [length_nil]; omega)
    | cons first rest =>
      rw [replicate_succ, cons_lt_cons_iff]
      rintro (less | ⟨-, less⟩)
      · exact Nat.not_lt_zero _ less
      · exact ih (Nat.le_of_succ_le_succ long) less

theorem not_before_start (acentry : CAccountingEntry) : ¬ acentry.key < acentryKey [] 0 := by
  obtain ⟨first, rest, same, long, -⟩ := head_acentryKey acentry.strAccount acentry.nEntryNo
  have start : acentryKey [] 0 = replicate 9 0 := rfl
  rw [start, key, same]
  exact not_lt_zeros (Nat.succ_le_succ long)

theorem listAccountCreditDebit_default (history : History) :
    listAccountCreditDebit history [] = history.acentries.filter fun acentry => decide (acentry.strAccount = []) := by
  have all : history.acentries.dropWhile (fun acentry => decide (acentry.key < acentryKey [] 0)) = history.acentries := by
    cases history.acentries with
    | nil => rfl
    | cons acentry rest => rw [dropWhile_cons, if_neg fun less => not_before_start acentry (of_decide_eq_true less)]
  have default : decide (([] : List UInt8) = ALL_ACCOUNTS) = false := by decide
  rw [listAccountCreditDebit, default]
  simp only [Bool.false_eq_true, if_false, Bool.false_or, all]
  refine takeWhile_pairwise ((pairwise_map.mp history.sorted).imp fun {acentry later} less default' => ?_)
  obtain ⟨first, rest, same, -, named⟩ := head_acentryKey acentry.strAccount acentry.nEntryNo
  obtain ⟨first', rest', same', -, named'⟩ := head_acentryKey later.strAccount later.nEntryNo
  rw [key, key, same, same', cons_lt_cons_iff, named'.mpr (of_decide_eq_true default')] at less
  refine decide_eq_true (named.mp ?_)
  rcases less with less | ⟨zero, -⟩
  · cases less
  · exact zero

theorem perm_txByTime (history : History) : (txByTime history).Perm
    (history.mapWallet.map TxPair.wtx ++ (history.acentries.filter fun acentry => decide (acentry.strAccount = [])).map TxPair.acentry) := by
  rw [txByTime, listAccountCreditDebit_default]
  exact perm_insertionSort _ _

def otherEntries (history : History) : List CAccountingEntry :=
  history.acentries.filter fun acentry => !decide (acentry.strAccount = [])

theorem perm_items (history : History) : history.items.Perm (txByTime history ++ (otherEntries history).map TxPair.acentry) := by
  have split := (filter_append_perm (fun acentry => decide (acentry.strAccount = [])) history.acentries).symm.map TxPair.acentry
  rw [map_append] at split
  refine (split.append_left (history.mapWallet.map TxPair.wtx)).trans ?_
  rw [← append_assoc]
  exact (perm_txByTime history).symm.append_right _

def relabel (placed : List (TxPair × Int)) (item : TxPair) : TxPair :=
  placed.foldl (fun item pair => if item.key = pair.1.key then item.setOrderPos pair.2 else item) item

theorem key_relabel (placed : List (TxPair × Int)) (item : TxPair) : (relabel placed item).key = item.key := by
  induction placed generalizing item with
  | nil => rfl
  | cons pair placed ih =>
    rw [relabel, foldl_cons]
    refine (ih _).trans ?_
    split
    · exact TxPair.key_setOrderPos _ _
    · rfl

theorem relabel_absent {placed : List (TxPair × Int)} {item : TxPair} (absent : item.key ∉ placed.map fun pair => pair.1.key) :
    relabel placed item = item := by
  induction placed with
  | nil => rfl
  | cons pair placed ih =>
    rw [map_cons, mem_cons, not_or] at absent
    rw [relabel, foldl_cons, if_neg absent.1]
    exact ih absent.2

theorem relabel_listed {placed : List (TxPair × Int)} (distinct : (placed.map fun pair => pair.1.key).Nodup) {pair : TxPair × Int}
    (listed : pair ∈ placed) : relabel placed pair.1 = pair.1.setOrderPos pair.2 := by
  induction placed with
  | nil => cases listed
  | cons first placed ih =>
    rw [map_cons, nodup_cons] at distinct
    rw [relabel, foldl_cons]
    rcases mem_cons.mp listed with rfl | later
    · rw [if_pos rfl]
      refine relabel_absent ?_
      rw [TxPair.key_setOrderPos]
      exact distinct.1
    · have different : ¬ pair.1.key = first.1.key := fun same =>
        distinct.1 (same ▸ mem_map_of_mem (f := fun pair : TxPair × Int => pair.1.key) later)
      rw [if_neg different]
      exact ih distinct.2 later

def Reordering.counters (state : Reordering) : Counters := ⟨state.nOrderPosNext, state.nOrderPosOffsets⟩

variable {writes : TxPair → Bool}

theorem writeBack_eq {state next : Reordering} {item : TxPair} {nOrderPos : Int}
    (runs : state.writeBack writes (item.setOrderPos nOrderPos) = some next) : next.counters = state.counters ∧
    next.history.items = state.history.items.map fun other => if other.key = item.key then other.setOrderPos nOrderPos else other := by
  rw [Reordering.writeBack] at runs
  split at runs
  · obtain rfl := some.inj runs
    refine ⟨rfl, ?_⟩
    rw [items_write, TxPair.key_setOrderPos, TxPair.nOrderPos_setOrderPos]
  · cases runs

theorem setOrderPos_self (item : TxPair) : item.setOrderPos item.nOrderPos = item := by
  cases item <;> rfl

theorem reorderItem_eq {state next : Reordering} {item : TxPair}
    (untouched : ∀ other ∈ state.history.items, other.key = item.key → other = item)
    (runs : reorderItem writes state item = some next) : next.counters = (state.counters.place item.nOrderPos).2 ∧
    next.history.items = state.history.items.map fun other =>
      if other.key = item.key then other.setOrderPos (state.counters.place item.nOrderPos).1 else other := by
  rw [reorderItem] at runs
  rw [place]
  by_cases unplaced : item.nOrderPos = -1
  · rw [if_pos unplaced] at runs ⊢
    exact writeBack_eq runs
  · rw [if_neg unplaced] at runs ⊢
    change (if _ = 0 then some _ else Reordering.writeBack writes _ _) = some next at runs
    split at runs
    · next still =>
      obtain rfl := some.inj runs
      have same : shifted state.counters.offsets item.nOrderPos = item.nOrderPos := by
        refine (congrArg (fun moved : Nat => item.nOrderPos + (moved : Int)) still).trans ?_
        exact add_zero _
      refine ⟨rfl, ?_⟩
      rw [same]
      refine (map_id _).symm.trans (map_congr_left fun other member => ?_)
      by_cases here : other.key = item.key
      · rw [if_pos here, untouched other member here]
        exact (setOrderPos_self item).symm
      · exact (if_neg here).symm
    · exact writeBack_eq runs

theorem reorderItems_eq {items : List TxPair} {state last : Reordering} (distinct : (items.map TxPair.key).Nodup)
    (untouched : ∀ item ∈ items, ∀ other ∈ state.history.items, other.key = item.key → other = item)
    (runs : items.foldlM (reorderItem writes) state = some last) :
    last.counters = (state.counters.placeAll (items.map TxPair.nOrderPos)).2 ∧
    last.history.items = state.history.items.map (relabel (items.zip (state.counters.placeAll (items.map TxPair.nOrderPos)).1)) := by
  induction items generalizing state with
  | nil =>
    obtain rfl := some.inj runs
    exact ⟨rfl, (map_id _).symm⟩
  | cons item items ih =>
    rw [map_cons, nodup_cons] at distinct
    obtain ⟨next, first, later⟩ := bind_eq_some_iff.mp (foldlM_cons.symm.trans runs)
    obtain ⟨counters, placed⟩ := reorderItem_eq (untouched item mem_cons_self) first
    have untouched' : ∀ item' ∈ items, ∀ other ∈ next.history.items, other.key = item'.key → other = item' := by
      intro item' member other inside same
      rw [placed] at inside
      obtain ⟨before, was, rfl⟩ := mem_map.mp inside
      have elsewhere : ¬ before.key = item.key := by
        intro here
        rw [if_pos here, TxPair.key_setOrderPos, here] at same
        exact distinct.1 (same ▸ mem_map_of_mem member)
      rw [if_neg elsewhere] at same ⊢
      exact untouched item' (mem_cons_of_mem _ member) before was same
    obtain ⟨counters', placed'⟩ := ih distinct.2 untouched' later
    rw [map_cons, placeAll]
    rw [counters] at counters' placed'
    refine ⟨counters', ?_⟩
    rw [placed', placed, List.map_map]
    rfl

/-- The history after `ReorderTransactions`, where the positions of all items, of every account, are in order. -/
structure StrictlyOrdered (before after : History) (nOrderPosNext : Int) : Prop where
  nonneg : ∀ item ∈ after.items, 0 ≤ item.nOrderPos
  below : ∀ item ∈ after.items, item.nOrderPos < nOrderPosNext
  distinct : (after.items.map TxPair.nOrderPos).Nodup
  kept : ∀ first ∈ before.items, ∀ second ∈ before.items, first.nOrderPos ≠ -1 → second.nOrderPos ≠ -1 →
    first.nOrderPos < second.nOrderPos → ∀ first' ∈ after.items, ∀ second' ∈ after.items, first'.key = first.key →
      second'.key = second.key → first'.nOrderPos < second'.nOrderPos

/-- The positions that are given are not negative, all different, and leave room for as many more below 2^63. -/
structure Given (history : History) : Prop where
  nonneg : ∀ item ∈ history.items, item.nOrderPos = -1 ∨ 0 ≤ item.nOrderPos
  distinct : ((history.items.map TxPair.nOrderPos).filter fun nOrderPos => decide (nOrderPos ≠ -1)).Nodup
  fits : ∀ item ∈ history.items, item.nOrderPos + history.items.length < 2 ^ 63

/-- The positions of the items that are reordered, by time, and of those that are not. -/
def positionsByTime (history : History) : List Int := (txByTime history).map TxPair.nOrderPos

def otherPositions (history : History) : List Int := (otherEntries history).map CAccountingEntry.nOrderPos

section Whole

variable {history : History} {news : List Int}

theorem nodup_txByTime (history : History) :
    ((txByTime history).map TxPair.key ++ ((otherEntries history).map TxPair.acentry).map TxPair.key).Nodup := by
  rw [← map_append, ← ((perm_items history).map TxPair.key).nodup_iff]
  exact nodup_keys history

section

variable (length_eq : news.length = (positionsByTime history).length)
include length_eq

theorem map_fst_placed : ((txByTime history).zip news).map Prod.fst = txByTime history := by
  rw [positionsByTime, length_map] at length_eq
  exact map_fst_zip length_eq.ge

theorem keys_placed : ((txByTime history).zip news).map (fun pair => pair.1.key) = (txByTime history).map TxPair.key := by
  conv_rhs => rw [← map_fst_placed length_eq, List.map_map]
  rfl

theorem relabel_placed {pair : TxPair × Int}
    (listed : pair ∈ (txByTime history).zip news) : relabel ((txByTime history).zip news) pair.1 = pair.1.setOrderPos pair.2 := by
  refine relabel_listed ?_ listed
  rw [keys_placed length_eq]
  exact (nodup_append'.mp (nodup_txByTime history)).1

theorem relabel_other {acentry : CAccountingEntry}
    (other : acentry ∈ otherEntries history) : relabel ((txByTime history).zip news) (.acentry acentry) = .acentry acentry := by
  refine relabel_absent ?_
  rw [keys_placed length_eq]
  intro inside
  exact (nodup_append'.mp (nodup_txByTime history)).2.2 inside (mem_map_of_mem (mem_map_of_mem other))

theorem perm_positions :
    ((history.items.map (relabel ((txByTime history).zip news))).map TxPair.nOrderPos).Perm (news ++ otherPositions history) := by
  have moved : ((txByTime history).map (relabel ((txByTime history).zip news))).map TxPair.nOrderPos = news := by
    conv_lhs =>
      rw [List.map_map]
      arg 2
      rw [← map_fst_placed length_eq]
    rw [List.map_map]
    refine (List.map_congr_left fun pair listed => ?_).trans (List.map_snd_zip ?_)
    · rw [Function.comp_apply, Function.comp_apply, relabel_placed length_eq listed, TxPair.nOrderPos_setOrderPos]
    · rw [length_eq, positionsByTime, List.length_map]
  have same : (((otherEntries history).map TxPair.acentry).map (relabel ((txByTime history).zip news))).map TxPair.nOrderPos =
      otherPositions history := by
    rw [List.map_map, List.map_map]
    refine List.map_congr_left fun acentry other => ?_
    rw [Function.comp_apply, Function.comp_apply, relabel_other length_eq other]
    rfl
  have perm := ((perm_items history).map (relabel ((txByTime history).zip news))).map TxPair.nOrderPos
  rwa [List.map_append, List.map_append, moved, same] at perm

end

variable {last : Counters} (placed : Placed ⟨0, []⟩ (positionsByTime history) news last (slotsOf (positionsByTime history)))

include placed in
theorem relabel_reordered {item : TxPair} (listed : item ∈ txByTime history) (given : item.nOrderPos ≠ -1) :
    (relabel ((txByTime history).zip news) item).nOrderPos = shifted (slotsOf (positionsByTime history)) item.nOrderPos := by
  have offsets : last.offsets = slotsOf (positionsByTime history) := placed.offsets_eq
  rw [← map_fst_placed placed.length_eq] at listed
  obtain ⟨pair, member, rfl⟩ := mem_map.mp listed
  rw [relabel_placed placed.length_eq member, TxPair.nOrderPos_setOrderPos, ← offsets]
  refine placed.moved (pair.1.nOrderPos, pair.2) ?_ given
  rw [positionsByTime, zip_map_left]
  exact mem_map_of_mem (f := Prod.map TxPair.nOrderPos id) member

include placed in
theorem relabel_cases {item : TxPair} (member : item ∈ history.items) (given : item.nOrderPos ≠ -1) :
    (item.nOrderPos ∈ positionsByTime history ∧
      (relabel ((txByTime history).zip news) item).nOrderPos = shifted (slotsOf (positionsByTime history)) item.nOrderPos) ∨
    (item.nOrderPos ∈ otherPositions history ∧ (relabel ((txByTime history).zip news) item).nOrderPos = item.nOrderPos) := by
  rw [(perm_items history).mem_iff, mem_append] at member
  rcases member with listed | other
  · exact .inl ⟨mem_map_of_mem listed, relabel_reordered placed listed given⟩
  · obtain ⟨acentry, member, rfl⟩ := mem_map.mp other
    exact .inr ⟨mem_map_of_mem member, by rw [relabel_other placed.length_eq member]⟩

include placed in
theorem strictlyOrdered_iff (given : Given history) {after : History}
    (items : after.items = history.items.map (relabel ((txByTime history).zip news))) :
    StrictlyOrdered history after last.next ↔ InOrder (positionsByTime history) (otherPositions history) news last.next := by
  have perm := perm_positions placed.length_eq
  rw [← items] at perm
  have every : ∀ {P : Int → Prop}, (∀ item ∈ after.items, P item.nOrderPos) ↔ ∀ new ∈ news ++ otherPositions history, P new := by
    intro P
    rw [← List.forall_mem_map]
    exact forall_congr' fun new => imp_congr_left perm.mem_iff
  constructor
  · intro ordered
    refine ⟨every.mp ordered.nonneg, (every (P := (· < last.next))).mp ordered.below, perm.nodup_iff.mp ordered.distinct, ?_⟩
    intro other member nOrderPos member' placed' less
    obtain ⟨acentry, listed, rfl⟩ := mem_map.mp member
    obtain ⟨item, listed', rfl⟩ := mem_map.mp member'
    have inside : TxPair.acentry acentry ∈ history.items :=
      (perm_items history).mem_iff.mpr (mem_append_right _ (mem_map_of_mem listed))
    have inside' : item ∈ history.items := (perm_items history).mem_iff.mpr (mem_append_left _ listed')
    have nonneg := (given.nonneg item inside').resolve_left placed'
    have kept := ordered.kept item inside' (.acentry acentry) inside placed' (by change acentry.nOrderPos ≠ -1; omega) less
      _ (items ▸ mem_map_of_mem inside') _ (items ▸ mem_map_of_mem inside) (key_relabel _ _) (key_relabel _ _)
    rwa [relabel_reordered placed listed' placed', relabel_other placed.length_eq listed] at kept
  · intro inOrder
    refine ⟨every.mpr inOrder.nonneg, (every (P := (· < last.next))).mpr inOrder.below, perm.nodup_iff.mpr inOrder.distinct, ?_⟩
    intro first member second member' placed' placed'' less first' inside second' inside' same same'
    rw [items] at inside inside'
    obtain ⟨one, was, rfl⟩ := mem_map.mp inside
    obtain ⟨two, was', rfl⟩ := mem_map.mp inside'
    obtain rfl := eq_of_key was member ((key_relabel _ one).symm.trans same)
    obtain rfl := eq_of_key was' member' ((key_relabel _ two).symm.trans same')
    rcases relabel_cases placed member placed' with ⟨listed, eq⟩ | ⟨listed, eq⟩ <;>
      rcases relabel_cases placed member' placed'' with ⟨listed', eq'⟩ | ⟨listed', eq'⟩ <;> rw [eq, eq']
    · exact shifted_strictMono less
    · exact inOrder.ordered _ listed' _ listed placed' less
    · exact less.trans_le (le_shifted _ _)
    · exact less

end Whole

/-- The positions of all items are in order after `ReorderTransactions` just when no item moves onto a slot, and the entries of
other accounts have positions that nothing gets in the way of. -/
theorem reordered_iff {writes : TxPair → Bool} {history : History} {last : Reordering} (given : Given history)
    (runs : reorderTransactions writes history = some last) :
    StrictlyOrdered history last.history last.nOrderPosNext ↔ Separate (positionsByTime history) (otherPositions history) := by
  have untouched : ∀ item ∈ txByTime history, ∀ other ∈ history.items, other.key = item.key → other = item := by
    intro item listed other inside same
    exact eq_of_key inside ((perm_items history).mem_iff.mpr (mem_append_left _ listed)) same
  obtain ⟨counters, items⟩ := reorderItems_eq (nodup_append'.mp (nodup_txByTime history)).1 untouched runs
  have all : ((positionsByTime history) ++ otherPositions history).Perm (history.items.map TxPair.nOrderPos) := by
    have perm := ((perm_items history).map TxPair.nOrderPos).symm
    rw [List.map_append, List.map_map] at perm
    exact perm
  have nonneg : ∀ nOrderPos ∈ positionsByTime history ++ otherPositions history, nOrderPos = -1 ∨ 0 ≤ nOrderPos := by
    intro nOrderPos member
    obtain ⟨item, inside, rfl⟩ := mem_map.mp (all.mem_iff.mp member)
    exact given.nonneg item inside
  obtain ⟨increasing, -, placed⟩ := placed_slots (forall_mem_append.mp nonneg).1
  have next : last.nOrderPosNext = (placeAll ⟨0, []⟩ (positionsByTime history)).2.next := congrArg next counters
  rw [next]
  exact (strictlyOrdered_iff placed given items).trans
    (inOrder_iff nonneg ((all.filter _).nodup_iff.mpr given.distinct) placed increasing)

/-- Two transactions without a position and a later one at the first position. -/
def twoThenFirst : History where
  mapWallet := [⟨1, 1, -1⟩, ⟨2, 2, -1⟩, ⟨3, 3, 0⟩]
  acentries := []
  distinct := by decide
  sorted := .nil

theorem twoThenFirst_given : Given twoThenFirst := ⟨by decide, by decide, by decide⟩

theorem twoThenFirst_reordered (last : Reordering) (runs : reorderTransactions (fun _ => true) twoThenFirst = some last) :
    last.history.items.map TxPair.nOrderPos = [0, 1, 1] := by
  obtain rfl := some.inj runs
  rfl

theorem reordered_iff_twoThenFirst : ∃ last, reorderTransactions (fun _ => true) twoThenFirst = some last ∧
    (StrictlyOrdered twoThenFirst last.history last.nOrderPosNext ↔
      Separate (positionsByTime twoThenFirst) (otherPositions twoThenFirst)) := by
  obtain ⟨last, runs⟩ : ∃ last, reorderTransactions (fun _ => true) twoThenFirst = some last := isSome_iff_exists.mp rfl
  exact ⟨last, runs, reordered_iff twoThenFirst_given runs⟩

/-- The third transaction moves to where the second one has been put. -/
theorem second_and_third_collide : ¬ ∀ (writes : TxPair → Bool) (history : History) (last : Reordering), Given history →
    reorderTransactions writes history = some last → StrictlyOrdered history last.history last.nOrderPosNext := by
  intro every
  obtain ⟨last, runs⟩ : ∃ last, reorderTransactions (fun _ => true) twoThenFirst = some last := isSome_iff_exists.mp rfl
  have distinct := (every _ _ last twoThenFirst_given runs).distinct
  rw [twoThenFirst_reordered last runs] at distinct
  exact absurd distinct (by decide)

end Longcoin.WalletOrder
