import Longcoin.Library.Components
import Longcoin.Library.FiniteMap
import Longcoin.Wallet
import Mathlib.Data.Finset.Option

/-! The addresses of a wallet that belong together (`wallet/wallet.cpp`): `GetAddressGroupings`. -/

namespace Longcoin.AddressGroupings
open Primitives Wallet Library Components Finset

variable {Dest : Type} [DecidableEq Dest]

def isMineOut (keys : KeyStore Dest) (txout : CTxOut) : Bool := keys.isMine txout.scriptPubKey != .no

def prevOut (wallet : List CWalletTx) (txin : CTxIn) : Option CTxOut :=
  (findTx wallet txin.prevout.hash).bind fun prev => prev.tx.vout[txin.prevout.n]?

def isMineIn (keys : KeyStore Dest) (wallet : List CWalletTx) (txin : CTxIn) : Bool :=
  (prevOut wallet txin).any (isMineOut keys)

def ownInputs (keys : KeyStore Dest) (wallet : List CWalletTx) (tx : CTransaction) : Finset Dest :=
  ((tx.vin.filter (isMineIn keys wallet)).filterMap fun txin =>
    (prevOut wallet txin).bind fun txout => keys.destination txout.scriptPubKey).toFinset

def changeAddresses (keys : KeyStore Dest) (tx : CTransaction) : Finset Dest :=
  ((tx.vout.filter (isChange keys)).filterMap fun txout => keys.destination txout.scriptPubKey).toFinset

def ownOutputs (keys : KeyStore Dest) (tx : CTransaction) : Finset Dest :=
  ((tx.vout.filter (isMineOut keys)).filterMap fun txout => keys.destination txout.scriptPubKey).toFinset

def inputGrouping (keys : KeyStore Dest) (wallet : List CWalletTx) (tx : CTransaction) : Finset Dest :=
  if (ownInputs keys wallet tx).Nonempty then ownInputs keys wallet tx ∪ changeAddresses keys tx else ∅

/-- What a transaction adds to `groupings`: its inputs with its change, and each own output by itself. -/
def txGroupings (keys : KeyStore Dest) (wallet : List CWalletTx) (wtx : CWalletTx) : Finset (Finset Dest) :=
  (if (inputGrouping keys wallet wtx.tx).Nonempty then {inputGrouping keys wallet wtx.tx} else ∅) ∪
    (ownOutputs keys wtx.tx).image fun address => {address}

def walletGroupings (keys : KeyStore Dest) (wallet : List CWalletTx) : Finset (Finset Dest) :=
  wallet.foldl (fun groupings wtx => groupings ∪ txGroupings keys wallet wtx) ∅

/-- The groups that are alive, by pointer, the pointer to the group of each address, and the next new pointer. -/
structure Groups (Dest : Type) where
  uniqueGroupings : FiniteMap Nat (Finset Dest) := .empty
  setmap : Dest → Option Nat := fun _ => none
  next : Nat := 0

/-- The pointers that the addresses of a grouping lead to. -/
def Groups.hits (groups : Groups Dest) (grouping : Finset Dest) : Finset Nat :=
  grouping.biUnion fun address => (groups.setmap address).toFinset

def Groups.content (groups : Groups Dest) (pointer : Nat) : Finset Dest := (groups.uniqueGroupings.find pointer).getD ∅

/-- A grouping and the groups it hits become one. Nothing where a pointer leads to a group that was deleted. -/
def mergeGrouping (groups : Groups Dest) (grouping : Finset Dest) : Option (Groups Dest) :=
  let hits := groups.hits grouping
  if hits ⊆ groups.uniqueGroupings.keys then
    let merged := grouping ∪ hits.biUnion groups.content
    some
      { uniqueGroupings := (groups.uniqueGroupings.eraseAll hits).put groups.next merged
        setmap := fun element => if element ∈ merged then some groups.next else groups.setmap element
        next := groups.next + 1 }
  else none

structure Iteration (α : Type) where
  list : Finset α → List α
  mem_list : ∀ items item, item ∈ list items ↔ item ∈ items

def getAddressGroupings (order : Iteration (Finset Dest)) (keys : KeyStore Dest) (wallet : List CWalletTx) :
    Option (Finset (Finset Dest)) :=
  ((order.list (walletGroupings keys wallet)).foldlM mergeGrouping {}).map fun groups =>
    groups.uniqueGroupings.keys.image groups.content

/-- Every pointer leads to the group of its address, and every address of a group has the pointer to it. -/
structure Tracked (groups : Groups Dest) : Prop where
  led : ∀ address pointer, groups.setmap address = some pointer ↔
    pointer ∈ groups.uniqueGroupings.keys ∧ address ∈ groups.content pointer
  fresh : ∀ pointer ∈ groups.uniqueGroupings.keys, pointer < groups.next

def Groups.blocks (groups : Groups Dest) : Finset (Finset Dest) := groups.uniqueGroupings.keys.image groups.content

variable {grouping : Finset Dest} {pointer : Nat}

omit [DecidableEq Dest] in
theorem mem_hits_pointer {groups : Groups Dest} :
    pointer ∈ groups.hits grouping ↔ ∃ address ∈ grouping, groups.setmap address = some pointer := by
  rw [Groups.hits, mem_biUnion]
  simp only [Option.mem_toFinset, Option.mem_def]

omit [DecidableEq Dest] in
theorem Tracked.mem_hits_pointer {groups : Groups Dest} (tracked : Tracked groups) : pointer ∈ groups.hits grouping ↔
      pointer ∈ groups.uniqueGroupings.keys ∧ ∃ address ∈ groups.content pointer, address ∈ grouping := by
  rw [AddressGroupings.mem_hits_pointer]
  constructor
  · rintro ⟨address, inside, leads⟩
    obtain ⟨alive, member⟩ := (tracked.led address pointer).mp leads
    exact ⟨alive, address, member, inside⟩
  · rintro ⟨alive, address, member, inside⟩
    exact ⟨address, inside, (tracked.led address pointer).mpr ⟨alive, member⟩⟩

theorem Tracked.hits_eq {groups : Groups Dest} (tracked : Tracked groups) (grouping : Finset Dest) :
    hits groups.blocks grouping = (groups.hits grouping).image groups.content := by
  ext block
  rw [mem_hits, Groups.blocks, mem_image, mem_image]
  constructor
  · rintro ⟨⟨pointer, alive, rfl⟩, touched⟩
    exact ⟨pointer, tracked.mem_hits_pointer.mpr ⟨alive, touched⟩, rfl⟩
  · rintro ⟨pointer, hit, rfl⟩
    obtain ⟨alive, touched⟩ := tracked.mem_hits_pointer.mp hit
    exact ⟨⟨pointer, alive, rfl⟩, touched⟩

theorem Tracked.merged_eq {groups : Groups Dest} (tracked : Tracked groups) (grouping : Finset Dest) :
    grouping ∪ (groups.hits grouping).biUnion groups.content = merged groups.blocks grouping := by
  rw [merged, tracked.hits_eq, image_biUnion]
  rfl

def Groups.after (groups : Groups Dest) (grouping : Finset Dest) : Groups Dest :=
  let merged := grouping ∪ (groups.hits grouping).biUnion groups.content
  { uniqueGroupings := (groups.uniqueGroupings.eraseAll (groups.hits grouping)).put groups.next merged
    setmap := fun element => if element ∈ merged then some groups.next else groups.setmap element
    next := groups.next + 1 }

theorem mem_keys_after {groups : Groups Dest} : pointer ∈ (groups.after grouping).uniqueGroupings.keys ↔
      pointer = groups.next ∨ pointer ∈ groups.uniqueGroupings.keys ∧ pointer ∉ groups.hits grouping := by
  change pointer ∈ insert groups.next (groups.uniqueGroupings.keys \ groups.hits grouping) ↔ _
  rw [mem_insert, mem_sdiff]

theorem content_next (groups : Groups Dest) (grouping : Finset Dest) :
    (groups.after grouping).content groups.next = grouping ∪ (groups.hits grouping).biUnion groups.content := by
  rw [Groups.content]
  change (((groups.uniqueGroupings.eraseAll _).put groups.next _).find groups.next).getD ∅ = _
  rw [FiniteMap.find_put_self, Option.getD_some]

theorem content_other {groups : Groups Dest} (different : pointer ≠ groups.next) (kept : pointer ∉ groups.hits grouping) :
    (groups.after grouping).content pointer = groups.content pointer := by
  rw [Groups.content]
  change (((groups.uniqueGroupings.eraseAll _).put groups.next _).find pointer).getD ∅ = _
  rw [FiniteMap.find_put_ne different, FiniteMap.find_eraseAll, if_neg kept]
  rfl

section

variable {groups : Groups Dest} (tracked : Tracked groups)
include tracked

omit [DecidableEq Dest] in
theorem Tracked.ne_next {pointer : Nat} (alive : pointer ∈ groups.uniqueGroupings.keys) :
    pointer ≠ groups.next := (tracked.fresh pointer alive).ne

theorem Tracked.after (grouping : Finset Dest) : Tracked (groups.after grouping) where
  led address pointer := by
    change (if address ∈ grouping ∪ (groups.hits grouping).biUnion groups.content then some groups.next else groups.setmap address) =
      some pointer ↔ _
    rw [mem_keys_after]
    constructor
    · intro leads
      split at leads
      · next inside =>
        obtain rfl := Option.some.inj leads
        exact ⟨.inl rfl, by rwa [content_next]⟩
      · next outside =>
        obtain ⟨alive, member⟩ := (tracked.led address pointer).mp leads
        have kept : pointer ∉ groups.hits grouping := fun hit =>
          outside (mem_union_right _ (mem_biUnion.mpr ⟨pointer, hit, member⟩))
        exact ⟨.inr ⟨alive, kept⟩, by rwa [content_other (tracked.ne_next alive) kept]⟩
    · rintro ⟨rfl | ⟨alive, kept⟩, member⟩
      · rw [content_next] at member
        rw [if_pos member]
      · rw [content_other (tracked.ne_next alive) kept] at member
        rw [if_neg, tracked.led]
        · exact ⟨alive, member⟩
        · intro inside
          rcases mem_union.mp inside with here | there
          · exact kept (tracked.mem_hits_pointer.mpr ⟨alive, address, member, here⟩)
          · obtain ⟨other, hit, member'⟩ := mem_biUnion.mp there
            obtain ⟨alive', -⟩ := tracked.mem_hits_pointer.mp hit
            -- One address leads to one pointer.
            have same := ((tracked.led address pointer).mpr ⟨alive, member⟩).symm.trans ((tracked.led address other).mpr ⟨alive', member'⟩)
            exact kept (Option.some.inj same ▸ hit)
  fresh pointer member := by
    change pointer < groups.next + 1
    rcases mem_keys_after.mp member with rfl | ⟨alive, -⟩
    · exact Nat.lt_succ_self _
    · exact Nat.lt_succ_of_lt (tracked.fresh pointer alive)

theorem Tracked.blocks_after (grouping : Finset Dest) : (groups.after grouping).blocks = merge groups.blocks grouping := by
  ext block
  rw [mem_merge, ← tracked.merged_eq, Groups.blocks, mem_image]
  constructor
  · rintro ⟨pointer, member, rfl⟩
    rcases mem_keys_after.mp member with rfl | ⟨alive, kept⟩
    · exact .inl (content_next groups grouping)
    · rw [content_other (tracked.ne_next alive) kept]
      refine .inr ⟨mem_image_of_mem _ alive, fun address inside touched => kept ?_⟩
      exact tracked.mem_hits_pointer.mpr ⟨alive, address, inside, touched⟩
  · rintro (rfl | ⟨member, apart⟩)
    · exact ⟨groups.next, mem_keys_after.mpr (.inl rfl), content_next groups grouping⟩
    · obtain ⟨pointer, alive, rfl⟩ := mem_image.mp member
      have kept : pointer ∉ groups.hits grouping := by
        intro hit
        obtain ⟨-, address, inside, touched⟩ := tracked.mem_hits_pointer.mp hit
        exact apart address inside touched
      exact ⟨pointer, mem_keys_after.mpr (.inr ⟨alive, kept⟩), content_other (tracked.ne_next alive) kept⟩

theorem Tracked.mergeGrouping (grouping : Finset Dest) : mergeGrouping groups grouping = some (groups.after grouping) :=
  if_pos fun _ hit => (tracked.mem_hits_pointer.mp hit).1

end

theorem merge_all {groupings : List (Finset Dest)} (nonempty : ∀ grouping ∈ groupings, grouping.Nonempty) {groups : Groups Dest}
    (tracked : Tracked groups) {edges : Finset Dest → Prop} (components : IsComponents groups.blocks edges) :
    ∃ last, groupings.foldlM AddressGroupings.mergeGrouping groups = some last ∧
      IsComponents last.blocks fun edge => edge ∈ groupings ∨ edges edge := by
  induction groupings generalizing groups edges with
  | nil =>
    refine ⟨groups, rfl, ?_⟩
    have same : (fun edge => edge ∈ ([] : List (Finset Dest)) ∨ edges edge) = edges := by
      funext edge
      exact propext (or_iff_right List.not_mem_nil)
    rwa [same]
  | cons grouping groupings ih =>
    have first := components.merge (nonempty grouping List.mem_cons_self)
    rw [← tracked.blocks_after] at first
    obtain ⟨last, runs, rest⟩ := ih (List.forall_mem_cons.mp nonempty).2 (tracked.after grouping) first
    refine ⟨last, ?_, ?_⟩
    · rw [List.foldlM_cons, tracked.mergeGrouping]
      exact runs
    · have same : (fun edge => edge ∈ grouping :: groupings ∨ edges edge) = fun edge => edge ∈ groupings ∨ more edges grouping edge := by
        funext edge
        rw [more, List.mem_cons, or_left_comm, or_assoc]
      rwa [same]

omit [DecidableEq Dest] in
theorem tracked_empty : Tracked ({} : Groups Dest) where
  led _ _ := iff_of_false nofun fun inside => notMem_empty _ inside.1
  fresh _ none := absurd none (notMem_empty _)

section

variable {keys : KeyStore Dest} {wallet : List CWalletTx}

variable {grouping : Finset Dest}

theorem mem_walletGroupings :
    grouping ∈ walletGroupings keys wallet ↔ ∃ wtx ∈ wallet, grouping ∈ txGroupings keys wallet wtx := by
  have fold : ∀ (rest : List CWalletTx) (start : Finset (Finset Dest)),
      grouping ∈ rest.foldl (fun groupings wtx => groupings ∪ txGroupings keys wallet wtx) start ↔
        grouping ∈ start ∨ ∃ wtx ∈ rest, grouping ∈ txGroupings keys wallet wtx := by
    intro rest
    induction rest with
    | nil => exact fun start => (or_iff_left fun some => List.not_mem_nil some.choose_spec.1).symm
    | cons wtx rest ih =>
      intro start
      rw [List.foldl_cons, ih, mem_union, List.exists_mem_cons_iff, or_assoc]
  exact (fold wallet ∅).trans (or_iff_right (notMem_empty _))

theorem mem_txGroupings {wtx : CWalletTx} : grouping ∈ txGroupings keys wallet wtx ↔
      (grouping = inputGrouping keys wallet wtx.tx ∧ grouping.Nonempty) ∨ ∃ address ∈ ownOutputs keys wtx.tx, {address} = grouping := by
  rw [txGroupings, mem_union, mem_image]
  refine or_congr_left ?_
  by_cases nonempty : (inputGrouping keys wallet wtx.tx).Nonempty
  · rw [if_pos nonempty, mem_singleton]
    exact ⟨fun same => ⟨same, same ▸ nonempty⟩, And.left⟩
  · rw [if_neg nonempty]
    exact iff_of_false (notMem_empty _) fun both => nonempty (both.1 ▸ both.2)

theorem walletGroupings_nonempty (member : grouping ∈ walletGroupings keys wallet) : grouping.Nonempty := by
  obtain ⟨wtx, -, inside⟩ := mem_walletGroupings.mp member
  rcases mem_txGroupings.mp inside with ⟨-, nonempty⟩ | ⟨address, -, rfl⟩
  · exact nonempty
  · exact singleton_nonempty address

end

theorem getAddressGroupings_components (order : Iteration (Finset Dest)) (keys : KeyStore Dest) (wallet : List CWalletTx) :
    ∃ ret, getAddressGroupings order keys wallet = some ret ∧ IsComponents ret fun edge => edge ∈ walletGroupings keys wallet := by
  have nonempty : ∀ grouping ∈ order.list (walletGroupings keys wallet), grouping.Nonempty :=
    fun grouping member => walletGroupings_nonempty ((order.mem_list _ _).mp member)
  obtain ⟨last, runs, components⟩ := merge_all nonempty tracked_empty isComponents_empty
  refine ⟨last.blocks, ?_, ?_⟩
  · rw [getAddressGroupings, runs]
    rfl
  · have same : (fun edge => edge ∈ order.list (walletGroupings keys wallet) ∨ False) = fun edge => edge ∈ walletGroupings keys wallet := by
      funext edge
      rw [or_false, order.mem_list]
    rwa [same] at components

def HasOwnAddress (keys : KeyStore Dest) (wallet : List CWalletTx) (tx : CTransaction) : Prop := (ownInputs keys wallet tx).Nonempty

/-- Some input is the wallet's, whether or not it has an address. -/
def HasOwnInput (keys : KeyStore Dest) (wallet : List CWalletTx) (tx : CTransaction) : Prop :=
  ∃ txin ∈ tx.vin, isMineIn keys wallet txin = true

/-- Both are addresses of the inputs or of the change of a transaction that counts. -/
def Related (counts : CTransaction → Prop) (keys : KeyStore Dest) (wallet : List CWalletTx) (first second : Dest) : Prop :=
  ∃ wtx ∈ wallet, counts wtx.tx ∧ first ∈ ownInputs keys wallet wtx.tx ∪ changeAddresses keys wtx.tx ∧
    second ∈ ownInputs keys wallet wtx.tx ∪ changeAddresses keys wtx.tx

/-- An address of an own input, of the change of a transaction that counts, or of an own output. -/
def Appears (counts : CTransaction → Prop) (keys : KeyStore Dest) (wallet : List CWalletTx) (address : Dest) : Prop :=
  (∃ wtx ∈ wallet, address ∈ ownInputs keys wallet wtx.tx) ∨ (∃ wtx ∈ wallet, counts wtx.tx ∧ address ∈ changeAddresses keys wtx.tx) ∨
    ∃ wtx ∈ wallet, address ∈ ownOutputs keys wtx.tx

/-- A partition of the addresses that appear, by chains of transactions. -/
structure GroupedBy (counts : CTransaction → Prop) (keys : KeyStore Dest) (wallet : List CWalletTx) (ret : Finset (Finset Dest)) : Prop where
  nonempty : ∀ group ∈ ret, group.Nonempty
  covered : ∀ address, (∃ group ∈ ret, address ∈ group) ↔ Appears counts keys wallet address
  disjoint : ∀ group ∈ ret, ∀ other ∈ ret, ∀ address, address ∈ group → address ∈ other → group = other
  linked : ∀ first, Appears counts keys wallet first → ∀ second,
    (∃ group ∈ ret, first ∈ group ∧ second ∈ group) ↔ Relation.ReflTransGen (Related counts keys wallet) first second

theorem mem_inputGrouping {keys : KeyStore Dest} {wallet : List CWalletTx} {tx : CTransaction} {address : Dest} :
    address ∈ inputGrouping keys wallet tx ↔
      HasOwnAddress keys wallet tx ∧ address ∈ ownInputs keys wallet tx ∪ changeAddresses keys tx := by
  rw [inputGrouping, HasOwnAddress]
  by_cases own : (ownInputs keys wallet tx).Nonempty
  · rw [if_pos own]
    exact (and_iff_right own).symm
  · rw [if_neg own]
    exact iff_of_false (notMem_empty _) fun both => own both.1

section Result

variable {keys : KeyStore Dest} {wallet : List CWalletTx}

theorem covered_iff (address : Dest) : (∃ edge, edge ∈ walletGroupings keys wallet ∧ address ∈ edge) ↔
    Appears (HasOwnAddress keys wallet) keys wallet address := by
  constructor
  · rintro ⟨edge, member, inside⟩
    obtain ⟨wtx, listed, grouped⟩ := mem_walletGroupings.mp member
    rcases mem_txGroupings.mp grouped with ⟨rfl, -⟩ | ⟨other, own, rfl⟩
    · obtain ⟨counts, here⟩ := mem_inputGrouping.mp inside
      rcases mem_union.mp here with input | change
      · exact .inl ⟨wtx, listed, input⟩
      · exact .inr (.inl ⟨wtx, listed, counts, change⟩)
    · rw [mem_singleton.mp inside]
      exact .inr (.inr ⟨wtx, listed, own⟩)
  · have input : ∀ wtx ∈ wallet, address ∈ inputGrouping keys wallet wtx.tx →
        ∃ edge, edge ∈ walletGroupings keys wallet ∧ address ∈ edge := fun wtx listed inside =>
      ⟨_, mem_walletGroupings.mpr ⟨wtx, listed, mem_txGroupings.mpr (.inl ⟨rfl, address, inside⟩)⟩, inside⟩
    rintro (⟨wtx, listed, own⟩ | ⟨wtx, listed, counts, change⟩ | ⟨wtx, listed, own⟩)
    · exact input wtx listed (mem_inputGrouping.mpr ⟨⟨address, own⟩, mem_union_left _ own⟩)
    · exact input wtx listed (mem_inputGrouping.mpr ⟨counts, mem_union_right _ change⟩)
    · exact ⟨{address}, mem_walletGroupings.mpr ⟨wtx, listed, mem_txGroupings.mpr (.inr ⟨address, own, rfl⟩)⟩,
        mem_singleton_self address⟩

theorem linked_iff (first second : Dest) : Linked (fun edge => edge ∈ walletGroupings keys wallet) first second ↔
    Relation.ReflTransGen (Related (HasOwnAddress keys wallet) keys wallet) first second := by
  constructor
  · intro linked
    induction linked with
    | refl => exact .refl
    | tail _ step ih =>
      obtain ⟨edge, member, inside, inside'⟩ := step
      obtain ⟨wtx, listed, grouped⟩ := mem_walletGroupings.mp member
      rcases mem_txGroupings.mp grouped with ⟨rfl, -⟩ | ⟨other, -, rfl⟩
      · obtain ⟨counts, here⟩ := mem_inputGrouping.mp inside
        exact ih.tail ⟨wtx, listed, counts, here, (mem_inputGrouping.mp inside').2⟩
      · rw [mem_singleton.mp inside', ← mem_singleton.mp inside]
        exact ih
  · intro related
    refine Relation.ReflTransGen.mono (fun one two step => ?_) _ _ related
    obtain ⟨wtx, listed, counts, here, there⟩ := step
    have inside := mem_inputGrouping.mpr ⟨counts, here⟩
    exact ⟨_, mem_walletGroupings.mpr ⟨wtx, listed, mem_txGroupings.mpr (.inl ⟨rfl, one, inside⟩)⟩, inside,
      mem_inputGrouping.mpr ⟨counts, there⟩⟩

end Result

/-- The groups partition the addresses that appear, by chains of transactions with an own input that has an address. -/
theorem address_groupings (order : Iteration (Finset Dest)) (keys : KeyStore Dest) (wallet : List CWalletTx) :
    ∃ ret, getAddressGroupings order keys wallet = some ret ∧ GroupedBy (HasOwnAddress keys wallet) keys wallet ret := by
  obtain ⟨ret, same, components⟩ := getAddressGroupings_components order keys wallet
  refine ⟨ret, same, components.nonempty, fun address => (components.covered address).trans (covered_iff address),
    components.disjoint, fun first appears second => ?_⟩
  exact (components.same_block ((covered_iff first).mpr appears) second).trans (linked_iff first second)

/-- Scripts 1 and 2 have an address, the others none. All are the wallet's. -/
def twoAddresses : KeyStore Nat where
  isMine _ := .spendable
  destination script := if script = [1] then some 1 else if script = [2] then some 2 else none
  mapAddressBook := []

/-- An output without an address is spent to two addresses. -/
def spendsBare : List CWalletTx :=
  [⟨{ hash := 1, vin := [{ prevout := ⟨7, 0⟩ }], vout := [⟨5, [9]⟩] }, 0, 0, ""⟩,
    ⟨{ hash := 2, vin := [{ prevout := ⟨1, 0⟩ }], vout := [⟨2, [1]⟩, ⟨2, [2]⟩] }, 0, 0, ""⟩]

/-- The two addresses of its change are not grouped. -/
theorem change_of_bare_apart : ¬ ∀ (order : Iteration (Finset Nat)) (keys : KeyStore Nat) (wallet : List CWalletTx),
    ∃ ret, getAddressGroupings order keys wallet = some ret ∧ GroupedBy (HasOwnInput keys wallet) keys wallet ret := by
  intro every
  let order : Iteration (Finset Nat) := ⟨toList, fun _ _ => mem_toList⟩
  obtain ⟨ret, same, grouped⟩ := every order twoAddresses spendsBare
  obtain ⟨ret', same', components⟩ := getAddressGroupings_components order twoAddresses spendsBare
  obtain rfl := Option.some.inj (same.symm.trans same')
  have related : Related (HasOwnInput twoAddresses spendsBare) twoAddresses spendsBare 1 2 :=
    ⟨_, List.mem_cons_of_mem _ List.mem_cons_self, ⟨_, List.mem_cons_self, by decide⟩, by decide, by decide⟩
  have appears : Appears (HasOwnInput twoAddresses spendsBare) twoAddresses spendsBare 1 :=
    .inr (.inr ⟨_, List.mem_cons_of_mem _ List.mem_cons_self, by decide⟩)
  obtain ⟨group, member, inside, inside'⟩ := (grouped.linked 1 appears 2).mpr (.single related)
  have linked := (linked_iff 1 2).mp ((components.connected group member 1 inside 2).mp inside')
  rcases linked.cases_head with equal | ⟨next, ⟨wtx, listed, counts, -⟩, -⟩
  · cases equal
  · have none : ∀ wtx ∈ spendsBare, ¬ (ownInputs twoAddresses spendsBare wtx.tx).Nonempty := by decide
    exact none wtx listed counts

end Longcoin.AddressGroupings
