import Longcoin.AddressBook
import Longcoin.Base58
import Longcoin.Library.Bytes

/-! When the address book on disk is the one in memory (`wallet/wallet.cpp`, `wallet/walletdb.cpp`). -/

namespace Longcoin.AddressBook
open Primitives Library FiniteMap Bytes Store List

/-- An entry has the values that the records of its address have, and its defaults where there is none. -/
structure Described (data : CAddressBookData) (read : RecordType → Option String) : Prop where
  name : data.name = (read .name).getD ""
  pubkeyhex : data.pubkeyhex = (read .pubkeyhex).getD ""
  purpose : data.purpose = (read .purpose).getD "unknown"
  destdata : ∀ strKey, data.destdata.find strKey = read (.destdata strKey)

theorem Described.unique {data other : CAddressBookData} {read : RecordType → Option String} (first : Described data read)
    (second : Described other read) : data = other := by
  obtain ⟨name, pubkeyhex, purpose, destdata⟩ := data
  obtain ⟨name', pubkeyhex', purpose', destdata'⟩ := other
  obtain rfl : name = name' := first.name.trans second.name.symm
  obtain rfl : pubkeyhex = pubkeyhex' := first.pubkeyhex.trans second.pubkeyhex.symm
  obtain rfl : purpose = purpose' := first.purpose.trans second.purpose.symm
  obtain rfl : destdata = destdata' := ext fun strKey => (first.destdata strKey).trans (second.destdata strKey).symm
  rfl

/-- There is an entry just when there is a record of its address. -/
structure EntryMirrors (entry : Option CAddressBookData) (read : RecordType → Option String) : Prop where
  present : entry.isSome = true ↔ ∃ type, (read type).isSome = true
  described : ∀ data, entry = some data → Described data read

theorem EntryMirrors.access {entry : Option CAddressBookData} {read : RecordType → Option String} (mirrors : EntryMirrors entry read) :
    Described (entry.getD {}) read := by
  cases entry with
  | some data => exact mirrors.described data rfl
  | none =>
    have empty : ∀ type, read type = none := fun type =>
      Option.not_isSome_iff_eq_none.mp fun some => Bool.false_ne_true (mirrors.present.mpr ⟨type, some⟩)
    exact ⟨by rw [empty]; rfl, by rw [empty]; rfl, by rw [empty]; rfl, fun strKey => (empty _).symm⟩

theorem EntryMirrors.unique {entry other : Option CAddressBookData} {read : RecordType → Option String} (first : EntryMirrors entry read)
    (second : EntryMirrors other read) : entry = other := by
  cases entry with
  | none =>
    cases other with
    | none => rfl
    | some data => cases first.present.mpr (second.present.mp rfl)
  | some data =>
    cases other with
    | none => cases second.present.mpr (first.present.mp rfl)
    | some data' => rw [(first.described data rfl).unique (second.described data' rfl)]

structure Mirrors (env : Env) (book : FiniteMap CTxDestination CAddressBookData) (read : RecordType × String → Option String) : Prop where
  nothing : book.find .noDestination = none
  entries : ∀ address, address ≠ .noDestination → EntryMirrors (book.find address) fun type => read (type, env.toString address)

variable {book : FiniteMap CTxDestination CAddressBookData}

theorem Mirrors.unique {env : Env} {other : FiniteMap CTxDestination CAddressBookData}
    {read : RecordType × String → Option String} (first : Mirrors env book read) (second : Mirrors env other read) :
    book = other := by
  ext1 address
  by_cases here : address = .noDestination
  · rw [here, first.nothing, second.nothing]
  · exact (first.entries address here).unique (second.entries address here)

/-- The address of a key or a script comes back from its text. -/
def RoundTrip (env : Env) : Prop := ∀ address, address ≠ .noDestination → env.ofString (env.toString address) = address

theorem RoundTrip.inj {env : Env} (roundTrip : RoundTrip env) {address other : CTxDestination} (valid : address ≠ .noDestination)
    (valid' : other ≠ .noDestination) (same : env.toString address = env.toString other) : address = other := by
  rw [← roundTrip address valid, same, roundTrip other valid']

theorem Described.load {data : CAddressBookData} {read : RecordType → Option String} (described : Described data read)
    {type : RecordType} (fresh : read type = none) (value : String) :
    Described (load data type value) (Function.update read type (some value)) := by
  obtain ⟨name, pubkeyhex, purpose, destdata⟩ := described
  cases type with
  | name => exact ⟨by simp [AddressBook.load], by simpa [AddressBook.load], by simpa [AddressBook.load], by simpa [AddressBook.load]⟩
  | pubkeyhex => exact ⟨by simpa [AddressBook.load], by simp [AddressBook.load], by simpa [AddressBook.load], by simpa [AddressBook.load]⟩
  | purpose => exact ⟨by simpa [AddressBook.load], by simpa [AddressBook.load], by simp [AddressBook.load], by simpa [AddressBook.load]⟩
  | destdata strKey =>
    refine ⟨by simpa [AddressBook.load], by simpa [AddressBook.load], by simpa [AddressBook.load], fun other => ?_⟩
    rw [AddressBook.load]
    change (data.destdata.insertNew strKey value).find other = _
    rw [insertNew_absent ((destdata strKey).trans fresh), find_put, Function.update_apply]
    by_cases here : other = strKey
    · rw [if_pos here, if_pos (congrArg RecordType.destdata here)]
    · rw [if_neg here, if_neg fun same => here (RecordType.destdata.inj same), destdata]

def Addressed (env : Env) (records : FiniteMap (RecordType × String) String) : Prop :=
  ∀ key ∈ records.keys, ∃ address, address ≠ .noDestination ∧ env.toString address = key.2

variable {env : Env} {records : FiniteMap (RecordType × String) String}

theorem Mirrors.readKeyValue {read : RecordType × String → Option String} (mirrors : Mirrors env book read)
    (roundTrip : RoundTrip env) {key : RecordType × String} (fresh : read key = none)
    (addressed : ∃ address, address ≠ .noDestination ∧ env.toString address = key.2) {value : String}
    (found : records.find key = some value) :
    Mirrors env (readKeyValue env records book key) (Function.update read key (some value)) := by
  obtain ⟨type, strAddress⟩ := key
  obtain ⟨address, valid, rfl⟩ := addressed
  have same : AddressBook.readKeyValue env records book (type, env.toString address) =
      book.put address (AddressBook.load (access book address) type value) := by
    rw [AddressBook.readKeyValue, found]
    change book.put (env.ofString (env.toString address)) _ = _
    rw [roundTrip address valid]
  rw [same]
  refine ⟨(find_put_ne valid.symm).trans mirrors.nothing, fun other valid' => ?_⟩
  by_cases here : other = address
  · subst here
    have reads : (fun type' => Function.update read (type, env.toString other) (some value) (type', env.toString other)) =
        Function.update (fun type' => read (type', env.toString other)) type (some value) := by
      funext type'
      simp only [Function.update_apply, Prod.mk.injEq, and_true]
    rw [reads, find_put_self]
    refine ⟨iff_of_true rfl ⟨type, by rw [Function.update_self]; rfl⟩, fun data same => ?_⟩
    obtain rfl := Option.some.inj same
    exact (mirrors.entries other valid').access.load fresh value
  · have reads : (fun type' => Function.update read (type, env.toString address) (some value) (type', env.toString other)) =
        fun type' => read (type', env.toString other) := by
      funext type'
      rw [Function.update_of_ne]
      exact fun same => here (roundTrip.inj valid' valid (Prod.mk.inj same).2)
    rw [reads, find_put_ne here]
    exact mirrors.entries other valid'

theorem Mirrors.foldl {read : RecordType × String → Option String} (mirrors : Mirrors env book read)
    (roundTrip : RoundTrip env) (addressed : Addressed env records) {order : List (RecordType × String)}
    (distinct : order.Nodup) (fresh : ∀ key ∈ order, read key = none) (listed : ∀ key ∈ order, key ∈ records.keys) :
    Mirrors env (order.foldl (AddressBook.readKeyValue env records) book) fun key => if key ∈ order then records.find key else read key := by
  induction order generalizing book read with
  | nil => exact mirrors
  | cons key order ih =>
    obtain ⟨absent, rest⟩ := nodup_cons.mp distinct
    have member := listed key mem_cons_self
    obtain ⟨value, found⟩ := find_of_mem member
    have step := mirrors.readKeyValue roundTrip (fresh key mem_cons_self) (addressed key member) found
    have later := ih step rest (fun other inside => ?_) (forall_mem_cons.mp listed).2
    · have reads : (fun other => if other ∈ key :: order then records.find other else read other) =
          fun other => if other ∈ order then records.find other else Function.update read key (some value) other := by
        funext other
        rw [Function.update_apply]
        by_cases here : other = key
        · rw [here, if_pos mem_cons_self, if_neg absent, if_pos rfl, found]
        · simp only [mem_cons, here, false_or, if_false]
      rw [reads]
      exact later
    · have different : other ≠ key := by
        rintro rfl
        exact absent inside
      rw [Function.update_of_ne different]
      exact fresh other (mem_cons_of_mem _ inside)

theorem mirrors_empty : Mirrors env .empty fun _ => none where
  nothing := rfl
  entries _ _ := ⟨iff_of_false Bool.false_ne_true fun some => Bool.false_ne_true some.choose_spec,
    nofun⟩

theorem mirrors_rebuild (roundTrip : RoundTrip env) (addressed : Addressed env records) {order : List (RecordType × String)}
    (distinct : order.Nodup) (complete : ∀ key, key ∈ order ↔ key ∈ records.keys) :
    Mirrors env (rebuild env records order) records.find := by
  have folded := mirrors_empty.foldl roundTrip addressed distinct (fun _ _ => rfl) fun key member => (complete key).mp member
  have reads : (fun key => if key ∈ order then records.find key else none) = records.find := by
    funext key
    split
    · rfl
    · next absent => exact (find_eq_none.mpr fun member => absent ((complete key).mpr member)).symm
  rwa [reads] at folded

/-- The address book that is rebuilt from the records, in any order, is the one in memory. -/
def Matches (env : Env) (store : Store) : Prop :=
  ∀ order : List (RecordType × String), order.Nodup → (∀ key, key ∈ order ↔ key ∈ store.records.keys) →
    rebuild env store.records order = store.mapAddressBook

theorem matches_iff (roundTrip : RoundTrip env) {store : Store} (addressed : Addressed env store.records) :
    Matches env store ↔ Mirrors env store.mapAddressBook store.records.find := by
  constructor
  · intro all
    have same := all store.records.keys.toList (Finset.nodup_toList _) fun key => Finset.mem_toList
    rw [← same]
    exact mirrors_rebuild roundTrip addressed (Finset.nodup_toList _) fun key => Finset.mem_toList
  · intro mirrors order distinct complete
    exact (mirrors_rebuild roundTrip addressed distinct complete).unique mirrors

/-- An event leaves the memory and the disk with the same entry of its address: a public key that the wallet knows is written with
its hex, data is not written anew with another value, and data is not erased from an address without other records. -/
def Faithful (env : Env) (store : Store) : BookEvent → Prop
  | .setAddressBook getPubKey address _ pubKeyHex _ =>
    pubKeyHex = "" → ∀ payToPubKey, getPubKey address.getKeyID = some payToPubKey → hexStr payToPubKey = ""
  | .delAddressBook _ => True
  | .addDestData dest key value => ∀ before, store.records.find (.destdata key, env.toString dest) = some before → before = value
  | .eraseDestData dest key => ∃ type, type ≠ .destdata key ∧ (store.records.find (type, env.toString dest)).isSome = true

section Event

variable {store : Store}

variable {event : BookEvent}

theorem records_next (valid : event.address ≠ .noDestination) {key : RecordType × String}
    (elsewhere : key.2 ≠ env.toString event.address) : (store.next env event).records.find key = store.records.find key := by
  have away : ∀ type, key ≠ (type, env.toString event.address) := fun type same => elsewhere (congrArg Prod.snd same)
  cases event with
  | setAddressBook getPubKey address strName pubKeyHex strPurpose =>
    change ∀ type, key ≠ (type, env.toString address) at away
    change (put _ _ _).find _ = _
    rw [find_put_ne (away .name)]
    split
    · rw [find_put_ne (away .purpose)]
      split
      · exact find_put_ne (away .pubkeyhex)
      · rfl
    · split
      · exact find_put_ne (away .pubkeyhex)
      · rfl
  | delAddressBook address =>
    change ∀ type, key ≠ (type, env.toString address) at away
    change (((eraseAll _ _).erase _).erase _ |>.erase _).find _ = _
    rw [find_erase_ne (away .name), find_erase_ne (away .pubkeyhex), find_erase_ne (away .purpose),
      find_eraseAll, if_neg]
    intro member
    obtain ⟨strKey, -, same⟩ := Finset.mem_image.mp member
    exact away (.destdata strKey) same.symm
  | addDestData dest strKey value =>
    have given : dest ≠ .noDestination := valid
    rw [Store.next, addDestData, if_neg given]
    exact find_put_ne (away (.destdata strKey))
  | eraseDestData dest strKey =>
    rw [Store.next, eraseDestData]
    split
    · exact find_erase_ne (away (.destdata strKey))
    · rfl

theorem entries_next {other : CTxDestination} (different : other ≠ event.address) :
    (store.next env event).mapAddressBook.find other = store.mapAddressBook.find other := by
  cases event with
  | setAddressBook getPubKey address strName pubKeyHex strPurpose => exact find_put_ne different
  | delAddressBook address => exact find_erase_ne different
  | addDestData dest key value =>
    rw [Store.next, addDestData]
    split
    · rfl
    · exact find_put_ne different
  | eraseDestData dest key =>
    rw [Store.next, eraseDestData]
    split
    · exact find_put_ne different
    · exact find_put_ne different

theorem addressed_next (addressed : Addressed env store.records) (valid : event.address ≠ .noDestination) :
    Addressed env (store.next env event).records := by
  intro key member
  by_cases here : key.2 = env.toString event.address
  · exact ⟨event.address, valid, here.symm⟩
  · refine addressed key ?_
    rw [FiniteMap.mem_keys] at member ⊢
    rwa [records_next valid here] at member

theorem mirrors_next_iff (roundTrip : RoundTrip env) (mirrors : Mirrors env store.mapAddressBook store.records.find)
    (valid : event.address ≠ .noDestination) :
    Mirrors env (store.next env event).mapAddressBook (store.next env event).records.find ↔
      EntryMirrors ((store.next env event).mapAddressBook.find event.address) fun type =>
        (store.next env event).records.find (type, env.toString event.address) := by
  refine ⟨fun after => after.entries event.address valid, fun here => ⟨?_, fun other valid' => ?_⟩⟩
  · rw [entries_next valid.symm, mirrors.nothing]
  · by_cases same : other = event.address
    · rw [same]
      exact here
    · have reads : ∀ type, (store.next env event).records.find (type, env.toString other) = store.records.find (type, env.toString other) :=
        fun type => records_next valid fun text => same (roundTrip.inj valid' valid text)
      rw [entries_next same, funext reads]
      exact mirrors.entries other valid'

variable (mirrors : Mirrors env store.mapAddressBook store.records.find)

include mirrors

variable {address : CTxDestination}

theorem described_access (valid : address ≠ .noDestination) :
    Described (access store.mapAddressBook address) fun type => store.records.find (type, env.toString address) :=
  (mirrors.entries address valid).access

omit mirrors in
theorem records_setAddressBook (env : Env) (store : Store) (getPubKey : Uint160 → Option (List UInt8)) (address : CTxDestination)
    (strName pubKeyHex strPurpose : String) :
    let after := (setAddressBook env getPubKey store address strName pubKeyHex strPurpose).records
    after.find (.name, env.toString address) = some strName ∧
    after.find (.pubkeyhex, env.toString address) =
      (if (pubkeyhexAfter env getPubKey address pubKeyHex (access store.mapAddressBook address).pubkeyhex).2 then some pubKeyHex
      else store.records.find (.pubkeyhex, env.toString address)) ∧
    after.find (.purpose, env.toString address) =
      (if strPurpose ≠ "" then some strPurpose else store.records.find (.purpose, env.toString address)) ∧
    ∀ strKey, after.find (.destdata strKey, env.toString address) = store.records.find (.destdata strKey, env.toString address) := by
  have other : ∀ type type' : RecordType, type ≠ type' → (type, env.toString address) ≠ (type', env.toString address) :=
    fun type type' different same => different (Prod.mk.inj same).1
  rw [setAddressBook]
  refine ⟨find_put_self _ _ _, ?_, ?_, fun strKey => ?_⟩
  · rw [find_put_ne (other _ _ (by decide))]
    split
    · rw [find_put_ne (other _ _ (by decide))]
      split
      · exact find_put_self _ _ _
      · rfl
    · split
      · exact find_put_self _ _ _
      · rfl
  · rw [find_put_ne (other _ _ (by decide))]
    split
    · exact find_put_self _ _ _
    · split
      · exact find_put_ne (other _ _ (by decide))
      · rfl
  · have apart : ∀ type' : RecordType, (∀ strKey, type' ≠ .destdata strKey) →
        (RecordType.destdata strKey, env.toString address) ≠ (type', env.toString address) :=
      fun type' different => other _ _ (different strKey).symm
    rw [find_put_ne (apart .name (by simp only [ne_eq, reduceCtorEq, not_false_eq_true, implies_true]))]
    split
    · rw [find_put_ne (apart .purpose (by simp only [ne_eq, reduceCtorEq, not_false_eq_true, implies_true]))]
      split
      · exact find_put_ne (apart .pubkeyhex (by simp only [ne_eq, reduceCtorEq, not_false_eq_true, implies_true]))
      · rfl
    · split
      · exact find_put_ne (apart .pubkeyhex (by simp only [ne_eq, reduceCtorEq, not_false_eq_true, implies_true]))
      · rfl

omit mirrors in
theorem pubkeyhexAfter_iff (env : Env) (getPubKey : Uint160 → Option (List UInt8)) (address : CTxDestination) (pubKeyHex before : String) :
    ((pubkeyhexAfter env getPubKey address pubKeyHex before).2 = true →
      (pubkeyhexAfter env getPubKey address pubKeyHex before).1 = pubKeyHex) ↔
    (pubKeyHex = "" → ∀ payToPubKey, getPubKey address.getKeyID = some payToPubKey → hexStr payToPubKey = "") := by
  rw [pubkeyhexAfter]
  by_cases given : pubKeyHex = ""
  · rw [if_neg (not_not.mpr given)]
    cases known : getPubKey address.getKeyID with
    | none => exact iff_of_true nofun nofun
    | some payToPubKey =>
      constructor
      · intro written _ key same
        rw [← Option.some.inj same]
        exact (written rfl).trans given
      · exact fun empty _ => (empty given payToPubKey rfl).trans given.symm
  · rw [if_pos given]
    refine iff_of_true (fun written => ?_) fun empty => absurd empty given
    split
    · rfl
    · next different =>
      rw [if_neg different] at written
      cases written

omit mirrors in
theorem pubkeyhexAfter_kept {getPubKey : Uint160 → Option (List UInt8)} {pubKeyHex before : String}
    (unwritten : (pubkeyhexAfter env getPubKey address pubKeyHex before).2 = false) :
    (pubkeyhexAfter env getPubKey address pubKeyHex before).1 = before := by
  rw [pubkeyhexAfter] at unwritten ⊢
  by_cases given : pubKeyHex ≠ ""
  · rw [if_pos given] at unwritten ⊢
    split at unwritten
    · cases unwritten
    · next different => rw [if_neg different]
  · rw [if_neg given] at unwritten ⊢
    cases known : getPubKey address.getKeyID with
    | none => rfl
    | some payToPubKey =>
      rw [known] at unwritten
      cases unwritten

theorem setAddressBook_iff {getPubKey : Uint160 → Option (List UInt8)} (valid : address ≠ .noDestination)
    (strName pubKeyHex strPurpose : String) :
    let after := setAddressBook env getPubKey store address strName pubKeyHex strPurpose
    EntryMirrors (after.mapAddressBook.find address) (fun type => after.records.find (type, env.toString address)) ↔
      Faithful env store (.setAddressBook getPubKey address strName pubKeyHex strPurpose) := by
  intro after
  have before := described_access mirrors valid
  have entry : after.mapAddressBook.find address = some { access store.mapAddressBook address with
      name := strName
      pubkeyhex := (pubkeyhexAfter env getPubKey address pubKeyHex (access store.mapAddressBook address).pubkeyhex).1
      purpose := if strPurpose ≠ "" then strPurpose else (access store.mapAddressBook address).purpose } := find_put_self _ _ _
  obtain ⟨name, pubkeyhex, purpose, destdata⟩ := records_setAddressBook env store getPubKey address strName pubKeyHex strPurpose
  rw [entry]
  refine Iff.trans ⟨fun all written => ?_, fun written => ⟨iff_of_true rfl ⟨.name, ?_⟩, fun data same => ?_⟩⟩
    (pubkeyhexAfter_iff env getPubKey address pubKeyHex (access store.mapAddressBook address).pubkeyhex)
  · have described := (all.described _ rfl).pubkeyhex
    dsimp only at described
    rw [pubkeyhex, if_pos written] at described
    exact described
  · rw [name]
    rfl
  · obtain rfl := Option.some.inj same
    refine ⟨?_, ?_, ?_, fun strKey => (before.destdata strKey).trans (destdata strKey).symm⟩
    · dsimp only
      rw [name]
      rfl
    · dsimp only
      rw [pubkeyhex]
      split
      · next yes => exact written yes
      · next no => exact (pubkeyhexAfter_kept (Bool.not_eq_true _ ▸ no)).trans before.pubkeyhex
    · dsimp only
      rw [purpose]
      split
      · rfl
      · exact before.purpose

theorem delAddressBook_mirrors (valid : address ≠ .noDestination) :
    EntryMirrors ((delAddressBook env store address).mapAddressBook.find address) fun type =>
      (delAddressBook env store address).records.find (type, env.toString address) := by
  have before := described_access mirrors valid
  have gone : ∀ type, (delAddressBook env store address).records.find (type, env.toString address) = none := by
    intro type
    change (((eraseAll _ _).erase _).erase _ |>.erase _).find _ = _
    simp only [find_erase, find_eraseAll, Prod.mk.injEq, and_true]
    cases type with
    | name => rfl
    | pubkeyhex => rfl
    | purpose => rfl
    | destdata strKey =>
      simp only [reduceCtorEq, if_false, Finset.mem_image, Prod.mk.injEq, RecordType.destdata.injEq, and_true, exists_eq_right]
      split
      · rfl
      · next absent => rw [← before.destdata strKey, find_eq_none.mpr absent]
  have entry : (delAddressBook env store address).mapAddressBook.find address = none := find_erase_self _ _
  rw [entry]
  refine ⟨iff_of_false Bool.false_ne_true ?_, nofun⟩
  rintro ⟨type, some⟩
  rw [gone] at some
  exact Bool.false_ne_true some

theorem addDestData_iff {dest : CTxDestination} (valid : dest ≠ .noDestination) (key value : String) :
    let after := (addDestData env store dest key value).1
    EntryMirrors (after.mapAddressBook.find dest) (fun type => after.records.find (type, env.toString dest)) ↔
      Faithful env store (.addDestData dest key value) := by
  intro after
  have before := described_access mirrors valid
  have runs : after = ⟨store.mapAddressBook.put dest { access store.mapAddressBook dest with
      destdata := (access store.mapAddressBook dest).destdata.insertNew key value },
      store.records.put (.destdata key, env.toString dest) value⟩ := by
    change (addDestData env store dest key value).1 = _
    rw [addDestData, if_neg valid]
  have entry := congrArg (fun store => mapAddressBook store |>.find dest) runs
  dsimp only at entry
  rw [find_put_self] at entry
  have reads : ∀ type, after.records.find (type, env.toString dest) =
      if type = .destdata key then some value else store.records.find (type, env.toString dest) := by
    intro type
    rw [runs, find_put]
    simp only [Prod.mk.injEq, and_true]
  rw [entry, funext reads]
  constructor
  · intro all known found
    have described := (all.described _ rfl).destdata key
    dsimp only at described
    have present : (access store.mapAddressBook dest).destdata.find key = some known := (before.destdata key).trans found
    rw [if_pos rfl, insertNew, present] at described
    exact Option.some.inj (present.symm.trans described)
  · intro same
    refine ⟨iff_of_true rfl ⟨.destdata key, by rw [if_pos rfl]; rfl⟩, fun data is => ?_⟩
    obtain rfl := Option.some.inj is
    refine ⟨?_, ?_, ?_, fun strKey => ?_⟩
    · rw [if_neg (by simp)]
      exact before.name
    · rw [if_neg (by simp)]
      exact before.pubkeyhex
    · rw [if_neg (by simp)]
      exact before.purpose
    · change ((access store.mapAddressBook dest).destdata.insertNew key value).find strKey = _
      rw [insertNew]
      cases known : (access store.mapAddressBook dest).destdata.find key with
      | none =>
        simp only [Option.isSome_none, Bool.false_eq_true, if_false, find_put, RecordType.destdata.injEq]
        split
        · rfl
        · exact before.destdata strKey
      | some old =>
        simp only [Option.isSome_some, if_true, RecordType.destdata.injEq]
        split
        · next here =>
          have equal := same old ((before.destdata key).symm.trans known)
          rw [here, known, equal]
        · exact before.destdata strKey

theorem eraseDestData_iff {dest : CTxDestination} (valid : dest ≠ .noDestination) (key : String) :
    let after := (eraseDestData env store dest key).1
    EntryMirrors (after.mapAddressBook.find dest) (fun type => after.records.find (type, env.toString dest)) ↔
      Faithful env store (.eraseDestData dest key) := by
  intro after
  have before := described_access mirrors valid
  have runs : after.mapAddressBook.find dest = some { access store.mapAddressBook dest with
      destdata := (access store.mapAddressBook dest).destdata.erase key } ∧
      ∀ type, after.records.find (type, env.toString dest) =
        if type = .destdata key then none else store.records.find (type, env.toString dest) := by
    have known := before.destdata key
    change (eraseDestData env store dest key).1.mapAddressBook.find dest = _ ∧
      ∀ type, (eraseDestData env store dest key).1.records.find _ = _
    rw [eraseDestData]
    cases found : (access store.mapAddressBook dest).destdata.find key with
    | none =>
      rw [found] at known
      rw [Option.isSome_none, if_neg Bool.false_ne_true]
      refine ⟨?_, fun type => ?_⟩
      · have same : (access store.mapAddressBook dest).destdata.erase key = (access store.mapAddressBook dest).destdata := by
          ext1 strKey
          rw [find_erase]
          split
          · next here => rw [here, found]
          · rfl
        rw [same]
        exact find_put_self _ _ _
      · split
        · next here => rw [here, ← known]
        · rfl
    | some old =>
      rw [Option.isSome_some, if_pos rfl]
      refine ⟨find_put_self _ _ _, fun type => ?_⟩
      rw [find_erase]
      simp only [Prod.mk.injEq, and_true]
  rw [runs.1, funext runs.2]
  constructor
  · intro all
    obtain ⟨type, some⟩ := all.present.mp rfl
    split at some
    · cases some
    · next different => exact ⟨type, different, some⟩
  · rintro ⟨type, different, some⟩
    refine ⟨iff_of_true rfl ⟨type, by rw [if_neg different]; exact some⟩, fun data is => ?_⟩
    obtain rfl := Option.some.inj is
    refine ⟨?_, ?_, ?_, fun strKey => ?_⟩
    · rw [if_neg (by simp)]
      exact before.name
    · rw [if_neg (by simp)]
      exact before.pubkeyhex
    · rw [if_neg (by simp)]
      exact before.purpose
    · simp only [find_erase, RecordType.destdata.injEq]
      split
      · rfl
      · exact before.destdata strKey

theorem faithful_iff (roundTrip : RoundTrip env) (valid : event.address ≠ .noDestination) :
    Mirrors env (store.next env event).mapAddressBook (store.next env event).records.find ↔ Faithful env store event := by
  refine (mirrors_next_iff roundTrip mirrors valid).trans ?_
  cases event with
  | setAddressBook getPubKey address strName pubKeyHex strPurpose => exact setAddressBook_iff mirrors valid strName pubKeyHex strPurpose
  | delAddressBook address => exact iff_of_true (delAddressBook_mirrors mirrors valid) trivial
  | addDestData dest key value => exact addDestData_iff mirrors valid key value
  | eraseDestData dest key => exact eraseDestData_iff mirrors valid key

end Event

def runEvents (env : Env) (events : List BookEvent) : Store := events.foldl (Store.next env) {}

theorem runEvents_concat (env : Env) (events : List BookEvent) (event : BookEvent) :
    runEvents env (events ++ [event]) = (runEvents env events).next env event := foldl_concat ..

theorem addressed_runEvents {events : List BookEvent} (valid : ∀ event ∈ events, event.address ≠ .noDestination) :
    Addressed env (runEvents env events).records := by
  induction events using reverseRecOn with
  | nil => exact fun key none => absurd none (Finset.notMem_empty key)
  | append_singleton events event ih =>
    rw [runEvents_concat]
    exact addressed_next (ih (forall_mem_append.mp valid).1)
      (valid event (mem_append_right _ (mem_singleton_self event)))

/-- All along a run the address book is the one that is rebuilt from the disk just when every event is faithful. -/
theorem rebuilt_iff (roundTrip : RoundTrip env) {events : List BookEvent} (valid : ∀ event ∈ events, event.address ≠ .noDestination) :
    (∀ before, before <+: events → Matches env (runEvents env before)) ↔
      ∀ before event, before ++ [event] <+: events → Faithful env (runEvents env before) event := by
  have valid' : ∀ {before : List BookEvent}, before <+: events → ∀ event ∈ before, event.address ≠ .noDestination :=
    fun part event member => valid event (part.subset member)
  have matches' : ∀ {before : List BookEvent}, before <+: events →
      (Matches env (runEvents env before) ↔ Mirrors env (runEvents env before).mapAddressBook (runEvents env before).records.find) :=
    fun part => matches_iff roundTrip (addressed_runEvents (valid' part))
  constructor
  · intro all before event part
    have earlier := (prefix_append before [event]).trans part
    have after := (matches' part).mp (all _ part)
    rw [runEvents_concat] at after
    exact (faithful_iff ((matches' earlier).mp (all before earlier)) roundTrip
      (valid' part event (mem_append_right _ (mem_singleton_self event)))).mp after
  · intro all before
    induction before using reverseRecOn with
    | nil => exact fun part => (matches' part).mpr mirrors_empty
    | append_singleton before event ih =>
      intro part
      have earlier := (prefix_append before [event]).trans part
      refine (matches' part).mpr ?_
      rw [runEvents_concat]
      exact (faithful_iff ((matches' earlier).mp (ih earlier)) roundTrip
        (valid' part event (mem_append_right _ (mem_singleton_self event)))).mpr (all before event part)

def ofBytes (bytes : List UInt8) : String := String.ofList (bytes.map fun byte => Char.ofNat byte.toNat)

def toBytes (text : String) : List UInt8 := text.toList.map fun char => UInt8.ofNat char.toNat

theorem byte_of_char (byte : UInt8) : UInt8.ofNat (Char.ofNat byte.toNat).toNat = byte := by
  have valid : byte.toNat.isValidChar := .inl (byte.toNat_lt.trans (by decide))
  have back : (Char.ofNat byte.toNat).toNat = byte.toNat := by
    rw [Char.ofNat, dif_pos valid]
    rfl
  rw [back, UInt8.ofNat_toNat]

theorem toBytes_ofBytes (bytes : List UInt8) : toBytes (ofBytes bytes) = bytes := by
  rw [toBytes, ofBytes, String.toList_ofList, map_map]
  exact (map_congr_left fun byte _ => byte_of_char byte).trans (map_id _)

section Address

variable (Hash : List UInt8 → Uint256)

/-- `CBase58Data::ToString` -/
def toText (vch : List UInt8) : String := ((Base58.encodeBase58Check Hash vch).toOption.map ofBytes).getD ""

/-- `CBitcoinAddress`, with the version bytes of the main network. -/
def bitcoinAddress (pubKeyIDOfHex : String → Uint160) : Env where
  toString
    | .noDestination => toText Hash []
    | .keyID id => toText Hash (0 :: littleBytes 20 id.toNat)
    | .scriptID id => toText Hash (5 :: littleBytes 20 id.toNat)
  ofString text :=
    match Base58.decodeStringCheck Hash (toBytes text) with
    | .ok (some (vchVersion :: vchData)) =>
        if vchData.length ≠ 20 then .noDestination
        else if vchVersion = 0 then .keyID (BitVec.ofNat 160 (little vchData))
        else if vchVersion = 5 then .scriptID (BitVec.ofNat 160 (little vchData))
        else .noDestination
    | _ => .noDestination
  pubKeyIDOfHex := pubKeyIDOfHex

variable {Hash}

theorem decode_toText {vch : List UInt8} (short : vch.length ≤ 21) :
    Base58.decodeStringCheck Hash (toBytes (toText Hash vch)) = .ok (some vch) := by
  obtain ⟨s, encoded, decoded⟩ := (Base58.roundTripCheck_iff Hash vch).mpr (by
    have fewer := (takeWhile_sublist (· == 0) (l := vch ++ Base58.checksum Hash vch)).length_le
    rw [length_append, Base58.checksum_length] at fewer
    rw [Base58.leadingZeros]
    omega)
  rw [toText, encoded, Except.toOption, Option.map_some, Option.getD_some, toBytes_ofBytes, decoded]

theorem bitcoinAddress_roundTrip (pubKeyIDOfHex : String → Uint160) : RoundTrip (bitcoinAddress Hash pubKeyIDOfHex) := by
  have data (id : Uint160) : BitVec.ofNat 160 (little (littleBytes 20 id.toNat)) = id := by
    rw [little_littleBytes 20 id.toNat id.isLt, BitVec.ofNat_toNat, BitVec.setWidth_eq]
  intro address valid
  cases address with
  | noDestination => exact absurd rfl valid
  | keyID id => simp [bitcoinAddress, decode_toText, length_littleBytes, data]
  | scriptID id => simp [bitcoinAddress, decode_toText, length_littleBytes, data]

end Address

def sampleEnv : Env := bitcoinAddress (fun _ => 0) fun _ => 1

/-- A key of the wallet gets a name, and no public key is given. -/
def nameOwnKey : BookEvent := .setAddressBook (fun _ => some (2 :: List.replicate 32 1)) (.keyID 1) "mine" "" "receive"

theorem nameOwnKey_unfaithful : ¬ Faithful sampleEnv {} nameOwnKey := by
  intro faithful
  have hex := congrArg String.toList (faithful rfl _ rfl)
  rw [hexStr, String.toList_ofList] at hex
  cases hex

/-- A name with a public key and data, then taken out. -/
def namings : List BookEvent := [.setAddressBook (fun _ => none) (.keyID 1) "a" "02" "send", .addDestData (.keyID 1) "used" "p",
  .delAddressBook (.keyID 1)]

theorem rebuilt_iff_named : (∀ before, before <+: namings → Matches sampleEnv (runEvents sampleEnv before)) ↔
    ∀ before event, before ++ [event] <+: namings → Faithful sampleEnv (runEvents sampleEnv before) event :=
  rebuilt_iff (bitcoinAddress_roundTrip _) (by decide)

/-- After a name for a key of the wallet, the public key in memory is not the one on disk. -/
theorem own_key_lost : ¬ ∀ (env : Env) (events : List BookEvent), RoundTrip env →
    (∀ event ∈ events, event.address ≠ .noDestination) → Matches env (runEvents env events) := by
  intro every
  have valid : ∀ event ∈ [nameOwnKey], event.address ≠ .noDestination := by decide
  have same := every sampleEnv [nameOwnKey] (bitcoinAddress_roundTrip _) valid
  have mirrors := (matches_iff (bitcoinAddress_roundTrip _) (addressed_runEvents valid)).mp same
  exact nameOwnKey_unfaithful ((faithful_iff mirrors_empty (bitcoinAddress_roundTrip _) (by decide)).mp mirrors)

end Longcoin.AddressBook
