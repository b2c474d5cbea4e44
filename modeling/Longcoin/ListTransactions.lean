import Longcoin.Wallet

/-! `listtransactions` (`wallet/rpcwallet.cpp`): the newest entries are collected until enough are there, and a slice of
them is returned. -/

namespace Longcoin.ListTransactions
open Primitives Wallet List Option

/-- What an element of the answer is about. -/
inductive ListedEntry (Dest : Type) where
  | send (wtx : CWalletTx) (s : COutputEntry Dest) (nFee : CAmount)
  | receive (wtx : CWalletTx) (r : COutputEntry Dest)
  | move (acentry : CAccountingEntry)

/-- An element of `wtxOrdered`: one of the pointers is null. -/
structure TxPair where
  pwtx : Option CWalletTx
  pacentry : Option CAccountingEntry

/-- The wallet and the parameters that decide which entries are listed. -/
structure Listing (Dest : Type) where
  node : NodeView
  keys : KeyStore Dest
  wallet : List CWalletTx
  strAccount : String
  filter : IsMineFilter

variable {Dest : Type} [DecidableEq Dest]

def Listing.inAccount (listing : Listing Dest) (account : String) : Bool :=
  listing.strAccount == "*" || account == listing.strAccount

/-- `ListTransactions` with `nMinDepth = 0`. -/
def Listing.listTransactions (listing : Listing Dest) (wtx : CWalletTx) : Option (List (ListedEntry Dest)) :=
  (getAmounts listing.keys listing.wallet listing.filter wtx).map fun amounts =>
    (if (!amounts.listSent.isEmpty || amounts.nFee != 0) && listing.inAccount wtx.strFromAccount then
      amounts.listSent.map fun s => .send wtx s amounts.nFee else []) ++
    (if 0 ≤ getDepthInMainChain listing.node wtx then
      (amounts.listReceived.filter fun r => listing.inAccount (accountOf listing.keys r.destination)).map (.receive wtx) else [])

def Listing.acentryToJSON (listing : Listing Dest) (acentry : CAccountingEntry) : List (ListedEntry Dest) :=
  if listing.inAccount acentry.strAccount then [.move acentry] else []

/-- What one turn of the loop adds; nothing when a sum of amounts throws. -/
def Listing.entries (listing : Listing Dest) (item : TxPair) : Option (List (ListedEntry Dest)) :=
  (item.pwtx.elim (some []) listing.listTransactions).map fun listed =>
    listed ++ item.pacentry.elim [] listing.acentryToJSON

def intOf (size : Int) : Int := (size + 2147483648) % 4294967296 - 2147483648

/-- The sum of two `int`s, unless it overflows. -/
def addInt (a b : Int) : Option Int := if -2147483648 ≤ a + b ∧ a + b < 2147483648 then some (a + b) else none

section Slice

variable {α : Type}

/-- `arrTmp.begin()` advanced, when it stays in the array. -/
def advance (arrTmp : List α) (distance : Int) : Option Nat :=
  if 0 ≤ distance ∧ distance ≤ arrTmp.length then some distance.toNat else none

/-- The loop, from the newest item on; the pieces are what its turns add. -/
def collect (nCount nFrom : Int) : List (List α) → List α → Option (List α)
  | [], ret => some ret
  | piece :: rest, ret => (addInt nCount nFrom).bind fun enough =>
      if enough ≤ intOf (ret ++ piece).length then some (ret ++ piece) else collect nCount nFrom rest (ret ++ piece)

/-- What lies between two iterators, the last first. -/
def cut (arrTmp : List α) (nFrom nCount : Int) : Option (List α) := do
  let first ← advance arrTmp nFrom
  let last ← advance arrTmp (← addInt nFrom nCount)
  if first ≤ last then return ((arrTmp.take last).drop first).reverse else none

/-- What follows the loop. -/
def slice (nCount nFrom : Int) (ret : List α) : Option (List α) := do
  let nFrom := if intOf ret.length < nFrom then intOf ret.length else nFrom
  let sum ← addInt nFrom nCount
  cut ret nFrom (if intOf ret.length < sum then intOf (ret.length - nFrom) else nCount)

end Slice

/-- `wtxOrdered` is walked backwards. The items the loop does not come to are not looked at. -/
def collectItems (listing : Listing Dest) (nCount nFrom : Int) : List TxPair → List (ListedEntry Dest) → Option (List (ListedEntry Dest))
  | [], ret => some ret
  | item :: rest, ret => (listing.entries item).bind fun piece => (addInt nCount nFrom).bind fun enough =>
      if enough ≤ intOf (ret ++ piece).length then some (ret ++ piece) else collectItems listing nCount nFrom rest (ret ++ piece)

/-- Nothing where the call throws or its behaviour is undefined. -/
def listTransactions (listing : Listing Dest) (wtxOrdered : List TxPair) (nCount nFrom : Int) : Option (List (ListedEntry Dest)) :=
  if nCount < 0 ∨ nFrom < 0 then none
  else (collectItems listing nCount nFrom wtxOrdered.reverse []).bind (slice nCount nFrom)

section Slice

variable {α : Type} {ret : List α} {pieces : List (List α)} {count start : Nat}

/-- After some turn of the loop enough is collected. -/
def Reaches (ret : List α) (pieces : List (List α)) (enough : Int) : Prop :=
  ∃ k < pieces.length, enough ≤ intOf (ret ++ (pieces.take (k + 1)).flatten).length

/-- The sum of the parameters is an `int`, and so is the number of all entries, unless enough are collected before or none
are asked for. Without a history the sum is not taken. -/
def Pageable (pieces : List (List α)) (count start : Nat) : Prop :=
  pieces = [] ∨ start + count < 2147483648 ∧ (pieces.flatten.length < 2147483648 ∨ Reaches [] pieces (start + count) ∨
    count = 0 ∧ 0 ≤ intOf pieces.flatten.length)

theorem addInt_ok {a b : Int} (low : 0 ≤ a + b) (high : a + b < 2147483648) : addInt a b = some (a + b) :=
  if_pos ⟨by omega, high⟩

theorem cut_eq {first size : Nat} (inside : first + size ≤ ret.length) (small : first + size < 2147483648) :
    cut ret first size = some ((ret.drop first).take size).reverse := by
  have begins : advance ret first = some first := if_pos (by omega)
  have ends : advance ret ((first : Int) + size) = some (first + size) := if_pos (by omega)
  have sum : addInt (first : Int) size = some ((first : Int) + size) := addInt_ok (by omega) (by omega)
  unfold cut
  simp only [begins, sum, ends, bind_eq_bind, bind_some]
  rw [if_pos (Nat.le_add_right _ _), drop_take, Nat.add_sub_cancel_left]
  rfl

theorem slice_eq {nFrom total : Int} (clamps : (if intOf ret.length < (start : Int) then intOf ret.length else start) = nFrom)
    (sum : addInt nFrom count = some total) :
    slice count start ret = cut ret nFrom (if intOf ret.length < total then intOf (ret.length - nFrom) else count) := by
  unfold slice
  simp only [clamps, sum, bind_eq_bind, bind_some]

/-- Where enough is collected nothing is clamped. -/
theorem slice_enough (small : start + count < 2147483648) (enough : (start : Int) + count ≤ intOf ret.length) :
    slice count start ret = some ((ret.drop start).take count).reverse := by
  have sum : addInt (start : Int) count = some ((start : Int) + count) := addInt_ok (by omega) (by omega)
  have inside : start + count ≤ ret.length := by
    unfold intOf at enough
    omega
  rw [slice_eq (if_neg (by omega)) sum, if_neg (by omega)]
  exact cut_eq inside small

theorem drop_take_min (ret : List α) (count start : Nat) :
    (ret.drop (min start ret.length)).take (min count (ret.length - min start ret.length)) = (ret.drop start).take count := by
  rcases Nat.le_total start ret.length with inside | outside
  · rw [Nat.min_eq_left inside, take_eq_take_iff, length_drop]
    omega
  · rw [Nat.min_eq_right outside, drop_length, drop_of_length_le outside, take_nil, take_nil]

theorem slice_small (small : ret.length < 2147483648) (sums : min start ret.length + count < 2147483648) :
    slice count start ret = some ((ret.drop start).take count).reverse := by
  have size : intOf ret.length = ret.length := by
    unfold intOf
    omega
  have clamps : (if intOf ret.length < (start : Int) then intOf ret.length else start) = ((min start ret.length : Nat) : Int) := by
    rw [size]
    split <;> omega
  have counts : (if intOf ret.length < ((min start ret.length : Nat) : Int) + count then
      intOf (ret.length - ((min start ret.length : Nat) : Int)) else (count : Int)) =
      ((min count (ret.length - min start ret.length) : Nat) : Int) := by
    rw [size]
    unfold intOf
    split <;> omega
  rw [slice_eq clamps (addInt_ok (by omega) (by omega)), counts, cut_eq (by omega) (by omega), drop_take_min]

/-- Where the size of the whole list is no `int` and not enough, the slice is right just when nothing is asked for. -/
theorem slice_long_iff (small : start + count < 2147483648) (long : 2147483648 ≤ ret.length)
    (short : intOf ret.length < (start : Int) + count) :
    slice count start ret = some ((ret.drop start).take count).reverse ↔ count = 0 ∧ 0 ≤ intOf ret.length := by
  have right : ((ret.drop start).take count).reverse.length = count := by
    rw [length_reverse, length_take, length_drop]
    omega
  have low : -2147483648 ≤ intOf ret.length := by
    unfold intOf
    omega
  rcases Int.lt_or_le (intOf ret.length) 0 with negative | positive
  · -- the first iterator is before the array
    have sum : addInt (intOf ret.length) count = some (intOf ret.length + count) := if_pos ⟨by omega, by omega⟩
    have outside : advance ret (intOf ret.length) = none := if_neg (by omega)
    rw [slice_eq (if_pos (by omega)) sum, cut, outside]
    constructor
    · intro same
      cases same
    · rintro ⟨-, positive⟩
      omega
  obtain ⟨size, same⟩ := Int.eq_ofNat_of_zero_le positive
  have fits : size ≤ ret.length := by
    unfold intOf at same
    omega
  rcases Int.lt_or_le (intOf ret.length) start with before | after
  · -- the size is taken for the first position, and nothing is left
    have sum : addInt (intOf ret.length) count = some (intOf ret.length + count) := addInt_ok (by omega) (by omega)
    have nothing : (if intOf ret.length < intOf ret.length + (count : Int) then intOf (ret.length - intOf ret.length) else count) =
        ((0 : Nat) : Int) := by
      split
      · unfold intOf
        omega
      · omega
    rw [slice_eq (if_pos before) sum, nothing, same, cut_eq (by omega) (by omega), take_zero, reverse_nil]
    constructor
    · intro empty
      rw [← some.inj empty] at right
      exact ⟨right.symm, by omega⟩
    · rintro ⟨rfl, -⟩
      rw [take_zero, reverse_nil]
  · -- what is missing in the size is missing in the page
    have sum : addInt (start : Int) count = some ((start : Int) + count) := addInt_ok (by omega) (by omega)
    have fewer : intOf (ret.length - (start : Int)) = ((size - start : Nat) : Int) := by
      rw [same] at after
      unfold intOf at same ⊢
      omega
    rw [slice_eq (if_neg (by omega)) sum, if_pos short, fewer, cut_eq (by omega) (by omega)]
    constructor
    · intro equal
      rw [← some.inj equal, length_reverse, length_take, length_drop] at right
      omega
    · rintro ⟨rfl, -⟩
      omega

theorem collect_cons {nCount nFrom enough : Int} (sum : addInt nCount nFrom = some enough) (piece : List α) (rest : List (List α)) :
    collect nCount nFrom (piece :: rest) ret =
      if enough ≤ intOf (ret ++ piece).length then some (ret ++ piece) else collect nCount nFrom rest (ret ++ piece) := by
  rw [collect, sum, bind_some]

theorem collect_spec (small : start + count < 2147483648) (ret : List α) :
    ∃ last, collect count start pieces ret = some last ∧ last <+: ret ++ pieces.flatten ∧
      (Reaches ret pieces (start + count) ∧ (start : Int) + count ≤ intOf last.length ∨
        ¬ Reaches ret pieces (start + count) ∧ last = ret ++ pieces.flatten) := by
  have sum : addInt (count : Int) start = some ((count : Int) + start) := addInt_ok (by omega) (by omega)
  induction pieces generalizing ret with
  | nil =>
    refine ⟨ret, rfl, ?_, .inr ⟨?_, (append_nil _).symm⟩⟩
    · rw [flatten_nil, append_nil]
    · rintro ⟨k, inside, -⟩
      cases inside
  | cons piece rest ih =>
    have later (k : Nat) : ret ++ ((piece :: rest).take (k + 1)).flatten = ret ++ piece ++ (rest.take k).flatten := by
      rw [take_succ_cons, flatten_cons, append_assoc]
    rw [collect_cons sum]
    by_cases stops : (count : Int) + start ≤ intOf (ret ++ piece).length
    · rw [if_pos stops]
      refine ⟨_, rfl, ?_, .inl ⟨⟨0, Nat.succ_pos _, ?_⟩, by omega⟩⟩
      · rw [flatten_cons, ← append_assoc]
        exact prefix_append _ _
      · rw [later, take_zero, flatten_nil, append_nil]
        omega
    · rw [if_neg stops]
      obtain ⟨last, runs, within, outcome⟩ := ih (ret ++ piece)
      have reaches : Reaches ret (piece :: rest) (start + count) ↔ Reaches (ret ++ piece) rest (start + count) := by
        constructor
        · rintro ⟨k, inside, enough⟩
          rw [later] at enough
          cases k with
          | zero =>
            rw [take_zero, flatten_nil, append_nil, add_comm] at enough
            exact absurd enough stops
          | succ k => exact ⟨k, Nat.lt_of_succ_lt_succ inside, enough⟩
        · rintro ⟨k, inside, enough⟩
          exact ⟨k + 1, Nat.succ_lt_succ inside, (later (k + 1)).symm ▸ enough⟩
      rw [reaches, flatten_cons, ← append_assoc]
      exact ⟨last, runs, within, outcome⟩

/-- Of a list that is enough, any part that is enough gives the same slice. -/
theorem slice_prefix {full : List α} (within : ret <+: full) (enough : start + count ≤ ret.length) :
    (full.drop start).take count = (ret.drop start).take count := by
  obtain ⟨rest, rfl⟩ := within
  rw [drop_append_of_le_length (by omega), take_append_of_le_length (by rw [length_drop]; omega)]

theorem collect_slice_iff (counts : count < 2147483648) :
    ((collect count start pieces []).bind (slice count start)) = some ((pieces.flatten.drop start).take count).reverse ↔
      Pageable pieces count start := by
  cases pieces with
  | nil =>
    have nothing := @slice_small α [] count start (show 0 < 2147483648 by decide)
    rw [length_nil, Nat.min_zero, Nat.zero_add] at nothing
    refine iff_of_true ?_ (.inl rfl)
    rw [collect, bind_some, flatten_nil]
    exact nothing counts
  | cons piece rest =>
    rcases Nat.lt_or_ge (start + count) 2147483648 with small | large
    · obtain ⟨last, runs, within, outcome⟩ := @collect_spec α (piece :: rest) count start small []
      rw [nil_append] at within outcome
      obtain ⟨reaches, enough⟩ | ⟨not, rfl⟩ := outcome
      · refine iff_of_true ?_ (.inr ⟨small, .inr (.inl reaches)⟩)
        have inside : start + count ≤ last.length := by
          unfold intOf at enough
          omega
        rw [runs, bind_some, slice_enough small enough, slice_prefix within inside]
      · rw [runs, bind_some]
        rcases Nat.lt_or_ge (piece :: rest).flatten.length 2147483648 with short | long
        · exact iff_of_true (slice_small short (by omega)) (.inr ⟨small, .inl short⟩)
        · have less : intOf (piece :: rest).flatten.length < (start : Int) + count := by
            apply Int.lt_of_not_ge
            intro enough
            apply not
            have whole : (piece :: rest).take (rest.length + 1) = piece :: rest := take_of_length_le (Nat.le_refl _)
            exact ⟨rest.length, Nat.lt_succ_self _, by rwa [whole, nil_append]⟩
          rw [slice_long_iff small long less]
          constructor
          · exact fun nothing => .inr ⟨small, .inr (.inr nothing)⟩
          · rintro (empty | ⟨-, short | reaches | nothing⟩)
            · cases empty
            · omega
            · exact absurd reaches not
            · exact nothing
    · have overflows : addInt (count : Int) start = none := if_neg (by omega)
      refine iff_of_false ?_ ?_
      · rw [collect, overflows]
        intro same
        cases same
      · rintro (empty | ⟨small, -⟩)
        · cases empty
        · omega

end Slice

variable {listing : Listing Dest}

theorem collectItems_eq {items : List TxPair} {pieces : List (List (ListedEntry Dest))} (lists : items.mapM listing.entries = some pieces)
    (nCount nFrom : Int) (ret : List (ListedEntry Dest)) :
    collectItems listing nCount nFrom items ret = collect nCount nFrom pieces ret := by
  induction items generalizing pieces ret with
  | nil =>
    obtain rfl := some.inj lists
    rfl
  | cons item rest ih =>
    rw [mapM_cons] at lists
    obtain ⟨piece, first, lists⟩ := bind_eq_some_iff.mp lists
    obtain ⟨others, later, lists⟩ := bind_eq_some_iff.mp lists
    obtain rfl := some.inj lists
    rw [collectItems, first, bind_some, collect]
    cases addInt nCount nFrom with
    | none => rw [bind_none, bind_none]
    | some enough => rw [bind_some, bind_some, ih later]

theorem listTransactions_iff {wtxOrdered : List TxPair} {pieces : List (List (ListedEntry Dest))} {count start : Nat}
    (lists : wtxOrdered.reverse.mapM listing.entries = some pieces) (counts : count < 2147483648) :
    listTransactions listing wtxOrdered count start = some ((pieces.flatten.drop start).take count).reverse ↔
      Pageable pieces count start := by
  rw [listTransactions, if_neg (by omega), collectItems_eq lists]
  exact collect_slice_iff counts

/-- A page is the slice it should be just when it is `Pageable`, and pages that are make up the list from its newest entry on. -/
theorem pages_iff {wtxOrdered : List TxPair} {pieces : List (List (ListedEntry Dest))}
    (lists : wtxOrdered.reverse.mapM listing.entries = some pieces) : (∀ count < 2147483648, ∀ start < 2147483648,
      (listTransactions listing wtxOrdered (count : Nat) (start : Nat) = some ((pieces.flatten.drop start).take count).reverse ↔
        Pageable pieces count start)) ∧
    ∀ count < 2147483648, ∀ pages, (∀ page < pages, Pageable pieces count (page * count)) →
      ((range pages).mapM fun page => (listTransactions listing wtxOrdered (count : Nat) ((page * count : Nat) : Int)).map reverse).map
        flatten = some (pieces.flatten.take (pages * count)) := by
  refine ⟨fun count counts start _ => listTransactions_iff lists counts, fun count counts pages right => ?_⟩
  induction pages with
  | zero => simp
  | succ pages ih =>
    have last := (listTransactions_iff lists counts).mpr (right pages (Nat.lt_succ_self _))
    obtain ⟨before, runs, joined⟩ := map_eq_some_iff.mp (ih fun page below => right page (Nat.lt_succ_of_lt below))
    rw [range_succ, mapM_append, runs, mapM_cons, last]
    simp only [Option.map_some, List.mapM_nil, Option.pure_def, Option.bind_eq_bind, Option.bind_some, List.reverse_reverse]
    rw [List.flatten_append, joined, List.flatten_singleton, Nat.succ_mul, List.take_add]

def sampleListing : Listing Nat where
  node := { nHeight := 0, heightOf := fun _ => none, adjustedTime := 0, inMempool := fun _ => false, bSpendZeroConfChange := true }
  keys := { isMine := fun _ => .no, destination := fun _ => none, mapAddressBook := [] }
  wallet := []
  strAccount := "*"
  filter := ISMINE_SPENDABLE

/-- A history of three moves between accounts. -/
def sampleHistory : List TxPair := [⟨none, some ⟨"", 5⟩⟩, ⟨none, some ⟨"", 6⟩⟩, ⟨none, some ⟨"", 7⟩⟩]

def sampleListed : List (List (ListedEntry Nat)) := [[.move ⟨"", 7⟩], [.move ⟨"", 6⟩], [.move ⟨"", 5⟩]]

theorem sampleHistory_listed : sampleHistory.reverse.mapM sampleListing.entries = some sampleListed := rfl

theorem sample_page : listTransactions sampleListing sampleHistory 1 1 = some [.move ⟨"", 6⟩] :=
  ((pages_iff sampleHistory_listed).1 1 (by decide) 1 (by decide)).mpr (.inr ⟨by decide, .inl (by decide)⟩)

/-- A page of the greatest size after the newest entry: the sum of the parameters overflows. -/
theorem page_overflows : listTransactions sampleListing sampleHistory 2147483647 1 ≠
    some ((sampleListed.flatten.drop 1).take 2147483647).reverse := by
  have overflows : listTransactions sampleListing sampleHistory 2147483647 1 = none := rfl
  rw [overflows]
  intro same
  cases same

end Longcoin.ListTransactions
