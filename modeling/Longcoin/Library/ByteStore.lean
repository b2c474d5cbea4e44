import Longcoin.Library.Bytes
import Mathlib.Data.List.TakeWhile

/-! Stores that list their entries in the bytewise order of the keys, and scans of such a store from a key on. -/

namespace Longcoin.Library.ByteStore
open Bytes List Bool

/-- Whether a key comes before another one; a key comes before its extensions. -/
def before : List UInt8 → List UInt8 → Bool
  | _, [] => false
  | [], _ :: _ => true
  | byte :: rest, byte' :: rest' => decide (byte < byte') || (byte == byte' && before rest rest')

theorem before_cons {byte byte' : UInt8} {rest rest' : List UInt8} :
    before (byte :: rest) (byte' :: rest') = true ↔ byte < byte' ∨ byte = byte' ∧ before rest rest' = true := by
  rw [before, or_eq_true, decide_eq_true_eq, and_eq_true, beq_iff_eq]

theorem before_irrefl (key : List UInt8) : before key key = false := by
  induction key with
  | nil => rfl
  | cons byte rest ih =>
    rw [before, ih, Bool.and_false, Bool.or_false, decide_eq_false_iff_not]
    exact UInt8.lt_irrefl byte

theorem before_trans {first second third : List UInt8} (one : before first second = true)
    (two : before second third = true) : before first third = true := by
  induction first generalizing second third with
  | nil =>
    cases third with
    | nil => cases second <;> cases two
    | cons => rfl
  | cons byte rest ih =>
    cases second with
    | nil => cases one
    | cons byte' rest' =>
      cases third with
      | nil => cases two
      | cons byte'' rest'' =>
        rw [before_cons] at one two ⊢
        rcases one with less | ⟨rfl, one⟩
        · rcases two with less' | ⟨rfl, -⟩
          · exact .inl (UInt8.lt_trans less less')
          · exact .inl less
        · rcases two with less' | ⟨rfl, two⟩
          · exact .inl less'
          · exact .inr ⟨rfl, ih one two⟩

theorem before_asymm {first second : List UInt8} (less : before first second = true) : before second first = false := by
  cases more : before second first with
  | false => rfl
  | true =>
    have circle := before_trans less more
    rw [before_irrefl] at circle
    cases circle

theorem before_total {first second : List UInt8} (different : first ≠ second) :
    before first second = true ∨ before second first = true := by
  induction first generalizing second with
  | nil =>
    cases second with
    | nil => exact absurd rfl different
    | cons => exact .inl rfl
  | cons byte rest ih =>
    cases second with
    | nil => exact .inr rfl
    | cons byte' rest' =>
      rw [before_cons, before_cons]
      rcases Std.lt_trichotomy byte byte' with less | rfl | more
      · exact .inl (.inl less)
      · have rests : rest ≠ rest' := fun same => different (by rw [same])
        exact (ih rests).imp (fun less => .inr ⟨rfl, less⟩) fun more => .inr ⟨rfl, more⟩
      · exact .inr (.inl more)

theorem before_append {front front' : List UInt8} (rest rest' : List UInt8) (length : front.length = front'.length) :
    before (front ++ rest) (front' ++ rest') = true ↔
      before front front' = true ∨ front = front' ∧ before rest rest' = true := by
  induction front generalizing front' with
  | nil =>
    cases front' with
    | nil => simp [before]
    | cons => cases length
  | cons byte front ih =>
    cases front' with
    | nil => cases length
    | cons byte' front' =>
      rw [cons_append, cons_append, before_cons, before_cons, ih (Nat.succ.inj length)]
      constructor
      · rintro (less | ⟨rfl, less | ⟨rfl, later⟩⟩)
        · exact .inl (.inl less)
        · exact .inl (.inr ⟨rfl, less⟩)
        · exact .inr ⟨rfl, later⟩
      · rintro ((less | ⟨rfl, less⟩) | ⟨same, later⟩)
        · exact .inl less
        · exact .inr ⟨rfl, .inl less⟩
        · obtain ⟨rfl, rfl⟩ := cons.inj same
          exact .inr ⟨rfl, .inr ⟨rfl, later⟩⟩

variable {key : List UInt8}

theorem prefix_of_between {front rest : List UInt8} (above : before key front = false)
    (below : before (front ++ rest) key = false) : ∃ rest', key = front ++ rest' := by
  induction front generalizing key with
  | nil => exact ⟨key, rfl⟩
  | cons byte front ih =>
    cases key with
    | nil => cases above
    | cons byte' key =>
      rw [cons_append, before, or_eq_false_iff, decide_eq_false_iff_not] at below
      rw [before, or_eq_false_iff, decide_eq_false_iff_not] at above
      have same : byte = byte' := by
        rcases Std.lt_trichotomy byte byte' with less | same | more
        · exact absurd less below.1
        · exact same
        · exact absurd more above.1
      subst same
      rw [beq_self_eq_true byte, Bool.true_and] at above below
      obtain ⟨rest', rfl⟩ := ih above.2 below.2
      exact ⟨rest', rfl⟩

theorem before_extend {front : List UInt8} (rest : List UInt8) (less : before key front = true) :
    before key (front ++ rest) = true := by
  induction key generalizing front with
  | nil =>
    cases front with
    | nil => cases less
    | cons => rfl
  | cons byte key ih =>
    cases front with
    | nil => cases less
    | cons byte' front =>
      rw [before_cons] at less
      rw [cons_append, before_cons]
      exact less.imp_right fun later => ⟨later.1, ih later.2⟩

theorem before_front (front rest rest' : List UInt8) : before (front ++ rest) (front ++ rest') = before rest rest' := by
  induction front with
  | nil => rfl
  | cons byte front ih =>
    rw [List.cons_append, List.cons_append, before, ih, beq_self_eq_true, Bool.true_and,
      decide_eq_false (UInt8.lt_irrefl byte), Bool.false_or]

theorem front_of_between (front : List UInt8) {extra rest : List UInt8} (above : before key (front ++ extra) = false)
    (below : before (front ++ rest) key = false) : ∃ rest', key = front ++ rest' := by
  refine prefix_of_between ?_ below
  cases less : before key front with
  | false => rfl
  | true =>
    rw [before_extend extra less] at above
    cases above

def bigBytes (width number : Nat) : List UInt8 := (littleBytes width number).reverse

def big (bytes : List UInt8) : Nat := little bytes.reverse

@[simp] theorem length_bigBytes (width number : Nat) : (bigBytes width number).length = width := by simp [bigBytes]

theorem big_bigBytes (width number : Nat) (fits : number < 256 ^ width) : big (bigBytes width number) = number := by
  rw [big, bigBytes, reverse_reverse, little_littleBytes width number fits]

theorem bigBytes_inj (width : Nat) {number number' : Nat} (fits : number < 256 ^ width) (fits' : number' < 256 ^ width)
    (same : bigBytes width number = bigBytes width number') : number = number' := by
  rw [← big_bigBytes width number fits, same, big_bigBytes width number' fits']

theorem before_bigBytes (width : Nat) {number number' : Nat} (fits : number < 256 ^ width) (fits' : number' < 256 ^ width) :
    before (bigBytes width number) (bigBytes width number') = true ↔ number < number' := by
  induction width generalizing number number' with
  | zero =>
    rw [Nat.pow_zero] at fits fits'
    have none : number = 0 := by omega
    have none' : number' = 0 := by omega
    rw [none, none', before_irrefl]
    constructor
    · intro less
      cases less
    · exact fun less => absurd less (Nat.lt_irrefl 0)
  | succ width ih =>
    have high : ∀ {n : Nat}, n < 256 ^ (width + 1) → n / 256 < 256 ^ width := fun small => by
      rw [Nat.div_lt_iff_lt_mul (by omega), ← Nat.pow_succ]
      exact small
    have last : ∀ n : Nat, bigBytes (width + 1) n = bigBytes width (n / 256) ++ [UInt8.ofNat n] := fun n => by
      rw [bigBytes, littleBytes, reverse_cons, bigBytes]
    rw [last, last, before_append _ _ (by simp), ih (high fits) (high fits')]
    have low : before [UInt8.ofNat number] [UInt8.ofNat number'] = true ↔ number % 256 < number' % 256 := by
      rw [before_cons, UInt8.lt_iff_toNat_lt, UInt8.toNat_ofNat', UInt8.toNat_ofNat']
      simp [before]
    rw [low]
    constructor
    · rintro (less | ⟨same, less⟩)
      · omega
      · have equal := bigBytes_inj width (high fits) (high fits') same
        omega
    · intro less
      by_cases same : number / 256 = number' / 256
      · exact .inr ⟨by rw [same], by omega⟩
      · exact .inl (by omega)

abbrev Store (V : Type) := List (List UInt8 × V)

variable {V : Type} {db : Store V}

def Ordered (db : Store V) : Prop := db.Pairwise fun entry entry' => before entry.1 entry'.1 = true

def put (key : List UInt8) (value : V) : Store V → Store V
  | [] => [(key, value)]
  | entry :: rest =>
    if before key entry.1 then (key, value) :: entry :: rest
    else if entry.1 = key then (key, value) :: rest
    else entry :: put key value rest

def erase (key : List UInt8) (db : Store V) : Store V := db.filter fun entry => entry.1 != key

def seek (key : List UInt8) (db : Store V) : Store V := db.dropWhile fun entry => before entry.1 key

variable {entry : List UInt8 × V}

theorem mem_put {value : V} (member : entry ∈ put key value db) :
    entry = (key, value) ∨ entry ∈ db := by
  induction db with
  | nil => exact .inl (mem_singleton.mp member)
  | cons first rest ih =>
    rw [put] at member
    split at member
    · rcases mem_cons.mp member with here | there
      · exact .inl here
      · exact .inr there
    · split at member
      · rcases mem_cons.mp member with here | there
        · exact .inl here
        · exact .inr (mem_cons_of_mem _ there)
      · rcases mem_cons.mp member with here | there
        · exact .inr (mem_cons.mpr (.inl here))
        · exact (ih there).imp_right (mem_cons_of_mem _)

theorem mem_put_iff {value : V} (ordered : Ordered db) :
    entry ∈ put key value db ↔ entry = (key, value) ∨ entry ∈ db ∧ entry.1 ≠ key := by
  induction db with
  | nil => simp [put]
  | cons first rest ih =>
    obtain ⟨above, restOrdered⟩ := pairwise_cons.mp ordered
    have apart : ∀ {least : List UInt8}, before least first.1 = true → ∀ other ∈ first :: rest, other.1 ≠ least :=
      fun less other member same => by
        rcases mem_cons.mp member with rfl | later
        · rw [same, before_irrefl] at less
          cases less
        · have more := before_trans less (above other later)
          rw [same, before_irrefl] at more
          cases more
    rw [put]
    split
    next less =>
      rw [mem_cons]
      exact or_congr_right ⟨fun member => ⟨member, apart less entry member⟩, And.left⟩
    next notLess =>
      split
      next same =>
        rw [mem_cons]
        refine or_congr_right ⟨fun member => ⟨mem_cons_of_mem _ member, fun equal => ?_⟩, fun old => ?_⟩
        · have less := above entry member
          rw [equal, same, before_irrefl] at less
          cases less
        · exact (mem_cons.mp old.1).resolve_left fun equal => old.2 (by rw [equal, same])
      next different =>
        rw [mem_cons, ih restOrdered, mem_cons]
        constructor
        · rintro (rfl | fresh | ⟨member, other⟩)
          · exact .inr ⟨.inl rfl, different⟩
          · exact .inl fresh
          · exact .inr ⟨.inr member, other⟩
        · rintro (fresh | ⟨rfl | member, other⟩)
          · exact .inr (.inl fresh)
          · exact .inl rfl
          · exact .inr (.inr ⟨member, other⟩)

theorem put_ordered {value : V} (ordered : Ordered db) : Ordered (put key value db) := by
  induction db with
  | nil => exact pairwise_singleton _ _
  | cons first rest ih =>
    obtain ⟨above, restOrdered⟩ := pairwise_cons.mp ordered
    rw [put]
    split
    next less =>
      refine pairwise_cons.mpr ⟨fun entry member => ?_, ordered⟩
      rcases mem_cons.mp member with rfl | later
      · exact less
      · exact before_trans less (above entry later)
    next notLess =>
      split
      next same => exact pairwise_cons.mpr ⟨fun entry member => same ▸ above entry member, restOrdered⟩
      next different =>
        refine pairwise_cons.mpr ⟨fun entry member => ?_, ih restOrdered⟩
        rcases mem_put member with rfl | later
        · exact (before_total different).resolve_right notLess
        · exact above entry later

theorem erase_ordered (key : List UInt8) (ordered : Ordered db) : Ordered (erase key db) := ordered.filter _

theorem mem_seek (ordered : Ordered db) :
    entry ∈ seek key db ↔ entry ∈ db ∧ before entry.1 key = false := by
  induction db with
  | nil => simp [seek]
  | cons first rest ih =>
    obtain ⟨above, restOrdered⟩ := pairwise_cons.mp ordered
    unfold seek at ih ⊢
    rw [dropWhile_cons]
    split
    next less =>
      rw [ih restOrdered]
      constructor
      · exact fun ⟨member, after⟩ => ⟨mem_cons_of_mem _ member, after⟩
      · rintro ⟨member, after⟩
        rcases mem_cons.mp member with rfl | later
        · rw [less] at after
          cases after
        · exact ⟨later, after⟩
    next notLess =>
      have first' : before first.1 key = false := by simpa using notLess
      constructor
      · intro member
        refine ⟨member, ?_⟩
        rcases mem_cons.mp member with rfl | later
        · exact first'
        · cases less : before entry.1 key with
          | false => rfl
          | true =>
            rw [before_trans (above entry later) less] at first'
            cases first'
      · exact fun both => both.1

theorem mem_takeWhile {continues : List UInt8 × V → Bool} (ordered : Ordered db) :
    entry ∈ db.takeWhile continues ↔ entry ∈ db ∧ ∀ other ∈ db, before entry.1 other.1 = false → continues other = true := by
  induction db with
  | nil => simp
  | cons first rest ih =>
    obtain ⟨above, restOrdered⟩ := pairwise_cons.mp ordered
    rw [takeWhile_cons]
    split
    next goes =>
      rw [mem_cons, mem_cons, ih restOrdered]
      constructor
      · rintro (rfl | ⟨member, all⟩)
        · refine ⟨.inl rfl, fun other there notAfter => ?_⟩
          rcases mem_cons.mp there with rfl | later
          · exact goes
          · rw [above other later] at notAfter
            cases notAfter
        · refine ⟨.inr member, fun other there notAfter => ?_⟩
          rcases mem_cons.mp there with rfl | later
          · exact goes
          · exact all other later notAfter
      · rintro ⟨here | member, all⟩
        · exact .inl here
        · exact .inr ⟨member, (forall_mem_cons.mp all).2⟩
    next stops =>
      constructor
      · intro member
        cases member
      · rintro ⟨member, all⟩
        refine absurd (all first mem_cons_self ?_) stops
        rcases mem_cons.mp member with rfl | later
        · exact before_irrefl _
        · exact before_asymm (above entry later)

theorem entry_of_key (ordered : Ordered db) {entry' : List UInt8 × V} (member : entry ∈ db) (member' : entry' ∈ db)
    (same : entry.1 = entry'.1) : entry = entry' := by
  induction db with
  | nil => cases member
  | cons first rest ih =>
    obtain ⟨above, restOrdered⟩ := pairwise_cons.mp ordered
    rcases mem_cons.mp member with rfl | later
    · rcases mem_cons.mp member' with rfl | later'
      · rfl
      · have less := above entry' later'
        rw [same, before_irrefl] at less
        cases less
    · rcases mem_cons.mp member' with rfl | later'
      · have less := above entry later
        rw [same, before_irrefl] at less
        cases less
      · exact ih restOrdered later later'

theorem eq_of_mem_iff {db' : Store V} (ordered : Ordered db) (ordered' : Ordered db')
    (same : ∀ entry, entry ∈ db ↔ entry ∈ db') : db = db' := by
  have distinct : ∀ {list : Store V}, Ordered list → list.Nodup := fun sorted =>
    sorted.imp fun less equal => by rw [equal, before_irrefl] at less; cases less
  refine Perm.eq_of_pairwise (fun _ _ _ _ less more => ?_) ordered ordered'
    ((perm_ext_iff_of_nodup (distinct ordered) (distinct ordered')).mpr same)
  rw [before_asymm less] at more
  cases more

/-- A scan from `key` on finds exactly the wanted entries if and only if every unwanted one that it would
find is behind an entry that stops it. -/
theorem scan_exact {continues wanted : List UInt8 × V → Bool} (ordered : Ordered db)
    (reached : ∀ entry ∈ db, wanted entry = true → before entry.1 key = false)
    (passed : ∀ entry ∈ db, wanted entry = true → ∀ other ∈ db, before other.1 key = false → before entry.1 other.1 = false → continues other = true) :
    (seek key db).takeWhile continues = db.filter wanted ↔
      ∀ entry ∈ db, before entry.1 key = false → wanted entry = false →
        ∃ other ∈ db, before other.1 key = false ∧ before entry.1 other.1 = false ∧ continues other = false := by
  have sought : Ordered (seek key db) := Pairwise.sublist (dropWhile_sublist _) ordered
  have found : ∀ entry, entry ∈ (seek key db).takeWhile continues ↔ (entry ∈ db ∧ before entry.1 key = false) ∧
      ∀ other ∈ db, before other.1 key = false → before entry.1 other.1 = false → continues other = true := fun entry => by
    rw [mem_takeWhile sought, mem_seek ordered]
    exact and_congr_right fun _ => ⟨fun all other there after => all other ((mem_seek ordered).mpr ⟨there, after⟩),
      fun all other there => all other ((mem_seek ordered).mp there).1 ((mem_seek ordered).mp there).2⟩
  constructor
  · intro same entry member after unwanted
    by_contra nothing
    have there : entry ∈ (seek key db).takeWhile continues := by
      refine (found entry).mpr ⟨⟨member, after⟩, fun other inside above notAfter => ?_⟩
      by_contra stops
      exact nothing ⟨other, inside, above, notAfter, by simpa using stops⟩
    rw [same, mem_filter, unwanted] at there
    cases there.2
  · intro stopped
    refine eq_of_mem_iff (Pairwise.sublist (takeWhile_sublist _) sought) (ordered.filter _) fun entry => ?_
    rw [found, mem_filter]
    constructor
    · rintro ⟨⟨member, after⟩, all⟩
      refine ⟨member, ?_⟩
      by_contra unwanted
      obtain ⟨other, inside, above, notAfter, stops⟩ := stopped entry member after (by simpa using unwanted)
      rw [all other inside above notAfter] at stops
      cases stops
    · rintro ⟨member, want⟩
      exact ⟨⟨member, reached entry member want⟩, passed entry member want⟩

section Coded
variable {α : Type} {decode : List UInt8 × V → Option α}

/-- The records from `key` on, up to the first entry that is none or that `goes` ends at. -/
def scan (decode : List UInt8 × V → Option α) (goes : α → Bool) (key : List UInt8) (db : Store V) : List α :=
  ((seek key db).takeWhile fun entry => (decode entry).any goes).filterMap decode

def records (decode : List UInt8 × V → Option α) (db : Store V) : List α := db.filterMap decode

theorem map_filterMap {encode : α → List UInt8 × V} {entries : Store V} (coded : ∀ entry ∈ entries, ∃ item, decode entry = some item ∧ encode item = entry) :
    (entries.filterMap decode).map encode = entries := by
  induction entries with
  | nil => rfl
  | cons entry rest ih =>
    obtain ⟨item, read, written⟩ := coded entry mem_cons_self
    rw [filterMap_cons, read, map_cons, written, ih (forall_mem_cons.mp coded).2]

theorem filterMap_filter (wanted : α → Bool) (entries : Store V) :
    (entries.filter fun entry => (decode entry).any wanted).filterMap decode = (entries.filterMap decode).filter wanted := by
  induction entries with
  | nil => rfl
  | cons entry rest ih =>
    cases read : decode entry with
    | none => rw [filter_cons, read, filterMap_cons, read, Option.any_none, if_neg (by decide), ih]
    | some item =>
      rw [filter_cons, read, filterMap_cons, read, Option.any_some, filter_cons]
      split
      · rw [filterMap_cons, read, ih]
      · exact ih

/-- A scan finds exactly the wanted records if and only if each other record that it would find is behind
one that ends it. -/
theorem coded_scan_exact (encode : α → List UInt8 × V) {key : List UInt8} {goes wanted : α → Bool} (ordered : Ordered db)
    (coded : ∀ entry ∈ db, ∀ item, decode entry = some item → encode item = entry)
    (between : ∀ entry ∈ db, before entry.1 key = false → ∀ item ∈ records decode db,
      before (encode item).1 entry.1 = false → ∃ item', decode entry = some item')
    (reached : ∀ item ∈ records decode db, wanted item = true → before (encode item).1 key = false)
    (passed : ∀ item ∈ records decode db, wanted item = true → ∀ item' ∈ records decode db,
      before (encode item').1 key = false → before (encode item).1 (encode item').1 = false → goes item' = true) :
    scan decode goes key db = (records decode db).filter wanted ↔
      ∀ item ∈ records decode db, before (encode item).1 key = false → goes item = true → wanted item = false →
        ∃ item' ∈ records decode db, before (encode item').1 key = false ∧
          before (encode item').1 (encode item).1 = true ∧ goes item' = false := by
  have stored : ∀ {entry item}, entry ∈ db → decode entry = some item → item ∈ records decode db :=
    fun member read => mem_filterMap.mpr ⟨_, member, read⟩
  have holds : ∀ {item}, item ∈ records decode db → encode item ∈ db ∧ decode (encode item) = some item := fun member => by
    obtain ⟨entry, there, read⟩ := mem_filterMap.mp member
    rw [coded entry there _ read]
    exact ⟨there, read⟩
  have entries : scan decode goes key db = (records decode db).filter wanted ↔
      (seek key db).takeWhile (fun entry => (decode entry).any goes) = db.filter fun entry => (decode entry).any wanted := by
    rw [scan, records, ← filterMap_filter]
    refine ⟨fun same => ?_, fun same => by rw [same]⟩
    have back : ∀ entries : Store V, (∀ entry ∈ entries, entry ∈ db ∧ ∃ holds : α → Bool, (decode entry).any holds = true) →
        (entries.filterMap decode).map encode = entries := fun entries inside => map_filterMap fun entry member => by
      obtain ⟨there, holds, some'⟩ := inside entry member
      obtain ⟨item, read, -⟩ := (Option.any_eq_true _ _).mp some'
      exact ⟨item, read, coded entry there item read⟩
    have found := back ((seek key db).takeWhile fun entry => (decode entry).any goes) fun entry member =>
      ⟨(dropWhile_sublist _).subset ((takeWhile_sublist _).subset member), goes,
        mem_takeWhile_imp (p := fun entry => (decode entry).any goes) member⟩
    have filtered := back (db.filter fun entry => (decode entry).any wanted) fun entry member =>
      ⟨(mem_filter.mp member).1, wanted, (mem_filter.mp member).2⟩
    rw [← found, same, filtered]
  rw [entries, scan_exact ordered]
  · constructor
    · intro stopped item member above go unwanted
      obtain ⟨there, read⟩ := holds member
      obtain ⟨other, inside, otherAbove, notAfter, stops⟩ := stopped (encode item) there above (by rw [read]; exact unwanted)
      obtain ⟨item', read'⟩ := between other inside otherAbove item member notAfter
      have written := coded other inside item' read'
      rw [read'] at stops
      refine ⟨item', stored inside read', by rw [written]; exact otherAbove, ?_, stops⟩
      rw [written]
      refine (before_total fun same => ?_).resolve_right (by rw [notAfter]; exact false_ne_true)
      have equal : other = encode item := entry_of_key ordered inside there same
      rw [equal, read] at read'
      cases read'
      exact false_ne_true (stops.symm.trans go)
    · intro stopped entry member above unwanted
      cases read : decode entry with
      | none => exact ⟨entry, member, above, before_irrefl _, by rw [read]; rfl⟩
      | some item =>
        rw [read] at unwanted
        have written := coded entry member item read
        cases go : goes item with
        | false => exact ⟨entry, member, above, before_irrefl _, by rw [read]; exact go⟩
        | true =>
          obtain ⟨item', there, above', less, stops⟩ :=
            stopped item (stored member read) (by rw [written]; exact above) go unwanted
          obtain ⟨inside, read'⟩ := holds there
          refine ⟨encode item', inside, above', ?_, by rw [read']; exact stops⟩
          rw [← written]
          exact before_asymm less
  · intro entry member want
    obtain ⟨item, read, wants⟩ := (Option.any_eq_true _ _).mp want
    rw [← coded entry member item read]
    exact reached item (stored member read) wants
  · intro entry member want other inside above notAfter
    obtain ⟨item, read, wants⟩ := (Option.any_eq_true _ _).mp want
    have written := coded entry member item read
    obtain ⟨item', read'⟩ := between other inside above item (stored member read) (by rw [written]; exact notAfter)
    have written' := coded other inside item' read'
    rw [read']
    exact passed item (stored member read) wants item' (stored inside read') (by rw [written']; exact above)
      (by rw [written, written']; exact notAfter)

end Coded

end Longcoin.Library.ByteStore
