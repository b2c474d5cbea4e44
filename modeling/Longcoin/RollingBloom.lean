import Longcoin.BloomFilter
import Longcoin.Library.RollingSet

/-! `CRollingBloomFilter` (`bloom.cpp`), which is to contain the last `nElements` things that were inserted. -/

namespace Longcoin.Bloom
open Library Library.Outcome Library.BitPack List

/-- The floating-point parts of the private constructor of `CBloomFilter`, for one `nFPRate`. -/
structure Sizing where
  /-- `(unsigned int)(-1 / LN2SQUARED * nElements * log(nFPRate)) / 8` -/
  bytes : Nat → Nat
  /-- `(unsigned int)(n * LN2)` -/
  timesLN2 : Nat → Nat

def Sizing.hashFuncs (sizing : Sizing) (nElements : Nat) : Nat := sizing.timesLN2 (sizing.bytes nElements * 8 / nElements)

/-- The private constructor of `CBloomFilter`, which divides by `nElements`. -/
def construct (sizing : Sizing) (nElements : Nat) (nTweak : BitVec 32) : Except Fault CBloomFilter :=
  if nElements = 0 then .error .divideByZero
  else .ok
    { vData := List.replicate (sizing.bytes nElements) 0
      isFull := false
      isEmpty := true
      nHashFuncs := sizing.hashFuncs nElements
      nTweak := nTweak
      nFlags := BLOOM_UPDATE_NONE }

structure CRollingBloomFilter where
  nBloomSize : Nat
  nInsertions : Nat
  b1 : CBloomFilter
  b2 : CBloomFilter
deriving DecidableEq

/-- `nElements * 2` -/
def doubled (nElements : Nat) : Nat := nElements * 2 % 2 ^ 32

namespace CRollingBloomFilter

/-- `nNewTweak` is what `GetRand` gives. -/
def reset (s : CRollingBloomFilter) (nNewTweak : BitVec 32) : CRollingBloomFilter :=
  { s with b1 := s.b1.reset nNewTweak, b2 := s.b2.reset nNewTweak, nInsertions := 0 }

def create (sizing : Sizing) (nElements : Nat) (nNewTweak : BitVec 32) : Except Fault CRollingBloomFilter := do
  let b1 ← construct sizing (doubled nElements) 0
  let b2 ← construct sizing (doubled nElements) 0
  return reset ⟨doubled nElements, 0, b1, b2⟩ nNewTweak

section Access

variable (hashFunction : BitVec 32 → List UInt8 → BitVec 32)

def insert (s : CRollingBloomFilter) (vKey : List UInt8) : Except Fault CRollingBloomFilter := do
  let b1 := if s.nInsertions = 0 then s.b1.clear else s.b1
  let b2 := if s.nInsertions ≠ 0 ∧ s.nInsertions = s.nBloomSize / 2 then s.b2.clear else s.b2
  let b1 ← b1.insert hashFunction vKey
  let b2 ← b2.insert hashFunction vKey
  let nInsertions := (s.nInsertions + 1) % 2 ^ 32
  return { s with b1 := b1, b2 := b2, nInsertions := if nInsertions = s.nBloomSize then 0 else nInsertions }

def contains (s : CRollingBloomFilter) (vKey : List UInt8) : Except Fault Bool :=
  if s.nInsertions < s.nBloomSize / 2 then s.b2.contains hashFunction vKey else s.b1.contains hashFunction vKey

end Access

end CRollingBloomFilter

inductive Event where
  | insert (vKey : List UInt8)
  | reset (nNewTweak : BitVec 32)

section Run

variable (hashFunction : BitVec 32 → List UInt8 → BitVec 32)

def Event.apply (s : CRollingBloomFilter) : Event → Except Fault CRollingBloomFilter
  | .insert vKey => s.insert hashFunction vKey
  | .reset nNewTweak => .ok (s.reset nNewTweak)

def runEvents (s : CRollingBloomFilter) (events : List Event) : Except Fault CRollingBloomFilter :=
  events.foldlM (Event.apply hashFunction) s

/-- What was inserted since the last reset, the latest first, when `items` were before. -/
def sinceReset (items : List (List UInt8)) (events : List Event) : List (List UInt8) :=
  events.foldl (fun items event => match event with
    | .insert vKey => vKey :: items
    | .reset _ => []) items

/-- No operation fails, and the last `nElements` things inserted are contained. -/
def Remembers (sizing : Sizing) (nElements : Nat) (nNewTweak : BitVec 32) (events : List Event) : Prop :=
  ∃ created s, CRollingBloomFilter.create sizing nElements nNewTweak = .ok created ∧ runEvents hashFunction created events = .ok s ∧
    ∀ vKey ∈ (sinceReset [] events).take nElements, s.contains hashFunction vKey = .ok true

end Run

section Insertion

variable {hashFunction : BitVec 32 → List UInt8 → BitVec 32} {s : CRollingBloomFilter} {f : CBloomFilter}

def inserted (hashFunction : BitVec 32 → List UInt8 → BitVec 32) (f : CBloomFilter) (vKey : List UInt8) : CBloomFilter :=
  match f.insert hashFunction vKey with
  | .ok f' => f'
  | .error _ => f

theorem inserted_ok (nonempty : f.vData ≠ []) (vKey : List UInt8) : f.insert hashFunction vKey = .ok (inserted hashFunction f vKey) ∧
    Grown hashFunction f (inserted hashFunction f vKey) ∧ Holds hashFunction (inserted hashFunction f vKey) vKey ∧
      (f.isFull = false → (inserted hashFunction f vKey).isEmpty = false ∧
        ∀ p, bitAt (inserted hashFunction f vKey).vData p = true ↔
          bitAt f.vData p = true ∨ ∃ i < f.nHashFuncs, p = indexOf hashFunction f vKey i) := by
  obtain ⟨f', result, spec⟩ := @insert_ok hashFunction f (fun none => absurd none nonempty) vKey
  have same : inserted hashFunction f vKey = f' := by
    rw [inserted, result]
  rw [same]
  exact ⟨result, spec⟩

theorem inserted_nonempty (nonempty : f.vData ≠ []) (vKey : List UInt8) : (inserted hashFunction f vKey).vData ≠ [] := by
  have length := (@inserted_ok hashFunction f nonempty vKey).2.1.same.2.2.2
  rw [← length_pos_iff] at nonempty ⊢
  exact length.symm ▸ nonempty

theorem clear_nonempty (nonempty : f.vData ≠ []) : f.clear.vData ≠ [] := by
  rw [← length_pos_iff] at nonempty ⊢
  simpa [CBloomFilter.clear] using nonempty

/-- A filter that has a byte contains what came since it was cleared. -/
def remembering (hashFunction : BitVec 32 → List UInt8 → BitVec 32) :
    Tracking (inserted hashFunction) CBloomFilter.clear where
  valid f := f.vData ≠ []
  tracks f items := ∀ vKey ∈ items, Holds hashFunction f vKey
  valid_clear _ := clear_nonempty
  valid_add _ vKey nonempty := inserted_nonempty nonempty vKey
  tracks_clear _ _ := List.forall_mem_nil _
  tracks_add f vKey items nonempty held := by
    obtain ⟨_, grown, self, _⟩ := @inserted_ok hashFunction f nonempty vKey
    rw [List.forall_mem_cons]
    constructor
    · exact self
    · exact fun other earlier => grown.holds other (fun none => absurd none nonempty) (held other earlier)

def CRollingBloomFilter.sets (s : CRollingBloomFilter) : RollingSet CBloomFilter := ⟨s.b1, s.b2, s.nInsertions⟩

theorem insert_sets (valid : s.b1.vData ≠ [] ∧ s.b2.vData ≠ []) {half : Nat} (size : s.nBloomSize = 2 * half) (small : 2 * half < 2 ^ 32)
    (below : s.nInsertions < 2 * half) (vKey : List UInt8) : ∃ s', s.insert hashFunction vKey = .ok s' ∧
      s'.sets = s.sets.insert (inserted hashFunction) CBloomFilter.clear half vKey ∧ s'.nBloomSize = s.nBloomSize := by
  have first : (if s.nInsertions = 0 then s.b1.clear else s.b1).vData ≠ [] := by
    split_ifs
    · exact clear_nonempty valid.1
    · exact valid.1
  have second : (if s.nInsertions ≠ 0 ∧ s.nInsertions = s.nBloomSize / 2 then s.b2.clear else s.b2).vData ≠ [] := by
    split_ifs
    · exact clear_nonempty valid.2
    · exact valid.2
  have count : (if (s.nInsertions + 1) % 2 ^ 32 = s.nBloomSize then 0 else (s.nInsertions + 1) % 2 ^ 32)
      = RollingSet.nextCount half s.nInsertions := by
    rw [Nat.mod_eq_of_lt (by omega), size]
    rfl
  refine ⟨{ s with
    b1 := inserted hashFunction (if s.nInsertions = 0 then s.b1.clear else s.b1) vKey
    b2 := inserted hashFunction (if s.nInsertions ≠ 0 ∧ s.nInsertions = s.nBloomSize / 2 then s.b2.clear else s.b2) vKey
    nInsertions := RollingSet.nextCount half s.nInsertions }, ?_, ?_, rfl⟩
  · rw [CRollingBloomFilter.insert, ← count]
    simp only [(inserted_ok first vKey).1, (inserted_ok second vKey).1]
    rfl
  · have middle : s.nBloomSize / 2 = half := by omega
    simp only [CRollingBloomFilter.sets, RollingSet.insert, middle]
    rfl

theorem contains_sets {half : Nat} (size : s.nBloomSize = 2 * half) (vKey : List UInt8) :
    s.contains hashFunction vKey = (s.sets.asked half).contains hashFunction vKey := by
  have middle : s.nBloomSize / 2 = half := by omega
  rw [CRollingBloomFilter.contains, RollingSet.asked, middle]
  change _ = (if s.nInsertions < half then s.b2 else s.b1).contains hashFunction vKey
  split_ifs
  · rfl
  · rfl

end Insertion

section Invariant

variable {hashFunction : BitVec 32 → List UInt8 → BitVec 32} {half funcs : Nat} {s : CRollingBloomFilter} {items : List (List UInt8)}

/-- The filters of a run; `items` were inserted since the last reset. -/
structure Rolls (tracking : Tracking (inserted hashFunction) CBloomFilter.clear) (half funcs : Nat) (items : List (List UInt8))
    (s : CRollingBloomFilter) : Prop where
  size : s.nBloomSize = 2 * half
  some : s.b1.vData ≠ [] ∧ s.b2.vData ≠ []
  same : s.b1.nHashFuncs = funcs ∧ s.b2.nHashFuncs = funcs
  filled : RollingSet.Filled tracking half s.sets items

variable {tracking : Tracking (inserted hashFunction) CBloomFilter.clear}

theorem Rolls.insert (rolls : Rolls tracking half funcs items s) (positive : 0 < half) (small : 2 * half < 2 ^ 32) (vKey : List UInt8) :
    ∃ s', s.insert hashFunction vKey = .ok s' ∧ Rolls tracking half funcs (vKey :: items) s' := by
  obtain ⟨s', result, sets, size⟩ := insert_sets rolls.some rolls.size small rolls.filled.below vKey
  have first : s'.b1 = inserted hashFunction (if s.nInsertions = 0 then s.b1.clear else s.b1) vKey := congrArg RollingSet.first sets
  have second : s'.b2 = inserted hashFunction (if s.nInsertions ≠ 0 ∧ s.nInsertions = half then s.b2.clear else s.b2) vKey :=
    congrArg RollingSet.second sets
  have keeps (f : CBloomFilter) (nonempty : f.vData ≠ []) (same : f.nHashFuncs = funcs) :
      (inserted hashFunction f vKey).vData ≠ [] ∧ (inserted hashFunction f vKey).nHashFuncs = funcs :=
    ⟨inserted_nonempty nonempty vKey, (inserted_ok nonempty vKey).2.1.same.2.2.1.trans same⟩
  have keeps1 : s'.b1.vData ≠ [] ∧ s'.b1.nHashFuncs = funcs := by
    rw [first]
    split_ifs
    · exact keeps _ (clear_nonempty rolls.some.1) rolls.same.1
    · exact keeps _ rolls.some.1 rolls.same.1
  have keeps2 : s'.b2.vData ≠ [] ∧ s'.b2.nHashFuncs = funcs := by
    rw [second]
    split_ifs
    · exact keeps _ (clear_nonempty rolls.some.2) rolls.same.2
    · exact keeps _ rolls.some.2 rolls.same.2
  refine ⟨s', result, size.trans rolls.size, ⟨keeps1.1, keeps2.1⟩, ⟨keeps1.2, keeps2.2⟩, ?_⟩
  rw [sets]
  exact rolls.filled.insert positive vKey

theorem Rolls.reset (some : s.b1.vData ≠ [] ∧ s.b2.vData ≠ []) (same : s.b1.nHashFuncs = funcs ∧ s.b2.nHashFuncs = funcs)
    (size : s.nBloomSize = 2 * half) (positive : 0 < half) (nNewTweak : BitVec 32)
    (start : ∀ f : CBloomFilter, f.vData ≠ [] → tracking.valid (f.reset nNewTweak) ∧ tracking.tracks (f.reset nNewTweak) []) :
    Rolls tracking half funcs [] (s.reset nNewTweak) := by
  constructor
  · exact size
  · exact ⟨@clear_nonempty s.b1 some.1, @clear_nonempty s.b2 some.2⟩
  · exact same
  · constructor
    · exact ⟨(start _ some.1).1, (start _ some.2).1⟩
    · exact Nat.mul_pos Nat.two_pos positive
    · rw [take_nil]
      exact (start _ some.1).2
    · rw [take_nil]
      exact (start _ some.2).2

theorem Rolls.run (positive : 0 < half) (small : 2 * half < 2 ^ 32)
    (start : ∀ (f : CBloomFilter) (nNewTweak : BitVec 32), f.vData ≠ [] →
      tracking.valid (f.reset nNewTweak) ∧ tracking.tracks (f.reset nNewTweak) [])
    (events : List Event) : ∀ items s, Rolls tracking half funcs items s →
      ∃ s', runEvents hashFunction s events = .ok s' ∧ Rolls tracking half funcs (sinceReset items events) s' := by
  induction events with
  | nil => exact fun items s rolls => ⟨s, rfl, rolls⟩
  | cons event rest ih =>
    intro items s rolls
    cases event with
    | insert vKey =>
      obtain ⟨middle, step, rolls'⟩ := rolls.insert positive small vKey
      obtain ⟨s', finish, last⟩ := ih (vKey :: items) middle rolls'
      exact ⟨s', foldlM_cons_ok.mpr ⟨middle, step, finish⟩, last⟩
    | reset nNewTweak =>
      have rolls' := Rolls.reset rolls.some rolls.same rolls.size positive nNewTweak fun f => start f nNewTweak
      obtain ⟨s', finish, last⟩ := ih [] _ rolls'
      exact ⟨s', foldlM_cons_ok.mpr ⟨_, rfl, finish⟩, last⟩

theorem Rolls.create {sizing : Sizing} {nElements : Nat} (size : doubled nElements = 2 * half) (positive : 0 < half)
    (bytes : 0 < sizing.bytes (doubled nElements)) (nNewTweak : BitVec 32)
    (start : ∀ (f : CBloomFilter) (nNewTweak : BitVec 32), f.vData ≠ [] →
      tracking.valid (f.reset nNewTweak) ∧ tracking.tracks (f.reset nNewTweak) []) :
    ∃ s, CRollingBloomFilter.create sizing nElements nNewTweak = .ok s ∧
      Rolls tracking half (sizing.hashFuncs (doubled nElements)) [] s := by
  have nonzero : doubled nElements ≠ 0 := by omega
  obtain ⟨f, made, nonempty, funcs⟩ : ∃ f, construct sizing (doubled nElements) 0 = .ok f ∧ f.vData ≠ [] ∧
      f.nHashFuncs = sizing.hashFuncs (doubled nElements) := by
    refine ⟨_, if_neg nonzero, ?_, rfl⟩
    rw [← length_pos_iff, length_replicate]
    exact bytes
  refine ⟨CRollingBloomFilter.reset ⟨doubled nElements, 0, f, f⟩ nNewTweak, ?_, ?_⟩
  · rw [CRollingBloomFilter.create, made]
    rfl
  · exact Rolls.reset ⟨nonempty, nonempty⟩ ⟨funcs, funcs⟩ size positive nNewTweak fun f => start f nNewTweak

theorem run_asked {sizing : Sizing} {nElements : Nat} (size : doubled nElements = 2 * half) (positive : 0 < half)
    (bytes : 0 < sizing.bytes (doubled nElements)) (nNewTweak : BitVec 32) (events : List Event)
    (start : ∀ (f : CBloomFilter) (nNewTweak : BitVec 32), f.vData ≠ [] →
      tracking.valid (f.reset nNewTweak) ∧ tracking.tracks (f.reset nNewTweak) []) :
    ∃ created s f, CRollingBloomFilter.create sizing nElements nNewTweak = .ok created ∧
      runEvents hashFunction created events = .ok s ∧ (∀ vKey, s.contains hashFunction vKey = f.contains hashFunction vKey) ∧
        f.vData ≠ [] ∧ f.nHashFuncs = sizing.hashFuncs (doubled nElements) ∧
          ∃ count, half ≤ count ∧ count ≤ 2 * half ∧ tracking.tracks f ((sinceReset [] events).take count) := by
  have small : 2 * half < 2 ^ 32 := size ▸ Nat.mod_lt _ (by decide)
  obtain ⟨created, made, rolls⟩ := @Rolls.create hashFunction half tracking sizing nElements size positive bytes nNewTweak start
  obtain ⟨s, result, last⟩ := Rolls.run positive small start events [] created rolls
  obtain ⟨count, atLeast, atMost, tracks⟩ := last.filled.asked
  refine ⟨created, s, s.sets.asked half, made, result, contains_sets last.size, ?_, ?_, count, atLeast, atMost, tracks⟩
  · rw [RollingSet.asked]
    split_ifs
    · exact last.some.2
    · exact last.some.1
  · rw [RollingSet.asked]
    split_ifs
    · exact last.same.2
    · exact last.same.1

end Invariant

section Answers

variable {hashFunction : BitVec 32 → List UInt8 → BitVec 32} {sizing : Sizing} {nElements half : Nat}

theorem contains_latest (size : doubled nElements = 2 * half) (positive : 0 < half)
    (bytes : 0 < sizing.bytes (doubled nElements)) (nNewTweak : BitVec 32) (events : List Event) :
    ∃ created s, CRollingBloomFilter.create sizing nElements nNewTweak = .ok created ∧
      runEvents hashFunction created events = .ok s ∧
        (∀ vKey ∈ (sinceReset [] events).take half, s.contains hashFunction vKey = .ok true) ∧
          (sizing.hashFuncs (doubled nElements) = 0 → ∀ vKey ∈ sinceReset [] events, s.contains hashFunction vKey = .ok true) := by
  obtain ⟨created, s, f, made, result, same, nonempty, funcs, count, atLeast, _, tracks⟩ :=
    @run_asked hashFunction half (remembering hashFunction) sizing nElements size positive bytes nNewTweak events
      fun f _ nonempty => ⟨@clear_nonempty f nonempty, forall_mem_nil _⟩
  have latest : ∀ vKey ∈ (sinceReset [] events).take half, Holds hashFunction f vKey := fun vKey member =>
    tracks vKey (take_subset_take_left _ atLeast member)
  have usable : Usable f := fun none => absurd none nonempty
  refine ⟨created, s, made, result, fun vKey member => (same vKey).trans (latest vKey member), fun none vKey member => ?_⟩
  rw [same]
  -- the latest item is contained, and without a hash function every other one is as much
  obtain ⟨newest, earlier, shape⟩ := exists_cons_of_ne_nil (ne_nil_of_mem member)
  have found : newest ∈ (sinceReset [] events).take half := by
    obtain ⟨less, rfl⟩ := Nat.exists_eq_add_one.mpr positive
    rw [shape, take_succ_cons]
    exact mem_cons_self
  apply (holds_iff usable vKey).mpr
  rcases (holds_iff usable newest).mp (latest newest found) with full | ⟨notEmpty, _⟩
  · exact .inl full
  · refine .inr ⟨notEmpty, fun i below => ?_⟩
    rw [funcs, none] at below
    exact absurd below (Nat.not_lt_zero i)

/-- A hash function that tells one item from all others. -/
def singleOut (vKey : List UInt8) : BitVec 32 → List UInt8 → BitVec 32 := fun _ other => if other = vKey then 0 else 1

theorem bitAt_zeros (count p : Nat) : bitAt (replicate count 0) p = false := by
  have zero : (replicate count (0 : UInt8)).getD (p / 8) 0 = 0 := by
    rw [getD_eq_getElem?_getD, getElem?_replicate]
    split_ifs
    · rfl
    · rfl
  rw [bitAt, zero]
  simp

theorem lacking_add {vKey item : List UInt8} {items : List (List UInt8)} {f : CBloomFilter} (nonempty : f.vData ≠ [])
    (before : f.isFull = false ∧ (vKey ∉ items → bitAt f.vData 0 = false)) :
    (inserted (singleOut vKey) f item).isFull = false ∧
      (vKey ∉ item :: items → bitAt (inserted (singleOut vKey) f item).vData 0 = false) := by
  obtain ⟨_, grown, _, bits⟩ := @inserted_ok (singleOut vKey) f nonempty item
  refine ⟨grown.full.trans before.1, fun absent => ?_⟩
  have size := length_pos_iff.mpr nonempty
  have other : item ≠ vKey := fun same => absent (same ▸ mem_cons_self)
  rw [← Bool.not_eq_true, (bits before.1).2 0]
  rintro (already | ⟨i, _, index⟩)
  · exact Bool.false_ne_true ((before.2 fun member => absent (mem_cons_of_mem _ member)).symm.trans already)
  · rw [indexOf, singleOut, if_neg other, Nat.mod_eq_of_lt] at index
    · cases index
    · change 1 < f.vData.length * 8
      omega

def lacking (vKey : List UInt8) : Tracking (inserted (singleOut vKey)) CBloomFilter.clear where
  valid f := f.vData ≠ []
  tracks f items := f.isFull = false ∧ (vKey ∉ items → bitAt f.vData 0 = false)
  valid_clear _ := clear_nonempty
  valid_add _ item nonempty := inserted_nonempty nonempty item
  tracks_clear f _ := ⟨rfl, fun _ => bitAt_zeros f.vData.length 0⟩
  tracks_add _ _ _ nonempty before := lacking_add nonempty before

theorem sinceReset_replicate (vKey : List UInt8) (count : Nat) (items : List (List UInt8)) :
    sinceReset items (replicate count (.insert vKey)) = replicate count vKey ++ items := by
  induction count generalizing items with
  | zero => rfl
  | succ count ih =>
    rw [replicate_succ]
    change sinceReset (vKey :: items) _ = _
    rw [ih, replicate_succ', append_assoc]
    rfl

theorem sinceReset_lost (vKey other : List UInt8) (count : Nat) :
    sinceReset [] (.insert vKey :: replicate count (.insert other)) = replicate count other ++ [vKey] :=
  sinceReset_replicate other count [vKey]

theorem lost_item (size : doubled nElements = 2 * half) (positive : 0 < half) (bytes : 0 < sizing.bytes (doubled nElements))
    (funcs : 0 < sizing.hashFuncs (doubled nElements)) {vKey other : List UInt8} (different : other ≠ vKey) (nNewTweak : BitVec 32) :
    ¬∃ created s, CRollingBloomFilter.create sizing nElements nNewTweak = .ok created ∧
      runEvents (singleOut vKey) created (.insert vKey :: replicate (2 * half) (.insert other)) = .ok s ∧
        s.contains (singleOut vKey) vKey = .ok true := by
  rintro ⟨created, s, made, result, found⟩
  obtain ⟨created', s', f, made', result', same, nonempty, funcs', count, _, atMost, tracks⟩ :=
    @run_asked (singleOut vKey) half (lacking vKey) sizing nElements size positive bytes nNewTweak
      (.insert vKey :: replicate (2 * half) (.insert other))
      fun f _ nonempty => ⟨@clear_nonempty f nonempty, rfl, fun _ => bitAt_zeros f.vData.length 0⟩
  obtain rfl := Except.ok.inj (made.symm.trans made')
  obtain rfl := Except.ok.inj (result.symm.trans result')
  have absent : vKey ∉ (replicate (2 * half) other ++ [vKey]).take count := by
    rw [take_append_of_le_length (by rwa [length_replicate])]
    exact fun member => different (eq_of_mem_replicate (mem_of_mem_take member)).symm
  rw [sinceReset_lost] at tracks
  rw [same] at found
  have size' := length_pos_iff.mpr nonempty
  rcases (holds_iff (fun none => absurd none nonempty) vKey).mp found with full | ⟨_, covered⟩
  · exact Bool.false_ne_true (tracks.1.symm.trans full)
  · have bit := covered 0 (funcs'.symm ▸ funcs)
    rw [indexOf, singleOut, if_pos rfl, Nat.mod_eq_of_lt (show (0 : BitVec 32).toNat < f.vData.length * 8 from Nat.mul_pos size' (by decide))] at bit
    exact Bool.false_ne_true ((tracks.2 absent).symm.trans bit)

/-- The size wraps from 2^31 elements on; then the last `nElements` are remembered only where there is no hash function. -/
theorem rolling_remembers_iff (sizing : Sizing) (nElements : Nat) (positive : 1 ≤ nElements) (fits : nElements < 2 ^ 32)
    (bytes : 0 < sizing.bytes (doubled nElements)) :
    (∀ hashFunction nNewTweak events, Remembers hashFunction sizing nElements nNewTweak events) ↔
      nElements < 2 ^ 31 ∨ 2 ^ 31 < nElements ∧ sizing.hashFuncs (doubled nElements) = 0 := by
  constructor
  · intro remembers
    by_contra wrapped
    simp only [not_or, not_and, Nat.not_lt] at wrapped
    obtain ⟨created, s, made, _⟩ := remembers (fun _ _ => 0) 0 []
    rcases Nat.eq_or_lt_of_le wrapped.1 with rfl | above
    · -- the constructor divides by the wrapped size
      simp [CRollingBloomFilter.create, construct, doubled, bind, Except.bind] at made
    · have size : doubled nElements = 2 * (nElements - 2 ^ 31) := by
        unfold doubled
        omega
      have half : 0 < nElements - 2 ^ 31 := by omega
      have funcs := Nat.pos_of_ne_zero (wrapped.2 above)
      obtain ⟨created, s, made, result, found⟩ := remembers (singleOut [0]) 0
        (.insert [0] :: replicate (2 * (nElements - 2 ^ 31)) (.insert [1]))
      refine lost_item size half bytes funcs (by decide) 0 ⟨created, s, made, result, found [0] ?_⟩
      have short : (replicate (2 * (nElements - 2 ^ 31)) [(1 : UInt8)] ++ [[0]]).length ≤ nElements := by
        rw [length_append, length_replicate, length_singleton]
        omega
      rw [sinceReset_lost, take_of_length_le short]
      exact mem_append_right _ (mem_singleton_self _)
  · rintro (small | ⟨above, none⟩) hashFunction nNewTweak events
    · have size : doubled nElements = 2 * nElements := by
        unfold doubled
        omega
      obtain ⟨created, s, made, result, latest, _⟩ := @contains_latest hashFunction sizing nElements nElements size positive bytes nNewTweak events
      exact ⟨created, s, made, result, latest⟩
    · have size : doubled nElements = 2 * (nElements - 2 ^ 31) := by
        unfold doubled
        omega
      have half : 0 < nElements - 2 ^ 31 := by omega
      obtain ⟨created, s, made, result, _, all⟩ := @contains_latest hashFunction sizing nElements _ size half bytes nNewTweak events
      exact ⟨created, s, made, result, fun vKey member => all none vKey (mem_of_mem_take member)⟩

end Answers

/-- The sizes for the false positive rate of `recentRejects`, as far as they are used below. -/
def perMillion : Sizing := ⟨fun n => n * 28755 / 1000 / 8, fun n => n * 693 / 1000⟩

theorem recentRejects_remembers : Remembers (singleOut [0]) perMillion 120000 7 [.insert [0], .insert [1], .reset 5, .insert [2]] :=
  (rolling_remembers_iff perMillion 120000 (by decide) (by decide) (by decide)).mpr (.inl (by decide)) _ _ _

/-- A filter for 2^31 + 1 elements has the size 2: the second item after `[0]` has it forgotten. -/
theorem forgets_after_two : 0 < perMillion.bytes (doubled (2 ^ 31 + 1)) ∧
    [0] ∈ (sinceReset [] [.insert [0], .insert [1], .insert [1]]).take (2 ^ 31 + 1) ∧
      ¬Remembers (singleOut [0]) perMillion (2 ^ 31 + 1) 0 [.insert [0], .insert [1], .insert [1]] := by
  have member : [0] ∈ (sinceReset [] [.insert [0], .insert [1], .insert [1]]).take (2 ^ 31 + 1) := by
    rw [take_of_length_le (by decide)]
    decide
  refine ⟨by decide, member, ?_⟩
  rintro ⟨created, s, made, result, found⟩
  exact @lost_item perMillion (2 ^ 31 + 1) 1 (by decide) (by decide) (by decide) (by decide) [0] [1] (by decide) 0
    ⟨created, s, made, result, found [0] member⟩

end Longcoin.Bloom
