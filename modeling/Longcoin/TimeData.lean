import Longcoin.Library.Median
import Mathlib.Data.Finset.Card
import Mathlib.Algebra.Group.Nat.Defs
import Mathlib.Algebra.Ring.Int.Defs
import Longcoin.Library.Outcome

/-! The offset of the clock from those of the peers (`timedata.cpp`, `timedata.h`). -/

namespace Longcoin.TimeData
open Library.Outcome List Except

/-- Arithmetic on `int64_t` wraps around. -/
def toInt64 (n : Int) : Int := n.bmod (2 ^ 64)

def abs64 (n : Int) : Int := if n ≥ 0 then n else toInt64 (-n)

/-- `assert(size > 0)` -/
inductive Failure where
  | assertion
deriving DecidableEq

structure CMedianFilter where
  vValues : List Int
  vSorted : List Int
  nSize : Nat
deriving DecidableEq

namespace CMedianFilter

def create (size : Nat) (initial_value : Int) : CMedianFilter := ⟨[initial_value], [initial_value], size⟩

def input (filter : CMedianFilter) (value : Int) : CMedianFilter :=
  let vValues := if filter.vValues.length = filter.nSize then filter.vValues.tail else filter.vValues
  let vValues := vValues ++ [value]
  { filter with vValues := vValues, vSorted := vValues.insertionSort (· ≤ ·) }

def median (filter : CMedianFilter) : Except Failure Int :=
  let size := filter.vSorted.length
  if size = 0 then .error .assertion
  else if size % 2 = 1 then .ok (filter.vSorted.getD (size / 2) 0)
  else .ok ((toInt64 (filter.vSorted.getD (size / 2 - 1) 0 + filter.vSorted.getD (size / 2) 0)).tdiv 2)

def size (filter : CMedianFilter) : Nat := filter.vValues.length

def sorted (filter : CMedianFilter) : List Int := filter.vSorted

end CMedianFilter

def BITCOIN_TIMEDATA_MAX_SAMPLES : Nat := 200

def strMessage : String :=
  "Please check that your computer's date and time are correct! If your clock is wrong Longcoin Core will not work properly."

/-- The static variables. The message box of the warning is left out. -/
structure State (CNetAddr : Type) where
  setKnown : Finset CNetAddr := ∅
  vTimeOffsets : CMedianFilter := .create BITCOIN_TIMEDATA_MAX_SAMPLES 0
  nTimeOffset : Int := 0
  fDone : Bool := false
  strMiscWarning : String := ""

variable {CNetAddr : Type} [DecidableEq CNetAddr]

/-- Somebody has a time different than ours but within 5 minutes of ours. -/
def fMatch (vSorted : List Int) : Bool := vSorted.any fun nOffset => decide (nOffset ≠ 0 ∧ abs64 nOffset < 5 * 60)

def updateOffset (s : State CNetAddr) : Except Failure (State CNetAddr) := do
  let nMedian ← s.vTimeOffsets.median
  if abs64 nMedian < 70 * 60 then return { s with nTimeOffset := nMedian }
  else if s.fDone || fMatch s.vTimeOffsets.sorted then return { s with nTimeOffset := 0 }
  else return { s with nTimeOffset := 0, fDone := true, strMiscWarning := strMessage }

def addTimeData (s : State CNetAddr) (ip : CNetAddr) (nOffsetSample : Int) : Except Failure (State CNetAddr) :=
  if s.setKnown.card = BITCOIN_TIMEDATA_MAX_SAMPLES then .ok s
  else if ip ∈ s.setKnown then .ok s
  else
    let s := { s with setKnown := insert ip s.setKnown, vTimeOffsets := s.vTimeOffsets.input nOffsetSample }
    if s.vTimeOffsets.size ≥ 5 ∧ s.vTimeOffsets.size % 2 = 1 then updateOffset s else .ok s

structure Message (CNetAddr : Type) where
  addr : CNetAddr
  nTime : Int
  time : Int

def Message.nTimeOffset (message : Message CNetAddr) : Int := toInt64 (message.nTime - message.time)

def receive (s : State CNetAddr) (message : Message CNetAddr) : Except Failure (State CNetAddr) :=
  addTimeData s message.addr message.nTimeOffset

def run (messages : List (Message CNetAddr)) : Except Failure (State CNetAddr) := messages.foldlM receive {}

/-- The sample is new, and there is an odd number of values with it, five or more. -/
def Updates (s s' : State CNetAddr) (message : Message CNetAddr) : Prop :=
  s.setKnown.card ≠ BITCOIN_TIMEDATA_MAX_SAMPLES ∧ message.addr ∉ s.setKnown ∧ 5 ≤ s'.vTimeOffsets.size ∧ s'.vTimeOffsets.size % 2 = 1

/-- The offset is small, a second sample of an address changes nothing, and an update follows most of the values. -/
structure Steady (s s' : State CNetAddr) (before : List (Message CNetAddr)) (message : Message CNetAddr) : Prop where
  bounded : s'.nTimeOffset.natAbs < 70 * 60
  repeated : message.addr ∈ before.map Message.addr → s' = s
  majority : Updates s s' message → ∀ a b, s'.vTimeOffsets.vValues.length < 2 * s'.vTimeOffsets.vValues.countP (fun n => a ≤ n ∧ n ≤ b) →
    s'.nTimeOffset = 0 ∨ a ≤ s'.nTimeOffset ∧ s'.nTimeOffset ≤ b

/-- No assertion fails, and every call of `AddTimeData` is steady. -/
def Trustworthy (messages : List (Message CNetAddr)) : Prop :=
  ∀ before message, before ++ [message] <+: messages →
    ∃ s s', run before = .ok s ∧ receive s message = .ok s' ∧ Steady s s' before message

def firsts (messages : List (Message CNetAddr)) : List (Message CNetAddr) :=
  messages.foldl (fun known message => if message.addr ∈ known.map Message.addr then known else known ++ [message]) []

def valuesAfter (messages : List (Message CNetAddr)) (count : Nat) : List Int := 0 :: ((firsts messages).take count).map Message.nTimeOffset

/-- At no update are most of the values the least 64-bit number. -/
def NeverLeast (messages : List (Message CNetAddr)) : Prop :=
  ∀ count ≤ (firsts messages).length, 4 ≤ count → count < BITCOIN_TIMEDATA_MAX_SAMPLES → count % 2 = 0 →
    ¬(valuesAfter messages count).length < 2 * (valuesAfter messages count).countP fun n => n = -2 ^ 63

section Samples

variable {messages before : List (Message CNetAddr)} {message : Message CNetAddr}

theorem firsts_snoc (messages : List (Message CNetAddr)) (message : Message CNetAddr) : firsts (messages ++ [message]) =
    if message.addr ∈ (firsts messages).map Message.addr then firsts messages else firsts messages ++ [message] := by
  unfold firsts
  rw [foldl_append]
  rfl

theorem firsts_nodup (messages : List (Message CNetAddr)) : ((firsts messages).map Message.addr).Nodup := by
  induction messages using reverseRecOn with
  | nil => exact nodup_nil
  | append_singleton messages message ih =>
    rw [firsts_snoc]
    split_ifs with known
    · exact ih
    · rw [map_append, nodup_append]
      refine ⟨ih, nodup_singleton _, ?_⟩
      intro addr member other new same
      rw [map_singleton, mem_singleton] at new
      exact known (new ▸ same ▸ member)

theorem mem_firsts (messages : List (Message CNetAddr)) (addr : CNetAddr) :
    addr ∈ (firsts messages).map Message.addr ↔ addr ∈ messages.map Message.addr := by
  induction messages using reverseRecOn with
  | nil => rfl
  | append_singleton messages message ih =>
    rw [firsts_snoc, map_append, mem_append, ← ih, map_singleton, mem_singleton]
    split_ifs with known
    · constructor
      · exact .inl
      · rintro (member | rfl)
        · exact member
        · exact known
    · rw [map_append, mem_append, map_singleton, mem_singleton]

theorem prefix_firsts (first : before <+: messages) : firsts before <+: firsts messages := by
  obtain ⟨later, rfl⟩ := first
  induction later using reverseRecOn with
  | nil =>
    rw [append_nil]
  | append_singleton later message ih =>
    rw [← append_assoc, firsts_snoc]
    split_ifs
    · exact ih
    · exact ih.trans (prefix_append _ _)

theorem prefix_valuesAfter (first : before <+: messages) {count : Nat} (few : count ≤ (firsts before).length) :
    valuesAfter before count = valuesAfter messages count := by
  obtain ⟨later, whole⟩ := prefix_firsts first
  rw [valuesAfter, valuesAfter, ← whole, take_append_of_le_length few]

theorem exists_first (messages : List (Message CNetAddr)) (count : Nat) (some : count < (firsts messages).length) :
    ∃ before message, before ++ [message] <+: messages ∧ (firsts before).length = count ∧ message.addr ∉ before.map Message.addr := by
  induction messages using reverseRecOn with
  | nil => cases some
  | append_singleton messages message ih =>
    rw [firsts_snoc] at some
    split_ifs at some with known
    · obtain ⟨before, other, first, spec⟩ := ih some
      exact ⟨before, other, first.trans (prefix_append _ _), spec⟩
    · rw [length_append, length_singleton] at some
      rcases Nat.lt_or_eq_of_le (Nat.le_of_lt_succ some) with earlier | here
      · obtain ⟨before, other, first, spec⟩ := ih earlier
        exact ⟨before, other, first.trans (prefix_append _ _), spec⟩
      · exact ⟨messages, message, prefix_refl _, here.symm, fun member => known ((mem_firsts _ _).mpr member)⟩

theorem toInt64_range (n : Int) : -2 ^ 63 ≤ toInt64 n ∧ toInt64 n < 2 ^ 63 := by
  have lower := @Int.le_bmod n (2 ^ 64) (by decide)
  have upper := @Int.bmod_lt n (2 ^ 64) (by decide)
  unfold toInt64
  omega

theorem valuesAfter_least (messages : List (Message CNetAddr)) (count : Nat) : ∀ n ∈ valuesAfter messages count, -2 ^ 63 ≤ n := by
  intro n member
  rcases mem_cons.mp member with rfl | sample
  · decide
  · obtain ⟨message, _, rfl⟩ := mem_map.mp sample
    exact (toInt64_range _).1

end Samples

section Step

variable {s s' : State CNetAddr} {before : List (Message CNetAddr)}

/-- The addresses and the values of the state are those of the first 200 samples; the initial value goes with the last of them. -/
structure Sampled (messages : List (Message CNetAddr)) (s : State CNetAddr) : Prop where
  known : s.setKnown = (((firsts messages).take BITCOIN_TIMEDATA_MAX_SAMPLES).map Message.addr).toFinset
  values : s.vTimeOffsets.vValues =
    if (firsts messages).length < BITCOIN_TIMEDATA_MAX_SAMPLES then valuesAfter messages (firsts messages).length
    else ((firsts messages).take BITCOIN_TIMEDATA_MAX_SAMPLES).map Message.nTimeOffset
  sorted : s.vTimeOffsets.vSorted = s.vTimeOffsets.vValues.insertionSort (· ≤ ·)
  size : s.vTimeOffsets.nSize = BITCOIN_TIMEDATA_MAX_SAMPLES

theorem Sampled.card (sampled : Sampled before s) : s.setKnown.card = min BITCOIN_TIMEDATA_MAX_SAMPLES (firsts before).length := by
  have nodup : (((firsts before).take BITCOIN_TIMEDATA_MAX_SAMPLES).map Message.addr).Nodup := by
    rw [map_take]
    exact (firsts_nodup before).sublist (take_sublist _ _)
  rw [sampled.known, toFinset_card_of_nodup nodup, length_map, length_take]

theorem Sampled.notFull (sampled : Sampled before s) (room : s.setKnown.card ≠ BITCOIN_TIMEDATA_MAX_SAMPLES) :
    (firsts before).length < BITCOIN_TIMEDATA_MAX_SAMPLES := by
  rw [sampled.card] at room
  omega

theorem Sampled.mem_known (sampled : Sampled before s) (few : (firsts before).length < BITCOIN_TIMEDATA_MAX_SAMPLES) (addr : CNetAddr) :
    addr ∈ s.setKnown ↔ addr ∈ before.map Message.addr := by
  rw [sampled.known, mem_toFinset, take_of_length_le (Nat.le_of_lt few), mem_firsts]

theorem Sampled.input (sampled : Sampled before s) (message : Message CNetAddr) (few : (firsts before).length < BITCOIN_TIMEDATA_MAX_SAMPLES)
    (new : message.addr ∉ before.map Message.addr) (s' : State CNetAddr) (known : s'.setKnown = insert message.addr s.setKnown)
    (filter : s'.vTimeOffsets = s.vTimeOffsets.input message.nTimeOffset) : Sampled (before ++ [message]) s' := by
  have grown : firsts (before ++ [message]) = firsts before ++ [message] := by
    rw [firsts_snoc, if_neg fun member => new ((mem_firsts _ _).mp member)]
  have length : (firsts before ++ [message]).length = (firsts before).length + 1 := by
    rw [length_append, length_singleton]
  have all : (firsts before ++ [message]).take BITCOIN_TIMEDATA_MAX_SAMPLES = firsts before ++ [message] :=
    take_of_length_le (length ▸ few)
  have values := sampled.values
  rw [if_pos few, valuesAfter, take_length] at values
  constructor
  · rw [grown, all, known, sampled.known, take_of_length_le (Nat.le_of_lt few)]
    ext addr
    simp
  · rw [grown, all, filter, CMedianFilter.input, sampled.size]
    simp only [values, length_cons, length_map, length, valuesAfter, grown]
    by_cases last : (firsts before).length + 1 = BITCOIN_TIMEDATA_MAX_SAMPLES
    · rw [if_pos last, if_neg (Nat.not_lt.mpr (Nat.le_of_eq last.symm)), tail_cons, map_append]
      rfl
    · rw [if_neg last, if_pos (Nat.lt_of_le_of_ne few last), ← length, take_length, map_append]
      rfl
  · rw [filter]
    rfl
  · rw [filter]
    exact sampled.size

def offsetOf (nMedian : Int) : Int := if abs64 nMedian < 70 * 60 then nMedian else 0

omit [DecidableEq CNetAddr] in
theorem updateOffset_ok {nMedian : Int} (median : s.vTimeOffsets.median = .ok nMedian) : ∃ s', updateOffset s = .ok s' ∧
    s'.setKnown = s.setKnown ∧ s'.vTimeOffsets = s.vTimeOffsets ∧ s'.nTimeOffset = offsetOf nMedian := by
  rw [updateOffset, median, offsetOf]
  by_cases small : abs64 nMedian < 70 * 60
  · exact ⟨_, if_pos small, rfl, rfl, (if_pos small).symm⟩
  · rw [if_neg small]
    by_cases silent : (s.fDone || fMatch s.vTimeOffsets.sorted) = true
    · exact ⟨_, (if_neg small).trans (if_pos silent), rfl, rfl, rfl⟩
    · exact ⟨_, (if_neg small).trans (if_neg silent), rfl, rfl, rfl⟩

structure Effect (s s' : State CNetAddr) (before : List (Message CNetAddr)) (message : Message CNetAddr) : Prop where
  sampled : Sampled (before ++ [message]) s'
  repeated : message.addr ∈ before.map Message.addr → s' = s
  unchanged : ¬Updates s s' message → s'.nTimeOffset = s.nTimeOffset
  updated : Updates s s' message → ∃ nMedian, s'.vTimeOffsets.vSorted[s'.vTimeOffsets.size / 2]? = some nMedian ∧
    s'.nTimeOffset = offsetOf nMedian

theorem Sampled.ignored (sampled : Sampled before s) {message : Message CNetAddr}
    (ignored : BITCOIN_TIMEDATA_MAX_SAMPLES ≤ (firsts before).length ∨ message.addr ∈ before.map Message.addr) :
    Sampled (before ++ [message]) s := by
  by_cases known : message.addr ∈ before.map Message.addr
  · have same : firsts (before ++ [message]) = firsts before := by
      rw [firsts_snoc, if_pos ((mem_firsts _ _).mpr known)]
    constructor
    · rw [same]
      exact sampled.known
    · rw [same, sampled.values, valuesAfter, valuesAfter, same]
    · exact sampled.sorted
    · exact sampled.size
  · have full := ignored.resolve_right known
    have grown : firsts (before ++ [message]) = firsts before ++ [message] := by
      rw [firsts_snoc, if_neg fun member => known ((mem_firsts _ _).mp member)]
    have more : ¬(firsts before ++ [message]).length < BITCOIN_TIMEDATA_MAX_SAMPLES := by
      rw [length_append]
      exact Nat.not_lt.mpr (Nat.le_trans full (Nat.le_add_right _ _))
    constructor
    · rw [grown, take_append_of_le_length full]
      exact sampled.known
    · rw [grown, if_neg more, take_append_of_le_length full, sampled.values, if_neg (Nat.not_lt.mpr full)]
    · exact sampled.sorted
    · exact sampled.size

theorem receive_spec (sampled : Sampled before s) (message : Message CNetAddr) :
    ∃ s', receive s message = .ok s' ∧ Effect s s' before message := by
  have nothing (same : receive s message = .ok s) (sampled' : Sampled (before ++ [message]) s)
      (notNew : s.setKnown.card = BITCOIN_TIMEDATA_MAX_SAMPLES ∨ message.addr ∈ s.setKnown) :
      ∃ s', receive s message = .ok s' ∧ Effect s s' before message := by
    refine ⟨s, same, sampled', fun _ => rfl, fun _ => rfl, fun updates => ?_⟩
    exact absurd notNew (not_or_intro updates.1 updates.2.1)
  by_cases full : s.setKnown.card = BITCOIN_TIMEDATA_MAX_SAMPLES
  · apply nothing
    · rw [receive, addTimeData, if_pos full]
    · rw [sampled.card] at full
      exact sampled.ignored (.inl (by omega))
    · exact .inl full
  have few := sampled.notFull full
  by_cases known : message.addr ∈ s.setKnown
  · apply nothing
    · rw [receive, addTimeData, if_neg full, if_pos known]
    · exact sampled.ignored (.inr ((sampled.mem_known few _).mp known))
    · exact .inr known
  have new := (sampled.mem_known few message.addr).not.mp known
  let added : State CNetAddr :=
    { s with setKnown := insert message.addr s.setKnown, vTimeOffsets := s.vTimeOffsets.input message.nTimeOffset }
  have step : receive s message = if added.vTimeOffsets.size ≥ 5 ∧ added.vTimeOffsets.size % 2 = 1 then updateOffset added else .ok added := by
    rw [receive, addTimeData, if_neg full, if_neg known]
  by_cases due : added.vTimeOffsets.size ≥ 5 ∧ added.vTimeOffsets.size % 2 = 1
  · have sampled' := sampled.input message few new added rfl rfl
    have length : added.vTimeOffsets.vSorted.length = added.vTimeOffsets.size := by
      rw [sampled'.sorted, length_insertionSort]
      rfl
    have inside : added.vTimeOffsets.size / 2 < added.vTimeOffsets.vSorted.length := by omega
    have median : added.vTimeOffsets.median = .ok (added.vTimeOffsets.vSorted.getD (added.vTimeOffsets.size / 2) 0) := by
      rw [CMedianFilter.median, length]
      exact (if_neg (by omega)).trans (if_pos due.2)
    obtain ⟨s', result, sameKnown, sameFilter, offset⟩ := updateOffset_ok median
    refine ⟨s', ?_, ?_, fun member => absurd member new, fun notDue => ?_, fun _ => ⟨_, ?_, offset⟩⟩
    · rw [step, if_pos due]
      exact result
    · exact sampled.input message few new s' sameKnown sameFilter
    · exact absurd ⟨full, known, sameFilter ▸ due⟩ notDue
    · rw [sameFilter, getD_eq_getElem?_getD, getElem?_eq_getElem inside]
      rfl
  · refine ⟨added, ?_, sampled.input message few new added rfl rfl, fun member => absurd member new, fun _ => rfl, fun updates => ?_⟩
    · rw [step, if_neg due]
    · exact absurd updates.2.2 due

end Step

section Bound

variable {s s' : State CNetAddr} {before messages : List (Message CNetAddr)} {message : Message CNetAddr}

theorem offsetOf_bound {nMedian : Int} (least : -2 ^ 63 ≤ nMedian) (most : nMedian < 2 ^ 63) :
    (offsetOf nMedian).natAbs < 70 * 60 ↔ nMedian ≠ -2 ^ 63 := by
  constructor
  · rintro bounded rfl
    have kept : offsetOf (-2 ^ 63) = -2 ^ 63 := by decide
    rw [kept] at bounded
    exact absurd bounded (by decide)
  · intro other
    unfold offsetOf
    split_ifs with small
    · unfold abs64 at small
      split_ifs at small with sign
      · omega
      · have negated : toInt64 (-nMedian) = -nMedian := Int.bmod_eq_of_le (by omega) (by omega)
        rw [negated] at small
        omega
    · decide

section

variable (effect : Effect s s' before message) (updates : Updates s s' message)
include effect updates

theorem Effect.values : (firsts (before ++ [message])).length < BITCOIN_TIMEDATA_MAX_SAMPLES ∧
      s'.vTimeOffsets.vValues = valuesAfter (before ++ [message]) (firsts (before ++ [message])).length ∧
        s'.vTimeOffsets.size = (firsts (before ++ [message])).length + 1 := by
  have few : (firsts (before ++ [message])).length < BITCOIN_TIMEDATA_MAX_SAMPLES := by
    -- with 200 samples the number of values is even
    by_contra many
    have values := effect.sampled.values
    rw [if_neg many] at values
    have odd := updates.2.2.2
    rw [CMedianFilter.size, values, length_map, length_take, Nat.min_eq_left (Nat.not_lt.mp many)] at odd
    cases odd
  have values := effect.sampled.values
  rw [if_pos few] at values
  refine ⟨few, values, ?_⟩
  rw [CMedianFilter.size, values, valuesAfter, take_length, length_cons, length_map]

theorem Effect.median : ∃ nMedian, s'.nTimeOffset = offsetOf nMedian ∧ nMedian ∈ s'.vTimeOffsets.vValues ∧
      (∀ a b, s'.vTimeOffsets.vValues.length < 2 * s'.vTimeOffsets.vValues.countP (fun n => a ≤ n ∧ n ≤ b) → a ≤ nMedian ∧ nMedian ≤ b) ∧
      ((∀ n ∈ s'.vTimeOffsets.vValues, -2 ^ 63 ≤ n) →
        (nMedian = -2 ^ 63 ↔ s'.vTimeOffsets.vValues.length < 2 * s'.vTimeOffsets.vValues.countP fun n => n = -2 ^ 63)) := by
  obtain ⟨nMedian, here, offset⟩ := effect.updated updates
  have perm := perm_insertionSort (· ≤ ·) s'.vTimeOffsets.vValues
  have sorted := pairwise_insertionSort (· ≤ ·) s'.vTimeOffsets.vValues
  rw [effect.sampled.sorted] at here
  have odd : (s'.vTimeOffsets.vValues.insertionSort (· ≤ ·)).length = 2 * (s'.vTimeOffsets.size / 2) + 1 := by
    rw [perm.length_eq]
    have rest := updates.2.2.2
    unfold CMedianFilter.size at rest ⊢
    omega
  refine ⟨nMedian, offset, perm.mem_iff.mp (mem_of_getElem? here), fun a b most => ?_, fun bound => ?_⟩
  · apply Library.Median.median_between sorted odd here
    rw [perm.length_eq, perm.countP_eq]
    exact most
  · rw [Library.Median.median_least sorted odd here fun n member => bound n (perm.mem_iff.mp member), perm.length_eq, perm.countP_eq]

theorem Effect.bounded_iff : s'.nTimeOffset.natAbs < 70 * 60 ↔
      ¬(valuesAfter (before ++ [message]) (firsts (before ++ [message])).length).length <
        2 * (valuesAfter (before ++ [message]) (firsts (before ++ [message])).length).countP fun n => n = -2 ^ 63 := by
  obtain ⟨_, values, _⟩ := effect.values updates
  obtain ⟨nMedian, offset, member, _, least⟩ := effect.median updates
  rw [values] at member least
  have lower := valuesAfter_least (before ++ [message]) (firsts (before ++ [message])).length
  have upper : nMedian < 2 ^ 63 := by
    rcases mem_cons.mp member with rfl | sample
    · decide
    · obtain ⟨other, _, rfl⟩ := mem_map.mp sample
      exact (toInt64_range _).2
  rw [offset, offsetOf_bound (lower nMedian member) upper, ← least lower]

end

theorem sampled_nil : Sampled [] ({} : State CNetAddr) := by
  constructor
  · rfl
  · rfl
  · rfl
  · rfl

theorem run_sampled (messages : List (Message CNetAddr)) : ∃ s, run messages = .ok s ∧ Sampled messages s := by
  induction messages using reverseRecOn with
  | nil => exact ⟨{}, rfl, sampled_nil⟩
  | append_singleton messages message ih =>
    obtain ⟨s, done, sampled⟩ := ih
    obtain ⟨s', step, effect⟩ := receive_spec sampled message
    exact ⟨s', foldlM_append_ok.mpr ⟨s, done, foldlM_cons_ok.mpr ⟨s', step, rfl⟩⟩, effect.sampled⟩

theorem NeverLeast.of_prefix (never : NeverLeast messages) (first : before <+: messages) : NeverLeast before := by
  intro count few least most even
  rw [prefix_valuesAfter first few]
  exact never count (Nat.le_trans few (prefix_firsts first).length_le) least most even

theorem run_bounded (messages : List (Message CNetAddr)) (never : NeverLeast messages) :
    ∀ s, run messages = .ok s → s.nTimeOffset.natAbs < 70 * 60 := by
  induction messages using reverseRecOn with
  | nil =>
    intro s done
    obtain rfl := ok.inj done
    exact Nat.succ_pos _
  | append_singleton messages message ih =>
    intro s' done
    obtain ⟨s, before, rest⟩ := foldlM_append_ok.mp done
    obtain ⟨last, step, ended⟩ := foldlM_cons_ok.mp rest
    obtain rfl := ok.inj ended
    obtain ⟨other, same, sampled⟩ := run_sampled messages
    obtain rfl := ok.inj (same.symm.trans before)
    obtain ⟨other', step', effect⟩ := receive_spec sampled message
    obtain rfl := ok.inj (step'.symm.trans step)
    by_cases updates : Updates other other' message
    · apply (effect.bounded_iff updates).mpr
      obtain ⟨few, _, size⟩ := effect.values updates
      have least := updates.2.2.1
      have odd := updates.2.2.2
      exact never _ (Nat.le_refl _) (by omega) few (by omega)
    · rw [effect.unchanged updates]
      exact ih (never.of_prefix (prefix_append _ _)) other before

end Bound

/-- Most of the values decide the offset in every run; it stays below 70 minutes just when they never are the least 64-bit number. -/
theorem trustworthy_iff (messages : List (Message CNetAddr)) : Trustworthy messages ↔ NeverLeast messages := by
  constructor
  · intro trustworthy count few least most even most'
    obtain ⟨before, message, first, length, new⟩ := exists_first messages (count - 1) (by omega)
    obtain ⟨s, s', done, step, steady⟩ := trustworthy before message first
    obtain ⟨other, same, sampled⟩ := run_sampled before
    obtain rfl := ok.inj (same.symm.trans done)
    obtain ⟨other', step', effect⟩ := receive_spec sampled message
    obtain rfl := ok.inj (step'.symm.trans step)
    have grown : (firsts (before ++ [message])).length = count := by
      rw [firsts_snoc, if_neg fun member => new ((mem_firsts _ _).mp member), length_append, length, length_singleton]
      omega
    have values := effect.sampled.values
    rw [grown, if_pos most] at values
    have size : other'.vTimeOffsets.size = count + 1 := by
      rw [CMedianFilter.size, values, valuesAfter, length_cons, length_map, length_take, grown, Nat.min_self]
    have updates : Updates other other' message := by
      refine ⟨?_, ?_, by omega, by omega⟩
      · rw [sampled.card]
        omega
      · rw [sampled.mem_known (by omega)]
        exact new
    have bounded := (effect.bounded_iff updates).mp steady.bounded
    rw [grown, prefix_valuesAfter first (Nat.le_of_eq grown.symm)] at bounded
    exact bounded most'
  · intro never before message first
    obtain ⟨s, done, sampled⟩ := run_sampled before
    obtain ⟨s', step, effect⟩ := receive_spec sampled message
    have whole : run (before ++ [message]) = .ok s' := foldlM_append_ok.mpr ⟨s, done, foldlM_cons_ok.mpr ⟨s', step, rfl⟩⟩
    refine ⟨s, s', done, step, run_bounded _ (never.of_prefix first) s' whole, effect.repeated, fun updates a b most => ?_⟩
    obtain ⟨nMedian, offset, _, between, _⟩ := effect.median updates
    rw [offset, offsetOf]
    split_ifs
    · exact .inr (between a b most)
    · exact .inl rfl

def farMessages : List (Message Nat) := (List.range 4).map fun addr => ⟨addr, -2 ^ 63, 0⟩

/-- After them the offset is -2^63: it is its own absolute value. -/
theorem farMessages_move : (run farMessages).toOption.map State.nTimeOffset = some (-2 ^ 63) ∧ ¬Trustworthy farMessages := by
  have result : (run farMessages).toOption.map State.nTimeOffset = some (-2 ^ 63) := by decide
  refine ⟨result, fun trustworthy => ?_⟩
  obtain ⟨s, s', done, step, steady⟩ := trustworthy (farMessages.take 3) ⟨3, -2 ^ 63, 0⟩ ⟨[], rfl⟩
  have whole : run farMessages = .ok s' := foldlM_append_ok.mpr ⟨s, done, foldlM_cons_ok.mpr ⟨s', step, rfl⟩⟩
  rw [whole] at result
  have bounded := steady.bounded
  rw [show s'.nTimeOffset = -2 ^ 63 from Option.some.inj result] at bounded
  exact absurd bounded (by decide)

end Longcoin.TimeData
