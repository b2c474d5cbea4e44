import Longcoin.Library.FiniteMap
import Longcoin.Library.Multimap
import Longcoin.Library.Outcome

/-! The map with a limit on its size (`limitedmap.h`). An iterator into the map is the key it stands at. -/

namespace Longcoin.LimitedMap
open Library Library.Outcome FiniteMap List Option Finset

variable {K V : Type} [DecidableEq K] [LinearOrder V]

structure LimitedMap (K V : Type) [LinearOrder V] where
  map : FiniteMap K V
  rmap : Multimap V K
  nMaxSize : Nat

/-- A failed `assert`, or `rmap.begin()` of an empty `rmap`. -/
inductive Failure where
  | assertion
  | endIterator
deriving DecidableEq

namespace LimitedMap

def new (nMaxSizeIn : Nat) : Except Failure (LimitedMap K V) :=
  if nMaxSizeIn > 0 then .ok ⟨.empty, .empty, nMaxSizeIn⟩ else .error .assertion

def size (s : LimitedMap K V) : Nat := s.map.keys.card

/-- `map.erase(rmap.begin()->second); rmap.erase(rmap.begin());` -/
def evict (s : LimitedMap K V) : Except Failure (LimitedMap K V) :=
  match s.rmap.entries with
  | [] => .error .endIterator
  | entry :: _ => .ok { s with map := s.map.erase entry.2, rmap := s.rmap.eraseBegin }

/-- The entry of the new key gets into `rmap` after the eviction. -/
def insert (s : LimitedMap K V) (x : K × V) : Except Failure (LimitedMap K V) :=
  match s.map.find x.1 with
  | some _ => .ok s
  | none => do
      let s := { s with map := s.map.put x.1 x.2 }
      let s ← if s.size > s.nMaxSize then s.evict else .ok s
      return { s with rmap := s.rmap.insert x.2 x.1 }

def erase (s : LimitedMap K V) (k : K) : Except Failure (LimitedMap K V) :=
  match s.map.find k with
  | none => .ok s
  | some value =>
      match s.rmap.eraseIn value k with
      | none => .error .assertion
      | some rmap => .ok { s with map := s.map.erase k, rmap := rmap }

def update (s : LimitedMap K V) (itIn : K) (v : V) : Except Failure (LimitedMap K V) :=
  match s.map.find itIn with
  | none => .ok s
  | some value =>
      match s.rmap.eraseIn value itIn with
      | none => .error .assertion
      | some rmap => .ok { s with map := s.map.put itIn v, rmap := rmap.insert v itIn }

/-- The loop of `max_size`; every turn takes the first entry of `rmap`, so the bound is their number. -/
def shrink (maxSize : Nat) : Nat → LimitedMap K V → Except Failure (LimitedMap K V)
  | 0, s => if s.size > maxSize then s.evict else .ok s
  | turns + 1, s => if s.size > maxSize then s.evict >>= shrink maxSize turns else .ok s

def maxSize (s : LimitedMap K V) (limit : Nat) : Except Failure (LimitedMap K V) := do
  require (limit > 0) .assertion
  let s ← shrink limit s.rmap.entries.length s
  return { s with nMaxSize := limit }

end LimitedMap

inductive Call (K V : Type) where
  | insert (x : K × V)
  | erase (k : K)
  | update (itIn : K) (v : V)
  | maxSize (limit : Nat)

def LimitedMap.call (s : LimitedMap K V) : Call K V → Except Failure (LimitedMap K V)
  | .insert x => s.insert x
  | .erase k => s.erase k
  | .update itIn v => s.update itIn v
  | .maxSize limit => s.maxSize limit

inductive Reached (N : Nat) : LimitedMap K V → Prop where
  | new {s : LimitedMap K V} : LimitedMap.new N = .ok s → Reached N s
  | call {s s' : LimitedMap K V} (call : Call K V) : Reached N s → s.call call = .ok s' → Reached N s'

/-- `rmap` has one entry for each element, under its value. -/
structure Mirrors (rmap : Multimap V K) (map : FiniteMap K V) : Prop where
  once : rmap.entries.Nodup
  entry : ∀ value k, (value, k) ∈ rmap.entries ↔ map.find k = some value

structure Indexed (s : LimitedMap K V) : Prop where
  mirrors : Mirrors s.rmap s.map
  bounded : s.size ≤ s.nMaxSize
  positive : 0 < s.nMaxSize

/-- `after` has the `size` elements of `all` with the highest values. -/
structure KeepsHighest (all after : FiniteMap K V) (size : Nat) : Prop where
  card : after.keys.card = size
  kept : ∀ k value, after.find k = some value → all.find k = some value
  highest : ∀ k value, all.find k = some value → k ∉ after.keys → ∀ other value', after.find other = some value' → value ≤ value'

section Mirrored

variable {rmap : Multimap V K} {map : FiniteMap K V} {k : K} {value : V}

omit [DecidableEq K] in
theorem mirrors_empty : Mirrors (Multimap.empty : Multimap V K) .empty := by
  constructor
  · exact nodup_nil
  · simp [Multimap.empty]

theorem Mirrors.put (mirrors : Mirrors rmap map) (absent : map.find k = none) (value : V) :
    Mirrors (rmap.insert value k) (map.put k value) := by
  constructor
  · apply Multimap.nodup_insert mirrors.once
    rw [mirrors.entry, absent]
    exact some_ne_none value ∘ Eq.symm
  · intro other k'
    rw [Multimap.mem_insert, mirrors.entry, find_put, Prod.mk.injEq]
    by_cases same : k' = k
    · rw [same, if_pos rfl, absent]
      simp [eq_comm]
    · rw [if_neg same]
      simp [same]

theorem Mirrors.without (mirrors : Mirrors rmap map) (found : map.find k = some value) {rmap' : Multimap V K}
    (rest : rmap.entries.Perm ((value, k) :: rmap'.entries)) : Mirrors rmap' (map.erase k) := by
  have once := nodup_cons.mp (rest.nodup_iff.mp mirrors.once)
  constructor
  · exact once.2
  · intro other k'
    have before := mirrors.entry other k'
    rw [rest.mem_iff, List.mem_cons] at before
    rw [find_erase]
    by_cases same : k' = k
    · rw [if_pos same]
      constructor
      · intro member
        have value' := before.mp (.inr member)
        rw [same, found] at value'
        rw [same, ← some.inj value'] at member
        exact absurd member once.1
      · exact nofun
    · rw [if_neg same, ← before]
      exact ⟨.inr, fun either => either.resolve_left fun equal => same (congrArg Prod.snd equal)⟩

theorem Mirrors.begin (mirrors : Mirrors rmap map) {rest : List (V × K)} (first : rmap.entries = (value, k) :: rest) :
    map.find k = some value ∧ Mirrors rmap.eraseBegin (map.erase k) ∧ ∀ other value', map.find other = some value' → value ≤ value' := by
  have found : map.find k = some value := (mirrors.entry value k).mp (first ▸ mem_cons_self)
  apply And.intro found
  constructor
  · have rest' : rmap.entries = (value, k) :: rmap.eraseBegin.entries := by
      change rmap.entries = (value, k) :: rmap.entries.tail
      rw [first, tail_cons]
    exact mirrors.without found (rest' ▸ Perm.refl _)
  · exact fun other value' held => Multimap.begin_le first _ ((mirrors.entry value' other).mpr held)

theorem Mirrors.eraseIn (mirrors : Mirrors rmap map) (found : map.find k = some value) :
    ∃ rmap', rmap.eraseIn value k = some rmap' ∧ Mirrors rmap' (map.erase k) := by
  have member := (mirrors.entry value k).mpr found
  obtain ⟨sorted, erased⟩ := Multimap.eraseIn_of_mem member
  exact ⟨_, erased, mirrors.without found (perm_cons_erase member)⟩

omit [DecidableEq K] in
theorem Mirrors.nonempty (mirrors : Mirrors rmap map) (some : 0 < map.keys.card) : ∃ entry rest, rmap.entries = entry :: rest := by
  obtain ⟨k, member⟩ := card_pos.mp some
  obtain ⟨value, found⟩ := find_of_mem member
  exact exists_cons_of_ne_nil (ne_nil_of_mem ((mirrors.entry value k).mpr found))

end Mirrored

section Calls

variable {s s' : LimitedMap K V} {k : K} {value : V}

theorem size_put (absent : s.map.find k = none) (value : V) :
    ({ s with map := s.map.put k value } : LimitedMap K V).size = s.size + 1 :=
  card_insert_of_notMem (find_eq_none.mp absent)

theorem size_erase (found : s.map.find k = some value) : (s.map.erase k).keys.card + 1 = s.size :=
  card_erase_add_one (mem_of_find found)

theorem insert_known {x : K × V} (known : s.map.find x.1 = some value) : s.insert x = .ok s := by
  rw [LimitedMap.insert, known]

theorem insert_fits {x : K × V} (new : s.map.find x.1 = none) (fits : s.size < s.nMaxSize) :
    s.insert x = .ok { s with map := s.map.put x.1 x.2, rmap := s.rmap.insert x.2 x.1 } := by
  have size := size_put new x.2
  have small : ¬ ({ s with map := s.map.put x.1 x.2 } : LimitedMap K V).size > s.nMaxSize := by omega
  unfold LimitedMap.insert
  rw [new]
  dsimp only
  rw [if_neg small]
  rfl

theorem insert_full (indexed : Indexed s) {x : K × V} (new : s.map.find x.1 = none) (full : s.size = s.nMaxSize) :
    ∃ lowest value, s.map.find lowest = some value ∧ (∀ other value', s.map.find other = some value' → value ≤ value') ∧
      Mirrors s.rmap.eraseBegin (s.map.erase lowest) ∧
        s.insert x = .ok { s with map := (s.map.erase lowest).put x.1 x.2, rmap := s.rmap.eraseBegin.insert x.2 x.1 } := by
  obtain ⟨⟨value, lowest⟩, rest, first⟩ := indexed.mirrors.nonempty (full ▸ indexed.positive : 0 < s.size)
  obtain ⟨found, mirrors, least⟩ := indexed.mirrors.begin first
  refine ⟨lowest, value, found, least, mirrors, ?_⟩
  have different : lowest ≠ x.1 := by
    intro same
    rw [same, new] at found
    cases found
  have swap : (s.map.put x.1 x.2).erase lowest = (s.map.erase lowest).put x.1 x.2 := by
    ext1 other
    simp only [find_erase, find_put]
    by_cases isNew : other = x.1
    · rw [if_pos isNew, if_pos isNew, if_neg (fun same => different (same.symm.trans isNew))]
    · rw [if_neg isNew, if_neg isNew]
  have size := size_put new x.2
  have large : ({ s with map := s.map.put x.1 x.2 } : LimitedMap K V).size > s.nMaxSize := by omega
  have evicted : ({ s with map := s.map.put x.1 x.2 } : LimitedMap K V).evict =
      .ok { s with map := (s.map.put x.1 x.2).erase lowest, rmap := s.rmap.eraseBegin } := by
    rw [LimitedMap.evict, first]
  unfold LimitedMap.insert
  rw [new]
  dsimp only
  rw [if_pos large, evicted, swap]
  rfl

theorem Indexed.insert (indexed : Indexed s) (x : K × V) : ∃ s', s.insert x = .ok s' ∧ Indexed s' := by
  cases here : s.map.find x.1 with
  | some value => exact ⟨s, insert_known here, indexed⟩
  | none =>
    by_cases fits : s.size < s.nMaxSize
    · refine ⟨_, insert_fits here fits, indexed.mirrors.put here x.2, ?_, indexed.positive⟩
      exact (size_put here x.2).trans_le fits
    · have full : s.size = s.nMaxSize := le_antisymm indexed.bounded (not_lt.mp fits)
      obtain ⟨lowest, value, found, -, mirrors, result⟩ := insert_full indexed here full
      have absent : (s.map.erase lowest).find x.1 = none := by
        rw [find_erase, here, ite_self]
      refine ⟨_, result, mirrors.put absent x.2, ?_, indexed.positive⟩
      have card := card_insert_of_notMem (find_eq_none.mp absent)
      have smaller := size_erase found
      change (Insert.insert x.1 (s.map.erase lowest).keys).card ≤ s.nMaxSize
      omega

theorem Indexed.erase (indexed : Indexed s) (k : K) : ∃ s', s.erase k = .ok s' ∧ Indexed s' := by
  cases found : s.map.find k with
  | none =>
    rw [LimitedMap.erase, found]
    exact ⟨s, rfl, indexed⟩
  | some value =>
    obtain ⟨rmap, erased, mirrors⟩ := indexed.mirrors.eraseIn found
    rw [LimitedMap.erase, found]
    simp only [erased]
    refine ⟨_, rfl, mirrors, ?_, indexed.positive⟩
    have smaller := size_erase found
    have bounded := indexed.bounded
    change (s.map.erase k).keys.card ≤ s.nMaxSize
    omega

theorem Indexed.update (indexed : Indexed s) (itIn : K) (v : V) : ∃ s', s.update itIn v = .ok s' ∧ Indexed s' := by
  cases found : s.map.find itIn with
  | none =>
    rw [LimitedMap.update, found]
    exact ⟨s, rfl, indexed⟩
  | some value =>
    obtain ⟨rmap, erased, mirrors⟩ := indexed.mirrors.eraseIn found
    have again : (s.map.erase itIn).put itIn v = s.map.put itIn v := by
      ext1 other
      simp only [find_erase, find_put]
      split_ifs <;> rfl
    rw [LimitedMap.update, found]
    simp only [erased]
    refine ⟨_, rfl, again ▸ mirrors.put (find_erase_self _ _) v, ?_, indexed.positive⟩
    change (Insert.insert itIn s.map.keys).card ≤ s.nMaxSize
    rw [insert_eq_of_mem (mem_of_find found)]
    exact indexed.bounded

theorem shrink_spec {limit : Nat} (positive : 0 < limit) (turns : Nat) : ∀ {s : LimitedMap K V}, Mirrors s.rmap s.map →
    s.rmap.entries.length ≤ turns →
      ∃ s', LimitedMap.shrink limit turns s = .ok s' ∧ Mirrors s'.rmap s'.map ∧ s'.size ≤ limit := by
  induction turns with
  | zero =>
    intro s mirrors none
    have fits : ¬ s.size > limit := by
      intro large
      obtain ⟨entry, rest, first⟩ := mirrors.nonempty (positive.trans large)
      rw [first] at none
      exact absurd none (Nat.not_succ_le_zero _)
    rw [LimitedMap.shrink, if_neg fits]
    exact ⟨s, rfl, mirrors, not_lt.mp fits⟩
  | succ turns ih =>
    intro s mirrors enough
    rw [LimitedMap.shrink]
    by_cases large : s.size > limit
    · obtain ⟨⟨value, lowest⟩, rest, first⟩ := mirrors.nonempty (positive.trans large)
      have mirrors' := (mirrors.begin first).2.1
      have fewer : s.rmap.eraseBegin.entries.length ≤ turns := by
        change s.rmap.entries.tail.length ≤ turns
        rw [length_tail]
        omega
      have evicted : s.evict = .ok { s with map := s.map.erase lowest, rmap := s.rmap.eraseBegin } := by
        rw [LimitedMap.evict, first]
      rw [if_pos large, evicted]
      exact @ih { s with map := s.map.erase lowest, rmap := s.rmap.eraseBegin } mirrors' fewer
    · rw [if_neg large]
      exact ⟨s, rfl, mirrors, not_lt.mp large⟩

theorem Indexed.maxSize (indexed : Indexed s) {limit : Nat} (positive : 0 < limit) : ∃ s', s.maxSize limit = .ok s' ∧ Indexed s' := by
  obtain ⟨s', shrunk, mirrors, fits⟩ := shrink_spec positive s.rmap.entries.length indexed.mirrors le_rfl
  refine ⟨{ s' with nMaxSize := limit }, ?_, mirrors, fits, positive⟩
  unfold LimitedMap.maxSize
  exact require_bind_ok.mpr ⟨decide_eq_true positive, bind_ok.mpr ⟨s', shrunk, rfl⟩⟩

theorem Indexed.call (indexed : Indexed s) {call : Call K V} (allowed : call ≠ .maxSize 0) : ∃ s', s.call call = .ok s' ∧ Indexed s' := by
  cases call with
  | insert x => exact indexed.insert x
  | erase k => exact indexed.erase k
  | update itIn v => exact indexed.update itIn v
  | maxSize limit => exact indexed.maxSize (Nat.pos_of_ne_zero fun zero => allowed (congrArg Call.maxSize zero))

theorem maxSize_zero (s : LimitedMap K V) : s.maxSize 0 = .error .assertion := rfl

theorem indexed_of_reached {N : Nat} (reached : Reached N s) : Indexed s := by
  induction reached with
  | new made =>
    rw [LimitedMap.new] at made
    split_ifs at made with positive
    obtain rfl := Except.ok.inj made
    exact ⟨mirrors_empty, Nat.zero_le _, positive⟩
  | @call before after call reached result indexed =>
    by_cases zero : call = .maxSize 0
    · rw [zero] at result
      exact nomatch (maxSize_zero before).symm.trans result
    · obtain ⟨s', result', indexed'⟩ := indexed.call zero
      obtain rfl := Except.ok.inj (result'.symm.trans result)
      exact indexed'

theorem keepsHighest_iff {lowest k : K} {value v : V} {n : Nat} (found : s.map.find lowest = some value)
    (least : ∀ other value', s.map.find other = some value' → value ≤ value') (new : s.map.find k = none) (full : s.size = n) :
    KeepsHighest (s.map.put k v) ((s.map.erase lowest).put k v) n ↔ value ≤ v := by
  have different : lowest ≠ k := by
    intro same
    rw [same, new] at found
    cases found
  constructor
  · intro keeps
    have before : (s.map.put k v).find lowest = some value := (find_put_ne different).trans found
    have gone : lowest ∉ ((s.map.erase lowest).put k v).keys := by
      rw [← find_eq_none, find_put_ne different, find_erase_self]
    exact keeps.highest lowest value before gone k v (find_put_self _ _ _)
  · intro notBelow
    constructor
    · have absent : (s.map.erase lowest).find k = none := by rw [find_erase, new, ite_self]
      have card := card_insert_of_notMem (find_eq_none.mp absent)
      have smaller := size_erase found
      change (Insert.insert k (s.map.erase lowest).keys).card = n
      omega
    · intro other value' held
      rw [find_put, find_erase] at held
      rw [find_put]
      split_ifs at held with isNew isLowest
      · rw [if_pos isNew]
        exact held
      · rw [if_neg isNew]
        exact held
    · intro other value' before gone third value'' held
      -- only the evicted element is left out
      have isLowest : other = lowest := by
        by_contra stays
        rw [← find_eq_none, find_put, find_erase, if_neg stays] at gone
        rw [find_put, gone] at before
        cases before
      rw [isLowest, find_put_ne different, found] at before
      rw [← some.inj before]
      rw [find_put, find_erase] at held
      split_ifs at held with isNew
      · rw [← some.inj held]
        exact notBelow
      · exact least third value'' held

end Calls

/-- In every map that calls lead to, the two containers agree, the limit holds and no call but `max_size(0)` fails; a new element
in a full map leaves the highest values if and only if its own value is not below all the others. -/
theorem limitedmap_spec {N : Nat} {s : LimitedMap K V} (reached : Reached N s) :
    Indexed s ∧ (∀ call : Call K V, call ≠ .maxSize 0 → ∃ s', s.call call = .ok s') ∧
      ∀ x : K × V, s.map.find x.1 = none → s.size = s.nMaxSize → ∃ s', s.insert x = .ok s' ∧
        (KeepsHighest (s.map.put x.1 x.2) s'.map s.nMaxSize ↔ ∃ k value, s.map.find k = some value ∧ value ≤ x.2) := by
  have indexed := indexed_of_reached reached
  refine ⟨indexed, ?_, ?_⟩
  · intro call allowed
    obtain ⟨s', result, -⟩ := indexed.call allowed
    exact ⟨s', result⟩
  · intro x new full
    obtain ⟨lowest, value, found, least, -, result⟩ := insert_full indexed new full
    refine ⟨_, result, ?_⟩
    apply (keepsHighest_iff found least new full).trans
    constructor
    · exact fun notBelow => ⟨lowest, value, found, notBelow⟩
    · exact fun ⟨other, value', held, notBelow⟩ => (least other value' held).trans notBelow

def fullMap : LimitedMap Nat Int := ⟨FiniteMap.empty.put 1 5, Multimap.empty.insert 5 1, 1⟩

theorem reached_fullMap : Reached 1 fullMap := by
  have start : Reached 1 (⟨.empty, .empty, 1⟩ : LimitedMap Nat Int) := .new rfl
  exact .call (.insert (1, 5)) start (@insert_fits _ _ _ _ (⟨.empty, .empty, 1⟩ : LimitedMap Nat Int) (1, 5) rfl Nat.one_pos)

theorem limitedmap_spec_fullMap : ∃ s', fullMap.insert (2, 7) = .ok s' ∧ KeepsHighest (fullMap.map.put 2 7) s'.map 1 := by
  obtain ⟨s', result, keeps⟩ := (limitedmap_spec reached_fullMap).2.2 (2, 7) rfl rfl
  exact ⟨s', result, keeps.mpr ⟨1, 5, rfl, by decide⟩⟩

/-- The value 3 comes in, and the 5 goes. -/
theorem fullMap_loses_highest : Reached 1 fullMap ∧ fullMap.size = fullMap.nMaxSize ∧ fullMap.map.find 2 = none ∧
    ∃ s', fullMap.insert (2, 3) = .ok s' ∧ ¬ KeepsHighest (fullMap.map.put 2 3) s'.map fullMap.nMaxSize := by
  refine ⟨reached_fullMap, rfl, rfl, ?_⟩
  obtain ⟨lowest, value, found, least, -, result⟩ := @insert_full _ _ _ _ fullMap (indexed_of_reached reached_fullMap) (2, 3) rfl rfl
  refine ⟨_, result, fun keeps => ?_⟩
  have below : value ≤ 3 := (keepsHighest_iff found least rfl rfl).mp keeps
  have only : lowest = 1 := by
    have member := mem_of_find found
    exact Finset.mem_singleton.mp member
  rw [only] at found
  have isFive : (5 : Int) = value := some.inj found
  omega

end Longcoin.LimitedMap
