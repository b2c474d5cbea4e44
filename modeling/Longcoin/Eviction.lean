import Mathlib.Data.List.Nodup
import Mathlib.Order.Lattice

/-! `AttemptToEvictConnection` (`net.cpp`): the inbound connection that is given up for a new one. -/

namespace Longcoin.Eviction
open List

structure CNode (CAddress : Type) where
  addr : CAddress
  fWhitelisted : Bool
  fInbound : Bool
  fDisconnect : Bool
  nMinPingUsecTime : Int
  nTimeConnected : Int

/-- The connected nodes: `vNodes` points to them, once to each. -/
structure Connections (Ptr CAddress : Type) where
  vNodes : List Ptr
  node : Ptr → CNode CAddress
  nodup : vNodes.Nodup

variable {Ptr CAddress Key : Type}

def Connections.disconnect [DecidableEq Ptr] (s : Connections Ptr CAddress) (p : Ptr) : Connections Ptr CAddress :=
  { s with node := Function.update s.node p { s.node p with fDisconnect := true } }

/-- `erase(end - count, end)` -/
def eraseEnd (items : List Ptr) (count : Nat) : List Ptr := items.take (items.length - count)

/-- `mapAddrCounts`, and the group with the most connections so far. -/
structure Groups (Ptr : Type) where
  mapAddrCounts : List UInt8 → List Ptr := fun _ => []
  naMostConnections : List UInt8 := []
  nMostConnections : Nat := 0
  nMostConnectionsTime : Int := 0

section Model

variable (getGroup : CAddress → List UInt8) (s : Connections Ptr CAddress)

def groupOf (p : Ptr) : List UInt8 := getGroup (s.node p).addr

def timeOf (p : Ptr) : Int := (s.node p).nTimeConnected

def pingOf (p : Ptr) : Int := (s.node p).nMinPingUsecTime

def Groups.turn (groups : Groups Ptr) (p : Ptr) : Groups Ptr :=
  let group := groupOf getGroup s p
  let members := groups.mapAddrCounts group ++ [p]
  let mapAddrCounts := Function.update groups.mapAddrCounts group members
  let grouptime := timeOf s (members.headD p)
  let groupsize := members.length
  if groupsize > groups.nMostConnections ∨ groupsize = groups.nMostConnections ∧ grouptime > groups.nMostConnectionsTime then
    ⟨mapAddrCounts, group, groupsize, grouptime⟩
  else { groups with mapAddrCounts }

def candidates : List Ptr :=
  s.vNodes.filter fun p => !(s.node p).fWhitelisted && (s.node p).fInbound && !(s.node p).fDisconnect

def reverseCompareNodeMinPingTime (a b : Ptr) : Bool := pingOf s a > pingOf s b

def reverseCompareNodeTimeConnected (a b : Ptr) : Bool := timeOf s a > timeOf s b

/-- `keyed` is the hash of a group with the secret key; the hashes are compared as byte vectors. -/
def compareNetGroupKeyed [LinearOrder Key] (keyed : List UInt8 → Key) (a b : Ptr) : Bool :=
  keyed (groupOf getGroup s a) < keyed (groupOf getGroup s b)

variable [DecidableEq Ptr] [LinearOrder Key] (keyed : List UInt8 → Key) (sort : (Ptr → Ptr → Bool) → List Ptr → List Ptr)

/-- The largest group among the candidates that are left, and its first node. Nothing when an empty group were accessed. -/
def evictFrom (fPreferNewConnection : Bool) (vEvictionCandidates : List Ptr) : Option (Connections Ptr CAddress × Bool) :=
  let groups := vEvictionCandidates.foldl (Groups.turn getGroup s) {}
  let vEvictionCandidates := groups.mapAddrCounts groups.naMostConnections
  if vEvictionCandidates.length ≤ 1 ∧ fPreferNewConnection = false then some (s, false)
  else vEvictionCandidates.head?.map fun p => (s.disconnect p, true)

/-- The state afterwards, and whether a node was evicted. `sort` is `std::sort`. -/
def attemptToEvictConnection (fPreferNewConnection : Bool) : Option (Connections Ptr CAddress × Bool) :=
  let vEvictionCandidates := candidates s
  if vEvictionCandidates.isEmpty then some (s, false)
  else
    let sorted := sort (compareNetGroupKeyed getGroup s keyed) vEvictionCandidates
    let vEvictionCandidates := eraseEnd sorted (min 4 sorted.length)
    if vEvictionCandidates.isEmpty then some (s, false)
    else
      let sorted := sort (reverseCompareNodeMinPingTime s) vEvictionCandidates
      let vEvictionCandidates := eraseEnd sorted (min 8 sorted.length)
      if vEvictionCandidates.isEmpty then some (s, false)
      else
        let sorted := sort (reverseCompareNodeTimeConnected s) vEvictionCandidates
        let vEvictionCandidates := eraseEnd sorted (sorted.length / 2)
        if vEvictionCandidates.isEmpty then some (s, false)
        else evictFrom getGroup s fPreferNewConnection vEvictionCandidates

end Model

/-- A strict weak ordering, which `std::sort` asks of a comparison. -/
structure StrictWeak (compare : Ptr → Ptr → Bool) : Prop where
  asymm : ∀ a b, compare a b = true → compare b a = false
  between : ∀ a b c, compare a b = true → compare a c = true ∨ compare c b = true

/-- The items in another order, none before one that is less. -/
def Sorts (sort : (Ptr → Ptr → Bool) → List Ptr → List Ptr) : Prop :=
  ∀ compare, StrictWeak compare → ∀ items, (sort compare items).Perm items ∧ (sort compare items).Pairwise fun a b => compare b a = false

theorem strictWeak_key {K : Type} [LinearOrder K] (key : Ptr → K) : StrictWeak fun a b => decide (key a < key b) := by
  constructor
  · intro a b less
    exact decide_eq_false (lt_asymm (of_decide_eq_true less))
  · intro a b c less
    simp only [decide_eq_true_eq] at less ⊢
    exact (lt_or_ge (key a) (key c)).imp_right fun least => lt_of_le_of_lt least less

def mergeSorter (compare : Ptr → Ptr → Bool) (items : List Ptr) : List Ptr := items.mergeSort fun a b => !compare b a

theorem mergeSorter_sorts : Sorts (@mergeSorter Ptr) := by
  intro compare weak items
  constructor
  · exact mergeSort_perm items _
  · have sorted := @pairwise_mergeSort _ (fun a b => !compare b a) (fun a b c first second => by
      rw [Bool.not_eq_true'] at first second ⊢
      by_contra less
      rw [Bool.not_eq_false] at less
      rcases weak.between c a b less with before | before
      · exact Bool.false_ne_true (second.symm.trans before)
      · exact Bool.false_ne_true (first.symm.trans before)) (fun a b => by
      cases less : compare b a with
      | false => rfl
      | true => simp [weak.asymm b a less]) items
    exact sorted.imp fun ordered => by simpa using ordered

section Spec

variable (getGroup : CAddress → List UInt8) (s : Connections Ptr CAddress)

/-- The candidates, as they are protected one way after the other. -/
structure Protection [LinearOrder Key] (keyed : List UInt8 → Key) (byGroup byPing longest remaining : List Ptr) : Prop where
  whole : (candidates s).Perm (byGroup ++ (byPing ++ (longest ++ remaining)))
  groupCount : byGroup.length = min 4 (candidates s).length
  groupOrder : ∀ p ∈ byGroup, ∀ q ∈ byPing ++ (longest ++ remaining), keyed (groupOf getGroup s q) ≤ keyed (groupOf getGroup s p)
  pingCount : byPing.length = min 8 (byPing ++ (longest ++ remaining)).length
  pingOrder : ∀ p ∈ byPing, ∀ q ∈ longest ++ remaining, pingOf s p ≤ pingOf s q
  longestCount : longest.length = (longest ++ remaining).length / 2
  longestOrder : ∀ p ∈ longest, ∀ q ∈ remaining, timeOf s p ≤ timeOf s q

def membersOf (nodes : List Ptr) (group : List UInt8) : List Ptr := nodes.filter fun p => groupOf getGroup s p == group

def groupSize (nodes : List Ptr) (p : Ptr) : Nat := (membersOf getGroup s nodes (groupOf getGroup s p)).length

/-- A youngest member of a largest group, among the groups as large the one with the youngest member. -/
structure Victim (remaining : List Ptr) (p : Ptr) : Prop where
  member : p ∈ remaining
  most : ∀ q ∈ remaining, groupSize getGroup s remaining q ≤ groupSize getGroup s remaining p
  youngest : ∀ q ∈ remaining, groupSize getGroup s remaining q = groupSize getGroup s remaining p → timeOf s q ≤ timeOf s p

end Spec

section Loop

variable {getGroup : CAddress → List UInt8} {s : Connections Ptr CAddress}

structure Counted (getGroup : CAddress → List UInt8) (s : Connections Ptr CAddress) (done : List Ptr) (groups : Groups Ptr) : Prop where
  members : ∀ group, groups.mapAddrCounts group = membersOf getGroup s done group
  count : groups.nMostConnections = (membersOf getGroup s done groups.naMostConnections).length
  most : ∀ group, (membersOf getGroup s done group).length ≤ groups.nMostConnections
  time : ∀ p, (membersOf getGroup s done groups.naMostConnections).head? = some p → timeOf s p = groups.nMostConnectionsTime
  ties : ∀ group p, (membersOf getGroup s done group).length = groups.nMostConnections →
    (membersOf getGroup s done group).head? = some p → timeOf s p ≤ groups.nMostConnectionsTime

theorem membersOf_snoc (done : List Ptr) (p : Ptr) (group : List UInt8) : membersOf getGroup s (done ++ [p]) group =
    if groupOf getGroup s p = group then membersOf getGroup s done group ++ [p] else membersOf getGroup s done group := by
  rw [membersOf, filter_append, filter_singleton]
  by_cases same : groupOf getGroup s p = group
  · rw [if_pos same, beq_iff_eq.mpr same]
    rfl
  · rw [if_neg same, beq_eq_false_iff_ne.mpr same]
    exact append_nil _

theorem Counted.turn {done : List Ptr} {groups : Groups Ptr} (counted : Counted getGroup s done groups) (p : Ptr) :
    Counted getGroup s (done ++ [p]) (groups.turn getGroup s p) := by
  have own : membersOf getGroup s (done ++ [p]) (groupOf getGroup s p) = membersOf getGroup s done (groupOf getGroup s p) ++ [p] := by
    rw [membersOf_snoc, if_pos rfl]
  have others {group : List UInt8} (other : group ≠ groupOf getGroup s p) :
      membersOf getGroup s (done ++ [p]) group = membersOf getGroup s done group := by
    rw [membersOf_snoc, if_neg other.symm]
  have members : ∀ group, Function.update groups.mapAddrCounts (groupOf getGroup s p)
      (groups.mapAddrCounts (groupOf getGroup s p) ++ [p]) group = membersOf getGroup s (done ++ [p]) group := by
    intro group
    by_cases same : group = groupOf getGroup s p
    · rw [same, Function.update_self, own, counted.members]
    · rw [Function.update_of_ne same, others same, counted.members]
  have first : (membersOf getGroup s (done ++ [p]) (groupOf getGroup s p)).head? =
      some ((membersOf getGroup s done (groupOf getGroup s p) ++ [p]).headD p) := by
    rw [own]
    cases membersOf getGroup s done (groupOf getGroup s p) with
    | nil => rfl
    | cons q rest => rfl
  have size : (membersOf getGroup s (done ++ [p]) (groupOf getGroup s p)).length =
      (membersOf getGroup s done (groupOf getGroup s p)).length + 1 := by
    rw [own, length_append, length_singleton]
  have before := counted.most (groupOf getGroup s p)
  rw [Groups.turn, counted.members]
  by_cases larger : (membersOf getGroup s done (groupOf getGroup s p) ++ [p]).length > groups.nMostConnections ∨
      (membersOf getGroup s done (groupOf getGroup s p) ++ [p]).length = groups.nMostConnections ∧
        timeOf s ((membersOf getGroup s done (groupOf getGroup s p) ++ [p]).headD p) > groups.nMostConnectionsTime
  · rw [if_pos larger]
    rw [← own] at larger
    constructor
    · rw [← counted.members]
      exact members
    · rw [← own]
    · intro group
      rw [← own]
      by_cases same : group = groupOf getGroup s p
      · rw [same]
      · rw [others same]
        have below := counted.most group
        dsimp only
        omega
    · intro q head
      rw [first] at head
      rw [← Option.some.inj head]
    · intro group q length head
      rw [← own] at length
      by_cases same : group = groupOf getGroup s p
      · rw [same, first] at head
        rw [← Option.some.inj head]
      · rw [others same] at length head
        have most := counted.most group
        dsimp only at length
        have tie : (membersOf getGroup s done group).length = groups.nMostConnections := by omega
        have later := larger.resolve_left (by omega)
        exact Int.le_trans (counted.ties group q tie head) (Int.le_of_lt (own ▸ later.2))
  · rw [if_neg larger]
    simp only [← own, not_or, not_and, Int.not_lt, Nat.not_lt, gt_iff_lt] at larger
    have other : groups.naMostConnections ≠ groupOf getGroup s p := by
      intro same
      have count := counted.count
      rw [same] at count
      omega
    constructor
    · rw [← counted.members]
      exact members
    · rw [others other]
      exact counted.count
    · intro group
      by_cases same : group = groupOf getGroup s p
      · rw [same]
        exact larger.1
      · rw [others same]
        exact counted.most group
    · intro q head
      rw [others other] at head
      exact counted.time q head
    · intro group q length head
      by_cases same : group = groupOf getGroup s p
      · rw [same] at length head
        rw [first] at head
        rw [← Option.some.inj head, ← own]
        exact larger.2 length
      · rw [others same] at length head
        exact counted.ties group q length head

theorem counted_nil : Counted getGroup s [] ({} : Groups Ptr) := by
  constructor
  · exact fun _ => rfl
  · rfl
  · exact fun _ => Nat.le_refl _
  · exact nofun
  · exact nofun

theorem counted_all (nodes : List Ptr) : Counted getGroup s nodes (nodes.foldl (Groups.turn getGroup s) {}) := by
  have run (todo done : List Ptr) (groups : Groups Ptr) (counted : Counted getGroup s done groups) :
      Counted getGroup s (done ++ todo) (todo.foldl (Groups.turn getGroup s) groups) := by
    induction todo generalizing done groups with
    | nil =>
      rw [append_nil]
      exact counted
    | cons p rest ih =>
      rw [append_cons]
      exact ih (done ++ [p]) _ (counted.turn p)
  exact run nodes [] {} counted_nil

theorem victim_head {nodes : List Ptr} (sorted : nodes.Pairwise fun p q => timeOf s q ≤ timeOf s p) {groups : Groups Ptr}
    (counted : Counted getGroup s nodes groups) (nonempty : nodes ≠ []) : ∃ p, (groups.mapAddrCounts groups.naMostConnections).head? = some p ∧
      Victim getGroup s nodes p ∧ groupSize getGroup s nodes p = (groups.mapAddrCounts groups.naMostConnections).length := by
  rw [counted.members]
  have mine {p : Ptr} {group : List UInt8} (member : p ∈ membersOf getGroup s nodes group) : p ∈ nodes ∧ groupOf getGroup s p = group := by
    rw [membersOf, mem_filter, beq_iff_eq] at member
    exact member
  obtain ⟨q, others, rfl⟩ := exists_cons_of_ne_nil nonempty
  have positive : 0 < groups.nMostConnections := by
    refine Nat.lt_of_lt_of_le ?_ (counted.most (groupOf getGroup s q))
    exact length_pos_of_mem (mem_filter.mpr ⟨mem_cons_self, beq_self_eq_true _⟩)
  obtain ⟨p, rest, shape⟩ := exists_cons_of_ne_nil (length_pos_iff.mp (counted.count ▸ positive))
  have head : (membersOf getGroup s (q :: others) groups.naMostConnections).head? = some p := congrArg head? shape
  obtain ⟨member, group⟩ := mine (mem_of_head? head)
  have size : groupSize getGroup s (q :: others) p = groups.nMostConnections := by
    rw [groupSize, group, counted.count]
  refine ⟨p, head, ⟨member, fun other _ => ?_, fun other inside same => ?_⟩, size.trans counted.count⟩
  · rw [size]
    exact counted.most _
  · -- the first member of its group is at least as young
    rw [size] at same
    have self : other ∈ membersOf getGroup s (q :: others) (groupOf getGroup s other) :=
      mem_filter.mpr ⟨inside, beq_self_eq_true _⟩
    obtain ⟨first, later, form⟩ := exists_cons_of_ne_nil (ne_nil_of_mem self)
    have oldest : timeOf s other ≤ timeOf s first := by
      have ordered := sorted.sublist (@filter_sublist _ (fun p => groupOf getGroup s p == groupOf getGroup s other) (q :: others))
      rw [show (q :: others).filter _ = first :: later from form, pairwise_cons] at ordered
      rw [form] at self
      rcases mem_cons.mp self with rfl | after
      · exact Int.le_refl _
      · exact ordered.1 other after
    have tie := counted.ties (groupOf getGroup s other) first same (congrArg head? form)
    rw [← counted.time p head] at tie
    exact Int.le_trans oldest tie

end Loop

section Main

variable {getGroup : CAddress → List UInt8} {s : Connections Ptr CAddress} [LinearOrder Key] {keyed : List UInt8 → Key}
  {sort : (Ptr → Ptr → Bool) → List Ptr → List Ptr}

variable {compare : Ptr → Ptr → Bool}

theorem eraseEnd_split (sorts : Sorts sort) (weak : StrictWeak compare) (items : List Ptr) {count : Nat}
    (few : count ≤ (sort compare items).length) :
    ∃ gone, items.Perm (gone ++ eraseEnd (sort compare items) count) ∧ gone.length = count ∧
      (∀ p ∈ gone, ∀ q ∈ eraseEnd (sort compare items) count, compare p q = false) ∧
        (eraseEnd (sort compare items) count).Pairwise fun a b => compare b a = false := by
  obtain ⟨perm, sorted⟩ := sorts compare weak items
  have whole := take_append_drop ((sort compare items).length - count) (sort compare items)
  refine ⟨(sort compare items).drop ((sort compare items).length - count), ?_, ?_, ?_, ?_⟩
  · refine perm.symm.trans (Perm.trans ?_ perm_append_comm)
    rw [eraseEnd, whole]
  · rw [length_drop]
    omega
  · rw [← whole, pairwise_append] at sorted
    exact fun p gone q kept => sorted.2.2 q kept p gone
  · exact sorted.sublist (take_sublist _ _)

/-- What a protection leaves: `count` of the sorted nodes are erased from the end. -/
def unprotected (sort : (Ptr → Ptr → Bool) → List Ptr → List Ptr) (compare : Ptr → Ptr → Bool) (count : Nat → Nat) (items : List Ptr) : List Ptr :=
  eraseEnd (sort compare items) (count (sort compare items).length)

theorem unprotected_nil (sorts : Sorts sort) (weak : StrictWeak compare) (count : Nat → Nat) :
    unprotected sort compare count [] = [] := by
  rw [unprotected, (sorts compare weak []).1.eq_nil, eraseEnd, take_nil]

theorem unprotected_split (sorts : Sorts sort) (weak : StrictWeak compare) {count : Nat → Nat} (few : ∀ n, count n ≤ n)
    (items : List Ptr) : ∃ gone, items.Perm (gone ++ unprotected sort compare count items) ∧
      gone.length = count items.length ∧ (∀ p ∈ gone, ∀ q ∈ unprotected sort compare count items, compare p q = false) ∧
        (unprotected sort compare count items).Pairwise fun a b => compare b a = false := by
  have split := @eraseEnd_split Ptr sort compare sorts weak items (count (sort compare items).length) (few _)
  rw [(sorts compare weak items).1.length_eq] at split
  rw [unprotected, (sorts compare weak items).1.length_eq]
  exact split

theorem weak_group : StrictWeak (compareNetGroupKeyed getGroup s keyed) := strictWeak_key fun p => keyed (groupOf getGroup s p)

theorem weak_ping : StrictWeak (reverseCompareNodeMinPingTime s) := by
  have weak := strictWeak_key fun p => OrderDual.toDual (pingOf s p)
  exact weak

theorem weak_time : StrictWeak (reverseCompareNodeTimeConnected s) := by
  have weak := strictWeak_key fun p => OrderDual.toDual (timeOf s p)
  exact weak

/-- The nodes that are left after all three protections. -/
def remainingOf (getGroup : CAddress → List UInt8) (s : Connections Ptr CAddress) (keyed : List UInt8 → Key)
    (sort : (Ptr → Ptr → Bool) → List Ptr → List Ptr) : List Ptr :=
  unprotected sort (reverseCompareNodeTimeConnected s) (· / 2)
    (unprotected sort (reverseCompareNodeMinPingTime s) (min 8)
      (unprotected sort (compareNetGroupKeyed getGroup s keyed) (min 4) (candidates s)))

theorem attemptToEvictConnection_eq [DecidableEq Ptr] (sorts : Sorts sort) (fPreferNewConnection : Bool) :
    attemptToEvictConnection getGroup s keyed sort fPreferNewConnection =
      if (remainingOf getGroup s keyed sort).isEmpty then some (s, false)
      else evictFrom getGroup s fPreferNewConnection (remainingOf getGroup s keyed sort) := by
  have nothing (items : List Ptr) (none : items.isEmpty = true) : items = [] := isEmpty_iff.mp none
  have unfolded : attemptToEvictConnection getGroup s keyed sort fPreferNewConnection =
      if (candidates s).isEmpty then some (s, false)
      else if (unprotected sort (compareNetGroupKeyed getGroup s keyed) (min 4) (candidates s)).isEmpty then some (s, false)
      else if (unprotected sort (reverseCompareNodeMinPingTime s) (min 8)
          (unprotected sort (compareNetGroupKeyed getGroup s keyed) (min 4) (candidates s))).isEmpty then some (s, false)
      else if (remainingOf getGroup s keyed sort).isEmpty then some (s, false)
      else evictFrom getGroup s fPreferNewConnection (remainingOf getGroup s keyed sort) := rfl
  rw [unfolded]
  by_cases first : (candidates s).isEmpty = true
  · have last : remainingOf getGroup s keyed sort = [] := by
      rw [remainingOf, nothing _ first, unprotected_nil sorts weak_group, unprotected_nil sorts weak_ping, unprotected_nil sorts weak_time]
    rw [if_pos first, last]
    rfl
  rw [if_neg first]
  by_cases second : (unprotected sort (compareNetGroupKeyed getGroup s keyed) (min 4) (candidates s)).isEmpty = true
  · have last : remainingOf getGroup s keyed sort = [] := by
      rw [remainingOf, nothing _ second, unprotected_nil sorts weak_ping, unprotected_nil sorts weak_time]
    rw [if_pos second, last]
    rfl
  rw [if_neg second]
  by_cases third : (unprotected sort (reverseCompareNodeMinPingTime s) (min 8)
      (unprotected sort (compareNetGroupKeyed getGroup s keyed) (min 4) (candidates s))).isEmpty = true
  · have last : remainingOf getGroup s keyed sort = [] := by
      rw [remainingOf, nothing _ third, unprotected_nil sorts weak_time]
    rw [if_pos third, last]
    rfl
  rw [if_neg third]

theorem remaining_protection (sorts : Sorts sort) : ∃ byGroup byPing longest,
    Protection getGroup s keyed byGroup byPing longest (remainingOf getGroup s keyed sort) ∧
      (remainingOf getGroup s keyed sort).Pairwise fun p q => timeOf s q ≤ timeOf s p := by
  obtain ⟨byGroup, first, count1, order1, _⟩ := @unprotected_split Ptr sort _ sorts (@weak_group Ptr CAddress Key getGroup s _ keyed)
    (min 4) (fun n => Nat.min_le_right 4 n) (candidates s)
  obtain ⟨byPing, second, count2, order2, _⟩ := @unprotected_split Ptr sort _ sorts (@weak_ping Ptr CAddress s)
    (min 8) (fun n => Nat.min_le_right 8 n) (unprotected sort (compareNetGroupKeyed getGroup s keyed) (min 4) (candidates s))
  obtain ⟨longest, third, count3, order3, sorted⟩ := @unprotected_split Ptr sort _ sorts (@weak_time Ptr CAddress s)
    (· / 2) (fun n => Nat.div_le_self n 2) (unprotected sort (reverseCompareNodeMinPingTime s) (min 8)
      (unprotected sort (compareNetGroupKeyed getGroup s keyed) (min 4) (candidates s)))
  have rest := second.trans (third.append_left byPing)
  refine ⟨byGroup, byPing, longest, ⟨first.trans (rest.append_left byGroup), count1, ?_, ?_, ?_, ?_, ?_⟩, ?_⟩
  · intro p protectedNode q member
    have notLess := order1 p protectedNode q (rest.mem_iff.mpr member)
    exact not_lt.mp (of_decide_eq_false notLess)
  · rw [count2, rest.length_eq]
    rfl
  · intro p protectedNode q member
    have notLess := order2 p protectedNode q (third.mem_iff.mpr member)
    exact Int.not_lt.mp (of_decide_eq_false notLess)
  · rw [count3, third.length_eq]
    rfl
  · intro p protectedNode q member
    exact Int.not_lt.mp (of_decide_eq_false (order3 p protectedNode q member))
  · exact sorted.imp fun notLess => Int.not_lt.mp (of_decide_eq_false notLess)

end Main

/-- At most one node is disconnected: an inbound one that is neither whitelisted nor already disconnecting nor protected, a youngest
member of a largest group among the rest; and only if that group has another member or the new connection is preferred. -/
theorem attemptToEvictConnection_spec [DecidableEq Ptr] [LinearOrder Key] (getGroup : CAddress → List UInt8)
    (s : Connections Ptr CAddress) (keyed : List UInt8 → Key) (sort : (Ptr → Ptr → Bool) → List Ptr → List Ptr) (sorts : Sorts sort)
    (fPreferNewConnection : Bool) : ∃ after evicted byGroup byPing longest remaining,
      attemptToEvictConnection getGroup s keyed sort fPreferNewConnection = some (after, evicted) ∧
        Protection getGroup s keyed byGroup byPing longest remaining ∧ (evicted = false → after = s ∧
            (remaining = [] ∨ fPreferNewConnection = false ∧ ∀ p ∈ remaining, groupSize getGroup s remaining p ≤ 1)) ∧
          (evicted = true → ∃ victim, after = s.disconnect victim ∧ victim ∈ s.vNodes ∧ (s.node victim).fInbound = true ∧
            (s.node victim).fWhitelisted = false ∧ (s.node victim).fDisconnect = false ∧
              victim ∉ byGroup ∧ victim ∉ byPing ∧ victim ∉ longest ∧ Victim getGroup s remaining victim ∧
                (fPreferNewConnection = false → 2 ≤ groupSize getGroup s remaining victim)) := by
  obtain ⟨byGroup, byPing, longest, protection, sorted⟩ := @remaining_protection Ptr CAddress Key getGroup s _ keyed sort sorts
  rw [attemptToEvictConnection_eq sorts]
  by_cases empty : (remainingOf getGroup s keyed sort).isEmpty = true
  · refine ⟨s, false, byGroup, byPing, longest, _, if_pos empty, protection, fun _ => ⟨rfl, .inl (isEmpty_iff.mp empty)⟩, ?_⟩
    exact nofun
  obtain ⟨victim, head, spec, size⟩ := victim_head sorted (counted_all _) fun none => empty (isEmpty_iff.mpr none)
  rw [if_neg empty, evictFrom]
  by_cases single : (((remainingOf getGroup s keyed sort).foldl (Groups.turn getGroup s) {}).mapAddrCounts
      ((remainingOf getGroup s keyed sort).foldl (Groups.turn getGroup s) {}).naMostConnections).length ≤ 1 ∧ fPreferNewConnection = false
  · refine ⟨s, false, byGroup, byPing, longest, _, if_pos single, protection, fun _ => ⟨rfl, .inr ⟨single.2, fun p member => ?_⟩⟩, ?_⟩
    · exact Nat.le_trans (spec.most p member) (size ▸ single.1)
    · exact nofun
  · have evicts := congrArg (Option.map fun p => (s.disconnect p, true)) head
    refine ⟨s.disconnect victim, true, byGroup, byPing, longest, _, (if_neg single).trans evicts, protection,
      nofun, fun _ => ⟨victim, rfl, ?_⟩⟩
    have nodup : (byGroup ++ (byPing ++ (longest ++ remainingOf getGroup s keyed sort))).Nodup :=
      protection.whole.nodup_iff.mp (s.nodup.sublist filter_sublist)
    rw [nodup_append', nodup_append', nodup_append'] at nodup
    obtain ⟨_, ⟨_, ⟨_, _, third⟩, second⟩, first⟩ := nodup
    have last : victim ∈ longest ++ remainingOf getGroup s keyed sort := mem_append_right _ spec.member
    have later : victim ∈ byPing ++ (longest ++ remainingOf getGroup s keyed sort) := mem_append_right _ last
    have candidate := protection.whole.mem_iff.mpr (mem_append_right byGroup later)
    rw [candidates, mem_filter, Bool.and_eq_true, Bool.and_eq_true, Bool.not_eq_true', Bool.not_eq_true'] at candidate
    obtain ⟨connected, ⟨notWhitelisted, inbound⟩, notDisconnecting⟩ := candidate
    refine ⟨connected, inbound, notWhitelisted, notDisconnecting, fun inside => first inside later, fun inside => second inside last,
      fun inside => third inside spec.member, spec, fun notPreferred => ?_⟩
    rw [size]
    exact Nat.lt_of_not_le fun few => single ⟨few, notPreferred⟩

def twenty : Connections Nat Nat where
  vNodes := List.range 20
  node p := ⟨p / 2, false, true, false, (p * 7 % 20 : Nat), p⟩
  nodup := List.nodup_range

theorem twenty_evicts : ∃ after, attemptToEvictConnection (fun addr => [UInt8.ofNat addr]) twenty length mergeSorter true = some (after, true) ∧
    ∃ victim, after = twenty.disconnect victim ∧ victim ∈ twenty.vNodes := by
  obtain ⟨after, evicted, byGroup, byPing, longest, remaining, result, protection, kept, gone⟩ :=
    attemptToEvictConnection_spec (fun addr => [UInt8.ofNat addr]) twenty length mergeSorter mergeSorter_sorts true
  have whole := protection.whole.length_eq
  have all : (candidates twenty).length = 20 := by decide
  have count1 := protection.groupCount
  have count2 := protection.pingCount
  have count3 := protection.longestCount
  simp only [length_append] at whole count2 count3
  cases evicted with
  | false =>
    rcases (kept rfl).2 with none | ⟨preferred, _⟩
    · rw [none, length_nil] at whole count2 count3
      omega
    · cases preferred
  | true =>
    obtain ⟨victim, same, member, _⟩ := gone rfl
    exact ⟨after, result, victim, same, member⟩

end Longcoin.Eviction
