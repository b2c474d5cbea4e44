import Longcoin.WalletOrder

/-! What the new positions of a wallet's history are (`wallet/walletdb.cpp`). -/

namespace Longcoin.WalletOrder
open List

/-- For each item without a position the largest position of an older item. -/
def largestBefore (largest : Int) : List Int → List Int
  | [] => []
  | nOrderPos :: later =>
    if nOrderPos = -1 then largest :: largestBefore largest later else largestBefore (max largest nOrderPos) later

/-- A position moves up by as many slots as are not above it. -/
def shifted (slots : List Int) (nOrderPos : Int) : Int := nOrderPos + slots.countP fun slot => decide (slot ≤ nOrderPos)

/-- The first position above all slots and above where the positions up to `largest` move. -/
def nextSlot (slots : List Int) (largest : Int) : Int :=
  max (slots.getLast?.elim 0 (· + 1)) (shifted slots largest + 1)

def slotsAfter (slots : List Int) (largest : List Int) : List Int :=
  largest.foldl (fun slots largest => slots ++ [nextSlot slots largest]) slots

/-- The slots of the items without a position, given the positions of all items by time. -/
def slotsOf (positions : List Int) : List Int := slotsAfter [] (largestBefore (-1) positions)

theorem shifted_mono {slots : List Int} {first second : Int} (le : first ≤ second) : shifted slots first ≤ shifted slots second := by
  have more : slots.countP (fun slot => decide (slot ≤ first)) ≤ slots.countP fun slot => decide (slot ≤ second) :=
    countP_mono_left fun slot _ below => decide_eq_true ((of_decide_eq_true below).trans le)
  rw [shifted, shifted]
  omega

theorem shifted_strictMono {slots : List Int} {first second : Int} (less : first < second) : shifted slots first < shifted slots second := by
  have more : slots.countP (fun slot => decide (slot ≤ first)) ≤ slots.countP fun slot => decide (slot ≤ second) :=
    countP_mono_left fun slot _ below => decide_eq_true ((of_decide_eq_true below).trans less.le)
  rw [shifted, shifted]
  omega

theorem le_shifted (slots : List Int) (nOrderPos : Int) : nOrderPos ≤ shifted slots nOrderPos := by
  rw [shifted]
  omega

theorem shifted_append {slots more : List Int} {nOrderPos : Int} (above : ∀ slot ∈ more, nOrderPos < slot) :
    shifted (slots ++ more) nOrderPos = shifted slots nOrderPos := by
  have none : more.countP (fun slot => decide (slot ≤ nOrderPos)) = 0 := by
    rw [countP_eq_zero]
    intro slot member below
    exact absurd (of_decide_eq_true below) (not_le.mpr (above slot member))
  rw [shifted, shifted, countP_append, none, Nat.add_zero]

theorem shifted_max (slots : List Int) (first second : Int) :
    shifted slots (max first second) = max (shifted slots first) (shifted slots second) := by
  rcases le_total first second with le | le
  · rw [max_eq_right le, max_eq_right (shifted_mono le)]
  · rw [max_eq_left le, max_eq_left (shifted_mono le)]

theorem shifted_lt_nextSlot (slots : List Int) (largest : Int) : shifted slots largest < nextSlot slots largest :=
  Int.lt_iff_add_one_le.mpr (le_max_right _ _)

theorem nextSlot_append (slots : List Int) (largest : Int) :
    nextSlot (slots ++ [nextSlot slots largest]) largest = nextSlot slots largest + 1 := by
  have less := shifted_lt_nextSlot slots largest
  have above : ∀ slot ∈ [nextSlot slots largest], largest < slot := by
    intro slot member
    rw [mem_singleton.mp member]
    exact (le_shifted slots largest).trans_lt less
  rw [nextSlot, getLast?_concat, Option.elim_some, shifted_append above, max_eq_left (by omega)]

theorem nextSlot_max (slots : List Int) (largest nOrderPos : Int) :
    nextSlot slots (max largest nOrderPos) = max (nextSlot slots largest) (shifted slots nOrderPos + 1) := by
  rw [nextSlot, nextSlot, shifted_max, max_assoc]
  omega

structure Counters where
  next : Int
  offsets : List Int

/-- The new position of an item and the counters after it. -/
def Counters.place (counters : Counters) (nOrderPos : Int) : Int × Counters :=
  if nOrderPos = -1 then (counters.next, ⟨counters.next + 1, counters.offsets ++ [counters.next]⟩)
  else (shifted counters.offsets nOrderPos, ⟨max counters.next (shifted counters.offsets nOrderPos + 1), counters.offsets⟩)

/-- The new positions of some items and the counters after them. -/
def Counters.placeAll (counters : Counters) : List Int → List Int × Counters
  | [] => ([], counters)
  | nOrderPos :: later =>
    let placed := counters.place nOrderPos
    let rest := placed.2.placeAll later
    (placed.1 :: rest.1, rest.2)

/-- The counters are those of some slots, where the largest position so far is given. -/
structure Counters.Tracks (counters : Counters) (largest : Int) : Prop where
  next_eq : counters.next = nextSlot counters.offsets largest
  increasing : counters.offsets.Pairwise (· < ·)
  below : ∀ slot ∈ counters.offsets, 0 ≤ slot ∧ slot < counters.next
  nonneg : 0 ≤ counters.next

variable {counters : Counters}

theorem Counters.Tracks.push {largest : Int} (tracks : counters.Tracks largest) :
    Counters.Tracks ⟨counters.next + 1, counters.offsets ++ [counters.next]⟩ largest where
  next_eq := by
    change counters.next + 1 = nextSlot (counters.offsets ++ [counters.next]) largest
    rw [tracks.next_eq, nextSlot_append]
  increasing := by
    refine pairwise_append.mpr ⟨tracks.increasing, pairwise_singleton _ _, fun slot member last same => ?_⟩
    rw [mem_singleton.mp same]
    exact (tracks.below slot member).2
  below slot member := by
    rcases mem_append.mp member with before | last
    · exact ⟨(tracks.below slot before).1, (tracks.below slot before).2.trans (Int.lt_succ _)⟩
    · rw [mem_singleton.mp last]
      exact ⟨tracks.nonneg, Int.lt_succ _⟩
  nonneg := tracks.nonneg.trans (Int.lt_succ _).le

theorem Counters.Tracks.pass {largest : Int} (tracks : counters.Tracks largest) (nOrderPos : Int) :
    Counters.Tracks ⟨max counters.next (shifted counters.offsets nOrderPos + 1), counters.offsets⟩ (max largest nOrderPos) where
  next_eq := by
    change max counters.next _ = nextSlot counters.offsets (max largest nOrderPos)
    rw [nextSlot_max, tracks.next_eq]
  increasing := tracks.increasing
  below slot member := ⟨(tracks.below slot member).1, (tracks.below slot member).2.trans_le (le_max_left _ _)⟩
  nonneg := tracks.nonneg.trans (le_max_left _ _)

/-- What the loop makes of some positions. `more` are the slots it gives out. -/
structure Placed (counters : Counters) (positions news : List Int) (last : Counters) (more : List Int) : Prop where
  offsets_eq : last.offsets = counters.offsets ++ more
  above : ∀ slot ∈ more, counters.next ≤ slot
  length_eq : news.length = positions.length
  moved : ∀ pair ∈ positions.zip news, pair.1 ≠ -1 → pair.2 = shifted last.offsets pair.1
  perm : news.Perm ((positions.filter fun nOrderPos => decide (nOrderPos ≠ -1)).map (shifted last.offsets) ++ more)
  grows : counters.next ≤ last.next
  below : ∀ new ∈ news, 0 ≤ new ∧ new < last.next
  reached : last.next = counters.next ∨ ∃ new ∈ news, last.next = new + 1

theorem Placed.unplaced {last : Counters} {later news more : List Int} (nonneg : 0 ≤ counters.next)
    (rest : Placed ⟨counters.next + 1, counters.offsets ++ [counters.next]⟩ later news last more) :
    Placed counters (-1 :: later) (counters.next :: news) last (counters.next :: more) where
  offsets_eq := by rw [rest.offsets_eq, append_assoc, singleton_append]
  above slot member := by
    rcases mem_cons.mp member with rfl | later
    · exact le_rfl
    · exact (Int.lt_succ _).le.trans (rest.above slot later)
  length_eq := by rw [length_cons, length_cons, rest.length_eq]
  moved pair member given := by
    rw [zip_cons_cons] at member
    rcases mem_cons.mp member with rfl | later
    · exact absurd rfl given
    · exact rest.moved pair later given
  perm := by
    rw [filter_cons, if_neg (by decide)]
    exact (rest.perm.cons _).trans perm_middle.symm
  grows := (Int.lt_succ _).le.trans rest.grows
  below new member := by
    rcases mem_cons.mp member with rfl | later
    · exact ⟨nonneg, Int.lt_of_add_one_le rest.grows⟩
    · exact rest.below new later
  reached := by
    rcases rest.reached with same | ⟨new, member, same⟩
    · exact .inr ⟨counters.next, mem_cons_self, same⟩
    · exact .inr ⟨new, mem_cons_of_mem _ member, same⟩

theorem Placed.placed {last : Counters} {later news more : List Int} {nOrderPos : Int} (given : nOrderPos ≠ -1)
    (nonneg : 0 ≤ nOrderPos)
    (rest : Placed ⟨max counters.next (shifted counters.offsets nOrderPos + 1), counters.offsets⟩ later news last more) :
    Placed counters (nOrderPos :: later) (shifted counters.offsets nOrderPos :: news) last more := by
  have le := le_shifted counters.offsets nOrderPos
  have same : shifted last.offsets nOrderPos = shifted counters.offsets nOrderPos := by
    rw [rest.offsets_eq]
    refine shifted_append fun slot member => ?_
    have above := (le_max_right _ _).trans (rest.above slot member)
    omega
  exact {
    offsets_eq := rest.offsets_eq
    above := fun slot member => (le_max_left _ _).trans (rest.above slot member)
    length_eq := by rw [length_cons, length_cons, rest.length_eq]
    moved := by
      intro pair member given'
      rw [zip_cons_cons] at member
      rcases mem_cons.mp member with rfl | later
      · exact same.symm
      · exact rest.moved pair later given'
    perm := by
      rw [filter_cons, if_pos (decide_eq_true given), map_cons, same, cons_append]
      exact rest.perm.cons _
    grows := (le_max_left _ _).trans rest.grows
    below := by
      intro new member
      rcases mem_cons.mp member with rfl | later
      · exact ⟨nonneg.trans le, Int.lt_of_add_one_le ((le_max_right _ _).trans rest.grows)⟩
      · exact rest.below new later
    reached := by
      rcases rest.reached with last_ | ⟨new, member, last_⟩
      · rcases max_choice counters.next (shifted counters.offsets nOrderPos + 1) with here | here
        · exact .inl (last_.trans here)
        · exact .inr ⟨_, mem_cons_self, last_.trans here⟩
      · exact .inr ⟨new, mem_cons_of_mem _ member, last_⟩ }

theorem Counters.Tracks.placeAll {largest : Int} (tracks : counters.Tracks largest) {positions : List Int}
    (given : ∀ nOrderPos ∈ positions, nOrderPos = -1 ∨ 0 ≤ nOrderPos) :
    (counters.placeAll positions).2.offsets = slotsAfter counters.offsets (largestBefore largest positions) ∧
    (counters.placeAll positions).2.offsets.Pairwise (· < ·) ∧
    ∃ more, Placed counters positions (counters.placeAll positions).1 (counters.placeAll positions).2 more := by
  induction positions generalizing counters largest with
  | nil =>
    refine ⟨rfl, tracks.increasing, [], ?_⟩
    exact ⟨(append_nil _).symm, nofun, rfl, nofun,
      .nil, le_rfl, nofun, .inl rfl⟩
  | cons nOrderPos later ih =>
    have given' := fun position member => given position (mem_cons_of_mem nOrderPos member)
    rw [Counters.placeAll, Counters.place]
    by_cases unplaced : nOrderPos = -1
    · rw [if_pos unplaced]
      obtain ⟨slots, increasing, more, rest⟩ := ih tracks.push given'
      refine ⟨?_, increasing, counters.next :: more, ?_⟩
      · rw [largestBefore, if_pos unplaced, slotsAfter, foldl_cons, ← tracks.next_eq]
        exact slots
      · rw [unplaced]
        exact rest.unplaced tracks.nonneg
    · rw [if_neg unplaced]
      obtain ⟨slots, increasing, more, rest⟩ := ih (tracks.pass nOrderPos) given'
      refine ⟨?_, increasing, more, ?_⟩
      · rw [largestBefore, if_neg unplaced]
        exact slots
      · exact rest.placed unplaced ((given nOrderPos mem_cons_self).resolve_left unplaced)

theorem tracks_start : Counters.Tracks ⟨0, []⟩ (-1) where
  next_eq := rfl
  increasing := .nil
  below _ none := absurd none not_mem_nil
  nonneg := le_rfl

theorem placed_slots {positions : List Int} (given : ∀ nOrderPos ∈ positions, nOrderPos = -1 ∨ 0 ≤ nOrderPos) :
    (slotsOf positions).Pairwise (· < ·) ∧ (Counters.placeAll ⟨0, []⟩ positions).2.offsets = slotsOf positions ∧
    Placed ⟨0, []⟩ positions (Counters.placeAll ⟨0, []⟩ positions).1 (Counters.placeAll ⟨0, []⟩ positions).2 (slotsOf positions) := by
  obtain ⟨slots, increasing, more, placed⟩ := tracks_start.placeAll given
  have same : more = slotsOf positions := placed.offsets_eq.symm.trans slots
  rw [slots] at increasing
  exact ⟨increasing, slots, same ▸ placed⟩

/-- The positions of the items that are moved and of those that are left as they are get in each other's way nowhere. -/
structure Separate (positions others : List Int) : Prop where
  free : ∀ nOrderPos ∈ positions, nOrderPos ≠ -1 → shifted (slotsOf positions) nOrderPos ∉ slotsOf positions
  placed : ∀ other ∈ others, other ≠ -1
  apart : ∀ other ∈ others, other ∉ slotsOf positions
  below : ∀ other ∈ others, (∃ slot ∈ slotsOf positions, other < slot) ∨ ∃ nOrderPos ∈ positions, other < nOrderPos
  ordered : ∀ other ∈ others, ∀ nOrderPos ∈ positions, nOrderPos ≠ -1 → nOrderPos < other →
    shifted (slotsOf positions) nOrderPos < other

/-- The new positions, with those left as they are, are in order. -/
structure InOrder (positions others news : List Int) (next : Int) : Prop where
  nonneg : ∀ new ∈ news ++ others, 0 ≤ new
  below : ∀ new ∈ news ++ others, new < next
  distinct : (news ++ others).Nodup
  ordered : ∀ other ∈ others, ∀ nOrderPos ∈ positions, nOrderPos ≠ -1 → nOrderPos < other →
    shifted (slotsOf positions) nOrderPos < other

section Positions

variable {positions others news : List Int} {last : Counters}

theorem Placed.mem_news (placed : Placed ⟨0, []⟩ positions news last (slotsOf positions)) {new : Int} : new ∈ news ↔
    (∃ nOrderPos ∈ positions, nOrderPos ≠ -1 ∧ shifted (slotsOf positions) nOrderPos = new) ∨ new ∈ slotsOf positions := by
  have offsets : last.offsets = slotsOf positions := placed.offsets_eq
  rw [placed.perm.mem_iff, mem_append, mem_map, offsets]
  simp only [mem_filter, decide_eq_true_eq, and_assoc]

theorem Placed.nodup_iff (placed : Placed ⟨0, []⟩ positions news last (slotsOf positions))
    (distinct : (positions.filter fun nOrderPos => decide (nOrderPos ≠ -1)).Nodup) (increasing : (slotsOf positions).Pairwise (· < ·)) :
    news.Nodup ↔ ∀ nOrderPos ∈ positions, nOrderPos ≠ -1 → shifted (slotsOf positions) nOrderPos ∉ slotsOf positions := by
  have offsets : last.offsets = slotsOf positions := placed.offsets_eq
  have moved : ((positions.filter fun nOrderPos => decide (nOrderPos ≠ -1)).map (shifted (slotsOf positions))).Nodup :=
    distinct.map fun first second same => by
      rcases lt_trichotomy first second with less | same' | more
      · exact absurd same (shifted_strictMono less).ne
      · exact same'
      · exact absurd same (shifted_strictMono more).ne'
  rw [placed.perm.nodup_iff, offsets, nodup_append']
  constructor
  · rintro ⟨-, -, disjoint⟩ nOrderPos member given inside
    refine disjoint (mem_map_of_mem (mem_filter.mpr ⟨member, decide_eq_true given⟩)) inside
  · intro free
    refine ⟨moved, increasing.imp ne_of_lt, ?_⟩
    intro new member inside
    obtain ⟨nOrderPos, listed, rfl⟩ := mem_map.mp member
    obtain ⟨member', given⟩ := mem_filter.mp listed
    exact free nOrderPos member' (of_decide_eq_true given) inside

variable (given : ∀ nOrderPos ∈ positions ++ others, nOrderPos = -1 ∨ 0 ≤ nOrderPos)
  (distinct : ((positions ++ others).filter fun nOrderPos => decide (nOrderPos ≠ -1)).Nodup)

include distinct in
theorem shifted_ne {nOrderPos other : Int} (member : nOrderPos ∈ positions) (placed : nOrderPos ≠ -1) (member' : other ∈ others)
    (ordered : nOrderPos < other → shifted (slotsOf positions) nOrderPos < other) : shifted (slotsOf positions) nOrderPos ≠ other := by
  intro same
  have le := le_shifted (slotsOf positions) nOrderPos
  rcases lt_or_eq_of_le (le.trans_eq same) with less | same'
  · exact absurd same (ordered less).ne
  · rw [filter_append] at distinct
    refine (nodup_append'.mp distinct).2.2 (mem_filter.mpr ⟨member, decide_eq_true placed⟩)
      (mem_filter.mpr ⟨same' ▸ member', decide_eq_true placed⟩)

include given distinct in
theorem inOrder_iff (placed : Placed ⟨0, []⟩ positions news last (slotsOf positions)) (increasing : (slotsOf positions).Pairwise (· < ·)) :
    InOrder positions others news last.next ↔ Separate positions others := by
  have distinct' : (positions.filter fun nOrderPos => decide (nOrderPos ≠ -1)).Nodup := by
    rw [filter_append] at distinct
    exact (nodup_append'.mp distinct).1
  constructor
  · intro inOrder
    obtain ⟨nodup, -, disjoint⟩ := nodup_append'.mp inOrder.distinct
    refine ⟨(placed.nodup_iff distinct' increasing).mp nodup, fun other member => ?_, fun other member inside => ?_,
      fun other member => ?_, inOrder.ordered⟩
    · have nonneg := inOrder.nonneg other (mem_append_right _ member)
      omega
    · exact disjoint (placed.mem_news.mpr (.inr inside)) member
    · have nonneg := inOrder.nonneg other (mem_append_right _ member)
      have below := inOrder.below other (mem_append_right _ member)
      rcases placed.reached with start | ⟨new, listed, same⟩
      · have zero : last.next = 0 := start
        omega
      · have different : new ≠ other := fun here => disjoint listed (here ▸ member)
        have above : other < new := by omega
        rcases placed.mem_news.mp listed with ⟨nOrderPos, member', given', rfl⟩ | slot
        · refine .inr ⟨nOrderPos, member', ?_⟩
          by_contra not_above
          have less : nOrderPos ≠ other := by
            rintro rfl
            rw [filter_append] at distinct
            exact (nodup_append'.mp distinct).2.2 (mem_filter.mpr ⟨member', decide_eq_true given'⟩)
              (mem_filter.mpr ⟨member, decide_eq_true given'⟩)
          have ordered := inOrder.ordered other member nOrderPos member' given' (by omega)
          omega
        · exact .inl ⟨new, slot, above⟩
  · intro separate
    have others_nodup : others.Nodup := by
      rw [filter_append] at distinct
      have filtered := (nodup_append'.mp distinct).2.1
      rwa [filter_eq_self.mpr fun other member => decide_eq_true (separate.placed other member)] at filtered
    refine ⟨fun new member => ?_, fun new member => ?_, nodup_append'.mpr ⟨?_, others_nodup, ?_⟩, separate.ordered⟩
    · rcases mem_append.mp member with inside | outside
      · exact (placed.below new inside).1
      · exact (given new (mem_append_right _ outside)).resolve_left (separate.placed new outside)
    · rcases mem_append.mp member with inside | outside
      · exact (placed.below new inside).2
      · rcases separate.below new outside with ⟨slot, inside, less⟩ | ⟨nOrderPos, inside, less⟩
        · exact less.trans (placed.below slot (placed.mem_news.mpr (.inr inside))).2
        · have nonneg := (given new (mem_append_right _ outside)).resolve_left (separate.placed new outside)
          have moved := placed.mem_news.mpr (.inl ⟨nOrderPos, inside, by omega, rfl⟩)
          exact (less.trans_le (le_shifted _ _)).trans (placed.below _ moved).2
    · exact (placed.nodup_iff distinct' increasing).mpr separate.free
    · intro new inside outside
      rcases placed.mem_news.mp inside with ⟨nOrderPos, member, given', same⟩ | slot
      · exact shifted_ne distinct member given' outside (separate.ordered new outside nOrderPos member given') same
      · exact separate.apart new outside slot

end Positions

end Longcoin.WalletOrder
