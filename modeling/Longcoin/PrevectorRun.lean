import Longcoin.Prevector

/-! Runs of operations on several vectors that share the heap. -/

namespace Longcoin.Prevector
open Library.Records List Option Bool Function

variable {α : Type} {P : Template α} {o other : Place} {cap cap' : Nat} {values values' : List α}

theorem Held.at? (held : Held P o cap values) {pos : Nat} {value : α} (there : values[pos]? = some value) :
    at? P o pos = some value := by
  obtain ⟨cells, well, stored⟩ := held.stored
  unfold Prevector.at?
  rw [well.items]
  exact stored.decode there

theorem Held.elementsFrom (held : Held P o cap values) {left pos : Nat} (rest : pos + left = values.length) :
    elementsFrom P o left pos = some (values.drop pos) := by
  induction left generalizing pos with
  | zero =>
    rw [drop_of_length_le (by omega)]
    rfl
  | succ left ih =>
    have there : values[pos]? = some values[pos] := getElem?_eq_getElem (by omega)
    unfold Prevector.elementsFrom
    rw [held.at? there, ih (by omega), drop_eq_getElem_cons (show pos < values.length by omega)]
    rfl

theorem Held.elements (held : Held P o cap values) : elements P o = some values := by
  have count := held.size
  unfold Prevector.elements
  rw [held.elementsFrom (by omega), drop_zero]

theorem Held.equalFrom [BEq α] (held : Held P o cap values) (held' : Held P other cap' values') {left pos : Nat}
    (rest : pos + left = values.length) (rest' : pos + left = values'.length) :
    equalFrom P o other left pos = some (values.drop pos == values'.drop pos) := by
  induction left generalizing pos with
  | zero =>
    rw [drop_of_length_le (by omega), drop_of_length_le (by omega)]
    rfl
  | succ left ih =>
    have there : values[pos]? = some values[pos] := getElem?_eq_getElem (by omega)
    have there' : values'[pos]? = some values'[pos] := getElem?_eq_getElem (by omega)
    unfold Prevector.equalFrom
    rw [held.at? there, held'.at? there', ih (by omega) (by omega),
      drop_eq_getElem_cons (show pos < values.length by omega),
      drop_eq_getElem_cons (show pos < values'.length by omega), cons_beq_cons]
    cases same : values[pos] == values'[pos] with
    | true => simp [bne, same]
    | false => simp [bne, same]

theorem beq_lengths [BEq α] {front back : List α} (different : front.length ≠ back.length) : (front == back) = false := by
  induction front generalizing back with
  | nil =>
    cases back with
    | nil => exact absurd rfl different
    | cons => rfl
  | cons value front ih =>
    cases back with
    | nil => rfl
    | cons value' back =>
      rw [List.cons_beq_cons, ih fun same => different (congrArg (· + 1) same), Bool.and_false]

theorem Held.equal [BEq α] (held : Held P o cap values) (held' : Held P other cap' values') :
    equal P o other = some (values == values') := by
  have count := held.size
  have count' := held'.size
  unfold Prevector.equal
  by_cases same : Prevector.size P other.self = Prevector.size P o.self
  · rw [if_neg (not_not.mpr same), held.equalFrom held' (by omega) (by omega)]
    rfl
  · rw [if_pos same, beq_lengths (by omega)]

/-- What a direct vector uses beyond the fields of the heap lies in the other one's storage as well. -/
def Agree (P : Template α) (v other : Prevector) : Prop :=
  isDirect P v = true → ∀ pos, P.overlay ≤ pos → pos < size P v * P.T.width → other._union[pos]? = v._union[pos]?

/-- A vector whose fields of the heap went into the storage of another one. -/
def grafted (P : Template α) (v other : Prevector) : Prevector :=
  ⟨v._size, v._union.take P.overlay ++ other._union.drop P.overlay⟩

theorem overlay_le (P : Template α) : P.overlay ≤ P.unionLength := Nat.le_max_right _ _

section

variable {v other : Prevector} (length : v._union.length = P.unionLength)
include length

theorem grafted_cell (pos : Nat) :
    (grafted P v other)._union[pos]? = if pos < P.overlay then v._union[pos]? else other._union[pos]? := by
  have front : (v._union.take P.overlay).length = P.overlay := by
    have := overlay_le P
    rw [length_take]
    omega
  unfold grafted
  split
  next low => rw [getElem?_append_left (by omega), getElem?_take_of_lt low]
  next high =>
    rw [getElem?_append_right (by omega), front, getElem?_drop]
    congr 1
    omega

theorem grafted_fields :
    capacityField P (grafted P v other) = capacityField P v ∧ indirectField P (grafted P v other) = indirectField P v := by
  apply fields_congr
  have := overlay_le P
  unfold grafted
  rw [take_left' (by rw [length_take]; omega)]

theorem grafted_own : own P (grafted P v other) = own P v := by
  unfold own
  rw [(grafted_fields length).2]
  rfl

end

theorem holds_iff {cells : List Cell} :
    P.T.Holds cells values ↔ ∀ pos, pos < values.length * P.T.width → cells[pos]? = (P.T.all values)[pos]? := by
  constructor
  · rintro ⟨rest, rfl⟩ pos inside
    rw [getElem?_append_left (by rw [Layout.length_all]; exact inside)]
  · intro same
    rw [Layout.Holds, prefix_iff_eq_take]
    apply ext_getElem?
    intro pos
    rw [Layout.length_all]
    by_cases inside : pos < values.length * P.T.width
    · rw [getElem?_take_of_lt inside, same pos inside]
    · rw [getElem?_take_eq_none (by omega), getElem?_eq_none (by rw [Layout.length_all]; omega)]

theorem Held.grafted_iff {v other : Prevector} {heap : Heap} (held : Held P ⟨v, heap⟩ cap values)
    (length : other._union.length = P.unionLength) : Held P ⟨grafted P v other, heap⟩ cap values ↔ Agree P v other := by
  obtain ⟨cells, well, stored⟩ := held.stored
  have union : v._union.length = P.unionLength := well.union
  have count : Prevector.size P v = values.length := held.size
  have fields := @grafted_fields α P v other union
  have total : (grafted P v other)._union.length = P.unionLength := by
    have := overlay_le P
    unfold grafted
    rw [length_append, length_take, length_drop]
    omega
  cases mode : isDirect P v with
  | true =>
    obtain ⟨rfl, rfl⟩ := well.direct mode
    have mode' : isDirect P (grafted P v other) = true := mode
    have exact_ : P.T.Holds (grafted P v other)._union values ↔ Agree P v other := by
      rw [holds_iff] at stored ⊢
      constructor
      · intro same direct pos high inside
        rw [count] at inside
        have here := same pos inside
        rw [grafted_cell union, if_neg (by omega)] at here
        rw [here, stored pos inside]
      · intro agree pos inside
        rw [grafted_cell union]
        split
        · exact stored pos inside
        next high =>
          rw [agree mode pos (by omega) (by rw [count]; exact inside)]
          exact stored pos inside
    constructor
    · intro after
      obtain ⟨cells', well', stored'⟩ := after.stored
      rw [(well'.direct mode').2] at stored'
      exact exact_.mp stored'
    · intro agree
      refine ⟨held.size, held.within, _, ⟨total, if_pos mode', if_pos mode', ?_, ?_⟩, exact_.mpr agree⟩
      · rw [total]
        exact Nat.le_max_left _ _
      · exact fun indirect => absurd (mode'.symm.trans indirect) false_ne_true.symm
  | false =>
    have mode' : isDirect P (grafted P v other) = false := mode
    have items' : items P ⟨grafted P v other, heap⟩ = items P ⟨v, heap⟩ := by
      unfold items
      rw [mode, mode', fields.2]
      rfl
    have capacity' : capacity P (grafted P v other) = capacity P v := by
      unfold capacity
      rw [mode, mode', fields.1]
    constructor
    · exact fun _ direct => absurd (mode.symm.trans direct) false_ne_true
    · intro _
      refine ⟨held.size, held.within, cells, ⟨total, items'.trans well.items, capacity'.trans well.capacity, well.room, ?_⟩,
        stored⟩
      intro _
      rw [fields.2]
      exact well.owned mode

variable {ι : Type} [DecidableEq ι]

structure State (ι : Type) where
  heap : Heap := {}
  vectors : ι → Prevector

def State.on (s : State ι) (i : ι) : Place := ⟨s.vectors i, s.heap⟩

def State.set (s : State ι) (i : ι) (o : Place) : State ι := ⟨o.heap, Function.update s.vectors i o.self⟩

/-- A variable that is constructed anew is destroyed first; its storage then holds whatever it may. -/
inductive Action (ι α : Type) where
  | sized (i : ι) (storage : List Cell) (n : Nat)
  | construct (i : ι) (storage : List Cell) (values : List α)
  | copied (i : ι) (storage : List Cell) (j : ι)
  | assignFrom (i j : ι)
  | assign (i : ι) (values : List α)
  | pushBack (i : ι) (value : α)
  | popBack (i : ι)
  | insert (i : ι) (p : Nat) (values : List α)
  | erase (i : ι) (first last : Nat)
  | resize (i : ι) (n : Nat)
  | reserve (i : ι) (n : Nat)
  | shrinkToFit (i : ι)
  | clear (i : ι)
  | swap (i j : ι)

def State.step (P : Template α) (s : State ι) : Action ι α → Option (State ι)
  | .sized i storage n => do s.set i (← Prevector.resize P (empty storage (← destroy P (s.on i)).heap) n)
  | .construct i storage values => do s.set i (← Prevector.construct P storage (← destroy P (s.on i)).heap values)
  | .copied i storage j => do
    let heap := (← destroy P (s.on i)).heap
    s.set i (← Prevector.construct P storage heap (← Prevector.elements P ⟨s.vectors j, heap⟩))
  | .assignFrom i j =>
    if j = i then some s else do s.set i (← Prevector.assignFrom P (s.on i) (← Prevector.elements P (s.on j)))
  | .assign i values => do s.set i (← Prevector.assign P (s.on i) values)
  | .pushBack i value => do s.set i (← Prevector.pushBack P (s.on i) value)
  | .popBack i => some (s.set i (Prevector.popBack (s.on i)))
  | .insert i p values => do s.set i (← Prevector.insert P (s.on i) p values)
  | .erase i first last => do s.set i (← Prevector.erase P (s.on i) first last)
  | .resize i n => do s.set i (← Prevector.resize P (s.on i) n)
  | .reserve i n => do s.set i (← Prevector.reserve P (s.on i) n)
  | .shrinkToFit i => do s.set i (← Prevector.shrinkToFit P (s.on i))
  | .clear i => do s.set i (← Prevector.clear P (s.on i))
  | .swap i j =>
    let both := Prevector.swap P (s.vectors i) (s.vectors j)
    some { s with vectors := Function.update (Function.update s.vectors i both.1) j both.2 }

/-- What `std::vector` does. -/
def spec (P : Template α) (x : ι → List α) : Action ι α → ι → List α
  | .sized i _ n => Function.update x i (List.replicate n P.zero)
  | .construct i _ values => Function.update x i values
  | .copied i _ j => Function.update x i (x j)
  | .assignFrom i j => Function.update x i (x j)
  | .assign i values => Function.update x i values
  | .pushBack i value => Function.update x i (x i ++ [value])
  | .popBack i => Function.update x i (x i).dropLast
  | .insert i p values => Function.update x i ((x i).take p ++ values ++ (x i).drop p)
  | .erase i first last => Function.update x i ((x i).take first ++ (x i).drop last)
  | .resize i n => Function.update x i (resized P.zero (x i) n)
  | .reserve _ _ => x
  | .shrinkToFit _ => x
  | .clear i => Function.update x i []
  | .swap i j => Function.update (Function.update x i (x j)) j (x i)

/-- Positions that do not go beyond `Diff`, which has a sign, and counts that do not go beyond `Size`. -/
abbrev Small (P : Template α) (n : Nat) : Prop := n + P.N + 1 < 256 ^ P.sizeofSize ∧ 2 * n < 256 ^ P.sizeofDiff

/-- Counts that do not overflow, also where half as much again is reserved. -/
abbrev Fits (P : Template α) (n : Nat) : Prop := n + n >>> 1 + P.N + 1 < 256 ^ P.sizeofSize ∧ 2 * n < 256 ^ P.sizeofDiff

/-- Valid positions and sizes that fit; no vector is copied into its own place. -/
def Valid (P : Template α) (x : ι → List α) : Action ι α → Prop
  | .sized _ storage n => storage.length = P.unionLength ∧ Fits P n
  | .construct _ storage values => storage.length = P.unionLength ∧ Fits P values.length
  | .copied i storage j => storage.length = P.unionLength ∧ i ≠ j
  | .assignFrom _ _ => True
  | .assign _ values => Fits P values.length
  | .pushBack i _ => Fits P ((x i).length + 1)
  | .popBack i => x i ≠ []
  | .insert i p values => p ≤ (x i).length ∧ Fits P ((x i).length + values.length)
  | .erase i first last => first ≤ last ∧ last ≤ (x i).length
  | .resize _ n => Fits P n
  | .reserve _ n => n < 256 ^ P.sizeofSize
  | .shrinkToFit _ => True
  | .clear _ => True
  | .swap _ _ => True

/-- Two vectors that exchange the fields of the heap only have no elements beyond them that differ. -/
def SwapsRight (P : Template α) (s : State ι) : Action ι α → Prop
  | .swap i j => (s.vectors i)._size &&& (s.vectors j)._size &&& 1 ≠ 0 →
    Agree P (s.vectors i) (s.vectors j) ∧ Agree P (s.vectors j) (s.vectors i)
  | _ => True

/-- Each vector holds the values of its counterpart, and no block has two owners. -/
structure Holds (P : Template α) (s : State ι) (x : ι → List α) : Prop where
  held : ∀ i, ∃ cap, Held P (s.on i) cap (x i)
  apart : ∀ i j address, i ≠ j → own P (s.vectors i) = some address → own P (s.vectors j) ≠ some address
  fits : ∀ i, Small P (x i).length

variable {s s' : State ι} {x : ι → List α}

theorem Held.own_below (held : Held P o cap values) {address : Nat} (mine : own P o.self = some address) :
    address < o.heap.next := by
  obtain ⟨cells, well, -⟩ := held.stored
  cases mode : isDirect P o.self with
  | true =>
    rw [own, if_pos mode] at mine
    cases mine
  | false =>
    obtain ⟨-, address', field, below, -⟩ := well.owned mode
    rw [own, if_neg (by rw [mode]; exact false_ne_true), field] at mine
    cases mine
    exact below

theorem Held.frame {v : Prevector} {heap heap' : Heap} (held : Held P ⟨v, heap⟩ cap values) (next : heap.next ≤ heap'.next)
    (same : ∀ address, own P v = some address → heap'.block address = heap.block address) : Held P ⟨v, heap'⟩ cap values := by
  obtain ⟨cells, well, stored⟩ := held.stored
  refine ⟨held.size, held.within, cells, ?_, stored⟩
  cases mode : isDirect P v with
  | true =>
    refine ⟨well.union, ?_, well.capacity, well.room, fun indirect => absurd (mode.symm.trans indirect) false_ne_true.symm⟩
    rw [(well.direct mode).2]
    exact if_pos mode
  | false =>
    obtain ⟨above, address, field, below, block⟩ := well.owned mode
    have mine : own P v = some address := by
      unfold own
      rw [mode, if_neg Bool.false_ne_true]
      exact field
    have block' : heap'.block address = some cells := (same address mine).trans block
    refine ⟨well.union, ?_, well.capacity, well.room, fun _ => ⟨above, address, field, below.trans_le next, block'⟩⟩
    unfold items
    rw [mode, if_neg Bool.false_ne_true]
    rw [show indirectField P v = some address from field]
    exact block'

theorem Holds.set (good : Holds P s x) {i : ι} {o' : Place} (held' : Held P o' cap' values') (frame : Frame P (s.on i) o')
    (fits : Small P values'.length) : Holds P (s.set i o') (update x i values') := by
  have below : ∀ j address, own P (s.vectors j) = some address → address < s.heap.next := by
    intro j address mine
    obtain ⟨_, held⟩ := good.held j
    exact held.own_below mine
  have mine : (s.set i o').vectors i = o'.self := update_self ..
  have theirs : ∀ j, j ≠ i → (s.set i o').vectors j = s.vectors j := fun j other => update_of_ne other ..
  have different : ∀ j address, j ≠ i → own P o'.self = some address → own P (s.vectors j) ≠ some address := by
    intro j address other owned theirs
    rcases frame.owned address owned with before | fresh
    · exact good.apart i j address other.symm before theirs
    · have := below j address theirs
      change s.heap.next ≤ address at fresh
      omega
  constructor
  · intro j
    by_cases same : j = i
    · subst same
      rw [update_self, State.on, mine]
      exact ⟨cap', held'⟩
    · rw [update_of_ne same, State.on, theirs j same]
      obtain ⟨capJ, heldJ⟩ := good.held j
      refine ⟨capJ, heldJ.frame frame.next fun address owned => ?_⟩
      exact frame.others address (below j address owned) fun other => good.apart i j address (Ne.symm same) other owned
  · intro j k address apart ownJ ownK
    by_cases first : j = i
    · subst first
      rw [mine] at ownJ
      rw [theirs k apart.symm] at ownK
      exact different k address apart.symm ownJ ownK
    · rw [theirs j first] at ownJ
      by_cases second : k = i
      · subst second
        rw [mine] at ownK
        exact different j address first ownK ownJ
      · rw [theirs k second] at ownK
        exact good.apart j k address apart ownJ ownK
  · intro j
    by_cases same : j = i
    · subst same
      rw [update_self]
      exact fits
    · rw [update_of_ne same]
      exact good.fits j

theorem Yields.step (good : Holds P s x) {i : ι} {result : Option Place} {least : Nat}
    (yields : Yields P (s.on i) result least values') (fits : Small P values'.length) :
    ∃ s', (result >>= fun o' => some (s.set i o')) = some s' ∧ Holds P s' (update x i values') := by
  obtain ⟨o', cap', rfl, held', frame, -⟩ := yields
  exact ⟨_, rfl, good.set held' frame fits⟩

omit [DecidableEq ι] in
theorem Holds.rebuild (good : Holds P s x) (i : ι) :
    ∃ o, destroy P (s.on i) = some o ∧ (∀ j, i ≠ j → ∃ cap, Held P ⟨s.vectors j, o.heap⟩ cap (x j)) ∧
      ∀ storage o', Frame P (empty storage o.heap) o' → Frame P (s.on i) o' := by
  obtain ⟨_, held⟩ := good.held i
  obtain ⟨o, whole, next, others⟩ := destroy_spec held
  refine ⟨o, whole, ?_, ?_⟩
  · intro j apart
    obtain ⟨cap, heldJ⟩ := good.held j
    refine ⟨cap, heldJ.frame next fun address owned => ?_⟩
    exact others address (heldJ.own_below owned) fun mine => good.apart i j address apart mine owned
  · intro storage o' frame
    have none : own P (empty storage o.heap).self = none := if_pos (decide_eq_true (Nat.zero_le _))
    refine ⟨next.trans frame.next, ?_, ?_⟩
    · intro address below apart
      rw [frame.others address (below.trans_le next) (by rw [none]; exact fun wrong => nomatch wrong)]
      exact others address below apart
    · intro address mine
      rcases frame.owned address mine with before | fresh
      · rw [none] at before
        cases before
      · exact .inr (next.trans fresh)

theorem Yields.rebuild (good : Holds P s x) {i : ι} {place : Place} {storage : List Cell} {result : Option Place} {least : Nat}
    (frames : ∀ o', Frame P (empty storage place.heap) o' → Frame P (s.on i) o')
    (yields : Yields P (empty storage place.heap) result least values') (fits : Small P values'.length) :
    ∃ s', (result >>= fun o' => some (s.set i o')) = some s' ∧ Holds P s' (update x i values') := by
  obtain ⟨o', cap', whole, held', frame, enough⟩ := yields
  exact Yields.step good ⟨o', cap', whole, held', frames o' frame, enough⟩ fits

theorem Holds.exchange (good : Holds P s x) {i j : ι} {v w : Prevector} (heldI : Held P ⟨v, s.heap⟩ cap (x j))
    (heldJ : Held P ⟨w, s.heap⟩ cap' (x i)) (ownI : own P v = own P (s.vectors j)) (ownJ : own P w = own P (s.vectors i)) :
    Holds P { s with vectors := update (update s.vectors i v) j w }
      (update (update x i (x j)) j (x i)) := by
  have turned : ∀ k, ∃ k', (∃ cap, Held P ⟨update (update s.vectors i v) j w k, s.heap⟩ cap
      (update (update x i (x j)) j (x i) k)) ∧
      own P (update (update s.vectors i v) j w k) = own P (s.vectors k') ∧
      update (update x i (x j)) j (x i) k = x k' ∧ k' = Equiv.swap i j k := by
    intro k
    by_cases second : k = j
    · subst second
      rw [update_self, update_self, Equiv.swap_apply_right]
      exact ⟨i, ⟨cap', heldJ⟩, ownJ, rfl, rfl⟩
    · rw [update_of_ne second, update_of_ne second]
      by_cases first : k = i
      · subst first
        rw [update_self, update_self, Equiv.swap_apply_left]
        exact ⟨j, ⟨cap, heldI⟩, ownI, rfl, rfl⟩
      · rw [update_of_ne first, update_of_ne first, Equiv.swap_apply_of_ne_of_ne first second]
        exact ⟨k, good.held k, rfl, rfl, rfl⟩
  constructor
  · intro k
    obtain ⟨_, held, -⟩ := turned k
    exact held
  · intro k l address apart ownK ownL
    obtain ⟨k', -, same, -, place⟩ := turned k
    obtain ⟨l', -, same', -, place'⟩ := turned l
    rw [same] at ownK
    rw [same'] at ownL
    refine good.apart k' l' address (fun equal => apart ?_) ownK ownL
    rw [place, place'] at equal
    exact (Equiv.swap i j).injective equal
  · intro k
    obtain ⟨k', -, -, same, -⟩ := turned k
    rw [same]
    exact good.fits k'

theorem Holds.swap (good : Holds P s x) {i j : ι} (right : SwapsRight P s (.swap i j : Action ι α)) :
    ∃ s', s.step P (.swap i j) = some s' ∧ Holds P s' (spec P x (.swap i j)) := by
  obtain ⟨_, heldI⟩ := good.held i
  obtain ⟨_, heldJ⟩ := good.held j
  obtain ⟨_, wellI, -⟩ := heldI.stored
  obtain ⟨_, wellJ, -⟩ := heldJ.stored
  refine ⟨_, rfl, ?_⟩
  unfold Prevector.swap
  split
  next odd =>
    obtain ⟨agree, agree'⟩ := right odd
    exact good.exchange ((heldJ.grafted_iff wellI.union).mpr agree') ((heldI.grafted_iff wellJ.union).mpr agree)
      (grafted_own wellJ.union) (grafted_own wellI.union)
  next => exact good.exchange heldJ heldI rfl rfl

theorem fits_small {n : Nat} (fits : Fits P n) : Small P n := by omega

theorem small_zero : Small P 0 := by
  rw [Small, Nat.zero_add, Nat.mul_zero]
  exact ⟨P.fits, Nat.pow_pos (by decide)⟩

theorem Holds.step (good : Holds P s x) {action : Action ι α} (valid : Valid P x action) (right : SwapsRight P s action) :
    ∃ s', s.step P action = some s' ∧ Holds P s' (spec P x action) := by
  cases action with
  | sized i storage n =>
    obtain ⟨length, fits⟩ := valid
    have small := fits_small fits
    obtain ⟨o, whole, -, frames⟩ := good.rebuild i
    have built := resize_spec (empty_held length o.heap) (show n < 256 ^ P.sizeofSize by omega)
    have cleared : resized P.zero ([] : List α) n = replicate n P.zero := by
      unfold resized
      rw [take_nil, nil_append, length_nil, Nat.sub_zero]
    rw [cleared] at built
    simp only [State.step, whole, bind_eq_bind, bind_some]
    exact Yields.rebuild good (frames storage) built (by rw [length_replicate]; exact small)
  | construct i storage values =>
    obtain ⟨length, fits⟩ := valid
    have small := fits_small fits
    obtain ⟨o, whole, -, frames⟩ := good.rebuild i
    simp only [State.step, whole, bind_eq_bind, bind_some]
    exact Yields.rebuild good (frames storage) (construct_spec length o.heap (by omega)) small
  | copied i storage j =>
    obtain ⟨length, apart⟩ := valid
    have small := good.fits j
    obtain ⟨o, whole, others, frames⟩ := good.rebuild i
    obtain ⟨_, held⟩ := others j apart
    simp only [State.step, whole, bind_eq_bind, bind_some, held.elements]
    exact Yields.rebuild good (frames storage) (construct_spec length o.heap (by omega)) small
  | assignFrom i j =>
    have small := good.fits j
    by_cases self : j = i
    · subst self
      refine ⟨s, if_pos rfl, ?_⟩
      rw [spec, update_eq_self]
      exact good
    · obtain ⟨_, held⟩ := good.held i
      obtain ⟨_, heldJ⟩ := good.held j
      simp only [State.step, if_neg self, heldJ.elements, bind_eq_bind, bind_some]
      exact (assignFrom_spec held (by omega)).step good small
  | assign i values =>
    have small := fits_small valid
    obtain ⟨_, held⟩ := good.held i
    exact (assign_spec held (by omega)).step good small
  | pushBack i value =>
    have small := fits_small valid
    unfold Valid at valid
    obtain ⟨_, held⟩ := good.held i
    exact (pushBack_spec held (by omega)).step good (by rw [length_append]; exact small)
  | popBack i =>
    obtain ⟨_, held⟩ := good.held i
    have small := good.fits i
    exact (popBack_spec held valid).step good (by rw [length_dropLast]; omega)
  | insert i p values =>
    obtain ⟨inside, fits⟩ := valid
    have small := fits_small fits
    obtain ⟨_, held⟩ := good.held i
    refine (insert_spec held inside (by omega)).step good ?_
    rw [length_append, length_append, length_take, length_drop]
    omega
  | erase i first last =>
    obtain ⟨order, inside⟩ := valid
    have small := good.fits i
    obtain ⟨_, held⟩ := good.held i
    refine (erase_spec held order inside).step good ?_
    rw [length_append, length_take, length_drop]
    omega
  | resize i n =>
    have small := fits_small valid
    obtain ⟨_, held⟩ := good.held i
    refine (resize_spec held (by omega)).step good ?_
    rw [resized, length_append, length_take, length_replicate]
    omega
  | reserve i n =>
    obtain ⟨_, held⟩ := good.held i
    have kept := (reserve_spec held valid).step good (good.fits i)
    rw [update_eq_self] at kept
    exact kept
  | shrinkToFit i =>
    have small := good.fits i
    obtain ⟨_, held⟩ := good.held i
    have kept := (shrinkToFit_spec held (by omega)).step good small
    rw [update_eq_self] at kept
    exact kept
  | clear i =>
    obtain ⟨_, held⟩ := good.held i
    exact (clear_spec held).step good small_zero
  | swap i j => exact good.swap right

/-- Vectors built by `prevector()`. -/
def start (storage : ι → List Cell) : State ι := { vectors := fun i => { _union := storage i } }

def State.run (P : Template α) (s : State ι) (actions : List (Action ι α)) : Option (State ι) := actions.foldlM (State.step P) s

def specRun (P : Template α) (x : ι → List α) (actions : List (Action ι α)) : ι → List α := actions.foldl (spec P) x

def ValidRun (P : Template α) : (ι → List α) → List (Action ι α) → Prop
  | _, [] => True
  | x, action :: actions => Valid P x action ∧ ValidRun P (spec P x action) actions

def SwapsRightRun (P : Template α) : State ι → List (Action ι α) → Prop
  | _, [] => True
  | s, action :: actions => SwapsRight P s action ∧ ∀ s', s.step P action = some s' → SwapsRightRun P s' actions

instance (P : Template α) (v other : Prevector) : Decidable (Agree P v other) := inferInstanceAs (Decidable (_ → ∀ _, _ → _ → _))

instance (P : Template α) (s : State ι) : (action : Action ι α) → Decidable (SwapsRight P s action)
  | .swap _ _ => inferInstanceAs (Decidable (_ → _ ∧ _))
  | .sized .. | .construct .. | .copied .. | .assignFrom .. | .assign .. | .pushBack .. | .popBack _ | .insert .. | .erase ..
  | .resize .. | .reserve .. | .shrinkToFit _ | .clear _ => .isTrue trivial

def decideRun (P : Template α) : (s : State ι) → (actions : List (Action ι α)) → Decidable (SwapsRightRun P s actions)
  | _, [] => .isTrue trivial
  | s, action :: actions =>
    have := fun s' => decideRun P s' actions
    inferInstanceAs (Decidable (_ ∧ ∀ s' ∈ s.step P action, SwapsRightRun P s' actions))

instance (P : Template α) (s : State ι) (actions : List (Action ι α)) : Decidable (SwapsRightRun P s actions) :=
  decideRun P s actions

/-- The vectors look like their counterparts, and no count went beyond `Size`, no position beyond `Diff`. -/
structure Alike [BEq α] (P : Template α) (s : State ι) (x : ι → List α) : Prop where
  size : ∀ i, Prevector.size P (s.vectors i) = (x i).length
  at? : ∀ i pos value, (x i)[pos]? = some value → Prevector.at? P (s.on i) pos = some value
  elements : ∀ i, Prevector.elements P (s.on i) = some (x i)
  equal : ∀ i j, Prevector.equal P (s.on i) (s.on j) = some (x i == x j)
  counted : ∀ i, (s.vectors i)._size < 256 ^ P.sizeofSize ∧ 2 * (x i).length < 256 ^ P.sizeofDiff

omit [DecidableEq ι] in
theorem start_holds {storage : ι → List Cell} (length : ∀ i, (storage i).length = P.unionLength) :
    Holds P (start storage) fun _ => ([] : List α) := by
  constructor
  · exact fun i => ⟨P.N, empty_held (length i) {}⟩
  · intro i j address _ mine
    have none : own P (start storage |>.vectors i) = none := if_pos (decide_eq_true (Nat.zero_le _))
    rw [none] at mine
    cases mine
  · exact fun _ => small_zero

omit [DecidableEq ι] in
theorem Holds.alike [BEq α] (good : Holds P s x) : Alike P s x := by
  constructor
  · intro i
    obtain ⟨_, held⟩ := good.held i
    exact held.size
  · intro i pos value there
    obtain ⟨_, held⟩ := good.held i
    exact held.at? there
  · intro i
    obtain ⟨_, held⟩ := good.held i
    exact held.elements
  · intro i j
    obtain ⟨_, heldI⟩ := good.held i
    obtain ⟨_, heldJ⟩ := good.held j
    exact heldI.equal heldJ
  · intro i
    obtain ⟨_, held⟩ := good.held i
    have count : Prevector.size P (s.vectors i) = (x i).length := held.size
    have fits := good.fits i
    cases mode : isDirect P (s.vectors i) with
    | true =>
      rw [size_direct mode] at count
      omega
    | false =>
      have := size_indirect mode
      omega

theorem Holds.run {actions : List (Action ι α)} (good : Holds P s x) (valid : ValidRun P x actions)
    (right : SwapsRightRun P s actions) : ∃ s', s.run P actions = some s' ∧ Holds P s' (specRun P x actions) := by
  induction actions generalizing s x with
  | nil => exact ⟨s, rfl, good⟩
  | cons action actions ih =>
    obtain ⟨s', taken, good'⟩ := good.step valid.1 right.1
    obtain ⟨s'', rest, good''⟩ := ih good' valid.2 (right.2 s' taken)
    refine ⟨s'', ?_, good''⟩
    unfold State.run
    rw [foldlM_cons, taken]
    exact rest

/-- After every sequence of operations whose swaps are right, each vector looks like the one of the standard library. -/
theorem run_alike [BEq α] {storage : ι → List Cell} {actions : List (Action ι α)}
    (length : ∀ i, (storage i).length = P.unionLength) (valid : ValidRun P (fun _ => []) actions)
    (right : SwapsRightRun P (start storage) actions) :
    ∃ s, (start storage).run P actions = some s ∧ Alike P s (specRun P (fun _ => []) actions) := by
  obtain ⟨s, whole, good⟩ := (start_holds length).run valid right
  exact ⟨s, whole, good.alike⟩

def byteLayout : Layout Cell UInt8 where
  width := 1
  encode value := [.byte value]
  decode
    | [.byte value] => some value
    | _ => none
  length_encode _ := rfl
  decode_encode _ := rfl

/-- `prevector<28, unsigned char>`, in which scripts are stored. -/
def scriptBase : Template UInt8 where
  N := 28
  T := byteLayout
  zero := 0
  sizeofSize := 4
  sizeofDiff := 4
  sizeofPointer := 8
  pointed := by decide
  fits := by decide

def blank (_ : Bool) : List Cell := List.replicate 28 .undefined

/-- Two vectors with a direct and a heap one among them are exchanged while both counts are odd, and once more when one is even. -/
def exchanges : List (Action Bool UInt8) :=
  [.assign false (replicate 13 7), .assign true (replicate 13 7), .resize true 30, .swap false true, .pushBack true 4,
    .swap true false]

theorem run_exchanges : ∃ s, (start blank).run scriptBase exchanges = some s ∧
    Alike scriptBase s (specRun scriptBase (fun _ => []) exchanges) := by
  apply run_alike
  · exact fun _ => rfl
  · exact ⟨show Fits scriptBase 13 by decide, show Fits scriptBase 13 by decide, show Fits scriptBase 30 by decide, trivial,
      show Fits scriptBase 14 by decide, trivial, trivial⟩
  · decide +kernel

/-- Two vectors of 13 bytes keep their last bytes in a swap. -/
theorem swap_mixes : ¬ ∃ s, (start blank).run scriptBase
        [.assign false (replicate 13 1), .assign true (replicate 13 2), .swap false true] = some s ∧
      Alike scriptBase s (specRun scriptBase (fun _ => [])
        [.assign false (replicate 13 1), .assign true (replicate 13 2), .swap false true]) := by
  rintro ⟨s, whole, alike⟩
  have mixed : ((start blank).run scriptBase
      [.assign false (replicate 13 1), .assign true (replicate 13 2), .swap false true]).bind
        (fun s => elements scriptBase (s.on false)) = some (replicate 12 2 ++ [1]) := by decide
  rw [whole, bind_some, alike.elements false] at mixed
  cases mixed

end Longcoin.Prevector
