import Longcoin.Library.Bytes
import Longcoin.Library.Records

/-! Vectors whose first elements lie in the place of a pointer to the heap (`prevector.h`). -/

namespace Longcoin.Prevector
open Library.Bytes Library.Records Layout List

/-- A byte of memory: not written yet, a byte of a number, or a part of a pointer. -/
inductive Cell where
  | undefined
  | byte (value : UInt8)
  | pointer (address part : Nat)
deriving DecidableEq

def Cell.byte? : Cell → Option UInt8
  | .byte value => some value
  | _ => none

/-- The allocated blocks; addresses are not used again. -/
structure Heap where
  next : Nat := 0
  block : Nat → Option (List Cell) := fun _ => none

def Heap.malloc (heap : Heap) (cells : List Cell) : Heap :=
  ⟨heap.next + 1, Function.update heap.block heap.next (some cells)⟩

def Heap.free (heap : Heap) (address : Nat) : Heap := { heap with block := Function.update heap.block address none }

/-- The template arguments `N` and `T`, with the value of `T()`, and the widths of `Size`, of `Diff` and of a pointer.
Counts and positions are numbers here: as long as a count fits in `Size`, and as a position in `Diff`, nothing is lost. -/
structure Template (α : Type) where
  N : Nat
  T : Layout Cell α
  zero : α
  sizeofSize : Nat
  sizeofDiff : Nat
  sizeofPointer : Nat
  pointed : 0 < sizeofPointer
  fits : N + 1 < 256 ^ sizeofSize

structure Prevector where
  _size : Nat := 0
  _union : List Cell

structure Place where
  self : Prevector
  heap : Heap

variable {α : Type} (P : Template α)

def Template.overlay : Nat := P.sizeofSize + P.sizeofPointer

def isDirect (v : Prevector) : Bool := v._size ≤ P.N

def size (v : Prevector) : Nat := if isDirect P v then v._size else v._size - P.N - 1

def pointerCells (address : Nat) : List Cell := (List.range P.sizeofPointer).map (Cell.pointer address)

def capacityField (v : Prevector) : Option Nat := ((v._union.take P.sizeofSize).mapM Cell.byte?).map little

def indirectField (v : Prevector) : Option Nat :=
  match (v._union.drop P.sizeofSize).take P.sizeofPointer with
  | .pointer address part :: rest =>
    if Cell.pointer address part :: rest = pointerCells P address then some address else none
  | _ => none

/-- `_union.indirect = …; _union.capacity = …;` -/
def setFields (v : Prevector) (capacity address : Nat) : Prevector :=
  { v with _union := (littleBytes P.sizeofSize capacity).map .byte ++ pointerCells P address ++ v._union.drop P.overlay }

def capacity (v : Prevector) : Option Nat := if isDirect P v then some P.N else capacityField P v

/-- The memory that `item_ptr` points into. -/
def items (o : Place) : Option (List Cell) :=
  if isDirect P o.self then some o.self._union else do o.heap.block (← indirectField P o.self)

def setItems (o : Place) (cells : List Cell) : Option Place :=
  if isDirect P o.self then some { o with self := { o.self with _union := cells } }
  else do
    let address ← indirectField P o.self
    some { o with heap := { o.heap with block := Function.update o.heap.block address (some cells) } }

/-- `new(item_ptr(pos)) T(value);` -/
def put (o : Place) (pos : Nat) (value : α) : Option Place := do
  let cells ← items P o
  guard (pos * P.T.width + P.T.width ≤ cells.length)
  setItems P o (overwrite cells (pos * P.T.width) (P.T.encode value))

/-- `memmove(item_ptr(dst), item_ptr(src), count * sizeof(T));` -/
def memmove (o : Place) (dst src count : Nat) : Option Place := do
  let cells ← items P o
  guard ((src + count) * P.T.width ≤ cells.length ∧ (dst + count) * P.T.width ≤ cells.length)
  setItems P o (move cells (dst * P.T.width) (src * P.T.width) (count * P.T.width))

def Place.grow (o : Place) (count : Nat) : Place := { o with self := { o.self with _size := o.self._size + count } }

def Place.shrink (o : Place) (count : Nat) : Place := { o with self := { o.self with _size := o.self._size - count } }

/-- Memory that `malloc` or `realloc` gave, with cells copied to its front. -/
def allotted (cells : List Cell) (length : Nat) : List Cell :=
  cells.take length ++ List.replicate (length - cells.length) .undefined

def changeCapacity (o : Place) (new_capacity : Nat) : Option Place :=
  if new_capacity ≤ P.N then
    if isDirect P o.self then some o
    else do
      let address ← indirectField P o.self
      let block ← o.heap.block address
      let used := size P o.self * P.T.width
      guard (used ≤ block.length ∧ used ≤ o.self._union.length)
      some (Place.shrink ⟨{ o.self with _union := overwrite o.self._union 0 (block.take used) }, o.heap.free address⟩ (P.N + 1))
  else if isDirect P o.self then do
    let used := size P o.self * P.T.width
    guard (used ≤ o.self._union.length ∧ used ≤ P.T.width * new_capacity)
    let heap := o.heap.malloc (allotted (o.self._union.take used) (P.T.width * new_capacity))
    some (Place.grow ⟨setFields P o.self new_capacity o.heap.next, heap⟩ (P.N + 1))
  else do
    let address ← indirectField P o.self
    let block ← o.heap.block address
    let heap := (o.heap.free address).malloc (allotted block (P.T.width * new_capacity))
    some ⟨setFields P o.self new_capacity o.heap.next, heap⟩

/-- `_size++; new(item_ptr(size() - 1)) T(value);` for each value. -/
def append : List α → Place → Option Place
  | [], o => some o
  | value :: values, o => do
    let o := o.grow 1
    append values (← put P o (size P o.self - 1) value)

/-- `if (capacity() < n) change_capacity(to);` -/
def ensure (o : Place) (n target : Nat) : Option Place := do
  if (← capacity P o.self) < n then changeCapacity P o target else some o

def resize (o : Place) (new_size : Nat) : Option Place := do
  let o ← ensure P (o.shrink (size P o.self - new_size)) new_size new_size
  append P (List.replicate (new_size - size P o.self) P.zero) o

def clear (o : Place) : Option Place := resize P o 0

/-- `assign(first, last)`; `assign(n, val)` is the same for n equal values. -/
def assign (o : Place) (values : List α) : Option Place := do
  let o ← clear P o
  append P values (← ensure P o values.length values.length)

/-- `prevector()`: whatever the storage held stays in it. -/
def empty (storage : List Cell) (heap : Heap) : Place := ⟨{ _union := storage }, heap⟩

/-- The constructors that take values, and the one that copies: `change_capacity` first, then the values. -/
def construct (storage : List Cell) (heap : Heap) (values : List α) : Option Place := do
  append P values (← changeCapacity P (empty storage heap) values.length)

/-- `operator=`, with the values of the other vector. -/
def assignFrom (o : Place) (values : List α) : Option Place := do
  let o ← resize P o 0
  append P values (← changeCapacity P o values.length)

def reserve (o : Place) (new_capacity : Nat) : Option Place := ensure P o new_capacity new_capacity

def shrinkToFit (o : Place) : Option Place := changeCapacity P o (size P o.self)

/-- `new(item_ptr(p)) T(value); ++p;` for each value. -/
def place : List α → Nat → Place → Option Place
  | [], _, o => some o
  | value :: values, p, o => do place values (p + 1) (← put P o p value)

/-- `insert(pos, first, last)`; one value and n equal ones are inserted in the same way. -/
def insert (o : Place) (p : Nat) (values : List α) : Option Place := do
  let new_size := size P o.self + values.length
  let o ← ensure P o new_size (new_size + new_size >>> 1)
  let o ← memmove P o (p + values.length) p (size P o.self - p)
  place P values p (o.grow values.length)

/-- `erase(first, last)`; the erasure of one element is that of `[pos, pos + 1)`. -/
def erase (o : Place) (first last : Nat) : Option Place := do
  let o ← memmove P o first last (size P o.self - last)
  some (o.shrink (last - first))

def pushBack (o : Place) (value : α) : Option Place := do
  let new_size := size P o.self + 1
  let o ← ensure P o new_size (new_size + new_size >>> 1)
  let o ← put P o (size P o.self) value
  some (o.grow 1)

def popBack (o : Place) : Place := o.shrink 1

/-- `~prevector()` -/
def destroy (o : Place) : Option Place := do
  let o ← clear P o
  if isDirect P o.self then some o else do some { o with heap := o.heap.free (← indirectField P o.self) }

/-- Two vectors whose counts are both odd exchange the fields of the heap, others the whole of the storage. -/
def swap (v other : Prevector) : Prevector × Prevector :=
  if v._size &&& other._size &&& 1 ≠ 0 then
    (⟨other._size, other._union.take P.overlay ++ v._union.drop P.overlay⟩,
      ⟨v._size, v._union.take P.overlay ++ other._union.drop P.overlay⟩)
  else (other, v)

/-- `operator[]` and the iterators' `*`. -/
def at? (o : Place) (pos : Nat) : Option α := do
  let cells ← items P o
  P.T.decode ((cells.drop (pos * P.T.width)).take P.T.width)

/-- The loop from `begin()` to `end()`. -/
def elementsFrom (o : Place) : Nat → Nat → Option (List α)
  | 0, _ => some []
  | left + 1, pos => do return (← at? P o pos) :: (← elementsFrom o left (pos + 1))

def elements (o : Place) : Option (List α) := elementsFrom P o (size P o.self) 0

/-- The loop of `operator==`. -/
def equalFrom [BEq α] (o other : Place) : Nat → Nat → Option Bool
  | 0, _ => some true
  | left + 1, pos => do
    if (← at? P o pos) != (← at? P other pos) then some false else equalFrom o other left (pos + 1)

def equal [BEq α] (o other : Place) : Option Bool :=
  if size P other.self ≠ size P o.self then some false else equalFrom P o other (size P o.self) 0

def Template.unionLength : Nat := max (P.N * P.T.width) P.overlay

def own (v : Prevector) : Option Nat := if isDirect P v then none else indirectField P v

/-- The storage can be read, in whichever mode the vector is, and has room for its capacity. -/
structure Well (o : Place) (cap : Nat) (cells : List Cell) : Prop where
  union : o.self._union.length = P.unionLength
  items : items P o = some cells
  capacity : capacity P o.self = some cap
  room : cap * P.T.width ≤ cells.length
  owned : isDirect P o.self = false → P.N < cap ∧ ∃ address, indirectField P o.self = some address ∧
    address < o.heap.next ∧ o.heap.block address = some cells

structure Held (o : Place) (cap : Nat) (values : List α) : Prop where
  size : size P o.self = values.length
  within : values.length ≤ cap
  stored : ∃ cells, Well P o cap cells ∧ P.T.Holds cells values

/-- What an operation leaves alone: blocks of others; the block it owns in the end was its own or is new. -/
structure Frame (o o' : Place) : Prop where
  next : o.heap.next ≤ o'.heap.next
  others : ∀ address, address < o.heap.next → own P o.self ≠ some address → o'.heap.block address = o.heap.block address
  owned : ∀ address, own P o'.self = some address → own P o.self = some address ∨ o.heap.next ≤ address

/-- An operation succeeds and leaves the values, with a capacity of at least so much. -/
def Yields (o : Place) (result : Option Place) (least : Nat) (values : List α) : Prop :=
  ∃ o' cap, result = some o' ∧ Held P o' cap values ∧ Frame P o o' ∧ least ≤ cap

variable {P} {o o' o'' : Place} {cap : Nat} {cells : List Cell} {values : List α}

theorem Frame.refl (o : Place) : Frame P o o := ⟨Nat.le_refl _, fun _ _ _ => rfl, fun _ => .inl⟩

theorem Frame.trans (first : Frame P o o') (second : Frame P o' o'') : Frame P o o'' where
  next := first.next.trans second.next
  others address below other := by
    rw [second.others address (below.trans_le first.next), first.others address below other]
    intro mine
    rcases first.owned address mine with before | fresh
    · exact other before
    · omega
  owned address mine := by
    rcases second.owned address mine with before | fresh
    · exact first.owned address before
    · exact .inr (first.next.trans fresh)

theorem Yields.bind {result : Option Place} {next : Place → Option Place} {least least' : Nat} {values' : List α}
    (first : Yields P o result least values)
    (second : ∀ o' cap, Held P o' cap values → least ≤ cap → Yields P o' (next o') least' values') :
    Yields P o (result >>= next) least' values' := by
  obtain ⟨o', cap, rfl, held, frame, enough⟩ := first
  obtain ⟨o'', cap', whole, held', frame', enough'⟩ := second o' cap held enough
  exact ⟨o'', cap', whole, held', frame.trans frame', enough'⟩

theorem Yields.weaken {result : Option Place} {least least' : Nat} (yields : Yields P o result least values)
    (order : least' ≤ least) : Yields P o result least' values := by
  obtain ⟨o', cap, whole, held, frame, enough⟩ := yields
  exact ⟨o', cap, whole, held, frame, order.trans enough⟩

theorem Held.yields (held : Held P o cap values) {least : Nat} (enough : least ≤ cap) :
    Yields P o (some o) least values := ⟨o, cap, rfl, held, .refl o, enough⟩

theorem size_direct {v : Prevector} (direct : isDirect P v = true) : size P v = v._size := if_pos direct

theorem size_indirect {v : Prevector} (indirect : isDirect P v = false) : size P v + P.N + 1 = v._size := by
  have above : ¬ v._size ≤ P.N := of_decide_eq_false indirect
  unfold size
  rw [indirect, if_neg Bool.false_ne_true]
  omega

section

variable (well : Well P o cap cells)
include well

theorem Well.direct (direct : isDirect P o.self = true) : cap = P.N ∧ cells = o.self._union := by
  have all := well.capacity
  have found := well.items
  unfold Prevector.capacity at all
  unfold Prevector.items at found
  rw [if_pos direct] at all found
  exact ⟨(Option.some.inj all).symm, (Option.some.inj found).symm⟩

theorem Well.setItems {cells' : List Cell} (same : cells'.length = cells.length) :
    ∃ o', Prevector.setItems P o cells' = some o' ∧ Well P o' cap cells' ∧ o'.self._size = o.self._size ∧ Frame P o o' := by
  have room := well.room
  rw [← same] at room
  cases mode : isDirect P o.self with
  | true =>
    obtain ⟨rfl, rfl⟩ := well.direct mode
    refine ⟨{ o with self := { o.self with _union := cells' } }, if_pos mode, ?_, rfl, ?_⟩
    · exact ⟨same.trans well.union, if_pos mode, if_pos mode, room,
        fun indirect => absurd (mode.symm.trans indirect) Bool.false_ne_true.symm⟩
    · refine ⟨Nat.le_refl _, fun _ _ _ => rfl, fun address mine => ?_⟩
      have none : own P { o.self with _union := cells' } = .none := if_pos mode
      rw [none] at mine
      cases mine
  | false =>
    obtain ⟨above, address, field, below, block⟩ := well.owned mode
    have written : Function.update o.heap.block address (some cells') address = some cells' := Function.update_self ..
    have mine : own P o.self = some address := by
      unfold own
      rw [mode, if_neg Bool.false_ne_true, field]
    refine ⟨{ o with heap := { o.heap with block := Function.update o.heap.block address (some cells') } }, ?_, ?_, rfl, ?_⟩
    · unfold Prevector.setItems
      rw [mode, if_neg Bool.false_ne_true, field]
      rfl
    · refine ⟨well.union, ?_, well.capacity, room, fun _ => ⟨above, address, field, below, written⟩⟩
      unfold Prevector.items
      rw [mode, if_neg Bool.false_ne_true, field]
      exact written
    · refine ⟨Nat.le_refl _, fun other _ apart => ?_, fun _ => .inl⟩
      exact Function.update_of_ne (fun equal => apart (by rw [mine, equal])) ..

theorem put_eq {pos : Nat} (fits : pos + 1 ≤ cap) (value : α) :
    put P o pos value = setItems P o (overwrite cells (pos * P.T.width) (P.T.encode value)) := by
  have room := well.room
  have inside := Nat.mul_le_mul_right P.T.width fits
  unfold put
  rw [well.items, Option.bind_eq_bind, Option.bind_some, guard, if_pos (by rw [Nat.add_mul] at inside; omega)]
  rfl

theorem put_well {pos : Nat} (fits : pos + 1 ≤ cap) (value : α) :
    ∃ o', put P o pos value = some o' ∧ Well P o' cap (overwrite cells (pos * P.T.width) (P.T.encode value)) ∧
      o'.self._size = o.self._size ∧ Frame P o o' := by
  have room := well.room
  have inside := Nat.mul_le_mul_right P.T.width fits
  rw [put_eq well fits]
  apply well.setItems
  apply overwrite_length
  rw [P.T.length_encode]
  rw [Nat.add_mul] at inside
  omega

theorem memmove_well {dst src count : Nat} (fits : dst + count ≤ cap) (fits' : src + count ≤ cap) :
    ∃ o', memmove P o dst src count = some o' ∧
      Well P o' cap (move cells (dst * P.T.width) (src * P.T.width) (count * P.T.width)) ∧
        o'.self._size = o.self._size ∧ Frame P o o' := by
  have room := well.room
  have inside := Nat.mul_le_mul_right P.T.width fits
  have inside' := Nat.mul_le_mul_right P.T.width fits'
  have whole : memmove P o dst src count =
      setItems P o (move cells (dst * P.T.width) (src * P.T.width) (count * P.T.width)) := by
    unfold memmove
    rw [well.items, Option.bind_eq_bind, Option.bind_some, guard, if_pos ⟨by omega, by omega⟩]
    rfl
  rw [whole]
  apply well.setItems
  apply overwrite_length
  rw [Nat.add_mul] at inside
  rw [length_take]
  omega

theorem Well.recount {count : Nat}
    (mode : isDirect P { o.self with _size := count } = isDirect P o.self) :
    Well P { o with self := { o.self with _size := count } } cap cells ∧
      Frame P o { o with self := { o.self with _size := count } } := by
  have same : own P { o.self with _size := count } = own P o.self := by
    unfold own
    rw [mode]
    rfl
  constructor
  · constructor
    · exact well.union
    · have found := well.items
      unfold Prevector.items at found ⊢
      rw [mode]
      exact found
    · have all := well.capacity
      unfold Prevector.capacity at all ⊢
      rw [mode]
      exact all
    · exact well.room
    · intro indirect
      exact well.owned (mode.symm.trans indirect)
  · exact ⟨Nat.le_refl _, fun _ _ _ => rfl, fun address mine => .inl (same ▸ mine)⟩

end

theorem size_congr {v v' : Prevector} (same : v'._size = v._size) : size P v' = size P v := by
  unfold size isDirect
  rw [same]

theorem Well.grow (well : Well P o cap cells) {count : Nat} (within : size P o.self + count ≤ cap) :
    Well P (o.grow count) cap cells ∧ Frame P o (o.grow count) ∧ size P (o.grow count).self = size P o.self + count := by
  cases mode : isDirect P o.self with
  | true =>
    rw [size_direct mode, (well.direct mode).1] at within
    have mode' : isDirect P (o.grow count).self = true := decide_eq_true within
    have kept := well.recount (mode'.trans mode.symm)
    exact ⟨kept.1, kept.2, (size_direct mode').trans (congrArg (· + count) (size_direct mode).symm)⟩
  | false =>
    have before := size_indirect mode
    have mode' : isDirect P (o.grow count).self = false := by
      apply decide_eq_false
      change ¬ o.self._size + count ≤ P.N
      omega
    have kept := well.recount (mode'.trans mode.symm)
    have after : _ = o.self._size + count := size_indirect mode'
    exact ⟨kept.1, kept.2, by omega⟩

theorem Well.shrink (well : Well P o cap cells) {count : Nat} (within : count ≤ size P o.self) :
    Well P (o.shrink count) cap cells ∧ Frame P o (o.shrink count) ∧ size P (o.shrink count).self = size P o.self - count := by
  cases mode : isDirect P o.self with
  | true =>
    have below : o.self._size ≤ P.N := of_decide_eq_true mode
    have mode' : isDirect P (o.shrink count).self = true := decide_eq_true ((Nat.sub_le _ _).trans below)
    have kept := well.recount (mode'.trans mode.symm)
    exact ⟨kept.1, kept.2, (size_direct mode').trans (congrArg (· - count) (size_direct mode).symm)⟩
  | false =>
    have before := size_indirect mode
    have mode' : isDirect P (o.shrink count).self = false := by
      apply decide_eq_false
      change ¬ o.self._size - count ≤ P.N
      omega
    have kept := well.recount (mode'.trans mode.symm)
    have after : _ = o.self._size - count := size_indirect mode'
    exact ⟨kept.1, kept.2, by omega⟩

theorem append_spec {more : List α} (held : Held P o cap values) (within : values.length + more.length ≤ cap) :
    Yields P o (append P more o) cap (values ++ more) := by
  induction more generalizing o values with
  | nil =>
    rw [append_nil]
    exact held.yields (Nat.le_refl _)
  | cons value more ih =>
    rw [length_cons] at within
    obtain ⟨cells, well, stored⟩ := held.stored
    have count := held.size
    obtain ⟨grown, frame, size'⟩ := well.grow (show size P o.self + 1 ≤ cap by omega)
    have last : size P (o.grow 1).self - 1 = values.length := by omega
    obtain ⟨o', written, well', same, frame'⟩ := put_well grown (show values.length + 1 ≤ cap by omega) value
    have held' : Held P o' cap (values ++ [value]) := by
      constructor
      · rw [size_congr same, size', held.size, length_append]
        rfl
      · rw [length_append]
        exact (show values.length + 1 ≤ cap by omega)
      · have added := stored.write [value]
        rw [all_singleton] at added
        exact ⟨_, well', added⟩
    obtain ⟨o'', cap', rest, held'', frame'', enough⟩ := ih held' (by rw [length_append, length_singleton]; omega)
    refine ⟨o'', cap', ?_, ?_, (frame.trans frame').trans frame'', enough⟩
    · simp only [append]
      rw [last, written]
      exact rest
    · rw [append_cons]
      exact held''

theorem shrink_spec (held : Held P o cap values) {count : Nat} (within : count ≤ values.length) :
    Held P (o.shrink count) cap (values.take (values.length - count)) ∧ Frame P o (o.shrink count) := by
  obtain ⟨cells, well, stored⟩ := held.stored
  have size := held.size
  have below := held.within
  obtain ⟨well', frame, size'⟩ := well.shrink (show count ≤ Prevector.size P o.self by omega)
  refine ⟨⟨?_, ?_, cells, well', stored.take _⟩, frame⟩
  · rw [size', size, length_take]
    omega
  · rw [length_take]
    omega

/-! ### `change_capacity` -/

theorem length_pointerCells (address : Nat) : (pointerCells P address).length = P.sizeofPointer := by
  unfold pointerCells
  rw [length_map, length_range]

theorem mapM_byte (bytes : List UInt8) : (bytes.map Cell.byte).mapM Cell.byte? = some bytes := by
  induction bytes with
  | nil => rfl
  | cons byte bytes ih =>
    rw [map_cons, mapM_cons, ih]
    rfl

theorem fields_congr {v v' : Prevector} (same : v'._union.take P.overlay = v._union.take P.overlay) :
    capacityField P v' = capacityField P v ∧ indirectField P v' = indirectField P v := by
  have first : v'._union.take P.sizeofSize = v._union.take P.sizeofSize := by
    have cut := congrArg (take P.sizeofSize) same
    rwa [take_take, take_take, Nat.min_eq_left (show P.sizeofSize ≤ P.overlay from Nat.le_add_right _ _)] at cut
  have second : (v'._union.drop P.sizeofSize).take P.sizeofPointer = (v._union.drop P.sizeofSize).take P.sizeofPointer := by
    have cut := congrArg (drop P.sizeofSize) same
    unfold Template.overlay at cut
    rwa [drop_take, drop_take, Nat.add_sub_cancel_left] at cut
  unfold capacityField indirectField
  rw [first, second]
  exact ⟨rfl, rfl⟩

theorem setFields_read {v : Prevector} {capacity address : Nat} (fits : capacity < 256 ^ P.sizeofSize) :
    capacityField P (setFields P v capacity address) = some capacity ∧
      indirectField P (setFields P v capacity address) = some address := by
  have bytes : ((littleBytes P.sizeofSize capacity).map Cell.byte).length = P.sizeofSize := by
    rw [length_map, length_littleBytes]
  constructor
  · unfold capacityField setFields
    dsimp only
    rw [append_assoc, take_left' bytes, mapM_byte, Option.map_some, little_littleBytes _ _ fits]
  · obtain ⟨rest, cons⟩ : ∃ rest, pointerCells P address = .pointer address 0 :: rest := by
      unfold pointerCells
      obtain ⟨n, size⟩ := Nat.exists_eq_succ_of_ne_zero (Nat.pos_iff_ne_zero.mp P.pointed)
      rw [size, range_succ_eq_map, map_cons]
      exact ⟨_, rfl⟩
    unfold indirectField setFields
    dsimp only
    rw [append_assoc, drop_left' bytes, take_left' (length_pointerCells address), cons]
    exact if_pos cons.symm

theorem setFields_length {v : Prevector} (union : v._union.length = P.unionLength) (capacity address : Nat) :
    (setFields P v capacity address)._union.length = P.unionLength := by
  have enough : P.overlay ≤ P.unionLength := Nat.le_max_right _ _
  unfold setFields
  dsimp only
  rw [length_append, length_append, length_map, length_littleBytes, length_pointerCells, length_drop, union]
  unfold Template.overlay at enough ⊢
  omega

theorem allotted_length {cells : List Cell} {length : Nat} : (allotted cells length).length = length := by
  unfold allotted
  rw [length_append, length_take, length_replicate]
  omega

theorem allotted_holds {length : Nat} (stored : P.T.Holds cells values) (fits : values.length * P.T.width ≤ length) :
    P.T.Holds (allotted cells length) values := by
  obtain ⟨rest, rfl⟩ := stored
  unfold allotted Holds
  rw [take_append, take_of_length_le (by rw [length_all]; exact fits), append_assoc]
  exact prefix_append _ _

theorem isDirect_false {v : Prevector} (above : P.N < v._size) : isDirect P v = false :=
  decide_eq_false (Nat.not_le.mpr above)

theorem update_other {heap : Nat → Option (List Cell)} {address other : Nat} {cells? : Option (List Cell)}
    (apart : other ≠ address) : Function.update heap address cells? other = heap other := Function.update_of_ne apart ..

theorem Held.fresh {heap : Heap} {v : Prevector} {new_capacity : Nat} {block : Nat → Option (List Cell)}
    (held : Held P o cap values) (above : P.N < new_capacity) (fits : new_capacity < 256 ^ P.sizeofSize)
    (within : values.length ≤ new_capacity) (stored : P.T.Holds cells values)
    (room : cells.length = P.T.width * new_capacity) (count : v._size = values.length + P.N + 1)
    (union : v._union = (setFields P o.self new_capacity o.heap.next)._union)
    (others : ∀ address, address < o.heap.next → own P o.self ≠ some address → block address = o.heap.block address)
    (new : heap = ⟨o.heap.next + 1, Function.update block o.heap.next (some cells)⟩) :
    Held P ⟨v, heap⟩ new_capacity values ∧ Frame P o ⟨v, heap⟩ := by
  obtain ⟨_, well, -⟩ := held.stored
  have indirect : isDirect P v = false := isDirect_false (by omega)
  have fields := @setFields_read α P o.self new_capacity o.heap.next fits
  have same := @fields_congr α P (setFields P o.self new_capacity o.heap.next) v (by rw [union])
  rw [fields.1, fields.2] at same
  have there : heap.block o.heap.next = some cells := by
    rw [new]
    exact Function.update_self ..
  have below : o.heap.next < heap.next := by
    rw [new]
    exact Nat.lt_succ_self _
  have mine : own P v = some o.heap.next := by
    unfold own
    rw [indirect, if_neg Bool.false_ne_true, same.2]
  constructor
  · refine ⟨?_, within, cells, ⟨?_, ?_, ?_, ?_, fun _ => ⟨above, _, same.2, below, there⟩⟩, stored⟩
    · have := size_indirect indirect
      dsimp only
      omega
    · dsimp only
      rw [union]
      exact setFields_length well.union _ _
    · unfold items
      rw [indirect, if_neg Bool.false_ne_true, same.2]
      exact there
    · unfold capacity
      rw [indirect, if_neg Bool.false_ne_true, same.1]
    · rw [room, Nat.mul_comm]
  · refine ⟨below.le, ?_, ?_⟩
    · intro address old apart
      dsimp only
      rw [new]
      dsimp only
      rw [update_other (show address ≠ o.heap.next by omega), others address old apart]
    · intro address owned
      rw [mine] at owned
      injection owned with same
      exact .inr same.le

theorem Held.inside (held : Held P o cap values) (well : Well P o cap cells) (stored : P.T.Holds cells values)
    (mode : isDirect P o.self = false) (few : values.length ≤ P.N) {address : Nat} (mine : own P o.self = some address)
    {o' : Place} {copy : List Cell} (front : copy = cells.take (values.length * P.T.width))
    (new : o' = Place.shrink ⟨{ o.self with _union := overwrite o.self._union 0 copy }, o.heap.free address⟩ (P.N + 1)) :
    Held P o' P.N values ∧ Frame P o o' := by
  have before := size_indirect mode
  have count := held.size
  have counted : o'.self._size = values.length := by
    rw [new]
    change o.self._size - (P.N + 1) = _
    omega
  have direct : isDirect P o'.self = true := decide_eq_true (by rw [counted]; exact few)
  obtain ⟨rest, whole⟩ := stored
  have copied : cells.take (values.length * P.T.width) = P.T.all values := by
    rw [← whole, take_left' (P.T.length_all values)]
  have union : o'.self._union = overwrite o.self._union 0 (P.T.all values) := by
    rw [new, ← copied, ← front]
    rfl
  have most : P.N * P.T.width ≤ P.unionLength := Nat.le_max_left _ _
  have bytes := Nat.mul_le_mul_right P.T.width few
  have length : o'.self._union.length = P.unionLength := by
    rw [union, overwrite_length (by rw [length_all, well.union]; omega), well.union]
  have none : own P o'.self = none := if_pos direct
  constructor
  · refine ⟨(size_direct direct).trans counted, few, o'.self._union, ⟨length, if_pos direct, if_pos direct, ?_, ?_⟩, ?_⟩
    · rw [length]
      exact most
    · exact fun indirect => absurd (direct.symm.trans indirect) Bool.false_ne_true.symm
    · rw [union]
      exact prefix_append _ _
  · refine ⟨by rw [new]; exact Nat.le_refl _, ?_, ?_⟩
    · intro other _ apart
      rw [new]
      exact update_other fun equal => apart (by rw [mine, equal])
    · intro other owned
      rw [none] at owned
      cases owned

theorem changeCapacity_spec (held : Held P o cap values) {new_capacity : Nat} (within : values.length ≤ new_capacity)
    (fits : new_capacity < 256 ^ P.sizeofSize) : Yields P o (changeCapacity P o new_capacity) new_capacity values := by
  obtain ⟨cells, well, stored⟩ := held.stored
  have count := held.size
  have bytes := Nat.mul_le_mul_right P.T.width within
  have used : values.length * P.T.width ≤ cells.length := by
    have := Nat.mul_le_mul_right P.T.width held.within
    have := well.room
    omega
  unfold changeCapacity
  by_cases small : new_capacity ≤ P.N
  · rw [if_pos small]
    cases mode : isDirect P o.self with
    | true => exact held.yields (by rw [(well.direct mode).1]; exact small)
    | false =>
      obtain ⟨-, address, field, -, block⟩ := well.owned mode
      have mine : own P o.self = some address := by
        unfold own
        rw [mode, if_neg Bool.false_ne_true, field]
      have room : values.length * P.T.width ≤ o.self._union.length := by
        have most : P.N * P.T.width ≤ P.unionLength := Nat.le_max_left _ _
        have := Nat.mul_le_mul_right P.T.width (within.trans small)
        rw [well.union]
        omega
      obtain ⟨held', frame⟩ := held.inside well stored mode (within.trans small) mine rfl rfl
      rw [if_neg Bool.false_ne_true, field, Option.bind_eq_bind, Option.bind_some, block, Option.bind_eq_bind,
        Option.bind_some, count]
      simp only [guard, used, room, and_self, if_true]
      exact ⟨_, P.N, rfl, held', frame, small⟩
  · rw [if_neg small]
    rw [Nat.not_le] at small
    cases mode : isDirect P o.self with
    | true =>
      have storage := (well.direct mode).2
      rw [storage] at stored used
      rw [if_pos rfl, count]
      simp only [guard, used, show values.length * P.T.width ≤ P.T.width * new_capacity by rw [Nat.mul_comm P.T.width]; exact bytes,
        and_self, if_true]
      have copied : P.T.Holds (o.self._union.take (values.length * P.T.width)) values := by
        obtain ⟨rest, whole⟩ := stored
        rw [← whole, take_left' (P.T.length_all values)]
        exact prefix_rfl
      obtain ⟨held', frame⟩ := @Held.fresh α P o cap _ values ⟨o.heap.next + 1, _⟩
        ⟨o.self._size + (P.N + 1), (setFields P o.self new_capacity o.heap.next)._union⟩ new_capacity o.heap.block held small
        fits within (allotted_holds copied (by rw [Nat.mul_comm P.T.width]; exact bytes)) allotted_length
        (by rw [← size_direct mode, count, Nat.add_assoc]) rfl (fun _ _ _ => rfl) rfl
      exact ⟨_, new_capacity, rfl, held', frame, Nat.le_refl _⟩
    | false =>
      obtain ⟨above, address, field, below, block⟩ := well.owned mode
      have mine : own P o.self = some address := by
        unfold own
        rw [mode, if_neg Bool.false_ne_true, field]
      rw [if_neg Bool.false_ne_true, field, Option.bind_eq_bind, Option.bind_some, block, Option.bind_eq_bind,
        Option.bind_some]
      have grown := size_indirect mode
      obtain ⟨held', frame⟩ := @Held.fresh α P o cap _ values ⟨o.heap.next + 1, _⟩
        (setFields P o.self new_capacity o.heap.next) new_capacity (o.heap.free address).block held small fits within
        (allotted_holds stored (by rw [Nat.mul_comm P.T.width]; exact bytes)) allotted_length
        (by change o.self._size = _; omega) rfl
        (fun other _ apart => update_other fun equal => apart (by rw [mine, equal])) rfl
      exact ⟨_, new_capacity, rfl, held', frame, Nat.le_refl _⟩

theorem ensure_spec (held : Held P o cap values) {n target : Nat} (order : n ≤ target) (within : values.length ≤ target)
    (fits : target < 256 ^ P.sizeofSize) : Yields P o (ensure P o n target) n values := by
  obtain ⟨cells, well, -⟩ := held.stored
  unfold ensure
  rw [well.capacity, Option.bind_eq_bind, Option.bind_some]
  by_cases less : cap < n
  · rw [if_pos less]
    exact (changeCapacity_spec held within fits).weaken order
  · rw [if_neg less]
    exact held.yields (Nat.not_lt.mp less)

/-! ### The public operations -/

/-- `std::vector::resize` -/
def resized (zero : α) (values : List α) (new_size : Nat) : List α :=
  values.take new_size ++ List.replicate (new_size - values.length) zero

theorem resize_spec (held : Held P o cap values) {new_size : Nat} (fits : new_size < 256 ^ P.sizeofSize) :
    Yields P o (resize P o new_size) 0 (resized P.zero values new_size) := by
  have count := held.size
  unfold resize
  rw [count]
  obtain ⟨shrunk, frame⟩ := shrink_spec held (Nat.sub_le values.length new_size)
  have cut : values.take (values.length - (values.length - new_size)) = values.take new_size := by
    by_cases short : new_size ≤ values.length
    · rw [Nat.sub_sub_self short]
    · rw [take_of_length_le (by omega), take_of_length_le (by omega)]
  rw [cut] at shrunk
  have taken : (values.take new_size).length = min new_size values.length := length_take
  have enough := ensure_spec shrunk (Nat.le_refl new_size) (by omega) fits
  obtain ⟨o', cap', whole, held', frame', room⟩ := enough
  have count' := held'.size
  have more : new_size - Prevector.size P o'.self = new_size - values.length := by omega
  have within' : (values.take new_size).length + (replicate (new_size - values.length) P.zero).length ≤ cap' := by
    rw [length_replicate]
    omega
  obtain ⟨o'', cap'', whole', held'', frame'', -⟩ := append_spec held' within'
  rw [whole, Option.bind_eq_bind, Option.bind_some, more]
  exact ⟨o'', cap'', whole', held'', (frame.trans frame').trans frame'', Nat.zero_le _⟩

theorem clear_spec (held : Held P o cap values) : Yields P o (clear P o) 0 [] := by
  have done := resize_spec held (show 0 < 256 ^ P.sizeofSize from Nat.pow_pos (by decide))
  unfold resized at done
  rw [take_zero, Nat.zero_sub] at done
  exact done

theorem fill_spec {result : Option Place} {more : List α} {least : Nat} (cleared : Yields P o result least [])
    {next : Place → Option Place}
    (room : ∀ o' cap, Held P o' cap ([] : List α) → Yields P o' (next o') more.length ([] : List α)) :
    Yields P o (result >>= fun o => next o >>= append P more) 0 more := by
  refine cleared.bind fun o' cap held _ => (room o' cap held).bind fun o'' cap' held' enough => ?_
  exact (append_spec held' (by rw [length_nil]; omega)).weaken (Nat.zero_le _)

theorem assign_spec (held : Held P o cap values) {more : List α} (fits : more.length < 256 ^ P.sizeofSize) :
    Yields P o (assign P o more) 0 more :=
  fill_spec (clear_spec held) fun _ _ held => ensure_spec held (Nat.le_refl _) (Nat.zero_le _) fits

theorem assignFrom_spec (held : Held P o cap values) {more : List α} (fits : more.length < 256 ^ P.sizeofSize) :
    Yields P o (assignFrom P o more) 0 more :=
  fill_spec (clear_spec held) fun _ _ held => changeCapacity_spec held (Nat.zero_le _) fits

theorem empty_held {storage : List Cell} (length : storage.length = P.unionLength) (heap : Heap) :
    Held P (empty storage heap) P.N ([] : List α) := by
  have direct : isDirect P (empty storage heap).self = true := decide_eq_true (Nat.zero_le _)
  refine ⟨size_direct direct, Nat.zero_le _, storage, ⟨length, if_pos direct, if_pos direct, ?_, ?_⟩, nil_prefix⟩
  · rw [length]
    exact Nat.le_max_left _ _
  · exact fun indirect => absurd (direct.symm.trans indirect) Bool.false_ne_true.symm

theorem construct_spec {storage : List Cell} (length : storage.length = P.unionLength) (heap : Heap) {more : List α}
    (fits : more.length < 256 ^ P.sizeofSize) : Yields P (empty storage heap) (construct P storage heap more) 0 more :=
  fill_spec ((empty_held length heap).yields (Nat.zero_le _)) fun _ _ held =>
    changeCapacity_spec held (Nat.zero_le _) fits

theorem reserve_spec (held : Held P o cap values) {new_capacity : Nat} (fits : new_capacity < 256 ^ P.sizeofSize) :
    Yields P o (reserve P o new_capacity) 0 values := by
  obtain ⟨cells, well, -⟩ := held.stored
  by_cases less : cap < new_capacity
  · have within := held.within
    exact (ensure_spec held (Nat.le_refl _) (by omega) fits).weaken (Nat.zero_le _)
  · have stays : reserve P o new_capacity = some o := by
      unfold reserve ensure
      rw [well.capacity, Option.bind_eq_bind, Option.bind_some, if_neg less]
    rw [stays]
    exact held.yields (Nat.zero_le _)

theorem shrinkToFit_spec (held : Held P o cap values) (fits : values.length < 256 ^ P.sizeofSize) :
    Yields P o (shrinkToFit P o) 0 values := by
  unfold shrinkToFit
  rw [held.size]
  exact (changeCapacity_spec held (Nat.le_refl _) fits).weaken (Nat.zero_le _)

theorem place_spec {more front back : List α} (well : Well P o cap cells)
    (opened : P.T.Opened cells front more.length back) (within : front.length + more.length ≤ cap) :
    ∃ o' cells', place P more front.length o = some o' ∧ Well P o' cap cells' ∧ P.T.Holds cells' (front ++ more ++ back) ∧
      o'.self._size = o.self._size ∧ Frame P o o' := by
  induction more generalizing o front cells with
  | nil =>
    rw [append_nil]
    exact ⟨o, cells, rfl, well, opened.close, rfl, .refl o⟩
  | cons value more ih =>
    rw [length_cons] at opened within
    obtain ⟨o', written, well', same, frame⟩ := put_well well (show front.length + 1 ≤ cap by omega) value
    have next : (front ++ [value]).length = front.length + 1 := length_append
    obtain ⟨o'', cells', rest, well'', holds, same', frame'⟩ := ih well' (opened.write value) (by omega)
    refine ⟨o'', cells', ?_, well'', ?_, same'.trans same, frame.trans frame'⟩
    · unfold place
      rw [written, Option.bind_eq_bind, Option.bind_some, ← next]
      exact rest
    · rw [append_cons]
      exact holds

section

variable (held : Held P o cap values)
include held

theorem insert_spec {p : Nat} {more : List α} (inside : p ≤ values.length)
    (fits : values.length + more.length + (values.length + more.length) >>> 1 < 256 ^ P.sizeofSize) :
    Yields P o (insert P o p more) 0 (values.take p ++ more ++ values.drop p) := by
  have count := held.size
  unfold insert
  rw [count]
  refine (ensure_spec held (Nat.le_add_right _ _) (by omega) fits).bind fun o' cap' held' enough => ?_
  obtain ⟨cells, well, stored⟩ := held'.stored
  have count' := held'.size
  have front : (values.take p).length = p := by
    rw [length_take]
    omega
  have room := well.room
  have bytes := Nat.mul_le_mul_right P.T.width enough
  rw [count']
  obtain ⟨moved, whole, well', same, frame⟩ := memmove_well well
    (show p + more.length + (values.length - p) ≤ cap' by omega) (show p + (values.length - p) ≤ cap' by omega)
  have opened := stored.open inside (show (values.length + more.length) * P.T.width ≤ cells.length by omega)
  have size' : Prevector.size P moved.self = values.length := (size_congr same).trans count'
  obtain ⟨grown, frame', size''⟩ := well'.grow (show Prevector.size P moved.self + more.length ≤ cap' by omega)
  have within : (values.take p).length + more.length ≤ cap' := by
    rw [front]
    omega
  obtain ⟨last, cells', placed, well'', holds, same', frame''⟩ := place_spec grown opened within
  rw [front] at placed
  rw [whole, Option.bind_eq_bind, Option.bind_some]
  refine ⟨last, cap', placed, ⟨?_, ?_, cells', well'', holds⟩, (frame.trans frame').trans frame'', Nat.zero_le _⟩
  · rw [size_congr same', size'', size', length_append, length_append, front, length_drop]
    omega
  · rw [length_append, length_append, front, length_drop]
    omega

theorem erase_spec {first last : Nat} (order : first ≤ last) (inside : last ≤ values.length) :
    Yields P o (erase P o first last) 0 (values.take first ++ values.drop last) := by
  obtain ⟨cells, well, stored⟩ := held.stored
  have within := held.within
  obtain ⟨moved, whole, well', same, frame⟩ := memmove_well well
    (show first + (values.length - last) ≤ cap by omega) (show last + (values.length - last) ≤ cap by omega)
  have size' : Prevector.size P moved.self = values.length := (size_congr same).trans held.size
  obtain ⟨shrunk, frame', size''⟩ := well'.shrink (show last - first ≤ Prevector.size P moved.self by omega)
  unfold erase
  rw [held.size, whole]
  refine ⟨_, cap, rfl, ⟨?_, ?_, _, shrunk, stored.remove order inside⟩, frame.trans frame', Nat.zero_le _⟩
  · rw [size'', size', length_append, length_take, length_drop]
    omega
  · rw [length_append, length_take, length_drop]
    omega

theorem pushBack_spec {value : α} (fits : values.length + 1 + (values.length + 1) >>> 1 < 256 ^ P.sizeofSize) :
    Yields P o (pushBack P o value) 0 (values ++ [value]) := by
  unfold pushBack
  rw [held.size]
  refine (ensure_spec held (Nat.le_add_right _ _) (by omega) fits).bind fun o' cap' held' enough => ?_
  obtain ⟨cells, well, stored⟩ := held'.stored
  obtain ⟨written, whole, well', same, frame⟩ := put_well well enough value
  have size' : Prevector.size P written.self = values.length := (size_congr same).trans held'.size
  obtain ⟨grown, frame', size''⟩ := well'.grow (show Prevector.size P written.self + 1 ≤ cap' by omega)
  have added := stored.write [value]
  rw [all_singleton] at added
  rw [held'.size, whole]
  refine ⟨_, cap', rfl, ⟨?_, ?_, _, grown, added⟩, frame.trans frame', Nat.zero_le _⟩
  · rw [size'', size', length_append]
    rfl
  · rw [length_append]
    exact enough

theorem popBack_spec (some_ : values ≠ []) : Yields P o (some (popBack o)) 0 values.dropLast := by
  obtain ⟨held', frame⟩ := shrink_spec held (length_pos_iff.mpr some_)
  rw [← dropLast_eq_take] at held'
  exact ⟨_, cap, rfl, held', frame, Nat.zero_le _⟩

theorem destroy_spec : ∃ o', destroy P o = some o' ∧ o.heap.next ≤ o'.heap.next ∧
      ∀ address, address < o.heap.next → own P o.self ≠ some address → o'.heap.block address = o.heap.block address := by
  obtain ⟨o', cap', whole, held', frame, -⟩ := clear_spec held
  obtain ⟨cells, well, -⟩ := held'.stored
  unfold destroy
  rw [whole, Option.bind_eq_bind, Option.bind_some]
  cases mode : isDirect P o'.self with
  | true => exact ⟨o', if_pos rfl, frame.next, frame.others⟩
  | false =>
    obtain ⟨-, address, field, -, -⟩ := well.owned mode
    have mine : own P o'.self = some address := by
      unfold own
      rw [mode, if_neg Bool.false_ne_true, field]
    rw [if_neg Bool.false_ne_true, field]
    refine ⟨_, rfl, frame.next, fun other below apart => ?_⟩
    rw [← frame.others other below apart]
    apply update_other
    intro equal
    rcases frame.owned address mine with before | fresh
    · exact apart (by rw [before, equal])
    · omega

end

end Longcoin.Prevector
