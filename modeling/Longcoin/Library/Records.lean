import Mathlib.Data.List.Basic
import Mathlib.Data.List.TakeDrop

/-! Buffers that are written piece by piece, and records of one width in the front of a buffer. -/

namespace Longcoin.Library.Records
open List

variable {Cell α : Type} {buf piece : List Cell}

def overwrite (buf : List Cell) (place : Nat) (piece : List Cell) : List Cell :=
  buf.take place ++ piece ++ buf.drop (place + piece.length)

theorem overwrite_length {place : Nat} (fits : place + piece.length ≤ buf.length) :
    (overwrite buf place piece).length = buf.length := by
  unfold overwrite
  rw [length_append, length_append, length_take, length_drop]
  omega

theorem overwrite_inside {place spot : Nat} (fits : place + piece.length ≤ buf.length) (low : place ≤ spot)
    (high : spot < place + piece.length) : (overwrite buf place piece)[spot]? = piece[spot - place]? := by
  have before : (buf.take place).length = place := by
    rw [length_take]
    omega
  unfold overwrite
  rw [getElem?_append_left, getElem?_append_right, before]
  · omega
  · rw [length_append]
    omega

theorem overwrite_outside {place spot : Nat} (fits : place + piece.length ≤ buf.length)
    (apart : spot < place ∨ place + piece.length ≤ spot) : (overwrite buf place piece)[spot]? = buf[spot]? := by
  have before : (buf.take place).length = place := by
    rw [length_take]
    omega
  unfold overwrite
  rcases apart with low | high
  · rw [append_assoc, getElem?_append_left (by omega), getElem?_take_of_lt low]
  · rw [getElem?_append_right (by rw [length_append]; omega), getElem?_drop, length_append, before]
    congr 1
    omega

theorem overwrite_append {front middle back : List Cell} (same : piece.length = middle.length) :
    overwrite (front ++ middle ++ back) front.length piece = front ++ piece ++ back := by
  unfold overwrite
  rw [same, ← length_append, drop_left, append_assoc front middle, take_left]

/-- Cells copied to another place of the same buffer, as if by way of a copy. -/
def move (buf : List Cell) (dst src count : Nat) : List Cell := overwrite buf dst ((buf.drop src).take count)

/-- Values that lie in memory as cells, all of one width. -/
structure Layout (Cell α : Type) where
  width : Nat
  encode : α → List Cell
  decode : List Cell → Option α
  length_encode : ∀ value, (encode value).length = width
  decode_encode : ∀ value, decode (encode value) = some value

namespace Layout
variable (T : Layout Cell α)

def all (values : List α) : List Cell := values.flatMap T.encode

@[simp] theorem all_nil : T.all [] = [] := rfl

@[simp] theorem all_append (front back : List α) : T.all (front ++ back) = T.all front ++ T.all back :=
  flatMap_append

@[simp] theorem all_singleton (value : α) : T.all [value] = T.encode value := flatMap_singleton ..

@[simp] theorem length_all (values : List α) : (T.all values).length = values.length * T.width := by
  induction values with
  | nil => simp
  | cons value values ih =>
    rw [← singleton_append, all_append, length_append, ih, all_singleton, T.length_encode, length_append,
      Nat.add_mul, length_singleton, Nat.one_mul]

def Holds (buf : List Cell) (values : List α) : Prop := T.all values <+: buf

variable {T} {values : List α}

theorem Holds.take (held : T.Holds buf values) (count : Nat) : T.Holds buf (values.take count) := by
  apply IsPrefix.trans _ held
  apply Exists.intro (T.all (values.drop count))
  rw [← all_append, take_append_drop]

theorem split_at {i : Nat} {value : α} (there : values[i]? = some value) :
    values = values.take i ++ value :: values.drop (i + 1) := by
  obtain ⟨short, same⟩ := List.getElem?_eq_some_iff.mp there
  rw [← same, cons_getElem_drop_succ, take_append_drop]

theorem Holds.decode (held : T.Holds buf values) {i : Nat} {value : α} (there : values[i]? = some value) :
    T.decode ((buf.drop (i * T.width)).take T.width) = some value := by
  obtain ⟨rest, rfl⟩ := held
  have short : i < values.length := (List.getElem?_eq_some_iff.mp there).1
  have before : (T.all (values.take i)).length = i * T.width := by
    rw [length_all, length_take, Nat.min_eq_left (by omega)]
  rw [split_at there, ← singleton_append, all_append, all_append, all_singleton, append_assoc, append_assoc,
    drop_left' before, take_left' (T.length_encode value), T.decode_encode]

theorem prefix_overwrite {front : List Cell} (within : front <+: buf) :
    front ++ piece <+: overwrite buf front.length piece := by
  obtain ⟨rest, rfl⟩ := within
  unfold overwrite
  rw [take_left]
  exact prefix_append _ _

theorem Holds.write (held : T.Holds buf values) (more : List α) :
    T.Holds (overwrite buf (values.length * T.width) (T.all more)) (values ++ more) := by
  unfold Holds
  rw [all_append, ← T.length_all values]
  exact prefix_overwrite held

/-- Two stretches of values with room for more between them. -/
def Opened (T : Layout Cell α) (buf : List Cell) (front : List α) (count : Nat) (back : List α) : Prop :=
  ∃ gap : List Cell, gap.length = count * T.width ∧ T.all front ++ gap ++ T.all back <+: buf

theorem Opened.write {front back : List α} {count : Nat} (opened : T.Opened buf front (count + 1) back) (value : α) :
    T.Opened (overwrite buf (front.length * T.width) (T.encode value)) (front ++ [value]) count back := by
  obtain ⟨gap, length, rest, rfl⟩ := opened
  have short : (gap.take T.width).length = T.width := by
    rw [length_take, length, Nat.add_mul]
    omega
  apply Exists.intro (gap.drop T.width)
  apply And.intro
  · rw [length_drop, length, Nat.add_mul]
    omega
  · apply Exists.intro rest
    have split : T.all front ++ gap ++ T.all back ++ rest =
        T.all front ++ gap.take T.width ++ (gap.drop T.width ++ T.all back ++ rest) := by
      simp only [← append_assoc]
      rw [append_assoc (T.all front) (gap.take T.width), take_append_drop]
    rw [split, ← T.length_all front, overwrite_append ((T.length_encode value).trans short.symm)]
    simp only [all_append, all_singleton, append_assoc]

theorem Opened.close {front back : List α} (opened : T.Opened buf front 0 back) : T.Holds buf (front ++ back) := by
  obtain ⟨gap, length, within⟩ := opened
  rw [Nat.zero_mul, length_eq_zero_iff] at length
  rw [length, append_nil, ← all_append] at within
  exact within

theorem slice_all {front middle rest : List Cell} {src count : Nat} (start : front.length = src)
    (length : middle.length = count) : ((front ++ middle ++ rest).drop src).take count = middle := by
  rw [append_assoc, drop_left' start, take_left' length]

theorem Holds.open (held : T.Holds buf values) {p count : Nat} (inside : p ≤ values.length)
    (fits : (values.length + count) * T.width ≤ buf.length) :
    T.Opened (move buf ((p + count) * T.width) (p * T.width) ((values.length - p) * T.width)) (values.take p) count
      (values.drop p) := by
  obtain ⟨rest, whole⟩ := held
  have before : (T.all (values.take p)).length = p * T.width := by
    rw [length_all, length_take, Nat.min_eq_left inside]
  have after : (T.all (values.drop p)).length = (values.length - p) * T.width := by
    rw [length_all, length_drop]
  have parts : buf = T.all (values.take p) ++ T.all (values.drop p) ++ rest := by
    rw [← all_append, take_append_drop, whole]
  have place : (T.all (values.take p) ++ (buf.drop (p * T.width)).take (count * T.width)).length = (p + count) * T.width := by
    rw [length_append, before, length_take, length_drop, Nat.min_eq_left, Nat.add_mul]
    have := Nat.mul_le_mul_right T.width inside
    rw [Nat.add_mul] at fits
    omega
  refine ⟨(buf.drop (p * T.width)).take (count * T.width), ?_, ?_⟩
  · rw [length_append, before] at place
    rw [Nat.add_mul] at place
    omega
  · unfold move
    rw [← place]
    have slice : (buf.drop (p * T.width)).take ((values.length - p) * T.width) = T.all (values.drop p) := by
      rw [parts]
      exact slice_all before after
    rw [slice]
    apply prefix_overwrite
    have front : T.all (values.take p) = buf.take (p * T.width) := by
      rw [parts, append_assoc, take_left' before]
    rw [front, ← take_add]
    exact take_prefix _ _

theorem Holds.remove (held : T.Holds buf values) {p q : Nat} (order : p ≤ q) (inside : q ≤ values.length) :
    T.Holds (move buf (p * T.width) (q * T.width) ((values.length - q) * T.width)) (values.take p ++ values.drop q) := by
  obtain ⟨rest, whole⟩ := held
  have before : (T.all (values.take q)).length = q * T.width := by
    rw [length_all, length_take, Nat.min_eq_left inside]
  have after : (T.all (values.drop q)).length = (values.length - q) * T.width := by
    rw [length_all, length_drop]
  have slice : (buf.drop (q * T.width)).take ((values.length - q) * T.width) = T.all (values.drop q) := by
    rw [← whole, ← take_append_drop q values, all_append, take_append_drop]
    exact slice_all before after
  have first : T.Holds buf (values.take p) := Holds.take ⟨rest, whole⟩ p
  have written := first.write (values.drop q)
  rw [length_take, Nat.min_eq_left (by omega)] at written
  unfold move
  rw [slice]
  exact written

end Layout
end Longcoin.Library.Records
