import Mathlib.Data.BitVec

/-! Readers of byte streams, and what it means that a reader undoes a writer. -/

namespace Longcoin.Library.Codec
open List

/-- A reader takes a value from the front of a stream, unless the stream is too short. -/
abbrev Reader (α : Type) := StateT (List UInt8) Option α

variable {α β : Type}

/-- The reader takes exactly `bytes` and gives `value`, whatever follows in the stream. -/
def Reads (reader : Reader α) (bytes : List UInt8) (value : α) : Prop :=
  ∀ rest, reader (bytes ++ rest) = some (value, rest)

theorem Reads.pure (value : α) : Reads (Pure.pure value) [] value := fun _ => rfl

theorem Reads.bind {reader : Reader α} {next : α → Reader β} {front back : List UInt8} {first : α} {second : β}
    (one : Reads reader front first) (two : Reads (next first) back second) :
    Reads (reader >>= next) (front ++ back) second := by
  intro rest
  change (reader (front ++ back ++ rest)).bind (fun taken => next taken.1 taken.2) = _
  rw [append_assoc, one, Option.bind_some, two]

theorem Reads.bind_pure {reader : Reader α} {bytes : List UInt8} {value : α} (reads : Reads reader bytes value)
    (f : α → β) : Reads (reader >>= fun taken => Pure.pure (f taken)) bytes (f value) := by
  have both : Reads (reader >>= fun taken => Pure.pure (f taken)) (bytes ++ []) (f value) :=
    reads.bind (Reads.pure (f value))
  rw [append_nil] at both
  exact both

theorem Reads.bind_same {reader : Reader α} {next : α → Reader β} {bytes : List UInt8} {value : α} {result : β}
    (reads : Reads reader bytes value) (same : next value = Pure.pure result) : Reads (reader >>= next) bytes result := by
  intro rest
  change (reader (bytes ++ rest)).bind (fun taken => next taken.1 taken.2) = _
  rw [reads, Option.bind_some]
  exact congrFun same rest

def readBytes (length : Nat) : Reader (List UInt8) := fun stream =>
  if length ≤ stream.length then some (stream.take length, stream.drop length) else none

theorem readBytes_reads (bytes : List UInt8) : Reads (readBytes bytes.length) bytes bytes := by
  intro rest
  rw [readBytes, if_pos (by rw [length_append]; omega), take_left, drop_left]

def readEach (reader : α → Reader β) : List α → Reader (List β)
  | [] => Pure.pure []
  | entry :: rest => do
      let value ← reader entry
      let values ← readEach reader rest
      return value :: values

theorem readEach_reads {ι : Type} {reader : α → Reader β} {argument : ι → α} {write : ι → List UInt8} {value : ι → β}
    (entries : List ι) (each : ∀ entry ∈ entries, Reads (reader (argument entry)) (write entry) (value entry)) :
    Reads (readEach reader (entries.map argument)) (entries.flatMap write) (entries.map value) := by
  induction entries with
  | nil => exact Reads.pure []
  | cons entry rest ih =>
    rw [flatMap_cons, map_cons, map_cons, readEach]
    refine (each entry mem_cons_self).bind ?_
    exact (ih (forall_mem_cons.mp each).2).bind_pure (value entry :: ·)

end Longcoin.Library.Codec
