import Longcoin.Library.RingWindow
import Mathlib.Algebra.Group.Nat.Defs
import Mathlib.Algebra.Ring.Int.Defs
import Mathlib.Data.List.Induction

/-! The reader that buffers a file in a ring and can step back in it (`CBufferedFile`, `streams.h`). -/

namespace Longcoin.BufferedFile
open Library.Records Library.RingWindow List

/-- Subtraction of `uint64_t` wraps around. -/
def minus64 (a b : Nat) : Nat := (a + 2 ^ 64 - b) % 2 ^ 64

theorem minus64_eq {a b : Nat} (order : b ≤ a) (small : a < 2 ^ 64) : minus64 a b = a - b := by
  unfold minus64
  omega

/-- The file behind the buffer. Call number `calls` of `fread` delivers at most `short calls` bytes. -/
structure File where
  content : List UInt8
  short : Nat → Nat
  offset : Nat := 0
  calls : Nat := 0

def File.fread (src : File) (want : Nat) : List UInt8 × File :=
  let bytes := (src.content.drop src.offset).take (min want (src.short src.calls))
  (bytes, { src with offset := src.offset + bytes.length, calls := src.calls + 1 })

/-- Asked after a call of `fread` that delivered nothing. -/
def File.feof (src : File) : Bool := src.content.length ≤ src.offset

structure CBufferedFile where
  src : File
  nSrcPos : Nat := 0
  nReadPos : Nat := 0
  nReadLimit : Nat := 2 ^ 64 - 1
  nRewind : Nat
  vchBuf : List UInt8

def create (fileIn : File) (nBufSize nRewindIn : Nat) : CBufferedFile :=
  { src := fileIn, nRewind := nRewindIn, vchBuf := List.replicate nBufSize 0 }

def endOfFile : String := "CBufferedFile::Fill: end of file"
def freadFailed : String := "CBufferedFile::Fill: fread failed"
def pastLimit : String := "Read attempted past buffer limit"
def tooLarge : String := "Read larger than buffer size"

/-- The local variables `pos`, `readNow` and `nAvail` of `Fill` are 32 bits wide. -/
def fill (s : CBufferedFile) : Except String Bool × CBufferedFile :=
  let pos := s.nSrcPos % s.vchBuf.length % 2 ^ 32
  let readNow := minus64 s.vchBuf.length pos % 2 ^ 32
  let nAvail := minus64 (minus64 s.vchBuf.length (minus64 s.nSrcPos s.nReadPos)) s.nRewind % 2 ^ 32
  let readNow := if nAvail < readNow then nAvail else readNow
  if readNow = 0 then (.ok false, s)
  else
    let got := s.src.fread readNow
    if got.1.length = 0 then (.error (if got.2.feof then endOfFile else freadFailed), { s with src := got.2 })
    else (.ok true, { s with src := got.2, vchBuf := overwrite s.vchBuf pos got.1,
                             nSrcPos := (s.nSrcPos + got.1.length) % 2 ^ 64 })

/-- `if (nReadPos == nSrcPos) Fill();` -/
def refill (s : CBufferedFile) : Except String Bool × CBufferedFile :=
  if s.nReadPos = s.nSrcPos then fill s else (.ok true, s)

/-- A copy out of the buffer; the cells have to be there. -/
def memcpy (vchBuf : List UInt8) (pos nNow : Nat) : Option (List UInt8) :=
  if pos + nNow ≤ vchBuf.length then some ((vchBuf.drop pos).take nNow) else none

inductive Ending where
  | returned
  | threw (what : String)
  | outOfBounds
  | spins
deriving DecidableEq

/-- How a call ends, the bytes it delivered before that, the flag it returned and the reader it leaves. -/
structure Outcome where
  ending : Ending
  bytes : List UInt8 := []
  flag : Bool := true
  file : CBufferedFile

def chunk (s : CBufferedFile) (nSize : Nat) : Nat :=
  let pos := s.nReadPos % s.vchBuf.length % 2 ^ 32
  let nNow := if s.vchBuf.length < (nSize + pos) % 2 ^ 64 then minus64 s.vchBuf.length pos else nSize
  if s.nSrcPos < (nNow + s.nReadPos) % 2 ^ 64 then minus64 s.nSrcPos s.nReadPos else nNow

/-- The loop of `read`. A turn that copies nothing leaves the reader as it found it, so that the loop needs at most
a turn for each byte or never ends. -/
def readLoop : Nat → CBufferedFile → Nat → List UInt8 → Outcome
  | 0, s, nSize, pch => { ending := if nSize = 0 then .returned else .spins, bytes := pch, file := s }
  | turns + 1, s, nSize, pch =>
    if nSize = 0 then { ending := .returned, bytes := pch, file := s }
    else
      match refill s with
      | (.error what, s) => { ending := .threw what, bytes := pch, file := s }
      | (.ok _, s) =>
        let nNow := chunk s nSize
        match memcpy s.vchBuf (s.nReadPos % s.vchBuf.length % 2 ^ 32) nNow with
        | none => { ending := .outOfBounds, bytes := pch, file := s }
        | some bytes =>
          readLoop turns { s with nReadPos := (s.nReadPos + nNow) % 2 ^ 64 } (minus64 nSize nNow) (pch ++ bytes)

def read (s : CBufferedFile) (nSize : Nat) : Outcome :=
  if s.nReadLimit < (nSize + s.nReadPos) % 2 ^ 64 then { ending := .threw pastLimit, file := s }
  else if s.vchBuf.length < (nSize + s.nRewind) % 2 ^ 64 then { ending := .threw tooLarge, file := s }
  else readLoop nSize s nSize []

def getPos (s : CBufferedFile) : Nat := s.nReadPos

def setPos (s : CBufferedFile) (nPos : Nat) : Outcome :=
  if (nPos + s.nRewind) % 2 ^ 64 < s.nSrcPos then
    { ending := .returned, flag := false, file := { s with nReadPos := minus64 s.nSrcPos s.nRewind } }
  else if s.nSrcPos < nPos then
    { ending := .returned, flag := false, file := { s with nReadPos := s.nSrcPos } }
  else { ending := .returned, file := { s with nReadPos := nPos } }

def setLimit (s : CBufferedFile) (nPos : Nat) : Outcome :=
  if nPos < s.nReadPos then { ending := .returned, flag := false, file := s }
  else { ending := .returned, file := { s with nReadLimit := nPos } }

def findLoop (ch : UInt8) : Nat → CBufferedFile → Outcome
  | 0, s => { ending := .spins, file := s }
  | turns + 1, s =>
    match refill s with
    | (.error what, s) => { ending := .threw what, file := s }
    | (.ok _, s) =>
      match s.vchBuf[s.nReadPos % s.vchBuf.length]? with
      | none => { ending := .outOfBounds, file := s }
      | some byte =>
        if byte = ch then { ending := .returned, file := s }
        else findLoop ch turns { s with nReadPos := (s.nReadPos + 1) % 2 ^ 64 }

def findByte (s : CBufferedFile) (ch : UInt8) : Outcome := findLoop ch (s.src.content.length + 1) s

/-- A reader of the file that has not gone astray: it stands within what was read from the source, no more than a
buffer behind the end of it, and the ring holds the last bytes that were read. -/
structure Good (content : List UInt8) (nRewind : Nat) (s : CBufferedFile) : Prop where
  content_eq : s.src.content = content
  nRewind_eq : s.nRewind = nRewind
  small : content.length < 2 ^ 63
  room : nRewind < s.vchBuf.length
  short : s.vchBuf.length < 2 ^ 32
  offset : s.src.offset = s.nSrcPos
  inside : s.nSrcPos ≤ content.length
  behind : s.nReadPos ≤ s.nSrcPos
  near : s.nSrcPos ≤ s.nReadPos + s.vchBuf.length
  window : Window s.vchBuf content s.nSrcPos

theorem good_create {file : File} {nBufSize nRewind : Nat} (small : file.content.length < 2 ^ 63)
    (start : file.offset = 0) (room : nRewind < nBufSize) (short : nBufSize < 2 ^ 32) :
    Good file.content nRewind (create file nBufSize nRewind) where
  content_eq := rfl
  nRewind_eq := rfl
  small := small
  room := by simpa [create] using room
  short := by simpa [create] using short
  offset := start
  inside := Nat.zero_le _
  behind := Nat.zero_le _
  near := Nat.zero_le _
  window := window_start _ _

variable {content : List UInt8} {nRewind : Nat} {s s' : CBufferedFile}

theorem Good.move (good : Good content nRewind s) {nReadPos : Nat} (behind : nReadPos ≤ s.nSrcPos)
    (near : s.nSrcPos ≤ nReadPos + s.vchBuf.length) : Good content nRewind { s with nReadPos := nReadPos } where
  content_eq := good.content_eq
  nRewind_eq := good.nRewind_eq
  small := good.small
  room := good.room
  short := good.short
  offset := good.offset
  inside := good.inside
  behind := behind
  near := near
  window := good.window

theorem Good.limit (good : Good content nRewind s) (nReadLimit : Nat) :
    Good content nRewind { s with nReadLimit := nReadLimit } where
  content_eq := good.content_eq
  nRewind_eq := good.nRewind_eq
  small := good.small
  room := good.room
  short := good.short
  offset := good.offset
  inside := good.inside
  behind := good.behind
  near := good.near
  window := good.window

structure Refilled (content : List UInt8) (nRewind : Nat) (s s' : CBufferedFile) : Prop where
  good : Good content nRewind s'
  nReadPos : s'.nReadPos = s.nReadPos
  nReadLimit : s'.nReadLimit = s.nReadLimit

theorem fread_offset (src : File) (want : Nat) : (src.fread want).2.offset = src.offset + (src.fread want).1.length := rfl

theorem fread_length (src : File) (want : Nat) : (src.fread want).1.length ≤ want := by
  unfold File.fread
  simp only [length_take]
  omega

theorem fread_inside (src : File) (want : Nat) : (src.fread want).1.length ≤ src.content.length - src.offset := by
  unfold File.fread
  simp only [length_take, length_drop]
  omega

theorem fread_bytes (src : File) (want : Nat) :
    (src.fread want).1 = (src.content.drop src.offset).take (src.fread want).1.length := by
  unfold File.fread
  rw [length_take]
  exact take_eq_take_min

def filled (s : CBufferedFile) (want : Nat) : CBufferedFile :=
  { s with
    src := (s.src.fread want).2
    vchBuf := overwrite s.vchBuf (s.nSrcPos % s.vchBuf.length) (s.src.fread want).1
    nSrcPos := s.nSrcPos + (s.src.fread want).1.length }

section

variable (good : Good content nRewind s)
include good

theorem fill_eq (caught : s.nReadPos = s.nSrcPos) :
    ∃ want, 0 < want ∧ s.nSrcPos % s.vchBuf.length + want ≤ s.vchBuf.length ∧ want + nRewind ≤ s.vchBuf.length ∧
      fill s = if (s.src.fread want).1.length = 0 then
          (.error (if (s.src.fread want).2.feof then endOfFile else freadFailed),
            { s with src := (s.src.fread want).2 })
        else (.ok true, filled s want) := by
  have room := good.room
  have short := good.short
  have inside := good.inside
  have small := good.small
  have place : s.nSrcPos % s.vchBuf.length < s.vchBuf.length := Nat.mod_lt _ (by omega)
  have pos : s.nSrcPos % s.vchBuf.length % 2 ^ 32 = s.nSrcPos % s.vchBuf.length := Nat.mod_eq_of_lt (by omega)
  have left : minus64 s.vchBuf.length (s.nSrcPos % s.vchBuf.length) % 2 ^ 32 =
      s.vchBuf.length - s.nSrcPos % s.vchBuf.length := by
    rw [minus64_eq (by omega) (by omega)]
    omega
  have free : minus64 (minus64 s.vchBuf.length (minus64 s.nSrcPos s.nReadPos)) s.nRewind % 2 ^ 32 =
      s.vchBuf.length - nRewind := by
    rw [caught, minus64_eq (Nat.le_refl _) (by omega), Nat.sub_self, minus64_eq (Nat.zero_le _) (by omega), Nat.sub_zero,
      good.nRewind_eq, minus64_eq (by omega) (by omega)]
    omega
  refine ⟨min (s.vchBuf.length - nRewind) (s.vchBuf.length - s.nSrcPos % s.vchBuf.length), by omega, by omega, by omega, ?_⟩
  have least : (if s.vchBuf.length - nRewind < s.vchBuf.length - s.nSrcPos % s.vchBuf.length then
      s.vchBuf.length - nRewind else s.vchBuf.length - s.nSrcPos % s.vchBuf.length) =
      min (s.vchBuf.length - nRewind) (s.vchBuf.length - s.nSrcPos % s.vchBuf.length) := by
    split <;> omega
  have delivered := fread_inside s.src
    (min (s.vchBuf.length - nRewind) (s.vchBuf.length - s.nSrcPos % s.vchBuf.length))
  rw [good.content_eq, good.offset] at delivered
  have advance := Nat.mod_eq_of_lt (show s.nSrcPos + (s.src.fread (min (s.vchBuf.length - nRewind)
    (s.vchBuf.length - s.nSrcPos % s.vchBuf.length))).1.length < 2 ^ 64 by omega)
  unfold fill
  simp only [pos, left, free, least]
  rw [if_neg (by omega)]
  split
  · rfl
  · rw [advance]
    rfl

theorem filled_good (caught : s.nReadPos = s.nSrcPos) {want : Nat}
    (fits : s.nSrcPos % s.vchBuf.length + want ≤ s.vchBuf.length) : Good content nRewind (filled s want) := by
  have taken := fread_length s.src want
  have delivered := fread_inside s.src want
  have inside := good.inside
  rw [good.content_eq, good.offset] at delivered
  have kept : (filled s want).vchBuf.length = s.vchBuf.length := overwrite_length (by omega)
  constructor
  · exact good.content_eq
  · exact good.nRewind_eq
  · exact good.small
  · rw [kept]
    exact good.room
  · rw [kept]
    exact good.short
  · change (s.src.fread want).2.offset = s.nSrcPos + (s.src.fread want).1.length
    rw [fread_offset, good.offset]
  · change s.nSrcPos + (s.src.fread want).1.length ≤ content.length
    omega
  · change s.nReadPos ≤ s.nSrcPos + (s.src.fread want).1.length
    omega
  · change s.nSrcPos + (s.src.fread want).1.length ≤ s.nReadPos + (filled s want).vchBuf.length
    omega
  · apply good.window.overwrite (by omega)
    have bytes := fread_bytes s.src want
    rw [good.content_eq, good.offset] at bytes
    exact bytes

theorem fill_spec (caught : s.nReadPos = s.nSrcPos) : (∃ what s', fill s = (.error what, s') ∧ Refilled content nRewind s s' ∧
      (what = endOfFile → content.length ≤ s.nReadPos)) ∨
    ∃ s', fill s = (.ok true, s') ∧ Refilled content nRewind s s' ∧ s'.nReadPos < s'.nSrcPos := by
  obtain ⟨want, positive, fits, -, whole⟩ := fill_eq good caught
  rw [whole]
  split
  next nothing =>
    apply Or.inl
    refine ⟨_, _, rfl, ⟨?_, rfl, rfl⟩, ?_⟩
    · constructor
      · exact good.content_eq
      · exact good.nRewind_eq
      · exact good.small
      · exact good.room
      · exact good.short
      · change (s.src.fread want).2.offset = s.nSrcPos
        rw [fread_offset, nothing, good.offset]
        rfl
      · exact good.inside
      · exact good.behind
      · exact good.near
      · exact good.window
    · intro ended
      have reached : (s.src.fread want).2.feof = true := by
        by_contra more
        rw [if_neg more] at ended
        exact absurd ended (by decide)
      have past := of_decide_eq_true reached
      rw [fread_offset, nothing, good.offset] at past
      change s.src.content.length ≤ s.nSrcPos + 0 at past
      rw [good.content_eq] at past
      omega
  next bytes =>
    apply Or.inr
    refine ⟨_, rfl, ⟨filled_good good caught fits, rfl, rfl⟩, ?_⟩
    change s.nReadPos < s.nSrcPos + (s.src.fread want).1.length
    omega

theorem refill_spec : (∃ what s', refill s = (.error what, s') ∧ Refilled content nRewind s s' ∧
      (what = endOfFile → content.length ≤ s.nReadPos)) ∨
    ∃ s', refill s = (.ok true, s') ∧ Refilled content nRewind s s' ∧ s'.nReadPos < s'.nSrcPos := by
  by_cases caught : s.nReadPos = s.nSrcPos
  · have same : refill s = fill s := if_pos caught
    rw [same]
    exact fill_spec good caught
  · have behind := good.behind
    exact .inr ⟨s, if_neg caught, ⟨good, rfl, rfl⟩, by omega⟩

theorem chunk_spec (ahead : s.nReadPos < s.nSrcPos) {nSize : Nat} (more : nSize ≠ 0) (bound : nSize < 2 ^ 63) :
    0 < chunk s nSize ∧ chunk s nSize ≤ nSize ∧ s.nReadPos + chunk s nSize ≤ s.nSrcPos ∧
      memcpy s.vchBuf (s.nReadPos % s.vchBuf.length % 2 ^ 32) (chunk s nSize) =
        some ((content.drop s.nReadPos).take (chunk s nSize)) := by
  have room := good.room
  have short := good.short
  have inside := good.inside
  have small := good.small
  have place : s.nReadPos % s.vchBuf.length < s.vchBuf.length := Nat.mod_lt _ (by omega)
  have pos : s.nReadPos % s.vchBuf.length % 2 ^ 32 = s.nReadPos % s.vchBuf.length := Nat.mod_eq_of_lt (by omega)
  have sizes : chunk s nSize =
      min (min nSize (s.vchBuf.length - s.nReadPos % s.vchBuf.length)) (s.nSrcPos - s.nReadPos) := by
    unfold chunk
    simp only [pos]
    rw [minus64_eq (by omega) (by omega), minus64_eq (by omega) (by omega),
      Nat.mod_eq_of_lt (show nSize + s.nReadPos % s.vchBuf.length < 2 ^ 64 by omega)]
    have first : (if s.vchBuf.length < nSize + s.nReadPos % s.vchBuf.length then
        s.vchBuf.length - s.nReadPos % s.vchBuf.length else nSize) =
        min nSize (s.vchBuf.length - s.nReadPos % s.vchBuf.length) := by
      split <;> omega
    rw [first, Nat.mod_eq_of_lt (by omega)]
    split <;> omega
  refine ⟨by omega, by omega, by omega, ?_⟩
  rw [pos]
  unfold memcpy
  rw [if_pos (by omega), good.window.slice good.near (by omega) (by omega)]

end

/-- What a call of `read` from a position delivers: the file's bytes from there on, all of them unless it throws. -/
structure Delivered (content : List UInt8) (nRewind : Nat) (s : CBufferedFile) (nSize : Nat) (pch : List UInt8)
    (o : Outcome) : Prop where
  good : Good content nRewind o.file
  nReadLimit : o.file.nReadLimit = s.nReadLimit
  bytes : ∃ count, count ≤ nSize ∧ o.file.nReadPos = s.nReadPos + count ∧
    s.nReadPos + count ≤ content.length ∧ o.bytes = pch ++ (content.drop s.nReadPos).take count ∧
      (o.ending = .returned ∧ count = nSize ∨ ∃ what, o.ending = .threw what)

theorem take_add {α : Type} (xs : List α) (start first second : Nat) :
    (xs.drop start).take first ++ (xs.drop (start + first)).take second = (xs.drop start).take (first + second) := by
  rw [List.take_add, List.drop_drop]

theorem Refilled.stop (good : Good content nRewind s) (kept : Refilled content nRewind s s') {nSize : Nat}
    {pch : List UInt8} {ending : Ending} (why : ending = .returned ∧ nSize = 0 ∨ ∃ what, ending = .threw what) :
    Delivered content nRewind s nSize pch { ending := ending, bytes := pch, file := s' } := by
  have behind := good.behind
  have inside := good.inside
  refine ⟨kept.good, kept.nReadLimit, 0, Nat.zero_le _, kept.nReadPos, by omega, (append_nil pch).symm, ?_⟩
  rcases why with ⟨done, zero⟩ | threw
  · exact .inl ⟨done, zero.symm⟩
  · exact .inr threw

theorem readLoop_spec {turns nSize : Nat} {pch : List UInt8} (good : Good content nRewind s) (enough : nSize ≤ turns)
    (bound : nSize < 2 ^ 63) : Delivered content nRewind s nSize pch (readLoop turns s nSize pch) := by
  induction turns generalizing s nSize pch with
  | zero =>
    have zero : nSize = 0 := by omega
    rw [readLoop, if_pos zero]
    exact Refilled.stop good ⟨good, rfl, rfl⟩ (.inl ⟨rfl, zero⟩)
  | succ turns ih =>
    rw [readLoop]
    by_cases zero : nSize = 0
    · rw [if_pos zero]
      exact Refilled.stop good ⟨good, rfl, rfl⟩ (.inl ⟨rfl, zero⟩)
    · rw [if_neg zero]
      rcases refill_spec good with ⟨what, s', whole, kept, -⟩ | ⟨s', whole, kept, ahead⟩
      · rw [whole]
        exact kept.stop good (.inr ⟨what, rfl⟩)
      · obtain ⟨positive, most, reach, copied⟩ := chunk_spec kept.good ahead zero bound
        have inside := kept.good.inside
        have small := kept.good.small
        have near := kept.good.near
        have next : Good content nRewind { s' with nReadPos := s'.nReadPos + chunk s' nSize } :=
          kept.good.move reach (by omega)
        have rest := @ih _ (nSize - chunk s' nSize) (pch ++ (content.drop s'.nReadPos).take (chunk s' nSize)) next
          (by omega) (by omega)
        rw [whole]
        simp only [copied, Nat.mod_eq_of_lt (show s'.nReadPos + chunk s' nSize < 2 ^ 64 by omega),
          minus64_eq most (show nSize < 2 ^ 64 by omega)]
        obtain ⟨good', limit, count, few, moved, within, bytes, ended⟩ := rest
        refine ⟨good', limit.trans kept.nReadLimit, chunk s' nSize + count, by omega, ?_, ?_, ?_, ?_⟩
        · rw [moved, ← kept.nReadPos]
          exact Nat.add_assoc _ _ _
        · rw [← kept.nReadPos, ← Nat.add_assoc]
          exact within
        · rw [bytes, ← kept.nReadPos, append_assoc, take_add]
        · rcases ended with ⟨done, all⟩ | threw
          · exact .inl ⟨done, by omega⟩
          · exact .inr threw

theorem read_spec (good : Good content nRewind s) {nSize : Nat} (bound : nSize < 2 ^ 63) :
    Delivered content nRewind s nSize [] (read s nSize) ∧
      ((read s nSize).bytes ≠ [] → (read s nSize).file.nReadPos ≤ s.nReadLimit) := by
  have behind := good.behind
  have inside := good.inside
  have small := good.small
  have stay : Refilled content nRewind s s := ⟨good, rfl, rfl⟩
  unfold read
  rw [Nat.mod_eq_of_lt (show nSize + s.nReadPos < 2 ^ 64 by omega)]
  split
  · exact ⟨stay.stop good (.inr ⟨_, rfl⟩), fun bytes => absurd rfl bytes⟩
  · split
    · exact ⟨stay.stop good (.inr ⟨_, rfl⟩), fun bytes => absurd rfl bytes⟩
    · have delivered := @readLoop_spec _ _ _ nSize nSize [] good (Nat.le_refl _) bound
      apply And.intro delivered
      intro
      obtain ⟨count, few, moved, -⟩ := delivered.bytes
      omega

theorem setPos_good (good : Good content nRewind s) {nPos : Nat}
    (whole : (nPos + nRewind) % 2 ^ 64 < s.nSrcPos → nRewind ≤ s.nSrcPos) : Good content nRewind (setPos s nPos).file := by
  have rewind := good.nRewind_eq
  subst rewind
  have behind := good.behind
  have inside := good.inside
  have small := good.small
  have room := good.room
  unfold setPos
  split
  next far =>
    have under := whole far
    rw [minus64_eq under (by omega)]
    exact good.move (by omega) (by omega)
  next near =>
    split
    · exact good.move (Nat.le_refl _) (by omega)
    · apply good.move (by omega)
      have := Nat.mod_le (nPos + s.nRewind) (2 ^ 64)
      omega

theorem setPos_iff (good : Good content nRewind s) {nPos : Nat} (back : nPos ≤ s.nReadPos) :
    (setPos s nPos).flag = true ∧ (setPos s nPos).file.nReadPos = nPos ↔ s.nSrcPos ≤ nPos + nRewind := by
  have rewind := good.nRewind_eq
  subst rewind
  have behind := good.behind
  have inside := good.inside
  have small := good.small
  have room := good.room
  have short := good.short
  unfold setPos
  rw [Nat.mod_eq_of_lt (by omega)]
  split
  next far => exact ⟨fun taken => absurd taken.1 Bool.false_ne_true, fun near => absurd far (by omega)⟩
  next near =>
    rw [if_neg (by omega)]
    exact ⟨fun _ => by omega, fun _ => ⟨rfl, rfl⟩⟩

theorem setLimit_good (good : Good content nRewind s) (nPos : Nat) : Good content nRewind (setLimit s nPos).file := by
  unfold setLimit
  split
  · exact good
  · exact good.limit nPos

/-- A search ends at the first place of the byte, or with an exception; an end of the file says that there is none. -/
structure Found (content : List UInt8) (nRewind : Nat) (s : CBufferedFile) (ch : UInt8) (o : Outcome) : Prop where
  good : Good content nRewind o.file
  forward : s.nReadPos ≤ o.file.nReadPos
  first : ∀ place, s.nReadPos ≤ place → place < o.file.nReadPos → content[place]? ≠ some ch
  ended : o.ending = .returned ∧ content[o.file.nReadPos]? = some ch ∨ ∃ what, o.ending = .threw what
  absent : o.ending = .threw endOfFile → ∀ place, s.nReadPos ≤ place → content[place]? ≠ some ch

theorem findLoop_spec {ch : UInt8} {turns : Nat} (good : Good content nRewind s)
    (enough : content.length < s.nReadPos + turns) : Found content nRewind s ch (findLoop ch turns s) := by
  induction turns generalizing s with
  | zero =>
    have := good.behind
    have := good.inside
    omega
  | succ turns ih =>
    rw [findLoop]
    rcases refill_spec good with ⟨what, s', whole, kept, finished⟩ | ⟨s', whole, kept, ahead⟩
    · rw [whole]
      constructor
      · exact kept.good
      · exact Nat.le_of_eq kept.nReadPos.symm
      · intro place low high
        have := kept.nReadPos
        dsimp only at high
        omega
      · exact .inr ⟨what, rfl⟩
      · intro same place low
        have past := finished (by injection same)
        rw [getElem?_eq_none (by omega)]
        exact nofun
    · have inside := kept.good.inside
      have small := kept.good.small
      have near := kept.good.near
      have stood := kept.nReadPos
      obtain ⟨byte, there⟩ : ∃ byte, content[s'.nReadPos]? = some byte :=
        ⟨_, getElem?_eq_getElem (show s'.nReadPos < content.length by omega)⟩
      have here := kept.good.window _ ahead near
      rw [there] at here
      rw [whole]
      simp only [here]
      split
      next found =>
        constructor
        · exact kept.good
        · exact Nat.le_of_eq kept.nReadPos.symm
        · intro place low high
          dsimp only at high
          omega
        · exact .inl ⟨rfl, found ▸ there⟩
        · exact nofun
      next other =>
        have next : Good content nRewind { s' with nReadPos := s'.nReadPos + 1 } := kept.good.move ahead (by omega)
        have rest := ih next (by dsimp only; omega)
        have passed : ∀ place, s.nReadPos ≤ place → ¬ s'.nReadPos + 1 ≤ place → content[place]? ≠ some ch := by
          intro place low high same
          have equal : place = s'.nReadPos := by omega
          rw [equal, there] at same
          exact other (Option.some.inj same)
        rw [Nat.mod_eq_of_lt (show s'.nReadPos + 1 < 2 ^ 64 by omega)]
        constructor
        · exact rest.good
        · have forward := rest.forward
          dsimp only at forward
          omega
        · intro place low high
          by_cases further : s'.nReadPos + 1 ≤ place
          · exact rest.first place further high
          · exact passed place low further
        · exact rest.ended
        · intro finished place low
          by_cases further : s'.nReadPos + 1 ≤ place
          · exact rest.absent finished place further
          · exact passed place low further

theorem findByte_spec (good : Good content nRewind s) (ch : UInt8) : Found content nRewind s ch (findByte s ch) := by
  unfold findByte
  rw [good.content_eq]
  exact findLoop_spec good (by omega)

inductive Action where
  | read (nSize : Nat)
  | setPos (nPos : Nat)
  | setLimit (nPos : Nat)
  | findByte (ch : UInt8)
deriving DecidableEq

def call (s : CBufferedFile) : Action → Outcome
  | .read nSize => read s nSize
  | .setPos nPos => setPos s nPos
  | .setLimit nPos => setLimit s nPos
  | .findByte ch => findByte s ch

def after (s : CBufferedFile) (actions : List Action) : CBufferedFile :=
  actions.foldl (fun s action => (call s action).file) s

/-- Something holds of every call of a sequence, at the reader the calls before it leave. -/
def Throughout (s : CBufferedFile) (actions : List Action) (holds : CBufferedFile → Action → Prop) : Prop :=
  ∀ done action rest, actions = done ++ action :: rest → holds (after s done) action

theorem Throughout.before {done rest : List Action} {holds : CBufferedFile → Action → Prop}
    (run : Throughout s (done ++ rest) holds) : Throughout s done holds := by
  intro first action later same
  apply run first action (later ++ rest)
  rw [same, append_assoc, cons_append]

theorem throughout_nil (s : CBufferedFile) (holds : CBufferedFile → Action → Prop) : Throughout s [] holds := by
  intro done action rest same
  cases done <;> cases same

theorem throughout_cons {action : Action} {actions : List Action} {holds : CBufferedFile → Action → Prop}
    (here : holds s action) (later : Throughout (call s action).file actions holds) :
    Throughout s (action :: actions) holds := by
  intro done next rest same
  cases done with
  | nil =>
    injection same with head tail
    exact head ▸ here
  | cons first done =>
    injection same with head tail
    rw [← head]
    exact later done next rest tail

def Outcome.Ends (o : Outcome) : Prop := o.ending = .returned ∨ ∃ what, o.ending = .threw what

/-- What a call promises about the file: a read delivers the bytes from its position on and stops at the limit, a
position at most `nRewind` back is taken, a search stops at the first place of its byte. -/
def Faithful (content : List UInt8) (nRewind : Nat) (s : CBufferedFile) (action : Action) : Prop :=
  let o := call s action
  o.Ends ∧
    match action with
    | .read nSize =>
      o.bytes = (content.drop (getPos s)).take o.bytes.length ∧ getPos o.file = getPos s + o.bytes.length ∧
        (o.ending = .returned → o.bytes.length = nSize) ∧ (o.bytes ≠ [] → getPos o.file ≤ s.nReadLimit)
    | .setPos nPos =>
      getPos s ≤ nPos + nRewind → nPos ≤ getPos s → o.flag = true ∧ getPos o.file = nPos
    | .setLimit _ => True
    | .findByte ch =>
      getPos s ≤ getPos o.file ∧ (∀ place, getPos s ≤ place → place < getPos o.file → content[place]? ≠ some ch) ∧
        (o.ending = .returned → content[getPos o.file]? = some ch) ∧
          (o.ending = .threw endOfFile → ∀ place, getPos s ≤ place → content[place]? ≠ some ch)

/-- What the calls rest on: the bytes read fit in memory, and a position to set does not wrap around to one that
looks too far back while less than `nRewind` was read. -/
def Sound (nRewind : Nat) (s : CBufferedFile) : Action → Prop
  | .read nSize => nSize < 2 ^ 63
  | .setPos nPos => (nPos + nRewind) % 2 ^ 64 < s.nSrcPos → nRewind ≤ s.nSrcPos
  | _ => True

/-- The buffer has not run ahead of a position to rewind to by more than `nRewind`. -/
def InReach (nRewind : Nat) (s : CBufferedFile) : Action → Prop
  | .setPos nPos => getPos s ≤ nPos + nRewind → nPos ≤ getPos s → s.nSrcPos ≤ nPos + nRewind
  | _ => True

instance (nRewind : Nat) (s : CBufferedFile) : (action : Action) → Decidable (Sound nRewind s action)
  | .read nSize => inferInstanceAs (Decidable (nSize < 2 ^ 63))
  | .setPos nPos => inferInstanceAs (Decidable ((nPos + nRewind) % 2 ^ 64 < s.nSrcPos → nRewind ≤ s.nSrcPos))
  | .setLimit _ | .findByte _ => isTrue trivial

instance (nRewind : Nat) (s : CBufferedFile) : (action : Action) → Decidable (InReach nRewind s action)
  | .setPos nPos =>
    inferInstanceAs (Decidable (getPos s ≤ nPos + nRewind → nPos ≤ getPos s → s.nSrcPos ≤ nPos + nRewind))
  | .read _ | .setLimit _ | .findByte _ => isTrue trivial

theorem call_good (good : Good content nRewind s) {action : Action} (sound : Sound nRewind s action) :
    Good content nRewind (call s action).file := by
  cases action with
  | read nSize => exact (read_spec good sound).1.good
  | setPos nPos => exact setPos_good good sound
  | setLimit nPos => exact setLimit_good good nPos
  | findByte ch => exact (findByte_spec good ch).good

theorem read_faithful (good : Good content nRewind s) {nSize : Nat} (bound : nSize < 2 ^ 63) :
    Faithful content nRewind s (.read nSize) := by
  obtain ⟨delivered, limited⟩ := read_spec good bound
  obtain ⟨count, few, moved, within, bytes, ended⟩ := delivered.bytes
  rw [nil_append] at bytes
  have length : (read s nSize).bytes.length = count := by
    rw [bytes, length_take, length_drop]
    omega
  have taken : (read s nSize).bytes = (content.drop (getPos s)).take (read s nSize).bytes.length := by
    rw [length]
    exact bytes
  have position : getPos (read s nSize).file = getPos s + (read s nSize).bytes.length := by
    rw [length]
    exact moved
  have filled : (read s nSize).ending = .returned → (read s nSize).bytes.length = nSize := by
    intro returned
    rcases ended with ⟨-, all⟩ | ⟨what, threw⟩
    · omega
    · rw [threw] at returned
      cases returned
  have ends : (read s nSize).Ends := ended.imp (fun all => all.1) id
  exact ⟨ends, taken, position, filled, limited⟩

theorem findByte_faithful (good : Good content nRewind s) (ch : UInt8) : Faithful content nRewind s (.findByte ch) := by
  have found := findByte_spec good ch
  have stopped : (findByte s ch).ending = .returned → content[getPos (findByte s ch).file]? = some ch := by
    intro returned
    rcases found.ended with ⟨-, there⟩ | ⟨what, threw⟩
    · exact there
    · rw [threw] at returned
      cases returned
  have ends : (findByte s ch).Ends := found.ended.imp (fun both => both.1) id
  exact ⟨ends, found.forward, found.first, stopped, found.absent⟩

theorem setPos_returned (s : CBufferedFile) (nPos : Nat) : (setPos s nPos).ending = .returned := by
  unfold setPos
  split
  · rfl
  · split <;> rfl

theorem setLimit_returned (s : CBufferedFile) (nPos : Nat) : (setLimit s nPos).ending = .returned := by
  unfold setLimit
  split <;> rfl

theorem call_faithful_iff (good : Good content nRewind s) {action : Action} (sound : Sound nRewind s action) :
    Faithful content nRewind s action ↔ InReach nRewind s action := by
  cases action with
  | read nSize => exact ⟨fun _ => trivial, fun _ => read_faithful good sound⟩
  | setPos nPos =>
    constructor
    · intro faithful near back
      exact (setPos_iff good back).mp (faithful.2 near back)
    · intro reach
      exact ⟨.inl (setPos_returned s nPos), fun near back => (setPos_iff good back).mpr (reach near back)⟩
  | setLimit nPos => exact ⟨fun _ => trivial, fun _ => ⟨.inl (setLimit_returned s nPos), trivial⟩⟩
  | findByte ch => exact ⟨fun _ => trivial, fun _ => findByte_faithful good ch⟩

theorem after_snoc (s : CBufferedFile) (done : List Action) (action : Action) :
    after s (done ++ [action]) = (call (after s done) action).file := by
  unfold after
  rw [foldl_append]
  rfl

theorem after_good {actions : List Action} (good : Good content nRewind s)
    (sound : Throughout s actions (Sound nRewind)) : Good content nRewind (after s actions) := by
  induction actions using reverseRecOn with
  | nil => exact good
  | append_singleton done action ih =>
    rw [after_snoc]
    exact call_good (ih sound.before) (sound done action [] rfl)

/-- A run of calls is faithful to the file, and each call returns or throws, exactly if no call asks to go back by at
most `nRewind` to a position that the buffer has already given up. -/
theorem reads_faithful_iff {file : File} {nBufSize nRewind : Nat} {actions : List Action}
    (fits : file.content.length < 2 ^ 63) (start : file.offset = 0) (room : nRewind < nBufSize)
    (short : nBufSize < 2 ^ 32) (sound : Throughout (create file nBufSize nRewind) actions (Sound nRewind)) :
    Throughout (create file nBufSize nRewind) actions (Faithful file.content nRewind) ↔
      Throughout (create file nBufSize nRewind) actions (InReach nRewind) := by
  have good : ∀ done action rest, actions = done ++ action :: rest →
      Good file.content nRewind (after (create file nBufSize nRewind) done) := by
    intro done action rest same
    rw [same] at sound
    exact after_good (good_create fits start room short) sound.before
  constructor
  · intro faithful done action rest same
    exact (call_faithful_iff (good done action rest same) (sound done action rest same)).mp (faithful done action rest same)
  · intro reach done action rest same
    exact (call_faithful_iff (good done action rest same) (sound done action rest same)).mpr (reach done action rest same)

def fourBytes : File := { content := [1, 2, 3, 2], short := fun _ => 8 }

theorem faithful_fourBytes :
    Throughout (create fourBytes 3 2) [.read 1, .setLimit 9, .setPos 0, .findByte 2] (Faithful fourBytes.content 2) := by
  have sound : Throughout (create fourBytes 3 2) [.read 1, .setLimit 9, .setPos 0, .findByte 2] (Sound 2) := by
    exact throughout_cons (by decide) (throughout_cons (by decide) (throughout_cons (by decide)
      (throughout_cons (by decide) (throughout_nil _ _))))
  apply (reads_faithful_iff (by decide) rfl (by decide) (by decide) sound).mpr
  exact throughout_cons (by decide) (throughout_cons (by decide) (throughout_cons (by decide)
    (throughout_cons (by decide) (throughout_nil _ _))))

/-- The ring fills up while one byte is read, and then refuses to go back over it. -/
theorem rewind_refused : ¬ Throughout (create fourBytes 3 1) [.read 1, .setPos 0] (Faithful fourBytes.content 1) := by
  intro faithful
  have promised := (faithful [.read 1] (.setPos 0) [] rfl).2 (by decide) (by decide)
  have refused : (call (after (create fourBytes 3 1) [.read 1]) (.setPos 0)).flag = false := by decide
  rw [refused] at promised
  exact Bool.false_ne_true promised.1

end Longcoin.BufferedFile
