import Longcoin.Library.Records

/-! A ring of cells that holds the latest cells of a stream: cell `j` of the stream lies at `j` modulo the length. -/

namespace Longcoin.Library.RingWindow
open Records List

variable {α : Type} {ring stream piece : List α} {mark : Nat}

/-- The ring holds the stream's cells below the mark, as far back as the ring is long. -/
def Window (ring stream : List α) (mark : Nat) : Prop :=
  ∀ cell, cell < mark → mark ≤ cell + ring.length → ring[cell % ring.length]? = stream[cell]?

theorem window_start (ring stream : List α) : Window ring stream 0 :=
  fun cell below => absurd below (Nat.not_lt_zero cell)

theorem place_apart {length low high : Nat} (order : low < high) (near : high < low + length) :
    low % length ≠ high % length := by
  intro same
  have divides : length ∣ high - low := Nat.dvd_of_mod_eq_zero (Nat.sub_mod_eq_zero_of_mod_eq same.symm)
  have := Nat.le_of_dvd (by omega) divides
  omega

theorem place_add {length mark ahead : Nat} (fits : mark % length + ahead < length) :
    (mark + ahead) % length = mark % length + ahead := by
  rw [Nat.add_mod, Nat.mod_eq_of_lt (show ahead < length by omega), Nat.mod_eq_of_lt fits]

theorem Window.overwrite (held : Window ring stream mark) (fits : mark % ring.length + piece.length ≤ ring.length)
    (next : piece = (stream.drop mark).take piece.length) :
    Window (overwrite ring (mark % ring.length) piece) stream (mark + piece.length) := by
  intro cell below reach
  rw [overwrite_length fits] at reach ⊢
  by_cases old : cell < mark
  · -- an older cell lies outside the piece: it is less than a ring behind each written cell
    have apart : cell % ring.length < mark % ring.length ∨
        mark % ring.length + piece.length ≤ cell % ring.length := by
      by_contra inside
      have offset : ∃ ahead, ahead < piece.length ∧ cell % ring.length = mark % ring.length + ahead :=
        ⟨cell % ring.length - mark % ring.length, by omega, by omega⟩
      obtain ⟨ahead, short, same⟩ := offset
      rw [← place_add (by omega)] at same
      exact place_apart (by omega) (by omega) same
    rw [overwrite_outside fits apart]
    exact held cell old (by omega)
  · obtain ⟨ahead, rfl⟩ : ∃ ahead, cell = mark + ahead := ⟨cell - mark, by omega⟩
    rw [place_add (by omega), overwrite_inside fits (by omega) (by omega), Nat.add_sub_cancel_left, next,
      getElem?_take_of_lt (by omega), getElem?_drop]

theorem Window.slice (held : Window ring stream mark) {cell count : Nat} (reach : mark ≤ cell + ring.length)
    (below : cell + count ≤ mark) (fits : cell % ring.length + count ≤ ring.length) :
    (ring.drop (cell % ring.length)).take count = (stream.drop cell).take count := by
  apply ext_getElem?
  intro ahead
  by_cases inside : ahead < count
  · rw [getElem?_take_of_lt inside, getElem?_take_of_lt inside, getElem?_drop, getElem?_drop,
      ← place_add (by omega)]
    exact held (cell + ahead) (by omega) (by omega)
  · rw [getElem?_take_eq_none (by omega), getElem?_take_eq_none (by omega)]

end Longcoin.Library.RingWindow
