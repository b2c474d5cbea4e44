import Mathlib.Data.List.Basic

/-! Streams of frames: a header of a fixed size, which may be refused, and a body whose size the header
tells. A stream is fed symbol by symbol, so how it was cut does not matter. -/

namespace Longcoin.Library
open List Option

structure Framing (α H : Type) where
  headerSize : Nat
  positive : 0 < headerSize
  header : List α → Option H
  bodySize : H → Nat

namespace Framing

inductive Part (α H : Type) where
  | header (taken : List α)
  | body (head : H) (taken : List α)

/-- The finished frames and the one that is being taken in. -/
structure Feed (α H : Type) where
  done : List (H × List α) := []
  part : Part α H := .header []

variable {α H : Type} (framing : Framing α H)

def feed (state : Feed α H) (symbol : α) : Option (Feed α H) :=
  match state.part with
  | .header taken =>
      if (taken ++ [symbol]).length < framing.headerSize then some { state with part := .header (taken ++ [symbol]) }
      else
        match framing.header (taken ++ [symbol]) with
        | none => none
        | some head =>
            if framing.bodySize head = 0 then some ⟨state.done ++ [(head, [])], .header []⟩
            else some { state with part := .body head [] }
  | .body head taken =>
      if (taken ++ [symbol]).length < framing.bodySize head then some { state with part := .body head (taken ++ [symbol]) }
      else some ⟨state.done ++ [(head, taken ++ [symbol])], .header []⟩

/-- A stream up to the first refused header, and the number of symbols up to it when there is one. -/
def feedAll (state : Feed α H) : List α → Feed α H × Option Nat
  | [] => (state, none)
  | symbol :: rest =>
      match framing.feed state symbol with
      | none => (state, some 1)
      | some next => ((feedAll next rest).1, (feedAll next rest).2.map (· + 1))

def feedCuts (state : Feed α H) : List (List α) → Feed α H × Option Nat
  | [] => (state, none)
  | cut :: rest =>
      match framing.feedAll state cut with
      | (next, some n) => (next, some n)
      | (next, none) => ((feedCuts next rest).1, (feedCuts next rest).2.map (cut.length + ·))

variable {framing}

theorem feedAll_append (state : Feed α H) (front back : List α) : framing.feedAll state (front ++ back) =
    match framing.feedAll state front with
    | (next, some n) => (next, some n)
    | (next, none) => ((framing.feedAll next back).1, (framing.feedAll next back).2.map (front.length + ·)) := by
  induction front generalizing state with
  | nil => simp [feedAll]
  | cons symbol front ih =>
    rw [List.cons_append, feedAll, feedAll]
    cases framing.feed state symbol with
    | none => rfl
    | some next =>
      dsimp only
      rw [ih]
      rcases framing.feedAll next front with ⟨later, _ | n⟩
      · simp only [Option.map_map, Option.map_none, List.length_cons]
        congr 2
        funext n
        simp only [Function.comp_apply]
        omega
      · rfl

theorem feedCuts_flatten (state : Feed α H) (cuts : List (List α)) :
    framing.feedCuts state cuts = framing.feedAll state cuts.flatten := by
  induction cuts generalizing state with
  | nil => rfl
  | cons cut rest ih =>
    rw [feedCuts, flatten_cons, feedAll_append]
    rcases framing.feedAll state cut with ⟨next, _ | n⟩
    · dsimp only
      rw [ih]
    · rfl

theorem feed_done (front done : List (H × List α)) (part : Part α H) (symbol : α) :
    framing.feed ⟨front ++ done, part⟩ symbol =
      (framing.feed ⟨done, part⟩ symbol).map fun next => ⟨front ++ next.done, next.part⟩ := by
  cases part with
  | header taken =>
    rw [feed, feed]
    dsimp only
    split
    · rfl
    · cases framing.header (taken ++ [symbol]) with
      | none => rfl
      | some head =>
        dsimp only
        split
        · rw [map_some, append_assoc]
        · rfl
  | body head taken =>
    rw [feed, feed]
    dsimp only
    split
    · rfl
    · rw [map_some, append_assoc]

theorem feedAll_done (front : List (H × List α)) (state : Feed α H) (stream : List α) :
    framing.feedAll ⟨front ++ state.done, state.part⟩ stream =
      (⟨front ++ (framing.feedAll state stream).1.done, (framing.feedAll state stream).1.part⟩, (framing.feedAll state stream).2) := by
  induction stream generalizing state with
  | nil => rfl
  | cons symbol rest ih =>
    obtain ⟨done, part⟩ := state
    rw [feedAll, feedAll, feed_done]
    cases framing.feed ⟨done, part⟩ symbol with
    | none => rfl
    | some next =>
      dsimp only [map_some]
      rw [ih]

theorem feedAll_grows (state : Feed α H) (stream : List α) : state.done <+: (framing.feedAll state stream).1.done := by
  obtain ⟨done, part⟩ := state
  have fed := @feedAll_done α H framing done ⟨[], part⟩ stream
  rw [append_nil] at fed
  rw [fed]
  exact prefix_append done _

theorem feedAll_front {state last : Feed α H} {front rest : List α} (whole : framing.feedAll state (front ++ rest) = (last, none)) :
    ∃ middle, framing.feedAll state front = (middle, none) ∧ framing.feedAll middle rest = (last, none) := by
  rw [feedAll_append] at whole
  rcases fed : framing.feedAll state front with ⟨middle, _ | n⟩
  · rw [fed] at whole
    dsimp only at whole
    refine ⟨middle, rfl, Prod.ext (Prod.mk.inj whole).1 ?_⟩
    exact map_eq_none_iff.mp (Prod.mk.inj whole).2
  · rw [fed] at whole
    cases (Prod.mk.inj whole).2

theorem feedAll_within {done : List (H × List α)} (part : List α → Part α H) {limit : Nat}
    (takes : ∀ taken symbol, (taken ++ [symbol]).length < limit →
      framing.feed ⟨done, part taken⟩ symbol = some ⟨done, part (taken ++ [symbol])⟩)
    (taken cut : List α) (short : (taken ++ cut).length < limit) :
    framing.feedAll ⟨done, part taken⟩ cut = (⟨done, part (taken ++ cut)⟩, none) := by
  induction cut generalizing taken with
  | nil => rw [feedAll, append_nil]
  | cons symbol rest ih =>
    have first : (taken ++ [symbol]).length < limit := by
      rw [length_append, length_cons] at short
      rw [length_append, length_singleton]
      omega
    have later := ih (taken ++ [symbol]) (by rw [append_assoc]; exact short)
    rw [feedAll, takes taken symbol first]
    dsimp only
    rw [later, append_assoc]
    rfl

theorem feedAll_within_header (done : List (H × List α)) (taken cut : List α) (short : (taken ++ cut).length < framing.headerSize) :
    framing.feedAll ⟨done, .header taken⟩ cut = (⟨done, .header (taken ++ cut)⟩, none) :=
  feedAll_within .header (fun _ _ first => if_pos first) taken cut short

def headed (framing : Framing α H) (done : List (H × List α)) (head : H) : Feed α H :=
  if framing.bodySize head = 0 then ⟨done ++ [(head, [])], .header []⟩ else ⟨done, .body head []⟩

variable {done : List (H × List α)}

theorem feedAll_header {taken cut : List α} (some' : cut ≠ []) (whole : (taken ++ cut).length = framing.headerSize)
    {head : H} (read : framing.header (taken ++ cut) = some head) :
    framing.feedAll ⟨done, .header taken⟩ cut = (framing.headed done head, none) := by
  obtain ⟨front, symbol, rfl⟩ := eq_nil_or_concat cut |>.resolve_left some'
  rw [concat_eq_append] at whole read ⊢
  rw [← append_assoc] at whole read
  have short : (taken ++ front).length < framing.headerSize := by
    rw [← whole]
    simp
  have fed : framing.feed ⟨done, .header (taken ++ front)⟩ symbol = some (framing.headed done head) := by
    rw [feed, headed]
    dsimp only
    rw [if_neg (by omega), read]
    dsimp only
    split <;> rfl
  rw [feedAll_append, feedAll_within_header done taken front short]
  dsimp only
  rw [feedAll, fed]
  rfl

theorem feedAll_refused {taken cut : List α} (some' : cut ≠ []) (whole : (taken ++ cut).length = framing.headerSize)
    (read : framing.header (taken ++ cut) = none) :
    (framing.feedAll ⟨done, .header taken⟩ cut).1.done = done ∧
      (framing.feedAll ⟨done, .header taken⟩ cut).2 = some cut.length := by
  obtain ⟨front, symbol, rfl⟩ := eq_nil_or_concat cut |>.resolve_left some'
  rw [concat_eq_append] at whole read ⊢
  rw [← append_assoc] at whole read
  have short : (taken ++ front).length < framing.headerSize := by
    rw [← whole]
    simp
  rw [feedAll_append, feedAll_within_header done taken front short]
  dsimp only
  rw [feedAll, feed]
  dsimp only
  rw [if_neg (by omega), read]
  exact ⟨rfl, by rw [length_append]; rfl⟩

theorem feedAll_within_body (done : List (H × List α)) (head : H) (taken cut : List α)
    (short : (taken ++ cut).length < framing.bodySize head) :
    framing.feedAll ⟨done, .body head taken⟩ cut = (⟨done, .body head (taken ++ cut)⟩, none) :=
  feedAll_within (.body head) (fun _ _ first => if_pos first) taken cut short

theorem feedAll_body {head : H} {taken cut : List α} (some' : cut ≠ [])
    (whole : (taken ++ cut).length = framing.bodySize head) :
    framing.feedAll ⟨done, .body head taken⟩ cut = (⟨done ++ [(head, taken ++ cut)], .header []⟩, none) := by
  obtain ⟨front, symbol, rfl⟩ := eq_nil_or_concat cut |>.resolve_left some'
  rw [concat_eq_append] at whole ⊢
  rw [← append_assoc] at whole ⊢
  have short : (taken ++ front).length < framing.bodySize head := by
    rw [← whole]
    simp
  rw [feedAll_append, feedAll_within_body done head taken front short]
  dsimp only
  rw [feedAll, feed]
  dsimp only
  rw [if_neg (by omega)]
  rfl

theorem feedAll_frame {front body : List α} (whole : front.length = framing.headerSize) {head : H}
    (read : framing.header front = some head) (size : body.length = framing.bodySize head) :
    framing.feedAll ⟨done, .header []⟩ (front ++ body) = (⟨done ++ [(head, body)], .header []⟩, none) := by
  have some' : front ≠ [] := by
    rintro rfl
    exact absurd whole (Nat.ne_of_lt framing.positive)
  have headFed : framing.feedAll ⟨done, .header []⟩ front = (framing.headed done head, none) :=
    feedAll_header some' (show ([] ++ front).length = _ from whole) read
  rw [feedAll_append, headFed]
  dsimp only
  by_cases empty : framing.bodySize head = 0
  · have none' : body = [] := length_eq_zero_iff.mp (size.trans empty)
    rw [none', headed, if_pos empty]
    rfl
  · have body' : body ≠ [] := by
      rintro rfl
      exact empty size.symm
    have bodyFed : framing.feedAll ⟨done, .body head []⟩ body = (⟨done ++ [(head, body)], .header []⟩, none) :=
      feedAll_body body' (show ([] ++ body).length = _ from size)
    rw [headed, if_neg empty, bodyFed]
    rfl

end Framing

end Longcoin.Library
