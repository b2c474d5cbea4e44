import Mathlib.Data.Finset.Card

/-! What a finite set leads to, and searches that keep a set of keys to do and a set of keys that are done. -/

namespace Longcoin.Library
open Finset

variable {K : Type}

inductive Reach (next : K → Finset K) (seeds : Finset K) : K → Prop where
  | seed {key : K} (member : key ∈ seeds) : Reach next seeds key
  | step {key other : K} (before : Reach next seeds key) (edge : other ∈ next key) : Reach next seeds other

namespace Reach

variable {next : K → Finset K} {seeds : Finset K}

variable {key : K}

theorem inside {whole : Finset K} (start : seeds ⊆ whole) (stays : ∀ key ∈ whole, next key ⊆ whole)
    (reach : Reach next seeds key) : key ∈ whole := by
  induction reach with
  | seed member => exact start member
  | step before edge ih => exact stays _ ih edge

theorem mono {more : Finset K} (subset : seeds ⊆ more) (reach : Reach next seeds key) : Reach next more key := by
  induction reach with
  | seed member => exact .seed (subset member)
  | step before edge ih => exact .step ih edge

theorem under {other : K} (reach : Reach next seeds key) (further : Reach next (next key) other) : Reach next seeds other := by
  induction further with
  | seed member => exact .step reach member
  | step before edge ih => exact .step ih edge

theorem trans {other : K} (reach : Reach next seeds key) (further : Reach next {key} other) : Reach next seeds other := by
  induction further with
  | seed member => exact mem_singleton.mp member ▸ reach
  | step before edge ih => exact .step ih edge

theorem weaken {next' : K → Finset K} (more : ∀ key, next key ⊆ next' key) (reach : Reach next seeds key) :
    Reach next' seeds key := by
  induction reach with
  | seed member => exact .seed member
  | step before edge ih => exact .step ih (more _ edge)

variable [DecidableEq K] {gone : Finset K}

theorem avoid_closed (closed : ∀ key ∈ gone, next key ⊆ gone) (reach : Reach next seeds key) (outside : key ∉ gone) :
    Reach (fun key => next key \ gone) (seeds \ gone) key := by
  induction reach with
  | seed member => exact .seed (mem_sdiff.mpr ⟨member, outside⟩)
  | @step middle last _ edge ih =>
    have apart : middle ∉ gone := fun member => outside (closed middle member edge)
    exact .step (ih apart) (mem_sdiff.mpr ⟨edge, outside⟩)

theorem avoid_unreached (unreached : ∀ key, key ∉ gone → Disjoint (next key) gone) (start : Disjoint seeds gone)
    (reach : Reach next seeds key) : key ∉ gone ∧ Reach (fun key => next key \ gone) (seeds \ gone) key := by
  induction reach with
  | seed member =>
    have outside := disjoint_left.mp start member
    exact ⟨outside, .seed (mem_sdiff.mpr ⟨member, outside⟩)⟩
  | @step middle last _ edge ih =>
    have outside := disjoint_left.mp (unreached middle ih.1) edge
    exact ⟨outside, .step ih.2 (mem_sdiff.mpr ⟨edge, outside⟩)⟩

theorem of_avoiding {next' : K → Finset K} (same : ∀ key, key ∉ gone → next key \ gone ⊆ next' key)
    (reach : Reach (fun key => next key \ gone) (seeds \ gone) key) : Reach next' (seeds \ gone) key := by
  have both : key ∉ gone ∧ Reach next' (seeds \ gone) key := by
    induction reach with
    | seed member => exact ⟨(mem_sdiff.mp member).2, .seed member⟩
    | step _ edge ih => exact ⟨(mem_sdiff.mp edge).2, .step ih.2 (same _ ih.1 edge)⟩
  exact both.2

end Reach

open Classical in
noncomputable def closure (next : K → Finset K) (whole seeds : Finset K) : Finset K := whole.filter fun key => Reach next seeds key

variable {whole : Finset K}

theorem mem_closure {next : K → Finset K} {seeds : Finset K} {key : K} :
    key ∈ closure next whole seeds ↔ key ∈ whole ∧ Reach next seeds key := by
  simp only [closure, mem_filter]

theorem closure_subset (next : K → Finset K) (whole seeds : Finset K) : closure next whole seeds ⊆ whole :=
  fun _ member => (mem_closure.mp member).1

theorem closure_empty (next : K → Finset K) (whole : Finset K) : closure next whole ∅ = ∅ := by
  rw [eq_empty_iff_forall_notMem]
  intro key member
  refine notMem_empty key ((mem_closure.mp member).2.inside (Subset.refl _) fun other inside => ?_)
  exact absurd inside (notMem_empty _)

theorem closure_closed {next : K → Finset K} {seeds : Finset K} (stays : ∀ key ∈ whole, next key ⊆ whole) {key : K}
    (member : key ∈ closure next whole seeds) : next key ⊆ closure next whole seeds := by
  obtain ⟨inside, reach⟩ := mem_closure.mp member
  exact fun other edge => mem_closure.mpr ⟨stays key inside edge, .step reach edge⟩

theorem closure_congr {next next' : K → Finset K} {whole' seeds : Finset K} (subset : whole ⊆ whole')
    (same : ∀ key ∈ whole, next' key = next key) (stays : ∀ key ∈ whole, next key ⊆ whole) (start : seeds ⊆ whole) :
    closure next' whole' seeds = closure next whole seeds := by
  ext key
  rw [mem_closure, mem_closure]
  constructor
  · rintro ⟨-, reach⟩
    have both : key ∈ whole ∧ Reach next seeds key := by
      induction reach with
      | seed member => exact ⟨start member, .seed member⟩
      | step before edge ih =>
        rw [same _ ih.1] at edge
        exact ⟨stays _ ih.1 edge, .step ih.2 edge⟩
    exact both
  · rintro ⟨inside, reach⟩
    refine ⟨subset inside, ?_⟩
    induction reach with
    | seed member => exact .seed member
    | step before edge ih =>
      have within := before.inside start stays
      exact .step (ih within) (by rw [same _ within]; exact edge)

theorem reach_flip {next back : K → Finset K} (inverse : ∀ key other, other ∈ next key ↔ key ∈ back other) {key other : K} :
    Reach next {key} other ↔ other = key ∨ Reach back (back other) key := by
  constructor
  · intro reach
    induction reach with
    | seed member => exact .inl (mem_singleton.mp member)
    | @step middle last before edge ih =>
      have link : Reach back (back last) middle := .seed ((inverse middle last).mp edge)
      rcases ih with rfl | further
      · exact .inr link
      · exact .inr (link.under further)
  · rintro (rfl | reach)
    · exact .seed (mem_singleton_self _)
    · induction reach with
      | seed member => exact .step (.seed (mem_singleton_self _)) ((inverse _ _).mpr member)
      | @step middle last before edge ih =>
        exact (Reach.step (.seed (mem_singleton_self _)) ((inverse last middle).mpr edge)).trans ih

variable [DecidableEq K]

theorem closure_insert_closure {next : K → Finset K} {seeds : Finset K} (start : seeds ⊆ whole) (key : K) :
    closure next whole (insert key (closure next whole seeds)) = closure next whole (insert key seeds) := by
  ext other
  rw [mem_closure, mem_closure]
  refine and_congr Iff.rfl ⟨fun reach => ?_, fun reach => reach.mono (insert_subset_insert key fun seed member => ?_)⟩
  · induction reach with
    | seed member =>
      rcases mem_insert.mp member with rfl | old
      · exact .seed (mem_insert_self _ _)
      · exact (mem_closure.mp old).2.mono (subset_insert _ _)
    | step before edge ih => exact .step ih edge
  · exact mem_closure.mpr ⟨start member, .seed member⟩

/-- A search under way: what is reached is done or to do, and a key that is done leads nowhere else. -/
structure Frontier (next : K → Finset K) (seeds todo done : Finset K) : Prop where
  apart : ∀ key ∈ todo, key ∉ done
  started : seeds ⊆ done ∪ todo
  reached : ∀ key ∈ done ∪ todo, Reach next seeds key
  closed : ∀ key ∈ done, next key ⊆ done ∪ todo

namespace Frontier

variable {next : K → Finset K} {seeds todo done : Finset K}

theorem start : Frontier next seeds seeds ∅ where
  apart _ _ := notMem_empty _
  started := subset_union_right
  reached key member := .seed (by simpa using member)
  closed key member := absurd member (notMem_empty _)

theorem resume {done : Finset K} (closed : ∀ key ∈ done, next key ⊆ done) (key : K) :
    Frontier next (insert key done) (if key ∈ done then ∅ else {key}) done := by
  split
  · next inside =>
    refine ⟨fun other member => absurd member (notMem_empty _), ?_, fun other member => ?_, fun other member => ?_⟩
    · rw [union_empty, insert_eq_of_mem inside]
    · rw [union_empty] at member
      exact .seed (mem_insert_of_mem member)
    · rw [union_empty]
      exact closed other member
  · next outside =>
    refine ⟨fun other member => ?_, ?_, fun other member => .seed ?_, fun other member => ?_⟩
    · rw [mem_singleton.mp member]
      exact outside
    · rw [union_comm, ← insert_eq]
    · rwa [union_comm, ← insert_eq] at member
    · exact (closed other member).trans subset_union_left

theorem turn (frontier : Frontier next seeds todo done) {now : K} (member : now ∈ todo) :
    Frontier next seeds (todo.erase now ∪ next now \ insert now done) (insert now done) := by
  have same : insert now done ∪ (todo.erase now ∪ next now \ insert now done) = done ∪ todo ∪ next now := by
    ext key
    simp only [mem_union, mem_insert, mem_erase, mem_sdiff]
    by_cases here : key = now
    · subst here
      simp [member]
    · by_cases inside : key ∈ done <;> simp [here, inside]
  refine ⟨?_, ?_, ?_, ?_⟩
  · intro key inside again
    rcases mem_union.mp inside with old | new
    · rcases mem_insert.mp again with rfl | earlier
      · exact notMem_erase _ _ old
      · exact frontier.apart key (mem_of_mem_erase old) earlier
    · exact (mem_sdiff.mp new).2 again
  · rw [same]
    exact frontier.started.trans subset_union_left
  · rw [same]
    intro key inside
    rcases mem_union.mp inside with old | new
    · exact frontier.reached key old
    · exact .step (frontier.reached now (mem_union_right _ member)) new
  · rw [same]
    intro key inside
    rcases mem_insert.mp inside with rfl | old
    · exact subset_union_right
    · exact (frontier.closed key old).trans subset_union_left

theorem finish (frontier : Frontier next seeds ∅ done) (key : K) : key ∈ done ↔ Reach next seeds key := by
  constructor
  · intro member
    exact frontier.reached key (mem_union_left _ member)
  · intro reach
    induction reach with
    | seed member => simpa using frontier.started member
    | step before edge ih => simpa using frontier.closed _ ih edge

theorem finish_closure {whole : Finset K} (frontier : Frontier next seeds ∅ done) (start : seeds ⊆ whole)
    (stays : ∀ key ∈ whole, next key ⊆ whole) : done = closure next whole seeds := by
  ext key
  rw [frontier.finish, mem_closure]
  exact ⟨fun reach => ⟨reach.inside start stays, reach⟩, And.right⟩

theorem subset_closure {whole : Finset K} (frontier : Frontier next seeds todo done) (start : seeds ⊆ whole)
    (stays : ∀ key ∈ whole, next key ⊆ whole) : done ∪ todo ⊆ closure next whole seeds := by
  intro key member
  have reach := frontier.reached key member
  exact mem_closure.mpr ⟨reach.inside start stays, reach⟩

theorem fewer {whole : Finset K} (frontier : Frontier next seeds todo done) {now : K} (member : now ∈ todo) (inside : now ∈ whole) :
    (whole \ insert now done).card < (whole \ done).card := by
  rw [sdiff_insert]
  exact card_erase_lt_of_mem (mem_sdiff.mpr ⟨inside, frontier.apart now member⟩)

end Frontier

end Longcoin.Library
