import Mathlib.Data.List.Lattice
import Mathlib.Data.List.Nodup

/-! Worklist loops: take a key that is still to do, do it, add the keys it leads to unless they are done. -/

namespace Longcoin.Library.Worklist
open List

variable {σ K : Type} [DecidableEq K]

def run (turn : σ → K → σ × List K) : ℕ → List K → List K → σ → σ
  | 0, _, _, state => state
  | _ + 1, [], _, state => state
  | fuel + 1, now :: rest, done, state =>
    run turn fuel (((turn state now).2.filter fun key => decide (key ∉ now :: done)) ∪ rest) (now :: done)
      (turn state now).1

/-- The keys that a number of turns leaves to do, and those that are done then. -/
def progress (turn : σ → K → σ × List K) : ℕ → List K → List K → σ → List K × List K
  | 0, todo, done, _ => (todo, done)
  | _ + 1, [], done, _ => ([], done)
  | fuel + 1, now :: rest, done, state =>
    progress turn fuel (((turn state now).2.filter fun key => decide (key ∉ now :: done)) ∪ rest) (now :: done)
      (turn state now).1

variable {turn : σ → K → σ × List K}

theorem run_invariant (inv : σ → Prop) (keeps : ∀ state now, inv state → inv (turn state now).1) (fuel : ℕ)
    (todo done : List K) {state : σ} (starts : inv state) : inv (run turn fuel todo done state) := by
  induction fuel generalizing todo done state with
  | zero => exact starts
  | succ fuel ih =>
    cases todo with
    | nil => exact starts
    | cons now rest => exact ih _ _ (keeps state now starts)

theorem run_of_progress {fuel : ℕ} {todo done worked : List K} {state : σ}
    (ended : progress turn fuel todo done state = ([], worked)) (more : ℕ) :
    run turn (fuel + more) todo done state = run turn fuel todo done state := by
  induction fuel generalizing todo done state with
  | zero =>
    obtain ⟨rfl, -⟩ := Prod.mk.inj ended
    cases more <;> rfl
  | succ fuel ih =>
    rw [Nat.add_right_comm]
    cases todo with
    | nil => rfl
    | cons now rest => exact ih ended

theorem progress_enough (inv : σ → Prop) (whole : List K)
    (keeps : ∀ state now, inv state → inv (turn state now).1 ∧ (turn state now).2 ⊆ whole) (fuel : ℕ)
    (todo done : List K) {state : σ} (starts : inv state) (distinct : todo.Nodup) (inside : todo ⊆ whole)
    (undone : ∀ key ∈ todo, key ∉ done) (once : done.Nodup) (within : done ⊆ whole)
    (enough : (whole.filter fun key => decide (key ∉ done)).length ≤ fuel) :
    ∃ worked, progress turn fuel todo done state = ([], worked) ∧ worked.Nodup ∧ worked ⊆ whole := by
  induction fuel generalizing todo done state with
  | zero =>
    cases todo with
    | nil => exact ⟨done, rfl, once, within⟩
    | cons now rest =>
      have still : now ∈ whole.filter fun key => decide (key ∉ done) :=
        mem_filter.mpr ⟨inside mem_cons_self, decide_eq_true (undone now mem_cons_self)⟩
      have positive := length_pos_of_mem still
      omega
  | succ fuel ih =>
    cases todo with
    | nil => exact ⟨done, rfl, once, within⟩
    | cons now rest =>
      have undoneNow := undone now mem_cons_self
      obtain ⟨kept, children⟩ := keeps state now starts
      obtain ⟨fresh, distinctRest⟩ := nodup_cons.mp distinct
      have fewer : (whole.filter fun key => decide (key ∉ now :: done)).length <
          (whole.filter fun key => decide (key ∉ done)).length := by
        have split' : (whole.filter fun key => decide (key ∉ now :: done)) =
            (whole.filter fun key => decide (key ∉ done)).filter fun key => decide (key ≠ now) := by
          rw [filter_filter]
          refine filter_congr fun key _ => ?_
          simp [not_or, Bool.decide_and]
        rw [split']
        exact length_filter_lt_length_iff_exists.mpr ⟨now,
          mem_filter.mpr ⟨inside mem_cons_self, decide_eq_true undoneNow⟩, by simp⟩
      refine ih _ _ kept (distinctRest.union _) ?_ ?_ (once.cons undoneNow) (cons_subset.mpr ⟨inside mem_cons_self, within⟩) (by omega)
      · intro key member
        rcases mem_union_iff.mp member with new | old
        · exact children (mem_filter.mp new).1
        · exact inside (mem_cons_of_mem _ old)
      · intro key member
        rcases mem_union_iff.mp member with new | old
        · exact of_decide_eq_true (mem_filter.mp new).2
        · intro again
          rcases mem_cons.mp again with rfl | earlier
          · exact fresh old
          · exact undone key (mem_cons_of_mem _ old) earlier

end Longcoin.Library.Worklist
