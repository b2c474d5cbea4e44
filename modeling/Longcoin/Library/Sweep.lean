import Longcoin.Library.Closure

/-! Worklist loops that work off a set: the keys to do are taken in some order, and each one adds those it leads to unless they are
done. -/

namespace Longcoin.Library.Sweep

variable {K σ : Type} [DecidableEq K]

/-- What stops a loop: an assertion that fails in a turn, or too little fuel. -/
inductive Halt where
  | assertion
  | fuel
deriving DecidableEq

structure Pick (K : Type) where
  pick : Finset K → Option K
  mem_of_pick : ∀ todo key, pick todo = some key → key ∈ todo
  eq_empty_of_none : ∀ todo, pick todo = none → todo = ∅

def sweep (order : Pick K) (turn : σ → K → Option (σ × List K)) : ℕ → Finset K → Finset K → σ → Except Halt σ
  | 0, _, _, _ => .error .fuel
  | fuel + 1, todo, done, state =>
    match order.pick todo with
    | none => .ok state
    | some now =>
      match turn state now with
      | none => .error .assertion
      | some result =>
        sweep order turn fuel (todo.erase now ∪ result.2.toFinset \ insert now done) (insert now done) result.1

/-- A turn of a key that is not done yet fails, where it may, or leads to the keys that it has always led to, and keeps what is known
of the keys that are done. -/
def Turns (turn : σ → K → Option (σ × List K)) (whole : Finset K) (next : K → Finset K) (inv : Finset K → σ → Prop)
    (fails : K → Prop) : Prop :=
  ∀ done state now, inv done state → now ∉ done → now ∈ whole →
    turn state now = none ∧ fails now ∨
      ∃ result, turn state now = some result ∧ result.2.toFinset = next now ∧ inv (insert now done) result.1

variable {order : Pick K} {turn : σ → K → Option (σ × List K)} {whole seeds : Finset K} {next : K → Finset K} {inv : Finset K → σ → Prop}
variable {fails : K → Prop}

theorem sweep_frontier (turns : Turns turn whole next inv fails) (start : seeds ⊆ whole) (stays : ∀ key ∈ whole, next key ⊆ whole)
    {fuel : ℕ} {todo done : Finset K} {state : σ} (frontier : Frontier next seeds todo done) (holds : inv done state)
    (enough : (whole \ done).card < fuel) :
    sweep order turn fuel todo done state = .error .assertion ∧ (∃ key, Reach next seeds key ∧ fails key) ∨
      ∃ last, sweep order turn fuel todo done state = .ok last ∧ inv (closure next whole seeds) last := by
  induction fuel generalizing todo done state with
  | zero => cases enough
  | succ fuel ih =>
    rw [sweep]
    cases picks : order.pick todo with
    | none =>
      obtain rfl := order.eq_empty_of_none todo picks
      rw [frontier.finish_closure start stays] at holds
      exact .inr ⟨state, rfl, holds⟩
    | some now =>
      have member := order.mem_of_pick todo now picks
      have reach := frontier.reached now (Finset.mem_union_right _ member)
      have inside : now ∈ whole := reach.inside start stays
      rcases turns done state now holds (frontier.apart now member) inside with ⟨stuck, allowed⟩ | ⟨result, succeeds, leads, kept⟩
      · simp only [stuck]
        exact .inl ⟨trivial, now, reach, allowed⟩
      · simp only [succeeds]
        have fewer := frontier.fewer member inside
        rw [leads]
        exact ih (frontier.turn member) kept (by omega)

theorem sweep_closure (order : Pick K) (turns : Turns turn whole next inv fails) (start : seeds ⊆ whole) (stays : ∀ key ∈ whole, next key ⊆ whole)
    {fuel : ℕ} {state : σ} (holds : inv ∅ state) (enough : whole.card < fuel) :
    sweep order turn fuel seeds ∅ state = .error .assertion ∧ (∃ key, Reach next seeds key ∧ fails key) ∨
      ∃ last, sweep order turn fuel seeds ∅ state = .ok last ∧ inv (closure next whole seeds) last :=
  sweep_frontier turns start stays .start holds (by rwa [Finset.sdiff_empty])

end Longcoin.Library.Sweep
