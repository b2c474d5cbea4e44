import Mathlib.Logic.Function.Basic

/-! A table that is written through at once, beside a state that is lost in a crash and starts again from an
earlier one. -/

namespace Longcoin.Library.Recovery
open Function List

variable {K V X : Type}

/-- At every key the update decides the value or leaves it alone. -/
def Pointwise (update : (K → V) → K → V) : Prop :=
  ∀ key, (∃ value, ∀ table, update table key = value) ∨ ∀ table, update table key = table key

theorem pointwise_id : Pointwise (id : (K → V) → K → V) := fun _ => .inr fun _ => rfl

theorem pointwise_update [DecidableEq K] (key : K) (value : V) : Pointwise fun table => update table key value := by
  intro other
  by_cases same : other = key
  · subst same
    exact .inl ⟨value, fun table => update_self ..⟩
  · exact .inr fun table => update_of_ne same ..

theorem Pointwise.comp {first second : (K → V) → K → V} (one : Pointwise first) (two : Pointwise second) :
    Pointwise fun table => second (first table) := by
  intro key
  rcases two key with ⟨value, decides⟩ | keeps
  · exact .inl ⟨value, fun table => decides (first table)⟩
  rcases one key with ⟨value, decides⟩ | kept
  · exact .inl ⟨value, fun table => (keeps (first table)).trans (decides table)⟩
  · exact .inr fun table => (keeps (first table)).trans (kept table)

/-- An update that takes every right table to a right one sets a key right, or keeps there whatever is right. -/
theorem Pointwise.settles {right right' : K → V → Prop} {update : (K → V) → K → V} (pointwise : Pointwise update)
    (agrees : ∀ table, (∀ key, right key (table key)) → ∀ key, right' key (update table key))
    (possible : ∃ table : K → V, ∀ key, right key (table key)) (table : K → V) (key : K) :
    right' key (update table key) ∨ update table key = table key ∧ ∀ value, right key value → right' key value := by
  classical
  obtain ⟨whole, good⟩ := possible
  rcases pointwise key with ⟨value, decides⟩ | keeps
  · left
    rw [decides, ← decides whole]
    exact agrees whole good key
  · refine .inr ⟨keeps table, fun value fits => ?_⟩
    have changed : ∀ other, right other (Function.update whole key value other) := by
      intro other
      by_cases same : other = key
      · subst same
        rw [update_self]
        exact fits
      · rw [update_of_ne same]
        exact good other
    have result := agrees _ changed key
    rw [keeps, update_self] at result
    exact result

/-- What the table has for a key is right for the state; or it is right for a state that was lost, and the key is
untouched since the last start. -/
def Held (right : X → K → V → Prop) (since owed : List X) (state : X) (table : K → V) : Prop :=
  ∀ key, right state key (table key) ∨ ∃ lost ∈ owed, right lost key (table key) ∧
    ∀ seen ∈ since, ∀ value, right seen key value → right state key value

variable {right : X → K → V → Prop} {since owed : List X} {state state' : X} {table table' : K → V}

theorem held_of_right (all : ∀ key, right state key (table key)) : Held right since owed state table :=
  fun key => .inl (all key)

theorem Held.step (held : Held right since owed state table) (settles : ∀ key, right state' key (table' key) ∨
      table' key = table key ∧ ∀ value, right state key value → right state' key value) :
    Held right (state' :: since) owed state' table' := by
  intro key
  rcases settles key with now | ⟨same, keeps⟩
  · exact .inl now
  rw [same]
  rcases held key with before | ⟨lost, member, left, untouched⟩
  · exact .inl (keeps _ before)
  refine .inr ⟨lost, member, left, fun seen inside value fits => ?_⟩
  rcases mem_cons.mp inside with rfl | earlier
  · exact fits
  · exact keeps value (untouched seen earlier value fits)

theorem Held.crash (held : Held right since owed state table) : Held right [state'] (state :: owed) state' table := by
  intro key
  have trivially : ∀ seen ∈ [state'], ∀ value, right seen key value → right state' key value := by
    intro seen member value fits
    rw [mem_singleton] at member
    exact member ▸ fits
  rcases held key with before | ⟨lost, member, left, -⟩
  · exact .inr ⟨state, mem_cons_self, before, trivially⟩
  · exact .inr ⟨lost, mem_cons_of_mem _ member, left, trivially⟩

theorem Held.settled (held : Held right since owed state table) (passed : ∀ lost ∈ owed, lost ∈ since) (key : K) :
    right state key (table key) := by
  rcases held key with now | ⟨lost, member, left, untouched⟩
  · exact now
  · exact untouched lost (passed lost member) _ left

end Longcoin.Library.Recovery
