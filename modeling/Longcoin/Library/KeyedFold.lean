import Mathlib.Data.List.AList

/-! A loop over the entries of a map whose body touches one key at a time acts
pointwise, whatever order the entries are visited in. -/

namespace Longcoin.Library.KeyedFold
open List

variable {K V σ β : Type}

/-- `look` observes the accumulator one key at a time; each turn of the loop changes
what is observed at its own key by `merge` and nothing else. -/
structure Local (step : σ → K → V → σ) (look : σ → K → β) (merge : β → V → β) : Prop where
  own : ∀ state key value, look (step state key value) key = merge (look state key) value
  other : ∀ state key value key', key' ≠ key → look (step state key value) key' = look state key'

def run (step : σ → K → V → σ) (entries : List (Sigma fun _ : K => V)) (state : σ) : σ :=
  entries.foldl (fun acc entry => step acc entry.1 entry.2) state

theorem look_run_absent {step : σ → K → V → σ} {look : σ → K → β} {merge : β → V → β}
    (pointwise : Local step look merge) (entries : List (Sigma fun _ : K => V)) (state : σ) (key : K)
    (absent : key ∉ entries.keys) : look (run step entries state) key = look state key := by
  induction entries generalizing state with
  | nil => rfl
  | cons entry rest ih =>
    rw [keys_cons, mem_cons, not_or] at absent
    calc
      _ = look (run step rest (step state entry.1 entry.2)) key := rfl
      _ = look (step state entry.1 entry.2) key := ih _ absent.2
      _ = look state key := pointwise.other _ _ _ _ absent.1

theorem look_run [DecidableEq K] {step : σ → K → V → σ} {look : σ → K → β} {merge : β → V → β}
    (pointwise : Local step look merge) (map : AList fun _ : K => V) (state : σ) (key : K) :
    look (run step map.entries state) key =
      match map.lookup key with
      | some value => merge (look state key) value
      | none => look state key := by
  have main (entries : List (Sigma fun _ : K => V)) (distinct : entries.NodupKeys) (state : σ) :
      look (run step entries state) key =
        match entries.dlookup key with
        | some value => merge (look state key) value
        | none => look state key := by
    induction entries generalizing state with
    | nil => rfl
    | cons entry rest ih =>
      rw [nodupKeys_cons] at distinct
      change look (run step rest (step state entry.1 entry.2)) key = _
      by_cases same : entry.1 = key
      · subst same
        rw [look_run_absent pointwise rest _ _ distinct.1, pointwise.own, dlookup_cons_eq]
      · rw [ih distinct.2, pointwise.other _ _ _ _ (Ne.symm same), dlookup_cons_ne _ _ (Ne.symm same)]
  exact main map.entries map.nodupKeys state

end Longcoin.Library.KeyedFold
