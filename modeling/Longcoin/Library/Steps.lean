import Mathlib.Data.List.Basic

/-! Labelled transition systems: runs and invariants. -/

namespace Longcoin.Library

variable {σ α : Type}

/-- A run of `step` under a list of labels. -/
inductive Steps (step : σ → α → σ → Prop) : σ → List α → σ → Prop where
  | done (state : σ) : Steps step state [] state
  | more {state state' last : σ} {label : α} {labels : List α} (first : step state label state')
      (rest : Steps step state' labels last) : Steps step state (label :: labels) last

namespace Steps

variable {step : σ → α → σ → Prop}

variable {state : σ} {labels : List α}

theorem invariant (inv : σ → Prop) (keeps : ∀ state label state', inv state → step state label state' → inv state')
    {last : σ} (run : Steps step state labels last) (starts : inv state) : inv last := by
  induction run with
  | done state => exact starts
  | more first rest ih => exact ih (keeps _ _ _ starts first)

theorem last_step {last : σ} {label : α} (run : Steps step state (labels ++ [label]) last) :
    ∃ before, Steps step state labels before ∧ step before label last := by
  induction labels generalizing state with
  | nil =>
    cases run with
    | more first rest =>
      cases rest
      exact ⟨state, .done state, first⟩
  | cons other labels ih =>
    cases run with
    | more first rest =>
      obtain ⟨before, earlier, final⟩ := ih rest
      exact ⟨before, .more first earlier, final⟩

theorem mono {coarse : σ → α → σ → Prop}
    (implies : ∀ state label state', step state label state' → coarse state label state') {last : σ}
    (run : Steps step state labels last) :
    Steps coarse state labels last := by
  induction run with
  | done state => exact .done state
  | more first rest ih => exact .more (implies _ _ _ first) ih

theorem of_foldlM {next : σ → α → Option σ} {last : σ} (folds : labels.foldlM next state = some last) :
    Steps (fun state label state' => next state label = some state') state labels last := by
  induction labels generalizing state with
  | nil =>
    cases folds
    exact .done _
  | cons label rest ih =>
    obtain ⟨middle, first, later⟩ := Option.bind_eq_some_iff.mp (List.foldlM_cons.symm.trans folds)
    exact .more first (ih later)

end Steps

end Longcoin.Library
