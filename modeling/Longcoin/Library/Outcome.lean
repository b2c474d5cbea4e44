import Mathlib.Data.List.Forall2

/-! Checks that stop at the first failure, as `Except` computations. -/

namespace Longcoin.Library.Outcome
open List Except

variable {ε α β σ : Type}

def require (condition : Bool) (failure : ε) : Except ε Unit :=
  if condition then .ok () else .error failure

@[simp] theorem require_ok {condition : Bool} {failure : ε} {answer : Unit} :
    require condition failure = .ok answer ↔ condition = true := by
  cases condition <;> simp [require]

theorem bind_ok {first : Except ε α} {next : α → Except ε β} {result : β} :
    (first >>= next) = .ok result ↔ ∃ middle, first = .ok middle ∧ next middle = .ok result := by
  cases first with
  | error failure => simp [bind, Except.bind]
  | ok middle => simp [bind, Except.bind]

@[simp] theorem pure_ok {value result : α} : (pure value : Except ε α) = .ok result ↔ value = result := by
  simp [pure, Except.pure]

theorem require_bind_ok {condition : Bool} {failure : ε} {next : Unit → Except ε β} {result : β} :
    (require condition failure >>= next) = .ok result ↔ condition = true ∧ next () = .ok result := by
  rw [bind_ok]
  constructor
  · rintro ⟨⟨⟩, passed, finished⟩
    exact ⟨require_ok.mp passed, finished⟩
  · rintro ⟨passed, finished⟩
    exact ⟨(), require_ok.mpr passed, finished⟩

section

variable {step : σ → α → Except ε σ}

theorem foldlM_cons_ok {first : α} {rest : List α} {state last : σ} : (first :: rest).foldlM step state = .ok last ↔
      ∃ state', step state first = .ok state' ∧ rest.foldlM step state' = .ok last := by
  rw [foldlM_cons, bind_ok]

theorem foldlM_append_ok {front back : List α} {state last : σ} : (front ++ back).foldlM step state = .ok last ↔
      ∃ state', front.foldlM step state = .ok state' ∧ back.foldlM step state' = .ok last := by
  rw [foldlM_append, bind_ok]

theorem foldlM_invariant (inv : List α → σ → Prop) (items : List α)
    (keeps : ∀ done item rest state state', items = done ++ item :: rest → inv done state →
      step state item = .ok state' → inv (done ++ [item]) state')
    {state last : σ} (starts : inv [] state) (run : items.foldlM step state = .ok last) : inv items last := by
  have main (done todo : List α) (state : σ) (whole : items = done ++ todo) (holds : inv done state)
      (run : todo.foldlM step state = .ok last) : inv items last := by
    induction todo generalizing done state with
    | nil =>
      rw [foldlM_nil, pure_ok] at run
      rw [append_nil] at whole
      rw [whole, ← run]
      exact holds
    | cons item rest ih =>
      obtain ⟨state', stepped, finished⟩ := foldlM_cons_ok.mp run
      exact ih (done ++ [item]) state' (by simp [whole]) (keeps _ _ _ _ _ whole holds stepped) finished
  exact main [] items state rfl starts run

theorem foldlM_error {items : List α} {state : σ} {failure : ε} (run : items.foldlM step state = .error failure) :
    ∃ front item back state', items = front ++ item :: back ∧ front.foldlM step state = .ok state' ∧ step state' item = .error failure := by
  induction items generalizing state with
  | nil => exact absurd run (by simp [pure, Except.pure])
  | cons item rest ih =>
    rw [foldlM_cons] at run
    cases stepped : step state item with
    | error other =>
      rw [stepped] at run
      exact ⟨[], item, rest, state, rfl, rfl, run ▸ stepped⟩
    | ok state' =>
      rw [stepped] at run
      obtain ⟨front, other, back, last, rfl, done, failed⟩ := ih run
      exact ⟨item :: front, other, back, last, rfl, foldlM_cons_ok.mpr ⟨state', stepped, done⟩, failed⟩

end

theorem mapM_ok {f : α → Except ε β} {items : List α} {results : List β} :
    items.mapM f = .ok results ↔ Forall₂ (fun item result => f item = .ok result) items results := by
  induction items generalizing results with
  | nil => cases results <;> simp [pure, Except.pure]
  | cons item rest ih =>
    rw [mapM_cons, bind_ok]
    constructor
    · rintro ⟨result, done, run⟩
      obtain ⟨others, rest, same⟩ := bind_ok.mp run
      rw [pure_ok] at same
      subst same
      exact .cons done (ih.mp rest)
    · rintro (_ | ⟨done, others⟩)
      exact ⟨_, done, bind_ok.mpr ⟨_, ih.mpr others, rfl⟩⟩

theorem forM_ok {check : α → Except ε Unit} {items : List α} (run : items.forM check = .ok ()) :
    ∀ item ∈ items, check item = .ok () := by
  induction items with
  | nil => simp
  | cons item rest ih =>
    change (check item >>= fun _ => rest.forM check) = .ok () at run
    rw [bind_ok] at run
    obtain ⟨⟨⟩, first, others⟩ := run
    intro other member
    rcases mem_cons.mp member with rfl | member
    · exact first
    · exact ih others other member

/-- Whatever stops the computation, it is not one of the `bad` failures. -/
def Avoids (bad : ε → Prop) (run : Except ε α) : Prop := ∀ failure, run = .error failure → ¬bad failure

section Avoids
variable {bad : ε → Prop}

theorem avoids_ok (result : α) : Avoids bad (.ok result : Except ε α) := by
  intro failure stopped
  simp at stopped

theorem avoids_error {failure : ε} (harmless : ¬bad failure) : Avoids bad (.error failure : Except ε α) := by
  intro other stopped
  rw [error.injEq] at stopped
  exact stopped ▸ harmless

theorem avoids_pure (result : α) : Avoids bad (pure result : Except ε α) := avoids_ok result

theorem avoids_bind {first : Except ε α} {next : α → Except ε β} (safe : Avoids bad first)
    (then' : ∀ middle, first = .ok middle → Avoids bad (next middle)) : Avoids bad (first >>= next) := by
  cases first with
  | error failure => exact avoids_error (safe failure rfl)
  | ok middle => exact then' middle rfl

theorem avoids_require {condition : Bool} {failure : ε} (harmless : condition = false → ¬bad failure) :
    Avoids bad (require condition failure) := by
  cases condition with
  | true => exact avoids_ok ()
  | false => exact avoids_error (harmless rfl)

theorem avoids_foldlM {step : σ → α → Except ε σ} (inv : List α → σ → Prop) (items : List α)
    (keeps : ∀ done item rest state state', items = done ++ item :: rest → inv done state →
      step state item = .ok state' → inv (done ++ [item]) state')
    (safe : ∀ done item rest state, items = done ++ item :: rest → inv done state → Avoids bad (step state item))
    {state : σ} (starts : inv [] state) : Avoids bad (items.foldlM step state) := by
  have main (done todo : List α) (state : σ) (whole : items = done ++ todo) (holds : inv done state) :
      Avoids bad (todo.foldlM step state) := by
    induction todo generalizing done state with
    | nil => exact avoids_ok state
    | cons item rest ih =>
      rw [foldlM_cons]
      refine avoids_bind (safe done item rest state whole holds) fun state' stepped => ?_
      exact ih (done ++ [item]) state' (by simp [whole]) (keeps done item rest state state' whole holds stepped)
  exact main [] items state rfl starts

theorem avoids_mapM {f : α → Except ε β} {items : List α} (safe : ∀ item ∈ items, Avoids bad (f item)) :
    Avoids bad (items.mapM f) := by
  induction items with
  | nil => exact avoids_ok []
  | cons item rest ih =>
    rw [mapM_cons]
    refine avoids_bind (safe item mem_cons_self) fun result _ => ?_
    refine avoids_bind (ih (forall_mem_cons.mp safe).2) fun results _ => ?_
    exact avoids_ok _

theorem avoids_forM {check : α → Except ε Unit} {items : List α} (safe : ∀ item ∈ items, Avoids bad (check item)) :
    Avoids bad (items.forM check) := by
  induction items with
  | nil => exact avoids_ok ()
  | cons item rest ih =>
    change Avoids bad (check item >>= fun _ => rest.forM check)
    refine avoids_bind (safe item mem_cons_self) fun _ _ => ?_
    exact ih (forall_mem_cons.mp safe).2

end Avoids

section Weakens

/-- A computation that gives whatever another one gives: it has fewer failures, and the same results. -/
def Weakens (weaker stricter : Except ε α) : Prop := ∀ result, stricter = .ok result → weaker = .ok result

theorem weakens_refl (outcome : Except ε α) : Weakens outcome outcome := fun _ => id

theorem weakens_bind {weaker stricter : Except ε α} {next next' : α → Except ε β} (first : Weakens weaker stricter)
    (later : ∀ middle, Weakens (next middle) (next' middle)) : Weakens (weaker >>= next) (stricter >>= next') := by
  intro result finished
  obtain ⟨middle, ran, rest⟩ := bind_ok.mp finished
  exact bind_ok.mpr ⟨middle, first middle ran, later middle result rest⟩

theorem weakens_after {first : Except ε α} {next next' : α → Except ε β} (later : ∀ middle, Weakens (next middle) (next' middle)) :
    Weakens (first >>= next) (first >>= next') :=
  weakens_bind (weakens_refl first) later

theorem weakens_require {condition condition' : Bool} {failure : ε} (implies : condition' = true → condition = true) :
    Weakens (require condition failure) (require condition' failure) :=
  fun _ passed => require_ok.mpr (implies (require_ok.mp passed))

theorem weakens_if {condition : Prop} [Decidable condition] {weaker weaker' stricter stricter' : Except ε α}
    (holds : condition → Weakens weaker stricter) (fails : ¬ condition → Weakens weaker' stricter') :
    Weakens (if condition then weaker else weaker') (if condition then stricter else stricter') := by
  by_cases decided : condition
  · rw [if_pos decided, if_pos decided]
    exact holds decided
  · rw [if_neg decided, if_neg decided]
    exact fails decided

theorem weakens_else {condition : Prop} [Decidable condition] {same weaker stricter : Except ε α}
    (fails : ¬ condition → Weakens weaker stricter) :
    Weakens (if condition then same else weaker) (if condition then same else stricter) :=
  weakens_if (fun _ => weakens_refl same) fails

theorem weakens_mapError {ε' : Type} {weaker stricter : Except ε α} (handler : ε → ε') (weakens : Weakens weaker stricter) :
    Weakens (weaker.mapError handler) (stricter.mapError handler) := by
  intro result finished
  cases shape : stricter with
  | error failure =>
    rw [shape] at finished
    exact absurd finished (by simp [Except.mapError])
  | ok value =>
    rw [shape] at finished
    rw [weakens value shape]
    exact finished

end Weakens

end Longcoin.Library.Outcome
