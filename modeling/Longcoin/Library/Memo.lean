import Mathlib.Data.Set.Basic

/-! Caches of computed values: at which keys what is cached may differ from what would be computed. -/

namespace Longcoin.Library.Memo
open Option

variable {K V : Type} {stale stale' : Set K} {cached cached' truth truth' : K → Option V}

/-- Outside `stale` a cached value is the computed one. -/
def SoundOutside (stale : Set K) (cached truth : K → Option V) : Prop :=
  ∀ key ∉ stale, ∀ value, cached key = some value → truth key = some value

theorem SoundOutside.answer (sound : SoundOutside ∅ cached truth) (key : K) : (cached key).or (truth key) = truth key := by
  cases found : cached key with
  | none => exact none_or
  | some value => rw [some_or, sound key (Set.notMem_empty key) value found]

theorem SoundOutside.empty : SoundOutside stale (fun _ => none) truth :=
  nofun

/-- Of the keys that are still sound and still hold something, the cached and the computed value are
those of before. -/
theorem SoundOutside.move (sound : SoundOutside stale cached truth)
    (same : ∀ key ∉ stale', ∀ value, cached' key = some value →
      key ∉ stale ∧ cached key = some value ∧ truth' key = truth key) : SoundOutside stale' cached' truth' := by
  intro key outside value found
  obtain ⟨before, kept, unmoved⟩ := same key outside value found
  rw [unmoved]
  exact sound key before value kept

theorem SoundOutside.mono (sound : SoundOutside stale cached truth) (within : stale ⊆ stale') :
    SoundOutside stale' cached truth :=
  sound.move fun _ outside _ found => ⟨fun inside => outside (within inside), found, rfl⟩

theorem SoundOutside.forget (sound : SoundOutside stale cached truth) (broken : K → Bool) :
    SoundOutside {key ∈ stale | broken key = false} (fun key => if broken key then none else cached key) truth := by
  refine sound.move fun key outside value found => ?_
  cases gone : broken key with
  | true => simp [gone] at found
  | false =>
    rw [gone] at found
    exact ⟨fun inside => outside ⟨inside, gone⟩, found, rfl⟩

theorem SoundOutside.fill [DecidableEq K] (sound : SoundOutside stale cached truth) (now : K) :
    SoundOutside stale (fun key => if key = now then (cached now).or (truth now) else cached key) truth := by
  intro key outside value found
  dsimp only at found
  split at found
  next same =>
    subst same
    cases before : cached key with
    | none => rwa [before, none_or] at found
    | some old =>
      rw [before, some_or] at found
      rw [sound key outside old before, found]
  next => exact sound key outside value found

end Longcoin.Library.Memo
