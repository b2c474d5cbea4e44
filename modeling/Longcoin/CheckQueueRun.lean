import Longcoin.CheckQueue
import Mathlib.Algebra.Order.BigOperators.Group.List
import Mathlib.Algebra.Order.Group.Nat
import Mathlib.Algebra.Ring.Nat

/-! What holds of the check queue over every interleaving: no check is lost or run twice, the counters are
exact, and `Wait` answers for all checks of its session. -/

namespace Longcoin.CheckQueue
open Library List Option Bool

variable {α : Type} {returns : α → Bool} {nBatchSize : Nat} {sh sh' : Shared α}

/-- The size of a batch that was taken and is not reported. -/
def Phase.taken : Phase α → Nat
  | .working nNow _ _ => nNow
  | _ => 0

def Phase.entered : Phase α → Nat
  | .fresh => 0
  | _ => 1

def Phase.idle : Phase α → Nat
  | .waiting _ => 1
  | _ => 0

def Phase.held : Phase α → List α
  | .working _ _ vChecks => vChecks
  | _ => []

def Phase.ok : Phase α → Bool
  | .working _ fOk _ => fOk
  | _ => true

/-- A batch has at least one check, and at most `nNow` of them are still to run. -/
def Phase.Sized : Phase α → Prop
  | .working nNow _ vChecks => 1 ≤ nNow ∧ vChecks.length ≤ nNow
  | _ => True

def taken (phases : List (Phase α)) : Nat := (phases.map Phase.taken).sum

def entered (phases : List (Phase α)) : Nat := (phases.map Phase.entered).sum

def idle (phases : List (Phase α)) : Nat := (phases.map Phase.idle).sum

def held (phases : List (Phase α)) : List α := phases.flatMap Phase.held

def allOk (phases : List (Phase α)) : Bool := phases.all Phase.ok

section

variable (front back : List (Phase α))

@[simp] theorem taken_append : taken (front ++ back) = taken front + taken back := by
  simp [taken]

@[simp] theorem entered_append : entered (front ++ back) = entered front + entered back := by
  simp [entered]

@[simp] theorem idle_append : idle (front ++ back) = idle front + idle back := by
  simp [idle]

@[simp] theorem held_append : held (front ++ back) = held front ++ held back :=
  flatMap_append

@[simp] theorem allOk_append : allOk (front ++ back) = (allOk front && allOk back) :=
  all_append

end

/-- The counters are exact, every check that was added is somewhere, and what has been found so far together
with what is still to be found is the verdict on the session. -/
structure Sound (returns : α → Bool) (sh : Shared α) (phases : List (Phase α)) (added executed skipped session : List α) :
    Prop where
  todo : sh.nTodo = sh.queue.length + taken phases
  total : sh.nTotal = entered phases
  idle : sh.nIdle = idle phases
  balance : ∀ kind : α → Bool, added.countP kind =
    executed.countP kind + skipped.countP kind + sh.queue.countP kind + (held phases).countP kind
  verdict : session.all returns =
    (sh.fAllOk && allOk phases && sh.queue.all returns && (held phases).all returns)

/-- What one thread does at most, from `old` to `new`, apart from what it shares with the others. -/
structure Moves (returns : α → Bool) (sh sh' : Shared α) (old new : List (Phase α)) (executed skipped : List α) : Prop where
  todo : sh'.nTodo + sh.queue.length + taken old = sh.nTodo + sh'.queue.length + taken new
  total : sh'.nTotal + entered old = sh.nTotal + entered new
  idle : sh'.nIdle + idle old = sh.nIdle + idle new
  balance : ∀ kind : α → Bool, sh.queue.countP kind + (held old).countP kind =
    executed.countP kind + skipped.countP kind + sh'.queue.countP kind + (held new).countP kind
  verdict : (sh'.fAllOk && allOk new && sh'.queue.all returns && (held new).all returns) =
    (sh.fAllOk && allOk old && sh.queue.all returns && (held old).all returns)

variable {added executed skipped session : List α}

theorem Sound.move {front back old new : List (Phase α)} {executed' skipped' : List α}
    (sound : Sound returns sh (front ++ old ++ back) added executed skipped session)
    (moves : Moves returns sh sh' old new executed' skipped') :
    Sound returns sh' (front ++ new ++ back) added (executed ++ executed') (skipped ++ skipped') session where
  todo := by
    have before := sound.todo
    have change := moves.todo
    simp only [taken_append] at before ⊢
    omega
  total := by
    have before := sound.total
    have change := moves.total
    simp only [entered_append] at before ⊢
    omega
  idle := by
    have before := sound.idle
    have change := moves.idle
    simp only [idle_append] at before ⊢
    omega
  balance kind := by
    have before := sound.balance kind
    have change := moves.balance kind
    simp only [held_append, countP_append] at before ⊢
    omega
  verdict := by
    rw [sound.verdict]
    have change := moves.verdict
    simp only [allOk_append, held_append, all_append]
    calc (sh.fAllOk && (allOk front && allOk old && allOk back) && sh.queue.all returns &&
          ((held front).all returns && (held old).all returns && (held back).all returns))
        = ((sh.fAllOk && allOk old && sh.queue.all returns && (held old).all returns) &&
          (allOk front && allOk back && (held front).all returns && (held back).all returns)) := by ac_rfl
      _ = ((sh'.fAllOk && allOk new && sh'.queue.all returns && (held new).all returns) &&
          (allOk front && allOk back && (held front).all returns && (held back).all returns)) := by rw [change]
      _ = _ := by ac_rfl

theorem Moves.trans {sh'' : Shared α} {old middle new : List (Phase α)} {executed' skipped' : List α}
    (first : Moves returns sh sh' old middle executed skipped)
    (second : Moves returns sh' sh'' middle new executed' skipped') :
    Moves returns sh sh'' old new (executed ++ executed') (skipped ++ skipped') where
  todo := by
    have one := first.todo
    have two := second.todo
    omega
  total := by
    have one := first.total
    have two := second.total
    omega
  idle := by
    have one := first.idle
    have two := second.idle
    omega
  balance kind := by
    have one := first.balance kind
    have two := second.balance kind
    simp only [countP_append]
    omega
  verdict := second.verdict.trans first.verdict

/-- A thread that holds the mutex: it is counted, and neither waits nor has a batch. -/
def entering : List (Phase α) := [.working 0 true []]

variable (returns) in
theorem acquire_moves {fMaster notify : Bool} {phase : Phase α} (acquired : acquire fMaster sh phase = some (sh', notify))
    (todo : phase.taken ≤ sh.nTodo) (idle : phase.idle ≤ sh.nIdle) : Moves returns sh sh' [phase] entering [] [] := by
  cases phase with
  | fresh =>
    obtain ⟨rfl, -⟩ := Prod.mk.inj (some.inj acquired)
    exact ⟨by simp [taken, entering, Phase.taken], by simp [entered, entering, Phase.entered], by
      simp [CheckQueue.idle, entering, Phase.idle], by simp [held, entering, Phase.held], by
      simp [held, allOk, entering, Phase.held, Phase.ok]⟩
  | waiting notified =>
    obtain ⟨rfl, -⟩ := Prod.mk.inj (some.inj acquired)
    refine ⟨by simp [taken, entering, Phase.taken], by simp [entered, entering, Phase.entered], ?_, by
      simp [held, entering, Phase.held], by simp [held, allOk, entering, Phase.held, Phase.ok]⟩
    simp only [CheckQueue.idle, entering, Phase.idle, map_singleton, sum_singleton] at idle ⊢
    omega
  | working nNow fOk vChecks =>
    cases vChecks with
    | cons check rest => cases acquired
    | nil =>
      obtain ⟨rfl, -⟩ := Prod.mk.inj (some.inj acquired)
      refine ⟨?_, by simp [entered, entering, Phase.entered], by simp [CheckQueue.idle, entering, Phase.idle], by
        simp [held, entering, Phase.held], by simp [held, allOk, entering, Phase.held, Phase.ok]⟩
      simp only [taken, entering, Phase.taken, map_singleton, sum_singleton] at todo ⊢
      omega

variable (returns) in
theorem proceed_moves {fMaster : Bool} {next : Phase α} (proceeds : proceed fMaster nBatchSize sh = (sh', .phase next)) :
    Moves returns sh sh' entering [next] [] [] ∧ next.Sized := by
  unfold proceed at proceeds
  split at proceeds
  next empty =>
    split at proceeds
    · cases (Prod.mk.inj proceeds).2
    · obtain ⟨rfl, same⟩ := Prod.mk.inj proceeds
      cases same
      exact ⟨⟨by simp [taken, entering, Phase.taken], by simp [entered, entering, Phase.entered], by
        simp [CheckQueue.idle, entering, Phase.idle], by simp [held, entering, Phase.held], by
        simp [held, allOk, entering, Phase.held, Phase.ok]⟩, trivial⟩
  next nonempty =>
    obtain ⟨rfl, same⟩ := Prod.mk.inj proceeds
    cases same
    have positive : 1 ≤ sh.queue.length := length_pos_iff.mpr (by simpa using nonempty)
    have fits : batchSize nBatchSize sh ≤ sh.queue.length := by
      have share := Nat.div_le_self sh.queue.length (sh.nTotal + sh.nIdle + 1)
      unfold batchSize
      omega
    refine ⟨⟨?_, by simp [entered, entering, Phase.entered], by simp [CheckQueue.idle, entering, Phase.idle],
      fun kind => ?_, ?_⟩, Nat.le_max_left _ _, by rw [length_take]; omega⟩
    · simp only [taken, entering, Phase.taken, map_singleton, sum_singleton, length_drop]
      omega
    · have halves := congrArg (List.countP kind) (take_append_drop (batchSize nBatchSize sh) sh.queue)
      simp only [countP_append] at halves
      simp only [held, entering, Phase.held, flatMap_singleton, countP_nil]
      omega
    · have halves := congrArg (List.all · returns) (take_append_drop (batchSize nBatchSize sh) sh.queue)
      simp only [all_append] at halves
      simp only [held, allOk, entering, Phase.held, Phase.ok, flatMap_singleton, all_cons, all_nil,
        Bool.and_true]
      rw [← halves]
      cases sh.fAllOk <;> simp [Bool.and_comm]

theorem proceed_returns {fMaster fRet : Bool} (proceeds : proceed fMaster nBatchSize sh = (sh', .returns fRet)) :
    fMaster = true ∧ sh.queue = [] ∧ sh.nTodo = 0 ∧ fRet = sh.fAllOk ∧
      sh' = { sh with nTotal := sh.nTotal - 1, fAllOk := true } := by
  unfold proceed at proceeds
  split at proceeds
  next empty =>
    split at proceeds
    next done =>
      obtain ⟨same, answer⟩ := Prod.mk.inj proceeds
      rw [and_eq_true, beq_iff_eq] at done
      exact ⟨done.1, isEmpty_iff.mp empty, done.2, (Next.returns.inj answer).symm, same.symm⟩
    · cases (Prod.mk.inj proceeds).2
  · cases (Prod.mk.inj proceeds).2

variable (sh) in
/-- A check that is run, or skipped because the verdict is known. -/
theorem runCheck_moves {phase next : Phase α} {check : α} {fOk : Bool}
    (runs : runCheck returns phase = some (next, check, fOk)) (sized : phase.Sized) :
    Moves returns sh sh [phase] [next] (if fOk then [check] else []) (if fOk then [] else [check]) ∧ next.Sized := by
  cases phase with
  | fresh | waiting => cases runs
  | working nNow ok vChecks =>
    cases vChecks with
    | nil => cases runs
    | cons first rest =>
      obtain ⟨rfl, same⟩ := Prod.mk.inj (some.inj runs)
      obtain ⟨rfl, rfl⟩ := Prod.mk.inj same
      refine ⟨⟨rfl, rfl, rfl, fun kind => ?_, ?_⟩, sized.1, by have := sized.2; rw [length_cons] at this; omega⟩
      · simp only [held, Phase.held, flatMap_singleton]
        cases ok <;> simp [countP_cons] <;> omega
      · simp only [held, allOk, Phase.held, Phase.ok, flatMap_singleton, all_cons, all_nil, Bool.and_true]
        cases ok
        · simp
        · cases returns first <;> simp

def Phase.forget : Phase α → Phase α
  | .waiting _ => .waiting false
  | phase => phase

theorem sum_forget {f : Phase α → Nat} (same : ∀ phase : Phase α, f phase.forget = f phase) {phases phases' : List (Phase α)}
    (alike : phases'.map Phase.forget = phases.map Phase.forget) : (phases'.map f).sum = (phases.map f).sum := by
  have through : ∀ list : List (Phase α), list.map f = (list.map Phase.forget).map f := fun list => by
    rw [List.map_map]
    exact List.map_congr_left fun phase _ => (same phase).symm
  rw [through phases', through phases, alike]

theorem Sound.alike {phases phases' : List (Phase α)} (sound : Sound returns sh phases added executed skipped session)
    (alike : phases'.map Phase.forget = phases.map Phase.forget) :
    Sound returns sh phases' added executed skipped session := by
  have sameHeld : held phases' = held phases := by
    have through : ∀ list : List (Phase α), held list = held (list.map Phase.forget) := fun list => by
      unfold held
      rw [List.flatMap_map]
      exact List.flatMap_congr fun phase _ => by cases phase <;> rfl
    rw [through phases', through phases, alike]
  have sameOk : allOk phases' = allOk phases := by
    have through : ∀ list : List (Phase α), allOk list = allOk (list.map Phase.forget) := fun list => by
      unfold allOk
      rw [List.all_map]
      exact congrArg _ (funext fun phase => by cases phase <;> rfl)
    rw [through phases', through phases, alike]
  refine ⟨?_, ?_, ?_, fun kind => ?_, ?_⟩
  · rw [sound.todo, taken, taken, sum_forget (fun phase => by cases phase <;> rfl) alike]
  · rw [sound.total, entered, entered, sum_forget (fun phase => by cases phase <;> rfl) alike]
  · rw [sound.idle, CheckQueue.idle, CheckQueue.idle, sum_forget (fun phase => by cases phase <;> rfl) alike]
  · rw [sound.balance, sameHeld]
  · rw [sound.verdict, sameHeld, sameOk]

theorem notify_forget (phase : Phase α) : phase.notify.forget = phase.forget := by cases phase <;> rfl

theorem Phase.Sized.notify {phase : Phase α} (sized : phase.Sized) : phase.notify.Sized := by
  cases phase <;> exact sized

theorem notifyWorkers_forget (count choice : Nat) (workers : List (Phase α)) :
    (notifyWorkers count choice workers).map Phase.forget = workers.map Phase.forget := by
  unfold notifyWorkers
  split
  · rfl
  · split
    · induction workers generalizing choice with
      | nil => rw [modify_nil]
      | cons worker rest ih =>
        cases choice with
        | zero => rw [modify_zero_cons, map_cons, map_cons, notify_forget]
        | succ choice => rw [modify_succ_cons, map_cons, map_cons, ih]
    · rw [List.map_map]
      exact map_congr_left fun phase _ => notify_forget phase

theorem notifyWorkers_sized {count choice : Nat} {workers : List (Phase α)} (sized : ∀ phase ∈ workers, phase.Sized) :
    ∀ phase ∈ notifyWorkers count choice workers, phase.Sized := by
  intro phase member
  unfold notifyWorkers at member
  split at member
  · exact sized phase member
  · split at member
    · obtain ⟨i, bound, rfl⟩ := mem_iff_getElem.mp member
      rw [getElem_modify]
      split
      · exact (sized _ (getElem_mem _)).notify
      · exact sized _ (getElem_mem _)
    · obtain ⟨old, there, rfl⟩ := mem_map.mp member
      exact (sized old there).notify

def Master.phases : Master α → List (Phase α)
  | .inWait phase => [phase]
  | _ => []

def threads (s : State α) : List (Phase α) := s.master.phases ++ s.workers

structure Inv (returns : α → Bool) (s : State α) : Prop where
  sound : Sound returns s.shared (threads s) s.added s.executed s.skipped s.session
  sized : ∀ phase ∈ threads s, phase.Sized
  outside : s.master = .outside → s.shared.nTodo = 0 ∧ s.shared.fAllOk = true ∧ s.session = []
  wakes : s.master = .inWait (.waiting false) → s.shared.nTodo ≠ 0
  waits : ∀ wait ∈ s.waits, wait.1 = wait.2.all returns
  sessions : s.waits.flatMap Prod.snd ++ s.session = s.added

theorem inv_initial : Inv returns (initial : State α) where
  sound := ⟨rfl, rfl, rfl, fun _ => rfl, rfl⟩
  sized _ member := nomatch member
  outside _ := ⟨rfl, rfl, rfl⟩
  wakes same := nomatch same
  waits _ member := nomatch member
  sessions := rfl

theorem set_split {workers : List (Phase α)} {i : Nat} {phase : Phase α} (found : workers[i]? = some phase) :
    ∃ front back, workers = front ++ [phase] ++ back ∧ ∀ next, workers.set i next = front ++ [next] ++ back := by
  induction workers generalizing i with
  | nil => cases found
  | cons worker rest ih =>
    cases i with
    | zero =>
      cases found
      exact ⟨[], rest, rfl, fun _ => rfl⟩
    | succ i =>
      obtain ⟨front, back, split', sets⟩ := ih found
      exact ⟨worker :: front, back, congrArg _ split', fun next => congrArg _ (sets next)⟩

theorem quiet {phases : List (Phase α)} (sized : ∀ phase ∈ phases, phase.Sized) (nothing : taken phases = 0) :
    held phases = [] ∧ allOk phases = true ∧ entered phases = idle phases := by
  induction phases with
  | nil => exact ⟨rfl, rfl, rfl⟩
  | cons phase rest ih =>
    have split' : taken (phase :: rest) = phase.taken + taken rest := by simp [taken]
    obtain ⟨noneHeld, fine, counted⟩ := ih (forall_mem_cons.mp sized).2 (by omega)
    have here := sized phase mem_cons_self
    have notTaken : phase.taken = 0 := by omega
    have idles : entered (phase :: rest) = phase.entered + entered rest ∧ idle (phase :: rest) = phase.idle + idle rest := by
      simp [entered, idle]
    rw [idles.1, idles.2, counted]
    cases phase with
    | fresh | waiting => exact ⟨noneHeld, fine, rfl⟩
    | working nNow fOk vChecks =>
      have positive : 1 ≤ nNow := here.1
      have none' : nNow = 0 := notTaken
      omega

theorem Sound.finish {phases : List (Phase α)} (sound : Sound returns sh (entering ++ phases) added executed skipped session)
    (sized : ∀ phase ∈ phases, phase.Sized) (empty : sh.queue = []) (done : sh.nTodo = 0) :
    sh.fAllOk = session.all returns ∧
      Sound returns { sh with nTotal := sh.nTotal - 1, fAllOk := true } phases added executed skipped [] := by
  have todo := sound.todo
  have total := sound.total
  have idles := sound.idle
  rw [taken_append] at todo
  rw [entered_append] at total
  rw [idle_append] at idles
  have one : entered (entering : List (Phase α)) = 1 := rfl
  have zero : CheckQueue.idle (entering : List (Phase α)) = 0 := rfl
  obtain ⟨noneHeld, fine, -⟩ := quiet sized (by omega)
  have verdict := sound.verdict
  simp only [allOk_append, held_append, fine, noneHeld, empty] at verdict
  refine ⟨?_, ?_, ?_, ?_, fun kind => ?_, ?_⟩
  · rw [verdict]
    simp [allOk, entering, Phase.ok, held, Phase.held]
  · have whole := sound.todo
    rw [taken_append] at whole
    exact whole.trans (congrArg _ (Nat.zero_add _))
  · change sh.nTotal - 1 = _
    omega
  · change sh.nIdle = _
    omega
  · have before := sound.balance kind
    rw [held_append] at before
    exact before
  · simp [fine, noneHeld, empty]

theorem isIdle_of_outside {s : State α} (inv : Inv returns s) (outside : s.master = .outside) : IsIdle s.shared = true := by
  obtain ⟨done, fine, -⟩ := inv.outside outside
  have todo := inv.sound.todo
  obtain ⟨-, -, counted⟩ := quiet inv.sized (by omega)
  unfold IsIdle
  rw [inv.sound.total, inv.sound.idle, counted, done, fine]
  simp

theorem Phase.taken_le {phases front back : List (Phase α)} {phase : Phase α}
    (sound : Sound returns sh phases added executed skipped session) (here : phases = front ++ [phase] ++ back) :
    phase.taken ≤ sh.nTodo ∧ phase.idle ≤ sh.nIdle := by
  have todo := sound.todo
  have idles := sound.idle
  rw [here, taken_append, taken_append] at todo
  rw [here, idle_append, idle_append] at idles
  have one : CheckQueue.taken [phase] = phase.taken := by simp [CheckQueue.taken]
  have two : CheckQueue.idle [phase] = phase.idle := by simp [CheckQueue.idle]
  omega

variable (returns) in
theorem critical_moves {fMaster notify : Bool} {phase next : Phase α} {middle : Shared α}
    (acquired : acquire fMaster sh phase = some (middle, notify)) (todo : phase.taken ≤ sh.nTodo)
    (idle : phase.idle ≤ sh.nIdle) (proceeds : proceed fMaster nBatchSize middle = (sh', .phase next)) :
    Moves returns sh sh' [phase] [next] [] [] ∧ next.Sized := by
  obtain ⟨moves, sized⟩ := proceed_moves returns proceeds
  exact ⟨(acquire_moves returns acquired todo idle).trans moves, sized⟩

variable {s s' : State α}

theorem step_start (inv : Inv returns s) (stepped : step returns nBatchSize s .start = some s') : Inv returns s' := by
  cases stepped
  have grown : Moves returns s.shared s.shared [] [Phase.fresh] [] [] :=
    ⟨rfl, rfl, rfl, fun _ => by simp [held, Phase.held], by simp [held, allOk, Phase.held, Phase.ok]⟩
  have here : threads s = threads s ++ [] ++ [] := by simp
  have sound := inv.sound
  rw [here] at sound
  have moved := sound.move grown
  rw [append_nil, append_nil, append_nil] at moved
  refine ⟨?_, fun phase member => ?_, inv.outside, inv.wakes, inv.waits, inv.sessions⟩
  · unfold threads at moved ⊢
    rw [← append_assoc]
    exact moved
  · unfold threads at member
    rw [← append_assoc] at member
    rcases mem_append.mp member with old | new
    · exact inv.sized phase old
    · rw [mem_singleton.mp new]
      trivial

theorem step_isIdle (inv : Inv returns s) (stepped : step returns nBatchSize s .isIdle = some s') : Inv returns s' := by
  simp only [step] at stepped
  split at stepped
  next outside =>
    split at stepped
    · cases stepped
      have same : threads { s with master := .adding } = threads s := by simp [threads, outside, Master.phases]
      exact ⟨same ▸ inv.sound, same ▸ inv.sized, nofun, nofun, inv.waits, inv.sessions⟩
    · cases stepped
  · cases stepped

theorem step_add {vChecks : List α} {choice : Nat} (inv : Inv returns s)
    (stepped : step returns nBatchSize s (.add vChecks choice) = some s') : Inv returns s' := by
  simp only [step] at stepped
  split at stepped
  next adding =>
    cases stepped
    have phases : s.master.phases = [] := by rw [adding]; rfl
    have workers : threads s = s.workers := by rw [threads, phases, nil_append]
    have sound := inv.sound
    rw [workers] at sound
    have alike := sound.alike (notifyWorkers_forget vChecks.length choice s.workers)
    refine ⟨?_, ?_, fun outside => ?_, fun waiting => ?_, inv.waits, ?_⟩
    · change Sound returns _ (s.master.phases ++ notifyWorkers vChecks.length choice s.workers) _ _ _ _
      rw [phases, nil_append]
      refine ⟨?_, alike.total, alike.idle, fun kind => ?_, ?_⟩
      · have todo := alike.todo
        change s.shared.nTodo + vChecks.length = _
        rw [length_append, length_reverse]
        omega
      · have balance := alike.balance kind
        dsimp only
        rw [countP_append, countP_append, countP_reverse]
        omega
      · rw [all_append, alike.verdict, all_append, all_reverse]
        ac_rfl
    · change ∀ phase ∈ s.master.phases ++ notifyWorkers vChecks.length choice s.workers, phase.Sized
      rw [phases, nil_append]
      exact notifyWorkers_sized fun phase member => inv.sized phase (workers ▸ member)
    · cases adding.symm.trans outside
    · cases adding.symm.trans waiting
    · change _ ++ (s.session ++ vChecks) = s.added ++ vChecks
      rw [← append_assoc, inv.sessions]
  · cases stepped

theorem step_wait (inv : Inv returns s) (stepped : step returns nBatchSize s .wait = some s') : Inv returns s' := by
  simp only [step] at stepped
  split at stepped
  next adding =>
    cases stepped
    have workers : threads s = s.workers := by simp [threads, adding, Master.phases]
    have grown : Moves returns s.shared s.shared [] [Phase.fresh] [] [] :=
      ⟨rfl, rfl, rfl, fun _ => by simp [held, Phase.held], by simp [held, allOk, Phase.held, Phase.ok]⟩
    have sound := inv.sound
    rw [workers, ← nil_append s.workers, ← append_nil []] at sound
    have moved := sound.move grown
    rw [append_nil, append_nil] at moved
    refine ⟨moved, fun phase member => ?_, nofun, nofun, inv.waits, inv.sessions⟩
    rcases mem_cons.mp member with rfl | old
    · trivial
    · exact inv.sized phase (workers ▸ old)
  · cases stepped

theorem log_fields (s : State α) (check : α) (fOk : Bool) :
    log s check fOk = { s with
      executed := s.executed ++ if fOk then [check] else []
      skipped := s.skipped ++ if fOk then [] else [check] } := by
  cases fOk <;> simp [log]

theorem step_check {worker : Option Nat} (inv : Inv returns s)
    (stepped : step returns nBatchSize s (.check worker) = some s') : Inv returns s' := by
  cases worker with
  | some i =>
    obtain ⟨phase, found, stepped⟩ := bind_eq_some_iff.mp stepped
    obtain ⟨⟨next, check, fOk⟩, runs, rfl⟩ := map_eq_some_iff.mp stepped
    obtain ⟨front, back, split', sets⟩ := set_split found
    have here : threads s = (s.master.phases ++ front) ++ [phase] ++ back := by simp [threads, split']
    obtain ⟨moves, sized⟩ := runCheck_moves s.shared runs
      (inv.sized phase (by rw [here]; simp))
    rw [log_fields]
    have after : s.master.phases ++ s.workers.set i next = (s.master.phases ++ front) ++ [next] ++ back := by
      rw [sets]
      simp
    have sound := inv.sound
    rw [here] at sound
    refine ⟨?_, fun other member => ?_, inv.outside, inv.wakes, inv.waits, inv.sessions⟩
    · change Sound returns s.shared (s.master.phases ++ s.workers.set i next) _ _ _ _
      rw [after]
      exact sound.move moves
    · change other ∈ s.master.phases ++ s.workers.set i next at member
      rw [after] at member
      simp only [mem_append, mem_singleton] at member
      rcases member with (earlier | rfl) | later
      · exact inv.sized other (by rw [here]; simp only [mem_append]; exact .inl (.inl earlier))
      · exact sized
      · exact inv.sized other (by rw [here]; simp only [mem_append]; exact .inr later)
  | none =>
    simp only [step] at stepped
    split at stepped
    next phase inWait =>
      obtain ⟨⟨next, check, fOk⟩, runs, rfl⟩ := map_eq_some_iff.mp stepped
      have here : threads s = [] ++ [phase] ++ s.workers := by simp [threads, inWait, Master.phases]
      obtain ⟨moves, sized⟩ := runCheck_moves s.shared runs (inv.sized phase (by rw [here]; simp))
      rw [log_fields]
      have sound := inv.sound
      rw [here] at sound
      refine ⟨sound.move moves, fun other member => ?_, fun outside => ?_, fun waiting => ?_, inv.waits, inv.sessions⟩
      · rcases mem_cons.mp member with rfl | later
        · exact sized
        · exact inv.sized other (by rw [here]; exact mem_append_right _ later)
      · cases outside
      · cases phase with
        | fresh | waiting => cases runs
        | working nNow ok vChecks =>
          cases vChecks with
          | nil => cases runs
          | cons first rest =>
            obtain ⟨rfl, -⟩ := Prod.mk.inj (some.inj runs)
            cases waiting
    · cases stepped

theorem notify_phases (master : Master α) : master.notify.phases.map Phase.forget = master.phases.map Phase.forget := by
  cases master with
  | inWait phase => exact congrArg (fun one => [one]) (notify_forget phase)
  | outside | adding => rfl

theorem acquire_quiet {fMaster notify : Bool} {phase : Phase α} {middle : Shared α}
    (acquired : acquire fMaster sh phase = some (middle, notify)) (sized : phase.Sized) (nothing : phase.taken = 0) :
    middle.nTodo = sh.nTodo ∧ middle.fAllOk = sh.fAllOk := by
  cases phase with
  | fresh | waiting =>
    obtain ⟨rfl, -⟩ := Prod.mk.inj (some.inj acquired)
    exact ⟨rfl, rfl⟩
  | working nNow fOk vChecks =>
    have positive : 1 ≤ nNow := sized.1
    have zero : nNow = 0 := nothing
    omega

theorem acquire_silent {phase : Phase α} {middle : Shared α} (acquired : acquire false sh phase = some (middle, false))
    (open' : sh.nTodo ≠ 0) : middle.nTodo ≠ 0 := by
  cases phase with
  | fresh | waiting =>
    obtain ⟨rfl, -⟩ := Prod.mk.inj (some.inj acquired)
    exact open'
  | working nNow fOk vChecks =>
    cases vChecks with
    | cons check rest => cases acquired
    | nil =>
      obtain ⟨rfl, silent⟩ := Prod.mk.inj (some.inj acquired)
      simpa using silent

theorem proceed_keeps {fMaster : Bool} {next : Phase α} (proceeds : proceed fMaster nBatchSize sh = (sh', .phase next)) :
    sh'.nTodo = sh.nTodo ∧ sh'.fAllOk = sh.fAllOk ∧ (next = .waiting false → sh.queue = [] ∧ (fMaster = true → sh.nTodo ≠ 0)) := by
  unfold proceed at proceeds
  split at proceeds
  next empty =>
    split at proceeds
    · cases (Prod.mk.inj proceeds).2
    next open' =>
      obtain ⟨rfl, -⟩ := Prod.mk.inj proceeds
      refine ⟨rfl, rfl, fun _ => ⟨isEmpty_iff.mp empty, fun master done => open' ?_⟩⟩
      rw [master, done]
      rfl
  next =>
    obtain ⟨rfl, same⟩ := Prod.mk.inj proceeds
    refine ⟨rfl, rfl, fun waits => ?_⟩
    rw [← Next.phase.inj same] at waits
    cases waits

theorem step_lock_worker {i : Nat} (inv : Inv returns s) (stepped : step returns nBatchSize s (.lock (some i)) = some s') :
    Inv returns s' := by
  obtain ⟨phase, found, stepped⟩ := bind_eq_some_iff.mp stepped
  obtain ⟨⟨middle, notify⟩, acquired, stepped⟩ := bind_eq_some_iff.mp stepped
  obtain ⟨front, back, split', sets⟩ := set_split found
  have here : threads s = (s.master.phases ++ front) ++ [phase] ++ back := by simp [threads, split']
  have among : phase ∈ threads s := by rw [here]; simp
  obtain ⟨enough, waits⟩ := Phase.taken_le inv.sound here
  have sound := inv.sound
  rw [here] at sound
  dsimp only at stepped
  split at stepped
  next shared next' proceeds =>
    obtain ⟨moves, sized⟩ := critical_moves returns acquired enough waits proceeds
    obtain ⟨sameTodo, sameOk, -⟩ := proceed_keeps proceeds
    cases stepped
    have after : s.master.phases ++ s.workers.set i next' = (s.master.phases ++ front) ++ [next'] ++ back := by
      rw [sets]
      simp
    have moved := sound.move moves
    rw [← after, append_nil, append_nil] at moved
    refine ⟨?_, fun other member => ?_, fun outside => ?_, fun waiting => ?_, inv.waits, inv.sessions⟩
    · refine moved.alike ?_
      change ((if notify then s.master.notify else s.master).phases ++ s.workers.set i next').map _ = _
      split
      · rw [map_append, map_append, notify_phases]
      · rfl
    · change other ∈ (if notify then s.master.notify else s.master).phases ++ s.workers.set i next' at member
      have workers : ∀ worker ∈ s.workers.set i next', worker.Sized := by
        intro worker there
        rcases mem_or_eq_of_mem_set there with old | rfl
        · exact inv.sized worker (mem_append_right _ old)
        · exact sized
      have master : ∀ worker ∈ s.master.phases, worker.Sized := fun worker there =>
        inv.sized worker (mem_append_left _ there)
      rcases mem_append.mp member with first | rest
      · split at first
        · cases known : s.master with
          | inWait waiter =>
            rw [known] at first master
            rw [mem_singleton.mp first]
            exact (master waiter mem_cons_self).notify
          | outside | adding =>
            rw [known] at first
            cases first
        · exact master other first
      · exact workers other rest
    · have before : s.master = .outside := by
        change (if notify then s.master.notify else s.master) = _ at outside
        split at outside
        · cases known : s.master with
          | outside => rfl
          | adding | inWait =>
            rw [known] at outside
            cases outside
        · exact outside
      obtain ⟨done, fine, fresh⟩ := inv.outside before
      have unchanged := acquire_quiet acquired (inv.sized phase among) (by omega)
      exact ⟨by rw [sameTodo, unchanged.1, done], by rw [sameOk, unchanged.2, fine], fresh⟩
    · change (if notify then s.master.notify else s.master) = _ at waiting
      change shared.nTodo ≠ 0
      cases told : notify with
      | true =>
        rw [told, if_pos rfl] at waiting
        cases known : s.master with
        | outside | adding =>
          rw [known] at waiting
          cases waiting
        | inWait waiter =>
          rw [known] at waiting
          cases waiter <;> cases waiting
      | false =>
        rw [told, if_neg Bool.false_ne_true] at waiting
        rw [sameTodo]
        exact acquire_silent (told ▸ acquired) (inv.wakes waiting)
  · cases stepped

theorem step_lock_master (inv : Inv returns s) (stepped : step returns nBatchSize s (.lock none) = some s') :
    Inv returns s' := by
  simp only [step] at stepped
  split at stepped
  next phase inWait =>
    obtain ⟨⟨middle, notify⟩, acquired, stepped⟩ := map_eq_some_iff.mp stepped
    have here : threads s = [] ++ [phase] ++ s.workers := by rw [threads, inWait]; rfl
    obtain ⟨enough, waits⟩ := Phase.taken_le inv.sound here
    have sound := inv.sound
    rw [here] at sound
    have workers : ∀ worker ∈ s.workers, worker.Sized := fun worker there =>
      inv.sized worker (by rw [here]; exact mem_append_right _ there)
    dsimp only at stepped
    split at stepped
    next shared next' proceeds =>
      obtain ⟨moves, sized⟩ := critical_moves returns acquired enough waits proceeds
      obtain ⟨sameTodo, -, waits'⟩ := proceed_keeps proceeds
      cases stepped
      have moved := sound.move moves
      rw [append_nil, append_nil] at moved
      refine ⟨moved, fun other member => ?_, nofun, fun waiting => ?_, inv.waits, inv.sessions⟩
      · rcases mem_cons.mp member with rfl | old
        · exact sized
        · exact workers other old
      · change shared.nTodo ≠ 0
        rw [sameTodo]
        exact (waits' (Master.inWait.inj waiting)).2 rfl
    next shared fRet proceeds =>
      obtain ⟨-, empty, done, answer, rfl⟩ := proceed_returns proceeds
      cases stepped
      have entered := sound.move (acquire_moves returns acquired enough waits)
      rw [append_nil, append_nil] at entered
      obtain ⟨verdict, finished⟩ := entered.finish workers empty done
      refine ⟨finished, workers, fun _ => ⟨done, rfl, rfl⟩, nofun, fun wait member => ?_, ?_⟩
      · rcases mem_append.mp member with old | new
        · exact inv.waits wait old
        · rw [mem_singleton.mp new, answer]
          exact verdict
      · change (s.waits ++ [(fRet, s.session)]).flatMap Prod.snd ++ [] = s.added
        rw [flatMap_append, flatMap_singleton, append_nil]
        exact inv.sessions
  · cases stepped

theorem step_inv {event : Event α} (inv : Inv returns s) (stepped : step returns nBatchSize s event = some s') :
    Inv returns s' := by
  cases event with
  | start => exact step_start inv stepped
  | isIdle => exact step_isIdle inv stepped
  | add vChecks choice => exact step_add inv stepped
  | wait => exact step_wait inv stepped
  | check worker => exact step_check inv stepped
  | lock worker =>
    cases worker with
    | some i => exact step_lock_worker inv stepped
    | none => exact step_lock_master inv stepped

theorem run_inv {events : List (Event α)} (run : Run returns nBatchSize events s) : Inv returns s :=
  Steps.invariant (Inv returns) (fun _ _ _ inv stepped => step_inv inv stepped) run inv_initial

/-- The queue is as it was found: nothing queued, no thread with a batch, no failure remembered. -/
structure AtRest (s : State α) : Prop where
  nTodo : s.shared.nTodo = 0
  queue : s.shared.queue = []
  taken : ∀ phase ∈ threads s, phase.taken = 0
  fAllOk : s.shared.fAllOk = true
  isIdle : IsIdle s.shared = true

theorem atRest (inv : Inv returns s) (outside : s.master = .outside) : AtRest s := by
  obtain ⟨done, fine, -⟩ := inv.outside outside
  have todo := inv.sound.todo
  refine ⟨done, length_eq_zero_iff.mp (by omega), fun phase member => ?_, fine, isIdle_of_outside inv outside⟩
  have part : phase.taken ≤ CheckQueue.taken (threads s) := single_le_sum (fun _ _ => Nat.zero_le _) _ (mem_map_of_mem member)
  omega

/-- Over every interleaving: no check is executed more often than it was added; `nTodo` is exact; the waits
have answered for the checks of their sessions, which are all that were added before the last wait; the queue
is at rest whenever the master is outside; and a master that waits with nothing left to do has been
notified. -/
theorem queue_answers_for_all [DecidableEq α] {events : List (Event α)} (run : Run returns nBatchSize events s) :
    (∀ check, s.executed.count check ≤ s.added.count check) ∧ s.shared.nTodo = s.shared.queue.length + taken (threads s) ∧
      (∀ wait ∈ s.waits, wait.1 = wait.2.all returns) ∧ s.waits.flatMap Prod.snd ++ s.session = s.added ∧
      (s.master = .outside → AtRest s ∧ s.session = []) ∧
      ∀ notified, s.master = .inWait (.waiting notified) → s.shared.nTodo = 0 → notified = true := by
  have inv := run_inv run
  refine ⟨fun check => ?_, inv.sound.todo, inv.waits, inv.sessions,
    fun outside => ⟨atRest inv outside, (inv.outside outside).2.2⟩, fun notified waiting done => ?_⟩
  · have balance := inv.sound.balance (· == check)
    unfold count
    omega
  · cases notified with
    | true => rfl
    | false => exact absurd done (inv.wakes waiting)

/-- Two checks, of which the second fails, shared by a worker and the master. -/
def sampleEvents : List (Event Nat) :=
  [.start, .lock (some 0), .isIdle, .add [2, 3] 0, .wait, .lock (some 0), .lock none, .check (some 0), .check none,
    .lock none, .lock (some 0), .lock none]

def sampleEnd : State Nat := (sampleEvents.foldlM (step (· != 3) 1) initial).getD initial

/-- The answer is no, and the queue is at rest again. -/
theorem queue_answers_sample : sampleEnd.waits = [(false, [2, 3])] ∧ AtRest sampleEnd := by
  have run : Run (· != 3) 1 sampleEvents sampleEnd := Steps.of_foldlM (by decide)
  obtain ⟨-, -, -, -, rest, -⟩ := queue_answers_for_all run
  exact ⟨by decide, (rest (by decide)).1⟩

end Longcoin.CheckQueue
