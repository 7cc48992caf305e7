import Mathlib.Algebra.Order.BigOperators.Group.List
import Mathlib.Algebra.Order.Group.Nat
import Mathlib.Data.List.FinRange
import Mathlib.Data.List.OfFn
import Mathlib.Logic.Function.Basic
import Mathlib.Order.WellFounded
import SlotBoard.Proofs.CommandRun
import SlotBoard.Proofs.Outcome

/-!
Inputs read by several workers at once. Workers are started in order, as long as fewer than a limit are at
work. One that starts looks first whether the work has been called off; one that fails has its error
recorded, unless another was faster, and then calls the work off. The scheduler may let any worker take the
next step. However it decides, the work ends, and it ends with all units in order or with the error of an
input that has none: nobody is called off before an error is recorded.
-/
namespace SlotBoard

/-- Why a worker gives up: its own task fails, or the work has been called off. -/
inductive WorkerError (ε : Type) where
  | failed (e : ε)
  | cancelled
deriving DecidableEq

/-- What a worker is about to do. -/
inductive Phase (α ε : Type) where
  /-- To start, when it is its turn. -/
  | waiting
  /-- To look whether the work has been called off. -/
  | started
  /-- To do its task. -/
  | working
  /-- To store its result. -/
  | holding (a : α)
  /-- To have its error recorded, if it is the first one. -/
  | failing (e : WorkerError ε)
  /-- To call the work off, after its error has been recorded. -/
  | cancelling
  | finished

namespace Phase

variable {α ε : Type}

def isWaiting : Phase α ε → Bool
  | waiting => true
  | _ => false

def isFinished : Phase α ε → Bool
  | finished => true
  | _ => false

def isActive (phase : Phase α ε) : Bool := !phase.isWaiting && !phase.isFinished

theorem isWaiting_iff {phase : Phase α ε} : phase.isWaiting = true ↔ phase = waiting := by
  cases phase <;> simp [isWaiting]

theorem isFinished_iff {phase : Phase α ε} : phase.isFinished = true ↔ phase = finished := by
  cases phase <;> simp [isFinished]

theorem waiting_of_idle {phase : Phase α ε} (hidle : ¬phase.isActive = true) (h : phase ≠ finished) :
    phase = waiting := by
  cases phase with
  | waiting => rfl
  | finished => exact absurd rfl h
  | started => exact absurd rfl hidle
  | working => exact absurd rfl hidle
  | holding a => exact absurd rfl hidle
  | failing e => exact absurd rfl hidle
  | cancelling => exact absurd rfl hidle

def rank : Phase α ε → Nat
  | waiting => 5
  | started => 4
  | working => 3
  | holding _ => 2
  | failing _ => 2
  | cancelling => 1
  | finished => 0

/-- What is known about a worker, given its task, what it has stored, and whether an error has been
recorded. -/
def Justified (task : Except ε α) (result : Option α) (hasFailed : Bool) : Phase α ε → Prop
  | waiting | started | working => True
  | holding a => task = .ok a
  | failing (.failed e) => task = .error e
  | failing .cancelled | cancelling => hasFailed = true
  | finished => (∃ a, task = .ok a ∧ result = some a) ∨ hasFailed = true

theorem Justified.mono {task : Except ε α} {result : Option α} {b c : Bool} {phase : Phase α ε}
    (h : phase.Justified task result b) (hbc : b = true → c = true) :
    phase.Justified task result c := by
  cases phase with
  | waiting => trivial
  | started => trivial
  | working => trivial
  | holding a => exact h
  | failing e =>
    cases e with
    | failed cause => exact h
    | cancelled => exact hbc h
  | cancelling => exact hbc h
  | finished => exact h.imp_right hbc

end Phase

/-- The workers and what they share. -/
structure Pool (α ε : Type) (n : Nat) where
  phase : Fin n → Phase α ε := fun _ => .waiting
  results : Fin n → Option α := fun _ => none
  failure : Option (WorkerError ε) := none
  isCancelled : Bool := false

namespace Pool

variable {α ε : Type} {n : Nat}

def active (p : Pool α ε n) : Nat := (List.finRange n).countP fun i => (p.phase i).isActive

/-- Whether it is the turn of a worker to start and there is a place for it. -/
def mayStart (limit : Nat) (p : Pool α ε n) (i : Fin n) : Bool :=
  ((List.finRange n).all fun j => !(Nat.blt j i && (p.phase j).isWaiting)) && Nat.blt p.active limit

def enter (p : Pool α ε n) (i : Fin n) (phase : Phase α ε) : Pool α ε n :=
  { p with phase := Function.update p.phase i phase }

def store (p : Pool α ε n) (i : Fin n) (a : α) : Pool α ε n :=
  { p with results := Function.update p.results i (some a) }

def record (p : Pool α ε n) (e : WorkerError ε) : Pool α ε n := { p with failure := some e }

def cancel (p : Pool α ε n) : Pool α ε n := { p with isCancelled := true }

/-- The next step of a worker; none if it has to wait or is finished. -/
def step (tasks : Fin n → Except ε α) (limit : Nat) (p : Pool α ε n) (i : Fin n) :
    Option (Pool α ε n) :=
  match p.phase i with
  | .waiting => if p.mayStart limit i then some (p.enter i .started) else none
  | .started => some (p.enter i (if p.isCancelled then .failing .cancelled else .working))
  | .working =>
    match tasks i with
    | .ok a => some (p.enter i (.holding a))
    | .error e => some (p.enter i (.failing (.failed e)))
  | .holding a => some ((p.enter i .finished).store i a)
  | .failing e =>
    match p.failure with
    | none => some ((p.enter i .cancelling).record e)
    -- The first error is being dealt with, and others wait until that is done.
    | some _ => if p.isCancelled then some (p.enter i .finished) else none
  | .cancelling => some (p.enter i .finished).cancel
  | .finished => none

def run (tasks : Fin n → Except ε α) (limit : Nat) (p : Pool α ε n) :
    List (Fin n) → Option (Pool α ε n)
  | [] => some p
  | i :: schedule => (p.step tasks limit i).bind fun q => q.run tasks limit schedule

/-- What the work has come to, once all workers are finished: the recorded error, or what was stored. -/
def outcome? (p : Pool α ε n) : Option (Except (WorkerError ε) (List (Option α))) :=
  if (List.finRange n).all fun i => (p.phase i).isFinished then
    some (match p.failure with
      | some e => .error e
      | none => .ok (List.ofFn p.results))
  else none

/-- An outcome without gaps, which is no cancellation. -/
def whole : Except ε (List α) → Except (WorkerError ε) (List (Option α))
  | .ok as => .ok (as.map some)
  | .error e => .error (.failed e)

/-- What a step can be. -/
inductive Move (tasks : Fin n → Except ε α) (limit : Nat) (p : Pool α ε n) (i : Fin n) :
    Pool α ε n → Prop
  | start (h : p.phase i = .waiting) (hmay : p.mayStart limit i = true) :
      Move tasks limit p i (p.enter i .started)
  | stop (h : p.phase i = .started) (hcancelled : p.isCancelled = true) :
      Move tasks limit p i (p.enter i (.failing .cancelled))
  | work (h : p.phase i = .started) (hgoing : p.isCancelled = false) :
      Move tasks limit p i (p.enter i .working)
  | succeed {a : α} (h : p.phase i = .working) (htask : tasks i = .ok a) :
      Move tasks limit p i (p.enter i (.holding a))
  | fail {e : ε} (h : p.phase i = .working) (htask : tasks i = .error e) :
      Move tasks limit p i (p.enter i (.failing (.failed e)))
  | store {a : α} (h : p.phase i = .holding a) :
      Move tasks limit p i ((p.enter i .finished).store i a)
  | record {e : WorkerError ε} (h : p.phase i = .failing e) (hfirst : p.failure = none) :
      Move tasks limit p i ((p.enter i .cancelling).record e)
  | giveUp {e : WorkerError ε} (h : p.phase i = .failing e) (hlater : p.failure.isSome = true)
      (hcancelled : p.isCancelled = true) : Move tasks limit p i (p.enter i .finished)
  | cancel (h : p.phase i = .cancelling) :
      Move tasks limit p i (p.enter i .finished).cancel

variable {tasks : Fin n → Except ε α} {limit : Nat} {p q : Pool α ε n} {i j : Fin n}

theorem step_eq_some_iff : p.step tasks limit i = some q ↔ p.Move tasks limit i q := by
  constructor
  · intro h
    rw [step] at h
    cases hphase : p.phase i with
    | waiting =>
      rw [hphase] at h
      dsimp only at h
      split_ifs at h with hmay
      obtain rfl := Option.some.inj h
      exact .start hphase hmay
    | started =>
      rw [hphase] at h
      obtain rfl := Option.some.inj h
      cases hcancelled : p.isCancelled with
      | true => exact .stop hphase hcancelled
      | false => exact .work hphase hcancelled
    | working =>
      rw [hphase] at h
      cases htask : tasks i with
      | ok a =>
        rw [htask] at h
        obtain rfl := Option.some.inj h
        exact .succeed hphase htask
      | error e =>
        rw [htask] at h
        obtain rfl := Option.some.inj h
        exact .fail hphase htask
    | holding a =>
      rw [hphase] at h
      obtain rfl := Option.some.inj h
      exact .store hphase
    | failing e =>
      rw [hphase] at h
      cases hfailure : p.failure with
      | none =>
        rw [hfailure] at h
        obtain rfl := Option.some.inj h
        exact .record hphase hfailure
      | some first =>
        rw [hfailure] at h
        dsimp only at h
        split_ifs at h with hcancelled
        obtain rfl := Option.some.inj h
        exact .giveUp hphase (by rw [hfailure]; rfl) hcancelled
    | cancelling =>
      rw [hphase] at h
      obtain rfl := Option.some.inj h
      exact .cancel hphase
    | finished =>
      rw [hphase] at h
      cases h
  · intro h
    cases h with
    | start h hmay => rw [step, h]; exact if_pos hmay
    | stop h hcancelled => rw [step, h, hcancelled]; rfl
    | work h hgoing => rw [step, h, hgoing]; rfl
    | succeed h htask => rw [step, h, htask]
    | fail h htask => rw [step, h, htask]
    | store h => rw [step, h]
    | record h hfirst => rw [step, h, hfirst]
    | giveUp h hlater hcancelled =>
      obtain ⟨first, hfirst⟩ := Option.isSome_iff_exists.mp hlater
      rw [step, h, hfirst]
      exact if_pos hcancelled
    | cancel h => rw [step, h]

@[simp] theorem phase_enter_self (p : Pool α ε n) (i : Fin n) (phase : Phase α ε) :
    (p.enter i phase).phase i = phase := by
  rw [enter]
  exact Function.update_self i phase p.phase

theorem phase_enter_of_ne (p : Pool α ε n) {i j : Fin n} (phase : Phase α ε) (h : j ≠ i) :
    (p.enter i phase).phase j = p.phase j := by
  rw [enter]
  exact Function.update_of_ne h phase p.phase

/-- What holds at every moment. An error is recorded before the work is called off, it is that of a task
that fails, and as long as the work goes on in spite of it, somebody is about to call it off. -/
structure Sound (tasks : Fin n → Except ε α) (p : Pool α ε n) : Prop where
  workers : ∀ i, (p.phase i).Justified (tasks i) (p.results i) p.failure.isSome
  failure : ∀ e, p.failure = some e → ∃ i cause, e = .failed cause ∧ tasks i = .error cause
  cancelled : p.isCancelled = true → p.failure.isSome = true
  pending : p.failure.isSome = true → p.isCancelled = false → ∃ i, p.phase i = .cancelling

namespace Sound

theorem start (tasks : Fin n → Except ε α) : Sound tasks {} where
  workers _ := trivial
  failure _ h := nomatch h
  cancelled h := nomatch h
  pending h := nomatch h

/-- A worker that enters a new phase has no say in what is known about the others. -/
theorem workers_enter (hp : p.Sound tasks) {phase : Phase α ε} {results : Fin n → Option α}
    {hasFailed : Bool} (hresults : ∀ j, j ≠ i → results j = p.results j)
    (hfailed : p.failure.isSome = true → hasFailed = true)
    (hi : phase.Justified (tasks i) (results i) hasFailed) :
    ∀ j, ((p.enter i phase).phase j).Justified (tasks j) (results j) hasFailed := by
  intro j
  by_cases hj : j = i
  · subst hj
    rw [phase_enter_self]
    exact hi
  · rw [phase_enter_of_ne p phase hj, hresults j hj]
    exact (hp.workers j).mono hfailed

/-- Somebody else goes on being about to call the work off. -/
theorem pending_enter (hp : p.Sound tasks) (hi : p.phase i ≠ .cancelling) (phase : Phase α ε) :
    p.failure.isSome = true → p.isCancelled = false → ∃ j, (p.enter i phase).phase j = .cancelling := by
  intro hfailed hgoing
  obtain ⟨j, hj⟩ := hp.pending hfailed hgoing
  have hne : j ≠ i := by
    rintro rfl
    exact hi hj
  exact ⟨j, (phase_enter_of_ne p phase hne).trans hj⟩

/-- A worker may enter a phase that is justified, unless it has to call the work off first. -/
theorem enter (hp : p.Sound tasks) (hi : p.phase i ≠ .cancelling) {phase : Phase α ε}
    (hphase : phase.Justified (tasks i) (p.results i) p.failure.isSome) :
    (p.enter i phase).Sound tasks where
  workers := hp.workers_enter (fun _ _ => rfl) id hphase
  failure := hp.failure
  cancelled := hp.cancelled
  pending := hp.pending_enter hi phase

theorem move (hp : p.Sound tasks) (h : p.Move tasks limit i q) : q.Sound tasks := by
  have hworker := hp.workers i
  cases h with
  | start h _ => exact hp.enter (by simp [h]) trivial
  | stop h hcancelled => exact hp.enter (by simp [h]) (hp.cancelled hcancelled)
  | work h _ => exact hp.enter (by simp [h]) trivial
  | succeed h htask => exact hp.enter (by simp [h]) htask
  | fail h htask => exact hp.enter (by simp [h]) htask
  | giveUp h hlater _ => exact hp.enter (by simp [h]) (Or.inr hlater)
  | @store a h =>
    rw [h] at hworker
    exact {
      workers := by
        refine hp.workers_enter (fun j hj => Function.update_of_ne hj _ _) id (Or.inl ⟨a, hworker, ?_⟩)
        exact Function.update_self ..
      failure := hp.failure
      cancelled := hp.cancelled
      pending := hp.pending_enter (by simp [h]) .finished }
  | @record e h hfirst =>
    rw [h] at hworker
    exact {
      workers := hp.workers_enter (fun _ _ => rfl) (fun _ => rfl) rfl
      failure := by
        intro first hrecorded
        obtain rfl := Option.some.inj hrecorded
        cases e with
        | failed cause => exact ⟨i, cause, rfl, hworker⟩
        -- Nobody was called off before the first error.
        | cancelled =>
          rw [hfirst] at hworker
          cases hworker
      cancelled := fun _ => rfl
      pending := fun _ _ => ⟨i, phase_enter_self p i .cancelling⟩ }
  | cancel h =>
    rw [h] at hworker
    exact {
      workers := hp.workers_enter (fun _ _ => rfl) id (Or.inr hworker)
      failure := hp.failure
      cancelled := fun _ => hworker
      pending := fun _ hgoing => nomatch hgoing }

theorem run (hp : p.Sound tasks) {schedule : List (Fin n)} (h : p.run tasks limit schedule = some q) :
    q.Sound tasks := by
  induction schedule generalizing p with
  | nil =>
    obtain rfl := Option.some.inj h
    exact hp
  | cons i schedule ih =>
    obtain ⟨r, hstep, hrest⟩ := Option.bind_eq_some_iff.mp h
    exact ih (hp.move (step_eq_some_iff.mp hstep)) hrest

end Sound

def rank (p : Pool α ε n) : Nat := (List.finRange n).foldr (fun i total => (p.phase i).rank + total) 0

theorem rank_enter_lt (p : Pool α ε n) {i : Fin n} {phase : Phase α ε}
    (h : phase.rank < (p.phase i).rank) : (p.enter i phase).rank < p.rank := by
  have hsum (q : Pool α ε n) : q.rank = ((List.finRange n).map fun j => (q.phase j).rank).sum :=
    (List.foldr_map ..).symm
  rw [hsum, hsum]
  refine List.sum_lt_sum _ _ (fun j _ => ?_) ⟨i, List.mem_finRange i, ?_⟩
  · by_cases hj : j = i
    · subst hj
      rw [phase_enter_self]
      exact h.le
    · rw [phase_enter_of_ne p phase hj]
  · rw [phase_enter_self]
    exact h

theorem Move.rank_lt (h : p.Move tasks limit i q) : q.rank < p.rank := by
  cases h with
  | start h _ => exact p.rank_enter_lt (by simp [h, Phase.rank])
  | stop h _ => exact p.rank_enter_lt (by simp [h, Phase.rank])
  | work h _ => exact p.rank_enter_lt (by simp [h, Phase.rank])
  | succeed h _ => exact p.rank_enter_lt (by simp [h, Phase.rank])
  | fail h _ => exact p.rank_enter_lt (by simp [h, Phase.rank])
  | store h => exact p.rank_enter_lt (by simp [h, Phase.rank])
  | record h _ => exact p.rank_enter_lt (by simp [h, Phase.rank])
  | giveUp h _ _ => exact p.rank_enter_lt (by simp [h, Phase.rank])
  | cancel h => exact p.rank_enter_lt (by simp [h, Phase.rank])

theorem rank_run {schedule : List (Fin n)} (h : p.run tasks limit schedule = some q) :
    schedule.length + q.rank ≤ p.rank := by
  induction schedule generalizing p with
  | nil =>
    obtain rfl := Option.some.inj h
    simp
  | cons i schedule ih =>
    obtain ⟨r, hstep, hrest⟩ := Option.bind_eq_some_iff.mp h
    have hlt := (step_eq_some_iff.mp hstep).rank_lt
    have hle := ih hrest
    rw [List.length_cons]
    omega

theorem rank_start : ({} : Pool α ε n).rank = 5 * n := by
  simp [rank, Phase.rank, List.foldr_const, Nat.mul_comm]

theorem mayStart_iff : p.mayStart limit i = true ↔
    (∀ j, j < i → p.phase j ≠ .waiting) ∧ p.active < limit := by
  simp only [mayStart, Bool.and_eq_true, List.all_eq_true, List.mem_finRange, true_imp_iff, Nat.blt_eq,
    Bool.not_eq_true', Bool.and_eq_false_imp, Fin.lt_def, ne_eq, ← Phase.isWaiting_iff,
    Bool.not_eq_true]

theorem exists_unfinished (h : p.outcome? = none) : ∃ i, p.phase i ≠ .finished := by
  by_contra hall
  have hfinished : ((List.finRange n).all fun i => (p.phase i).isFinished) = true :=
    List.all_eq_true.mpr fun i _ => Phase.isFinished_iff.mpr (not_not.mp (not_exists.mp hall i))
  rw [outcome?, if_pos hfinished] at h
  cases h

/-- A worker that is at work can go on, or somebody is about to call the work off. -/
theorem Sound.exists_move_of_active (hp : p.Sound tasks) (limit : Nat)
    (hi : (p.phase i).isActive = true) : ∃ j q, p.Move tasks limit j q := by
  cases hphase : p.phase i with
  | waiting =>
    rw [hphase] at hi
    cases hi
  | started =>
    cases hcancelled : p.isCancelled with
    | true => exact ⟨i, _, .stop hphase hcancelled⟩
    | false => exact ⟨i, _, .work hphase hcancelled⟩
  | working =>
    cases htask : tasks i with
    | ok a => exact ⟨i, _, .succeed hphase htask⟩
    | error e => exact ⟨i, _, .fail hphase htask⟩
  | holding a => exact ⟨i, _, .store hphase⟩
  | failing e =>
    cases hfailure : p.failure with
    | none => exact ⟨i, _, .record hphase hfailure⟩
    | some first =>
      have hlater : p.failure.isSome = true := by
        rw [hfailure]
        rfl
      cases hcancelled : p.isCancelled with
      | true => exact ⟨i, _, .giveUp hphase hlater hcancelled⟩
      | false =>
        obtain ⟨j, hj⟩ := hp.pending hlater hcancelled
        exact ⟨j, _, .cancel hj⟩
  | cancelling => exact ⟨i, _, .cancel hphase⟩
  | finished =>
    rw [hphase] at hi
    cases hi

/-- As long as there is work left, some worker can take a step. -/
theorem Sound.exists_move (hp : p.Sound tasks) (hlimit : 0 < limit) (h : p.outcome? = none) :
    ∃ i q, p.Move tasks limit i q := by
  by_cases hactive : ∃ i, (p.phase i).isActive = true
  · obtain ⟨i, hi⟩ := hactive
    exact hp.exists_move_of_active limit hi
  · -- Nobody is at work, so the first one that waits has its turn.
    have hnone : p.active = 0 := by
      rw [active, List.countP_eq_zero]
      exact fun i _ => not_exists.mp hactive i
    have hwaiting : ∃ i, p.phase i = .waiting := by
      obtain ⟨i, hi⟩ := exists_unfinished h
      exact ⟨i, Phase.waiting_of_idle (not_exists.mp hactive i) hi⟩
    obtain ⟨i, hi, hfirst⟩ := WellFounded.has_min wellFounded_lt {i | p.phase i = .waiting} hwaiting
    exact ⟨i, _, .start hi (mayStart_iff.mpr ⟨fun j hj hwait => hfirst j hwait hj, by omega⟩)⟩

/-- When the work ends, there are all results in order or there is the error of a task that fails. -/
theorem Sound.outcome (hp : p.Sound tasks) {o : Except (WorkerError ε) (List (Option α))}
    (h : p.outcome? = some o) :
    ∃ r, o = whole r ∧ (∀ as, r = .ok as → List.ofFn tasks = as.map .ok) ∧
      ∀ e, r = .error e → ∃ i, tasks i = .error e := by
  rw [outcome?] at h
  split_ifs at h with hall
  have hfinished : ∀ i, p.phase i = .finished := fun i =>
    Phase.isFinished_iff.mp (List.all_eq_true.mp hall i (List.mem_finRange i))
  obtain rfl := Option.some.inj h
  cases hfailure : p.failure with
  | some first =>
    obtain ⟨i, cause, rfl, hcause⟩ := hp.failure first hfailure
    refine ⟨.error cause, rfl, nofun, ?_⟩
    intro e he
    obtain rfl := Except.error.inj he
    exact ⟨i, hcause⟩
  | none =>
    have hstored : ∀ i, ∃ a, tasks i = .ok a ∧ p.results i = some a := by
      intro i
      have hworker := hp.workers i
      rw [hfinished i, hfailure] at hworker
      exact hworker.resolve_right Bool.false_ne_true
    choose results htasks hresults using hstored
    refine ⟨.ok (List.ofFn results), ?_, ?_, nofun⟩
    · rw [whole, List.map_ofFn, funext hresults]
      rfl
    · intro as has
      obtain rfl := Except.ok.inj has
      rw [List.map_ofFn, funext htasks]
      rfl

theorem enter_enter (p : Pool α ε n) (i : Fin n) (phase phase' : Phase α ε) :
    (p.enter i phase).enter i phase' = p.enter i phase' := by
  simp [enter]

theorem run_cons (h : p.Move tasks limit i q) (schedule : List (Fin n)) :
    p.run tasks limit (i :: schedule) = q.run tasks limit schedule := by
  rw [run, step_eq_some_iff.mpr h]
  rfl

theorem run_append (p : Pool α ε n) (before after : List (Fin n)) :
    p.run tasks limit (before ++ after) =
      (p.run tasks limit before).bind fun q => q.run tasks limit after := by
  induction before generalizing p with
  | nil => rfl
  | cons i before ih =>
    rw [List.cons_append, run, run]
    cases p.step tasks limit i with
    | none => rfl
    | some q => exact ih q

section Alone

variable {a : α} {e : ε} (hphase : p.phase i = .waiting) (hmay : p.mayStart limit i = true)

include hphase hmay

/-- A worker that starts after the work has been called off gives up. -/
theorem run_called_off (hcancelled : p.isCancelled = true) (hlater : p.failure.isSome = true) :
    p.run tasks limit [i, i, i] = some (p.enter i .finished) := by
  have hstop : (p.enter i .started).Move tasks limit i (p.enter i (.failing .cancelled)) := by
    simpa only [enter_enter] using Move.stop (phase_enter_self p i .started) hcancelled
  have hend : (p.enter i (.failing .cancelled)).Move tasks limit i (p.enter i .finished) := by
    simpa only [enter_enter] using
      Move.giveUp (phase_enter_self p i (.failing .cancelled)) hlater hcancelled
  rw [run_cons (.start hphase hmay), run_cons hstop, run_cons hend]
  rfl

theorem run_success (hgoing : p.isCancelled = false) (htask : tasks i = .ok a) :
    p.run tasks limit [i, i, i, i] = some ((p.enter i .finished).store i a) := by
  have hwork : (p.enter i .started).Move tasks limit i (p.enter i .working) := by
    simpa only [enter_enter] using Move.work (phase_enter_self p i .started) hgoing
  have hsucceed : (p.enter i .working).Move tasks limit i (p.enter i (.holding a)) := by
    simpa only [enter_enter] using Move.succeed (phase_enter_self p i .working) htask
  have hend : (p.enter i (.holding a)).Move tasks limit i ((p.enter i .finished).store i a) := by
    simpa only [enter_enter] using Move.store (phase_enter_self p i (.holding a))
  rw [run_cons (.start hphase hmay), run_cons hwork, run_cons hsucceed, run_cons hend]
  rfl

/-- A worker whose task fails, where no other error has been recorded. -/
theorem run_failure (hgoing : p.isCancelled = false) (hfirst : p.failure = none)
    (htask : tasks i = .error e) :
    p.run tasks limit [i, i, i, i, i] = some ((p.record (.failed e)).enter i .finished).cancel := by
  have hwork : (p.enter i .started).Move tasks limit i (p.enter i .working) := by
    simpa only [enter_enter] using Move.work (phase_enter_self p i .started) hgoing
  have hfail : (p.enter i .working).Move tasks limit i (p.enter i (.failing (.failed e))) := by
    simpa only [enter_enter] using Move.fail (phase_enter_self p i .working) htask
  have hrecord : (p.enter i (.failing (.failed e))).Move tasks limit i
      ((p.enter i .cancelling).record (.failed e)) := by
    simpa only [enter_enter] using Move.record (phase_enter_self p i (.failing (.failed e))) hfirst
  have hend : ((p.enter i .cancelling).record (.failed e)).Move tasks limit i
      (((p.record (.failed e)).enter i .cancelling).enter i .finished).cancel :=
    .cancel (phase_enter_self p i .cancelling)
  rw [enter_enter] at hend
  rw [run_cons (.start hphase hmay), run_cons hwork, run_cons hfail, run_cons hrecord, run_cons hend]
  rfl

/-- A worker may be the only one to take steps until it is finished. Its error counts if it is the first
one. -/
theorem exists_run_worker (tasks : Fin n → Except ε α) (hsettled : p.isCancelled = p.failure.isSome) :
    ∃ schedule q, p.run tasks limit schedule = some q ∧
      q.phase = Function.update p.phase i .finished ∧ q.isCancelled = q.failure.isSome ∧
      q.failure = p.failure.or ((errorOf? (tasks i)).map .failed) := by
  cases hfailure : p.failure with
  | some first =>
    rw [hfailure] at hsettled
    have hlater : p.failure.isSome = true := by
      rw [hfailure]
      rfl
    exact ⟨_, _, run_called_off hphase hmay hsettled hlater, rfl, hsettled.trans hlater.symm, hfailure⟩
  | none =>
    rw [hfailure] at hsettled
    cases htask : tasks i with
    | ok a =>
      refine ⟨_, _, run_success hphase hmay hsettled htask, rfl, ?_, hfailure⟩
      exact hsettled.trans (congrArg Option.isSome hfailure).symm
    | error e => exact ⟨_, _, run_failure hphase hmay hsettled hfailure htask, rfl, rfl, rfl⟩

end Alone

/-- The first workers have worked one after the other, and the others wait. -/
structure InOrder (tasks : Fin n → Except ε α) (k : Nat) (p : Pool α ε n) : Prop where
  finished : ∀ i : Fin n, i < k → p.phase i = .finished
  waiting : ∀ i : Fin n, k ≤ i → p.phase i = .waiting
  settled : p.isCancelled = p.failure.isSome
  failure : p.failure =
    (((List.finRange n).take k).findSome? fun i => errorOf? (tasks i)).map .failed

namespace InOrder

variable {k : Nat}

theorem mayStart (h : p.InOrder tasks k) (hlimit : 0 < limit) (hi : i = k) :
    p.mayStart limit i = true := by
  have hidle : p.active = 0 := by
    rw [active, List.countP_eq_zero]
    intro j _
    rcases Nat.lt_or_ge j k with hj | hj
    · rw [h.finished j hj]
      exact Bool.false_ne_true
    · rw [h.waiting j hj]
      exact Bool.false_ne_true
  refine mayStart_iff.mpr ⟨fun j hj hwait => ?_, hidle ▸ hlimit⟩
  rw [h.finished j (hi ▸ hj)] at hwait
  cases hwait

theorem exists_run_succ (h : p.InOrder tasks k) (hlimit : 0 < limit) (hk : k < n) :
    ∃ schedule q, p.run tasks limit schedule = some q ∧ q.InOrder tasks (k + 1) := by
  obtain ⟨schedule, q, hrun, hphase, hsettled, hfailure⟩ := exists_run_worker
    (h.waiting ⟨k, hk⟩ le_rfl) (h.mayStart hlimit rfl) tasks h.settled
  refine ⟨schedule, q, hrun, ?_, ?_, hsettled, ?_⟩
  · intro i hi
    by_cases hik : i = ⟨k, hk⟩
    · rw [hphase, hik, Function.update_self]
    · have hne : (i : Nat) ≠ k := fun heq => hik (Fin.ext heq)
      rw [hphase, Function.update_of_ne hik]
      exact h.finished i (by omega)
  · intro i hi
    have hik : i ≠ ⟨k, hk⟩ := fun heq => by
      rw [heq] at hi
      exact absurd hi (Nat.not_succ_le_self k)
    rw [hphase, Function.update_of_ne hik]
    exact h.waiting i (by omega)
  · have htake : (List.finRange n).take (k + 1) = (List.finRange n).take k ++ [⟨k, hk⟩] := by
      rw [List.take_add_one, List.getElem?_eq_getElem (by simpa using hk), List.getElem_finRange]
      rfl
    rw [hfailure, h.failure, htake, List.findSome?_append]
    cases ((List.finRange n).take k).findSome? fun i => errorOf? (tasks i) with
    | some e => rfl
    | none =>
      rw [List.findSome?_singleton]
      rfl

theorem exists_run (tasks : Fin n → Except ε α) (hlimit : 0 < limit) (hk : k ≤ n) :
    ∃ schedule p, ({} : Pool α ε n).run tasks limit schedule = some p ∧ p.InOrder tasks k := by
  induction k with
  | zero => exact ⟨[], {}, rfl, fun _ hi => absurd hi (Nat.not_lt_zero _), fun _ _ => rfl, rfl, rfl⟩
  | succ k ih =>
    obtain ⟨before, p, hbefore, hp⟩ := ih (Nat.le_of_succ_le hk)
    obtain ⟨after, q, hafter, hq⟩ := hp.exists_run_succ hlimit hk
    refine ⟨before ++ after, q, ?_, hq⟩
    rw [run_append, hbefore]
    exact hafter

end InOrder

/-- Workers that work one after the other do what one does who goes through the tasks. -/
theorem exists_run_in_order (tasks : Fin n → Except ε α) (hlimit : 0 < limit) :
    ∃ schedule p, ({} : Pool α ε n).run tasks limit schedule = some p ∧
      p.outcome? = some (whole ((List.finRange n).mapM tasks)) := by
  obtain ⟨schedule, p, hrun, hp⟩ := InOrder.exists_run tasks hlimit le_rfl
  refine ⟨schedule, p, hrun, ?_⟩
  have hfinished : ((List.finRange n).all fun i => (p.phase i).isFinished) = true :=
    List.all_eq_true.mpr fun i _ => Phase.isFinished_iff.mpr (hp.finished i i.isLt)
  have hfailure := hp.failure
  rw [List.take_of_length_le List.length_finRange.le] at hfailure
  cases hfirst : (List.finRange n).findSome? fun i => errorOf? (tasks i) with
  | some e =>
    rw [hfirst] at hfailure
    rw [mapM_eq_error_iff.mpr hfirst, outcome?, if_pos hfinished, hfailure]
    rfl
  | none =>
    rw [hfirst] at hfailure
    have hend : p.outcome? = some (.ok (List.ofFn p.results)) := by
      rw [outcome?, if_pos hfinished, hfailure]
      rfl
    obtain ⟨r, hr, hok, -⟩ := ((Sound.start tasks).run hrun).outcome hend
    cases r with
    | error e => cases hr
    | ok as =>
      have hall : (List.finRange n).map tasks = as.map .ok := List.ofFn_eq_map ▸ hok as rfl
      rw [hend, hr, mapM_eq_ok_iff.mpr hall]

end Pool

def Config.reading (c : Config) (t : FileTree) (i : Fin c.inputs.length) :
    Except SourceError SourceUnit := t.unitAt (c.inputs.get i)

theorem Config.mapM_reading (c : Config) (t : FileTree) :
    (List.finRange c.inputs.length).mapM (c.reading t) = c.inputs.mapM t.unitAt := by
  conv_rhs => rw [← List.map_get_finRange c.inputs, List.mapM_map]
  rfl

theorem Config.ofFn_reading (c : Config) (t : FileTree) :
    List.ofFn (c.reading t) = c.inputs.map t.unitAt := by
  conv_rhs => rw [← List.ofFn_get c.inputs, List.map_ofFn]
  rfl

/-- Inputs are read by workers, at most so many of them at once. However the scheduler lets them take their
steps, there are not many steps, and as long as some worker is not finished, one of them can go on. In the
end all units are there, in order, if every input has one, and the run goes on as if a single worker had read
them. Otherwise there is the error of an input that has none, no matter who was called off, and the run is
over with the file tree as it was. The run itself is what comes out if each worker waits for the one before
it. -/
theorem concurrent_reading_independent_of_schedule (stamps : MonadStamp (StateM FileTree)) (c : Config)
    (t : FileTree) (limit : Nat) :
    let start : Pool SourceUnit SourceError c.inputs.length := {}
    let tasks := c.reading t
    (∀ schedule p, start.run tasks limit schedule = some p →
      schedule.length ≤ 5 * c.inputs.length ∧
      (0 < limit → p.outcome? = none → ∃ i q, p.step tasks limit i = some q) ∧
      ∀ o, p.outcome? = some o → ∃ r, o = Pool.whole r ∧
        ((∃ units, r = .ok units) ↔ ∀ path ∈ c.inputs, ∃ u, t.unitAt path = .ok u) ∧
        (∀ units, r = .ok units → c.inputs.map t.unitAt = units.map .ok ∧
          (c.proceed r).run t = (c.run : StateM FileTree _).run t) ∧
        ∀ e, r = .error e → (∃ path ∈ c.inputs, t.unitAt path = .error e) ∧
          (c.proceed r).run t = (.ofError (.source e), t)) ∧
    (0 < limit → ∃ schedule p r, start.run tasks limit schedule = some p ∧
      p.outcome? = some (Pool.whole r) ∧ (c.run : StateM FileTree _).run t = (c.proceed r).run t) := by
  intro start tasks
  refine ⟨fun schedule p hrun => ?_, fun hlimit => ?_⟩
  · have hsound : p.Sound tasks := (Pool.Sound.start tasks).run hrun
    refine ⟨?_, fun hlimit hgoing => ?_, fun o ho => ?_⟩
    · have hrank := Pool.rank_run hrun
      rw [Pool.rank_start] at hrank
      omega
    · obtain ⟨i, q, hmove⟩ := hsound.exists_move hlimit hgoing
      exact ⟨i, q, Pool.step_eq_some_iff.mpr hmove⟩
    · obtain ⟨r, hr, hok, herror⟩ := hsound.outcome ho
      rw [c.ofFn_reading t] at hok
      refine ⟨r, hr, ⟨?_, fun hall => ?_⟩, fun units hunits => ?_, fun e he => ?_⟩
      · rintro ⟨units, hunits⟩ path hpath
        obtain ⟨u, -, hu⟩ := List.mem_map.mp (hok units hunits ▸ List.mem_map_of_mem hpath)
        exact ⟨u, hu.symm⟩
      · cases r with
        | ok units => exact ⟨units, rfl⟩
        | error e =>
          obtain ⟨i, hi⟩ := herror e rfl
          obtain ⟨u, hu⟩ := hall _ (List.get_mem c.inputs i)
          cases hi.symm.trans hu
      · rw [c.run_eq_proceed t, mapM_eq_ok_iff.mpr (hok units hunits), hunits]
        exact ⟨hok units hunits, rfl⟩
      · obtain ⟨i, hi⟩ := herror e he
        exact ⟨⟨_, List.get_mem c.inputs i, hi⟩, he ▸ rfl⟩
  · obtain ⟨schedule, p, hrun, hend⟩ := Pool.exists_run_in_order tasks hlimit
    rw [c.mapM_reading t] at hend
    exact ⟨schedule, p, _, hrun, hend, c.run_eq_proceed t⟩

/-- Three inputs that do not exist, two of them the same. The second worker fails after the first one and is
faster to have its error recorded, and the third one is called off. -/
theorem overtaken_failure_ends_run :
    let t : FileTree := { here := ["work"], entries := [(["work"], .directory)] }
    let c : Config := { Config.printing "a.json" with inputs := ["a.json", "b.json", "a.json"] }
    let stamps : MonadStamp (StateM FileTree) := ⟨pure ⟨"1", 0⟩, fun _ => pure ""⟩
    let e : SourceError := .unreadable "b.json" ⟨"open", "b.json", .notFound⟩
    ∃ p, ({} : Pool SourceUnit SourceError 3).run (c.reading t) 2 [0, 0, 0, 1, 1, 1, 1, 1, 2, 2, 0, 2] =
        some p ∧
      p.outcome? = some (.error (.failed e)) ∧
      (∃ path ∈ c.inputs, t.unitAt path = .error e) ∧
      (@Config.proceed stamps c (.error e)).run t = (.ofError (.source e), t) := by
  intro t c stamps e
  have hends : ((({} : Pool SourceUnit SourceError 3).run (c.reading t) 2
      [0, 0, 0, 1, 1, 1, 1, 1, 2, 2, 0, 2]).bind Pool.outcome?).bind errorOf? = some (.failed e) := by
    decide +kernel
  obtain ⟨o, ho, he⟩ := Option.bind_eq_some_iff.mp hends
  obtain ⟨p, hrun, hp⟩ := Option.bind_eq_some_iff.mp ho
  obtain ⟨r, hr, -, -, herror⟩ :=
    ((concurrent_reading_independent_of_schedule stamps c t 2).1 _ p hrun).2.2 o hp
  subst hr
  cases r with
  | ok units => cases he
  | error cause =>
    obtain rfl : cause = e := WorkerError.failed.inj (Option.some.inj he)
    exact ⟨p, hrun, hp, herror _ rfl⟩

end SlotBoard
