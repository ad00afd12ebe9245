import Mathlib.Data.List.Basic
import Mathlib.Logic.Basic

/-! # Partial labelled machines

A `Machine` has one initial state and a *partial* step function: `none` says that the label is not
enabled in that state. Because `step` is a function the runs of a machine can be evaluated
(`exec`), and because labels are kept the properties of runs can speak about what happened as well
as about where the run ended (`Run`).

* `Run.invariant` and `Reachable.invariant` — induction over runs, with and without the labels;
* `run_iff_exec` — the inductive and the executable view of a run agree;
* `Run.throughout_iff_everyStep` — a property that bad steps break, and no others, holds throughout a
  run iff none of its steps is bad;
* `Simulation` — every step of one machine is matched by a finite sequence of steps of another, so
  whatever holds in every reachable state of the second holds of the states related to the reachable
  states of the first. -/

namespace Transition

universe u v

/-- A **machine** over states `σ` and labels `α`: an initial state and a partial step function. -/
structure Machine (σ : Type u) (α : Type v) where
  /-- The state every run starts from. -/
  init : σ
  /-- The state reached by a label; `none` when the label is not enabled. -/
  step : σ → α → Option σ

namespace Machine

variable {σ : Type u} {α : Type v} (M : Machine σ α)

/-- `M.Run as s`: the labels `as`, oldest first, lead from the initial state to `s`. -/
inductive Run : List α → σ → Prop
  | nil : Run [] M.init
  | snoc {as : List α} {s s' : σ} {a : α} (run : Run as s) (step : M.step s a = some s') :
      Run (as ++ [a]) s'

/-- A state is **reachable** when some run ends in it. -/
def Reachable (s : σ) : Prop := ∃ as, M.Run as s

/-- Follow a list of labels from a given state. -/
def execFrom (s : σ) (as : List α) : Option σ := as.foldlM M.step s

/-- Follow a list of labels from the initial state. -/
def exec (as : List α) : Option σ := M.execFrom M.init as

@[simp] theorem execFrom_nil (s : σ) : M.execFrom s [] = some s := rfl

@[simp] theorem execFrom_cons (s : σ) (a : α) (as : List α) :
    M.execFrom s (a :: as) = (M.step s a).bind fun s' => M.execFrom s' as := rfl

/-- Labels followed in two parts. -/
theorem execFrom_append (s : σ) (as bs : List α) :
    M.execFrom s (as ++ bs) = (M.execFrom s as).bind fun s' => M.execFrom s' bs :=
  List.foldlM_append

/-- The initial state is reachable. -/
theorem reachable_init : M.Reachable M.init := ⟨[], .nil⟩

variable {M}

/-- A run extended by an executed list of labels is a run. -/
theorem Run.append {as bs : List α} {s s' : σ} (run : M.Run as s)
    (h : M.execFrom s bs = some s') : M.Run (as ++ bs) s' := by
  induction bs generalizing as s with
  | nil =>
    obtain rfl : s = s' := by simpa using h
    simpa using run
  | cons b bs ih =>
    obtain ⟨t, ht, hrest⟩ := Option.bind_eq_some_iff.mp h
    simpa using ih (run.snoc ht) hrest

/-- The inductive and the executable view of a run agree. -/
theorem run_iff_exec {as : List α} {s : σ} : M.Run as s ↔ M.exec as = some s := by
  constructor
  · intro run
    induction run with
    | nil => rfl
    | snoc run step ih =>
      rw [exec] at ih ⊢
      rw [execFrom_append, ih, Option.bind_some, execFrom_cons, step]
      rfl
  · intro h
    simpa using Run.append .nil h

/-- What evaluating the labels gives is so in the state that a run along them ends in. -/
theorem exists_run_of_map_exec {β : Type*} {as : List α} {f : σ → β} {b : β}
    (h : (M.exec as).map f = some b) : ∃ s, M.Run as s ∧ f s = b := by
  obtain ⟨s, hs, hb⟩ := Option.map_eq_some_iff.mp h
  exact ⟨s, run_iff_exec.mpr hs, hb⟩

/-- **Induction over runs**: what holds of the empty run and is kept by one more step holds of
every run. -/
theorem Run.invariant {P : List α → σ → Prop} (hinit : P [] M.init)
    (hstep : ∀ {as s a s'}, M.Run as s → P as s → M.step s a = some s' → P (as ++ [a]) s')
    {as : List α} {s : σ} (run : M.Run as s) : P as s := by
  induction run with
  | nil => exact hinit
  | snoc run step ih => exact hstep run ih step

/-- **Invariants**: what holds initially and is kept by every step from a reachable state holds in
every reachable state. -/
theorem Reachable.invariant {P : σ → Prop} (hinit : P M.init)
    (hstep : ∀ {s a s'}, M.Reachable s → P s → M.step s a = some s' → P s')
    {s : σ} (hs : M.Reachable s) : P s := by
  obtain ⟨as, run⟩ := hs
  exact run.invariant (P := fun _ s => P s) hinit fun run hP h => hstep ⟨_, run⟩ hP h

/-- A run cut anywhere is a run followed by an execution of the remaining labels. -/
theorem Run.split {as bs : List α} {s : σ} (run : M.Run (as ++ bs) s) :
    ∃ t, M.Run as t ∧ M.execFrom t bs = some s := by
  rw [run_iff_exec, exec, execFrom_append, Option.bind_eq_some_iff] at run
  obtain ⟨t, hpre, hrest⟩ := run
  exact ⟨t, run_iff_exec.mpr hpre, hrest⟩

/-- There is one run along given labels. -/
theorem Run.unique {as : List α} {s s' : σ} (run : M.Run as s) (run' : M.Run as s') : s = s' :=
  Option.some.inj ((run_iff_exec.mp run).symm.trans (run_iff_exec.mp run'))

/-! ### Properties along a run -/

variable (M) in
/-- `P` holds in every state the labels lead through, the first and the last included. -/
def Throughout (P : σ → Prop) (as : List α) : Prop :=
  ∀ start rest s, as = start ++ rest → M.Run start s → P s

variable (M) in
/-- `Q` holds of every step, as the state before it and its label. -/
def EveryStep (Q : σ → α → Prop) (as : List α) : Prop :=
  ∀ start a rest s, as = start ++ a :: rest → M.Run start s → Q s a

/-- The empty run leads through the initial state only. -/
theorem throughout_nil {P : σ → Prop} : M.Throughout P [] ↔ P M.init := by
  constructor
  · intro h
    exact h [] [] M.init rfl .nil
  · intro h start rest s hsplit run
    obtain ⟨rfl, rfl⟩ := List.append_eq_nil_iff.mp hsplit.symm
    rwa [run.unique .nil]

/-- One more step adds one more state. -/
theorem throughout_concat {P : σ → Prop} {as : List α} {a : α} {s : σ} (run : M.Run (as ++ [a]) s) :
    M.Throughout P (as ++ [a]) ↔ M.Throughout P as ∧ P s := by
  constructor
  · intro h
    refine ⟨fun start rest t hsplit => ?_, h (as ++ [a]) [] s (by simp) run⟩
    -- a state on the way through `as` is on the way through `as ++ [a]`
    exact h start (rest ++ [a]) t (by rw [hsplit, List.append_assoc])
  · rintro ⟨hpre, hlast⟩ start rest t hsplit runt
    -- either the whole list has been followed or its last label is still to come
    rcases List.eq_nil_or_concat rest with rfl | ⟨rest, b, rfl⟩
    · rw [List.append_nil] at hsplit
      subst hsplit
      rwa [runt.unique run]
    · rw [List.concat_eq_append, ← List.append_assoc] at hsplit
      exact hpre start rest t (List.append_inj_left' hsplit rfl) runt

/-- The empty run has no step. -/
theorem everyStep_nil {Q : σ → α → Prop} : M.EveryStep Q [] := by
  intro start a rest s hsplit
  simp at hsplit

/-- One more step adds one more step. -/
theorem everyStep_concat {Q : σ → α → Prop} {as : List α} {a : α} {s : σ} (run : M.Run as s) :
    M.EveryStep Q (as ++ [a]) ↔ M.EveryStep Q as ∧ Q s a := by
  constructor
  · intro h
    refine ⟨fun start b rest t hsplit => ?_, h as a [] s rfl run⟩
    exact h start b (rest ++ [a]) t (by rw [hsplit, List.append_assoc, List.cons_append])
  · rintro ⟨hpre, hlast⟩ start b rest t hsplit runt
    -- the step is the last one or an earlier one
    rcases List.eq_nil_or_concat rest with rfl | ⟨rest, c, rfl⟩
    · obtain ⟨rfl, hba⟩ := List.append_inj' hsplit rfl
      obtain rfl : a = b := List.head_eq_of_cons_eq hba
      rwa [runt.unique run]
    · rw [List.concat_eq_append, ← List.cons_append, ← List.append_assoc] at hsplit
      exact hpre start b rest t (List.append_inj_left' hsplit rfl) runt

/-- **A property that only bad steps break, and every bad step breaks**, holds throughout a run iff no
step of the run is bad. -/
theorem Run.throughout_iff_everyStep {P : σ → Prop} {bad : σ → α → Prop} (hinit : P M.init)
    (hstep : ∀ {s a s'}, M.Reachable s → P s → M.step s a = some s' → (P s' ↔ ¬ bad s a))
    {as : List α} {s : σ} (run : M.Run as s) :
    M.Throughout P as ↔ M.EveryStep (fun s a => ¬ bad s a) as := by
  induction run with
  | nil => exact iff_of_true (throughout_nil.mpr hinit) everyStep_nil
  | snoc run step ih =>
    rw [throughout_concat (run.snoc step), everyStep_concat run, ih]
    -- the two sides agree on the run so far, which therefore ends in a state with `P`
    refine and_congr_right fun hgood => hstep ⟨_, run⟩ ?_ step
    exact ih.mpr hgood _ [] _ (List.append_nil _).symm run

end Machine

/-! ## Simulation -/

/-- `Simulation M N R`: the states related by `R` start together, and every step of `M` from a
reachable state is matched by a finite sequence of steps of `N`. -/
structure Simulation {σ : Type u} {α : Type v} {τ : Type*} {β : Type*} (M : Machine σ α)
    (N : Machine τ β) (R : σ → τ → Prop) : Prop where
  /-- The initial states are related. -/
  init : R M.init N.init
  /-- Steps are matched. -/
  step : ∀ {s a s' t}, M.Reachable s → R s t → M.step s a = some s' →
    ∃ bs t', N.execFrom t bs = some t' ∧ R s' t'

/-- Every reachable state of the simulated machine is related to a reachable state of the other. -/
theorem Simulation.reachable {σ : Type u} {α : Type v} {τ : Type*} {β : Type*} {M : Machine σ α}
    {N : Machine τ β} {R : σ → τ → Prop} (sim : Simulation M N R) {s : σ} (hs : M.Reachable s) :
    ∃ t, N.Reachable t ∧ R s t := by
  refine hs.invariant (P := fun s => ∃ t, N.Reachable t ∧ R s t) ⟨_, N.reachable_init, sim.init⟩ ?_
  rintro s a s' hs ⟨t, ⟨as, run⟩, hR⟩ h
  obtain ⟨bs, t', ht', hR'⟩ := sim.step hs hR h
  exact ⟨t', ⟨as ++ bs, run.append ht'⟩, hR'⟩

end Transition
