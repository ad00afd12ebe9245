import Tinypinba.Shard

/-! # Chunk rotation

Once per pass `pinba_worker_loop` reads the clock, and when the reading is past `next` it asks for an
empty list; only when it gets one does it return its old list and move `next` to the reading plus the
period (`worker.cc`). Here the worker runs alone: what `get_emty_list` and `recv` return is part of the
label, so any pattern of successes and failures is a run. `shard_simulates_workerLoop` says that the
worker of a shard makes such runs.

`passesOf` cuts a run at its clock readings. `Recorded` is what holds of the passes so far and of the
worker: `next` is the deadline set by the last pass that rotated, and every pass that rotated was past
the deadline before it. -/

namespace Tinypinba

open Transition

/-! ## Time in microseconds -/

namespace Timeval

/-- A time as a number of microseconds. -/
def micros (t : Timeval) : ℤ := t.tvSec * 1000000 + t.tvUsec

/-- The microseconds are less than a second. -/
def Normal (t : Timeval) : Prop := 0 ≤ t.tvUsec ∧ t.tvUsec < 1000000

instance (t : Timeval) : Decidable t.Normal := inferInstanceAs (Decidable (_ ∧ _))

/-- `timercmp` compares normalised times as numbers of microseconds. -/
theorem timercmpLt_iff_micros {a b : Timeval} (ha : a.Normal) (hb : b.Normal) :
    timercmpLt a b ↔ a.micros < b.micros := by
  obtain ⟨ha, ha'⟩ := ha
  obtain ⟨hb, hb'⟩ := hb
  unfold timercmpLt micros
  split
  · simp only [decide_eq_true_eq]
    omega
  · simp only [decide_eq_true_eq]
    omega

/-- `timeradd` adds the microseconds. -/
theorem micros_timeradd (a b : Timeval) : (timeradd a b).micros = a.micros + b.micros := by
  unfold timeradd micros
  split <;> simp only <;> ring

/-- It carries, so the sum of normalised times is normalised. -/
theorem normal_timeradd {a b : Timeval} (ha : a.Normal) (hb : b.Normal) : (timeradd a b).Normal := by
  obtain ⟨ha, ha'⟩ := ha
  obtain ⟨hb, hb'⟩ := hb
  unfold timeradd Normal
  split
  · simp only
    omega
  · simp only
    omega

end Timeval

/-! ## The worker on its own -/

/-- A step of the worker loop, with what the call returned. -/
inductive LoopLabel (n : ℕ)
  /-- `gettimeofday` returned `cur`. -/
  | clock (cur : Timeval)
  /-- `get_emty_list` returned `newList`; `none` is `NULL`. -/
  | getEmtyList (newList : Option (Fin n))
  /-- `return_full_list(reports)` -/
  | returnFullList
  /-- `recv` and unpacking. -/
  | recv (outcome : RecvOutcome)
  /-- Visit the next request, or free the packet when there is none. -/
  | visit

namespace Worker

variable {n : ℕ}

/-- A step of `pinba_worker_loop`, as far as it concerns the worker's own variables. -/
def loopStep (period : Timeval) (w : Worker n) : LoopLabel n → Option (Worker n)
  | .clock cur =>
    match w.pc with
    | .top => some { w with pc := if timercmpLt w.next cur then .rotate cur else .recv }
    | _ => none
  | .getEmtyList newList =>
    match w.pc with
    | .rotate cur =>
      match newList, w.reports with
      | none, _ => some { w with pc := .recv }
      | some newList, none => some (.adopt period cur newList)
      | some newList, some _ => some { w with pc := .swap cur newList }
    | _ => none
  | .returnFullList =>
    match w.pc, w.reports with
    | .swap cur newList, some _ => some (.adopt period cur newList)
    | _, _ => none
  | .recv outcome =>
    match w.pc, outcome, w.reports with
    | .recv, .decoded request, some _ => some { w with pc := .visit [request] }
    | .recv, _, _ => some { w with pc := .top }
    | _, _, _ => none
  | .visit =>
    match w.pc with
    | .visit [] => some { w with pc := .top }
    | .visit (request :: todo) => some { w with pc := .visit (request.requests ++ todo) }
    | _ => none

end Worker

/-- The machine of a worker. -/
def workerLoop (n : ℕ) (period : Timeval) : Machine (Worker n) (LoopLabel n) :=
  ⟨.new, Worker.loopStep period⟩

namespace Worker

variable {n : ℕ} {period : Timeval} {w w' : Worker n}

/-- Everything a step of the worker can do. -/
inductive LoopCase (period : Timeval) (w : Worker n) : LoopLabel n → Worker n → Prop
  /-- The reading is past the deadline. -/
  | due (cur : Timeval) (pc : w.pc = .top) (past : timercmpLt w.next cur) :
      LoopCase period w (.clock cur) { w with pc := .rotate cur }
  /-- It is not. -/
  | early (cur : Timeval) (pc : w.pc = .top) (past : ¬ timercmpLt w.next cur) :
      LoopCase period w (.clock cur) { w with pc := .recv }
  /-- There is no list to be had. -/
  | starved (cur : Timeval) (pc : w.pc = .rotate cur) :
      LoopCase period w (.getEmtyList none) { w with pc := .recv }
  /-- The worker gets its first list. -/
  | first (cur : Timeval) (newList : Fin n) (pc : w.pc = .rotate cur) (reports : w.reports = none) :
      LoopCase period w (.getEmtyList (some newList)) (.adopt period cur newList)
  /-- It gets another list. -/
  | take (cur : Timeval) (newList old : Fin n) (pc : w.pc = .rotate cur) (reports : w.reports = some old) :
      LoopCase period w (.getEmtyList (some newList)) { w with pc := .swap cur newList }
  /-- It returns the old one. -/
  | giveBack (cur : Timeval) (newList old : Fin n) (pc : w.pc = .swap cur newList)
      (reports : w.reports = some old) :
      LoopCase period w .returnFullList (.adopt period cur newList)
  /-- It receives something, or nothing. -/
  | recv (outcome : RecvOutcome) (pc' : WorkerPc n) (pc : w.pc = .recv)
      (after : pc' = .top ∨ ∃ todo, pc' = .visit todo) :
      LoopCase period w (.recv outcome) { w with pc := pc' }
  /-- It works off the packet. -/
  | visit (todo : List PinbaRequest) (pc' : WorkerPc n) (pc : w.pc = .visit todo)
      (after : pc' = .top ∨ ∃ todo, pc' = .visit todo) :
      LoopCase period w .visit { w with pc := pc' }

/-- **Inversion**: every step of the worker is one of the cases. -/
theorem loopStep_cases {label : LoopLabel n} (h : w.loopStep period label = some w') :
    LoopCase period w label w' := by
  cases label with
  | clock cur =>
    simp only [loopStep] at h
    split at h
    · obtain rfl := Option.some.inj h
      by_cases hpast : timercmpLt w.next cur
      · rw [if_pos hpast]
        exact .due cur ‹_› hpast
      · rw [if_neg hpast]
        exact .early cur ‹_› hpast
    · cases h
  | getEmtyList newList =>
    simp only [loopStep] at h
    split at h
    · split at h
      · obtain rfl := Option.some.inj h
        exact .starved _ ‹_›
      · obtain rfl := Option.some.inj h
        exact .first _ _ ‹_› ‹_›
      · obtain rfl := Option.some.inj h
        exact .take _ _ _ ‹_› ‹_›
    · cases h
  | returnFullList =>
    simp only [loopStep] at h
    split at h
    · obtain rfl := Option.some.inj h
      exact .giveBack _ _ _ ‹_› ‹_›
    · cases h
  | recv outcome =>
    simp only [loopStep] at h
    split at h
    · obtain rfl := Option.some.inj h
      exact .recv _ _ ‹_› (.inr ⟨_, rfl⟩)
    · obtain rfl := Option.some.inj h
      exact .recv _ _ ‹_› (.inl rfl)
    · cases h
  | visit =>
    simp only [loopStep] at h
    split at h
    · obtain rfl := Option.some.inj h
      exact .visit _ _ ‹_› (.inl rfl)
    · obtain rfl := Option.some.inj h
      exact .visit _ _ ‹_› (.inr ⟨_, rfl⟩)
    · cases h

end Worker

/-- The end of a pass and the visits are no part of a rotation. -/
theorem WorkerPc.ne_of_after {n : ℕ} {pc : WorkerPc n} (h : pc = .top ∨ ∃ todo, pc = .visit todo) :
    (∀ cur, pc ≠ .rotate cur) ∧ ∀ cur newList, pc ≠ .swap cur newList := by
  rcases h with rfl | ⟨todo, rfl⟩
  · simp
  · simp

/-! ## Passes -/

/-- One pass of the loop: its clock reading, and the calls made since. -/
structure Pass (n : ℕ) where
  /-- What `gettimeofday` returned. -/
  cur : Timeval
  /-- The later steps of the pass, in order. -/
  calls : List (LoopLabel n)

section Passes

variable {n : ℕ}

/-- Whether a step is a successful `get_emty_list`. -/
def LoopLabel.gotList : LoopLabel n → Bool
  | .getEmtyList (some _) => true
  | _ => false

/-- Whether a step is a `return_full_list`. -/
def LoopLabel.gaveList : LoopLabel n → Bool
  | .returnFullList => true
  | _ => false

/-- A pass with a successful rotation. -/
def Pass.rotates (p : Pass n) : Bool := p.calls.any LoopLabel.gotList

/-- How often it calls `return_full_list`. -/
def Pass.returns (p : Pass n) : ℕ := p.calls.countP LoopLabel.gaveList

/-- Add a step to the passes so far, the latest pass first. -/
def notePass (passes : List (Pass n)) : LoopLabel n → List (Pass n)
  | .clock cur => ⟨cur, []⟩ :: passes
  | label =>
    match passes with
    | [] => []
    | p :: earlier => { p with calls := p.calls ++ [label] } :: earlier

/-- The passes of a run, the latest first. -/
def latestPasses (run : List (LoopLabel n)) : List (Pass n) := run.foldl notePass []

/-- The passes of a run, in order. -/
def passesOf (run : List (LoopLabel n)) : List (Pass n) := (latestPasses run).reverse

/-- A step that is no clock reading belongs to the latest pass. -/
theorem notePass_of_ne_clock {label : LoopLabel n} (h : ∀ cur, label ≠ .clock cur) (p : Pass n)
    (earlier : List (Pass n)) :
    notePass (p :: earlier) label = { p with calls := p.calls ++ [label] } :: earlier := by
  cases label with
  | clock cur => exact absurd rfl (h cur)
  | _ => rfl

@[simp] theorem Pass.rotates_concat (p : Pass n) (label : LoopLabel n) :
    ({ p with calls := p.calls ++ [label] } : Pass n).rotates = (p.rotates || label.gotList) := by
  simp [rotates]

@[simp] theorem Pass.returns_concat (p : Pass n) (label : LoopLabel n) :
    ({ p with calls := p.calls ++ [label] } : Pass n).returns =
      p.returns + if label.gaveList then 1 else 0 := by
  simp [returns, List.countP_singleton]

/-! ## Deadlines -/

variable (period : Timeval)

/-- The deadline set by the latest pass that rotated; `next` starts as `{0, 0}`. -/
def deadline (passes : List (Pass n)) : Timeval :=
  match passes.find? Pass.rotates with
  | none => .zero
  | some p => timeradd p.cur period

/-- What a pass owes to the earlier ones: it returns at most one list, and only when a list has been got
before, and it rotates only past the deadline. -/
structure PassOk (p : Pass n) (earlier : List (Pass n)) : Prop where
  /-- It returns at most one list. -/
  returns_le : p.returns ≤ 1
  /-- A list to return has been got earlier. -/
  returns_of : p.returns ≠ 0 → earlier.any Pass.rotates
  /-- It rotates only past the deadline. -/
  past : p.rotates → timercmpLt (deadline period earlier) p.cur

/-- Every pass is as it should be, the latest first. -/
def PassesOk : List (Pass n) → Prop
  | [] => True
  | p :: earlier => PassOk period p earlier ∧ PassesOk earlier

/-- The worker's variables against the passes so far: outside a rotation its list and its deadline are
those of the latest pass that rotated; inside one they still are those from before the current pass. -/
inductive Recorded (w : Worker n) : List (Pass n) → Prop
  /-- Outside a rotation. -/
  | settled (ps : List (Pass n)) (next : w.next = deadline period ps)
      (reports : w.reports.isSome = ps.any Pass.rotates)
      (rotate : ∀ cur, w.pc ≠ .rotate cur) (swap : ∀ cur newList, w.pc ≠ .swap cur newList)
      (pass : w.pc ≠ .top → ps ≠ []) : Recorded w ps
  /-- About to ask for a list. -/
  | asking (cur : Timeval) (earlier : List (Pass n)) (pc : w.pc = .rotate cur)
      (next : w.next = deadline period earlier) (reports : w.reports.isSome = earlier.any Pass.rotates)
      (past : timercmpLt w.next cur) : Recorded w (⟨cur, []⟩ :: earlier)
  /-- Holding a new list beside the old one. -/
  | swapping (p : Pass n) (newList : Fin n) (earlier : List (Pass n))
      (pc : w.pc = .swap p.cur newList) (rotates : p.rotates) (returns : p.returns = 0)
      (got : earlier.any Pass.rotates) : Recorded w (p :: earlier)

variable {period}

/-- A pass that does not rotate leaves the deadline. -/
theorem deadline_cons_of_not {p : Pass n} {earlier : List (Pass n)} (h : p.rotates = false) :
    deadline period (p :: earlier) = deadline period earlier := by
  rw [deadline, deadline, List.find?_cons_of_neg (by rw [h]; simp)]

/-- A pass that rotates sets it. -/
theorem deadline_cons {p : Pass n} {earlier : List (Pass n)} (h : p.rotates) :
    deadline period (p :: earlier) = timeradd p.cur period := by
  rw [deadline, List.find?_cons_of_pos h]

/-- A step that neither gets nor gives a list changes nothing in the account of its pass. -/
theorem PassOk.concat {p : Pass n} {earlier : List (Pass n)} (h : PassOk period p earlier)
    {label : LoopLabel n} (hgot : label.gotList = false) (hgave : label.gaveList = false) :
    PassOk period { p with calls := p.calls ++ [label] } earlier where
  returns_le := by
    rw [Pass.returns_concat, hgave]
    exact h.returns_le
  returns_of := by
    rw [Pass.returns_concat, hgave]
    exact h.returns_of
  past := by
    rw [Pass.rotates_concat, hgot, Bool.or_false]
    exact h.past

/-! ## A step -/

variable {w w' : Worker n} {ps : List (Pass n)}

/-- About to rotate, the worker has just begun a pass, past its deadline. -/
theorem Recorded.of_rotate {cur : Timeval} (h : Recorded period w ps) (hpc : w.pc = .rotate cur) :
    ∃ earlier, ps = ⟨cur, []⟩ :: earlier ∧ w.next = deadline period earlier ∧
      w.reports.isSome = earlier.any Pass.rotates ∧ timercmpLt w.next cur := by
  cases h with
  | settled _ _ _ rotate _ _ => exact absurd hpc (rotate cur)
  | asking cur' earlier pc next reports past =>
    obtain rfl : cur' = cur := WorkerPc.rotate.inj (pc.symm.trans hpc)
    exact ⟨earlier, rfl, next, reports, past⟩
  | swapping _ _ _ pc _ _ _ =>
    rw [pc] at hpc
    cases hpc

/-- With two lists in hand, it is in a pass that rotates and has returned nothing yet. -/
theorem Recorded.of_swap {cur : Timeval} {newList : Fin n} (h : Recorded period w ps)
    (hpc : w.pc = .swap cur newList) :
    ∃ p earlier, ps = p :: earlier ∧ p.cur = cur ∧ p.rotates ∧ p.returns = 0 ∧
      earlier.any Pass.rotates := by
  cases h with
  | settled _ _ _ _ swap _ => exact absurd hpc (swap cur newList)
  | asking _ _ pc _ _ _ =>
    rw [pc] at hpc
    cases hpc
  | swapping p _ earlier pc rotates returns got =>
    obtain ⟨hcur, -⟩ := WorkerPc.swap.inj (pc.symm.trans hpc)
    exact ⟨p, earlier, rfl, hcur, rotates, returns, got⟩

/-- Elsewhere its deadline and its list are those of the passes so far. -/
theorem Recorded.of_settled (h : Recorded period w ps) (hrotate : ∀ cur, w.pc ≠ .rotate cur)
    (hswap : ∀ cur newList, w.pc ≠ .swap cur newList) :
    w.next = deadline period ps ∧ w.reports.isSome = ps.any Pass.rotates ∧ (w.pc ≠ .top → ps ≠ []) := by
  cases h with
  | settled _ next reports _ _ pass => exact ⟨next, reports, pass⟩
  | asking _ _ pc _ _ _ => exact absurd pc (hrotate _)
  | swapping _ _ _ pc _ _ _ => exact absurd pc (hswap _ _)

/-- Outside a rotation, a step that keeps the worker's variables and neither gets nor gives a list. -/
theorem Recorded.keep (hok : PassesOk period ps) (h : Recorded period w ps)
    (hrotate : ∀ cur, w.pc ≠ .rotate cur) (hswap : ∀ cur newList, w.pc ≠ .swap cur newList)
    (htop : w.pc ≠ .top) {label : LoopLabel n} (hclock : ∀ cur, label ≠ .clock cur)
    (hgot : label.gotList = false) (hgave : label.gaveList = false) {pc' : WorkerPc n}
    (hpc' : pc' = .top ∨ ∃ todo, pc' = .visit todo) :
    PassesOk period (notePass ps label) ∧ Recorded period { w with pc := pc' } (notePass ps label) := by
  obtain ⟨hnext, hreports, hpass⟩ := h.of_settled hrotate hswap
  obtain ⟨p, earlier, rfl⟩ := List.exists_cons_of_ne_nil (hpass htop)
  rw [notePass_of_ne_clock hclock]
  have hsame : ({ p with calls := p.calls ++ [label] } : Pass n).rotates = p.rotates := by
    rw [Pass.rotates_concat, hgot, Bool.or_false]
  refine ⟨⟨hok.1.concat hgot hgave, hok.2⟩, .settled _ ?_ ?_ ?_ ?_ fun _ => List.cons_ne_nil _ _⟩
  · cases hp : p.rotates with
    | true => rw [deadline_cons (hsame.trans hp), hnext, deadline_cons hp]
    | false => rw [deadline_cons_of_not (hsame.trans hp), hnext, deadline_cons_of_not hp]
  · rw [hreports, List.any_cons, List.any_cons, hsame]
  · exact (WorkerPc.ne_of_after hpc').1
  · exact (WorkerPc.ne_of_after hpc').2

/-- A pass owes nothing yet when its clock is read. -/
theorem PassOk.fresh (cur : Timeval) (earlier : List (Pass n)) :
    PassOk period (⟨cur, []⟩ : Pass n) earlier where
  returns_le := Nat.zero_le _
  returns_of h := absurd rfl h
  past h := by cases h

/-- A successful `get_emty_list` right after the reading, past the deadline. -/
theorem PassOk.got {cur : Timeval} {earlier : List (Pass n)} (newList : Fin n)
    (hpast : timercmpLt (deadline period earlier) cur) :
    PassOk period (⟨cur, [.getEmtyList (some newList)]⟩ : Pass n) earlier where
  returns_le := Nat.zero_le _
  returns_of h := absurd rfl h
  past _ := hpast

/-- **One step** keeps the account of the passes and what it says of the worker. -/
theorem Recorded.step (hok : PassesOk period ps) (h : Recorded period w ps) {label : LoopLabel n}
    (hstep : w.loopStep period label = some w') :
    PassesOk period (notePass ps label) ∧ Recorded period w' (notePass ps label) := by
  cases Worker.loopStep_cases hstep with
  | due cur pc past =>
    obtain ⟨hnext, hreports, -⟩ := h.of_settled (by simp [pc]) (by simp [pc])
    exact ⟨⟨.fresh cur ps, hok⟩, .asking cur ps rfl hnext hreports past⟩
  | early cur pc past =>
    obtain ⟨hnext, hreports, -⟩ := h.of_settled (by simp [pc]) (by simp [pc])
    -- a pass that does not ask for a list leaves the deadline
    have hdeadline : deadline period ((⟨cur, []⟩ : Pass n) :: ps) = deadline period ps :=
      deadline_cons_of_not rfl
    exact ⟨⟨.fresh cur ps, hok⟩, .settled _ (hnext.trans hdeadline.symm) hreports (by simp) (by simp)
      fun _ => List.cons_ne_nil _ _⟩
  | starved cur pc =>
    obtain ⟨earlier, rfl, hnext, hreports, -⟩ := h.of_rotate pc
    have hdeadline : deadline period ((⟨cur, [.getEmtyList none]⟩ : Pass n) :: earlier) =
        deadline period earlier := deadline_cons_of_not rfl
    exact ⟨⟨hok.1.concat rfl rfl, hok.2⟩, .settled _ (hnext.trans hdeadline.symm) hreports (by simp)
      (by simp) fun _ => List.cons_ne_nil _ _⟩
  | first cur newList pc reports =>
    obtain ⟨earlier, rfl, hnext, -, hpast⟩ := h.of_rotate pc
    rw [hnext] at hpast
    have hdeadline : deadline period ((⟨cur, [.getEmtyList (some newList)]⟩ : Pass n) :: earlier) =
        timeradd cur period := deadline_cons rfl
    exact ⟨⟨.got newList hpast, hok.2⟩, .settled _ hdeadline.symm rfl (by simp [Worker.adopt])
      (by simp [Worker.adopt]) fun _ => List.cons_ne_nil _ _⟩
  | take cur newList old pc reports =>
    obtain ⟨earlier, rfl, hnext, hreports, hpast⟩ := h.of_rotate pc
    rw [hnext] at hpast
    -- the worker has an old list, so an earlier pass got one
    have hgot : earlier.any Pass.rotates := by rw [← hreports, reports]; rfl
    exact ⟨⟨.got newList hpast, hok.2⟩, .swapping _ newList earlier rfl rfl rfl hgot⟩
  | giveBack cur newList old pc reports =>
    obtain ⟨p, earlier, rfl, rfl, hrotates, hreturns, hgot⟩ := h.of_swap pc
    rw [notePass_of_ne_clock (by simp)]
    have hrotates' : ({ p with calls := p.calls ++ [.returnFullList] } : Pass n).rotates := by
      rw [Pass.rotates_concat, hrotates]
      rfl
    have hreturns' : ({ p with calls := p.calls ++ [.returnFullList] } : Pass n).returns = 1 := by
      rw [Pass.returns_concat, hreturns]
      rfl
    refine ⟨⟨⟨hreturns'.le, fun _ => hgot, fun _ => hok.1.past hrotates⟩, hok.2⟩,
      .settled _ (deadline_cons hrotates').symm ?_ (by simp [Worker.adopt]) (by simp [Worker.adopt])
        fun _ => List.cons_ne_nil _ _⟩
    rw [List.any_cons, hrotates']
    rfl
  | recv outcome pc' pc after =>
    exact h.keep hok (by simp [pc]) (by simp [pc]) (by simp [pc]) (by simp) rfl rfl after
  | visit todo pc' pc after =>
    exact h.keep hok (by simp [pc]) (by simp [pc]) (by simp [pc]) (by simp) rfl rfl after

/-- **Every run** is accounted for. -/
theorem recorded_of_run {run : List (LoopLabel n)} (h : (workerLoop n period).Run run w) :
    PassesOk period (latestPasses run) ∧ Recorded period w (latestPasses run) := by
  induction h with
  | nil =>
    have htop : (workerLoop n period).init.pc = .top := rfl
    exact ⟨trivial, .settled _ rfl rfl (by simp [htop]) (by simp [htop]) fun h => absurd htop h⟩
  | snoc _ hstep ih =>
    rw [latestPasses, List.foldl_append]
    exact ih.2.step ih.1 hstep

/-! ## Whole runs -/

/-- In a good account every pass owes nothing to the ones before it. -/
theorem PassesOk.of_append {later earlier : List (Pass n)} {p : Pass n}
    (h : PassesOk period (later ++ p :: earlier)) : PassOk period p earlier := by
  induction later with
  | nil => exact h.1
  | cons q later ih => exact ih h.2

/-- The reading of a pass is a reading of the run. -/
theorem clock_mem_of_mem_latestPasses {run : List (LoopLabel n)} {p : Pass n}
    (h : p ∈ latestPasses run) : .clock p.cur ∈ run := by
  induction run using List.reverseRecOn generalizing p with
  | nil => cases h
  | append_singleton run label ih =>
    rw [latestPasses, List.foldl_append] at h
    change p ∈ notePass (latestPasses run) label at h
    by_cases hclock : ∃ cur, label = .clock cur
    · obtain ⟨cur, rfl⟩ := hclock
      rcases List.mem_cons.mp h with rfl | h
      · exact List.mem_append_right _ List.mem_cons_self
      · exact List.mem_append_left _ (ih h)
    · -- the step joins the latest pass, and its reading stays
      rw [not_exists] at hclock
      cases hps : latestPasses run with
      | nil =>
        rw [hps] at h
        cases label with
        | clock cur => exact absurd rfl (hclock cur)
        | _ => cases h
      | cons q earlier =>
        rw [hps, notePass_of_ne_clock hclock] at h
        rcases List.mem_cons.mp h with rfl | h
        · exact List.mem_append_left _ (ih (p := q) (hps ▸ List.mem_cons_self))
        · exact List.mem_append_left _ (ih (hps ▸ List.mem_cons_of_mem _ h))

/-- The passes from the latest on, when those in order are split at one of them. -/
theorem latestPasses_eq {run : List (LoopLabel n)} {before after : List (Pass n)} {p : Pass n}
    (h : passesOf run = before ++ p :: after) :
    latestPasses run = after.reverse ++ p :: before.reverse := by
  rw [← List.reverse_reverse (latestPasses run), ← passesOf, h]
  simp

/-- **What a pass of a run owes** to those before it. -/
theorem passOk_of_run {run : List (LoopLabel n)} (hrun : (workerLoop n period).Run run w)
    {before after : List (Pass n)} {p : Pass n} (h : passesOf run = before ++ p :: after) :
    PassOk period p before.reverse := by
  have hok := (recorded_of_run hrun).1
  rw [latestPasses_eq h] at hok
  exact hok.of_append

/-- The deadline after a pass that rotated, while no later one has. -/
theorem deadline_append {mid earlier : List (Pass n)} {p : Pass n} (hp : p.rotates)
    (hmid : ∀ r ∈ mid, r.rotates = false) :
    deadline period (mid ++ p :: earlier) = timeradd p.cur period := by
  induction mid with
  | nil => exact deadline_cons hp
  | cons r mid ih =>
    obtain ⟨hr, hmid⟩ := List.forall_mem_cons.mp hmid
    rw [List.cons_append, deadline_cons_of_not hr, ih hmid]

/-- A step that gets no list, outside a swap, keeps the worker's variables. -/
theorem loopStep_keeps {label : LoopLabel n} (h : w.loopStep period label = some w')
    (hgot : label.gotList = false) (hswap : ∀ cur newList, w.pc ≠ .swap cur newList) :
    w'.reports = w.reports ∧ w'.next = w.next ∧ ∀ cur newList, w'.pc ≠ .swap cur newList := by
  cases Worker.loopStep_cases h with
  | due | early | starved => exact ⟨rfl, rfl, by simp⟩
  | first | take => cases hgot
  | giveBack cur newList old pc => exact absurd pc (hswap cur newList)
  | recv _ _ _ after | visit _ _ _ after => exact ⟨rfl, rfl, (WorkerPc.ne_of_after after).2⟩

/-- So do any number of them. -/
theorem execFrom_keeps {calls : List (LoopLabel n)}
    (h : (workerLoop n period).execFrom w calls = some w')
    (hgot : ∀ label ∈ calls, label.gotList = false) (hswap : ∀ cur newList, w.pc ≠ .swap cur newList) :
    w'.reports = w.reports ∧ w'.next = w.next := by
  induction calls generalizing w with
  | nil =>
    obtain rfl : w = w' := by simpa using h
    exact ⟨rfl, rfl⟩
  | cons label calls ih =>
    obtain ⟨t, ht, hrest⟩ := Option.bind_eq_some_iff.mp h
    obtain ⟨hlabel, hcalls⟩ := List.forall_mem_cons.mp hgot
    obtain ⟨hreports, hnext, hswap'⟩ := loopStep_keeps ht hlabel hswap
    obtain ⟨hreports', hnext'⟩ := ih hrest hcalls hswap'
    exact ⟨hreports'.trans hreports, hnext'.trans hnext⟩

end Passes

section Spacing

variable {n : ℕ} {period : Timeval} {w : Worker n}

/-- **Rotations are spaced by the period.** In every run of the worker with a normalised period and
normalised clock readings, whatever `get_emty_list` and `recv` return: a pass calls `return_full_list`
at most once, and not at all while no earlier pass has rotated; the readings of two consecutive passes
that rotated are more than the period apart; and when `get_emty_list` returns `NULL`, the worker's list
and its deadline are as before until a list is got, and every pass in between whose reading is past that
same deadline asks again. -/
theorem rotation_spaced (hperiod : period.Normal) {run : List (LoopLabel n)}
    (h : (workerLoop n period).Run run w) (hclock : ∀ cur, .clock cur ∈ run → cur.Normal) :
    (∀ p ∈ passesOf run, p.returns ≤ 1) ∧
    (∀ before p after, passesOf run = before ++ p :: after → (∀ q ∈ before, q.rotates = false) →
      p.returns = 0) ∧
    (∀ before p mid q after, passesOf run = before ++ p :: (mid ++ q :: after) → p.rotates → q.rotates →
      (∀ r ∈ mid, r.rotates = false) → p.cur.micros + period.micros < q.cur.micros) ∧
    ∀ cur w₁, w.pc = .rotate cur → w.loopStep period (.getEmtyList none) = some w₁ →
      ∀ calls w₂, (workerLoop n period).execFrom w₁ calls = some w₂ →
        (∀ label ∈ calls, label.gotList = false) →
        w₂.reports = w.reports ∧ w₂.next = w.next ∧
        (w₂.pc = .top → ∀ cur', ∃ w₃, w₂.loopStep period (.clock cur') = some w₃ ∧
          (w₃.pc = .rotate cur' ↔ timercmpLt w.next cur')) := by
  have hnormal : ∀ before p after, passesOf run = before ++ p :: after → p.cur.Normal := by
    intro before p after hsplit
    refine hclock _ (clock_mem_of_mem_latestPasses ?_)
    rw [latestPasses_eq hsplit]
    exact List.mem_append_right _ List.mem_cons_self
  refine ⟨?_, ?_, ?_, ?_⟩
  · intro p hp
    obtain ⟨before, after, hsplit⟩ := List.append_of_mem hp
    exact (passOk_of_run h hsplit).returns_le
  · intro before p after hsplit hbefore
    by_contra hreturns
    obtain ⟨q, hq, hrotates⟩ := List.any_eq_true.mp ((passOk_of_run h hsplit).returns_of hreturns)
    rw [hbefore q (List.mem_reverse.mp hq)] at hrotates
    cases hrotates
  · intro before p mid q after hsplit hp hq hmid
    have hsplit' : passesOf run = (before ++ p :: mid) ++ q :: after := by
      rw [hsplit, List.append_assoc, List.cons_append]
    have hpast := (passOk_of_run h hsplit').past hq
    have hreverse : (before ++ p :: mid).reverse = mid.reverse ++ p :: before.reverse := by simp
    rw [hreverse, deadline_append hp fun r hr => hmid r (List.mem_reverse.mp hr)] at hpast
    -- in microseconds, the deadline is the earlier reading plus the period
    have hdeadline := Timeval.normal_timeradd (hnormal _ _ _ hsplit) hperiod
    rw [Timeval.timercmpLt_iff_micros hdeadline (hnormal _ _ _ hsplit'), Timeval.micros_timeradd] at hpast
    exact hpast
  · intro cur w₁ hpc hstep calls w₂ hcalls hgot
    obtain ⟨hreports, hnext, hswap⟩ := loopStep_keeps hstep rfl (by simp [hpc])
    obtain ⟨hreports', hnext'⟩ := execFrom_keeps hcalls hgot hswap
    refine ⟨hreports'.trans hreports, hnext'.trans hnext, fun htop cur' => ?_⟩
    rw [← hnext, ← hnext']
    refine ⟨{ w₂ with pc := if timercmpLt w₂.next cur' then .rotate cur' else .recv },
      by simp only [Worker.loopStep, htop], ?_⟩
    by_cases hpast : timercmpLt w₂.next cur' <;> simp [hpast]

end Spacing

/-- A worker that rotates, finds no list on its next pass, and rotates on the one after that. -/
def lateList : List (LoopLabel 2) :=
  [.clock ⟨1, 0⟩, .getEmtyList (some 0), .recv .empty,
    .clock ⟨3, 0⟩, .getEmtyList none, .recv .empty,
    .clock ⟨2, 500000⟩, .getEmtyList (some 1), .returnFullList, .recv .empty]

/-- The second rotation comes more than a period after the first, although its list came late. -/
theorem rotation_spaced_lateList :
    ∃ w, (workerLoop 2 ⟨1, 0⟩).Run lateList w ∧ (∀ p ∈ passesOf lateList, p.returns ≤ 1) ∧
      (⟨1, 0⟩ : Timeval).micros + (⟨1, 0⟩ : Timeval).micros < (⟨2, 500000⟩ : Timeval).micros := by
  obtain ⟨w, hw⟩ : ∃ w, (workerLoop 2 ⟨1, 0⟩).Run lateList w := ⟨_, Machine.run_iff_exec.mpr rfl⟩
  have hclock : ∀ cur, .clock cur ∈ lateList → cur.Normal := by
    intro cur hcur
    simp only [lateList, List.mem_cons, LoopLabel.clock.injEq, reduceCtorEq, List.not_mem_nil,
      or_false, false_or] at hcur
    rcases hcur with rfl | rfl | rfl <;> decide
  obtain ⟨hreturns, -, hspaced, -⟩ := rotation_spaced (by decide) hw hclock
  exact ⟨w, hw, hreturns, hspaced [] _ [_] _ [] rfl rfl rfl (by simp [Pass.rotates, LoopLabel.gotList])⟩

/-! ## The worker of a shard -/

/-- One step of the worker, as a run of the machine. -/
theorem execFrom_one {n : ℕ} {period : Timeval} {w w' : Worker n} (label : LoopLabel n)
    (h : w.loopStep period label = some w') :
    ∃ labels t, (workerLoop n period).execFrom w labels = some t ∧ w' = t := by
  refine ⟨[label], w', ?_, rfl⟩
  rw [Machine.execFrom_cons]
  show (w.loopStep period label).bind _ = _
  rw [h]
  rfl

/-- **The worker of a shard is such a worker**: every step of the shard is one of its steps, with the
results the container gives, or does not concern its variables. -/
theorem shard_simulates_workerLoop {P : Type} (V : ReportClasses P) (n : ℕ) (period : Timeval) :
    Simulation (shard V n period) (workerLoop n period) fun s w => s.worker = w where
  init := rfl
  step := by
    rintro s label s' _ - rfl h
    cases Shard.step_cases h with
    | clock cur pc =>
      exact execFrom_one (.clock cur) (by simp only [Worker.loopStep, pc, Shard.setPc])
    | starved cur pc =>
      exact execFrom_one (.getEmtyList none) (by simp only [Worker.loopStep, pc, Shard.setPc])
    | first cur newList rest pc _ reports =>
      exact execFrom_one (.getEmtyList (some newList)) (by simp only [Worker.loopStep, pc, reports])
    | take cur newList old rest pc _ reports =>
      exact execFrom_one (.getEmtyList (some newList))
        (by simp only [Worker.loopStep, pc, reports, Shard.setPc])
    | giveBack cur newList old pc reports =>
      exact execFrom_one .returnFullList (by simp only [Worker.loopStep, pc, reports])
    | unusable outcome pc | discard request pc reports =>
      exact execFrom_one (.recv .empty) (by simp only [Worker.loopStep, pc, Shard.setPc])
    | unpack request chunk pc reports =>
      exact execFrom_one (.recv (.decoded request))
        (by simp only [Worker.loopStep, pc, reports, Shard.setPc])
    | finish pc | record request todo chunk pc | malformed request todo chunk pc =>
      exact execFrom_one .visit (by simp only [Worker.loopStep, pc, Shard.setPc])
    | delRequest | noFull | fetch | merge | apply | publish | addReport | delReport =>
      exact ⟨[], s.worker, rfl, rfl⟩

end Tinypinba
