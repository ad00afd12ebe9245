import Tinypinba.ChunkOwnership
import Tinypinba.ReportManager

/-! # The pipeline

All threads of the program together: any number of workers, each with its own container, one
`merge_loop` (`merger.cc`) that goes round the containers, one console thread that calls
`add_new_report`, and a reader of the main list. A step is one container, list or manager call.

`merge_loop` is the pair `found`, `i` of its local variables beside the list it holds, which is kept in
the shard it comes from. `add_new_report` is a counter of the containers it has already issued its
command on, followed by one step for the insertion into the main list; `execFrom_addNewReport` shows
that these steps taken together are the `addNewReport` of the report manager.

`shard_simulation` and `main_simulation` are the two projections: the pipeline runs a shard for every
container and the machine of the main list, so that what holds there holds in the pipeline. -/

namespace Tinypinba

open CommandLog Transition
open Function (update)

variable {P : Type} (V : ReportClasses P) {count : ℕ} {chunks : Fin count → ℕ} (period : Timeval)

/-- A request recorded in the worker's current list, or taken off it again. -/
structure Recording (P : Type) where
  /-- The list, before. -/
  list : ReportList P
  /-- The request. -/
  request : PinbaRequest
  /-- By `del_request_from_reports`. -/
  removed : Bool

/-- Where the console thread is. -/
inductive Console (P : Type)
  /-- Outside `add_new_report`. -/
  | idle
  /-- In `add_new_report(producer, type)`, with the command issued on the first `next` containers. -/
  | adding (producer : P) (type : StdString) (next : ℕ)

/-- The local variables of `merge_loop`. -/
structure MergeLoop where
  /-- `found` -/
  found : Bool
  /-- `i` -/
  i : ℕ

/-- The whole program, and two histories. -/
structure Pipeline (P : Type) {count : ℕ} (chunks : Fin count → ℕ) where
  /-- The containers, each with its worker and the merger's hand on it. -/
  shards : ∀ i, Shard P (chunks i)
  /-- The main list and its reader. -/
  main : MainList P
  /-- The console thread. -/
  console : Console P
  /-- The merger. -/
  mergeLoop : MergeLoop
  /-- History: what the workers recorded, in order. -/
  recordings : List (Recording P)
  /-- History: the types that the last merge of a chunk skipped. -/
  skippedBy : ∀ i, Fin (chunks i) → List StdString

/-- A call of the reader. -/
inductive ReaderCall
  | getReport (type : StdString)
  | readEntries
  | returnReport

/-- A reader's call as a call on the main list. -/
def ReaderCall.label : ReaderCall → MainLabel P
  | .getReport type => .getReport type
  | .readEntries => .readEntries
  | .returnReport => .returnReport

/-- Whose step it is. -/
inductive PipelineLabel (P : Type) (count : ℕ)
  /-- The worker of a container. -/
  | worker (i : Fin count) (label : WorkerLabel)
  /-- The merger. -/
  | merger
  /-- The console thread calls `add_new_report`. -/
  | addNewReport (producer : P) (type : StdString)
  /-- The console thread goes on with it. -/
  | console
  /-- The reader. -/
  | reader (call : ReaderCall)

/-- What a step of a worker records: a well-formed request it visits, or one it takes off again. -/
def Shard.recording {n : ℕ} (s : Shard P n) : WorkerLabel → Option (Recording P)
  | .visit =>
    match s.worker.pc, s.worker.reports with
    | .visit (request :: _), some chunk =>
      if (requestCheck (some request)).1 = 0 then
        some ⟨s.container.reportChunks chunk, request, false⟩
      else none
    | _, _ => none
  | .delRequest request =>
    s.worker.reports.map fun chunk => ⟨s.container.reportChunks chunk, request, true⟩
  | _ => none

variable {V} in
/-- The calls of a reader do not touch the list. -/
theorem MainList.list_of_reader {s s' : MainList P} {call : ReaderCall}
    (h : s.step V call.label = some s') : s'.shared.list = s.shared.list := by
  cases call with
  | getReport type =>
    cases step_cases h
    rfl
  | readEntries =>
    cases step_cases h
    rfl
  | returnReport =>
    cases step_cases h
    rfl

namespace Shard

variable {n : ℕ}

/-- The shard when `merge_reports` has left this in the list the merger holds. -/
def mergedAs (s : Shard P n) (reports : Fin n) (list : ReportList P) : Shard P n :=
  { s with container := s.container.setChunk reports list, merger := .merged reports }

/-- No deletion is pending for any chunk. -/
def OnlyAdds (s : Shard P n) : Prop :=
  ∀ chunk, ∀ cmd ∈ s.container.cmdMap chunk, cmd.producer.isSome

/-- Nothing is pending at the start. -/
theorem onlyAdds_new (P : Type) (n : ℕ) : (new P n).OnlyAdds := fun _ _ hcmd =>
  absurd hcmd List.not_mem_nil

variable {V period}

/-- Only issuing a deletion could change that. -/
theorem OnlyAdds.step {s s' : Shard P n} (h : s.OnlyAdds) {label : ShardLabel P}
    (hstep : s.step V period label = some s') (hlabel : ∀ type, label ≠ .delReport type) :
    s'.OnlyAdds := by
  cases step_cases hstep with
  | apply reports merger =>
    -- the queue of the chunk is empty now, the others are as they were
    intro chunk cmd hcmd
    by_cases hchunk : chunk = reports
    · subst hchunk
      simp at hcmd
    · exact h chunk cmd (by simpa [hchunk] using hcmd)
  | addReport producer type =>
    intro chunk cmd hcmd
    simp only [ReportContainer.cmdMap_addReport, List.mem_append, List.mem_singleton] at hcmd
    rcases hcmd with hcmd | rfl
    · exact h chunk cmd hcmd
    · rfl
  | delReport type => exact absurd rfl (hlabel type)
  | _ => exact h

end Shard

namespace Pipeline

/-- The program before its threads have started. -/
def new (P : Type) {count : ℕ} (chunks : Fin count → ℕ) : Pipeline P chunks where
  shards i := .new P (chunks i)
  main := .new
  console := .idle
  mergeLoop := ⟨false, 0⟩
  recordings := []
  skippedBy _ _ := []

/-- Replace a shard. -/
def setShard (s : Pipeline P chunks) (i : Fin count) (shard : Shard P (chunks i)) :
    Pipeline P chunks :=
  { s with shards := update s.shards i shard }

@[simp] theorem shards_setShard_self (s : Pipeline P chunks) (i : Fin count)
    (shard : Shard P (chunks i)) : (s.setShard i shard).shards i = shard :=
  Function.update_self _ _ _

/-- The other shards stay as they are. -/
theorem shards_setShard_of_ne (s : Pipeline P chunks) {i j : Fin count} (shard : Shard P (chunks j))
    (h : i ≠ j) : (s.setShard j shard).shards i = s.shards i :=
  Function.update_of_ne h _ _

@[simp] theorem main_setShard (s : Pipeline P chunks) (i : Fin count) (shard : Shard P (chunks i)) :
    (s.setShard i shard).main = s.main := rfl

/-- The next step of `merge_loop` in the round for container `i`. -/
def mergeStep (s : Pipeline P chunks) (i : Fin count) : Option (Pipeline P chunks) :=
  match (s.shards i).merger with
  | .idle =>
    ((s.shards i).step V period .getFullList).map fun shard =>
      { s.setShard i shard with
        -- without a list this container is done with, with one `found = true`
        mergeLoop :=
          if shard.merger = .idle then { s.mergeLoop with i := s.mergeLoop.i + 1 }
          else { s.mergeLoop with found := true } }
  | .took reports =>
    (((s.shards i).container.reportChunks reports).mergeReports V s.main.shared.list).map
      fun merging =>
        { s.setShard i ((s.shards i).mergedAs reports merging.list) with
          main := { s.main with shared := { s.main.shared with list := merging.main } }
          skippedBy := update s.skippedBy i (update (s.skippedBy i) reports merging.skipped) }
  | .merged _ => ((s.shards i).step V period .applyCommands).map (s.setShard i)
  | .applied _ =>
    ((s.shards i).step V period .pushEmpty).map fun shard =>
      { s.setShard i shard with mergeLoop := { s.mergeLoop with i := s.mergeLoop.i + 1 } }

/-- The next step of `add_new_report`. -/
def consoleStep (s : Pipeline P chunks) : Option (Pipeline P chunks) :=
  match s.console with
  | .idle => none
  | .adding producer type next =>
    if h : next < count then
      ((s.shards ⟨next, h⟩).step V period (.addReport producer type)).map fun shard =>
        { s.setShard ⟨next, h⟩ shard with console := .adding producer type (next + 1) }
    else
      match createReport V producer with
      | none => some { s with console := .idle }
      | some report =>
        (s.main.step V (.addReport report type)).map fun main =>
          { s with main := main, console := .idle }

/-- A step of the program. -/
def step (s : Pipeline P chunks) : PipelineLabel P count → Option (Pipeline P chunks)
  | .worker i label =>
    ((s.shards i).step V period (.worker label)).map fun shard =>
      { s.setShard i shard with
        recordings := s.recordings ++ ((s.shards i).recording label).toList }
  | .merger =>
    -- past the last container the loop sleeps if it found nothing, and starts over
    if h : s.mergeLoop.i < count then s.mergeStep V period ⟨s.mergeLoop.i, h⟩
    else some { s with mergeLoop := ⟨false, 0⟩ }
  | .addNewReport producer type =>
    match s.console with
    | .idle => some { s with console := .adding producer type 0 }
    | .adding .. => none
  | .console => s.consoleStep V period
  | .reader call => (s.main.step V call.label).map fun main => { s with main := main }

end Pipeline

/-- The machine of the program. -/
def pipeline (chunks : Fin count → ℕ) : Machine (Pipeline P chunks) (PipelineLabel P count) :=
  ⟨.new P chunks, Pipeline.step V period⟩

namespace Pipeline

/-! ## What a step can do -/

/-- Everything a step of the program can do, with what it needs. -/
inductive StepCase (s : Pipeline P chunks) : PipelineLabel P count → Pipeline P chunks → Prop
  | worker (i : Fin count) (label : WorkerLabel) (shard : Shard P (chunks i))
      (eq : (s.shards i).step V period (.worker label) = some shard) :
      StepCase s (.worker i label)
        { s.setShard i shard with
          recordings := s.recordings ++ ((s.shards i).recording label).toList }
  /-- The merger starts over. -/
  | rewind : StepCase s .merger { s with mergeLoop := ⟨false, 0⟩ }
  /-- The merger asks for a full list. -/
  | fetch (i : Fin count) (shard : Shard P (chunks i)) (mergeLoop : MergeLoop)
      (eq : (s.shards i).step V period .getFullList = some shard) :
      StepCase s .merger { s.setShard i shard with mergeLoop := mergeLoop }
  /-- The merger merges the list it holds into the main list. -/
  | merge (i : Fin count) (reports : Fin (chunks i)) (merging : ReportList.Merging P)
      (merger : (s.shards i).merger = .took reports)
      (eq : ((s.shards i).container.reportChunks reports).mergeReports V s.main.shared.list =
        some merging) :
      StepCase s .merger
        { s.setShard i ((s.shards i).mergedAs reports merging.list) with
          main := { s.main with shared := { s.main.shared with list := merging.main } }
          skippedBy := update s.skippedBy i (update (s.skippedBy i) reports merging.skipped) }
  /-- The merger applies the pending commands to it. -/
  | apply (i : Fin count) (shard : Shard P (chunks i))
      (eq : (s.shards i).step V period .applyCommands = some shard) :
      StepCase s .merger (s.setShard i shard)
  /-- The merger publishes it. -/
  | publish (i : Fin count) (shard : Shard P (chunks i)) (mergeLoop : MergeLoop)
      (eq : (s.shards i).step V period .pushEmpty = some shard) :
      StepCase s .merger { s.setShard i shard with mergeLoop := mergeLoop }
  /-- An addition begins. -/
  | begin (producer : P) (type : StdString) (idle : s.console = .idle) :
      StepCase s (.addNewReport producer type) { s with console := .adding producer type 0 }
  /-- It issues its command on one more container. -/
  | enqueue (producer : P) (type : StdString) (next : ℕ) (h : next < count)
      (shard : Shard P (chunks ⟨next, h⟩)) (adding : s.console = .adding producer type next)
      (eq : (s.shards ⟨next, h⟩).step V period (.addReport producer type) = some shard) :
      StepCase s .console
        { s.setShard ⟨next, h⟩ shard with console := .adding producer type (next + 1) }
  /-- `create_report` returned `NULL`: there is nothing to insert. -/
  | refuse (producer : P) (type : StdString) (next : ℕ) (h : count ≤ next)
      (adding : s.console = .adding producer type next) (null : createReport V producer = none) :
      StepCase s .console { s with console := .idle }
  /-- It inserts its report into the main list. -/
  | insert (producer : P) (type : StdString) (next : ℕ) (report : Report P) (main : MainList P)
      (h : count ≤ next) (adding : s.console = .adding producer type next)
      (created : createReport V producer = some report)
      (eq : s.main.step V (.addReport report type) = some main) :
      StepCase s .console { s with main := main, console := .idle }
  | reader (call : ReaderCall) (main : MainList P) (eq : s.main.step V call.label = some main) :
      StepCase s (.reader call) { s with main := main }

variable {V period} {s s' : Pipeline P chunks}

/-- Inversion of the merger's steps. -/
theorem mergeStep_cases {i : Fin count} (h : s.mergeStep V period i = some s') :
    StepCase V period s .merger s' := by
  simp only [mergeStep] at h
  split at h
  · obtain ⟨shard, hshard, rfl⟩ := Option.map_eq_some_iff.mp h
    exact .fetch i shard _ hshard
  · obtain ⟨merging, hmerging, rfl⟩ := Option.map_eq_some_iff.mp h
    exact .merge i _ merging ‹_› hmerging
  · obtain ⟨shard, hshard, rfl⟩ := Option.map_eq_some_iff.mp h
    exact .apply i shard hshard
  · obtain ⟨shard, hshard, rfl⟩ := Option.map_eq_some_iff.mp h
    exact .publish i shard _ hshard

/-- Inversion of the console's steps. -/
theorem consoleStep_cases (h : s.consoleStep V period = some s') :
    StepCase V period s .console s' := by
  simp only [consoleStep] at h
  split at h
  · cases h
  · rename_i producer type next hadding
    split at h
    · obtain ⟨shard, hshard, rfl⟩ := Option.map_eq_some_iff.mp h
      exact .enqueue producer type next ‹_› shard hadding hshard
    · rename_i hnext
      split at h
      · obtain rfl := Option.some.inj h
        exact .refuse producer type next (not_lt.mp hnext) hadding ‹_›
      · obtain ⟨main, hmain, rfl⟩ := Option.map_eq_some_iff.mp h
        exact .insert producer type next _ main (not_lt.mp hnext) hadding ‹_› hmain

/-- **Inversion**: every step is one of the cases. -/
theorem step_cases {label : PipelineLabel P count} (h : s.step V period label = some s') :
    StepCase V period s label s' := by
  cases label with
  | worker i label =>
    obtain ⟨shard, hshard, rfl⟩ := Option.map_eq_some_iff.mp h
    exact .worker i label shard hshard
  | merger =>
    simp only [step] at h
    split at h
    · exact mergeStep_cases h
    · obtain rfl := Option.some.inj h
      exact .rewind
  | addNewReport producer type =>
    simp only [step] at h
    split at h
    · obtain rfl := Option.some.inj h
      exact .begin producer type ‹_›
    · cases h
  | console => exact consoleStep_cases h
  | reader call =>
    obtain ⟨main, hmain, rfl⟩ := Option.map_eq_some_iff.mp h
    exact .reader call main hmain

/-! ## Projections -/

/-- A step of one shard is a step, or nothing, of every shard. -/
theorem execFrom_setShard {j : Fin count} {label : ShardLabel P} {next : Shard P (chunks j)}
    (h : (s.shards j).step V period label = some next) (i : Fin count) :
    ∃ labels t, (shard V (chunks i) period).execFrom (s.shards i) labels = some t ∧
      (s.setShard j next).shards i = t := by
  by_cases hij : i = j
  · subst hij
    refine ⟨[label], next, ?_, Function.update_self _ _ _⟩
    show ((s.shards i).step V period label).bind _ = some next
    rw [h]
    rfl
  · exact ⟨[], s.shards i, rfl, Function.update_of_ne hij _ _⟩

variable (V period) in
/-- **The pipeline runs a shard for every container.** -/
theorem shard_simulation (chunks : Fin count → ℕ) (i : Fin count) :
    Simulation (pipeline V period chunks) (shard V (chunks i) period) (fun s t => s.shards i = t) where
  init := rfl
  step := by
    rintro s label s' _ - rfl h
    cases step_cases h with
    | rewind | begin | refuse | insert | reader => exact ⟨[], _, rfl, rfl⟩
    | worker j label next eq => exact execFrom_setShard eq i
    | fetch j next mergeLoop eq => exact execFrom_setShard eq i
    | apply j next eq => exact execFrom_setShard eq i
    | publish j next mergeLoop eq => exact execFrom_setShard eq i
    | enqueue producer type k hk next adding eq => exact execFrom_setShard eq i
    | merge j reports merging merger eq =>
      -- the shard's merge, with the main list of this state
      have hstep : (s.shards j).step V period (.mergeReports s.main.shared.list) =
          some ((s.shards j).mergedAs reports merging.list) := by
        simp only [Shard.step, merger, eq, Option.map_some, Shard.mergedAs]
      exact execFrom_setShard hstep i

variable (V period) in
/-- **The pipeline runs the machine of the main list.** -/
theorem main_simulation (chunks : Fin count → ℕ) :
    Simulation (pipeline V period chunks) (mainList V) (fun s t => s.main = t) where
  init := rfl
  step := by
    rintro s label s' _ - rfl h
    cases step_cases h with
    | worker | rewind | fetch | apply | publish | begin | enqueue | refuse =>
      exact ⟨[], _, rfl, rfl⟩
    | merge i reports merging merger eq =>
      refine ⟨[.mergeReports ((s.shards i).container.reportChunks reports)], _, ?_, rfl⟩
      simp only [Machine.execFrom_cons, mainList, MainList.step, eq, Option.map_some]
      rfl
    | insert producer type next report main hnext adding created eq =>
      refine ⟨[.addReport report type], main, ?_, rfl⟩
      simp only [Machine.execFrom_cons, mainList, eq]
      rfl
    | reader call main eq =>
      refine ⟨[call.label], main, ?_, rfl⟩
      simp only [Machine.execFrom_cons, mainList, eq]
      rfl

/-- Every shard of a reachable state is reachable. -/
theorem reachable_shard (h : (pipeline V period chunks).Reachable s) (i : Fin count) :
    (shard V (chunks i) period).Reachable (s.shards i) := by
  obtain ⟨t, ht, rfl⟩ := (shard_simulation V period chunks i).reachable h
  exact ht

/-- So is its main list, which therefore has no `NULL` entries. -/
theorem wellFormed_main (h : (pipeline V period chunks).Reachable s) : s.main.WellFormed := by
  obtain ⟨t, ht, rfl⟩ := (main_simulation V period chunks).reachable h
  exact MainList.wellFormed ht

/-! ## Only additions are pending -/

variable (V period) in
/-- The program never issues a deletion, so the pending commands of every chunk are additions. -/
theorem onlyAdds (h : (pipeline V period chunks).Reachable s) (i : Fin count) :
    (s.shards i).OnlyAdds := by
  suffices ∀ i, (s.shards i).OnlyAdds from this i
  refine h.invariant (P := fun s => ∀ i, (s.shards i).OnlyAdds) (fun i => Shard.onlyAdds_new P _) ?_
  intro s label s' _ ih hstep
  have hset : ∀ {j : Fin count} {label : ShardLabel P} {next : Shard P (chunks j)},
      (s.shards j).step V period label = some next → (∀ type, label ≠ .delReport type) →
        ∀ i, ((s.setShard j next).shards i).OnlyAdds := fun {j label next} heq hlabel =>
    (Function.forall_update_iff s.shards fun i shard => shard.OnlyAdds).mpr
      ⟨(ih j).step heq hlabel, fun i _ => ih i⟩
  cases step_cases hstep with
  | rewind | begin | refuse | insert | reader => exact ih
  | worker j label next eq => exact hset eq fun _ => by simp
  | fetch j next mergeLoop eq => exact hset eq fun _ => by simp
  | apply j next eq => exact hset eq fun _ => by simp
  | publish j next mergeLoop eq => exact hset eq fun _ => by simp
  | enqueue producer type k hk next adding eq => exact hset eq fun _ => by simp
  | merge j reports merging merger eq =>
    exact (Function.forall_update_iff s.shards fun i shard => shard.OnlyAdds).mpr
      ⟨ih j, fun i _ => ih i⟩

/-! ## The console's steps and `add_new_report` -/

/-- The report manager of a state. -/
def manager (s : Pipeline P chunks) : ReportManager P chunks :=
  ⟨fun i => (s.shards i).container, s.main.shared⟩

variable (V period) in
/-- The first `k` steps of `add_new_report` issue its command on the first `k` containers. -/
theorem execFrom_enqueue {producer : P} {type : StdString}
    (hs : s.console = .adding producer type 0) (k : ℕ) (hk : k ≤ count) :
    ∃ t, (pipeline V period chunks).execFrom s (List.replicate k .console) = some t ∧
      t.console = .adding producer type k ∧ t.main = s.main ∧
      ∀ i, (t.shards i).container =
        if i.val < k then (s.shards i).container.addReport (some producer) type
        else (s.shards i).container := by
  induction k with
  | zero => exact ⟨s, rfl, hs, rfl, fun i => rfl⟩
  | succ k ih =>
    obtain ⟨t, ht, hconsole, hmain, hcontainer⟩ := ih (Nat.le_of_succ_le hk)
    have hstep : t.step V period .console =
        some { t.setShard ⟨k, hk⟩ { t.shards ⟨k, hk⟩ with
          container := (t.shards ⟨k, hk⟩).container.addReport (some producer) type } with
          console := .adding producer type (k + 1) } := by
      simp only [step, consoleStep, hconsole]
      rw [dif_pos (show k < count from hk)]
      rfl
    refine ⟨_, Eq.trans ?_ hstep, rfl, hmain, fun i => ?_⟩
    · rw [List.replicate_succ', Machine.execFrom_append, ht, Option.bind_some,
        Machine.execFrom_cons]
      exact Option.bind_fun_some _
    · by_cases hi : i = ⟨k, hk⟩
      · subst hi
        simp [setShard, hcontainer]
      · have hne : i.val ≠ k := fun h => hi (Fin.ext h)
        have hlt : i.val < k + 1 ↔ i.val < k := by omega
        simp only [setShard, Function.update_of_ne hi, hcontainer, hlt]

variable (V period) in
/-- **The steps of the console thread, taken together, are `add_new_report`**: from a state outside of
it they lead to the state it returns in, or, while a reader holds the main list, do not finish. -/
theorem execFrom_addNewReport (hs : s.console = .idle) (producer : P) (type : StdString) :
    match s.manager.addNewReport V (some producer) type with
    | .done after => ∃ t, (pipeline V period chunks).execFrom s
        (.addNewReport producer type :: List.replicate (count + 1) .console) = some t ∧
          t.manager = after ∧ t.console = .idle
    | .blocked _ => (pipeline V period chunks).execFrom s
        (.addNewReport producer type :: List.replicate (count + 1) .console) = none
    | .nullCall _ => False := by
  have hbegin : s.step V period (.addNewReport producer type) =
      some { s with console := .adding producer type 0 } := by
    simp only [step, hs]
  obtain ⟨t, ht, hconsole, hmain, hcontainer⟩ := execFrom_enqueue V period
    (s := { s with console := .adding producer type 0 }) rfl count le_rfl
  have hmanager : t.manager = s.manager.enqueueAll (some producer) type := by
    rw [manager, hmain]
    refine congrArg (ReportManager.mk · s.main.shared) ?_
    refine Eq.trans ?_ (s.manager.threadContainers_enqueueAll (some producer) type).symm
    funext i
    rw [hcontainer i, if_pos i.isLt]
    rfl
  -- what is left is the step that inserts into the main list
  have hrun : (pipeline V period chunks).execFrom s
      (.addNewReport producer type :: List.replicate (count + 1) .console) =
        t.step V period .console := by
    rw [Machine.execFrom_cons, List.replicate_succ']
    show (s.step V period (.addNewReport producer type)).bind _ = _
    rw [hbegin, Option.bind_some, Machine.execFrom_append, ht, Option.bind_some,
      Machine.execFrom_cons]
    exact Option.bind_fun_some _
  have hlast : t.step V period .console =
      match createReport V producer with
      | none => some { t with console := .idle }
      | some report =>
        (t.main.step V (.addReport report type)).map fun main =>
          { t with main := main, console := .idle } := by
    simp only [step, consoleStep, hconsole]
    rw [dif_neg (lt_irrefl count)]
  rw [hrun, hlast, ReportManager.addNewReport, ← hmanager, ReportManager.insertMain]
  cases hcreate : createReport V producer with
  | none => exact ⟨_, rfl, rfl, rfl⟩
  | some report =>
    simp only [MainList.step]
    have hshared : t.manager.mainList = t.main.shared := rfl
    rw [hshared]
    cases hadd : t.main.shared.addReport report type with
    | none => rfl
    | some mainList => exact ⟨_, rfl, rfl, rfl⟩

/-! ## Runs with a single worker -/

/-- Steps of the only worker. -/
def onlyWorker (labels : List WorkerLabel) : List (PipelineLabel P 1) := labels.map (.worker 0)

/-- The worker's first two rotations: it takes a list and returns it for another one. -/
def firstRotations : List (PipelineLabel P 1) :=
  onlyWorker [.clock ⟨1, 0⟩, .getEmtyList, .recv .empty, .clock ⟨3, 0⟩, .getEmtyList,
    .returnFullList, .recv .empty]

/-- The worker rotates at the given second and then records a request. -/
def rotateAndRecord (second : ℕ) (request : PinbaRequest) : List (PipelineLabel P 1) :=
  onlyWorker [.clock ⟨second, 0⟩, .getEmtyList, .returnFullList, .recv (.decoded request), .visit,
    .visit]

/-- The merger takes a full list, merges it, applies its commands and publishes it. -/
def mergeRound : List (PipelineLabel P 1) := [.merger, .merger, .merger, .merger]

end Pipeline

end Tinypinba
