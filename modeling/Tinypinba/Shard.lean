import Tinypinba.Worker
import Tinypinba.ContainerCalls

/-! # A shard: one container between its worker and the merger

The machine `shard` runs one `ReportContainer` with the worker that fills its lists, the part of
`merge_loop` that concerns this container, and console commands, interleaved in any order. Of the
merge loop only the list it holds is kept: what it does between two calls on this container (other
containers, `usleep`) does not touch the shard. The main list a chunk is merged into is part of the
label.

`step_cases` says once what a step can do. `shard_simulates_calls` connects the shard to the liberal
machine of calls on its container, so that what holds there, delivery of report commands first of all,
holds here. -/

namespace Tinypinba

open CommandLog Transition
open Function (update)

variable {P : Type} (V : ReportClasses P) {n : ℕ}

/-- What `merge_loop` holds of a container, and how far it has got with it. -/
inductive MergerHand (n : ℕ)
  /-- Nothing. -/
  | idle
  /-- `get_full_list` returned this list. -/
  | took (reports : Fin n)
  /-- It has been merged. -/
  | merged (reports : Fin n)
  /-- Its commands have been applied, it is about to be pushed onto `empty_chunks`. -/
  | applied (reports : Fin n)
  deriving DecidableEq

/-- The list in the merger's hand. -/
def MergerHand.held : MergerHand n → List (Fin n)
  | .idle => []
  | .took reports | .merged reports | .applied reports => [reports]

/-- One container, its worker, the merger's hand on it, and three histories. -/
structure Shard (P : Type) (n : ℕ) where
  /-- The container. -/
  container : ReportContainer P n
  /-- The worker. -/
  worker : Worker n
  /-- What the merger holds. -/
  merger : MergerHand n
  /-- History: the lists the worker returned with `return_full_list`. -/
  returned : List (Fin n)
  /-- History: the lists the merger got from `get_full_list`. -/
  taken : List (Fin n)
  /-- History: the decoded packets the worker threw away because `reports` was `NULL`. -/
  discarded : List PinbaRequest

/-- A step of the worker. -/
inductive WorkerLabel
  /-- `gettimeofday` returned `cur`. -/
  | clock (cur : Timeval)
  | getEmtyList
  | returnFullList
  /-- `recv` and unpacking. -/
  | recv (outcome : RecvOutcome)
  /-- Visit the next request, or free the packet when there is none. -/
  | visit
  /-- `del_request_from_reports` on the current list. -/
  | delRequest (request : PinbaRequest)

/-- A step of the merger, the console or the worker. -/
inductive ShardLabel (P : Type)
  | worker (label : WorkerLabel)
  | getFullList
  /-- `merge_reports(main)` -/
  | mergeReports (main : ReportList P)
  | applyCommands
  | pushEmpty
  | addReport (producer : P) (type : StdString)
  | delReport (type : StdString)

namespace Shard

/-- A shard whose threads have not started. -/
def new (P : Type) (n : ℕ) : Shard P n := ⟨.new P n, .new, .idle, [], [], []⟩

/-- Move the worker. -/
def setPc (s : Shard P n) (pc : WorkerPc n) : Shard P n :=
  { s with worker := { s.worker with pc := pc } }

/-- A worker that moves on keeps its list, and holds the one coming in. -/
@[simp] theorem held_setPc (s : Shard P n) (pc : WorkerPc n) :
    (s.setPc pc).worker.held = s.worker.reports.toList ++ pc.incoming := rfl

@[simp] theorem container_setPc (s : Shard P n) (pc : WorkerPc n) :
    (s.setPc pc).container = s.container := rfl

@[simp] theorem merger_setPc (s : Shard P n) (pc : WorkerPc n) :
    (s.setPc pc).merger = s.merger := rfl

/-- A step of `pinba_worker_loop`. -/
def workerStep (period : Timeval) (s : Shard P n) : WorkerLabel → Option (Shard P n)
  | .clock cur =>
    match s.worker.pc with
    | .top => some (s.setPc (if timercmpLt s.worker.next cur then .rotate cur else .recv))
    | _ => none
  | .getEmtyList =>
    match s.worker.pc with
    | .rotate cur =>
      match s.container.getEmtyList, s.worker.reports with
      -- no list to be had: the deadline stays, so the next pass tries again
      | (none, container), _ => some ({ s with container := container }.setPc .recv)
      | (some newList, container), none =>
        some { s with container := container, worker := .adopt period cur newList }
      | (some newList, container), some _ =>
        some ({ s with container := container }.setPc (.swap cur newList))
    | _ => none
  | .returnFullList =>
    match s.worker.pc, s.worker.reports with
    | .swap cur newList, some old =>
      some { s with
        container := s.container.returnFullList (some old)
        worker := .adopt period cur newList
        returned := s.returned ++ [old] }
    | _, _ => none
  | .recv outcome =>
    match s.worker.pc, outcome, s.worker.reports with
    | .recv, .decoded request, some _ => some (s.setPc (.visit [request]))
    -- `if (reports)` fails: the packet is freed without being recorded
    | .recv, .decoded request, none =>
      some ({ s with discarded := s.discarded ++ [request] }.setPc .top)
    | .recv, _, _ => some (s.setPc .top)
    | _, _, _ => none
  | .visit =>
    match s.worker.pc, s.worker.reports with
    | .visit [], _ => some (s.setPc .top)
    | .visit (request :: todo), some chunk =>
      -- the request itself first, then its nested requests, then what was left
      if (requestCheck (some request)).1 = 0 then
        some ({ s with
          container := s.container.setChunk chunk
            ((s.container.reportChunks chunk).addRequestToReports V request) }.setPc
              (.visit (request.requests ++ todo)))
      else some (s.setPc (.visit (request.requests ++ todo)))
    | _, _ => none
  | .delRequest request =>
    match s.worker.reports with
    | some chunk =>
      some { s with
        container := s.container.setChunk chunk
          ((s.container.reportChunks chunk).delRequestFromReports V request) }
    | none => none

/-- A step of the shard. -/
def step (period : Timeval) (s : Shard P n) : ShardLabel P → Option (Shard P n)
  | .worker label => s.workerStep V period label
  | .getFullList =>
    match s.merger, s.container.getFullList with
    | .idle, (none, _) => some s
    | .idle, (some reports, container) =>
      some { s with
        container := container
        merger := .took reports
        taken := s.taken ++ [reports] }
    | _, _ => none
  | .mergeReports main =>
    match s.merger with
    | .took reports =>
      ((s.container.reportChunks reports).mergeReports V main).map fun merging =>
        { s with
          container := s.container.setChunk reports merging.list
          merger := .merged reports }
    | _ => none
  | .applyCommands =>
    match s.merger with
    | .merged reports =>
      some { s with container := s.container.applyCommands V reports, merger := .applied reports }
    | _ => none
  | .pushEmpty =>
    match s.merger with
    | .applied reports =>
      some { s with container := s.container.pushEmpty reports, merger := .idle }
    | _ => none
  | .addReport producer type =>
    some { s with container := s.container.addReport (some producer) type }
  | .delReport type => some { s with container := s.container.delReport type }

end Shard

/-- The machine of a shard. -/
def shard (n : ℕ) (period : Timeval) : Machine (Shard P n) (ShardLabel P) :=
  ⟨.new P n, Shard.step V period⟩

/-! ## What a step can do -/

namespace Shard

/-- Everything a step of a shard can do, with what it needs. -/
inductive StepCase (period : Timeval) (s : Shard P n) : ShardLabel P → Shard P n → Prop
  /-- The clock is read, and decides whether to rotate. -/
  | clock (cur : Timeval) (pc : s.worker.pc = .top) :
      StepCase period s (.worker (.clock cur))
        (s.setPc (if timercmpLt s.worker.next cur then .rotate cur else .recv))
  /-- There is no empty list: the worker keeps its list and its deadline. -/
  | starved (cur : Timeval) (pc : s.worker.pc = .rotate cur) (empty : s.container.emptyChunks = []) :
      StepCase period s (.worker .getEmtyList) (s.setPc .recv)
  /-- The worker gets its first list. -/
  | first (cur : Timeval) (newList : Fin n) (rest : List (Fin n)) (pc : s.worker.pc = .rotate cur)
      (empty : s.container.emptyChunks = newList :: rest) (reports : s.worker.reports = none) :
      StepCase period s (.worker .getEmtyList)
        { s with
          container := { s.container with emptyChunks := rest }
          worker := .adopt period cur newList }
  /-- The worker gets another list. -/
  | take (cur : Timeval) (newList old : Fin n) (rest : List (Fin n))
      (pc : s.worker.pc = .rotate cur) (empty : s.container.emptyChunks = newList :: rest)
      (reports : s.worker.reports = some old) :
      StepCase period s (.worker .getEmtyList)
        ({ s with container := { s.container with emptyChunks := rest } }.setPc (.swap cur newList))
  /-- The worker returns its old list and makes the new one current. -/
  | giveBack (cur : Timeval) (newList old : Fin n) (pc : s.worker.pc = .swap cur newList)
      (reports : s.worker.reports = some old) :
      StepCase period s (.worker .returnFullList)
        { s with
          container := s.container.returnFullList (some old)
          worker := .adopt period cur newList
          returned := s.returned ++ [old] }
  /-- Nothing usable was received. -/
  | unusable (outcome : RecvOutcome) (pc : s.worker.pc = .recv) :
      StepCase period s (.worker (.recv outcome)) (s.setPc .top)
  /-- A packet was decoded while the worker has no list. -/
  | discard (request : PinbaRequest) (pc : s.worker.pc = .recv) (reports : s.worker.reports = none) :
      StepCase period s (.worker (.recv (.decoded request)))
        ({ s with discarded := s.discarded ++ [request] }.setPc .top)
  /-- A packet was decoded. -/
  | unpack (request : PinbaRequest) (chunk : Fin n) (pc : s.worker.pc = .recv)
      (reports : s.worker.reports = some chunk) :
      StepCase period s (.worker (.recv (.decoded request))) (s.setPc (.visit [request]))
  /-- The packet has been recorded. -/
  | finish (pc : s.worker.pc = .visit []) : StepCase period s (.worker .visit) (s.setPc .top)
  /-- A well-formed request is recorded. -/
  | record (request : PinbaRequest) (todo : List PinbaRequest) (chunk : Fin n)
      (pc : s.worker.pc = .visit (request :: todo)) (reports : s.worker.reports = some chunk)
      (check : (requestCheck (some request)).1 = 0) :
      StepCase period s (.worker .visit)
        ({ s with
          container := s.container.setChunk chunk
            ((s.container.reportChunks chunk).addRequestToReports V request) }.setPc
              (.visit (request.requests ++ todo)))
  /-- A malformed request is skipped. -/
  | malformed (request : PinbaRequest) (todo : List PinbaRequest) (chunk : Fin n)
      (pc : s.worker.pc = .visit (request :: todo)) (reports : s.worker.reports = some chunk)
      (check : (requestCheck (some request)).1 ≠ 0) :
      StepCase period s (.worker .visit) (s.setPc (.visit (request.requests ++ todo)))
  /-- A request is taken off the current list again. -/
  | delRequest (request : PinbaRequest) (chunk : Fin n) (reports : s.worker.reports = some chunk) :
      StepCase period s (.worker (.delRequest request))
        { s with
          container := s.container.setChunk chunk
            ((s.container.reportChunks chunk).delRequestFromReports V request) }
  /-- The merger finds no full list. -/
  | noFull (merger : s.merger = .idle) (full : s.container.fullChunks = []) :
      StepCase period s .getFullList s
  /-- The merger takes a full list. -/
  | fetch (reports : Fin n) (rest : List (Fin n)) (merger : s.merger = .idle)
      (full : s.container.fullChunks = reports :: rest) :
      StepCase period s .getFullList
        { s with
          container := { s.container with fullChunks := rest }
          merger := .took reports
          taken := s.taken ++ [reports] }
  /-- The merger merges the list it took. -/
  | merge (main : ReportList P) (reports : Fin n) (merging : ReportList.Merging P)
      (merger : s.merger = .took reports)
      (eq : (s.container.reportChunks reports).mergeReports V main = some merging) :
      StepCase period s (.mergeReports main)
        { s with
          container := s.container.setChunk reports merging.list
          merger := .merged reports }
  /-- The merger applies the pending commands to it. -/
  | apply (reports : Fin n) (merger : s.merger = .merged reports) :
      StepCase period s .applyCommands
        { s with container := s.container.applyCommands V reports, merger := .applied reports }
  /-- The merger publishes it. -/
  | publish (reports : Fin n) (merger : s.merger = .applied reports) :
      StepCase period s .pushEmpty
        { s with container := s.container.pushEmpty reports, merger := .idle }
  /-- The console issues an addition. -/
  | addReport (producer : P) (type : StdString) :
      StepCase period s (.addReport producer type)
        { s with container := s.container.addReport (some producer) type }
  /-- The console issues a deletion. -/
  | delReport (type : StdString) :
      StepCase period s (.delReport type) { s with container := s.container.delReport type }

variable {V} {period : Timeval} {s s' : Shard P n}

/-- Inversion of the worker's steps. -/
theorem workerStep_cases {label : WorkerLabel} (h : s.workerStep V period label = some s') :
    StepCase V period s (.worker label) s' := by
  cases label with
  | clock cur =>
    simp only [workerStep] at h
    split at h
    · obtain rfl := Option.some.inj h
      exact .clock cur ‹_›
    · cases h
  | getEmtyList =>
    simp only [workerStep] at h
    split at h
    · rename_i cur hpc
      unfold ReportContainer.getEmtyList at h
      cases hempty : s.container.emptyChunks with
      | nil =>
        simp only [hempty, Option.some.injEq] at h
        obtain rfl := h
        exact .starved cur hpc hempty
      | cons newList rest =>
        cases hreports : s.worker.reports with
        | none =>
          simp only [hempty, hreports, Option.some.injEq] at h
          obtain rfl := h
          exact .first cur newList rest hpc hempty hreports
        | some old =>
          simp only [hempty, hreports, Option.some.injEq] at h
          obtain rfl := h
          exact .take cur newList old rest hpc hempty hreports
    · cases h
  | returnFullList =>
    simp only [workerStep] at h
    split at h
    · obtain rfl := Option.some.inj h
      exact .giveBack _ _ _ ‹_› ‹_›
    · cases h
  | recv outcome =>
    simp only [workerStep] at h
    split at h
    · obtain rfl := Option.some.inj h
      exact .unpack _ _ ‹_› ‹_›
    · obtain rfl := Option.some.inj h
      exact .discard _ ‹_› ‹_›
    · obtain rfl := Option.some.inj h
      exact .unusable _ ‹_›
    · cases h
  | visit =>
    simp only [workerStep] at h
    split at h
    · obtain rfl := Option.some.inj h
      exact .finish ‹_›
    · rename_i request todo chunk hpc hreports
      by_cases hcheck : (requestCheck (some request)).1 = 0
      · rw [if_pos hcheck] at h
        obtain rfl := Option.some.inj h
        exact .record request todo chunk hpc hreports hcheck
      · rw [if_neg hcheck] at h
        obtain rfl := Option.some.inj h
        exact .malformed request todo chunk hpc hreports hcheck
    · cases h
  | delRequest request =>
    simp only [workerStep] at h
    split at h
    · obtain rfl := Option.some.inj h
      exact .delRequest request _ ‹_›
    · cases h

/-- **Inversion**: every step is one of the cases. -/
theorem step_cases {label : ShardLabel P} (h : s.step V period label = some s') :
    StepCase V period s label s' := by
  cases label with
  | worker label => exact workerStep_cases h
  | getFullList =>
    simp only [step] at h
    unfold ReportContainer.getFullList at h
    cases hfull : s.container.fullChunks with
    | nil =>
      simp only [hfull] at h
      split at h
      · obtain rfl := Option.some.inj h
        exact .noFull ‹_› hfull
      · rename_i heq
        cases heq
      · cases h
    | cons reports rest =>
      simp only [hfull] at h
      split at h
      · rename_i heq
        cases heq
      · rename_i hmerger heq
        cases heq
        obtain rfl := Option.some.inj h
        exact .fetch reports rest hmerger hfull
      · cases h
  | mergeReports main =>
    simp only [step] at h
    split at h
    · obtain ⟨merging, hmerging, rfl⟩ := Option.map_eq_some_iff.mp h
      exact .merge main _ merging ‹_› hmerging
    · cases h
  | applyCommands =>
    simp only [step] at h
    split at h
    · obtain rfl := Option.some.inj h
      exact .apply _ ‹_›
    · cases h
  | pushEmpty =>
    simp only [step] at h
    split at h
    · obtain rfl := Option.some.inj h
      exact .publish _ ‹_›
    · cases h
  | addReport producer type =>
    obtain rfl := Option.some.inj h
    exact .addReport producer type
  | delReport type =>
    obtain rfl := Option.some.inj h
    exact .delReport type

/-- **The two steps of the merger after a merge are `return_empty_list`** when nothing falls between
them. -/
theorem execFrom_returnEmptyList {reports : Fin n} (h : s.merger = .merged reports) :
    (shard V n period).execFrom s [.applyCommands, .pushEmpty] =
      some { s with
        container := s.container.returnEmptyList V (some reports)
        merger := .idle } := by
  have happly : s.step V period .applyCommands =
      some { s with container := s.container.applyCommands V reports, merger := .applied reports } := by
    simp only [step, h]
  rw [Machine.execFrom_cons]
  show (s.step V period .applyCommands).bind _ = _
  rw [happly]
  rfl

end Shard

/-! ## The shard as a user of its container -/

/-- A shard and a container in use agree: same container, and the list being published is the one in
the merger's hand between the two halves of `return_empty_list`. -/
structure Uses (s : Shard P n) (use : ContainerUse P n) : Prop where
  /-- The container is the same. -/
  container : use.container = s.container
  /-- The lists being published are. -/
  publishing : ∀ reports, s.merger = .applied reports → reports ∈ use.publishing

/-- **A shard only ever makes calls on its container**: every step is none or one of them. -/
theorem shard_simulates_calls (period : Timeval) :
    Transition.Simulation (shard V n period) (calls V n) Uses where
  init := ⟨rfl, fun _ h => by cases h⟩
  step := by
    rintro s label s' ⟨container, publishing, applied⟩ - ⟨rfl, hpublishing⟩ h
    cases Shard.step_cases h with
    | clock | unusable | discard | unpack | finish | malformed | noFull =>
      exact ⟨[], _, rfl, rfl, hpublishing⟩
    | starved cur pc empty =>
      exact ⟨[.getEmtyList], _, rfl, by simp [ReportContainer.getEmtyList, empty, Shard.setPc],
        hpublishing⟩
    | first cur newList rest pc empty =>
      exact ⟨[.getEmtyList], _, rfl, by simp [ReportContainer.getEmtyList, empty], hpublishing⟩
    | take cur newList old rest pc empty =>
      exact ⟨[.getEmtyList], _, rfl, by simp [ReportContainer.getEmtyList, empty, Shard.setPc],
        hpublishing⟩
    | giveBack cur newList old =>
      exact ⟨[.returnFullList (some old)], _, rfl, rfl, hpublishing⟩
    | record request todo chunk =>
      exact ⟨[.addRequest chunk request], _, rfl, rfl, hpublishing⟩
    | delRequest request chunk =>
      exact ⟨[.delRequest chunk request], _, rfl, rfl, hpublishing⟩
    | fetch reports rest merger full =>
      exact ⟨[.getFullList], _, rfl, by simp [ReportContainer.getFullList, full],
        fun _ h => by cases h⟩
    | merge main reports merging merger eq =>
      refine ⟨[.mergeReports reports main],
        ⟨s.container.setChunk reports merging.list, publishing, applied⟩, ?_, rfl,
        fun _ h => by cases h⟩
      simp only [Machine.execFrom_cons, calls, ContainerUse.call, eq, Option.map_some]
      rfl
    | apply reports merger =>
      refine ⟨[.applyCommands (some reports)], _, rfl, rfl, fun other h => ?_⟩
      cases h
      exact List.mem_append_right _ List.mem_cons_self
    | publish reports merger =>
      refine ⟨[.pushEmpty reports],
        ⟨s.container.pushEmpty reports, publishing.erase reports, applied⟩, ?_, rfl,
        fun _ h => by cases h⟩
      simp only [Machine.execFrom_cons, calls, ContainerUse.call, if_pos (hpublishing reports merger)]
      rfl
    | addReport producer type =>
      exact ⟨[.addReport producer type], _, rfl, rfl, hpublishing⟩
    | delReport type => exact ⟨[.delReport type], _, rfl, rfl, hpublishing⟩

end Tinypinba
