import Tinypinba.MainList
import Tinypinba.ReportContainer
import Tinypinba.Foundation.KeyedLoop

/-! # The report manager

`ReportManager` (`report_manager.h`, `report_manager.cc`) owns the containers of all workers and the
main list. `add_new_report` issues a command on every container and then inserts a report into the
main list; `delete_report` hands it a `NULL` producer. An operation can end in three ways, told apart
by `Outcome`, because a member call through `NULL` and a wait for a held mutex do not return.

`deleteReport_eq` says how far `delete_report` gets, and `not_deletesEverywhere` that it never does what
it is for; `Deleted.of_delReport` shows that the statement it does not reach would have completed it. -/

namespace Tinypinba

open CommandLog
open Function (update)

/-- How an operation ends. -/
inductive Outcome (σ : Type)
  /-- It returns. -/
  | done (after : σ)
  /-- In this state it calls a member function through `NULL`, which is undefined. -/
  | nullCall (before : σ)
  /-- In this state it waits for a mutex that somebody holds. -/
  | blocked (before : σ)

/-- `ReportManager` with `count` containers, the `i`-th of which has `chunks i` chunks. -/
structure ReportManager (P : Type) {count : ℕ} (chunks : Fin count → ℕ) where
  /-- `thread_containers` -/
  threadContainers : ∀ i, ReportContainer P (chunks i)
  /-- `main_list` -/
  mainList : SharedReportList P

variable {P : Type} (V : ReportClasses P) {count : ℕ} {chunks : Fin count → ℕ}

namespace ReportManager

/-- `ReportManager(thread_count)` -/
def new (P : Type) {count : ℕ} (chunks : Fin count → ℕ) : ReportManager P chunks :=
  ⟨fun i => .new P (chunks i), .new⟩

/-- The loop of `add_new_report`: issue the command on every container. -/
def enqueueAll (self : ReportManager P chunks) (producer : Option P) (type : StdString) :
    ReportManager P chunks :=
  { self with
    threadContainers := (List.finRange count).foldl
      (fun containers i => update containers i ((containers i).addReport producer type))
      self.threadContainers }

/-- The rest of `add_new_report`: create a report and insert it into the main list. -/
def insertMain (self : ReportManager P chunks) (producer : Option P) (type : StdString) :
    Outcome (ReportManager P chunks) :=
  match producer with
  -- `report_produser->create_report()` with `report_produser == NULL`
  | none => .nullCall self
  | some producer =>
    match createReport V producer with
    -- `if (report)` fails, and there is nothing else to do
    | none => .done self
    | some report =>
      match self.mainList.addReport report type with
      | none => .blocked self
      | some mainList => .done { self with mainList := mainList }

/-- `ReportManager::add_new_report` -/
def addNewReport (self : ReportManager P chunks) (producer : Option P) (type : StdString) :
    Outcome (ReportManager P chunks) :=
  (self.enqueueAll producer type).insertMain V producer type

/-- `ReportManager::delete_report`. The statement `main_list->del_report(report_type)` of the source
stands after the `return` and is never reached. -/
def deleteReport (self : ReportManager P chunks) (type : StdString) :
    Outcome (ReportManager P chunks) :=
  self.addNewReport V none type

/-- The loop issues the command on every container, once. -/
theorem threadContainers_enqueueAll (self : ReportManager P chunks) (producer : Option P)
    (type : StdString) :
    (self.enqueueAll producer type).threadContainers =
      fun i => (self.threadContainers i).addReport producer type :=
  KeyedLoop.foldl_finRange_update
    (fun (i : Fin count) (container : ReportContainer P (chunks i)) =>
      container.addReport producer type)
    self.threadContainers

/-- `delete_report` issues the deletion on every container, and then calls `create_report` through the
`NULL` producer; the main list is as it was. -/
theorem deleteReport_eq (self : ReportManager P chunks) (type : StdString) :
    self.deleteReport V type =
      .nullCall ⟨fun i => (self.threadContainers i).delReport type, self.mainList⟩ := by
  have hcontainers := self.threadContainers_enqueueAll none type
  rw [deleteReport, addNewReport, insertMain]
  simp only [ReportContainer.delReport, ← hcontainers]
  rfl

end ReportManager

/-! ## What a deletion should do -/

/-- The last command of a queue about a type is its deletion. -/
def LastDeletes (cmds : List (ReportCmd P)) (type : StdString) : Prop :=
  ∃ before rest, cmds = before ++ ⟨none, type⟩ :: rest ∧ ∀ cmd ∈ rest, cmd.type ≠ type

/-- A deletion that was just issued is the last command about its type. -/
theorem LastDeletes.concat (cmds : List (ReportCmd P)) (type : StdString) :
    LastDeletes (cmds ++ [⟨none, type⟩]) type :=
  ⟨cmds, [], rfl, by simp⟩

/-- **A chunk whose last command about a type is its deletion no longer holds the type** once the
commands have been applied, whatever it held before. -/
theorem LastDeletes.not_mem_applyCmds {cmds : List (ReportCmd P)} {type : StdString}
    (h : LastDeletes cmds type) (list : ReportList P) :
    type ∉ (ReportList.applyCmds V cmds list).2.reports := by
  obtain ⟨before, rest, rfl, hrest⟩ := h
  have hkeys : ∀ c ∈ rest.map (·.command V), c.key ≠ type := by
    intro c hc
    obtain ⟨cmd, hcmd, rfl⟩ := List.mem_map.mp hc
    rw [ReportCmd.key_command]
    exact hrest cmd hcmd
  have hfree : ((before ++ ⟨none, type⟩ :: rest).foldl (ReportList.applyCmd V) list).kinds type =
      none := by
    rw [ReportList.kinds_foldl_applyCmd, List.map_append, List.map_cons]
    exact Registry.replay_del_last _ _ _ hkeys
  rw [ReportList.applyCmds_eq, ReportList.mem_reports_iff, hfree]
  exact Bool.false_ne_true

/-- The state `after` is `before` with the report under `type` removed: from the main list at once, from
every chunk by the last command about it; other types are as they were. -/
structure Deleted (before after : ReportManager P chunks) (type : StdString) : Prop where
  /-- The main list has no report under the type. -/
  main : type ∉ after.mainList.list.reports
  /-- Every chunk will drop it. -/
  queued : ∀ i chunk, LastDeletes ((after.threadContainers i).cmdMap chunk) type
  /-- The main list keeps its other types. -/
  main_others : ∀ t, t ≠ type →
    after.mainList.list.reports[t]? = before.mainList.list.reports[t]?
  /-- The chunks keep theirs. -/
  chunk_others : ∀ i chunk t, t ≠ type →
    ((after.threadContainers i).reportChunks chunk).reports[t]? =
      ((before.threadContainers i).reportChunks chunk).reports[t]?

/-- Deleting a type leaves the other slots of a list alone. -/
theorem ReportList.delReport_of_ne (self : ReportList P) {type t : StdString} (h : t ≠ type) :
    (self.delReport type).reports[t]? = self.reports[t]? := by
  unfold ReportList.delReport
  cases self.reports[type]? with
  | none => rfl
  | some slot =>
    simp only [Std.ExtTreeMap.getElem?_erase, Std.LawfulEqCmp.compare_eq_iff_eq, if_neg (Ne.symm h)]

/-- The deletions issued on the containers and `main_list->del_report` together delete a report. -/
theorem Deleted.of_delReport (self : ReportManager P chunks) (type : StdString)
    {mainList : SharedReportList P} (h : self.mainList.delReport type = some mainList) :
    Deleted self ⟨fun i => (self.threadContainers i).delReport type, mainList⟩ type := by
  obtain ⟨-, heq⟩ := Option.ite_none_left_eq_some.mp h
  obtain rfl := Option.some.inj heq
  refine ⟨?_, fun i chunk => ?_, fun t ht => self.mainList.list.delReport_of_ne ht,
    fun _ _ _ _ => rfl⟩
  · show type ∉ (self.mainList.list.delReport type).reports
    rw [ReportList.mem_reports_iff, ReportList.kinds_delReport, Registry.apply_del_self]
    simp
  · have hqueue : ((self.threadContainers i).delReport type).cmdMap chunk =
        (self.threadContainers i).cmdMap chunk ++ [⟨none, type⟩] :=
      congrFun ((self.threadContainers i).cmdMap_addReport none type) chunk
    show LastDeletes (((self.threadContainers i).delReport type).cmdMap chunk) type
    rw [hqueue]
    exact LastDeletes.concat _ type

namespace ReportManager

/-- `delete_report` does what it is for: it returns, and the report is removed everywhere. -/
def DeletesEverywhere (self : ReportManager P chunks) (type : StdString) : Prop :=
  ∃ after, self.deleteReport V type = .done after ∧ Deleted self after type

/-- **`delete_report` never removes a report everywhere**: from no state and for no type does it even
return. -/
theorem not_deletesEverywhere (self : ReportManager P chunks) (type : StdString) :
    ¬ self.DeletesEverywhere V type := by
  rintro ⟨after, hdone, -⟩
  rw [deleteReport_eq] at hdone
  cases hdone

/-- With one container of two chunks: report `"a"` is added, and deleting it calls through `NULL` with
the report still in the main list. -/
theorem deleteReport_nullCall_main_keeps :
    ∃ added, (new Unit fun _ : Fin 1 => 2).addNewReport .plain (some ()) [97] = .done added ∧
      (∃ before, added.deleteReport .plain [97] = .nullCall before ∧
        [97] ∈ before.mainList.list.reports) ∧
      ¬ added.DeletesEverywhere .plain [97] := by
  refine ⟨_, rfl, ⟨_, rfl, by decide⟩, ?_⟩
  rintro ⟨after, hdone, -⟩
  cases hdone

end ReportManager

end Tinypinba
