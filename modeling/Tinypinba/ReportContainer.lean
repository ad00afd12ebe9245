import Tinypinba.ReportList
import Tinypinba.Foundation.KeyedLoop

/-! # Report containers

A `ReportContainer` owns `n` report lists, its chunks, and hands them back and forth between one
worker and the merger through two queues (`report_container.h`, `report_container.cc`). Pointers into
`report_chunks` are indices `Fin n`. Every chunk has a queue of report commands in `cmd_map`; a
command with a `NULL` producer is a deletion.

`return_empty_list` is modelled as its two critical sections, `applyCommands` under `cmd_lock` and
`pushEmpty` under `chunk_lock`: other calls may fall between them. -/

namespace Tinypinba

open CommandLog
open Function (update)

/-- `report_cmd_t`; a `NULL` producer stands for a deletion. -/
structure ReportCmd (P : Type) where
  /-- `producer` -/
  producer : Option P
  /-- `type` -/
  type : StdString
  deriving DecidableEq

/-- `ReportContainer` with `chunk_count = n`. -/
structure ReportContainer (P : Type) (n : ℕ) where
  /-- `empty_chunks`, front first. -/
  emptyChunks : List (Fin n)
  /-- `full_chunks`, front first. -/
  fullChunks : List (Fin n)
  /-- `report_chunks` -/
  reportChunks : Fin n → ReportList P
  /-- `cmd_map` -/
  cmdMap : Fin n → List (ReportCmd P)

variable {P : Type} (V : ReportClasses P) {n : ℕ}

/-- Apply one command to a list: the body of the loop in `return_empty_list`. -/
def ReportList.applyCmd (self : ReportList P) (cmd : ReportCmd P) : ReportList P :=
  match cmd.producer with
  -- `if (it->producer)`; `add_report` may find the type taken, its result is not looked at
  | some producer => (self.addReport (createReport V producer) cmd.type).1
  | none => self.delReport cmd.type

/-- The loop of `return_empty_list`: apply the front command and erase it until the queue is empty.
Returns what is left of the queue, and the list. -/
def ReportList.applyCmds : List (ReportCmd P) → ReportList P → List (ReportCmd P) × ReportList P
  | [], self => ([], self)
  | cmd :: cmds, self => applyCmds cmds (self.applyCmd V cmd)

namespace ReportContainer

/-- `ReportContainer(chunks)` -/
def new (P : Type) (n : ℕ) : ReportContainer P n where
  emptyChunks := List.finRange n
  fullChunks := []
  reportChunks _ := .new
  cmdMap _ := []

/-- `ReportContainer::add_report`: push the command onto the queue of every chunk. -/
def addReport (self : ReportContainer P n) (producer : Option P) (type : StdString) :
    ReportContainer P n :=
  { self with
    cmdMap := (List.finRange n).foldl (fun cmdMap i => update cmdMap i (cmdMap i ++ [⟨producer, type⟩]))
      self.cmdMap }

/-- `ReportContainer::del_report` -/
def delReport (self : ReportContainer P n) (type : StdString) : ReportContainer P n :=
  self.addReport none type

/-- `ReportContainer::get_emty_list` -/
def getEmtyList (self : ReportContainer P n) : Option (Fin n) × ReportContainer P n :=
  match self.emptyChunks with
  | [] => (none, self)
  | reports :: rest => (some reports, { self with emptyChunks := rest })

/-- `ReportContainer::get_full_list` -/
def getFullList (self : ReportContainer P n) : Option (Fin n) × ReportContainer P n :=
  match self.fullChunks with
  | [] => (none, self)
  | reports :: rest => (some reports, { self with fullChunks := rest })

/-- `ReportContainer::return_full_list` -/
def returnFullList (self : ReportContainer P n) (reports : Option (Fin n)) : ReportContainer P n :=
  match reports with
  | none => self
  | some reports => { self with fullChunks := self.fullChunks ++ [reports] }

/-- The part of `return_empty_list` under `cmd_lock`: apply the pending commands to the list. -/
def applyCommands (self : ReportContainer P n) (reports : Fin n) : ReportContainer P n :=
  let (rest, list) := ReportList.applyCmds V (self.cmdMap reports) (self.reportChunks reports)
  { self with
    cmdMap := update self.cmdMap reports rest
    reportChunks := update self.reportChunks reports list }

/-- The part of `return_empty_list` under `chunk_lock`: publish the list. -/
def pushEmpty (self : ReportContainer P n) (reports : Fin n) : ReportContainer P n :=
  { self with emptyChunks := self.emptyChunks ++ [reports] }

/-- `ReportContainer::return_empty_list` -/
def returnEmptyList (self : ReportContainer P n) (reports : Option (Fin n)) :
    ReportContainer P n :=
  match reports with
  | none => self
  | some reports => (self.applyCommands V reports).pushEmpty reports

/-- Replace the contents of a chunk: what a worker or the merger does to a list it holds. -/
def setChunk (self : ReportContainer P n) (chunk : Fin n) (list : ReportList P) :
    ReportContainer P n :=
  { self with reportChunks := update self.reportChunks chunk list }

end ReportContainer

/-! ## Commands as registry commands -/

/-- A report command as a command on the registry of a list's types. -/
def ReportCmd.command (cmd : ReportCmd P) : Command StdString (Option P) :=
  match cmd.producer with
  | some producer => .add cmd.type ((createReport V producer).map Report.producer)
  | none => .del cmd.type

/-- A command with a producer is an addition. -/
theorem ReportCmd.command_of_some (producer : P) (type : StdString) :
    (⟨some producer, type⟩ : ReportCmd P).command V =
      .add type ((createReport V producer).map Report.producer) := rfl

/-- A command is about its type. -/
@[simp] theorem ReportCmd.key_command (cmd : ReportCmd P) : (cmd.command V).key = cmd.type := by
  unfold command
  cases cmd.producer <;> rfl

/-- The loop empties the queue and applies every command once, in order. -/
@[simp] theorem ReportList.applyCmds_eq (cmds : List (ReportCmd P)) (self : ReportList P) :
    applyCmds V cmds self = ([], cmds.foldl (applyCmd V) self) := by
  induction cmds generalizing self with
  | nil => rfl
  | cons cmd cmds ih => exact ih _

/-- Applying a command acts on the types of a list as the registry command. -/
theorem ReportList.kinds_applyCmd (self : ReportList P) (cmd : ReportCmd P) :
    (self.applyCmd V cmd).kinds = Registry.apply self.kinds (cmd.command V) := by
  unfold applyCmd ReportCmd.command
  cases cmd.producer with
  | some producer => exact kinds_addReport self _ cmd.type
  | none => exact kinds_delReport self cmd.type

/-- Applying commands replays them on the types of the list. -/
theorem ReportList.kinds_foldl_applyCmd (self : ReportList P) (cmds : List (ReportCmd P)) :
    (cmds.foldl (applyCmd V) self).kinds = Registry.replay self.kinds (cmds.map (·.command V)) := by
  induction cmds generalizing self with
  | nil => rfl
  | cons cmd cmds ih => rw [List.foldl_cons, ih, kinds_applyCmd, List.map_cons, Registry.replay_cons]

namespace ReportContainer

/-! ## What each operation changes -/

/-- `add_report` appends its command to every queue. -/
@[simp] theorem cmdMap_addReport (self : ReportContainer P n) (producer : Option P)
    (type : StdString) :
    (self.addReport producer type).cmdMap = fun i => self.cmdMap i ++ [⟨producer, type⟩] :=
  KeyedLoop.foldl_finRange_update
    (fun _ cmds => cmds ++ [ReportCmd.mk producer type]) self.cmdMap

@[simp] theorem reportChunks_addReport (self : ReportContainer P n) (producer : Option P)
    (type : StdString) : (self.addReport producer type).reportChunks = self.reportChunks := rfl

@[simp] theorem emptyChunks_addReport (self : ReportContainer P n) (producer : Option P)
    (type : StdString) : (self.addReport producer type).emptyChunks = self.emptyChunks := rfl

@[simp] theorem fullChunks_addReport (self : ReportContainer P n) (producer : Option P)
    (type : StdString) : (self.addReport producer type).fullChunks = self.fullChunks := rfl

/-- Applying the commands for a chunk empties its queue. -/
@[simp] theorem cmdMap_applyCommands (self : ReportContainer P n) (reports : Fin n) :
    (self.applyCommands V reports).cmdMap = update self.cmdMap reports [] := by
  simp [applyCommands]

/-- It makes the chunk, and no other, what its commands say. -/
@[simp] theorem reportChunks_applyCommands (self : ReportContainer P n) (reports : Fin n) :
    (self.applyCommands V reports).reportChunks = update self.reportChunks reports
      ((self.cmdMap reports).foldl (ReportList.applyCmd V) (self.reportChunks reports)) := by
  simp [applyCommands]

@[simp] theorem emptyChunks_applyCommands (self : ReportContainer P n) (reports : Fin n) :
    (self.applyCommands V reports).emptyChunks = self.emptyChunks := rfl

@[simp] theorem fullChunks_applyCommands (self : ReportContainer P n) (reports : Fin n) :
    (self.applyCommands V reports).fullChunks = self.fullChunks := rfl

/-- **Applying commands to one chunk never changes another chunk's list or queue.** -/
theorem applyCommands_of_ne (self : ReportContainer P n) {reports chunk : Fin n}
    (h : chunk ≠ reports) :
    (self.applyCommands V reports).reportChunks chunk = self.reportChunks chunk ∧
      (self.applyCommands V reports).cmdMap chunk = self.cmdMap chunk := by
  simp [h]

/-- Taking an empty list changes neither lists nor commands. -/
@[simp] theorem reportChunks_getEmtyList (self : ReportContainer P n) :
    self.getEmtyList.2.reportChunks = self.reportChunks := by
  unfold getEmtyList
  split <;> rfl

@[simp] theorem cmdMap_getEmtyList (self : ReportContainer P n) :
    self.getEmtyList.2.cmdMap = self.cmdMap := by
  unfold getEmtyList
  split <;> rfl

/-- Neither does taking a full list. -/
@[simp] theorem reportChunks_getFullList (self : ReportContainer P n) :
    self.getFullList.2.reportChunks = self.reportChunks := by
  unfold getFullList
  split <;> rfl

@[simp] theorem cmdMap_getFullList (self : ReportContainer P n) :
    self.getFullList.2.cmdMap = self.cmdMap := by
  unfold getFullList
  split <;> rfl

/-- Neither does returning a full one. -/
@[simp] theorem reportChunks_returnFullList (self : ReportContainer P n)
    (reports : Option (Fin n)) :
    (self.returnFullList reports).reportChunks = self.reportChunks := by
  cases reports <;> rfl

@[simp] theorem cmdMap_returnFullList (self : ReportContainer P n) (reports : Option (Fin n)) :
    (self.returnFullList reports).cmdMap = self.cmdMap := by
  cases reports <;> rfl

end ReportContainer

end Tinypinba
