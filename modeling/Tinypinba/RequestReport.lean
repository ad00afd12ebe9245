import Tinypinba.Report

/-! # Request reports

`RequestReport` records a request under the group its virtual `get_index` names (`base_report.cc`).
`get_or_create` looks the group up and, when it is missing, *builds* one with `create_new_data`; it
does not store what it built. `DataRef` keeps that difference: the object a pointer leads to is either
stored in the map or known to nobody else. The sibling path `Report::merge_report` calls
`add_report_data` on what `create_new_data` returns, this one does not, so a request report that
starts empty stays empty (`runCalls_eq_self`). -/

namespace Tinypinba

variable {P : Type}

/-- The virtual functions of a request report class that recording uses. -/
structure RequestReportClass where
  /-- `get_index`; `none` is `NULL`. -/
  getIndex : PinbaRequest → Option CString
  /-- `create_new_data(request, index)`; `none` is `NULL`. -/
  createNewData : PinbaRequest → CString → Option ReportData
  /-- A new group counts nothing. -/
  createNewData_zero : ∀ request index data, createNewData request index = some data →
    data.reqCount = 0

/-- `RequestReport::get_index`: the server name. -/
def RequestReport.getIndex (request : PinbaRequest) : Option CString := some request.serverName

/-- What a non-`NULL` `ReportData*` points to. -/
inductive DataRef
  /-- The group stored in the report under an index. -/
  | stored (index : CString)
  /-- A new object that is in no report. -/
  | fresh (data : ReportData)

namespace RequestReport

variable (C : RequestReportClass)

/-- `RequestReport::get_or_create` -/
def getOrCreate (self : Report P) (request : PinbaRequest) (index : Option CString) :
    Option DataRef :=
  match index with
  | none => none
  | some index =>
    match self.getReportData index with
    | some _ => some (.stored index)
    -- `data = create_new_data(request, index)`, and no `add_report_data`
    | none => (C.createNewData request index).map .fresh

/-- Change the object a pointer leads to: a stored group changes in the report, a fresh object is lost
when the caller returns. -/
def modifyRef (self : Report P) (ref : DataRef) (f : ReportData → ReportData) : Report P :=
  match ref with
  | .stored index => { self with reportData := self.reportData.modify index f }
  | .fresh _ => self

/-- The common body of `add_record` and `del_record`: find or create the group of the request and
apply `f` to it. The result is `0` on success and `-1` otherwise. -/
def record (f : ReportData → ReportData) (self : Report P) (request : PinbaRequest) :
    Report P × ℤ :=
  match C.getIndex request with
  | none => (self, -1)
  | some index =>
    match getOrCreate C self request (some index) with
    | none => (self, -1)
    | some ref => (modifyRef self ref f, 0)

/-- `RequestReport::add_record` -/
def addRecord (self : Report P) (request : PinbaRequest) : Report P × ℤ :=
  record C (·.addRecord request) self request

/-- `RequestReport::del_record`, with `get_or_create(request)` read as
`get_or_create(request, index)`. -/
def delRecord (self : Report P) (request : PinbaRequest) : Report P × ℤ :=
  record C (·.delRecord request) self request

/-! ## Sequences of calls -/

/-- A call on a request report. -/
inductive Call
  | add (request : PinbaRequest)
  | del (request : PinbaRequest)

/-- The request a call is about. -/
def Call.request : Call → PinbaRequest
  | .add request => request
  | .del request => request

/-- Make a call. -/
def Call.run (self : Report P) : Call → Report P × ℤ
  | .add request => addRecord C self request
  | .del request => delRecord C self request

/-- One entry of the history of a sequence of calls. -/
structure Made (P : Type) where
  /-- The report before the call. -/
  before : Report P
  /-- The call. -/
  call : Call
  /-- The report after the call. -/
  after : Report P
  /-- What the call returned. -/
  result : ℤ

/-- Make a sequence of calls and keep its history. -/
def runCalls (self : Report P) : List Call → Report P × List (Made P)
  | [] => (self, [])
  | call :: calls =>
    let (after, result) := call.run C self
    let (final, history) := runCalls after calls
    (final, ⟨self, call, after, result⟩ :: history)

/-- The successful calls of a history that name the group `g`, minus the deletions: each add counts
one and each delete minus one. -/
def netCount (history : List (Made P)) (g : CString) : ℤ :=
  (history.map fun made =>
    if made.result = 0 ∧ C.getIndex made.call.request = some g then
      match made.call with
      | .add _ => 1
      | .del _ => -1
    else 0).sum

/-- The group a request names exists in the report or can be created. -/
def CanRecord (self : Report P) (request : PinbaRequest) : Prop :=
  ∃ index, C.getIndex request = some index ∧
    ((self.getReportData index).isSome ∨ (C.createNewData request index).isSome)

/-- **The report counts exactly what was added and deleted**: calls succeed when they can record,
failing calls change nothing, and afterwards the groups are those named by successful calls, each with
the number of adds minus the number of deletes. -/
structure CountsExactly (report : Report P) (calls : List Call) : Prop where
  /-- A call returns `0` exactly when its group exists or can be created. -/
  returns : ∀ made ∈ (runCalls C report calls).2,
    (made.result = 0 ↔ CanRecord C made.before made.call.request)
  /-- Every group named by a successful call is there, with the right count. -/
  counted : ∀ made ∈ (runCalls C report calls).2, made.result = 0 →
    ∀ g, C.getIndex made.call.request = some g →
      ∃ data, (runCalls C report calls).1.getReportData g = some data ∧
        data.reqCount = netCount C (runCalls C report calls).2 g
  /-- There is no other group. -/
  noOther : ∀ g, ((runCalls C report calls).1.getReportData g).isSome →
    ∃ made ∈ (runCalls C report calls).2, made.result = 0 ∧ C.getIndex made.call.request = some g
  /-- A call that returns `-1` leaves the report unchanged. -/
  failed : ∀ made ∈ (runCalls C report calls).2, made.result = -1 → made.after = made.before

variable {C}

/-- The body of a call returns `0` or `-1`, and `0` exactly when it can record. -/
theorem record_snd (f : ReportData → ReportData) (self : Report P) (request : PinbaRequest) :
    ((record C f self request).2 = 0 ↔ CanRecord C self request) ∧
      ((record C f self request).2 = 0 ∨ record C f self request = (self, -1)) := by
  unfold record CanRecord
  cases hi : C.getIndex request with
  | none => simp
  | some index =>
    cases hg : self.getReportData index with
    | some data => simp [getOrCreate, hg]
    | none =>
      cases hc : C.createNewData request index with
      | none => simp [getOrCreate, hg, hc]
      | some data => simp [getOrCreate, hg, hc]

/-- The same for the two kinds of call. -/
theorem run_snd (self : Report P) (call : Call) :
    ((call.run C self).2 = 0 ↔ CanRecord C self call.request) ∧
      ((call.run C self).2 = 0 ∨ call.run C self = (self, -1)) := by
  cases call with
  | add request => exact record_snd _ self request
  | del request => exact record_snd _ self request

/-- **A new group is never stored**: recording on a report without the group leaves it as it is. -/
theorem record_fst_of_eq_none (f : ReportData → ReportData) (self : Report P)
    (request : PinbaRequest)
    (hself : ∀ g, C.getIndex request = some g → self.getReportData g = none) :
    (record C f self request).1 = self := by
  unfold record
  cases hi : C.getIndex request with
  | none => rfl
  | some index =>
    cases hc : C.createNewData request index with
    | none => simp [getOrCreate, hself index hi, hc]
    | some data => simp [getOrCreate, hself index hi, hc, modifyRef]

/-- So does either call. -/
theorem run_fst_of_eq_none (self : Report P) (call : Call)
    (hself : ∀ g, self.getReportData g = none) : (call.run C self).1 = self := by
  cases call with
  | add request => exact record_fst_of_eq_none _ self request fun g _ => hself g
  | del request => exact record_fst_of_eq_none _ self request fun g _ => hself g

/-- Calls on a report without groups leave it as it is, whatever they return. -/
theorem runCalls_eq_self (self : Report P) (hself : ∀ g, self.getReportData g = none)
    (calls : List Call) :
    (runCalls C self calls).1 = self ∧
      ∀ made ∈ (runCalls C self calls).2, made.before = self ∧ made.after = self ∧
        made.call ∈ calls ∧ made.result = (made.call.run C self).2 := by
  induction calls with
  | nil => exact ⟨rfl, by simp [runCalls]⟩
  | cons call calls ih =>
    -- the report is still empty after the first call
    have hfst : (call.run C self).1 = self := run_fst_of_eq_none self call hself
    simp only [runCalls, hfst]
    refine ⟨ih.1, fun made hmade => ?_⟩
    rcases List.mem_cons.mp hmade with rfl | hmade
    · exact ⟨rfl, rfl, List.mem_cons_self, rfl⟩
    · obtain ⟨hb, ha, hc, hr⟩ := ih.2 made hmade
      exact ⟨hb, ha, List.mem_cons_of_mem _ hc, hr⟩

/-- Every call of the sequence is in its history. -/
theorem mem_runCalls_of_mem (self : Report P) {calls : List Call} {call : Call}
    (h : call ∈ calls) : ∃ made ∈ (runCalls C self calls).2, made.call = call := by
  induction calls generalizing self with
  | nil => simp at h
  | cons c calls ih =>
    rcases List.mem_cons.mp h with rfl | h
    · exact ⟨_, List.mem_cons_self, rfl⟩
    · obtain ⟨made, hmade, hcall⟩ := ih (c.run C self).1 h
      exact ⟨made, List.mem_cons_of_mem _ hmade, hcall⟩

/-- On a report without groups a request can be recorded iff its class can create its group. -/
theorem canRecord_of_eq_none (self : Report P) (hself : ∀ g, self.getReportData g = none)
    (request : PinbaRequest) :
    CanRecord C self request ↔
      ∃ g, C.getIndex request = some g ∧ (C.createNewData request g).isSome := by
  simp only [CanRecord, hself, Option.isSome_none, Bool.false_eq_true, false_or]

/-- A report nothing was recorded in. -/
def emptyReport (producer : P) : Report P := ⟨producer, ∅⟩

/-- An empty report has no group. -/
theorem getReportData_emptyReport (producer : P) (g : CString) :
    (emptyReport producer).getReportData g = none := by
  simp [emptyReport, Report.getReportData]

/-- **When a request report counts exactly what was recorded.** From an empty report it does if and
only if no call of the sequence gets as far as a group: the index of every request is `NULL` or
`create_new_data` returns `NULL` for it. Every other call returns `0` and its count is lost with the
group that was created and never stored. -/
theorem countsExactly_iff (producer : P) (calls : List Call) :
    CountsExactly C (emptyReport producer) calls ↔
      ∀ call ∈ calls, ∀ g, C.getIndex call.request = some g →
        C.createNewData call.request g = none := by
  have hself := getReportData_emptyReport producer
  obtain ⟨hfinal, hhistory⟩ := runCalls_eq_self (C := C) (emptyReport producer) hself calls
  have hreturns : ∀ made ∈ (runCalls C (emptyReport producer) calls).2,
      (made.result = 0 ↔ CanRecord C made.before made.call.request) := by
    intro made hmade
    obtain ⟨hb, -, -, hr⟩ := hhistory made hmade
    rw [hr, hb]
    exact (run_snd _ _).1
  constructor
  · -- a call that creates a group returns `0`, and no such group is there afterwards
    intro h call hcall g hg
    obtain ⟨made, hmade, rfl⟩ := mem_runCalls_of_mem (C := C) (emptyReport producer) hcall
    by_contra hcreate
    have hzero : made.result = 0 := by
      rw [hreturns made hmade, (hhistory made hmade).1, canRecord_of_eq_none _ hself]
      exact ⟨g, hg, Option.isSome_iff_ne_none.mpr hcreate⟩
    obtain ⟨data, hdata, -⟩ := h.counted made hmade hzero g hg
    rw [hfinal, hself g] at hdata
    cases hdata
  · intro h
    refine ⟨hreturns, fun made hmade hzero => ?_, fun g hg => ?_, fun made hmade _ => ?_⟩
    · -- no call can have returned `0`
      rw [hreturns made hmade, (hhistory made hmade).1, canRecord_of_eq_none _ hself] at hzero
      obtain ⟨g, hg, hsome⟩ := hzero
      rw [h made.call (hhistory made hmade).2.2.1 g hg] at hsome
      cases hsome
    · rw [hfinal, hself g] at hg
      cases hg
    · rw [(hhistory made hmade).1, (hhistory made hmade).2.1]

/-- The plain request report: grouped by server name, every group can be created. -/
def byServerName : RequestReportClass where
  getIndex := RequestReport.getIndex
  createNewData _ _ := some .new
  createNewData_zero := by
    rintro - - - ⟨⟩
    rfl

/-- One request for `"www"`, recorded in an empty report by server name: `add_record` returns `0`, and
the report has no such group. -/
theorem not_countsExactly_byServerName :
    (addRecord byServerName (emptyReport ()) BaseData.sevenKbytes).2 = 0 ∧
      (addRecord byServerName (emptyReport ()) BaseData.sevenKbytes).1.getReportData
        BaseData.sevenKbytes.serverName = none ∧
      ¬ CountsExactly byServerName (emptyReport ()) [.add BaseData.sevenKbytes] := by
  refine ⟨by decide, by decide, fun h => ?_⟩
  obtain ⟨data, hdata, -⟩ := h.counted _ List.mem_cons_self (by decide)
    BaseData.sevenKbytes.serverName rfl
  have hnone : (runCalls byServerName (emptyReport ()) [.add BaseData.sevenKbytes]).1.getReportData
      BaseData.sevenKbytes.serverName = none := by decide
  rw [hnone] at hdata
  cases hdata

end RequestReport

end Tinypinba
