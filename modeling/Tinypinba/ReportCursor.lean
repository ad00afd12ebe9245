import Tinypinba.Report
import Tinypinba.Foundation.MapCursor
import Tinypinba.Foundation.Machine

/-! # Walking a report

`get_report_data_first` and `get_report_data_next` (`reports.cc`) are the cursor of `main` over a
report: the loop keeps the entry returned last and asks for the one after its `get_index()`
(`main.cc`). A `ReportData*` returned by them is modelled by the entry it is stored as, key and data;
`get_index()` is assumed to return that key.

`reportWalk` is the loop over a report that is merged into and cleared between its steps. Its runs are
walks of the cursor library, so they inherit `MapCursor.Walked`. -/

namespace Tinypinba

open Transition MapCursor

variable {P : Type}

namespace Report

/-- `get_index()` of an entry. -/
def getIndex (rdata : CString × ReportData) : CString := rdata.1

/-- `Report::get_report_data_first`; `none` is `NULL`. -/
def getReportDataFirst (self : Report P) : Option (CString × ReportData) := first? self.reportData

/-- `Report::get_report_data_next`; `none` is `NULL`. -/
def getReportDataNext (self : Report P) (index : CString) : Option (CString × ReportData) :=
  upperBound? self.reportData index

/-- The body of the merge loop removes no group. -/
theorem mem_of_mergeEntry {createNewData : ReportData → Option ReportData} {map map' : ReportMap}
    {index : CString} {data : ReportData} (h : mergeEntry createNewData map index data = some map')
    {g : CString} (hg : g ∈ map) : g ∈ map' := by
  unfold mergeEntry at h
  split at h
  · split at h
    · obtain rfl := Option.some.inj h
      exact hg
    · obtain ⟨new, -, rfl⟩ := Option.map_eq_some_iff.mp h
      rw [Std.ExtTreeMap.mem_modify, addReportData, Std.ExtTreeMap.mem_insert]
      exact .inr hg
  · obtain rfl := Option.some.inj h
    exact Std.ExtTreeMap.mem_modify.mpr hg

/-- A merge removes no group. -/
theorem mem_of_mergeReport {createNewData : ReportData → Option ReportData} {self report r : Report P}
    (h : mergeReport createNewData self report = some r) {g : CString} (hg : g ∈ self.reportData) :
    g ∈ r.reportData := by
  obtain ⟨map, hmap, rfl⟩ := Option.map_eq_some_iff.mp h
  exact KeyedLoop.foldlM_invariant (mergeEntry createNewData) (fun map => g ∈ map) report.reportData
    (fun _ _ _ _ _ hmem hbody => mem_of_mergeEntry hbody hmem) hg hmap

/-- Clearing removes no group and creates none. -/
theorem mem_clear {self : Report P} {g : CString} : g ∈ self.clear.reportData ↔ g ∈ self.reportData :=
  Std.ExtTreeMap.mem_map

/-- A group exists iff its index is a key. -/
theorem isSome_getReportData {self : Report P} {g : CString} :
    (self.getReportData g).isSome ↔ g ∈ self.reportData :=
  Std.ExtTreeMap.isSome_getElem?_iff_mem

end Report

/-- The walking loop, between two of its steps. -/
structure ReportWalk (P : Type) where
  /-- The report. -/
  report : Report P
  /-- `rdata`, by the index of the entry; `Position.done` is `NULL`. -/
  rdata : Position CString
  /-- History: the indices of the entries visited, in order. -/
  visited : List CString

/-- A step of the loop, or a call that falls between two of them. -/
inductive WalkLabel (P : Type)
  /-- The next cursor call. -/
  | cursor
  /-- `merge_report(other)` into the report. -/
  | mergeReport (other : Report P)
  /-- `clear()` -/
  | clear

namespace ReportWalk

/-- Store what a cursor call returned in `rdata`. -/
def goTo (s : ReportWalk P) : Option (CString × ReportData) → ReportWalk P
  | none => { s with rdata := .done }
  | some rdata =>
    { s with rdata := .at (Report.getIndex rdata), visited := s.visited ++ [Report.getIndex rdata] }

/-- A step. -/
def step (createNewData : P → ReportData → Option ReportData) (s : ReportWalk P) :
    WalkLabel P → Option (ReportWalk P)
  | .cursor =>
    match s.rdata with
    | .start => some (s.goTo s.report.getReportDataFirst)
    | .at index => some (s.goTo (s.report.getReportDataNext index))
    -- `while (rdata)` has ended
    | .done => none
  | .mergeReport other =>
    (s.report.mergeReport (createNewData s.report.producer) other).map fun report =>
      { s with report := report }
  | .clear => some { s with report := s.report.clear }

end ReportWalk

/-- The machine of the walk over `report`. -/
def reportWalk (createNewData : P → ReportData → Option ReportData) (report : Report P) :
    Machine (ReportWalk P) (WalkLabel P) :=
  ⟨⟨report, .start, []⟩, ReportWalk.step createNewData⟩

namespace ReportWalk

variable {createNewData : P → ReportData → Option ReportData} {report : Report P} {s s' : ReportWalk P}

/-- A cursor call is a step of the cursor library, in every position but the end. -/
theorem step_cursor (h : s.rdata ≠ .done) :
    (reportWalk createNewData report).step s .cursor =
      some (s.goTo (advance? s.report.reportData s.rdata)) := by
  cases hpos : s.rdata with
  | start => simp only [reportWalk, step, hpos]; rfl
  | «at» index => simp only [reportWalk, step, hpos]; rfl
  | done => exact absurd hpos h

/-- **Every run is a walk.** -/
theorem walked {run : List (WalkLabel P)} (h : (reportWalk createNewData report).Run run s) :
    Walked report.reportData s.report.reportData s.rdata s.visited := by
  induction h with
  | nil => exact .start
  | @snoc _ s s' label _ hstep ih =>
    cases label with
    | cursor =>
      have hpos : s.rdata ≠ .done := by
        intro hdone
        simp [reportWalk, step, hdone] at hstep
      obtain rfl : s.goTo (advance? s.report.reportData s.rdata) = s' :=
        Option.some.inj ((step_cursor hpos).symm.trans hstep)
      cases hnext : advance? s.report.reportData s.rdata with
      | none => exact ih.finish hnext
      | some rdata => exact ih.advance hnext
    | mergeReport other =>
      obtain ⟨merged, hmerged, rfl⟩ := Option.map_eq_some_iff.mp hstep
      exact ih.grow fun g hg => Report.mem_of_mergeReport hmerged hg
    | clear =>
      obtain rfl := Option.some.inj hstep
      exact ih.grow fun g hg => Report.mem_clear.mpr hg

/-- **Left alone, the loop visits what is ahead and ends.** -/
theorem execFrom_cursor (hpos : s.rdata ≠ .done) :
    (reportWalk createNewData report).execFrom s
        (List.replicate ((entriesAbove s.report.reportData s.rdata).length + 1) .cursor) =
      some { s with
        rdata := .done
        visited := s.visited ++ (entriesAbove s.report.reportData s.rdata).map Prod.fst } := by
  -- induction on what is ahead of the cursor
  generalize hahead : entriesAbove s.report.reportData s.rdata = l
  induction l generalizing s with
  | nil =>
    rw [List.length_nil, List.replicate_one, Machine.execFrom_cons, step_cursor hpos,
      advance?_eq_none hahead]
    simp [goTo]
  | cons rdata l ih =>
    obtain ⟨hsome, hrest⟩ := advance?_eq_some hahead
    have hpos' : (s.goTo (some rdata)).rdata ≠ .done := by simp [goTo]
    rw [List.length_cons, List.replicate_succ, Machine.execFrom_cons, step_cursor hpos, hsome,
      Option.bind_some, ih hpos' hrest]
    simp [goTo, Report.getIndex]

/-- **Cursor iteration is complete and never repeats.** In every run of the loop, with any merges into
the report and any clearing of it between its steps, the indices visited are strictly ascending and are
those of groups of the report, and when the loop has ended every group that was there at its start has
been visited. With no call in between, the loop ends after the call of `get_report_data_first` and one
call of `get_report_data_next` for each group, and has visited every group once in ascending order. -/
theorem cursor_complete_and_never_repeats (createNewData : P → ReportData → Option ReportData)
    (report : Report P) :
    (∀ run s, (reportWalk createNewData report).Run run s →
      s.visited.Pairwise (fun a b => compare a b = .lt) ∧
      (s.rdata = .done → ∀ g, (report.getReportData g).isSome → g ∈ s.visited) ∧
      ∀ g ∈ s.visited, (s.report.getReportData g).isSome) ∧
    ∃ s, (reportWalk createNewData report).Run
        (List.replicate (report.reportData.size + 1) .cursor) s ∧
      s.rdata = .done ∧ s.visited = report.reportData.keys := by
  constructor
  · intro run s h
    have hwalk := walked h
    refine ⟨hwalk.ascending, fun hdone g hg => ?_, fun g hg => ?_⟩
    · refine (hwalk.complete g (Report.isSome_getReportData.mp hg)).resolve_right fun hahead => ?_
      rw [hdone] at hahead
      cases hahead
    · exact Report.isSome_getReportData.mpr (hwalk.present g hg)
  · have hstart : (⟨report, .start, []⟩ : ReportWalk P).rdata ≠ .done := by simp
    have hrun : (reportWalk createNewData report).execFrom ⟨report, .start, []⟩ _ = _ :=
      execFrom_cursor hstart
    rw [entriesAbove_start, Std.ExtTreeMap.length_toList] at hrun
    refine ⟨_, Machine.run_iff_exec.mpr hrun, rfl, ?_⟩
    rw [List.nil_append, Std.ExtTreeMap.map_fst_toList_eq_keys]

/-- A report with one request under `"b"`. -/
def oneGroup : Report Unit :=
  ⟨(), (∅ : ReportMap).insert (.ofBuffer [98]) { ReportData.new with reqCount := 1 }⟩

/-- A report with one request under `"a"` and one under `"c"`. -/
def twoGroups : Report Unit :=
  ⟨(), (∅ : ReportMap).insert (.ofBuffer [97]) { ReportData.new with reqCount := 1 }
    |>.insert (.ofBuffer [99]) { ReportData.new with reqCount := 1 }⟩

/-- While the loop is at `"b"` the report gains a group on either side: it goes on to the later one. -/
theorem cursor_complete_and_never_repeats_twoGroups :
    ∃ s, (reportWalk (fun _ _ => some .new) oneGroup).Run
        [.cursor, .mergeReport twoGroups, .clear, .cursor, .cursor] s ∧
      s.visited.Pairwise (fun a b => compare a b = .lt) ∧ CString.ofBuffer [98] ∈ s.visited ∧
      ∀ g ∈ s.visited, (s.report.getReportData g).isSome := by
  obtain ⟨s, hrun, hdone⟩ : ∃ s, (reportWalk (fun _ _ => some .new) oneGroup).Run
      [.cursor, .mergeReport twoGroups, .clear, .cursor, .cursor] s ∧ s.rdata = .done :=
    ⟨_, Machine.run_iff_exec.mpr rfl, rfl⟩
  obtain ⟨hascending, hcomplete, hpresent⟩ :=
    (cursor_complete_and_never_repeats (fun _ _ => some .new) oneGroup).1 _ s hrun
  exact ⟨s, hrun, hascending, hcomplete hdone _ rfl, hpresent⟩

end ReportWalk

/-! ## Printing a report -/

namespace ReportData

/-- `ReportData::print_record`: the lines it prints, and its result. -/
def printRecord (self : ReportData) (position : ℕ) : List ℤ × ℤ :=
  if position = 1 then ([self.reqCount], 0) else ([], -1)

/-- A position that is printed is `1`. -/
theorem position_eq_of_printRecord {self : ReportData} {position : ℕ}
    (h : (self.printRecord position).2 = 0) : position = 1 := by
  unfold printRecord at h
  split at h
  · assumption
  · cases h

/-- `while (rdata->print_record(i++) == 0) ;` from the position `i` on: the lines it prints. -/
def printRecords (self : ReportData) (i : ℕ) : List ℤ :=
  if _h : (self.printRecord i).2 = 0 then (self.printRecord i).1 ++ self.printRecords (i + 1)
  else (self.printRecord i).1
termination_by 2 - i
decreasing_by
  have := position_eq_of_printRecord ‹_›
  omega

/-- The position the loop of `main` starts from is not one `print_record` accepts. -/
@[simp] theorem printRecords_zero (self : ReportData) : self.printRecords 0 = [] := by
  rw [printRecords, printRecord]
  simp

end ReportData

namespace Report

/-- What the cursor still has ahead of it, the entry it is at included. -/
def remaining (self : Report P) : Option (CString × ReportData) → ℕ
  | none => 0
  | some rdata => (entriesAbove self.reportData (.at (getIndex rdata))).length + 1

/-- Each call of `get_report_data_next` leaves less. -/
theorem remaining_getReportDataNext (self : Report P) (rdata : CString × ReportData) :
    self.remaining (self.getReportDataNext (getIndex rdata)) < self.remaining (some rdata) := by
  cases hnext : self.getReportDataNext (getIndex rdata) with
  | none => exact Nat.succ_pos _
  | some next =>
    have hcons : entriesAbove self.reportData (.at (getIndex rdata)) = _ :=
      entriesAbove_eq_cons self.reportData hnext
    rw [remaining, remaining, hcons, List.length_cons]
    exact Nat.lt_succ_self _

/-- `while (rdata)` in `main`: the lines it prints. -/
def dumpLoop (self : Report P) (rdata : Option (CString × ReportData)) : List ℤ :=
  match rdata with
  | none => []
  | some rdata => rdata.2.printRecords 0 ++ self.dumpLoop (self.getReportDataNext (getIndex rdata))
termination_by self.remaining rdata
decreasing_by exact self.remaining_getReportDataNext rdata

/-- What the console prints for a report. -/
def dump (self : Report P) : List ℤ := self.dumpLoop self.getReportDataFirst

/-- The console loop prints the groups ahead of the cursor, one after the other. -/
theorem dumpLoop_eq_flatMap (self : Report P) (pos : Position CString) :
    self.dumpLoop (advance? self.reportData pos) =
      (entriesAbove self.reportData pos).flatMap fun rdata => rdata.2.printRecords 0 := by
  generalize hahead : entriesAbove self.reportData pos = l
  induction l generalizing pos with
  | nil =>
    rw [advance?_eq_none hahead, dumpLoop, List.flatMap_nil]
  | cons rdata l ih =>
    obtain ⟨hsome, hrest⟩ := advance?_eq_some hahead
    rw [hsome, dumpLoop, List.flatMap_cons, ← ih _ hrest]
    rfl

/-- **The console prints nothing**, whatever the report: `print_record` refuses the position `0` that the
inner loop starts from, and a refusal ends that loop. -/
theorem dump_eq_nil (self : Report P) : self.dump = [] := by
  have hdump : self.dump = _ := self.dumpLoop_eq_flatMap .start
  rw [hdump, List.flatMap_eq_nil_iff]
  intro rdata _
  exact ReportData.printRecords_zero rdata.2

/-- **When the console shows every group**: only when there is none. -/
theorem dump_eq_counts_iff (self : Report P) :
    self.dump = self.reportData.toList.map (fun rdata => rdata.2.reqCount) ↔
      ∀ g, self.getReportData g = none := by
  rw [dump_eq_nil, eq_comm, List.map_eq_nil_iff, Std.ExtTreeMap.toList_eq_nil_iff]
  constructor
  · intro h g
    rw [getReportData, h]
    simp
  · intro h
    exact Std.ExtTreeMap.ext_getElem? fun {g} => (h g).trans (by simp)

/-- A report with one group, and the console is silent. -/
theorem dump_oneGroup :
    ReportWalk.oneGroup.dump ≠ ReportWalk.oneGroup.reportData.toList.map fun rdata => rdata.2.reqCount := by
  rw [dump_eq_nil]
  decide

end Report

end Tinypinba
