import Tinypinba.ReportList
import Tinypinba.Foundation.Machine

/-! # The main list and its readers

`SharedReportList` (`report_list.h`) is the main list: a `ReportList` with a mutex that `add_report`
and `del_report` take for the duration of the call and `get_report` leaves locked until
`return_report`. `merge_reports` is not overridden and takes no lock.

The machine `mainList` has one step for every call on the main list; a call that takes the mutex is
not enabled while it is locked. A reader's session keeps the list as it was when `get_report`
returned, and `Stable` says that what the reader looks at is still the same. `stable_iff` determines
which runs keep it so. -/

namespace Tinypinba

open Transition

variable {P : Type} (V : ReportClasses P)

/-- `SharedReportList`: the list and the state of its mutex. -/
structure SharedReportList (P : Type) where
  /-- The `ReportList` part. -/
  list : ReportList P
  /-- `lock` is held. -/
  locked : Bool

namespace SharedReportList

/-- `SharedReportList()` -/
def new : SharedReportList P := ⟨.new, false⟩

/-- `SharedReportList::add_report`; `none` while the mutex is held by somebody else. -/
def addReport (self : SharedReportList P) (report : Report P) (type : StdString) :
    Option (SharedReportList P) :=
  if self.locked then none else some { self with list := (self.list.addReport (some report) type).1 }

/-- `SharedReportList::del_report` -/
def delReport (self : SharedReportList P) (type : StdString) : Option (SharedReportList P) :=
  if self.locked then none else some { self with list := self.list.delReport type }

/-- `SharedReportList::get_report`: returns with the mutex held. -/
def getReport (self : SharedReportList P) (type : StdString) :
    Option (Option (Report P) × SharedReportList P) :=
  if self.locked then none else some (self.list.getReport type, { self with locked := true })

/-- `SharedReportList::return_report` -/
def returnReport (self : SharedReportList P) : SharedReportList P := { self with locked := false }

end SharedReportList

/-- A reader between `get_report` and `return_report`. -/
structure Session (P : Type) where
  /-- The type it asked for. -/
  type : StdString
  /-- History: the main list when `get_report` returned. -/
  seen : ReportList P

/-- The main list in use. -/
structure MainList (P : Type) where
  /-- The list and its mutex. -/
  shared : SharedReportList P
  /-- The reader's session, if there is one. -/
  session : Option (Session P)

/-- A call on the main list. -/
inductive MainLabel (P : Type)
  /-- `chunk->merge_reports(main_list)`, by the merger. -/
  | mergeReports (chunk : ReportList P)
  /-- `add_report(report, type)`; the caller has tested `report`. -/
  | addReport (report : Report P) (type : StdString)
  | delReport (type : StdString)
  /-- `ReportManager::get_report(type)` -/
  | getReport (type : StdString)
  /-- The reader looks at entries of its report. -/
  | readEntries
  /-- `ReportManager::return_report` -/
  | returnReport

namespace MainList

/-- The main list at the start. -/
def new : MainList P := ⟨.new, none⟩

/-- Make a call on the main list. -/
def step (s : MainList P) : MainLabel P → Option (MainList P)
  | .mergeReports chunk =>
    (chunk.mergeReports V s.shared.list).map fun merging =>
      { s with shared := { s.shared with list := merging.main } }
  | .addReport report type =>
    (s.shared.addReport report type).map fun shared => { s with shared := shared }
  | .delReport type => (s.shared.delReport type).map fun shared => { s with shared := shared }
  | .getReport type =>
    (s.shared.getReport type).map fun result => ⟨result.2, some ⟨type, s.shared.list⟩⟩
  | .readEntries => s.session.map fun _ => s
  | .returnReport => s.session.map fun _ => ⟨s.shared.returnReport, none⟩

/-- The session's `get_report` returned a report. -/
def Session.hasReport (session : Session P) : Prop :=
  (session.seen.getReport session.type).isSome

/-- What a reader that got a report looks at is what it was when `get_report` returned: the counts of
its report, and the types of the main list. -/
def Stable (s : MainList P) : Prop :=
  ∀ session, s.session = some session → Session.hasReport session →
    (s.shared.list.getReport session.type).map Report.counts =
      (session.seen.getReport session.type).map Report.counts ∧
    ∀ type : StdString, type ∈ s.shared.list.reports ↔ type ∈ session.seen.reports

/-- A merge made while a reader holds a report, of a list that counts something under its type. -/
def Disturbs (s : MainList P) (label : MainLabel P) : Prop :=
  ∃ chunk session g, label = .mergeReports chunk ∧ s.session = some session ∧
    Session.hasReport session ∧ chunk.count session.type g ≠ 0

end MainList

/-- The machine of the main list. -/
def mainList : Machine (MainList P) (MainLabel P) := ⟨.new, MainList.step V⟩

namespace ReportList

/-- The types of a list are the keys of its registry of classes. -/
theorem mem_reports_iff (self : ReportList P) (type : StdString) :
    type ∈ self.reports ↔ (self.kinds type).isSome := by
  rw [kinds, Option.isSome_map, Std.ExtTreeMap.mem_iff_isSome_getElem?]

/-- A list with a report under a type has the type. -/
theorem isSome_kinds_of_getReport {self : ReportList P} {type : StdString}
    (h : (self.getReport type).isSome) : (self.kinds type).isSome := by
  obtain ⟨report, hreport⟩ := Option.isSome_iff_exists.mp h
  simp [kinds, getReport_eq_some_iff.mp hreport]

/-- Counts are read off the map of counts of the report. -/
theorem count_eq_of_counts_eq {a b : ReportList P} {type : StdString}
    (h : (a.getReport type).map Report.counts = (b.getReport type).map Report.counts)
    (g : CString) : a.count type g = b.count type g := by
  unfold count
  cases ha : a.getReport type <;> cases hb : b.getReport type <;>
    simp_all [Report.count_eq_counts]

/-- Adding a report keeps a list without `NULL` entries. -/
theorem NonNull.addReport {self : ReportList P} (h : self.NonNull) (report : Report P)
    (type : StdString) : (self.addReport (some report) type).1.NonNull := by
  intro t
  by_cases ht : type = t
  · subst ht
    unfold ReportList.addReport
    cases hslot : self.reports[type]? with
    | some slot => exact h type
    | none => simp
  · rw [addReport_of_ne self _ ht]
    exact h t

/-- Deleting a report keeps a list without `NULL` entries. -/
theorem NonNull.delReport {self : ReportList P} (h : self.NonNull) (type : StdString) :
    (self.delReport type).NonNull := by
  intro t
  unfold ReportList.delReport
  cases self.reports[type]? with
  | none => exact h t
  | some slot =>
    rw [Std.ExtTreeMap.getElem?_erase]
    split
    · simp
    · exact h t

end ReportList

namespace MainList

variable {V}

/-! ## What a call can do -/

/-- Everything a call on the main list can do, with what it needs. -/
inductive StepCase (V : ReportClasses P) (s : MainList P) : MainLabel P → MainList P → Prop
  /-- A merge takes no lock. -/
  | mergeReports (chunk : ReportList P) (merging : ReportList.Merging P)
      (eq : chunk.mergeReports V s.shared.list = some merging) :
      StepCase V s (.mergeReports chunk) { s with shared := { s.shared with list := merging.main } }
  | addReport (report : Report P) (type : StdString) (free : s.shared.locked = false) :
      StepCase V s (.addReport report type)
        { s with shared := { s.shared with list := (s.shared.list.addReport (some report) type).1 } }
  | delReport (type : StdString) (free : s.shared.locked = false) :
      StepCase V s (.delReport type)
        { s with shared := { s.shared with list := s.shared.list.delReport type } }
  /-- A session begins. -/
  | getReport (type : StdString) (free : s.shared.locked = false) :
      StepCase V s (.getReport type) ⟨{ s.shared with locked := true }, some ⟨type, s.shared.list⟩⟩
  | readEntries (session : Session P) (reading : s.session = some session) :
      StepCase V s .readEntries s
  /-- The session ends. -/
  | returnReport (session : Session P) (reading : s.session = some session) :
      StepCase V s .returnReport ⟨{ s.shared with locked := false }, none⟩

/-- **Inversion**: every call is one of the cases. -/
theorem step_cases {s s' : MainList P} {label : MainLabel P} (h : s.step V label = some s') :
    StepCase V s label s' := by
  have hfree : ∀ {b : Bool}, ¬ b = true → b = false := fun hb => Bool.eq_false_iff.mpr hb
  cases label with
  | mergeReports chunk =>
    obtain ⟨merging, hmerging, rfl⟩ := Option.map_eq_some_iff.mp h
    exact .mergeReports chunk merging hmerging
  | addReport report type =>
    obtain ⟨shared, hshared, rfl⟩ := Option.map_eq_some_iff.mp h
    obtain ⟨hlock, heq⟩ := Option.ite_none_left_eq_some.mp hshared
    obtain rfl := Option.some.inj heq
    exact .addReport report type (hfree hlock)
  | delReport type =>
    obtain ⟨shared, hshared, rfl⟩ := Option.map_eq_some_iff.mp h
    obtain ⟨hlock, heq⟩ := Option.ite_none_left_eq_some.mp hshared
    obtain rfl := Option.some.inj heq
    exact .delReport type (hfree hlock)
  | getReport type =>
    obtain ⟨result, hresult, rfl⟩ := Option.map_eq_some_iff.mp h
    obtain ⟨hlock, heq⟩ := Option.ite_none_left_eq_some.mp hresult
    obtain rfl := Option.some.inj heq
    exact .getReport type (hfree hlock)
  | readEntries =>
    obtain ⟨session, hsession, rfl⟩ := Option.map_eq_some_iff.mp h
    exact .readEntries session hsession
  | returnReport =>
    obtain ⟨session, hsession, rfl⟩ := Option.map_eq_some_iff.mp h
    exact .returnReport session hsession

/-- What every call keeps: the mutex is held exactly during a session, and no entry is `NULL`. -/
structure WellFormed (s : MainList P) : Prop where
  /-- The lock is the session's. -/
  locked : s.shared.locked = s.session.isSome
  /-- There is no `NULL` in the main list. -/
  nonNull : s.shared.list.NonNull

/-- A call keeps it. -/
theorem WellFormed.step {s s' : MainList P} {label : MainLabel P} (h : s.WellFormed)
    (hstep : s.step V label = some s') : s'.WellFormed := by
  cases step_cases hstep with
  | mergeReports chunk merging eq =>
    have hmerged := ReportList.Merged.of_eq_some V h.nonNull eq
    exact ⟨h.locked, hmerged.nonNull⟩
  | addReport report type free => exact ⟨h.locked, h.nonNull.addReport report type⟩
  | delReport type free => exact ⟨h.locked, h.nonNull.delReport type⟩
  | getReport type free => exact ⟨rfl, h.nonNull⟩
  | readEntries session reading => exact h
  | returnReport session reading => exact ⟨rfl, h.nonNull⟩

/-- The lock follows the sessions in every reachable state. -/
theorem wellFormed {s : MainList P} (h : (mainList V).Reachable s) : s.WellFormed := by
  refine h.invariant (P := WellFormed) ⟨rfl, fun type => ?_⟩ fun _ ih hstep => ih.step hstep
  simp [mainList, MainList.new, SharedReportList.new, ReportList.new]

/-- While the mutex is free nobody is reading. -/
theorem WellFormed.session_of_free {s : MainList P} (h : s.WellFormed)
    (hfree : s.shared.locked = false) : s.session = none := by
  have hnone := h.locked.symm.trans hfree
  rwa [Option.isSome_eq_false_iff, Option.isNone_iff_eq_none] at hnone

/-! ## Readers -/

/-- **A merge of a list that counts something under the reader's type changes what it reads**: the
report is the reader's own, so the counts are added to it. -/
theorem not_stable_of_disturbs {s s' : MainList P} {label : MainLabel P} (hwf : s.WellFormed)
    (hstable : s.Stable) (hstep : s.step V label = some s') (h : s.Disturbs label) :
    ¬ s'.Stable := by
  obtain ⟨chunk, session, g, rfl, hsession, hreport, hcount⟩ := h
  obtain ⟨merging, hmerging, rfl⟩ := Option.map_eq_some_iff.mp hstep
  have hmerged := ReportList.Merged.of_eq_some V hwf.nonNull hmerging
  have hbefore := (hstable session hsession hreport).1
  -- the reader's type is still in the main list, so nothing is left in the merged list
  have hthere : (s.shared.list.getReport session.type).isSome := by
    have hsome := congrArg Option.isSome hbefore
    rw [Option.isSome_map, Option.isSome_map] at hsome
    exact hsome.trans hreport
  have hcleared := hmerged.cleared session.type g (ReportList.isSome_kinds_of_getReport hthere)
  have hmoved := hmerged.conserved session.type g
  intro hafter
  have hsame : merging.main.count session.type g = s.shared.list.count session.type g :=
    ReportList.count_eq_of_counts_eq ((hafter session hsession hreport).1.trans hbefore.symm) g
  omega

/-- Every other call leaves it as it is. -/
theorem stable_of_not_disturbs {s s' : MainList P} {label : MainLabel P} (hwf : s.WellFormed)
    (hstable : s.Stable) (hstep : s.step V label = some s') (h : ¬ s.Disturbs label) :
    s'.Stable := by
  cases step_cases hstep with
  | mergeReports chunk merging eq =>
    have hmerged := ReportList.Merged.of_eq_some V hwf.nonNull eq
    intro session hsession hreport
    obtain ⟨hcounts, htypes⟩ := hstable session hsession hreport
    -- the merged list counts nothing under the reader's type
    have hzero : ∀ g, chunk.count session.type g = 0 := fun g =>
      of_not_not fun hg => h ⟨chunk, session, g, rfl, hsession, hreport, hg⟩
    refine ⟨(hmerged.quiet session.type hzero).trans hcounts, fun type => ?_⟩
    rw [← htypes type, ReportList.mem_reports_iff, ReportList.mem_reports_iff, hmerged.kinds_main]
  | addReport report type free =>
    -- the mutex was free, so nobody is reading; the same for a deletion
    intro session hsession
    have hnone := hwf.session_of_free free
    cases hnone.symm.trans hsession
  | delReport type free =>
    intro session hsession
    have hnone := hwf.session_of_free free
    cases hnone.symm.trans hsession
  | getReport type free =>
    -- the session has just begun: what it saw is what is there
    intro session hsession _
    obtain rfl := Option.some.inj hsession
    exact ⟨rfl, fun _ => Iff.rfl⟩
  | readEntries session reading => exact hstable
  | returnReport session reading =>
    intro session' hsession'
    cases hsession'

/-- **What a reader sees is stable throughout a run exactly when no merge of the run disturbs it.** -/
theorem stable_iff {run : List (MainLabel P)} {s : MainList P} (h : (mainList V).Run run s) :
    (mainList V).Throughout Stable run ↔
      (mainList V).EveryStep (fun s label => ¬ s.Disturbs label) run := by
  refine h.throughout_iff_everyStep (fun session hsession => by cases hsession) ?_
  intro s label s' hs hstable hstep
  have hwf := wellFormed hs
  exact ⟨fun hafter hdisturbs => not_stable_of_disturbs hwf hstable hstep hdisturbs hafter,
    stable_of_not_disturbs hwf hstable hstep⟩

/-- Merging a list that counts nothing does not disturb a reader of report `"a"`. -/
theorem stable_iff_quietMerge :
    ∃ s, (mainList .plain).Run [.addReport ⟨(), ∅⟩ [97], .getReport [97], .mergeReports .new] s ∧
      (mainList .plain).Throughout Stable
        [.addReport ⟨(), ∅⟩ [97], .getReport [97], .mergeReports .new] := by
  have hadd : (mainList .plain).Run [.addReport ⟨(), ∅⟩ [97]] _ := Machine.run_iff_exec.mpr rfl
  have hget : (mainList .plain).Run ([.addReport ⟨(), ∅⟩ [97]] ++ [.getReport [97]]) _ :=
    hadd.snoc rfl
  obtain ⟨s, hs⟩ : ∃ s, (mainList .plain).Run
      [.addReport ⟨(), ∅⟩ [97], .getReport [97], .mergeReports .new] s :=
    ⟨_, Machine.run_iff_exec.mpr rfl⟩
  refine ⟨s, hs, (stable_iff hs).mpr ?_⟩
  refine (Machine.everyStep_concat hget).mpr ⟨(Machine.everyStep_concat hadd).mpr
    ⟨(Machine.everyStep_concat .nil).mpr ⟨Machine.everyStep_nil, ?_⟩, ?_⟩, ?_⟩
  · rintro ⟨chunk, session, g, hlabel, -⟩
    cases hlabel
  · rintro ⟨chunk, session, g, hlabel, -⟩
    cases hlabel
  · rintro ⟨chunk, session, g, hlabel, -, -, hcount⟩
    obtain rfl := MainLabel.mergeReports.inj hlabel
    exact hcount (ReportList.count_new _ g)

/-- A chunk whose report `"a"` counts one request in the group `"g"`. -/
def chunkWithOneRequest : ReportList Unit where
  reports := (∅ : Std.ExtTreeMap StdString (Option (Report Unit))).insert [97]
    (some ⟨(), (∅ : ReportMap).insert (.ofBuffer [103]) { ReportData.new with reqCount := 1 }⟩)

/-- The reader takes report `"a"` and, before it gives it back, the merger merges the chunk. -/
def mergeWhileReading : List (MainLabel Unit) :=
  [.addReport ⟨(), ∅⟩ [97], .getReport [97], .mergeReports chunkWithOneRequest]

/-- **The reader sees the count change** from none to one. -/
theorem not_stable_mergeWhileReading :
    ∃ s, (mainList .plain).Run mergeWhileReading s ∧ ¬ s.Stable := by
  refine ⟨_, Machine.run_iff_exec.mpr rfl, fun hstable => ?_⟩
  have hsame := ReportList.count_eq_of_counts_eq (hstable _ rfl rfl).1 (.ofBuffer [103])
  revert hsame
  decide

end MainList

end Tinypinba
