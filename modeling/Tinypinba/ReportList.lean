import Tinypinba.Report
import Tinypinba.Foundation.CommandLog

/-! # Report lists

A `ReportList` maps report types to reports (`report_list.h`, `report_list.cc`); an entry may be
`NULL`. Two views of a list carry the proofs of the following modules:

* `ReportList.kinds` — under which types there is a report, and of which class: this is a first-wins
  registry of the command-log library, and `add_report`/`del_report` are its two commands;
* `ReportList.count` — the count under a type and a group index, with everything missing read as zero.

`mergeReports_cases` is the specification of `merge_reports`, type by type, and `mergeReports_merged`
what it guarantees for the lists as a whole. -/

namespace Tinypinba

open CommandLog

/-- The virtual functions behind the pipeline, by the producer that stands for the class:
`create_report` (does it return a report or `NULL`), `create_new_data`, and the group a request is recorded
under. `create_new_data` is assumed to return a group that counts nothing, and never `NULL`: the repository
declares it and defines it for tag reports only (`TagReport`). -/
structure ReportClasses (P : Type) where
  /-- Whether `create_report` returns a report; otherwise it returns `NULL`. -/
  creates : P → Bool
  /-- `create_new_data(data)` of the class. -/
  createNewData : P → ReportData → Option ReportData
  /-- The assumption on `create_new_data`: no `NULL`, and new groups count nothing. -/
  createNewData_fresh : ∀ p, Report.CreatesFresh (createNewData p)
  /-- The index `add_record` and `del_record` of the class use for a request. -/
  group : P → PinbaRequest → CString

/-- Classes that all group requests by server name, with producers that never fail. -/
def ReportClasses.plain {P : Type} : ReportClasses P where
  creates _ := true
  createNewData _ _ := some .new
  createNewData_fresh _ _ := ⟨.new, rfl, rfl⟩
  group _ request := request.serverName

variable {P : Type} (V : ReportClasses P)

/-- `ReportProducer::create_report`: a new report without groups, or `NULL`. -/
def createReport (producer : P) : Option (Report P) :=
  if V.creates producer then some ⟨producer, ∅⟩ else none

/-- `Report::add_record` / `del_record` of a class that keeps every group it creates: apply `f` to the
group of the request, created when it is missing. -/
def Report.recordWith (f : ReportData → ReportData) (self : Report P) (request : PinbaRequest) :
    Report P :=
  { self with
    reportData := self.reportData.alter (V.group self.producer request) fun data =>
      some (f (data.getD .new)) }

/-- What a list holds under a type: nothing, `NULL`, or a report. -/
abbrev Slot (P : Type) : Type := Option (Option (Report P))

/-- `ReportList`: reports by type. -/
structure ReportList (P : Type) where
  /-- `std::map<std::string, Report *> reports`; an entry may be `NULL`. -/
  reports : Std.ExtTreeMap StdString (Option (Report P))

namespace ReportList

/-- `ReportList()` -/
def new : ReportList P := ⟨∅⟩

/-- `ReportList::add_report`: a type already present is skipped. -/
def addReport (self : ReportList P) (report : Option (Report P)) (type : StdString) :
    ReportList P × ℤ :=
  match self.reports[type]? with
  | some _ => (self, -1)
  | none => (⟨self.reports.insert type report⟩, 0)

/-- `ReportList::del_report` -/
def delReport (self : ReportList P) (type : StdString) : ReportList P :=
  match self.reports[type]? with
  | some _ => ⟨self.reports.erase type⟩
  | none => self

/-- `ReportList::get_report`; `none` is `NULL`. -/
def getReport (self : ReportList P) (type : StdString) : Option (Report P) :=
  match self.reports[type]? with
  | none => none
  | some report => report

/-- The loop of `add_request_to_reports` and `del_request_from_reports`: record a request, by `f`, in
every report that is not `NULL`. -/
def recordAll (f : ReportData → ReportData) (self : ReportList P) (request : PinbaRequest) :
    ReportList P :=
  ⟨self.reports.map fun _ report => report.map fun report => report.recordWith V f request⟩

/-- `ReportList::add_request_to_reports` -/
def addRequestToReports (self : ReportList P) (request : PinbaRequest) : ReportList P :=
  self.recordAll V (·.addRecord request) request

/-- `ReportList::del_request_from_reports` -/
def delRequestFromReports (self : ReportList P) (request : PinbaRequest) : ReportList P :=
  self.recordAll V (·.delRecord request) request

/-- The two lists during `merge_reports`, with the types it has warned about so far
(`"no report in main reports list"`). -/
structure Merging (P : Type) where
  /-- The list being merged. -/
  list : ReportList P
  /-- The main list. -/
  main : ReportList P
  /-- The types skipped, in order. -/
  skipped : List StdString

/-- The body of the loop in `ReportList::merge_reports`, for the entry `type`, `report`. `none` is a
member call through `NULL`: a main list entry that is `NULL`, or a failed `merge_report`. -/
def mergeEntry (s : Merging P) (type : StdString) (report : Option (Report P)) :
    Option (Merging P) :=
  match report with
  | none => some s
  | some report =>
    match s.main.reports[type]? with
    -- the warning and `continue`: the report is not cleared
    | none => some { s with skipped := s.skipped ++ [type] }
    | some none => none
    | some (some mainRep) =>
      (mainRep.mergeReport (V.createNewData mainRep.producer) report).map fun mainRep =>
        { s with
          main := ⟨s.main.reports.insert type (some mainRep)⟩
          list := ⟨s.list.reports.insert type (some report.clear)⟩ }

/-- `ReportList::merge_reports` -/
def mergeReports (self main : ReportList P) : Option (Merging P) :=
  self.reports.foldlM (mergeEntry V) ⟨self, main, []⟩

/-! ## Views -/

/-- Which types are present and by which producer their report was created (`none`: it is `NULL`). -/
def kinds (self : ReportList P) : Registry StdString (Option P) := fun type =>
  (self.reports[type]?).map (·.map Report.producer)

/-- The count under a type and a group; a missing type, report or group counts as zero. -/
def count (self : ReportList P) (type : StdString) (index : CString) : ℤ :=
  (self.getReport type).elim 0 (·.count index)

/-- A new list has no types. -/
@[simp] theorem kinds_new : (new : ReportList P).kinds = Registry.empty := by
  funext type
  simp [kinds, new]

/-- It counts nothing. -/
@[simp] theorem count_new (type : StdString) (g : CString) :
    (new : ReportList P).count type g = 0 := by
  simp [count, getReport, new]

/-- `get_report` returns a report when the slot under the type has one. -/
theorem getReport_eq_some_iff {self : ReportList P} {type : StdString} {report : Report P} :
    self.getReport type = some report ↔ self.reports[type]? = some (some report) := by
  unfold getReport
  cases self.reports[type]? <;> simp

/-- Counts only depend on the slot. -/
theorem count_congr {a b : ReportList P} {type : StdString}
    (h : a.reports[type]? = b.reports[type]?) (g : CString) : a.count type g = b.count type g := by
  rw [count, count, getReport, getReport, h]

/-- A type that is not there counts nothing. -/
theorem count_of_kinds_eq_none {self : ReportList P} {type : StdString} (h : self.kinds type = none)
    (g : CString) : self.count type g = 0 := by
  rw [kinds, Option.map_eq_none_iff] at h
  rw [count, getReport, h]
  rfl

/-! ## Adding and deleting reports -/

/-- **`add_report` is the first-wins registration** of the report's class under the type. -/
theorem kinds_addReport (self : ReportList P) (report : Option (Report P)) (type : StdString) :
    (self.addReport report type).1.kinds =
      Registry.apply self.kinds (.add type (report.map Report.producer)) := by
  unfold addReport
  cases h : self.reports[type]? with
  | some slot =>
    rw [Registry.apply_add_of_isSome (by simp [kinds, h])]
  | none =>
    rw [Registry.apply_add_of_eq_none (by simp [kinds, h])]
    funext t
    simp only [kinds, Std.ExtTreeMap.getElem?_insert, Std.LawfulEqCmp.compare_eq_iff_eq]
    by_cases ht : type = t
    · subst ht
      simp
    · rw [if_neg ht, Function.update_of_ne (Ne.symm ht)]
      rfl

/-- `del_report` frees the type. -/
theorem kinds_delReport (self : ReportList P) (type : StdString) :
    (self.delReport type).kinds = Registry.apply self.kinds (.del type) := by
  funext t
  unfold delReport
  by_cases ht : type = t
  · subst ht
    cases h : self.reports[type]? with
    | some slot => simp [kinds]
    | none => simp [kinds, h]
  · rw [Registry.apply_of_key_ne _ (by simpa using ht)]
    cases h : self.reports[type]? with
    | some slot =>
      simp only [kinds, Std.ExtTreeMap.getElem?_erase, Std.LawfulEqCmp.compare_eq_iff_eq, if_neg ht]
    | none => rfl

/-- A slot other than the one added is not touched. -/
theorem addReport_of_ne (self : ReportList P) (report : Option (Report P)) {type t : StdString}
    (h : type ≠ t) : (self.addReport report type).1.reports[t]? = self.reports[t]? := by
  unfold addReport
  cases self.reports[type]? with
  | some slot => rfl
  | none =>
    simp only [Std.ExtTreeMap.getElem?_insert, Std.LawfulEqCmp.compare_eq_iff_eq, if_neg h]

/-- A new report counts nothing. -/
theorem count_of_mem_createReport {producer : P} {report : Report P}
    (h : report ∈ createReport V producer) (g : CString) : report.count g = 0 := by
  unfold createReport at h
  split at h
  · obtain rfl := Option.some.inj h
    simp [Report.count, Report.getReportData]
  · cases h

/-- Adding a new report, or `NULL`, changes no count. -/
theorem count_addReport_createReport (self : ReportList P) (producer : P) (type t : StdString)
    (g : CString) :
    (self.addReport (createReport V producer) type).1.count t g = self.count t g := by
  by_cases ht : type = t
  · subst ht
    unfold addReport
    cases h : self.reports[type]? with
    -- a report that is there stays there, with its counts
    | some slot => rfl
    | none =>
      simp only [count, getReport, Std.ExtTreeMap.getElem?_insert_self, h]
      cases hr : createReport V producer with
      | none => rfl
      | some report => exact count_of_mem_createReport V hr g
  · exact count_congr (addReport_of_ne self _ ht) g

/-! ## Recording requests -/

/-- Recording a request under a group changes that group's count as `f` changes a count. -/
theorem count_recordWith (f : ReportData → ReportData) (δ : ℤ)
    (hf : ∀ data, (f data).reqCount = data.reqCount + δ) (self : Report P) (r : PinbaRequest)
    (g : CString) :
    (self.recordWith V f r).count g =
      self.count g + if V.group self.producer r = g then δ else 0 := by
  simp only [Report.recordWith, Report.count, Report.getReportData, Std.ExtTreeMap.getElem?_alter,
    Std.LawfulEqCmp.compare_eq_iff_eq]
  split
  · rename_i hg
    subst hg
    simp only [Option.elim_some, hf]
    cases self.reportData[V.group self.producer r]? <;> rfl
  · rw [add_zero]

/-- Whether recording a request in the list touches the group `g` of the report under `type`. -/
def hits (self : ReportList P) (request : PinbaRequest) (type : StdString) (g : CString) : Bool :=
  match self.kinds type with
  | some (some producer) => V.group producer request == g
  | _ => false

/-- Recording changes no type and no class. -/
@[simp] theorem kinds_recordAll (f : ReportData → ReportData) (self : ReportList P)
    (r : PinbaRequest) : (self.recordAll V f r).kinds = self.kinds := by
  funext type
  simp only [kinds, recordAll, Std.ExtTreeMap.getElem?_map, Option.map_map]
  congr 1
  funext report
  cases report <;> rfl

/-- Recording changes the count of the request's group in every report, and no other count. -/
theorem count_recordAll (f : ReportData → ReportData) (δ : ℤ)
    (hf : ∀ data, (f data).reqCount = data.reqCount + δ) (self : ReportList P) (r : PinbaRequest)
    (type : StdString) (g : CString) :
    (self.recordAll V f r).count type g =
      self.count type g + if self.hits V r type g then δ else 0 := by
  cases h : self.reports[type]? with
  | none => simp [count, getReport, recordAll, hits, kinds, h]
  | some report =>
    cases report with
    | none => simp [count, getReport, recordAll, hits, kinds, h]
    | some report =>
      simp only [count, getReport, recordAll, hits, kinds, Std.ExtTreeMap.getElem?_map, h,
        Option.map_some, Option.elim_some, beq_iff_eq]
      exact count_recordWith V f δ hf report r g

/-! ## Merging -/

/-- What `merge_reports` does under one type: to the slot of the list being merged, to the slot of the
main list, and to the record of skipped types. -/
def mergeSlots (report : Option (Report P)) (slots : Slot P × Slot P × Bool) :
    Slot P × Slot P × Bool :=
  match report, slots.2.1 with
  | none, _ => slots
  | some _, none => (slots.1, none, true)
  | some _, some none => slots
  | some report, some (some mainRep) =>
    (some (some report.clear),
      some (mainRep.mergeReport (V.createNewData mainRep.producer) report), slots.2.2)

/-- What the merge looks at under a type. -/
def Merging.slots (s : Merging P) (type : StdString) : Slot P × Slot P × Bool :=
  (s.list.reports[type]?, s.main.reports[type]?, decide (type ∈ s.skipped))

/-- No entry of a list is `NULL`. -/
def NonNull (self : ReportList P) : Prop := ∀ type : StdString, self.reports[type]? ≠ some none

/-- The body of the loop touches one type, and does not fail unless the main list's entry under it is
`NULL`. -/
theorem mergeEntry_eq_some (s : Merging P) (type : StdString) (report : Option (Report P))
    (hnull : s.main.reports[type]? ≠ some none) :
    ∃ s', mergeEntry V s type report = some s' ∧
      s'.slots type = mergeSlots V report (s.slots type) ∧
      ∀ t, t ≠ type → s'.slots t = s.slots t := by
  cases report with
  | none => exact ⟨s, rfl, rfl, fun _ _ => rfl⟩
  | some report =>
    cases hmain : s.main.reports[type]? with
    | none =>
      refine ⟨{ s with skipped := s.skipped ++ [type] }, by simp only [mergeEntry, hmain], ?_,
        fun t ht => ?_⟩
      · simp [Merging.slots, mergeSlots, hmain]
      · simp [Merging.slots, ht]
    | some slot =>
      cases slot with
      | none => exact absurd hmain hnull
      | some mainRep =>
        obtain ⟨merged, hmerged, -⟩ :=
          Report.mergeReport_count (V.createNewData_fresh mainRep.producer) mainRep report
        refine ⟨_, by simp only [mergeEntry, hmain, hmerged, Option.map_some]; rfl, ?_,
          fun t ht => ?_⟩
        · simp [Merging.slots, mergeSlots, hmain, hmerged]
        · simp only [Merging.slots, Std.ExtTreeMap.getElem?_insert,
            Std.LawfulEqCmp.compare_eq_iff_eq, if_neg (Ne.symm ht)]

/-- Which class is present only depends on the slot. -/
theorem kinds_congr {a b : ReportList P} {type : StdString}
    (h : a.reports[type]? = b.reports[type]?) : a.kinds type = b.kinds type := by
  rw [kinds, kinds, h]

/-- However a merge goes, the merged list keeps its types and classes. -/
theorem kinds_list_mergeReports {self main : ReportList P} {s : Merging P}
    (h : mergeReports V self main = some s) : s.list.kinds = self.kinds := by
  refine KeyedLoop.foldlM_invariant (mergeEntry V) (fun s => s.list.kinds = self.kinds) self.reports
    ?_ rfl h
  intro s type report s' hentry hkinds hs'
  cases report with
  | none =>
    obtain rfl := Option.some.inj hs'
    exact hkinds
  | some report =>
    cases hmain : s.main.reports[type]? with
    | none =>
      simp only [mergeEntry, hmain, Option.some.injEq] at hs'
      obtain rfl := hs'
      exact hkinds
    | some slot =>
      cases slot with
      | none => simp [mergeEntry, hmain] at hs'
      | some mainRep =>
        simp only [mergeEntry, hmain, Option.map_eq_some_iff] at hs'
        obtain ⟨merged, -, rfl⟩ := hs'
        -- clearing keeps the report under its type, and other types are not touched
        rw [← hkinds]
        have hself : self.kinds type = some (some report.producer) := by simp [kinds, hentry]
        funext t
        by_cases ht : type = t
        · subst ht
          rw [hkinds, hself]
          simp [kinds]
        · exact kinds_congr (by
            simp only [Std.ExtTreeMap.getElem?_insert, Std.LawfulEqCmp.compare_eq_iff_eq, if_neg ht])

/-- **Specification of `merge_reports`, type by type**: a list merges into a main list without `NULL`
entries, and every type is treated on its own. -/
theorem mergeReports_slots (self main : ReportList P) (hmain : main.NonNull) :
    ∃ s, mergeReports V self main = some s ∧
      ∀ type, s.slots type = (self.reports[type]?).elim (self.reports[type]?, main.reports[type]?, false)
        fun report => mergeSlots V report (self.reports[type]?, main.reports[type]?, false) := by
  obtain ⟨s, hs, hslots⟩ := KeyedLoop.foldlM_apply Merging.slots (mergeEntry V)
    (fun _ slots report => mergeSlots V report slots) (fun _ slots _ => slots.2.1 ≠ some none)
    (fun s type report h => mergeEntry_eq_some V s type report h)
    self.reports ⟨self, main, []⟩ fun type _ _ => hmain type
  exact ⟨s, hs, fun type => by simpa [Merging.slots] using hslots type⟩

/-- The three things `merge_reports` does under a type. -/
inductive MergeCase (self main : ReportList P) (s : Merging P) (type : StdString) : Prop
  /-- The list has no report under the type: nothing happens. -/
  | nothing (absent : self.getReport type = none) (list : s.list.reports[type]? = self.reports[type]?)
      (main : s.main.reports[type]? = main.reports[type]?) (skip : type ∉ s.skipped)
  /-- The main list has no report under the type: it is skipped with a warning. -/
  | skipped (report : Report P) (here : self.reports[type]? = some (some report))
      (absent : main.reports[type]? = none) (list : s.list.reports[type]? = self.reports[type]?)
      (main : s.main.reports[type]? = none) (skip : type ∈ s.skipped)
  /-- Both have a report under the type: it is merged and cleared. -/
  | merged (report mainRep mergedRep : Report P) (here : self.reports[type]? = some (some report))
      (there : main.reports[type]? = some (some mainRep))
      (producer : mergedRep.producer = mainRep.producer)
      (count : ∀ g, mergedRep.count g = mainRep.count g + report.count g)
      (keys : ∀ g, (mergedRep.getReportData g).isSome ↔
        (mainRep.getReportData g).isSome ∨ report.count g ≠ 0)
      (list : s.list.reports[type]? = some (some report.clear))
      (main : s.main.reports[type]? = some (some mergedRep)) (skip : type ∉ s.skipped)

/-- A merge into a main list without `NULL` entries succeeds, and does one of the three things under
every type. -/
theorem mergeReports_cases (self main : ReportList P) (hmain : main.NonNull) :
    ∃ s, mergeReports V self main = some s ∧ ∀ type, MergeCase self main s type := by
  obtain ⟨s, hs, hslots⟩ := mergeReports_slots V self main hmain
  refine ⟨s, hs, fun type => ?_⟩
  have h := hslots type
  simp only [Merging.slots] at h
  cases hself : self.reports[type]? with
  | none =>
    simp only [hself, Option.elim_none, Prod.mk.injEq, decide_eq_false_iff_not] at h
    exact .nothing (by rw [getReport, hself]) (h.1.trans hself.symm) h.2.1 h.2.2
  | some slot =>
    cases slot with
    | none =>
      simp only [hself, Option.elim_some, mergeSlots, Prod.mk.injEq, decide_eq_false_iff_not] at h
      exact .nothing (by rw [getReport, hself]) (h.1.trans hself.symm) h.2.1 h.2.2
    | some report =>
      cases hthere : main.reports[type]? with
      | none =>
        simp only [hself, hthere, Option.elim_some, mergeSlots, Prod.mk.injEq,
          decide_eq_true_eq] at h
        exact .skipped report hself hthere (h.1.trans hself.symm) h.2.1 h.2.2
      | some slot =>
        cases slot with
        | none => exact absurd hthere (hmain type)
        | some mainRep =>
          obtain ⟨merged, hmerged, hproducer, hcount, hkeys⟩ :=
            Report.mergeReport_count (V.createNewData_fresh mainRep.producer) mainRep report
          simp only [hself, hthere, hmerged, Option.elim_some, mergeSlots, Prod.mk.injEq,
            decide_eq_false_iff_not] at h
          exact .merged report mainRep merged hself hthere hproducer hcount hkeys h.1 h.2.1 h.2.2

/-- What a successful `merge_reports` guarantees. -/
structure Merged (chunk main : ReportList P) (s : Merging P) : Prop where
  /-- The merged list keeps its types and classes. -/
  kinds_list : s.list.kinds = chunk.kinds
  /-- So does the main list. -/
  kinds_main : s.main.kinds = main.kinds
  /-- The main list stays without `NULL` entries. -/
  nonNull : s.main.NonNull
  /-- Counts move from the list to the main list, none is lost. -/
  conserved : ∀ type g,
    s.main.count type g + s.list.count type g = main.count type g + chunk.count type g
  /-- Under a type of the main list nothing is left in the list. -/
  cleared : ∀ type g, (main.kinds type).isSome → s.list.count type g = 0
  /-- The types skipped are those of a report that the main list does not have. -/
  skipped : ∀ type, type ∈ s.skipped ↔ (chunk.getReport type).isSome ∧ main.kinds type = none
  /-- A report that counts nothing changes nothing in the main list. -/
  quiet : ∀ type, (∀ g, chunk.count type g = 0) →
    (s.main.getReport type).map Report.counts = (main.getReport type).map Report.counts

/-- **`merge_reports` moves the counts.** -/
theorem mergeReports_merged (self main : ReportList P) (hmain : main.NonNull) :
    ∃ s, mergeReports V self main = some s ∧ Merged self main s := by
  obtain ⟨s, hs, hcases⟩ := mergeReports_cases V self main hmain
  refine ⟨s, hs, ?_, ?_, ?_, ?_, ?_, ?_, ?_⟩
  -- every guarantee is about a single type, so each is read off the three cases
  · funext type
    cases hcases type with
    | nothing _ list _ _ => exact kinds_congr list
    | skipped _ _ _ list _ _ => exact kinds_congr list
    | merged _ _ _ here _ _ _ _ list _ _ => simp [kinds, here, list]
  · funext type
    cases hcases type with
    | nothing _ _ main _ => exact kinds_congr main
    | skipped _ _ absent _ main _ => exact kinds_congr (main.trans absent.symm)
    | merged _ _ _ _ there producer _ _ _ main _ => simp [kinds, there, main, producer]
  · intro type
    cases hcases type with
    | nothing _ _ main _ => rw [main]; exact hmain type
    | skipped _ _ _ _ main _ => rw [main]; simp
    | merged _ _ _ _ _ _ _ _ _ main _ => rw [main]; simp
  · intro type g
    cases hcases type with
    | nothing _ list main _ => rw [count_congr list, count_congr main]
    | skipped _ _ absent list main _ =>
      rw [count_congr list, count_congr (main.trans absent.symm)]
    | merged _ _ _ here there _ count _ list main _ =>
      simp [ReportList.count, getReport, here, there, list, main, count g]
  · intro type g hpresent
    cases hcases type with
    | nothing absent list _ _ => rw [count_congr list, count, absent]; rfl
    | skipped _ _ absent _ _ _ => simp [kinds, absent] at hpresent
    | merged _ _ _ _ _ _ _ _ list _ _ => simp [ReportList.count, getReport, list]
  · intro type
    cases hcases type with
    | nothing absent _ _ skip => simp [skip, absent]
    | skipped _ here absent _ _ skip => simp [skip, getReport, here, kinds, absent]
    | merged _ _ _ _ there _ _ _ _ _ skip => simp [skip, kinds, there]
  · intro type hzero
    cases hcases type with
    | nothing _ _ main _ => rw [getReport, getReport, main]
    | skipped _ _ absent _ main _ => rw [getReport, getReport, main, absent]
    | merged report mainRep mergedRep here there _ count keys _ main _ =>
      have hreport : ∀ g, report.count g = 0 := fun g => by
        simpa [ReportList.count, getReport, here] using hzero g
      have hcounts : mergedRep.counts = mainRep.counts :=
        Report.counts_ext (fun g => by simp [keys g, hreport g])
          fun g => by rw [count g, hreport g, add_zero]
      simp [getReport, there, main, hcounts]

/-- Whatever a merge into a main list without `NULL` entries returned, it guarantees. -/
theorem Merged.of_eq_some {self main : ReportList P} {s : Merging P} (hmain : main.NonNull)
    (h : mergeReports V self main = some s) : Merged self main s := by
  obtain ⟨t, ht, hmerged⟩ := mergeReports_merged V self main hmain
  obtain rfl : t = s := Option.some.inj (ht.symm.trans h)
  exact hmerged

/-- **Nothing is left in the list but under the skipped types**: a count that the main list has not
taken over belongs to a report it does not have. -/
theorem Merged.count_list_eq_zero {chunk main : ReportList P} {s : Merging P} (h : Merged chunk main s)
    {type : StdString} (hskip : type ∉ s.skipped) (g : CString) : s.list.count type g = 0 := by
  cases hkind : main.kinds type with
  | some kind => exact h.cleared type g (by rw [hkind]; rfl)
  | none =>
    have hbefore : main.count type g = 0 := count_of_kinds_eq_none hkind g
    have hafter : s.main.count type g = 0 := count_of_kinds_eq_none (by rw [h.kinds_main, hkind]) g
    have hmoved := h.conserved type g
    have hreport : chunk.getReport type = none :=
      Option.not_isSome_iff_eq_none.mp fun hsome => hskip ((h.skipped type).mpr ⟨hsome, hkind⟩)
    have hchunk : chunk.count type g = 0 := by rw [count, hreport]; rfl
    omega

end ReportList

end Tinypinba
