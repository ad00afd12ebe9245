import Tinypinba.ReportList

/-! # Merging a list into the main list, and merging it again

`ReportList::merge_reports` moves the counts of a list into the main list and leaves zeros behind
(`report_list.cc`, `reports.cc`). A second merge right after the first finds, under every type, either a
report of zeros or a type that the main list still does not have, so it changes nothing:

* `Report.mergeReport_eq_self` — merging a report that counts nothing is the identity;
* `ReportList.mergeReports_eq_self` — so is merging a list whose reports are cleared wherever the main
  list has their type. -/

namespace Tinypinba

variable {P : Type}

/-! ## Groups and reports that count nothing -/

/-- Merging a group that counts nothing changes nothing. -/
theorem ReportData.mergeData_of_reqCount_eq_zero (self : ReportData) {mdata : ReportData}
    (h : mdata.reqCount = 0) : self.mergeData mdata = self := by
  rw [ReportData.mergeData, h, add_zero]

namespace Report

/-- A report is determined by its class and its groups. -/
theorem ext_getReportData {a b : Report P} (hproducer : a.producer = b.producer)
    (h : ∀ g, a.getReportData g = b.getReportData g) : a = b := by
  obtain ⟨p, m⟩ := a
  obtain ⟨q, n⟩ := b
  obtain rfl : p = q := hproducer
  obtain rfl : m = n := Std.ExtTreeMap.ext_getElem? fun {g} => h g
  rfl

/-- Clearing twice is clearing once. -/
@[simp] theorem clear_clear (r : Report P) : r.clear.clear = r.clear := by
  refine ext_getReportData rfl fun g => ?_
  simp only [getReportData_clear, Option.map_map]
  rfl

/-- Clearing keeps every group, with a zero count. -/
theorem counts_clear (r : Report P) (g : CString) : r.clear.counts g = (r.counts g).map fun _ => 0 := by
  rw [counts, counts, getReportData_clear]
  cases r.getReportData g <;> rfl

/-- **Merging a report that counts nothing is the identity**, whatever groups it has: the groups both
have gain zero, and its other groups are not created. -/
theorem mergeReport_eq_self (createNewData : ReportData → Option ReportData) (self report : Report P)
    (hzero : ∀ g, report.count g = 0) : mergeReport createNewData self report = some self := by
  have hdata : ∀ g data, report.getReportData g = some data → data.reqCount = 0 := by
    intro g data hg
    have := hzero g
    rwa [count, hg] at this
  -- no group is created, so `create_new_data` is not called
  obtain ⟨r, hr, hproducer, hget⟩ := mergeReport_eq_some createNewData self report
    fun g data hg _ hne => absurd (hdata g data hg) hne
  rw [hr]
  refine congrArg some (ext_getReportData hproducer fun g => ?_)
  rw [hget g]
  cases hg : report.getReportData g with
  | none => rfl
  | some data =>
    have hcount := hdata g data hg
    rw [Option.elim_some]
    cases self.getReportData g with
    | none => rw [mergeGroup, if_pos ((ReportData.isEmpty_iff data).mpr hcount)]
    | some mine => rw [mergeGroup, ReportData.mergeData_of_reqCount_eq_zero mine hcount]

end Report

namespace ReportList

variable (V : ReportClasses P)

/-- A list is determined by its slots. -/
theorem ext_slots {a b : ReportList P} (h : ∀ type : StdString, a.reports[type]? = b.reports[type]?) :
    a = b := by
  obtain ⟨m⟩ := a
  obtain ⟨n⟩ := b
  exact congrArg ReportList.mk (Std.ExtTreeMap.ext_getElem? fun {type} => h type)

/-- Under one type: a report that is cleared, or that the main list has none for, changes nothing. -/
theorem mergeSlots_eq_self (report : Option (Report P)) {slot : Slot P} (hslot : slot ≠ some none)
    (hcleared : ∀ r, report = some r → slot.isSome → r.clear = r) :
    (mergeSlots V report (some report, slot, false)).1 = some report ∧
      (mergeSlots V report (some report, slot, false)).2.1 = slot := by
  cases report with
  | none => exact ⟨rfl, rfl⟩
  | some report =>
    cases slot with
    | none => exact ⟨rfl, rfl⟩
    | some mainRep =>
      cases mainRep with
      | none => exact absurd rfl hslot
      | some mainRep =>
        have hclear : report.clear = report := hcleared report rfl rfl
        have hzero : ∀ g, report.count g = 0 := fun g => by rw [← hclear, Report.count_clear]
        have hmerge : mainRep.mergeReport (V.createNewData mainRep.producer) report = some mainRep :=
          Report.mergeReport_eq_self _ mainRep report hzero
        simp only [mergeSlots, hmerge, hclear, and_self]

/-- **Merging a list that has been cleared is the identity on both lists.** -/
theorem mergeReports_eq_self (self main : ReportList P) (hmain : main.NonNull)
    (hcleared : ∀ (type : StdString) report, self.reports[type]? = some (some report) →
      (main.reports[type]?).isSome → report.clear = report) :
    ∃ s, mergeReports V self main = some s ∧ s.list = self ∧ s.main = main := by
  obtain ⟨s, hs, hslots⟩ := mergeReports_slots V self main hmain
  -- the slots of both lists, read off the specification of the merge
  have hboth : ∀ type : StdString, s.list.reports[type]? = self.reports[type]? ∧
      s.main.reports[type]? = main.reports[type]? := by
    intro type
    have h := hslots type
    rw [Merging.slots] at h
    cases hself : self.reports[type]? with
    | none =>
      rw [hself, Option.elim_none, Prod.mk.injEq, Prod.mk.injEq] at h
      exact ⟨h.1, h.2.1⟩
    | some report =>
      obtain ⟨hlist, hkept⟩ := mergeSlots_eq_self V report (hmain type)
        fun r hr => hcleared type r (hself.trans (congrArg some hr))
      rw [hself, Option.elim_some] at h
      exact ⟨(congrArg Prod.fst h).trans hlist, (congrArg (·.2.1) h).trans hkept⟩
  exact ⟨s, hs, ext_slots fun type => (hboth type).1, ext_slots fun type => (hboth type).2⟩

/-- After a merge the list is cleared wherever the main list has the type. -/
theorem MergeCase.clear_eq {self main : ReportList P} {s : Merging P} {type : StdString}
    (h : MergeCase self main s type) {report : Report P}
    (hreport : s.list.reports[type]? = some (some report)) (hmain : (s.main.reports[type]?).isSome) :
    report.clear = report := by
  cases h with
  | nothing absent list _ _ =>
    -- the list had no report under the type, and has got none
    rw [list, ← getReport_eq_some_iff, absent] at hreport
    cases hreport
  | skipped _ _ _ _ main _ =>
    rw [main] at hmain
    cases hmain
  | merged before _ _ _ _ _ _ _ list _ _ =>
    rw [list, Option.some.injEq, Option.some.injEq] at hreport
    rw [← hreport, Report.clear_clear]

/-- **`merge_reports` moves the counts, and doing it again does nothing.** Merging a list into a main
list without `NULL` entries succeeds and adds, under every type both have a report for, the counts of
the list's report to those of the main list's, leaving the list's groups in place with zero counts. A
type the main list does not have keeps its report in the list as it was and is not created there; a
type under which the list has no report keeps its slot in the main list. Both lists keep their types.
A second merge changes neither list.

That `create_new_data` returns a group that counts nothing, and not `NULL`, is assumed
(`ReportClasses.createNewData_fresh`). -/
theorem mergeReports_moves_and_idempotent (self main : ReportList P) (hmain : main.NonNull) :
    ∃ s, mergeReports V self main = some s ∧
      (∀ (type : StdString) (report mainRep : Report P), self.reports[type]? = some (some report) →
        main.reports[type]? = some (some mainRep) →
        ∃ mainRep' report', s.main.reports[type]? = some (some mainRep') ∧
          s.list.reports[type]? = some (some report') ∧
          (∀ g, mainRep'.count g = mainRep.count g + report.count g) ∧
          ∀ g, report'.counts g = (report.counts g).map fun _ => 0) ∧
      (∀ type : StdString, main.reports[type]? = none →
        s.list.reports[type]? = self.reports[type]? ∧ s.main.reports[type]? = none) ∧
      (∀ type : StdString, self.getReport type = none → s.main.reports[type]? = main.reports[type]?) ∧
      s.list.kinds = self.kinds ∧ s.main.kinds = main.kinds ∧
      ∃ again, mergeReports V s.list s.main = some again ∧ again.list = s.list ∧ again.main = s.main := by
  obtain ⟨s, hs, hcases⟩ := mergeReports_cases V self main hmain
  have hmerged : Merged self main s := .of_eq_some V hmain hs
  refine ⟨s, hs, ?_, ?_, ?_, hmerged.kinds_list, hmerged.kinds_main, ?_⟩
  · intro type report mainRep hself hthere
    cases hcases type with
    | nothing absent _ _ _ =>
      rw [getReport_eq_some_iff.mpr hself] at absent
      cases absent
    | skipped _ _ absent _ _ _ =>
      rw [hthere] at absent
      cases absent
    | merged r m mergedRep here there _ count _ list main _ =>
      obtain rfl : report = r := by simpa [hself] using here
      obtain rfl : mainRep = m := by simpa [hthere] using there
      exact ⟨mergedRep, report.clear, main, list, count, Report.counts_clear report⟩
  · intro type habsent
    cases hcases type with
    | nothing _ list main _ => exact ⟨list, main.trans habsent⟩
    | skipped _ _ _ list main _ => exact ⟨list, main⟩
    | merged _ _ _ _ there _ _ _ _ _ _ =>
      rw [habsent] at there
      cases there
  · intro type habsent
    cases hcases type with
    | nothing _ _ main _ => exact main
    | skipped report here _ _ _ _ =>
      rw [getReport_eq_some_iff.mpr here] at habsent
      cases habsent
    | merged report _ _ here _ _ _ _ _ _ _ =>
      rw [getReport_eq_some_iff.mpr here] at habsent
      cases habsent
  · exact mergeReports_eq_self V s.list s.main hmerged.nonNull fun type report hreport hsome =>
      (hcases type).clear_eq hreport hsome

/-- A report with two requests in the group `"g"`. -/
def twoRequests : Report Unit :=
  ⟨(), (∅ : ReportMap).insert (.ofBuffer [103]) { ReportData.new with reqCount := 2 }⟩

/-- A list with such a report under `"a"` and under `"b"`, and `NULL` under `"c"`. -/
def threeTypes : ReportList Unit where
  reports := (∅ : Std.ExtTreeMap StdString (Option (Report Unit))).insert [97] (some twoRequests)
    |>.insert [98] (some twoRequests) |>.insert [99] none

/-- A main list with an empty report under `"a"` only. -/
def onlyTypeA : ReportList Unit where
  reports := (∅ : Std.ExtTreeMap StdString (Option (Report Unit))).insert [97] (some ⟨(), ∅⟩)

/-- Its entry is a report. -/
theorem onlyTypeA_nonNull : onlyTypeA.NonNull := by
  intro type
  simp only [onlyTypeA, Std.ExtTreeMap.getElem?_insert]
  split <;> simp

/-- Merging the first into the second moves the two requests under `"a"` and leaves those under `"b"`. -/
theorem mergeReports_moves_and_idempotent_threeTypes :
    ∃ s, mergeReports ReportClasses.plain threeTypes onlyTypeA = some s ∧
      (∃ mainRep, s.main.reports[([97] : StdString)]? = some (some mainRep) ∧
        mainRep.count (.ofBuffer [103]) = 2) ∧
      s.main.reports[([98] : StdString)]? = none ∧
      ∃ again, mergeReports ReportClasses.plain s.list s.main = some again ∧
        again.list = s.list ∧ again.main = s.main := by
  obtain ⟨s, hs, hmerged, hmissing, -, -, -, hagain⟩ :=
    mergeReports_moves_and_idempotent ReportClasses.plain threeTypes onlyTypeA onlyTypeA_nonNull
  obtain ⟨mainRep, -, hmain, -, hcount, -⟩ := hmerged [97] twoRequests ⟨(), ∅⟩
    rfl rfl
  refine ⟨s, hs, ⟨mainRep, hmain, ?_⟩, (hmissing [98] (by simp [onlyTypeA])).2, hagain⟩
  rw [hcount]
  simp [Report.count, Report.getReportData, twoRequests]

end ReportList

end Tinypinba
