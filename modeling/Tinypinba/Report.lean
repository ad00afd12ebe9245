import Tinypinba.ReportData
import Tinypinba.Foundation.KeyedLoop

/-! # Reports

A `Report` maps group indices to `ReportData` (`reports.h`, `reports.cc`). Its class is only known
through its virtual functions; the model keeps the producer that created the report in its place, so
`createNewData` is a function of that producer.

`mergeReport_eq_some` is the specification of the merge loop: it never fails as long as
`create_new_data` does not return `NULL`, and it acts on every index separately. The rest of the file
reads counts and index sets off it, and shows that merging a list of reports does not depend on the
order. -/

namespace Tinypinba

/-- `std::map<std::string, ReportData*>`. Every key was passed to `add_report_data` as a C string. -/
abbrev ReportMap : Type := Std.ExtTreeMap CString ReportData

/-- A report: the producer that created it (its class) and its groups. -/
structure Report (P : Type) where
  /-- The producer whose `create_report` made this object; it stands for the dynamic class. -/
  producer : P
  /-- `report_data` -/
  reportData : ReportMap

variable {P : Type}

namespace Report

/-- `Report::get_report_data` for a non-`NULL` index. -/
def getReportData (self : Report P) (index : CString) : Option ReportData := self.reportData[index]?

/-- The `req_count` of a group; a missing group is read as zero. -/
def count (self : Report P) (index : CString) : ℤ :=
  (self.getReportData index).elim 0 ReportData.reqCount

/-- The map from group index to `req_count`. -/
def counts (self : Report P) (index : CString) : Option ℤ :=
  (self.getReportData index).map ReportData.reqCount

/-- `Report::clear`: clear every group in place. -/
def clear (self : Report P) : Report P :=
  { self with reportData := self.reportData.map fun _ data => data.clear }

/-- `Report::add_report_data`: store `data` under `index`. -/
def addReportData (map : ReportMap) (index : CString) (data : ReportData) : ReportMap :=
  map.insert index data

/-- The body of the loop in `Report::merge_report`, for the entry `index`, `data` of the other report.
`none` is the call of `merge_data` through a `NULL` result of `create_new_data`. -/
def mergeEntry (createNewData : ReportData → Option ReportData) (map : ReportMap) (index : CString)
    (data : ReportData) : Option ReportMap :=
  match map[index]? with
  | none =>
    -- `if (!it->second->is_empty())`: a group that counts nothing is not created here
    if data.isEmpty then some map
    else (createNewData data).map fun new =>
      (addReportData map index new).modify index (·.mergeData data)
  | some _ => some (map.modify index (·.mergeData data))

/-- `Report::merge_report`. -/
def mergeReport (createNewData : ReportData → Option ReportData) (self report : Report P) :
    Option (Report P) :=
  (report.reportData.foldlM (mergeEntry createNewData) self.reportData).map fun map =>
    { self with reportData := map }

/-- The map of counts is determined by which groups exist and what they count. -/
theorem counts_ext {a b : Report P}
    (hkeys : ∀ g, (a.getReportData g).isSome ↔ (b.getReportData g).isSome)
    (hcount : ∀ g, a.count g = b.count g) : a.counts = b.counts := by
  funext g
  have hk := hkeys g
  have hc := hcount g
  unfold count at hc
  unfold counts
  cases ha : a.getReportData g <;> cases hb : b.getReportData g <;> simp_all

/-- A count is read off the map of counts. -/
theorem count_eq_counts (r : Report P) (g : CString) : r.count g = (r.counts g).getD 0 := by
  rw [count, counts]
  cases r.getReportData g <;> rfl

/-! ## Clearing -/

@[simp] theorem producer_clear (r : Report P) : r.clear.producer = r.producer := rfl

/-- Clearing keeps every group and empties it. -/
theorem getReportData_clear (r : Report P) (g : CString) :
    r.clear.getReportData g = (r.getReportData g).map ReportData.clear := by
  simp only [clear, getReportData, Std.ExtTreeMap.getElem?_map]

/-- After `clear` every count is zero. -/
@[simp] theorem count_clear (r : Report P) (g : CString) : r.clear.count g = 0 := by
  rw [count, getReportData_clear]
  cases r.getReportData g <;> rfl

/-! ## Merging -/

/-- What merging an entry does to the group under the same index. -/
def mergeGroup (createNewData : ReportData → Option ReportData) (mine : Option ReportData)
    (data : ReportData) : Option ReportData :=
  match mine with
  | none => if data.isEmpty then none else (createNewData data).map (·.mergeData data)
  | some mine => some (mine.mergeData data)

/-- The body of the loop finds or creates the group, and then merges into it. -/
theorem mergeEntry_eq_upsert (createNewData : ReportData → Option ReportData) (map : ReportMap)
    (index : CString) (data : ReportData) :
    mergeEntry createNewData map index data =
      KeyedLoop.upsert map index data.isEmpty (createNewData data) (·.mergeData data) := by
  rw [mergeEntry, KeyedLoop.upsert]
  cases map[index]? <;> rfl

/-- The merge of one group as a step of a keyed loop. -/
theorem mergeGroup_eq_upserted (createNewData : ReportData → Option ReportData)
    (mine : Option ReportData) (data : ReportData) :
    mergeGroup createNewData mine data =
      KeyedLoop.upserted mine data.isEmpty (createNewData data) (·.mergeData data) := by
  cases mine <;> rfl

/-- The body of the loop touches one index, and fails only on a `NULL` new group. -/
theorem mergeEntry_eq_some (createNewData : ReportData → Option ReportData) (map : ReportMap)
    (index : CString) (data : ReportData)
    (hnull : map[index]? = none → data.reqCount ≠ 0 → (createNewData data).isSome) :
    ∃ map', mergeEntry createNewData map index data = some map' ∧
      map'[index]? = mergeGroup createNewData map[index]? data ∧
      ∀ j, j ≠ index → map'[j]? = map[j]? := by
  have hcreate : map[index]? = none → data.isEmpty = false → (createNewData data).isSome := by
    intro hmine hempty
    refine hnull hmine fun hzero => ?_
    rw [(ReportData.isEmpty_iff data).mpr hzero] at hempty
    cases hempty
  rw [mergeEntry_eq_upsert, mergeGroup_eq_upserted]
  exact KeyedLoop.upsert_eq_some map index data.isEmpty (createNewData data) (·.mergeData data) hcreate

/-- **Specification of `merge_report`**: if `create_new_data` returns a group wherever the loop needs
one, the merge succeeds, keeps the class and treats every index on its own. -/
theorem mergeReport_eq_some (createNewData : ReportData → Option ReportData) (self report : Report P)
    (hnull : ∀ g data, report.getReportData g = some data → self.getReportData g = none →
      data.reqCount ≠ 0 → (createNewData data).isSome) :
    ∃ r, mergeReport createNewData self report = some r ∧ r.producer = self.producer ∧
      ∀ g, r.getReportData g = (report.getReportData g).elim (self.getReportData g)
        (mergeGroup createNewData (self.getReportData g)) := by
  obtain ⟨map, hmap, hget⟩ := KeyedLoop.foldlM_apply
    (fun (map : ReportMap) g => map[g]?) (mergeEntry createNewData)
    (fun _ => mergeGroup createNewData)
    (fun _ mine data => mine = none → data.reqCount ≠ 0 → (createNewData data).isSome)
    (fun map g data hQ => mergeEntry_eq_some createNewData map g data hQ)
    report.reportData self.reportData hnull
  exact ⟨{ self with reportData := map }, by rw [mergeReport, hmap]; rfl, rfl, hget⟩

/-- `create_new_data` gives a fresh group with a zero count and never returns `NULL`. -/
def CreatesFresh (createNewData : ReportData → Option ReportData) : Prop :=
  ∀ data, ∃ new, createNewData data = some new ∧ new.reqCount = 0

/-- The count of a merged group is the sum of the two counts. -/
theorem reqCount_mergeGroup {createNewData : ReportData → Option ReportData}
    (hfresh : CreatesFresh createNewData) (mine : Option ReportData) (data : ReportData) :
    (mergeGroup createNewData mine data).elim 0 ReportData.reqCount =
      mine.elim 0 ReportData.reqCount + data.reqCount := by
  cases mine with
  | some mine => rfl
  | none =>
    obtain ⟨new, hnew, hzero⟩ := hfresh data
    by_cases hempty : data.isEmpty
    · simp [mergeGroup, (ReportData.isEmpty_iff data).mp hempty]
    · simp [mergeGroup, hempty, hnew, hzero]

/-- A merged group exists iff it existed or something is counted in the merged entry. -/
theorem isSome_mergeGroup {createNewData : ReportData → Option ReportData}
    (hfresh : CreatesFresh createNewData) (mine : Option ReportData) (data : ReportData) :
    (mergeGroup createNewData mine data).isSome ↔ mine.isSome ∨ data.reqCount ≠ 0 := by
  cases mine with
  | some mine => simp [mergeGroup]
  | none =>
    obtain ⟨new, hnew, -⟩ := hfresh data
    by_cases hempty : data.reqCount = 0
    · simp [mergeGroup, hempty]
    · simp [mergeGroup, hempty, hnew]

/-- **Merging is pointwise addition**: the merge succeeds, keeps the class, adds the counts index by
index and gains exactly the indices at which the other report counts something. -/
theorem mergeReport_count {createNewData : ReportData → Option ReportData}
    (hfresh : CreatesFresh createNewData) (self report : Report P) :
    ∃ r, mergeReport createNewData self report = some r ∧ r.producer = self.producer ∧
      (∀ g, r.count g = self.count g + report.count g) ∧
      ∀ g, (r.getReportData g).isSome ↔ (self.getReportData g).isSome ∨ report.count g ≠ 0 := by
  obtain ⟨r, hr, hproducer, hget⟩ := mergeReport_eq_some createNewData self report
    fun _ data _ _ _ => by
      obtain ⟨new, hnew, -⟩ := hfresh data
      rw [hnew]
      rfl
  refine ⟨r, hr, hproducer, fun g => ?_, fun g => ?_⟩
  · rw [count, hget g, count, count]
    cases report.getReportData g with
    | none => exact (add_zero _).symm
    | some data => exact reqCount_mergeGroup hfresh _ data
  · rw [hget g, count]
    cases report.getReportData g with
    | none => simp
    | some data => exact isSome_mergeGroup hfresh _ data

/-! ## Merging several reports

Reports are separate objects: `reports i` is the object with identity `i`, and `mergeInto` is the
call `reports[a].merge_report(reports[b])`. -/

section Objects

open Function (update)

variable {ι : Type*} [DecidableEq ι]

/-- `a.merge_report(b)` on a family of report objects, with the `create_new_data` of `a`'s class. -/
def mergeInto (createNewData : P → ReportData → Option ReportData) (reports : ι → Report P)
    (a b : ι) : Option (ι → Report P) :=
  (mergeReport (createNewData (reports a).producer) (reports a) (reports b)).map (update reports a)

/-- `a.merge_report(b)` for every `b` of a list, one after the other. -/
def mergeAllInto (createNewData : P → ReportData → Option ReportData) (reports : ι → Report P)
    (a : ι) (bs : List ι) : Option (ι → Report P) :=
  bs.foldlM (fun reports b => mergeInto createNewData reports a b) reports

variable {createNewData : P → ReportData → Option ReportData}

/-- One merge of two distinct objects: pointwise addition in `a`, and nothing else changes. -/
theorem mergeInto_count (hfresh : ∀ p, CreatesFresh (createNewData p)) (reports : ι → Report P)
    (a b : ι) :
    ∃ after, mergeInto createNewData reports a b = some after ∧
      (∀ c, c ≠ a → after c = reports c) ∧
      (∀ g, (after a).count g = (reports a).count g + (reports b).count g) ∧
      ∀ g, ((after a).getReportData g).isSome ↔
        ((reports a).getReportData g).isSome ∨ (reports b).count g ≠ 0 := by
  obtain ⟨r, hr, -, hcount, hkeys⟩ :=
    mergeReport_count (hfresh (reports a).producer) (reports a) (reports b)
  refine ⟨update reports a r, by rw [mergeInto, hr]; rfl, fun c hc => Function.update_of_ne hc _ _, ?_, ?_⟩
  · simpa only [Function.update_self] using hcount
  · simpa only [Function.update_self] using hkeys

/-- Merging a list of other objects adds up their counts and collects their non-empty indices. -/
theorem mergeAllInto_count (hfresh : ∀ p, CreatesFresh (createNewData p)) (reports : ι → Report P)
    (a : ι) (bs : List ι) (ha : a ∉ bs) :
    ∃ after, mergeAllInto createNewData reports a bs = some after ∧
      (∀ g, (after a).count g =
        (reports a).count g + (bs.map fun b => (reports b).count g).sum) ∧
      ∀ g, ((after a).getReportData g).isSome ↔
        ((reports a).getReportData g).isSome ∨ ∃ b ∈ bs, (reports b).count g ≠ 0 := by
  induction bs generalizing reports with
  | nil => exact ⟨reports, rfl, by simp, by simp⟩
  | cons b bs ih =>
    obtain ⟨hab, ha⟩ := not_or.mp (List.mem_cons.not.mp ha)
    obtain ⟨mid, hmid, hother, hcount, hkeys⟩ := mergeInto_count hfresh reports a b
    obtain ⟨after, hafter, hcounts, hkeyss⟩ := ih mid ha
    -- the first merge has changed none of the objects still to be merged
    have hsame : ∀ c ∈ bs, mid c = reports c := fun c hc =>
      hother c fun hca => ha (hca ▸ hc)
    refine ⟨after, ?_, fun g => ?_, fun g => ?_⟩
    · rw [mergeAllInto, List.foldlM_cons, hmid]
      exact hafter
    · have hsum : (bs.map fun c => (mid c).count g) = bs.map fun c => (reports c).count g :=
        List.map_congr_left fun c hc => by rw [hsame c hc]
      rw [hcounts g, hcount g, hsum, List.map_cons, List.sum_cons, add_assoc]
    · have hex : (∃ c ∈ bs, (mid c).count g ≠ 0) ↔ ∃ c ∈ bs, (reports c).count g ≠ 0 :=
        exists_congr fun c => and_congr_right fun hc => by rw [hsame c hc]
      rw [hkeyss g, hkeys g, hex, List.exists_mem_cons_iff, or_assoc]

/-- **`merge_report` is pointwise addition and independent of the order.** For distinct objects `a`
and `b`, `a.merge_report(b)` adds the counts, gains the indices at which `b` counts something and
leaves every other object unchanged; merging a list of objects into `a` in any other order gives the
same indices and counts. -/
theorem mergeReport_pointwise_and_order_independent
    (hfresh : ∀ p, CreatesFresh (createNewData p)) (reports : ι → Report P) (a : ι) :
    (∀ b, b ≠ a → ∃ after, mergeInto createNewData reports a b = some after ∧
      (∀ g, (after a).count g = (reports a).count g + (reports b).count g) ∧
      (∀ g, ((after a).getReportData g).isSome ↔
        ((reports a).getReportData g).isSome ∨ (reports b).count g ≠ 0) ∧
      after b = reports b) ∧
    ∀ bs bs' : List ι, a ∉ bs → bs.Perm bs' → ∃ after after',
      mergeAllInto createNewData reports a bs = some after ∧
      mergeAllInto createNewData reports a bs' = some after' ∧
      ∀ g, (after a).count g = (after' a).count g ∧
        (((after a).getReportData g).isSome ↔ ((after' a).getReportData g).isSome) := by
  constructor
  · intro b hb
    obtain ⟨after, hafter, hother, hcount, hkeys⟩ := mergeInto_count hfresh reports a b
    exact ⟨after, hafter, hcount, hkeys, hother b hb⟩
  · intro bs bs' ha hperm
    obtain ⟨after, hafter, hcount, hkeys⟩ := mergeAllInto_count hfresh reports a bs ha
    obtain ⟨after', hafter', hcount', hkeys'⟩ :=
      mergeAllInto_count hfresh reports a bs' fun h => ha (hperm.mem_iff.mpr h)
    refine ⟨after, after', hafter, hafter', fun g => ⟨?_, ?_⟩⟩
    · rw [hcount g, hcount' g, (hperm.map _).sum_eq]
    · rw [hkeys g, hkeys' g]
      exact or_congr_right (exists_congr fun b => and_congr_left fun _ => hperm.mem_iff)

end Objects

/-- Three reports of one class: two requests under `"a"`, none under `"b"`; minus two under `"a"`; one
under `"b"`. -/
def threeReports : Fin 3 → Report Unit
  | 0 => ⟨(), (∅ : ReportMap).insert ⟨[97], by decide⟩ { ReportData.new with reqCount := 2 }
      |>.insert ⟨[98], by decide⟩ .new⟩
  | 1 => ⟨(), (∅ : ReportMap).insert ⟨[97], by decide⟩ { ReportData.new with reqCount := -2 }⟩
  | 2 => ⟨(), (∅ : ReportMap).insert ⟨[98], by decide⟩ { ReportData.new with reqCount := 1 }⟩

/-- Merging the second and the third report into the first, in either order. -/
theorem threeReports_order_independent :
    ∃ after after',
      mergeAllInto (fun _ _ => some ReportData.new) threeReports 0 [1, 2] = some after ∧
      mergeAllInto (fun _ _ => some ReportData.new) threeReports 0 [2, 1] = some after' ∧
      ∀ g, (after 0).count g = (after' 0).count g ∧
        (((after 0).getReportData g).isSome ↔ ((after' 0).getReportData g).isSome) :=
  (mergeReport_pointwise_and_order_independent (fun _ _ => ⟨.new, rfl, rfl⟩) threeReports 0).2
    [1, 2] [2, 1] (by decide) (.swap 2 1 [])

end Report

end Tinypinba
