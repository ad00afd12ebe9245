import Tinypinba.Report

/-! # Tag reports

`Rtag_report1` groups requests by host name and tag value (`rtag_report1.h`, `rtag_report1.cc`). Its
groups are `TagData`, which keep the two strings apart and are indexed by the two joined with a
separator. Reports hold their groups through `ReportData*`, so here the map of a report holds objects
with their dynamic class, `create_new_data` is a downcast that may fail, and `merge_report` is the loop
of `reports.cc` over such maps.

* `TagData.index_eq_iff` — when two indices agree, and `index_injective_iff` — where that is a collision;
* `mergeReport_eq_some` — the specification of the merge, and `erase_mergeReport` — on tag reports it is
  the merge of `Report` on the counts;
* `groups_keep_their_index` — merging and clearing keep every group under its own index. -/

namespace Tinypinba

/-- `separator` -/
def separator : CString := ⟨[124], by decide⟩

/-- `std::string` concatenation of two strings without zero bytes. -/
instance : Append CString where
  append a b := ⟨a.bytes ++ b.bytes, fun h => (List.mem_append.mp h).elim a.nulFree b.nulFree⟩

@[simp] theorem CString.bytes_append (a b : CString) : (a ++ b).bytes = a.bytes ++ b.bytes := rfl

/-- `TagData`: the fields of `ReportData`, and the group. -/
structure TagData extends ReportData where
  /-- `tag_value` -/
  tagValue : CString
  /-- `host_name` -/
  hostName : CString
  /-- `tag_num` -/
  tagNum : UInt32
  deriving DecidableEq

namespace TagData

/-- `TagData(tag, host, _num)` -/
def new (tag host : CString) (num : UInt32) : TagData := ⟨.new, tag, host, num⟩

/-- `index`, which the constructor computes from the strings and nothing changes afterwards. -/
def index (self : TagData) : CString := self.hostName ++ separator ++ self.tagValue

/-- Two groups of the same host and tag. -/
def SameGroup (a b : TagData) : Prop := a.hostName = b.hostName ∧ a.tagValue = b.tagValue

instance (a b : TagData) : Decidable (SameGroup a b) := inferInstanceAs (Decidable (_ ∧ _))

/-- The host of `a` is the host of `b`, a separator and some more, and this same bit, a separator and
the tag of `a` are the tag of `b`: the separator that ends the host of one lies inside a string of the
other. -/
def Straddles (a b : TagData) : Prop :=
  ∃ m, a.hostName.bytes = b.hostName.bytes ++ 124 :: m ∧ b.tagValue.bytes = m ++ 124 :: a.tagValue.bytes

/-- Strings can only straddle when both contain the separator. -/
theorem Straddles.separator_mem {a b : TagData} (h : Straddles a b) :
    124 ∈ a.hostName.bytes ∧ 124 ∈ b.tagValue.bytes := by
  obtain ⟨m, hhost, htag⟩ := h
  rw [hhost, htag]
  exact ⟨by simp, by simp⟩

/-- Groups that straddle have different hosts. -/
theorem Straddles.hostName_ne {a b : TagData} (h : Straddles a b) : a.hostName ≠ b.hostName := by
  obtain ⟨m, hhost, -⟩ := h
  intro heq
  rw [heq] at hhost
  have hlength := congrArg List.length hhost
  rw [List.length_append, List.length_cons] at hlength
  omega

/-- Two ways of joining strings with a separator give the same result iff the parts agree or one
separator lies inside a part of the other. -/
theorem append_cons_eq_append_cons_iff {α : Type*} {s : α} {h₁ h₂ t₁ t₂ : List α} :
    h₁ ++ s :: t₁ = h₂ ++ s :: t₂ ↔ (h₁ = h₂ ∧ t₁ = t₂) ∨
      (∃ m, h₁ = h₂ ++ s :: m ∧ t₂ = m ++ s :: t₁) ∨ ∃ m, h₂ = h₁ ++ s :: m ∧ t₁ = m ++ s :: t₂ := by
  constructor
  · intro h
    rcases List.append_eq_append_iff.mp h with ⟨m, hh, ht⟩ | ⟨m, hh, ht⟩
    · -- the second host continues the first by `m`, which is empty or begins with the separator
      cases m with
      | nil => exact .inl ⟨by simpa using hh.symm, by simpa using ht⟩
      | cons c m =>
        obtain ⟨rfl, rfl⟩ := List.cons.inj ht
        exact .inr (.inr ⟨m, hh, rfl⟩)
    · cases m with
      | nil => exact .inl ⟨by simpa using hh, by simpa using ht.symm⟩
      | cons c m =>
        obtain ⟨rfl, rfl⟩ := List.cons.inj ht
        exact .inr (.inl ⟨m, hh, rfl⟩)
  · rintro (⟨rfl, rfl⟩ | ⟨m, rfl, rfl⟩ | ⟨m, rfl, rfl⟩)
    · rfl
    · rw [List.append_assoc, List.cons_append]
    · rw [List.append_assoc, List.cons_append]

/-- **When two indices agree**: the groups are the same, or straddle. -/
theorem index_eq_iff (a b : TagData) :
    a.index = b.index ↔ SameGroup a b ∨ Straddles a b ∨ Straddles b a := by
  have hbytes : ∀ t : TagData, t.index.bytes = t.hostName.bytes ++ 124 :: t.tagValue.bytes := by
    intro t
    rw [index, CString.bytes_append, CString.bytes_append, List.append_assoc]
    rfl
  have hext : ∀ {x y : CString}, x = y ↔ x.bytes = y.bytes := ⟨congrArg _, CString.ext⟩
  rw [hext, hbytes, hbytes, append_cons_eq_append_cons_iff, SameGroup, hext, hext]
  rfl

end TagData

/-! ## Objects -/

/-- What a `ReportData*` points to. -/
inductive DataObject
  /-- A `ReportData`. -/
  | plain (data : ReportData)
  /-- A `TagData`. -/
  | tag (data : TagData)
  deriving DecidableEq

namespace DataObject

/-- The `ReportData` part of an object. -/
def base : DataObject → ReportData
  | .plain data => data
  | .tag data => data.toReportData

/-- Change the `ReportData` part; the rest of the object stays. -/
def modifyBase (f : ReportData → ReportData) : DataObject → DataObject
  | .plain data => .plain (f data)
  | .tag data => .tag { data with toReportData := f data.toReportData }

/-- `merge_data`, which `TagData` does not override. -/
def mergeData (self mdata : DataObject) : DataObject := self.modifyBase (·.mergeData mdata.base)

/-- `clear`, which it does not override either. -/
def clear (self : DataObject) : DataObject := self.modifyBase ReportData.clear

/-- What is modified is the base class part. -/
@[simp] theorem base_modifyBase (f : ReportData → ReportData) (object : DataObject) :
    (object.modifyBase f).base = f object.base := by
  cases object <;> rfl

@[simp] theorem base_mergeData (self mdata : DataObject) :
    (self.mergeData mdata).base = self.base.mergeData mdata.base := base_modifyBase _ self

end DataObject

/-- `report_data`, with the objects behind the pointers. -/
abbrev ObjectMap : Type := Std.ExtTreeMap CString DataObject

namespace RtagReport1

/-- `Rtag_report1::create_new_data(data)`: `dynamic_cast<TagData*>`, and `NULL` when it fails. -/
def createNewData : DataObject → Option DataObject
  | .tag tdata => some (.tag (.new tdata.tagValue tdata.hostName tdata.tagNum))
  | .plain _ => none

/-- The body of the loop in `Report::merge_report` over objects, with the `create_new_data` of tag
reports; `none` is the call of `merge_data` through `NULL`. -/
def mergeEntry (map : ObjectMap) (index : CString) (data : DataObject) : Option ObjectMap :=
  match map[index]? with
  | none =>
    if data.base.isEmpty then some map
    else (createNewData data).map fun new => (map.insert index new).modify index (·.mergeData data)
  | some _ => some (map.modify index (·.mergeData data))

/-- `Report::merge_report` on a tag report. -/
def mergeReport (self report : ObjectMap) : Option ObjectMap := report.foldlM mergeEntry self

/-- `Report::clear` -/
def clear (self : ObjectMap) : ObjectMap := self.map fun _ data => data.clear

/-- What merging an entry does to the group under the same index. -/
def mergeGroup (mine : Option DataObject) (data : DataObject) : Option DataObject :=
  match mine with
  | none => if data.base.isEmpty then none else (createNewData data).map (·.mergeData data)
  | some mine => some (mine.mergeData data)

/-! ## Merging tag reports -/

/-- The body of the loop as a step of a keyed loop. -/
theorem mergeEntry_eq_upsert (map : ObjectMap) (index : CString) (data : DataObject) :
    mergeEntry map index data =
      KeyedLoop.upsert map index data.base.isEmpty (createNewData data) (·.mergeData data) := by
  rw [mergeEntry, KeyedLoop.upsert]
  cases map[index]? <;> rfl

/-- The merge of one group as what such a step puts in. -/
theorem mergeGroup_eq_upserted (mine : Option DataObject) (data : DataObject) :
    mergeGroup mine data =
      KeyedLoop.upserted mine data.base.isEmpty (createNewData data) (·.mergeData data) := by
  cases mine <;> rfl

/-- Every group is a `TagData` stored under its own index. -/
def WellKeyed (map : ObjectMap) : Prop :=
  ∀ (key : CString) object, map[key]? = some object → ∃ t, object = .tag t ∧ t.index = key

/-- A group is stored under the index of its host and tag. -/
theorem WellKeyed.index_eq {map : ObjectMap} (h : WellKeyed map) {key : CString} {t : TagData}
    (ht : map[key]? = some (.tag t)) : t.index = key := by
  obtain ⟨u, hu, hkey⟩ := h key _ ht
  rwa [DataObject.tag.inj hu]

/-- **Specification of `merge_report` on tag reports**: when the groups of the other report are
`TagData`, `create_new_data` never returns `NULL`, and every index is treated on its own. -/
theorem mergeReport_eq_some (self : ObjectMap) {report : ObjectMap} (hreport : WellKeyed report) :
    ∃ r, mergeReport self report = some r ∧
      ∀ key : CString, r[key]? = (report[key]?).elim self[key]? (mergeGroup self[key]?) := by
  refine KeyedLoop.foldlM_apply (fun (map : ObjectMap) key => map[key]?) mergeEntry
    (fun _ => mergeGroup) (fun _ _ data => (createNewData data).isSome) ?_ report self ?_
  · intro map key data hsome
    rw [mergeEntry_eq_upsert, mergeGroup_eq_upserted]
    exact KeyedLoop.upsert_eq_some map key data.base.isEmpty (createNewData data) (·.mergeData data)
      fun _ _ => hsome
  · intro key object hobject
    obtain ⟨t, rfl, -⟩ := hreport key object hobject
    rfl

/-- The counts of a tag report, as a report of the other modules. -/
def erase (map : ObjectMap) : Report Unit := ⟨(), map.map fun _ object => object.base⟩

/-- **On tag reports the merge is the merge of `Report`**: forgetting hosts and tags before or after
makes no difference. -/
theorem erase_mergeReport {self report r : ObjectMap} (hreport : WellKeyed report)
    (h : mergeReport self report = some r) :
    Report.mergeReport (fun _ => some .new) (erase self) (erase report) = some (erase r) := by
  obtain ⟨r', hr', hget⟩ := mergeReport_eq_some self hreport
  obtain rfl : r' = r := Option.some.inj (hr'.symm.trans h)
  obtain ⟨merged, hmerged, -, hgroups⟩ := Report.mergeReport_eq_some (fun _ => some ReportData.new)
    (erase self) (erase report) fun _ _ _ _ _ => rfl
  rw [hmerged]
  refine congrArg some (congrArg (Report.mk ()) (Std.ExtTreeMap.ext_getElem? fun {g} => ?_))
  refine (hgroups g).trans ?_
  simp only [erase, Report.getReportData, Std.ExtTreeMap.getElem?_map, hget g]
  cases hg : report[g]? with
  | none => rfl
  | some object =>
    obtain ⟨t, rfl, -⟩ := hreport g object hg
    cases self[g]? with
    | some mine => exact congrArg some (DataObject.base_mergeData mine (.tag t)).symm
    | none =>
      -- both loops create a group, or neither does
      simp only [Option.map_none, Option.map_some, Option.elim_some, Report.mergeGroup, mergeGroup]
      by_cases hempty : (DataObject.tag t).base.isEmpty
      · rw [if_pos hempty, if_pos hempty, Option.map_none]
      · rw [if_neg hempty, if_neg hempty]
        rfl

/-! ## Collisions -/

/-- A report holds a group. -/
def Holds (map : ObjectMap) (t : TagData) : Prop := ∃ key : CString, map[key]? = some (.tag t)

/-- `self.merge_report(report)` adds the count of the group `b` to the group `a`. -/
def AddsTo (self report : ObjectMap) (a b : TagData) : Prop :=
  ∃ (key : CString) (r : ObjectMap), self[key]? = some (.tag a) ∧ report[key]? = some (.tag b) ∧
    mergeReport self report = some r ∧ r[key]? = some ((DataObject.tag a).mergeData (.tag b))

/-- Two groups are added together iff both are held and their indices agree. -/
theorem addsTo_iff {self report : ObjectMap} (hself : WellKeyed self) (hreport : WellKeyed report)
    (a b : TagData) : AddsTo self report a b ↔ Holds self a ∧ Holds report b ∧ a.index = b.index := by
  constructor
  · rintro ⟨key, r, ha, hb, -, -⟩
    exact ⟨⟨key, ha⟩, ⟨key, hb⟩, (hself.index_eq ha).trans (hreport.index_eq hb).symm⟩
  · rintro ⟨⟨key, ha⟩, ⟨key', hb⟩, hindex⟩
    obtain rfl : key = key' := by rw [← hself.index_eq ha, hindex, hreport.index_eq hb]
    obtain ⟨r, hr, hget⟩ := mergeReport_eq_some self hreport
    refine ⟨key, r, ha, hb, hr, ?_⟩
    rw [hget key, hb, ha]
    rfl

/-- **When different groups have different indices**: exactly when neither straddles the other. So
`merge_report` adds only counts of the same host and tag together exactly when no group of the one
report straddles a group of the other. -/
theorem index_injective_iff (a b : TagData) :
    ((a.index = b.index ↔ a.SameGroup b) ↔ ¬ a.Straddles b ∧ ¬ b.Straddles a) ∧
    ∀ self report, WellKeyed self → WellKeyed report →
      ((∀ mine data, AddsTo self report mine data → mine.SameGroup data) ↔
        ∀ mine data, Holds self mine → Holds report data →
          ¬ mine.Straddles data ∧ ¬ data.Straddles mine) := by
  constructor
  · rw [TagData.index_eq_iff]
    constructor
    · intro h
      exact ⟨fun hab => hab.hostName_ne (h.mp (.inr (.inl hab))).1,
        fun hba => hba.hostName_ne (h.mp (.inr (.inr hba))).1.symm⟩
    · rintro ⟨hab, hba⟩
      exact ⟨fun h => h.resolve_right (not_or.mpr ⟨hab, hba⟩), .inl⟩
  · intro self report hself hreport
    simp only [addsTo_iff hself hreport, TagData.index_eq_iff]
    constructor
    · intro h mine data hmine hdata
      exact ⟨fun hs => hs.hostName_ne (h mine data ⟨hmine, hdata, .inr (.inl hs)⟩).1,
        fun hs => hs.hostName_ne (h mine data ⟨hmine, hdata, .inr (.inr hs)⟩).1.symm⟩
    · rintro h mine data ⟨hmine, hdata, hindex⟩
      exact hindex.resolve_right (not_or.mpr (h mine data hmine hdata))

/-- One request of host `"a|b"` with tag `"c"`. -/
def hostWithSeparator : TagData where
  toReportData := { ReportData.new with reqCount := 1 }
  hostName := .ofBuffer [97, 124, 98]
  tagValue := .ofBuffer [99]
  tagNum := 0

/-- One request of host `"a"` with tag `"b|c"`. -/
def tagWithSeparator : TagData where
  toReportData := { ReportData.new with reqCount := 1 }
  hostName := .ofBuffer [97]
  tagValue := .ofBuffer [98, 124, 99]
  tagNum := 0

/-- A report with one group, under its own index. -/
def single (t : TagData) : ObjectMap := (∅ : ObjectMap).insert t.index (.tag t)

/-- Such a report is well keyed. -/
theorem wellKeyed_single (t : TagData) : WellKeyed (single t) := by
  intro key object hobject
  rw [single, Std.ExtTreeMap.getElem?_insert] at hobject
  split at hobject
  · rename_i hkey
    exact ⟨t, (Option.some.inj hobject).symm, Std.LawfulEqCmp.compare_eq_iff_eq.mp hkey⟩
  · simp at hobject

/-- The two groups share the index `"a|b|c"`, and merging their reports counts both under one host. -/
theorem index_collision_separator :
    (¬ ∀ a b : TagData, a.index = b.index ↔ a.SameGroup b) ∧
    ¬ ∀ self report, WellKeyed self → WellKeyed report →
      ∀ a b, AddsTo self report a b → a.SameGroup b := by
  have hindex : hostWithSeparator.index = tagWithSeparator.index := by decide
  have hdiffer : ¬ hostWithSeparator.SameGroup tagWithSeparator := by decide
  refine ⟨fun h => hdiffer ((h _ _).mp hindex), fun h => hdiffer ?_⟩
  have hself := wellKeyed_single hostWithSeparator
  have hreport := wellKeyed_single tagWithSeparator
  exact h _ _ hself hreport _ _ ((addsTo_iff hself hreport _ _).mpr
    ⟨⟨_, Std.ExtTreeMap.getElem?_insert_self⟩, ⟨_, Std.ExtTreeMap.getElem?_insert_self⟩, hindex⟩)

/-- A report with one group, whose host has a separator in it, merged into itself. -/
theorem index_injective_iff_single :
    (∀ a b, AddsTo (single hostWithSeparator) (single hostWithSeparator) a b → a.SameGroup b) ↔
      ∀ a b, Holds (single hostWithSeparator) a → Holds (single hostWithSeparator) b →
        ¬ a.Straddles b ∧ ¬ b.Straddles a :=
  (index_injective_iff hostWithSeparator tagWithSeparator).2 _ _ (wellKeyed_single _)
    (wellKeyed_single _)

/-! ## Keys and groups over any sequence of calls -/

section Family

open Function (update)

variable {ι : Type*} [DecidableEq ι]

/-- A call on a report of a family. -/
inductive Call (ι : Type*)
  /-- `reports[a].merge_report(reports[b])` -/
  | merge (a b : ι)
  /-- `reports[a].clear()` -/
  | clear (a : ι)

/-- Make a call; `none` is a call through `NULL`. -/
def Call.run (reports : ι → ObjectMap) : Call ι → Option (ι → ObjectMap)
  | .merge a b => (mergeReport (reports a) (reports b)).map (update reports a)
  | .clear a => some (update reports a (RtagReport1.clear (reports a)))

/-- Make a sequence of calls. -/
def runCalls (reports : ι → ObjectMap) (calls : List (Call ι)) : Option (ι → ObjectMap) :=
  calls.foldlM Call.run reports

/-- Every group of `map` is a `TagData` under its own index, with the host, tag and tag number of a group
stored under the same key in one of the original reports. -/
def FromOriginals (originals : ι → ObjectMap) (map : ObjectMap) : Prop :=
  ∀ (key : CString) object, map[key]? = some object → ∃ t, object = .tag t ∧ t.index = key ∧
    ∃ i t₀, (originals i)[key]? = some (.tag t₀) ∧ t.hostName = t₀.hostName ∧
      t.tagValue = t₀.tagValue ∧ t.tagNum = t₀.tagNum

variable {originals : ι → ObjectMap} {self report : ObjectMap}

omit [DecidableEq ι] in
/-- Such a report is well keyed. -/
theorem FromOriginals.wellKeyed (h : FromOriginals originals self) : WellKeyed self := by
  intro key object hobject
  obtain ⟨t, ht, hkey, -⟩ := h key object hobject
  exact ⟨t, ht, hkey⟩

omit [DecidableEq ι] in
/-- Clearing keeps the groups where they are. -/
theorem FromOriginals.clear (h : FromOriginals originals self) :
    FromOriginals originals (RtagReport1.clear self) := by
  intro key object hobject
  rw [RtagReport1.clear, Std.ExtTreeMap.getElem?_map, Option.map_eq_some_iff] at hobject
  obtain ⟨before, hbefore, rfl⟩ := hobject
  obtain ⟨t, rfl, hkey, horigin⟩ := h key before hbefore
  exact ⟨{ t with toReportData := t.toReportData.clear }, rfl, hkey, horigin⟩

omit [DecidableEq ι] in
/-- **One merge**: it succeeds, the groups both reports have stay the groups they were, and a group it
creates is rebuilt from the parts of the one merged, under the index they make up. -/
theorem FromOriginals.merge (hself : FromOriginals originals self)
    (hreport : FromOriginals originals report) :
    ∃ r, mergeReport self report = some r ∧ FromOriginals originals r := by
  obtain ⟨r, hr, hget⟩ := mergeReport_eq_some self hreport.wellKeyed
  refine ⟨r, hr, fun key object hobject => ?_⟩
  rw [hget key] at hobject
  cases hdata : report[key]? with
  | none =>
    rw [hdata, Option.elim_none] at hobject
    exact hself key object hobject
  | some data =>
    obtain ⟨t, rfl, hkey, horigin⟩ := hreport key data hdata
    rw [hdata, Option.elim_some] at hobject
    cases hmine : self[key]? with
    | some mine =>
      obtain ⟨u, rfl, hkey', horigin'⟩ := hself key mine hmine
      rw [hmine, mergeGroup, Option.some.injEq] at hobject
      exact ⟨{ u with toReportData := u.toReportData.mergeData t.toReportData }, hobject.symm, hkey',
        horigin'⟩
    | none =>
      rw [hmine, mergeGroup] at hobject
      split at hobject
      · cases hobject
      · obtain rfl := Option.some.inj hobject
        exact ⟨{ t with toReportData := ReportData.new.mergeData t.toReportData }, rfl, hkey, horigin⟩

/-- A call succeeds and keeps every report of the family from the originals. -/
theorem Call.run_fromOriginals {reports : ι → ObjectMap}
    (h : ∀ i, FromOriginals originals (reports i)) (call : Call ι) :
    ∃ after, call.run reports = some after ∧ ∀ i, FromOriginals originals (after i) := by
  -- only the report called on changes
  have hupdate : ∀ a r, FromOriginals originals r → ∀ i, FromOriginals originals (update reports a r i) := by
    intro a r hr i
    by_cases hi : i = a
    · subst hi
      rwa [Function.update_self]
    · rw [Function.update_of_ne hi]
      exact h i
  cases call with
  | merge a b =>
    obtain ⟨r, hr, hkept⟩ := (h a).merge (h b)
    exact ⟨update reports a r, by rw [Call.run, hr]; rfl, hupdate a r hkept⟩
  | clear a => exact ⟨_, rfl, hupdate a _ (h a).clear⟩

/-- **Merging and clearing tag reports keep every group under its own index.** In a family of tag
reports whose groups are `TagData` stored under their own index, any sequence of merges and clears
succeeds, so `create_new_data` never returns `NULL`, and leaves in every report only `TagData` under
their own index, each with the host, tag and tag number of a group that was stored under the same key in
one of the original reports. -/
theorem groups_keep_their_index (originals : ι → ObjectMap) (h : ∀ i, WellKeyed (originals i))
    (calls : List (Call ι)) :
    ∃ after, runCalls originals calls = some after ∧
      ∀ i (key : CString) object, (after i)[key]? = some object →
        ∃ t, object = .tag t ∧ t.index = key ∧
          ∃ j t₀, (originals j)[key]? = some (.tag t₀) ∧ t.hostName = t₀.hostName ∧
            t.tagValue = t₀.tagValue ∧ t.tagNum = t₀.tagNum := by
  have hrun : ∀ reports : ι → ObjectMap, (∀ i, FromOriginals originals (reports i)) →
      ∃ after, runCalls reports calls = some after ∧ ∀ i, FromOriginals originals (after i) := by
    intro reports hreports
    induction calls generalizing reports with
    | nil => exact ⟨reports, rfl, hreports⟩
    | cons call calls ih =>
      obtain ⟨mid, hmid, hkept⟩ := call.run_fromOriginals hreports
      obtain ⟨after, hafter, hkept'⟩ := ih mid hkept
      refine ⟨after, ?_, hkept'⟩
      rw [runCalls, List.foldlM_cons, hmid]
      exact hafter
  -- at the start every group is its own origin
  refine hrun originals fun i key object hobject => ?_
  obtain ⟨t, rfl, hkey⟩ := h i key object hobject
  exact ⟨t, rfl, hkey, i, t, hobject, rfl, rfl, rfl⟩

end Family

/-- Three reports, merged and cleared. -/
theorem groups_keep_their_index_threeReports :
    ∃ after, runCalls (ι := Fin 3) ![single hostWithSeparator, single tagWithSeparator, ∅]
        [.merge 2 0, .clear 0, .merge 0 2, .merge 1 2] = some after ∧
      ∀ i (key : CString) object, (after i)[key]? = some object → ∃ t, object = .tag t ∧ t.index = key := by
  have hkeyed : ∀ i : Fin 3,
      WellKeyed (![single hostWithSeparator, single tagWithSeparator, ∅] i : ObjectMap) := by
    intro i
    fin_cases i
    · exact wellKeyed_single _
    · exact wellKeyed_single _
    · exact fun key object hobject => by simp at hobject
  obtain ⟨after, hafter, hgroups⟩ :=
    groups_keep_their_index _ hkeyed [.merge 2 0, .clear 0, .merge 0 2, .merge 1 2]
  refine ⟨after, hafter, fun i key object hobject => ?_⟩
  obtain ⟨t, ht, hkey, -⟩ := hgroups i key object hobject
  exact ⟨t, ht, hkey⟩

end RtagReport1

end Tinypinba
