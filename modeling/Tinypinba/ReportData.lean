import Tinypinba.Basic

/-! # One group of a report: `ReportData`

`report_data.cc` and `base_data.cc` both define `add_record` and `merge_data`: the first pair only
counts requests, the second also accumulates sizes and times. They are modelled under the namespaces
`ReportData` and `BaseData`. `clear` has a single definition, in `report_data.cc`, and it only resets
the count; the second half of this file is about what that does to the other totals over repeated
merge-and-clear cycles. -/

namespace Tinypinba

/-- The fields of `ReportData`. The two `double` totals are read as exact integers, and `req_count` without
the range of its type: to leave it is undefined in C. -/
structure ReportData where
  /-- `req_count`, a `ssize_t`. -/
  reqCount : ℤ
  /-- `req_time_total` -/
  reqTimeTotal : Timeval
  /-- `ru_utime_total` -/
  ruUtimeTotal : Timeval
  /-- `ru_stime_total` -/
  ruStimeTotal : Timeval
  /-- `kbytes_total` -/
  kbytesTotal : ℤ
  /-- `memory_footprint` -/
  memoryFootprint : ℤ
  deriving DecidableEq, Repr

namespace ReportData

/-- `ReportData()`, with the members the constructor does not mention zero as well. -/
def new : ReportData := ⟨0, .zero, .zero, .zero, 0, 0⟩

/-- `ReportData::is_empty` -/
def isEmpty (data : ReportData) : Bool := data.reqCount == 0

/-- `ReportData::merge_data` of `report_data.cc`. -/
def mergeData (self mdata : ReportData) : ReportData :=
  { self with reqCount := self.reqCount + mdata.reqCount }

/-- `ReportData::add_record` of `report_data.cc`. -/
def addRecord (self : ReportData) (_request : PinbaRequest) : ReportData :=
  { self with reqCount := self.reqCount + 1 }

/-- `ReportData::del_record`. -/
def delRecord (self : ReportData) (_request : PinbaRequest) : ReportData :=
  { self with reqCount := self.reqCount - 1 }

/-- `ReportData::clear` -/
def clear (self : ReportData) : ReportData := { self with reqCount := 0 }

@[simp] theorem reqCount_new : new.reqCount = 0 := rfl

/-- A group is empty when it counts nothing. -/
@[simp] theorem isEmpty_iff (data : ReportData) : data.isEmpty = true ↔ data.reqCount = 0 := by
  simp [isEmpty]

@[simp] theorem reqCount_mergeData (self mdata : ReportData) :
    (self.mergeData mdata).reqCount = self.reqCount + mdata.reqCount := rfl

@[simp] theorem reqCount_addRecord (self : ReportData) (r : PinbaRequest) :
    (self.addRecord r).reqCount = self.reqCount + 1 := rfl

@[simp] theorem reqCount_delRecord (self : ReportData) (r : PinbaRequest) :
    (self.delRecord r).reqCount = self.reqCount - 1 := rfl

@[simp] theorem reqCount_clear (self : ReportData) : self.clear.reqCount = 0 := rfl

end ReportData

namespace BaseData

/-- `ReportData::add_record` of `base_data.cc`. -/
def addRecord (self : ReportData) (request : PinbaRequest) : ReportData :=
  { self with
    reqCount := self.reqCount + 1
    kbytesTotal := self.kbytesTotal + request.documentSize.toNat
    memoryFootprint := self.memoryFootprint + request.memoryFootprint.toNat }

/-- `ReportData::merge_data` of `base_data.cc`. -/
def mergeData (self data : ReportData) : ReportData where
  reqCount := self.reqCount + data.reqCount
  kbytesTotal := self.kbytesTotal + data.kbytesTotal
  memoryFootprint := self.memoryFootprint + data.memoryFootprint
  reqTimeTotal := timeradd self.reqTimeTotal data.reqTimeTotal
  ruUtimeTotal := timeradd self.ruUtimeTotal data.ruUtimeTotal
  ruStimeTotal := timeradd self.ruStimeTotal data.ruStimeTotal

/-! ## Merge-and-clear cycles

The merger's use of a group (`ReportList::merge_reports`): the chunk's data collect some requests, are
merged into the main list's data and then cleared. -/

/-- One cycle over the pair of the main list's data and the chunk's data. -/
def cycle (state : ReportData × ReportData) (requests : List PinbaRequest) :
    ReportData × ReportData :=
  let chunk := requests.foldl addRecord state.2
  (mergeData state.1 chunk, chunk.clear)

/-- Any number of cycles, from freshly constructed data on both sides. -/
def runCycles (cycles : List (List PinbaRequest)) : ReportData × ReportData :=
  cycles.foldl cycle (.new, .new)

/-- The sum of `document_size` over some requests. -/
def documentSizes (requests : List PinbaRequest) : ℤ :=
  (requests.map fun r => (r.documentSize.toNat : ℤ)).sum

/-- The sum of `memory_footprint` over some requests. -/
def memoryFootprints (requests : List PinbaRequest) : ℤ :=
  (requests.map fun r => (r.memoryFootprint.toNat : ℤ)).sum

@[simp] theorem runCycles_nil : runCycles [] = (.new, .new) := rfl

/-- One more cycle comes last. -/
theorem runCycles_concat (cycles : List (List PinbaRequest)) (requests : List PinbaRequest) :
    runCycles (cycles ++ [requests]) = cycle (runCycles cycles) requests := by
  simp only [runCycles, List.foldl_append, List.foldl_cons, List.foldl_nil]

@[simp] theorem documentSizes_nil : documentSizes [] = 0 := rfl

@[simp] theorem documentSizes_cons (r : PinbaRequest) (rs : List PinbaRequest) :
    documentSizes (r :: rs) = r.documentSize.toNat + documentSizes rs := by
  simp [documentSizes]

/-- The sizes of two lists of requests. -/
theorem documentSizes_append (rs rs' : List PinbaRequest) :
    documentSizes (rs ++ rs') = documentSizes rs + documentSizes rs' := by
  simp [documentSizes]

@[simp] theorem memoryFootprints_nil : memoryFootprints [] = 0 := rfl

@[simp] theorem memoryFootprints_cons (r : PinbaRequest) (rs : List PinbaRequest) :
    memoryFootprints (r :: rs) = r.memoryFootprint.toNat + memoryFootprints rs := by
  simp [memoryFootprints]

/-- The footprints of two lists of requests. -/
theorem memoryFootprints_append (rs rs' : List PinbaRequest) :
    memoryFootprints (rs ++ rs') = memoryFootprints rs + memoryFootprints rs' := by
  simp [memoryFootprints]

/-- Recording a list of requests adds its length and its two sums and keeps the times. -/
theorem foldl_addRecord (rs : List PinbaRequest) (data : ReportData) :
    rs.foldl addRecord data =
      { data with
        reqCount := data.reqCount + rs.length
        kbytesTotal := data.kbytesTotal + documentSizes rs
        memoryFootprint := data.memoryFootprint + memoryFootprints rs } := by
  induction rs generalizing data with
  | nil => simp
  | cons r rs ih =>
    rw [List.foldl_cons, ih]
    simp only [addRecord, List.length_cons, documentSizes_cons, memoryFootprints_cons,
      ReportData.mk.injEq, true_and]
    refine ⟨?_, ?_, ?_⟩ <;> push_cast <;> ring

/-- After any cycles the chunk's data still hold the sizes of *all* requests recorded so far: only
the count was cleared. -/
theorem runCycles_snd (cycles : List (List PinbaRequest)) :
    (runCycles cycles).2 =
      { ReportData.new with
        kbytesTotal := documentSizes cycles.flatten
        memoryFootprint := memoryFootprints cycles.flatten } := by
  induction cycles using List.reverseRecOn with
  | nil => rfl
  | append_singleton cycles rs ih =>
    -- `clear` resets the count, and the sizes of this cycle join those of the earlier ones
    rw [runCycles_concat, cycle, foldl_addRecord, ih]
    simp only [ReportData.clear, List.flatten_append, List.flatten_singleton,
      documentSizes_append, memoryFootprints_append]
    rfl

/-- One more cycle adds to the main list's data the new requests' count and the sizes of *all*
requests so far. -/
theorem runCycles_concat_fst (cycles : List (List PinbaRequest)) (rs : List PinbaRequest) :
    (runCycles (cycles ++ [rs])).1.reqCount = (runCycles cycles).1.reqCount + rs.length ∧
      (runCycles (cycles ++ [rs])).1.kbytesTotal =
        (runCycles cycles).1.kbytesTotal + documentSizes (cycles ++ [rs]).flatten ∧
      (runCycles (cycles ++ [rs])).1.memoryFootprint =
        (runCycles cycles).1.memoryFootprint + memoryFootprints (cycles ++ [rs]).flatten := by
  rw [runCycles_concat, cycle, foldl_addRecord, runCycles_snd]
  simp [mergeData, documentSizes_append, memoryFootprints_append]

/-- Sizes are never negative, so they add up to zero only when each of them is zero. -/
theorem sizes_eq_zero_iff (rs : List PinbaRequest) :
    documentSizes rs = 0 ∧ memoryFootprints rs = 0 ↔
      ∀ r ∈ rs, r.documentSize = 0 ∧ r.memoryFootprint = 0 := by
  induction rs with
  | nil => simp
  | cons r rs ih =>
    have hdoc : 0 ≤ documentSizes rs := List.sum_nonneg (by simp)
    have hmem : 0 ≤ memoryFootprints rs := List.sum_nonneg (by simp)
    rw [List.forall_mem_cons, ← ih, documentSizes_cons, memoryFootprints_cons,
      ← UInt32.toNat_inj, ← UInt32.toNat_inj]
    simp only [UInt32.toNat_zero]
    omega

/-- After the cycles `done` the main list's totals are the sums over all requests recorded in them
and the chunk's data are all zero. -/
def TotalsExact (done : List (List PinbaRequest)) : Prop :=
  (runCycles done).1.reqCount = done.flatten.length ∧
    (runCycles done).1.kbytesTotal = documentSizes done.flatten ∧
    (runCycles done).1.memoryFootprint = memoryFootprints done.flatten ∧
    (runCycles done).2 = .new

instance (done : List (List PinbaRequest)) : Decidable (TotalsExact done) :=
  inferInstanceAs (Decidable (_ ∧ _ ∧ _ ∧ _))

/-- The count is the one total that never goes wrong. -/
theorem runCycles_fst_reqCount (cycles : List (List PinbaRequest)) :
    (runCycles cycles).1.reqCount = cycles.flatten.length := by
  induction cycles using List.reverseRecOn with
  | nil => rfl
  | append_singleton cycles rs ih =>
    rw [(runCycles_concat_fst cycles rs).1, ih, List.flatten_append, List.length_append]
    simp

/-- While only empty documents are recorded, the main list's other totals stay zero too. -/
theorem runCycles_fst_of_sizes_zero (cycles : List (List PinbaRequest))
    (h : ∀ r ∈ cycles.flatten, r.documentSize = 0 ∧ r.memoryFootprint = 0) :
    (runCycles cycles).1.kbytesTotal = 0 ∧ (runCycles cycles).1.memoryFootprint = 0 := by
  induction cycles using List.reverseRecOn with
  | nil => exact ⟨rfl, rfl⟩
  | append_singleton cycles rs ih =>
    obtain ⟨hdoc, hmem⟩ := (sizes_eq_zero_iff _).mpr h
    have hprev := ih fun r hr => h r (by rw [List.flatten_append]; exact List.mem_append_left _ hr)
    obtain ⟨-, hk, hm⟩ := runCycles_concat_fst cycles rs
    rw [hk, hm, hprev.1, hprev.2, hdoc, hmem]
    exact ⟨rfl, rfl⟩

/-- While only empty documents are recorded, nothing is left behind to be counted again. -/
theorem totalsExact_of_sizes_zero (cycles : List (List PinbaRequest))
    (h : ∀ r ∈ cycles.flatten, r.documentSize = 0 ∧ r.memoryFootprint = 0) :
    TotalsExact cycles := by
  obtain ⟨hdoc, hmem⟩ := (sizes_eq_zero_iff cycles.flatten).mpr h
  obtain ⟨hk, hm⟩ := runCycles_fst_of_sizes_zero cycles h
  refine ⟨runCycles_fst_reqCount cycles, hk.trans hdoc.symm, hm.trans hmem.symm, ?_⟩
  rw [runCycles_snd, hdoc, hmem]
  rfl

/-- **When the totals survive the cycles.** The main list's totals are exact and the chunk's data zero
after every cycle if and only if no recorded request carries a document size or a memory footprint:
`clear` forgets both, so each is merged again in every later cycle. -/
theorem totalsExact_iff (cycles : List (List PinbaRequest)) :
    (∀ done, done <+: cycles → TotalsExact done) ↔
      ∀ r ∈ cycles.flatten, r.documentSize = 0 ∧ r.memoryFootprint = 0 := by
  constructor
  · -- a chunk that is all zero has been given no sizes
    intro h
    have hchunk : (runCycles cycles).2 = .new := (h cycles List.prefix_rfl).2.2.2
    rw [runCycles_snd] at hchunk
    exact (sizes_eq_zero_iff _).mp
      ⟨congrArg ReportData.kbytesTotal hchunk, congrArg ReportData.memoryFootprint hchunk⟩
  · rintro h done ⟨rest, rfl⟩
    refine totalsExact_of_sizes_zero done fun r hr => h r ?_
    rw [List.flatten_append]
    exact List.mem_append_left _ hr

/-- A request for a document of seven kilobytes. -/
def sevenKbytes : PinbaRequest where
  serverName := ⟨[119, 119, 119], by decide⟩
  documentSize := 7
  memoryFootprint := 0
  nTimerHitCount := 0
  nTimerValue := 0
  nTimerTagCount := 0
  nDictionary := 0
  nTagName := 0
  nTagValue := 0
  requests := []

/-- Recorded once and followed by one idle cycle, seven kilobytes are counted as fourteen. -/
theorem totals_not_exact_sevenKbytes :
    (runCycles [[sevenKbytes], []]).1.kbytesTotal = 14 ∧
      ¬ ∀ done, done <+: [[sevenKbytes], []] → TotalsExact done :=
  ⟨by decide, fun h => absurd (h _ List.prefix_rfl) (by decide)⟩

end BaseData

end Tinypinba
