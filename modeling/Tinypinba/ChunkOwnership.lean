import Tinypinba.Shard

/-! # Chunk ownership

Every chunk of a container is at any time in exactly one of four places: in `empty_chunks`, in
`full_chunks`, with the worker or with the merger. The worker may hold two chunks between taking a new
list and returning the old one; `places` counts them all, and `places_step` is the one fact behind the
partition: a step moves at most one chunk from one place to another. -/

namespace Tinypinba

open Transition

variable {P : Type} {V : ReportClasses P} {n : ℕ} {period : Timeval}

namespace Shard

/-- In how many places a chunk is. -/
def places (s : Shard P n) (chunk : Fin n) : ℕ :=
  s.container.emptyChunks.count chunk + s.container.fullChunks.count chunk +
    s.worker.held.count chunk + s.merger.held.count chunk

/-- A new shard has every chunk in `empty_chunks`, once. -/
theorem places_new (chunk : Fin n) : (new P n).places chunk = 1 := by
  have hempty : (List.finRange n).count chunk = 1 :=
    List.count_eq_one_of_mem (List.nodup_finRange n) (List.mem_finRange chunk)
  simp [places, new, ReportContainer.new, MergerHand.held, hempty]

/-- Moving the worker between places where no list is coming in moves no chunk. -/
theorem places_setPc (s : Shard P n) {pc : WorkerPc n} (hold : s.worker.pc.incoming = [])
    (hnew : pc.incoming = []) (chunk : Fin n) : (s.setPc pc).places chunk = s.places chunk := by
  rw [places, places, held_setPc, Worker.held, hold, hnew]
  rfl

/-- **A step moves chunks, it neither makes nor loses them.** -/
theorem places_step {s s' : Shard P n} {label : ShardLabel P}
    (h : s.step V period label = some s') (chunk : Fin n) : s'.places chunk = s.places chunk := by
  cases step_cases h with
  | clock cur pc => exact places_setPc s (by rw [pc]; rfl) (by split <;> rfl) chunk
  | starved cur pc | unusable outcome pc | unpack request c pc | finish pc | malformed request todo c pc =>
    exact places_setPc s (by rw [pc]; rfl) rfl chunk
  | discard request pc reports =>
    exact places_setPc { s with discarded := s.discarded ++ [request] } (by simp [pc, WorkerPc.incoming])
      rfl chunk
  -- from `empty_chunks` to the worker, which holds nothing yet
  | first cur newList rest pc empty reports =>
    have hheld : s.worker.held = [] := by rw [Worker.held, reports, pc]; rfl
    simp only [places, hheld, Worker.held_adopt, empty, List.count_cons, List.count_nil]
    omega
  -- from `empty_chunks` to the worker, beside the list it has
  | take cur newList old rest pc empty reports =>
    have hheld : s.worker.held = [old] := by rw [Worker.held, reports, pc]; rfl
    simp only [places, hheld, held_setPc, container_setPc, merger_setPc, empty, reports,
      WorkerPc.incoming, Option.toList_some, List.count_append, List.count_cons, List.count_nil]
    omega
  -- from the worker to `full_chunks`
  | giveBack cur newList old pc reports =>
    have hheld : s.worker.held = [old, newList] := by rw [Worker.held, reports, pc]; rfl
    simp only [places, hheld, ReportContainer.returnFullList, Worker.held_adopt, List.count_append,
      List.count_cons, List.count_nil]
    omega
  | record request todo c pc reports check =>
    exact places_setPc { s with container := s.container.setChunk c _ }
      (by simp [pc, WorkerPc.incoming]) rfl chunk
  | delRequest | noFull | addReport | delReport => rfl
  -- from `full_chunks` to the merger
  | fetch reports rest merger full =>
    simp only [places, merger, full, MergerHand.held, List.count_cons, List.count_nil]
    omega
  | merge main reports merging merger eq =>
    simp only [places, merger, MergerHand.held, ReportContainer.setChunk]
  | apply reports merger =>
    simp only [places, merger, MergerHand.held, ReportContainer.emptyChunks_applyCommands,
      ReportContainer.fullChunks_applyCommands]
  -- from the merger to `empty_chunks`
  | publish reports merger =>
    simp only [places, merger, MergerHand.held, ReportContainer.pushEmpty, List.count_append,
      List.count_cons, List.count_nil]
    omega

/-- **Every chunk is in exactly one place.** -/
theorem places_eq_one {s : Shard P n} (h : (shard V n period).Reachable s) (chunk : Fin n) :
    s.places chunk = 1 := by
  refine h.invariant (P := fun s => s.places chunk = 1) (places_new chunk) ?_
  intro s label s' _ ih hstep
  rw [places_step hstep, ih]

/-- A list the worker holds is in no queue and not in the merger's hand. -/
theorem not_mem_of_mem_worker_held {s : Shard P n} (h : (shard V n period).Reachable s)
    {chunk : Fin n} (hheld : chunk ∈ s.worker.held) :
    chunk ∉ s.container.emptyChunks ∧ chunk ∉ s.container.fullChunks ∧ chunk ∉ s.merger.held := by
  have hone := places_eq_one h chunk
  have hpos := List.count_pos_iff.mpr hheld
  unfold places at hone
  refine ⟨?_, ?_, ?_⟩ <;> rw [← List.count_eq_zero] <;> omega

/-! ## Order of the full lists -/

/-- What the worker returned and the merger has not taken is in `full_chunks`, in the same order. -/
theorem returned_eq {s : Shard P n} (h : (shard V n period).Reachable s) :
    s.returned = s.taken ++ s.container.fullChunks := by
  refine h.invariant (P := fun s => s.returned = s.taken ++ s.container.fullChunks) rfl ?_
  intro s label s' _ ih hstep
  cases step_cases hstep with
  | giveBack cur newList old =>
    simp only [ReportContainer.returnFullList, ih, List.append_assoc]
  | fetch reports rest merger full =>
    simp only [ih, full, List.append_assoc, List.singleton_append]
  | _ => exact ih

/-! ## The worker is never without a list -/

/-- The clock readings of a run, in order. -/
def readings (run : List (ShardLabel P)) : List Timeval :=
  run.filterMap fun
    | .worker (.clock cur) => some cur
    | _ => none

/-- The first clock reading of a run, if there is one, is after `{0, 0}`. -/
def FirstReadingPositive (run : List (ShardLabel P)) : Prop :=
  ∀ cur, (readings run).head? = some cur → timercmpLt .zero cur = true

/-- Clock readings of a run cut in two. -/
theorem readings_append (run run' : List (ShardLabel P)) :
    readings (run ++ run') = readings run ++ readings run' :=
  List.filterMap_append

/-- The hypothesis on the first reading passes to prefixes of the run. -/
theorem FirstReadingPositive.of_append {run run' : List (ShardLabel P)}
    (h : FirstReadingPositive (run ++ run')) : FirstReadingPositive run := by
  intro cur hcur
  refine h cur ?_
  rw [readings_append, List.head?_append, hcur]
  rfl

/-- The shard before the worker got its first list: no chunk has moved, and the worker is about to
make its first reading or its first rotation. -/
def BeforeFirstList (run : List (ShardLabel P)) (s : Shard P n) : Prop :=
  s.container.emptyChunks = List.finRange n ∧
    (s.worker.pc = .top ∧ s.worker.next = .zero ∧ readings run = [] ∨
      ∃ cur, s.worker.pc = .rotate cur)

/-- A worker that is neither at the top of its loop nor about to rotate is past its first list. -/
theorem BeforeFirstList.pc_eq {run : List (ShardLabel P)} {s : Shard P n}
    (h : BeforeFirstList run s) : s.worker.pc = .top ∨ ∃ cur, s.worker.pc = .rotate cur :=
  h.2.imp And.left id

/-- While `reports` is `NULL` the worker is before its first list, and it never discards a packet. -/
theorem beforeFirstList_of_reports_eq_none (hn : 1 ≤ n) {run : List (ShardLabel P)} {s : Shard P n}
    (h : (shard V n period).Run run s) (hfirst : FirstReadingPositive run) :
    (s.worker.reports = none → BeforeFirstList run s) ∧ s.discarded = [] := by
  refine h.invariant (P := fun run s => FirstReadingPositive run →
    (s.worker.reports = none → BeforeFirstList run s) ∧ s.discarded = [])
    (fun _ => ⟨fun _ => ⟨rfl, .inl ⟨rfl, rfl, rfl⟩⟩, rfl⟩) ?_ hfirst
  intro run s label s' hrun ih hstep hfirst
  obtain ⟨ih, hdiscarded⟩ := ih hfirst.of_append
  cases step_cases hstep with
  | clock cur pc =>
    refine ⟨fun hnone => ?_, hdiscarded⟩
    obtain ⟨hempty, ⟨-, hnext, hreadings⟩ | ⟨cur', hpc⟩⟩ := ih hnone
    · -- the first pass: the deadline is `{0, 0}`, which the first reading is after
      have hcur : timercmpLt .zero cur = true := hfirst cur (by
        rw [readings_append, hreadings]
        rfl)
      exact ⟨hempty, .inr ⟨cur, by simp [setPc, hnext, hcur]⟩⟩
    · rw [pc] at hpc
      cases hpc
  | starved cur pc empty =>
    refine ⟨fun hnone => ?_, hdiscarded⟩
    have hnil : List.finRange n = [] := (ih hnone).1.symm.trans empty
    have hlength := congrArg List.length hnil
    rw [List.length_finRange] at hlength
    exact absurd hlength (by simp only [List.length_nil]; omega)
  | first | giveBack =>
    -- the worker has just got a list
    refine ⟨fun hnone => ?_, hdiscarded⟩
    cases hnone
  | take cur newList old rest pc empty reports | unpack request old pc reports
  | record request todo old pc reports | malformed request todo old pc reports
  | delRequest request old reports =>
    refine ⟨fun hnone => ?_, hdiscarded⟩
    have hsome : s.worker.reports = none := hnone
    rw [reports] at hsome
    cases hsome
  | unusable outcome pc | finish pc =>
    refine ⟨fun hnone => ?_, hdiscarded⟩
    have hpc := (ih hnone).pc_eq
    simp [pc] at hpc
  | discard request pc reports =>
    have hpc := (ih reports).pc_eq
    simp [pc] at hpc
  | publish reports merger =>
    refine ⟨fun hnone => ?_, hdiscarded⟩
    -- the merger cannot hold a list while all of them are in `empty_chunks`
    have hone := places_eq_one ⟨run, hrun⟩ reports
    have hmem : reports ∈ s.container.emptyChunks := by
      rw [(ih hnone).1]
      exact List.mem_finRange reports
    have hpos := List.count_pos_iff.mpr hmem
    simp only [places, merger, MergerHand.held, List.count_singleton_self] at hone
    omega
  | noFull | fetch | merge | apply | addReport | delReport =>
    refine ⟨fun hnone => ⟨(ih hnone).1, ?_⟩, hdiscarded⟩
    simpa [readings] using (ih hnone).2

/-- Once the worker has a list it always has one. -/
theorem reports_isSome_of_step {s s' : Shard P n} {label : ShardLabel P}
    (h : s.step V period label = some s') (hs : s.worker.reports ≠ none) :
    s'.worker.reports ≠ none := by
  cases step_cases h with
  | first | giveBack => simp [Worker.adopt]
  | _ => exact hs

/-- The same for any number of steps. -/
theorem reports_isSome_of_execFrom {s s' : Shard P n} {run : List (ShardLabel P)}
    (h : (shard V n period).execFrom s run = some s') (hs : s.worker.reports ≠ none) :
    s'.worker.reports ≠ none := by
  induction run generalizing s with
  | nil =>
    obtain rfl : s = s' := by simpa using h
    exact hs
  | cons label run ih =>
    obtain ⟨t, ht, hrest⟩ := Option.bind_eq_some_iff.mp h
    exact ih hrest (reports_isSome_of_step ht hs)

/-! ## There is always a list to come -/

/-- With two chunks or more, one is not the worker's current list. -/
theorem exists_not_current (hn : 2 ≤ n) (reports : Option (Fin n)) :
    ∃ chunk, chunk ∉ reports.toList := by
  have : Nontrivial (Fin n) := Fin.nontrivial_iff_two_le.mpr hn
  cases reports with
  | none => exact ⟨⟨0, by omega⟩, by simp⟩
  | some current =>
    obtain ⟨chunk, hchunk⟩ := exists_ne current
    exact ⟨chunk, by simpa using hchunk⟩

/-- At the top of the loop with no empty list, some list is full or in the merger's hand. -/
theorem full_or_merger_of_empty {s : Shard P n} (h : (shard V n period).Reachable s) (hn : 2 ≤ n)
    (hpc : s.worker.pc = .top) (hempty : s.container.emptyChunks = []) :
    s.container.fullChunks ≠ [] ∨ s.merger.held ≠ [] := by
  obtain ⟨chunk, hchunk⟩ := exists_not_current hn s.worker.reports
  have hheld : s.worker.held.count chunk = 0 := by
    have hcurrent : s.worker.held = s.worker.reports.toList := by
      simp [Worker.held, hpc, WorkerPc.incoming]
    rw [hcurrent, List.count_eq_zero]
    exact hchunk
  have hone := places_eq_one h chunk
  rw [places, hempty, hheld] at hone
  -- otherwise the chunk that is not the worker's would be nowhere
  by_contra hcontra
  rw [not_or, not_not, not_not] at hcontra
  rw [hcontra.1, hcontra.2] at hone
  simp at hone

/-- **Chunk ownership.** In every run of a container with at least one chunk whose first clock reading
is after `{0, 0}`: every chunk is in exactly one of the four places; the lists the merger took are a
prefix of those the worker returned; after the first rotation step the worker's list is never `NULL`,
and no decoded packet is discarded; and with two chunks or more, whenever the worker is at the top of
its loop and there is no empty list, some list is full or in the merger's hand. -/
theorem chunk_ownership (hn : 1 ≤ n) {run : List (ShardLabel P)} {s : Shard P n}
    (h : (shard V n period).Run run s) (hfirst : FirstReadingPositive run) :
    (∀ chunk, s.container.emptyChunks.count chunk + s.container.fullChunks.count chunk +
      s.worker.held.count chunk + s.merger.held.count chunk = 1) ∧
    s.taken <+: s.returned ∧
    ((∀ start rest s₁, run = start ++ rest → (shard V n period).Run start s₁ →
      s₁.worker.pc = .recv → s.worker.reports ≠ none) ∧ s.discarded = []) ∧
    (2 ≤ n → s.worker.pc = .top → s.container.emptyChunks = [] →
      s.container.fullChunks ≠ [] ∨ s.merger.held ≠ []) := by
  refine ⟨places_eq_one ⟨run, h⟩, ⟨s.container.fullChunks, (returned_eq ⟨run, h⟩).symm⟩,
    ⟨?_, (beforeFirstList_of_reports_eq_none hn h hfirst).2⟩, full_or_merger_of_empty ⟨run, h⟩⟩
  rintro start rest s₁ rfl hstart hpc
  obtain ⟨t, ht, hrest⟩ := h.split
  obtain rfl : s₁ = t :=
    Option.some.inj ((Machine.run_iff_exec.mp hstart).symm.trans (Machine.run_iff_exec.mp ht))
  refine reports_isSome_of_execFrom hrest fun hnone => ?_
  have hbefore := ((beforeFirstList_of_reports_eq_none hn hstart hfirst.of_append).1 hnone).pc_eq
  simp [hpc] at hbefore

/-- A worker that rotates twice, records a packet in between, and a merger that takes its first list. -/
def twoRotations : List (ShardLabel Unit) :=
  [.worker (.clock ⟨1, 0⟩), .worker .getEmtyList, .addReport () [97],
    .worker (.recv (.decoded BaseData.sevenKbytes)), .worker .visit, .worker .visit,
    .worker (.clock ⟨3, 0⟩), .worker .getEmtyList, .worker .returnFullList, .getFullList,
    .mergeReports .new]

/-- The one list the merger has taken is the one the worker has returned. -/
theorem chunk_ownership_twoRotations :
    ∃ s, (shard ReportClasses.plain 2 ⟨1, 0⟩).Run twoRotations s ∧ s.taken <+: s.returned ∧
      s.discarded = [] := by
  obtain ⟨s, hs⟩ : ∃ s, (shard ReportClasses.plain 2 ⟨1, 0⟩).Run twoRotations s :=
    ⟨_, Machine.run_iff_exec.mpr rfl⟩
  have hfirst : FirstReadingPositive twoRotations := by
    intro cur hcur
    obtain rfl : ⟨1, 0⟩ = cur := Option.some.inj hcur
    rfl
  obtain ⟨-, hprefix, ⟨-, hdiscarded⟩, -⟩ := chunk_ownership (by decide) hs hfirst
  exact ⟨s, hs, hprefix, hdiscarded⟩

end Shard

end Tinypinba
