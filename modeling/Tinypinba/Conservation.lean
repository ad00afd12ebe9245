import Tinypinba.Pipeline

/-! # Conservation of counts

What the workers record is counted once: in a chunk until the chunk is merged, in the main list from
then on. `Shard.total` is what the chunks of a container count together; each kind of step changes it
in its own way (`total_worker`, `total_of_call`, `total_update` for a merge), and `counts_conserved`
adds the containers and the main list up. -/

namespace Tinypinba

open Transition
open Function (update)

variable {P : Type} (V : ReportClasses P) {n count : ℕ} {chunks : Fin count → ℕ} {period : Timeval}

/-! ## What was recorded -/

/-- How many of the recordings added a request to the group `g` of a report under `type`. -/
def added (recordings : List (Recording P)) (type : StdString) (g : CString) : ℕ :=
  recordings.countP fun r => !r.removed && r.list.hits V r.request type g

/-- How many of them took one off. -/
def removed (recordings : List (Recording P)) (type : StdString) (g : CString) : ℕ :=
  recordings.countP fun r => r.removed && r.list.hits V r.request type g

/-- The count that the recordings come to. -/
def net (recordings : List (Recording P)) (type : StdString) (g : CString) : ℤ :=
  added V recordings type g - removed V recordings type g

/-- Nothing recorded, nothing counted. -/
@[simp] theorem net_nil (type : StdString) (g : CString) : net V [] type g = 0 := rfl

/-- Recordings counted in two parts. -/
theorem net_append (rs rs' : List (Recording P)) (type : StdString) (g : CString) :
    net V (rs ++ rs') type g = net V rs type g + net V rs' type g := by
  simp only [net, added, removed, List.countP_append, Nat.cast_add]
  ring

/-- One recorded request comes to one in the groups it hits. -/
theorem net_added (list : ReportList P) (request : PinbaRequest) (type : StdString) (g : CString) :
    net V [⟨list, request, false⟩] type g = if list.hits V request type g then 1 else 0 := by
  cases h : list.hits V request type g <;> simp [net, added, removed, h]

/-- One request taken off comes to minus one. -/
theorem net_removed (list : ReportList P) (request : PinbaRequest) (type : StdString) (g : CString) :
    net V [⟨list, request, true⟩] type g = if list.hits V request type g then -1 else 0 := by
  cases h : list.hits V request type g <;> simp [net, added, removed, h]

/-! ## The counts of a container -/

/-- Applying additions changes no count: a new report counts nothing, and one already there stays. -/
theorem ReportList.count_foldl_applyCmd {cmds : List (ReportCmd P)}
    (h : ∀ cmd ∈ cmds, cmd.producer.isSome) (list : ReportList P) (type : StdString) (g : CString) :
    (cmds.foldl (ReportList.applyCmd V) list).count type g = list.count type g := by
  induction cmds generalizing list with
  | nil => rfl
  | cons cmd cmds ih =>
    obtain ⟨producer, hproducer⟩ := Option.isSome_iff_exists.mp (h cmd List.mem_cons_self)
    have hone : (list.applyCmd V cmd).count type g = list.count type g := by
      rw [ReportList.applyCmd, hproducer]
      exact ReportList.count_addReport_createReport V list producer cmd.type type g
    rw [List.foldl_cons, ih fun c hc => h c (List.mem_cons_of_mem _ hc), hone]

namespace Shard

/-- What the chunks of the container count together. -/
def total (s : Shard P n) (type : StdString) (g : CString) : ℤ :=
  ∑ chunk, (s.container.reportChunks chunk).count type g

/-- A new shard counts nothing. -/
theorem total_new (type : StdString) (g : CString) : (new P n).total type g = 0 :=
  Finset.sum_eq_zero fun _ _ => ReportList.count_new type g

/-- A step that changes no chunk changes no count. -/
theorem total_of_reportChunks {s s' : Shard P n}
    (h : s'.container.reportChunks = s.container.reportChunks) (type : StdString) (g : CString) :
    s'.total type g = s.total type g := by
  rw [total, total, h]

/-- Replacing the contents of one chunk changes the total by the change of that chunk's count. -/
theorem total_update (s s' : Shard P n) {chunk : Fin n} {list : ReportList P}
    (h : s'.container.reportChunks = update s.container.reportChunks chunk list) (type : StdString)
    (g : CString) :
    s'.total type g + (s.container.reportChunks chunk).count type g =
      s.total type g + list.count type g := by
  rw [total, total, h]
  exact KeyedLoop.sum_update_add (fun _ list => list.count type g) s.container.reportChunks chunk list

/-- Recording a request in a chunk changes the total in the groups it hits. -/
theorem total_recordAll {f : ReportData → ReportData} {δ : ℤ}
    (hf : ∀ data, (f data).reqCount = data.reqCount + δ) {s s' : Shard P n} {chunk : Fin n}
    {request : PinbaRequest}
    (h : s'.container.reportChunks = update s.container.reportChunks chunk
      ((s.container.reportChunks chunk).recordAll V f request)) (type : StdString) (g : CString) :
    s'.total type g = s.total type g +
      if (s.container.reportChunks chunk).hits V request type g then δ else 0 := by
  have hchange := total_update s s' h type g
  rw [ReportList.count_recordAll V f δ hf] at hchange
  linarith

/-- **A step of the worker changes the counts by what it records.** -/
theorem total_worker {s s' : Shard P n} {label : WorkerLabel}
    (h : s.step V period (.worker label) = some s') (type : StdString) (g : CString) :
    s'.total type g = s.total type g + net V (s.recording label).toList type g := by
  have hquiet : ∀ {t : Shard P n}, t.container.reportChunks = s.container.reportChunks →
      s.recording label = none →
        t.total type g = s.total type g + net V (s.recording label).toList type g := by
    intro t hchunks hnone
    rw [total_of_reportChunks hchunks, hnone, Option.toList_none, net_nil, add_zero]
  cases step_cases h with
  -- these steps move lists or the program counter
  | clock | starved | first | take | unusable | discard | unpack => exact hquiet rfl rfl
  | giveBack cur newList old pc reports => exact hquiet rfl rfl
  | finish pc => exact hquiet rfl (by simp [recording, pc])
  | malformed request todo chunk pc reports check =>
    exact hquiet rfl (by simp [recording, pc, reports, check])
  | record request todo chunk pc reports check =>
    have hrecording : s.recording .visit = some ⟨s.container.reportChunks chunk, request, false⟩ := by
      simp [recording, pc, reports, check]
    rw [hrecording, Option.toList_some, net_added]
    exact total_recordAll V (f := (·.addRecord request)) (fun _ => rfl) rfl type g
  | delRequest request chunk reports =>
    have hrecording : s.recording (.delRequest request) =
        some ⟨s.container.reportChunks chunk, request, true⟩ := by
      simp [recording, reports]
    rw [hrecording, Option.toList_some, net_removed]
    exact total_recordAll V (f := (·.delRecord request)) (fun _ => rfl) rfl type g

variable {V}

/-- The merger's calls on the container other than the merge, and the console's, leave the counts of a
container without pending deletions alone. -/
theorem total_of_call {s s' : Shard P n} {label : ShardLabel P} (h : s.step V period label = some s')
    (hadds : s.OnlyAdds) (hworker : ∀ label', label ≠ .worker label')
    (hmerge : ∀ main, label ≠ .mergeReports main) (type : StdString) (g : CString) :
    s'.total type g = s.total type g := by
  cases step_cases h with
  | noFull | fetch | publish | addReport | delReport => exact total_of_reportChunks rfl type g
  | apply reports merger =>
    have hchange := total_update s
      { s with container := s.container.applyCommands V reports, merger := .applied reports }
      (ReportContainer.reportChunks_applyCommands V s.container reports) type g
    rw [ReportList.count_foldl_applyCmd V (hadds reports)] at hchange
    exact add_right_cancel hchange
  | merge main => exact absurd rfl (hmerge main)
  | _ => exact absurd rfl (hworker _)

end Shard

/-! ## The counts of the program -/

variable {V}

/-- Inserting a new report into the main list changes no count. -/
theorem MainList.count_of_addReport {s s' : MainList P} {producer : P} {report : Report P}
    {type : StdString} (hcreated : createReport V producer = some report)
    (h : s.step V (.addReport report type) = some s') (t : StdString) (g : CString) :
    s'.shared.list.count t g = s.shared.list.count t g := by
  cases step_cases h with
  | addReport report type free =>
    show (s.shared.list.addReport (some report) type).1.count t g = _
    rw [← hcreated]
    exact ReportList.count_addReport_createReport V s.shared.list producer type t g

namespace Pipeline

variable {s s' : Pipeline P chunks}

/-- What the main list and all chunks count together. -/
def total (s : Pipeline P chunks) (type : StdString) (g : CString) : ℤ :=
  s.main.shared.list.count type g + ∑ i, (s.shards i).total type g

/-- Replacing a shard changes the sum over the shards by the change of its total. -/
theorem sum_total_setShard (s : Pipeline P chunks) (j : Fin count) (next : Shard P (chunks j))
    (type : StdString) (g : CString) :
    ∑ i, ((s.setShard j next).shards i).total type g + (s.shards j).total type g =
      ∑ i, (s.shards i).total type g + next.total type g :=
  KeyedLoop.sum_update_add (fun _ shard => shard.total type g) s.shards j next

/-- A step of one shard that is neither the worker's nor a merge, with the main list as it was, keeps
everything. -/
theorem total_of_call (hadds : ∀ i, (s.shards i).OnlyAdds) {j : Fin count} {label : ShardLabel P}
    {next : Shard P (chunks j)} (h : (s.shards j).step V period label = some next)
    (hworker : ∀ label', label ≠ .worker label') (hmerge : ∀ main, label ≠ .mergeReports main)
    (hshards : s'.shards = (s.setShard j next).shards) (hmain : s'.main = s.main) (type : StdString)
    (g : CString) : s'.total type g = s.total type g := by
  have hcall := Shard.total_of_call h (hadds j) hworker hmerge type g
  have hsum := sum_total_setShard s j next type g
  rw [hcall] at hsum
  rw [total, total, hmain, hshards, add_right_cancel hsum]

/-- **A step of the program changes the counts by what it records.** -/
theorem total_step (hadds : ∀ i, (s.shards i).OnlyAdds) (hmain : s.main.WellFormed)
    {label : PipelineLabel P count} (h : s.step V period label = some s')
    (hold : s.total type g = net V s.recordings type g) :
    s'.total type g = net V s'.recordings type g := by
  cases step_cases h with
  | rewind | begin | refuse => exact hold
  | worker j label next eq =>
    have hworker := Shard.total_worker V eq type g
    have hsum := sum_total_setShard s j next type g
    show s.main.shared.list.count type g + ∑ i, ((s.setShard j next).shards i).total type g = _
    rw [net_append, ← hold, total]
    linarith
  | fetch j next mergeLoop eq =>
    exact (total_of_call hadds eq (fun _ => by simp) (fun _ => by simp) rfl rfl type g).trans hold
  | apply j next eq =>
    exact (total_of_call hadds eq (fun _ => by simp) (fun _ => by simp) rfl rfl type g).trans hold
  | publish j next mergeLoop eq =>
    exact (total_of_call hadds eq (fun _ => by simp) (fun _ => by simp) rfl rfl type g).trans hold
  | enqueue producer t k hk next adding eq =>
    exact (total_of_call hadds eq (fun _ => by simp) (fun _ => by simp) rfl rfl type g).trans hold
  | merge j reports merging merger eq =>
    -- what the chunk loses the main list gains
    have hmerged := (ReportList.Merged.of_eq_some V hmain.nonNull eq).conserved type g
    have hchunk := Shard.total_update (s.shards j) ((s.shards j).mergedAs reports merging.list) rfl
      type g
    have hsum := sum_total_setShard s j ((s.shards j).mergedAs reports merging.list) type g
    show merging.main.count type g + ∑ i, ((s.setShard j _).shards i).total type g =
      net V s.recordings type g
    rw [← hold, total]
    linarith
  | insert producer t next report main hnext adding created eq =>
    have hcount := MainList.count_of_addReport created eq type g
    exact (congrArg (· + ∑ i, (s.shards i).total type g) hcount).trans hold
  | reader call main eq =>
    have hlist := MainList.list_of_reader eq
    rw [← hold, total, total, hlist]

variable (V) (period) in
/-- **Conservation of counts.** In every reachable state and for every type and group, the count of
the main list plus the counts of all chunks of all containers is the number of requests of the group
recorded in lists with the type less the number of those taken off again. -/
theorem counts_conserved (h : (pipeline V period chunks).Reachable s) (type : StdString)
    (g : CString) :
    s.main.shared.list.count type g +
        ∑ i, ∑ chunk, ((s.shards i).container.reportChunks chunk).count type g =
      (added V s.recordings type g : ℤ) - (removed V s.recordings type g : ℤ) := by
  refine h.invariant (P := fun s => s.total type g = net V s.recordings type g) ?_ ?_
  · have hzero : ∀ i, ((Pipeline.new P chunks).shards i).total type g = 0 := fun i =>
      Shard.total_new type g
    show ReportList.new.count type g + ∑ i, ((Pipeline.new P chunks).shards i).total type g = 0
    rw [ReportList.count_new, Finset.sum_eq_zero fun i _ => hzero i, add_zero]
  · intro s label s' hs ih hstep
    exact total_step (onlyAdds V period hs) (wellFormed_main hs) hstep ih

/-- Report `"a"` is added, two requests are recorded under it, and the list with the first is merged. -/
def addRecordMerge : List (PipelineLabel Unit 1) :=
  [.addNewReport () [97], .console, .console] ++ firstRotations ++ mergeRound ++ [.merger] ++
    rotateAndRecord 5 BaseData.sevenKbytes ++ mergeRound ++ [.merger] ++
    rotateAndRecord 7 BaseData.sevenKbytes ++ [.merger, .merger]

/-- The first request is counted in the main list and the second in a chunk. -/
theorem counts_conserved_addRecordMerge :
    ∃ s, (pipeline .plain ⟨1, 0⟩ fun _ => 2).Run addRecordMerge s ∧
      s.main.shared.list.count [97] BaseData.sevenKbytes.serverName = 1 ∧
      s.main.shared.list.count [97] BaseData.sevenKbytes.serverName +
        ∑ i, ∑ chunk, ((s.shards i).container.reportChunks chunk).count [97]
          BaseData.sevenKbytes.serverName = 2 := by
  have hfinal : ((pipeline .plain ⟨1, 0⟩ fun _ => 2).exec addRecordMerge).map (fun s =>
      (s.main.shared.list.count [97] BaseData.sevenKbytes.serverName,
        net .plain s.recordings [97] BaseData.sevenKbytes.serverName)) = some (1, 2) := rfl
  obtain ⟨s, hs, hfinal⟩ := Machine.exists_run_of_map_exec hfinal
  obtain ⟨hmain, hnet⟩ := Prod.mk.inj hfinal
  exact ⟨s, hs, hmain, (counts_conserved .plain _ ⟨_, hs⟩ _ _).trans hnet⟩

end Pipeline

end Tinypinba
