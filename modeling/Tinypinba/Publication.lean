import Tinypinba.Agreement
import Tinypinba.Conservation

/-! # Reports the chunks know before the main list

`add_new_report` issues its command on the containers first and inserts the report into the main list
last, so a chunk can be given the report, filled and merged in between. `merge_reports` then warns
(`"no report in main reports list"`), skips the report and leaves its counts in the chunk
(`skipped_addWhileMerging`).

`skipped_only_while_adding` says that this is all that can happen: a chunk is only ever ahead of the
main list by the report being added, nothing else is skipped, and a list in `empty_chunks` counts
nothing but what its last merge skipped. A list is *settled* from its merge to the next worker that
takes it; `settled_step` is the step lemma behind the last part. -/

namespace Tinypinba

open CommandLog Transition
open Function (update)

variable {P : Type} {V : ReportClasses P} {n count : ℕ} {chunks : Fin count → ℕ} {period : Timeval}

namespace Shard

/-- The list has been merged and no worker has it: it is in `empty_chunks` or on its way there. -/
def Settled (s : Shard P n) (chunk : Fin n) : Prop :=
  chunk ∈ s.container.emptyChunks ∨ s.merger = .merged chunk ∨ s.merger = .applied chunk

/-- A settled list is not with the worker. -/
theorem Settled.not_mem_worker_held {s : Shard P n} {chunk : Fin n} (h : s.Settled chunk)
    (hs : (shard V n period).Reachable s) : chunk ∉ s.worker.held := by
  intro hheld
  obtain ⟨hempty, -, hmerger⟩ := not_mem_of_mem_worker_held hs hheld
  rcases h with h | h | h
  · exact hempty h
  · exact hmerger (by simp [h, MergerHand.held])
  · exact hmerger (by simp [h, MergerHand.held])

/-- **Nothing but a merge settles a list, and what a settled list counts does not change** while only
additions are pending. -/
theorem settled_step {s s' : Shard P n} (hs : (shard V n period).Reachable s) (hadds : s.OnlyAdds)
    {label : ShardLabel P} (hstep : s.step V period label = some s')
    (hlabel : ∀ main, label ≠ .mergeReports main) {chunk : Fin n} (hsettled : s'.Settled chunk) :
    s.Settled chunk ∧ ∀ type g,
      (s'.container.reportChunks chunk).count type g =
        (s.container.reportChunks chunk).count type g := by
  -- the worker writes to its own list only
  have hother : ∀ {current : Fin n} {list : ReportList P}, s.worker.reports = some current →
      s.Settled chunk →
        (s.container.setChunk current list).reportChunks chunk = s.container.reportChunks chunk := by
    intro current list hcurrent h
    have hne : chunk ≠ current := fun heq =>
      h.not_mem_worker_held hs (heq ▸ Worker.mem_held_of_reports hcurrent)
    exact Function.update_of_ne hne _ _
  cases step_cases hstep with
  | first cur newList rest pc empty reports =>
    refine ⟨hsettled.imp_left fun h => ?_, fun _ _ => rfl⟩
    rw [empty]
    exact List.mem_cons_of_mem _ h
  | take cur newList old rest pc empty reports =>
    refine ⟨hsettled.imp_left fun h => ?_, fun _ _ => rfl⟩
    rw [empty]
    exact List.mem_cons_of_mem _ h
  | record request todo current pc reports check =>
    have hold : s.Settled chunk := hsettled
    exact ⟨hold, fun type g => congrArg (·.count type g) (hother reports hold)⟩
  | delRequest request current reports =>
    have hold : s.Settled chunk := hsettled
    exact ⟨hold, fun type g => congrArg (·.count type g) (hother reports hold)⟩
  | fetch reports rest merger full =>
    -- a list the merger has just taken is not merged yet
    refine ⟨hsettled.imp_right fun h => ?_, fun _ _ => rfl⟩
    rcases h with h | h <;> cases h
  | merge main => exact absurd rfl (hlabel main)
  | apply reports merger =>
    constructor
    · rcases hsettled with h | h | h
      · exact .inl h
      · cases h
      · obtain rfl := MergerHand.applied.inj h
        exact .inr (.inl merger)
    · intro type g
      by_cases hchunk : chunk = reports
      · subst hchunk
        simp only [ReportContainer.reportChunks_applyCommands, Function.update_self]
        exact ReportList.count_foldl_applyCmd V (hadds chunk) _ type g
      · exact congrArg (·.count type g) (s.container.applyCommands_of_ne V hchunk).1
  | publish reports merger =>
    refine ⟨?_, fun _ _ => rfl⟩
    rcases hsettled with h | h | h
    · rcases List.mem_append.mp h with h | h
      · exact .inl h
      · obtain rfl := List.mem_singleton.mp h
        exact .inr (.inr merger)
    · cases h
    · cases h
  | _ => exact ⟨hsettled, fun _ _ => rfl⟩

end Shard

namespace Pipeline

variable {s s' : Pipeline P chunks}

/-! ## Which types a chunk can have -/

/-- The report under `type` is being added, and the container has been told. -/
def Adding (s : Pipeline P chunks) (i : Fin count) (type : StdString) : Prop :=
  ∃ producer next, s.console = .adding producer type next ∧ i.val < next

/-- **A chunk is ahead of the main list by the report being added at most.** -/
theorem published_or_adding (hcreates : ∀ p, V.creates p = true)
    (h : (pipeline V period chunks).Reachable s) {i : Fin count} {chunk : Fin (chunks i)}
    {type : StdString} (htype : ((s.shards i).kinds chunk type).isSome) :
    (s.main.shared.list.kinds type).isSome ∨ s.Adding i type := by
  obtain ⟨kind, hkind⟩ := Option.isSome_iff_exists.mp htype
  have hgoal : s.goal V i type = some kind := goal_eq_of_kinds hcreates h hkind
  cases hconsole : s.console with
  | idle =>
    rw [goal_of_idle hconsole] at hgoal
    exact .inl (by rw [hgoal]; rfl)
  | adding producer t next =>
    rw [goal_of_adding hconsole] at hgoal
    split at hgoal
    · rename_i hi
      have hsome : (ReportCmd.applyTo V s.main.shared.list.kinds ⟨some producer, t⟩ type).isSome := by
        rw [hgoal]
        rfl
      rw [ReportCmd.applyTo, ReportCmd.command_of_some, Registry.isSome_apply_add] at hsome
      exact hsome.imp_right fun heq => ⟨producer, next, by rw [heq, hconsole], hi⟩
    · exact .inl (by rw [hgoal]; rfl)

/-! ## What settled lists count -/

/-- Settled lists count nothing but what their last merge skipped. -/
def SettledZero (s : Pipeline P chunks) : Prop :=
  ∀ i chunk, (s.shards i).Settled chunk → ∀ type g, type ∉ s.skippedBy i chunk →
    ((s.shards i).container.reportChunks chunk).count type g = 0

/-- A step of one shard other than a merge keeps this. -/
theorem SettledZero.setShard (h : s.SettledZero) (hs : (pipeline V period chunks).Reachable s)
    {j : Fin count} {label : ShardLabel P} {next : Shard P (chunks j)}
    (hstep : (s.shards j).step V period label = some next)
    (hlabel : ∀ main, label ≠ .mergeReports main) (hshards : s'.shards = (s.setShard j next).shards)
    (hskipped : s'.skippedBy = s.skippedBy) : s'.SettledZero := by
  intro i chunk
  rw [hshards, hskipped]
  by_cases hij : i = j
  · subst hij
    rw [shards_setShard_self]
    intro hsettled type g hskip
    obtain ⟨hold, hcount⟩ := Shard.settled_step (reachable_shard hs i) (onlyAdds V period hs i) hstep
      hlabel hsettled
    rw [hcount]
    exact h i chunk hold type g hskip
  · rw [shards_setShard_of_ne s next hij]
    exact h i chunk

/-- A merge settles the list it has merged, which is left with what was skipped, and no other. -/
theorem SettledZero.merge (h : s.SettledZero) (hs : (pipeline V period chunks).Reachable s)
    {j : Fin count} {reports : Fin (chunks j)} {merging : ReportList.Merging P}
    (hmerger : (s.shards j).merger = .took reports)
    (heq : ((s.shards j).container.reportChunks reports).mergeReports V s.main.shared.list =
      some merging)
    (hshards : s'.shards = (s.setShard j ((s.shards j).mergedAs reports merging.list)).shards)
    (hskipped : s'.skippedBy =
      update s.skippedBy j (update (s.skippedBy j) reports merging.skipped)) : s'.SettledZero := by
  have hmerged := ReportList.Merged.of_eq_some V (wellFormed_main hs).nonNull heq
  intro i chunk
  rw [hshards, hskipped]
  by_cases hij : i = j
  · subst hij
    rw [shards_setShard_self, Function.update_self]
    by_cases hchunk : chunk = reports
    · subst hchunk
      rw [Function.update_self]
      intro _ type g hskip
      have hlist : ((s.shards i).mergedAs chunk merging.list).container.reportChunks chunk =
          merging.list := Function.update_self _ _ _
      rw [hlist]
      exact hmerged.count_list_eq_zero hskip g
    · rw [Function.update_of_ne hchunk]
      intro hsettled type g hskip
      have hold : (s.shards i).Settled chunk := by
        rcases hsettled with hmem | hhand | hhand
        · exact .inl hmem
        · exact absurd (MergerHand.merged.inj hhand).symm hchunk
        · cases hhand
      have hsame : ((s.shards i).mergedAs reports merging.list).container.reportChunks chunk =
          (s.shards i).container.reportChunks chunk := Function.update_of_ne hchunk _ _
      rw [hsame]
      exact h i chunk hold type g hskip
  · rw [shards_setShard_of_ne s _ hij, Function.update_of_ne hij]
    exact h i chunk

/-- Settled lists count nothing but what their last merge skipped, in every reachable state. -/
theorem settledZero (h : (pipeline V period chunks).Reachable s) : s.SettledZero := by
  refine h.invariant (P := SettledZero) (fun i chunk _ type g _ => ReportList.count_new type g) ?_
  intro s label s' hs ih hstep
  cases step_cases hstep with
  | rewind | begin | refuse | insert | reader => exact ih
  | worker j label next eq => exact ih.setShard hs eq (fun _ => by simp) rfl rfl
  | fetch j next mergeLoop eq => exact ih.setShard hs eq (fun _ => by simp) rfl rfl
  | apply j next eq => exact ih.setShard hs eq (fun _ => by simp) rfl rfl
  | publish j next mergeLoop eq => exact ih.setShard hs eq (fun _ => by simp) rfl rfl
  | enqueue producer type k hk next adding eq => exact ih.setShard hs eq (fun _ => by simp) rfl rfl
  | merge j reports merging merger eq => exact ih.merge hs merger eq rfl rfl

/-! ## What can be skipped -/

/-- A merge skips at most the report being added. -/
theorem adding_of_mem_skipped (hcreates : ∀ p, V.creates p = true)
    (h : (pipeline V period chunks).Reachable s) {i : Fin count} {reports : Fin (chunks i)}
    {merging : ReportList.Merging P}
    (hmerged : ((s.shards i).container.reportChunks reports).Merged s.main.shared.list merging)
    {type : StdString} (htype : type ∈ merging.skipped) : s.Adding i type := by
  obtain ⟨hreport, habsent⟩ := (hmerged.skipped type).mp htype
  have hkind : ((s.shards i).kinds reports type).isSome :=
    ReportList.isSome_kinds_of_getReport hreport
  refine (published_or_adding hcreates h hkind).resolve_left ?_
  rw [habsent]
  exact Bool.false_ne_true

/-- A run in which the merger rests while an addition is in progress. -/
def MergesBetweenAdditions (V : ReportClasses P) (period : Timeval) (chunks : Fin count → ℕ)
    (run : List (PipelineLabel P count)) : Prop :=
  (pipeline V period chunks).EveryStep (fun s label => label = .merger → s.console = .idle) run

/-- In such a run nothing is ever skipped. -/
theorem skippedBy_eq_nil (hcreates : ∀ p, V.creates p = true) {run : List (PipelineLabel P count)}
    (h : (pipeline V period chunks).Run run s)
    (hbetween : MergesBetweenAdditions V period chunks run) :
    ∀ i chunk, s.skippedBy i chunk = [] := by
  refine h.invariant (P := fun run s =>
    MergesBetweenAdditions V period chunks run →
      ∀ i chunk, s.skippedBy i chunk = []) (fun _ _ _ => rfl) ?_ hbetween
  intro run s label s' hrun ih hstep hbetween
  obtain ⟨hbefore, hlast⟩ := (Machine.everyStep_concat hrun).mp hbetween
  cases step_cases hstep with
  | merge j reports merging merger eq =>
    have hmerged := ReportList.Merged.of_eq_some V (wellFormed_main ⟨run, hrun⟩).nonNull eq
    -- a skipped type would be one being added, and nothing is
    have hskipped : merging.skipped = [] := by
      refine List.eq_nil_iff_forall_not_mem.mpr fun type htype => ?_
      obtain ⟨producer, next, hadding, -⟩ := adding_of_mem_skipped hcreates ⟨run, hrun⟩ hmerged htype
      rw [hlast rfl] at hadding
      cases hadding
    intro i chunk
    have hnil : update s.skippedBy j (update (s.skippedBy j) reports merging.skipped) =
        s.skippedBy := by
      rw [hskipped, ← ih hbefore j reports, Function.update_eq_self, Function.update_eq_self]
    show update s.skippedBy j (update (s.skippedBy j) reports merging.skipped) i chunk = []
    rw [hnil]
    exact ih hbefore i chunk
  | _ => exact ih hbefore

/-- **When the merger rests during additions, every list a worker is given counts nothing.** -/
theorem count_emptyChunks_eq_zero (hcreates : ∀ p, V.creates p = true)
    {run : List (PipelineLabel P count)} (h : (pipeline V period chunks).Run run s)
    (hbetween : MergesBetweenAdditions V period chunks run)
    {i : Fin count} {chunk : Fin (chunks i)} (hchunk : chunk ∈ (s.shards i).container.emptyChunks)
    (type : StdString) (g : CString) :
    ((s.shards i).container.reportChunks chunk).count type g = 0 := by
  refine settledZero ⟨run, h⟩ i chunk (.inl hchunk) type g ?_
  rw [skippedBy_eq_nil hcreates h hbetween]
  exact List.not_mem_nil

/-- **Only the report being added can be skipped.** In every reachable state: a type of a chunk is in
the main list or is the one being added; the merge of the list the merger holds succeeds and skips at
most that one; and a list in `empty_chunks` counts nothing under types its last merge did not skip.

That the merge succeeds rests on `create_new_data`, which is assumed to return a group that counts
nothing, and not `NULL` (`ReportClasses.createNewData_fresh`). -/
theorem skipped_only_while_adding (hcreates : ∀ p, V.creates p = true)
    (h : (pipeline V period chunks).Reachable s) :
    (∀ i chunk type, type ∈ ((s.shards i).container.reportChunks chunk).reports →
      type ∈ s.main.shared.list.reports ∨ s.Adding i type) ∧
    (∀ i reports, (s.shards i).merger = .took reports → ∃ merging,
      ((s.shards i).container.reportChunks reports).mergeReports V s.main.shared.list =
        some merging ∧ ∀ type ∈ merging.skipped, s.Adding i type) ∧
    ∀ i, ∀ chunk ∈ (s.shards i).container.emptyChunks, ∀ type g, type ∉ s.skippedBy i chunk →
      ((s.shards i).container.reportChunks chunk).count type g = 0 := by
  refine ⟨?_, ?_, fun i chunk hchunk => settledZero h i chunk (.inl hchunk)⟩
  · intro i chunk type htype
    rw [ReportList.mem_reports_iff] at htype ⊢
    exact published_or_adding hcreates h htype
  · intro i reports _
    obtain ⟨merging, hmerging, hmerged⟩ :=
      ((s.shards i).container.reportChunks reports).mergeReports_merged V s.main.shared.list
        (wellFormed_main h).nonNull
    exact ⟨merging, hmerging, fun type htype => adding_of_mem_skipped hcreates h hmerged htype⟩

/-- The console thread has issued the addition of report `"a"` on the container and not yet inserted it
into the main list, while the lists go round twice: a request is recorded under `"a"` and the list with
it merged. -/
def addWhileMerging : List (PipelineLabel Unit 1) :=
  [.addNewReport () [97], .console] ++ firstRotations ++ mergeRound ++ [.merger] ++
    rotateAndRecord 5 BaseData.sevenKbytes ++ mergeRound ++ [.merger] ++
    onlyWorker [.clock ⟨7, 0⟩, .getEmtyList, .returnFullList] ++ mergeRound

/-- Nothing is left in the returned list but under `"a"`. -/
theorem skipped_only_while_adding_addWhileMerging :
    ∃ s, (pipeline .plain ⟨1, 0⟩ fun _ => 2).Run addWhileMerging s ∧
      ∀ type g, type ≠ [97] → ((s.shards 0).container.reportChunks 0).count type g = 0 := by
  have hfinal : ((pipeline .plain ⟨1, 0⟩ fun _ => 2).exec addWhileMerging).map (fun s =>
      ((s.shards 0).container.emptyChunks, s.skippedBy 0 0)) = some ([0], [[97]]) := rfl
  obtain ⟨s, hs, hfinal⟩ := Machine.exists_run_of_map_exec hfinal
  obtain ⟨hempty, hskipped⟩ := Prod.mk.inj hfinal
  refine ⟨s, hs, fun type g htype => ?_⟩
  refine (skipped_only_while_adding (fun _ => rfl) ⟨_, hs⟩).2.2 0 0 (by simp [hempty]) type g ?_
  simpa [hskipped] using htype

/-- **A report that only the chunks know is skipped**: the list is back in `empty_chunks` with the count
of the request, under a type that the main list does not have. -/
theorem skipped_addWhileMerging :
    ∃ s, (pipeline .plain ⟨1, 0⟩ fun _ => 2).Run addWhileMerging s ∧
      [97] ∈ ((s.shards 0).container.reportChunks 0).reports ∧
      [97] ∉ s.main.shared.list.reports ∧ s.skippedBy 0 0 = [[97]] ∧
      0 ∈ (s.shards 0).container.emptyChunks ∧
      ((s.shards 0).container.reportChunks 0).count [97] BaseData.sevenKbytes.serverName = 1 := by
  have hfinal : ((pipeline .plain ⟨1, 0⟩ fun _ => 2).exec addWhileMerging).map (fun s =>
      (decide ([97] ∈ ((s.shards 0).container.reportChunks 0).reports),
        decide ([97] ∈ s.main.shared.list.reports), s.skippedBy 0 0,
        (s.shards 0).container.emptyChunks,
        ((s.shards 0).container.reportChunks 0).count [97] BaseData.sevenKbytes.serverName)) =
      some (true, false, [[97]], [0], 1) := rfl
  obtain ⟨s, hs, hfinal⟩ := Machine.exists_run_of_map_exec hfinal
  simp only [Prod.mk.injEq, decide_eq_true_eq, decide_eq_false_iff_not] at hfinal
  obtain ⟨hchunk, hmain, hskipped, hempty, hcount⟩ := hfinal
  exact ⟨s, hs, hchunk, hmain, hskipped, by simp [hempty], hcount⟩

end Pipeline

end Tinypinba
