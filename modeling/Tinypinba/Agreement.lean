import Tinypinba.Pipeline

/-! # The main list and the chunks agree on the types

`add_new_report` updates the main list at once and every chunk at a time of its own. In the terms of the
command-log library all chunks of a container are converging: replaying what is pending brings each of
them to one and the same registry. `goal` is that registry, the main list's own with the addition in
progress put in front on the containers that already know of it, and `allConverging` is the invariant.

`chunks_agree_with_main` is what follows for the program, under the assumption that `create_report` never
returns `NULL`. -/

namespace Tinypinba

open CommandLog Transition
open Function (update)

variable {P : Type} {V : ReportClasses P} {n count : ℕ} {chunks : Fin count → ℕ} {period : Timeval}

namespace Shard

/-- The types of the chunks. -/
def kinds (s : Shard P n) (chunk : Fin n) : Registry StdString (Option P) :=
  (s.container.reportChunks chunk).kinds

end Shard

/-- The command a step of a shard issues. -/
def ShardLabel.issued : ShardLabel P → Option (ReportCmd P)
  | .addReport producer type => some ⟨some producer, type⟩
  | .delReport type => some ⟨none, type⟩
  | _ => none

namespace Shard

/-- **A step of a shard keeps its chunks converging**; the registry they converge to changes by the
command the step issues. -/
theorem converging_step {goal : Registry StdString (Option P)} {s s' : Shard P n}
    {label : ShardLabel P} (h : Converging (ReportCmd.applyTo V) goal s.container.cmdMap s.kinds)
    (hstep : s.step V period label = some s') :
    Converging (ReportCmd.applyTo V) (label.issued.elim goal (ReportCmd.applyTo V goal))
      s'.container.cmdMap s'.kinds := by
  -- recording and merging change what a list counts, not its types
  have hset : ∀ {chunk : Fin n} {list : ReportList P},
      list.kinds = (s.container.reportChunks chunk).kinds →
        Converging (ReportCmd.applyTo V) goal s.container.cmdMap
          fun i => ((s.container.setChunk chunk list).reportChunks i).kinds := by
    intro chunk list hlist
    have hkinds : (fun i => ((s.container.setChunk chunk list).reportChunks i).kinds) = s.kinds :=
      funext (kinds_setChunk s.container chunk list hlist)
    rwa [hkinds]
  cases step_cases hstep with
  | record request todo chunk => exact hset (ReportList.kinds_recordAll V _ _ _)
  | delRequest request chunk => exact hset (ReportList.kinds_recordAll V _ _ _)
  | merge main reports merging merger eq => exact hset (ReportList.kinds_list_mergeReports V eq)
  | apply reports merger =>
    -- the chunk catches up
    have hdrain := h.drain reports
    rw [← ReportContainer.cmdMap_applyCommands V] at hdrain
    have hkinds := kinds_applyCommands V s.container reports
    show Converging _ goal _ fun i => ((s.container.applyCommands V reports).reportChunks i).kinds
    rw [hkinds]
    exact hdrain
  | addReport producer type =>
    -- one more command for every chunk
    have hissue := h.issue ⟨some producer, type⟩
    rw [← ReportContainer.cmdMap_addReport] at hissue
    exact hissue
  | delReport type =>
    have hissue := h.issue ⟨none, type⟩
    rw [← ReportContainer.cmdMap_addReport] at hissue
    exact hissue
  | _ => exact h

end Shard

namespace Pipeline

variable {s s' : Pipeline P chunks}

variable (V) in
/-- The registry the chunks of a container head for: that of the main list, with the addition in
progress if its command has been issued on the container. -/
def goal (s : Pipeline P chunks) (i : Fin count) : Registry StdString (Option P) :=
  match s.console with
  | .idle => s.main.shared.list.kinds
  | .adding producer type next =>
    if i.val < next then ReportCmd.applyTo V s.main.shared.list.kinds ⟨some producer, type⟩
    else s.main.shared.list.kinds

/-- Outside `add_new_report` it is the registry of the main list. -/
theorem goal_of_idle (h : s.console = .idle) (i : Fin count) :
    s.goal V i = s.main.shared.list.kinds := by
  rw [goal, h]

/-- While a report is being added, the containers told already are ahead of the main list by it. -/
theorem goal_of_adding {producer : P} {type : StdString} {next : ℕ}
    (h : s.console = .adding producer type next) (i : Fin count) :
    s.goal V i =
      if i.val < next then ReportCmd.applyTo V s.main.shared.list.kinds ⟨some producer, type⟩
      else s.main.shared.list.kinds := by
  rw [goal, h]

/-- It is determined by the console and the types of the main list. -/
theorem goal_congr (hconsole : s'.console = s.console)
    (hmain : s'.main.shared.list.kinds = s.main.shared.list.kinds) (i : Fin count) :
    s'.goal V i = s.goal V i := by
  rw [goal, goal, hconsole, hmain]

/-- All chunks of all containers are converging to their container's goal. -/
def AllConverging (V : ReportClasses P) (s : Pipeline P chunks) : Prop :=
  ∀ i, Converging (ReportCmd.applyTo V) (s.goal V i) (s.shards i).container.cmdMap (s.shards i).kinds

/-- A step of one shard that issues nothing, with the console and the main list's types as they were. -/
theorem AllConverging.setShard (h : s.AllConverging V) {j : Fin count} {label : ShardLabel P}
    {next : Shard P (chunks j)} (hstep : (s.shards j).step V period label = some next)
    (hissued : label.issued = none) (hshards : s'.shards = (s.setShard j next).shards)
    (hconsole : s'.console = s.console)
    (hmain : s'.main.shared.list.kinds = s.main.shared.list.kinds) : s'.AllConverging V := by
  intro i
  rw [goal_congr hconsole hmain, hshards]
  by_cases hij : i = j
  · subst hij
    have hnext := Shard.converging_step (h i) hstep
    rw [hissued] at hnext
    rw [shards_setShard_self]
    exact hnext
  · rw [shards_setShard_of_ne s next hij]
    exact h i

/-- **Every step keeps all chunks converging.** -/
theorem AllConverging.step (hcreates : ∀ p, V.creates p = true) (hwf : s.main.WellFormed)
    (h : s.AllConverging V) {label : PipelineLabel P count} (hstep : s.step V period label = some s') :
    s'.AllConverging V := by
  cases step_cases hstep with
  | rewind => exact h
  | worker j label next eq => exact h.setShard eq rfl rfl rfl rfl
  | fetch j next mergeLoop eq => exact h.setShard eq rfl rfl rfl rfl
  | apply j next eq => exact h.setShard eq rfl rfl rfl rfl
  | publish j next mergeLoop eq => exact h.setShard eq rfl rfl rfl rfl
  | merge j reports merging merger eq =>
    have hmerge : (s.shards j).step V period (.mergeReports s.main.shared.list) =
        some ((s.shards j).mergedAs reports merging.list) := by
      simp only [Shard.step, merger, eq, Option.map_some, Shard.mergedAs]
    exact h.setShard hmerge rfl rfl rfl (ReportList.Merged.of_eq_some V hwf.nonNull eq).kinds_main
  | begin producer type idle =>
    -- no container knows of the addition yet
    intro i
    have hgoal := goal_of_adding (V := V) (s := { s with console := .adding producer type 0 }) rfl i
    rw [if_neg (Nat.not_lt_zero _)] at hgoal
    rw [hgoal, ← goal_of_idle idle i]
    exact h i
  | enqueue producer type k hk next adding eq =>
    intro i
    have hgoal := goal_of_adding (V := V)
      (s := { s.setShard ⟨k, hk⟩ next with console := .adding producer type (k + 1) }) rfl i
    rw [hgoal, main_setShard]
    -- this container learns of the addition now, the ones before it did and the rest will
    by_cases hi : i = ⟨k, hk⟩
    · subst hi
      have hold := goal_of_adding (V := V) adding ⟨k, hk⟩
      have hnext := Shard.converging_step (h ⟨k, hk⟩) eq
      rw [hold, if_neg (lt_irrefl k)] at hnext
      rw [if_pos (Nat.lt_succ_self k), shards_setShard_self]
      exact hnext
    · have hne : i.val ≠ k := fun heq => hi (Fin.ext heq)
      have hlt : i.val < k + 1 ↔ i.val < k := by omega
      simp only [hlt]
      rw [← goal_of_adding adding i, shards_setShard_of_ne s next hi]
      exact h i
  | refuse producer type k hk adding null => simp [createReport, hcreates] at null
  | insert producer type k report main hk adding created eq =>
    -- every container knows of the addition, and now the main list has made it too
    intro i
    have hold := goal_of_adding (V := V) adding i
    rw [if_pos (i.isLt.trans_le hk)] at hold
    cases MainList.step_cases eq with
    | addReport report type free =>
      have hmain := s.main.shared.list.kinds_addReport (some report) type
      have hgoal : ReportCmd.applyTo V s.main.shared.list.kinds ⟨some producer, type⟩ =
          (s.main.shared.list.addReport (some report) type).1.kinds := by
        rw [hmain, ReportCmd.applyTo, ReportCmd.command_of_some, created]
      rw [goal_of_idle rfl, ← hgoal, ← hold]
      exact h i
  | reader call main eq =>
    have hkinds : main.shared.list.kinds = s.main.shared.list.kinds := by
      rw [MainList.list_of_reader eq]
    intro i
    have hgoal : goal V { s with main := main } i = s.goal V i := by
      refine goal_congr ?_ hkinds i
      rfl
    rw [hgoal]
    exact h i

/-- **All chunks are converging in every reachable state.** -/
theorem allConverging (hcreates : ∀ p, V.creates p = true)
    (h : (pipeline V period chunks).Reachable s) : s.AllConverging V := by
  refine h.invariant (P := AllConverging V) (fun i => ?_) ?_
  · have hkinds : ((Pipeline.new P chunks).shards i).kinds = fun _ => Registry.empty :=
      funext fun _ => ReportList.kinds_new
    show Converging _ (goal V (Pipeline.new P chunks) i) _ ((Pipeline.new P chunks).shards i).kinds
    rw [hkinds, goal_of_idle rfl]
    show Converging _ ReportList.new.kinds _ _
    rw [ReportList.kinds_new]
    exact .nil _
  · intro s label s' hs ih hstep
    exact ih.step hcreates (wellFormed_main hs) hstep

/-! ## What follows for the program -/

/-- The pending commands of a chunk as additions of a producer under a type. -/
def pendingAdds (s : Pipeline P chunks) (i : Fin count) (chunk : Fin (chunks i)) :
    List (Command StdString (Option P)) :=
  ((s.shards i).container.cmdMap chunk).map fun cmd => .add cmd.type cmd.producer

/-- Applying the pending commands replays these additions, as long as they are additions and
`create_report` does not return `NULL`. -/
theorem foldl_applyTo_eq_replay (hcreates : ∀ p, V.creates p = true)
    {i : Fin count} (hadds : (s.shards i).OnlyAdds) (chunk : Fin (chunks i))
    (types : Registry StdString (Option P)) :
    ((s.shards i).container.cmdMap chunk).foldl (ReportCmd.applyTo V) types =
      types.replay (s.pendingAdds i chunk) := by
  have hcommands : ((s.shards i).container.cmdMap chunk).map (·.command V) =
      s.pendingAdds i chunk := by
    refine List.map_congr_left fun cmd hcmd => ?_
    obtain ⟨producer, hproducer⟩ := Option.isSome_iff_exists.mp (hadds chunk cmd hcmd)
    rw [ReportCmd.command, hproducer]
    simp only [createReport, hcreates, if_true, Option.map_some]
  rw [← hcommands, Registry.replay, List.foldl_map]
  rfl

/-- **What a chunk holds it will hold when it has caught up**, with the same class. -/
theorem goal_eq_of_kinds (hcreates : ∀ p, V.creates p = true)
    (h : (pipeline V period chunks).Reachable s) {i : Fin count} {chunk : Fin (chunks i)}
    {type : StdString} {kind : Option P} (hkind : (s.shards i).kinds chunk type = some kind) :
    s.goal V i type = some kind := by
  have hreplay := foldl_applyTo_eq_replay hcreates (onlyAdds V period h i) chunk
    ((s.shards i).kinds chunk)
  have hgoal := (allConverging hcreates h i chunk).symm.trans hreplay
  rw [hgoal]
  refine Registry.replay_add_eq_of_eq_some (fun c hc => ?_) hkind
  obtain ⟨cmd, -, rfl⟩ := List.mem_map.mp hc
  exact ⟨cmd.type, cmd.producer, rfl⟩

/-- **The main list and the chunks agree on the reports.** In every reachable state outside of
`add_new_report`, the pending commands of a chunk are additions, and replaying them over its types gives
those of the main list, with the same producers. And in every reachable state a type that both have is
of the same class in both. -/
theorem chunks_agree_with_main (hcreates : ∀ p, V.creates p = true)
    (h : (pipeline V period chunks).Reachable s) :
    (s.console = .idle → ∀ i chunk,
      (∀ cmd ∈ (s.shards i).container.cmdMap chunk, cmd.producer.isSome) ∧
      Registry.replay ((s.shards i).container.reportChunks chunk).kinds (s.pendingAdds i chunk) =
        s.main.shared.list.kinds) ∧
    ∀ i chunk type kind kind', ((s.shards i).container.reportChunks chunk).kinds type = some kind →
      s.main.shared.list.kinds type = some kind' → kind = kind' := by
  constructor
  · intro hidle i chunk
    have hadds := onlyAdds V period h i
    refine ⟨hadds chunk, ?_⟩
    rw [← foldl_applyTo_eq_replay hcreates hadds, ← goal_of_idle (V := V) hidle i]
    exact allConverging hcreates h i chunk
  · intro i chunk type kind kind' hchunk hmain
    have hgoal : s.goal V i type = some kind := goal_eq_of_kinds hcreates h hchunk
    have hkeep : s.goal V i type = some kind' := by
      cases hconsole : s.console with
      | idle => rw [goal_of_idle hconsole, hmain]
      | adding producer t next =>
        rw [goal_of_adding hconsole]
        split
        · exact Registry.apply_add_eq_of_eq_some hmain _ _
        · exact hmain
    exact Option.some.inj (hgoal.symm.trans hkeep)

/-- Report `"a"` is added by one producer, chunk `0` passes through `return_empty_list`, and another
producer adds `"a"` again. -/
def addTwice : List (PipelineLabel Bool 1) :=
  [.addNewReport true [97], .console, .console] ++ firstRotations ++ mergeRound ++
    [.addNewReport false [97], .console, .console]

/-- Both chunks end up with the first producer's report, though they have different commands pending. -/
theorem chunks_agree_with_main_addTwice :
    ∃ s, (pipeline .plain ⟨1, 0⟩ fun _ => 2).Run addTwice s ∧
      s.pendingAdds 0 0 = [.add [97] (some false)] ∧
      s.pendingAdds 0 1 = [.add [97] (some true), .add [97] (some false)] ∧
      ∀ chunk, Registry.replay ((s.shards 0).container.reportChunks chunk).kinds
        (s.pendingAdds 0 chunk) = s.main.shared.list.kinds := by
  have hfinal : ((pipeline .plain ⟨1, 0⟩ fun _ => 2).exec addTwice).map (fun s =>
      (s.console, s.pendingAdds 0 0, s.pendingAdds 0 1)) =
        some (.idle, [.add [97] (some false)], [.add [97] (some true), .add [97] (some false)]) := rfl
  obtain ⟨s, hs, hfinal⟩ := Machine.exists_run_of_map_exec hfinal
  rw [Prod.mk.injEq, Prod.mk.injEq] at hfinal
  obtain ⟨hidle, hzero, hone⟩ := hfinal
  have hagree := (chunks_agree_with_main (fun _ => rfl) ⟨_, hs⟩).1 hidle 0
  exact ⟨s, hs, hzero, hone, fun chunk => (hagree chunk).2⟩

end Pipeline

end Tinypinba
