import Tinypinba.ReportContainer
import Tinypinba.Foundation.Machine

/-! # Delivery of report commands

The most liberal use of one `ReportContainer`: any thread may make any call with any argument at any
time, `return_empty_list` being its two critical sections, and may change the contents of a list the
way recording and merging do. `calls` is the machine of these calls; `delivered` shows that it runs
the command log of the library — the queues of `cmd_map` are the pending parts, the types of the
chunks the replayed values — and `commands_delivered_in_order` is what that means for the program. -/

namespace Tinypinba

open CommandLog Transition
open Function (update)

variable {P : Type} (V : ReportClasses P) {n : ℕ}

/-- A call on a container, or on one of its lists. -/
inductive ContainerCall (P : Type) (n : ℕ)
  /-- `add_report(producer, type)` -/
  | addReport (producer : P) (type : StdString)
  /-- `del_report(type)` -/
  | delReport (type : StdString)
  /-- `get_emty_list()` -/
  | getEmtyList
  /-- `get_full_list()` -/
  | getFullList
  /-- `return_full_list(reports)` -/
  | returnFullList (reports : Option (Fin n))
  /-- `return_empty_list(reports)` up to the unlocking of `cmd_lock` -/
  | applyCommands (reports : Option (Fin n))
  /-- the rest of a `return_empty_list` call, on the list it was called with -/
  | pushEmpty (reports : Fin n)
  /-- `add_request_to_reports(request)` on a chunk -/
  | addRequest (chunk : Fin n) (request : PinbaRequest)
  /-- `del_request_from_reports(request)` on a chunk -/
  | delRequest (chunk : Fin n) (request : PinbaRequest)
  /-- `merge_reports(main)` of a chunk -/
  | mergeReports (chunk : Fin n) (main : ReportList P)

/-- A container in use. -/
structure ContainerUse (P : Type) (n : ℕ) where
  /-- The container. -/
  container : ReportContainer P n
  /-- The lists between the two halves of a `return_empty_list` call. -/
  publishing : List (Fin n)
  /-- History: the commands each chunk was given, in order. -/
  applied : Fin n → List (ReportCmd P)

namespace ContainerUse

/-- A container nobody has called. -/
def new (P : Type) (n : ℕ) : ContainerUse P n := ⟨.new P n, [], fun _ => []⟩

/-- Make a call. The second half of `return_empty_list` has to wait for the first, and a merge must
not meet a `NULL`. -/
def call (s : ContainerUse P n) : ContainerCall P n → Option (ContainerUse P n)
  | .addReport producer type =>
    some { s with container := s.container.addReport (some producer) type }
  | .delReport type => some { s with container := s.container.delReport type }
  | .getEmtyList => some { s with container := s.container.getEmtyList.2 }
  | .getFullList => some { s with container := s.container.getFullList.2 }
  | .returnFullList reports => some { s with container := s.container.returnFullList reports }
  | .applyCommands none => some s
  | .applyCommands (some reports) =>
    some
      { container := s.container.applyCommands V reports
        publishing := s.publishing ++ [reports]
        applied := update s.applied reports (s.applied reports ++ s.container.cmdMap reports) }
  | .pushEmpty reports =>
    if reports ∈ s.publishing then
      some { s with
        container := s.container.pushEmpty reports
        publishing := s.publishing.erase reports }
    else none
  | .addRequest chunk request =>
    some { s with
      container := s.container.setChunk chunk
        ((s.container.reportChunks chunk).addRequestToReports V request) }
  | .delRequest chunk request =>
    some { s with
      container := s.container.setChunk chunk
        ((s.container.reportChunks chunk).delRequestFromReports V request) }
  | .mergeReports chunk main =>
    ((s.container.reportChunks chunk).mergeReports V main).map fun merging =>
      { s with container := s.container.setChunk chunk merging.list }

end ContainerUse

/-- The machine of the calls on a container. -/
def calls (n : ℕ) : Machine (ContainerUse P n) (ContainerCall P n) :=
  ⟨.new P n, ContainerUse.call V⟩

/-- The command a call issues. -/
def ContainerCall.issued : ContainerCall P n → Option (ReportCmd P)
  | .addReport producer type => some ⟨some producer, type⟩
  | .delReport type => some ⟨none, type⟩
  | _ => none

/-- Whether a call is a pass of the given chunk through `return_empty_list`. -/
def ContainerCall.passesThrough (chunk : Fin n) : ContainerCall P n → Bool
  | .applyCommands (some reports) => reports == chunk
  | _ => false

/-! ## What a call does to commands and types -/

/-- The types of the chunks, as registries. -/
def ContainerUse.kinds (s : ContainerUse P n) (chunk : Fin n) : Registry StdString (Option P) :=
  (s.container.reportChunks chunk).kinds

/-- The effect of a report command on the types of a list. -/
def ReportCmd.applyTo (types : Registry StdString (Option P)) (cmd : ReportCmd P) :
    Registry StdString (Option P) :=
  types.apply (cmd.command V)

/-- The three effects a call can have on the command queues and the types of the chunks. -/
inductive CallCase (s s' : ContainerUse P n) (call : ContainerCall P n) : Prop
  /-- A command is issued: it is appended to every queue. -/
  | issue (cmd : ReportCmd P) (issued : call.issued = some cmd)
      (passes : ∀ chunk, call.passesThrough chunk = false) (applied : s'.applied = s.applied)
      (cmdMap : s'.container.cmdMap = fun i => s.container.cmdMap i ++ [cmd])
      (kinds : s'.kinds = s.kinds)
  /-- A chunk passes through `return_empty_list`: it is given its whole queue. -/
  | pass (reports : Fin n) (eq : call = .applyCommands (some reports))
      (applied : s'.applied =
        update s.applied reports (s.applied reports ++ s.container.cmdMap reports))
      (cmdMap : s'.container.cmdMap = update s.container.cmdMap reports [])
      (kinds : s'.kinds = update s.kinds reports
        ((s.container.cmdMap reports).foldl (ReportCmd.applyTo V) (s.kinds reports)))
  /-- Anything else changes neither. -/
  | other (issued : call.issued = none) (passes : ∀ chunk, call.passesThrough chunk = false)
      (applied : s'.applied = s.applied) (cmdMap : s'.container.cmdMap = s.container.cmdMap)
      (kinds : s'.kinds = s.kinds)

/-- Replacing the contents of a chunk by contents with the same types changes no types. -/
theorem kinds_setChunk (container : ReportContainer P n) (chunk : Fin n) (list : ReportList P)
    (h : list.kinds = (container.reportChunks chunk).kinds) (i : Fin n) :
    ((container.setChunk chunk list).reportChunks i).kinds = (container.reportChunks i).kinds := by
  by_cases hi : i = chunk
  · subst hi
    simpa [ReportContainer.setChunk] using h
  · simp [ReportContainer.setChunk, hi]

/-- Applying the pending commands to a chunk replays them on its types. -/
theorem kinds_applyCommands (container : ReportContainer P n) (reports : Fin n) :
    (fun i => ((container.applyCommands V reports).reportChunks i).kinds) =
      update (fun i => (container.reportChunks i).kinds) reports
        ((container.cmdMap reports).foldl (ReportCmd.applyTo V)
          (container.reportChunks reports).kinds) := by
  funext i
  by_cases hi : i = reports
  · subst hi
    rw [ReportContainer.reportChunks_applyCommands, Function.update_self, Function.update_self,
      ReportList.kinds_foldl_applyCmd, Registry.replay, List.foldl_map]
    rfl
  · simp [hi]

/-- Every call has one of the three effects. -/
theorem call_cases {s s' : ContainerUse P n} {call : ContainerCall P n}
    (h : s.call V call = some s') : CallCase V s s' call := by
  cases call with
  | addReport producer type =>
    obtain rfl := Option.some.inj h
    exact .issue ⟨some producer, type⟩ rfl (fun _ => rfl) rfl (by simp) rfl
  | delReport type =>
    obtain rfl := Option.some.inj h
    exact .issue ⟨none, type⟩ rfl (fun _ => rfl) rfl (by simp [ReportContainer.delReport]) rfl
  | getEmtyList =>
    obtain rfl := Option.some.inj h
    exact .other rfl (fun _ => rfl) rfl (by simp) (by funext i; simp [ContainerUse.kinds])
  | getFullList =>
    obtain rfl := Option.some.inj h
    exact .other rfl (fun _ => rfl) rfl (by simp) (by funext i; simp [ContainerUse.kinds])
  | returnFullList reports =>
    obtain rfl := Option.some.inj h
    exact .other rfl (fun _ => rfl) rfl (by simp) (by funext i; simp [ContainerUse.kinds])
  | applyCommands reports =>
    cases reports with
    | none =>
      obtain rfl := Option.some.inj h
      exact .other rfl (fun _ => rfl) rfl rfl rfl
    | some reports =>
      obtain rfl := Option.some.inj h
      exact .pass reports rfl rfl (by simp) (kinds_applyCommands V s.container reports)
  | pushEmpty reports =>
    simp only [ContainerUse.call, Option.ite_none_right_eq_some, Option.some.injEq] at h
    obtain ⟨-, rfl⟩ := h
    exact .other rfl (fun _ => rfl) rfl rfl rfl
  | addRequest chunk request =>
    obtain rfl := Option.some.inj h
    exact .other rfl (fun _ => rfl) rfl rfl
      (funext (kinds_setChunk _ _ _ (ReportList.kinds_recordAll V _ _ _)))
  | delRequest chunk request =>
    obtain rfl := Option.some.inj h
    exact .other rfl (fun _ => rfl) rfl rfl
      (funext (kinds_setChunk _ _ _ (ReportList.kinds_recordAll V _ _ _)))
  | mergeReports chunk main =>
    obtain ⟨merging, hmerging, rfl⟩ := Option.map_eq_some_iff.mp h
    exact .other rfl (fun _ => rfl) rfl rfl
      (funext (kinds_setChunk _ _ _ (ReportList.kinds_list_mergeReports V hmerging)))

/-! ## Runs -/

/-- The commands a run issued, in order. -/
def issuedCommands (run : List (ContainerCall P n)) : List (ReportCmd P) :=
  run.filterMap ContainerCall.issued

/-- The part of a run after the last pass of a chunk through `return_empty_list`; the whole run if it
never passed. -/
def sinceLastPass (chunk : Fin n) (run : List (ContainerCall P n)) : List (ContainerCall P n) :=
  run.rtakeWhile fun call => !call.passesThrough chunk

/-- The types present after replaying commands from the empty list: adding a present type and
deleting an absent one do nothing. -/
def typesAfter (cmds : List (ReportCmd P)) : Finset StdString :=
  cmds.foldl (fun types cmd => if cmd.producer.isSome then insert cmd.type types
    else types.erase cmd.type) ∅

/-- One more call issues at most one more command. -/
theorem issuedCommands_concat (run : List (ContainerCall P n)) (call : ContainerCall P n) :
    issuedCommands (run ++ [call]) = issuedCommands run ++ call.issued.toList := by
  simp only [issuedCommands, List.filterMap_append]
  cases h : call.issued <;> simp [h]

/-- A call that is no pass of the chunk is one more call since its last pass. -/
theorem sinceLastPass_concat_of_not_passes {chunk : Fin n} (run : List (ContainerCall P n))
    {call : ContainerCall P n} (h : call.passesThrough chunk = false) :
    sinceLastPass chunk (run ++ [call]) = sinceLastPass chunk run ++ [call] :=
  List.rtakeWhile_concat_pos _ _ _ (by simp [h])

/-- A pass of the chunk starts over. -/
theorem sinceLastPass_concat_of_passes {chunk : Fin n} (run : List (ContainerCall P n))
    {call : ContainerCall P n} (h : call.passesThrough chunk = true) :
    sinceLastPass chunk (run ++ [call]) = [] :=
  List.rtakeWhile_concat_neg _ _ _ (by simp [h])

/-- The types registered after a replay are `typesAfter`, whatever the classes. -/
theorem isSome_replay_iff_mem_typesAfter (cmds : List (ReportCmd P)) (type : StdString) :
    (cmds.foldl (ReportCmd.applyTo V) Registry.empty type).isSome ↔ type ∈ typesAfter cmds := by
  induction cmds using List.reverseRecOn with
  | nil => simp [typesAfter]
  | append_singleton cmds cmd ih =>
    rw [typesAfter, List.foldl_append, List.foldl_append, ← typesAfter, List.foldl_cons,
      List.foldl_nil, List.foldl_cons, List.foldl_nil, ReportCmd.applyTo, ReportCmd.command]
    cases hp : cmd.producer with
    | some producer =>
      rw [Registry.isSome_apply_add, ih]
      simp [or_comm]
    | none =>
      by_cases ht : type = cmd.type
      · subst ht
        simp
      · rw [Registry.apply_of_key_ne _ (by simpa using Ne.symm ht), ih]
        simp [ht]

/-- **A container in use runs the command log**: the queues of `cmd_map` are the pending parts and the
types of the chunks are the replayed values. -/
theorem delivered {run : List (ContainerCall P n)} {s : ContainerUse P n}
    (h : (calls V n).Run run s) :
    Delivered (ReportCmd.applyTo V) Registry.empty (issuedCommands run) s.applied
      s.container.cmdMap s.kinds := by
  refine h.invariant (P := fun run s => Delivered (ReportCmd.applyTo V) Registry.empty
    (issuedCommands run) s.applied s.container.cmdMap s.kinds) ?_ ?_
  · -- before the first call nothing is issued and every list is empty
    have hkinds : (ContainerUse.new P n).kinds = fun _ => Registry.empty :=
      funext fun _ => ReportList.kinds_new
    show Delivered _ _ _ _ _ (ContainerUse.new P n).kinds
    rw [hkinds]
    exact .nil
  · intro run s call s' _ ih hstep
    rw [issuedCommands_concat]
    cases call_cases V hstep with
    | issue cmd issued _ applied cmdMap kinds =>
      rw [issued, applied, cmdMap, kinds]
      exact ih.issue cmd
    | pass reports eq applied cmdMap kinds =>
      subst eq
      rw [applied, cmdMap, kinds]
      simpa [ContainerCall.issued] using ih.drain reports
    | other issued _ applied cmdMap kinds =>
      rw [issued, applied, cmdMap, kinds]
      simpa using ih

/-- The pending commands of a chunk are those issued after its last pass. -/
theorem cmdMap_eq_issued_since_last_pass {run : List (ContainerCall P n)} {s : ContainerUse P n}
    (h : (calls V n).Run run s) (chunk : Fin n) :
    s.container.cmdMap chunk = issuedCommands (sinceLastPass chunk run) := by
  refine h.invariant (P := fun run s =>
    s.container.cmdMap chunk = issuedCommands (sinceLastPass chunk run)) rfl ?_
  intro run s call s' _ ih hstep
  cases call_cases V hstep with
  | issue cmd issued passes _ cmdMap _ =>
    rw [sinceLastPass_concat_of_not_passes _ (passes chunk), issuedCommands_concat, issued, cmdMap,
      ← ih]
    rfl
  | pass reports eq _ cmdMap _ =>
    subst eq
    rw [cmdMap]
    -- the chunk that passes starts over, the others have one more call behind them
    by_cases hc : chunk = reports
    · subst hc
      rw [Function.update_self, sinceLastPass_concat_of_passes _ (by simp [ContainerCall.passesThrough])]
      rfl
    · rw [Function.update_of_ne hc, sinceLastPass_concat_of_not_passes _
        (by simpa [ContainerCall.passesThrough] using Ne.symm hc), issuedCommands_concat, ih]
      simp [ContainerCall.issued]
  | other issued passes _ cmdMap _ =>
    rw [sinceLastPass_concat_of_not_passes _ (passes chunk), issuedCommands_concat, issued, cmdMap,
      ih]
    simp

/-- **Exactly-once, in-order delivery of report commands.** After any run of calls and for every
chunk: the commands applied to it followed by those pending for it are the commands issued, in order;
the pending ones are exactly those issued after its last pass through `return_empty_list`; the types of
its list are those left by the applied ones; and applying commands to it leaves every other chunk's
list and queue as they are. -/
theorem commands_delivered_in_order {run : List (ContainerCall P n)} {s : ContainerUse P n}
    (h : (calls V n).Run run s) (chunk : Fin n) :
    s.applied chunk ++ s.container.cmdMap chunk = issuedCommands run ∧
      s.container.cmdMap chunk = issuedCommands (sinceLastPass chunk run) ∧
      (∀ type : StdString, type ∈ (s.container.reportChunks chunk).reports ↔
        type ∈ typesAfter (s.applied chunk)) ∧
      ∀ other, other ≠ chunk →
        (s.container.applyCommands V chunk).reportChunks other = s.container.reportChunks other ∧
        (s.container.applyCommands V chunk).cmdMap other = s.container.cmdMap other := by
  have hdelivered := delivered V h
  refine ⟨hdelivered.split chunk, cmdMap_eq_issued_since_last_pass V h chunk, fun type => ?_,
    fun other hother => s.container.applyCommands_of_ne V hother⟩
  rw [← isSome_replay_iff_mem_typesAfter V, ← hdelivered.replay chunk, ContainerUse.kinds,
    ReportList.kinds, Option.isSome_map, Std.ExtTreeMap.mem_iff_isSome_getElem?]

/-- Report `"a"` is added, chunk `0` passes, the report is deleted and added again: chunk `0` has been
given the first command and still has to apply the other two. -/
theorem commands_delivered_in_order_add_del_add :
    ∃ s, (calls ReportClasses.plain 2).Run
        [.addReport () [97], .getEmtyList, .applyCommands (some 0), .delReport [97],
          .addReport () [97], .pushEmpty 0] s ∧
      s.applied 0 ++ s.container.cmdMap 0 =
        [⟨some (), [97]⟩, ⟨none, [97]⟩, ⟨some (), [97]⟩] ∧
      s.container.cmdMap 0 = [⟨none, [97]⟩, ⟨some (), [97]⟩] := by
  obtain ⟨s, hs⟩ : ∃ s, (calls ReportClasses.plain 2).Run
      [.addReport () [97], .getEmtyList, .applyCommands (some 0), .delReport [97],
        .addReport () [97], .pushEmpty 0] s := ⟨_, Machine.run_iff_exec.mpr rfl⟩
  obtain ⟨hall, hpending, -⟩ := commands_delivered_in_order ReportClasses.plain hs 0
  exact ⟨s, hs, hall, hpending⟩

end Tinypinba
