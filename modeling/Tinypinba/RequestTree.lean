import Tinypinba.Shard

/-! # Recording a packet with its nested requests

A decoded packet is a tree of requests. `add_request_to_reports` (`worker.cc`) records the request at
the root, when it passes `request_check`, and then calls itself on every nested request. Here it is
modelled as the recursion it is; `preorder` lists the nodes of the tree in the order of the calls, and
the recursion is a loop over those of them that pass.

The virtual `add_record` is a parameter of this module, so the reports may reject what they like;
`AcceptsAll` says that a class rejects nothing. `execFrom_visit` connects the recursion to the worker
of `shard`, which keeps the calls still to be made on an explicit stack. -/

namespace Tinypinba

open Transition

variable {P : Type}

/-- The virtual `add_record`: what recording a request does to the groups of a report, by class. -/
abbrev AddRecord (P : Type) : Type := P → PinbaRequest → ReportMap → ReportMap

/-- `Report::add_record`, for any class. -/
def Report.addRecord (addRecord : AddRecord P) (self : Report P) (request : PinbaRequest) : Report P :=
  { self with reportData := addRecord self.producer request self.reportData }

/-- `ReportList::add_request_to_reports`, for any classes. -/
def ReportList.addRecords (addRecord : AddRecord P) (self : ReportList P) (request : PinbaRequest) :
    ReportList P :=
  ⟨self.reports.map fun _ report => report.map fun report => report.addRecord addRecord request⟩

/-- The `add_record` of classes that keep every group they create. -/
def ReportClasses.addRecord (V : ReportClasses P) : AddRecord P := fun producer request reportData =>
  reportData.alter (V.group producer request) fun data => some ((data.getD .new).addRecord request)

/-- With these classes it is the `add_request_to_reports` of the other modules. -/
theorem ReportList.addRecords_eq_addRequestToReports (V : ReportClasses P) (self : ReportList P)
    (request : PinbaRequest) : self.addRecords V.addRecord request = self.addRequestToReports V request :=
  rfl

/-- A request that passes `request_check`. -/
def PinbaRequest.passesCheck (request : PinbaRequest) : Bool := (requestCheck (some request)).1 == 0

/-- The first half of `add_request_to_reports`: the request itself is recorded if it passes. -/
def recordNode (addRecord : AddRecord P) (request : PinbaRequest) (reports : ReportList P) :
    ReportList P :=
  if request.passesCheck then reports.addRecords addRecord request else reports

mutual

/-- `add_request_to_reports` of `worker.cc`, on a tree without `NULL` nodes. -/
def addRequestToReports (addRecord : AddRecord P) : PinbaRequest → ReportList P → ReportList P
  | request@⟨_, _, _, _, _, _, _, _, _, requests⟩, reports =>
    addNestedToReports addRecord requests (recordNode addRecord request reports)

/-- Its loop over the nested requests. -/
def addNestedToReports (addRecord : AddRecord P) : List PinbaRequest → ReportList P → ReportList P
  | [], reports => reports
  | request :: requests, reports =>
    addNestedToReports addRecord requests (addRequestToReports addRecord request reports)

end

mutual

/-- The nodes of a request tree in pre-order. -/
def preorder : PinbaRequest → List PinbaRequest
  | request@⟨_, _, _, _, _, _, _, _, _, requests⟩ => request :: preorderAll requests

/-- The nodes of several request trees, one tree after the other. -/
def preorderAll : List PinbaRequest → List PinbaRequest
  | [] => []
  | request :: requests => preorder request ++ preorderAll requests

end

/-! ## The recursion, one node at a time -/

/-- The nodes of several trees start with those of the first. -/
theorem preorderAll_cons (request : PinbaRequest) (todo : List PinbaRequest) :
    preorderAll (request :: todo) = preorder request ++ preorderAll todo := by
  rw [preorderAll]

/-- The nodes of more trees come after those of the trees before them. -/
theorem preorderAll_append (requests todo : List PinbaRequest) :
    preorderAll (requests ++ todo) = preorderAll requests ++ preorderAll todo := by
  induction requests with
  | nil => rw [preorderAll, List.nil_append, List.nil_append]
  | cons request requests ih =>
    rw [List.cons_append, preorderAll_cons, ih, preorderAll_cons, List.append_assoc]

/-- Visiting a request puts its nested requests in front of what was left. -/
theorem preorderAll_visit (request : PinbaRequest) (todo : List PinbaRequest) :
    preorderAll (request :: todo) = request :: preorderAll (request.requests ++ todo) := by
  cases request
  rw [preorderAll_cons, preorder, preorderAll_append, List.cons_append]

/-- **Induction over the calls still to be made**: what holds when none is left, and of some calls when
it holds of those left after the first visit, holds of all. -/
theorem visitInduction {motive : List PinbaRequest → Prop} (nil : motive [])
    (visit : ∀ request todo, motive (request.requests ++ todo) → motive (request :: todo))
    (todo : List PinbaRequest) : motive todo := by
  -- a visit leaves one node less to be visited
  generalize hnodes : (preorderAll todo).length = nodes
  induction nodes generalizing todo with
  | zero =>
    cases todo with
    | nil => exact nil
    | cons request todo =>
      rw [preorderAll_visit] at hnodes
      cases hnodes
  | succ nodes ih =>
    cases todo with
    | nil => exact nil
    | cons request todo =>
      rw [preorderAll_visit, List.length_cons, Nat.add_right_cancel_iff] at hnodes
      exact visit request todo (ih _ hnodes)

section Recursion

variable (addRecord : AddRecord P)

/-- Nested requests recorded in two parts. -/
theorem addNestedToReports_append (requests todo : List PinbaRequest) (reports : ReportList P) :
    addNestedToReports addRecord (requests ++ todo) reports =
      addNestedToReports addRecord todo (addNestedToReports addRecord requests reports) := by
  induction requests generalizing reports with
  | nil => rw [List.nil_append, addNestedToReports]
  | cons request requests ih =>
    rw [List.cons_append, addNestedToReports, ih, addNestedToReports]

/-- The calls on a list of requests are the call on the root of the first and the calls on what is then
left. -/
theorem addNestedToReports_visit (request : PinbaRequest) (todo : List PinbaRequest)
    (reports : ReportList P) :
    addNestedToReports addRecord (request :: todo) reports =
      addNestedToReports addRecord (request.requests ++ todo) (recordNode addRecord request reports) := by
  cases request
  rw [addNestedToReports, addRequestToReports, addNestedToReports_append]

/-- The calls on a list of requests record their nodes in pre-order, those that pass. -/
theorem addNestedToReports_eq_foldl (todo : List PinbaRequest) (reports : ReportList P) :
    addNestedToReports addRecord todo reports =
      ((preorderAll todo).filter PinbaRequest.passesCheck).foldl (·.addRecords addRecord ·) reports := by
  induction todo using visitInduction generalizing reports with
  | nil => rw [addNestedToReports, preorderAll, List.filter_nil, List.foldl_nil]
  | visit request todo ih =>
    rw [addNestedToReports_visit, ih, preorderAll_visit]
    by_cases hpass : request.passesCheck
    · rw [recordNode, if_pos hpass, List.filter_cons_of_pos hpass, List.foldl_cons]
    · rw [recordNode, if_neg hpass, List.filter_cons_of_neg hpass]

/-- **The recursion is a loop**: it records the nodes that pass `request_check`, each once, in
pre-order, and no others. -/
theorem addRequestToReports_eq_foldl (request : PinbaRequest) (reports : ReportList P) :
    addRequestToReports addRecord request reports =
      ((preorder request).filter PinbaRequest.passesCheck).foldl (·.addRecords addRecord ·) reports := by
  have h := addNestedToReports_eq_foldl addRecord [request] reports
  rwa [addNestedToReports, addNestedToReports, preorderAll_cons, preorderAll, List.append_nil] at h

/-! ## What the reports count -/

/-- A class whose `add_record` accepts every request: it counts it under its group, and changes no other
count. `RequestReport::add_record` of `base_report.cc` is none: it never stores the group it creates
(`RequestReport.record_fst_of_eq_none`), so a report without groups stays at zero. -/
def AcceptsAll (producer : P) (group : PinbaRequest → CString) : Prop :=
  ∀ (reportData : ReportMap) request g,
    ((⟨producer, reportData⟩ : Report P).addRecord addRecord request).count g =
      (⟨producer, reportData⟩ : Report P).count g + if group request = g then 1 else 0

/-- Classes that keep every group they create accept every request. -/
theorem acceptsAll_addRecord (V : ReportClasses P) (producer : P) :
    AcceptsAll V.addRecord producer (V.group producer) := fun reportData request g =>
  ReportList.count_recordWith V (·.addRecord request) 1 (fun _ => rfl) ⟨producer, reportData⟩ request g

/-- Recording a list of requests counts each of them once in a report that accepts them. -/
theorem count_foldl_addRecords {type : StdString} {producer : P} {group : PinbaRequest → CString}
    (haccepts : AcceptsAll addRecord producer group) (nodes : List PinbaRequest)
    (reports : ReportList P) (hkind : reports.kinds type = some (some producer)) (g : CString) :
    (nodes.foldl (·.addRecords addRecord ·) reports).count type g =
      reports.count type g + nodes.countP (group · = g) := by
  induction nodes generalizing reports with
  | nil => simp
  | cons node nodes ih =>
    obtain ⟨slot, hslot, hproducer⟩ := Option.map_eq_some_iff.mp hkind
    obtain ⟨report, rfl, rfl⟩ := Option.map_eq_some_iff.mp hproducer
    have hafter : (reports.addRecords addRecord node).reports[type]? =
        some (some (report.addRecord addRecord node)) := by
      rw [ReportList.addRecords, Std.ExtTreeMap.getElem?_map, hslot]
      rfl
    have hone : (reports.addRecords addRecord node).count type g =
        reports.count type g + if group node = g then 1 else 0 := by
      rw [ReportList.count, ReportList.getReport_eq_some_iff.mpr hafter, ReportList.count,
        ReportList.getReport_eq_some_iff.mpr hslot]
      exact haccepts report.reportData node g
    -- recording keeps the class of the report
    have hkind' : (reports.addRecords addRecord node).kinds type = some (some report.producer) := by
      rw [ReportList.kinds, hafter]
      rfl
    rw [List.foldl_cons, ih _ hkind', hone, List.countP_cons]
    by_cases hg : group node = g
    · rw [if_pos hg, if_pos (decide_eq_true hg)]
      push_cast
      ring
    · rw [if_neg hg, if_neg (by simpa using hg)]
      simp

/-- **A packet's request tree is recorded once per well-formed node.** `add_request_to_reports` on a
request tree leaves the list as calling `ReportList::add_request_to_reports` on the nodes that pass
`request_check` does, once each in pre-order, and on no other node. In a report that accepts all
requests the count of every group grows by the number of its nodes that pass. -/
theorem recorded_once_per_passing_node (request : PinbaRequest) (reports : ReportList P) :
    addRequestToReports addRecord request reports =
        ((preorder request).filter PinbaRequest.passesCheck).foldl (·.addRecords addRecord ·) reports ∧
      ∀ type report group, reports.getReport type = some report →
        AcceptsAll addRecord report.producer group → ∀ g,
        (addRequestToReports addRecord request reports).count type g =
          reports.count type g +
            (preorder request).countP fun node => node.passesCheck ∧ group node = g := by
  refine ⟨addRequestToReports_eq_foldl addRecord request reports, ?_⟩
  intro type report group hreport haccepts g
  have hkind : reports.kinds type = some (some report.producer) := by
    rw [ReportList.kinds, ReportList.getReport_eq_some_iff.mp hreport]
    rfl
  rw [addRequestToReports_eq_foldl, count_foldl_addRecords addRecord haccepts _ _ hkind,
    List.countP_filter]
  congr 2
  refine List.countP_congr fun node _ => ?_
  simp only [Bool.and_eq_true, decide_eq_true_eq]
  exact and_comm

end Recursion

/-- A malformed request, tags without a dictionary, around a well-formed one. -/
def malformedAround : PinbaRequest :=
  { BaseData.sevenKbytes with
    nTagName := 1
    nTagValue := 1
    requests := [BaseData.sevenKbytes] }

/-- Only the inner request is recorded. -/
theorem recorded_once_per_passing_node_malformedAround :
    (addRequestToReports ReportClasses.plain.addRecord malformedAround
      ⟨(∅ : Std.ExtTreeMap StdString (Option (Report Unit))).insert [97] (some ⟨(), ∅⟩)⟩).count [97]
        BaseData.sevenKbytes.serverName = 1 := by
  have h := (recorded_once_per_passing_node ReportClasses.plain.addRecord malformedAround
    ⟨(∅ : Std.ExtTreeMap StdString (Option (Report Unit))).insert [97] (some ⟨(), ∅⟩)⟩).2 [97] ⟨(), ∅⟩
    PinbaRequest.serverName rfl (acceptsAll_addRecord _ ()) BaseData.sevenKbytes.serverName
  rw [h]
  decide

/-! ## The worker's stack -/

/-- A chunk that is written back as it was is not changed. -/
theorem ReportContainer.setChunk_reportChunks {n : ℕ} (self : ReportContainer P n) (chunk : Fin n) :
    self.setChunk chunk (self.reportChunks chunk) = self := by
  rw [setChunk, Function.update_eq_self]

namespace Shard

variable {V : ReportClasses P} {n : ℕ} {period : Timeval}

/-- One visit of the worker: the request at the top of the stack is recorded if it passes, and its
nested requests are put in its place. -/
theorem step_visit {s : Shard P n} {chunk : Fin n} {request : PinbaRequest} {todo : List PinbaRequest}
    (hpc : s.worker.pc = .visit (request :: todo)) (hreports : s.worker.reports = some chunk) :
    (shard V n period).step s (.worker .visit) = some ({ s with
      container := s.container.setChunk chunk
        (recordNode V.addRecord request (s.container.reportChunks chunk)) }.setPc
          (.visit (request.requests ++ todo))) := by
  simp only [shard, step, workerStep, hpc, hreports, recordNode, PinbaRequest.passesCheck, beq_iff_eq]
  by_cases hcheck : (requestCheck (some request)).1 = 0
  · rw [if_pos hcheck, if_pos hcheck, ReportList.addRecords_eq_addRequestToReports]
  · rw [if_neg hcheck, if_neg hcheck, ReportContainer.setChunk_reportChunks]

/-- **The stack is the recursion**: as many visits as there are nodes on the worker's stack make the
calls of `add_request_to_reports` on its current list. -/
theorem execFrom_visit {s : Shard P n} {chunk : Fin n} {todo : List PinbaRequest}
    (hpc : s.worker.pc = .visit todo) (hreports : s.worker.reports = some chunk) :
    (shard V n period).execFrom s (List.replicate (preorderAll todo).length (.worker .visit)) =
      some ({ s with
        container := s.container.setChunk chunk
          (addNestedToReports V.addRecord todo (s.container.reportChunks chunk)) }.setPc
            (.visit [])) := by
  induction todo using visitInduction generalizing s with
  | nil =>
    rw [addNestedToReports, ReportContainer.setChunk_reportChunks, preorderAll, List.length_nil,
      List.replicate_zero, Machine.execFrom_nil, setPc, ← hpc]
  | visit request todo ih =>
    rw [preorderAll_visit, List.length_cons, List.replicate_succ, Machine.execFrom_cons,
      step_visit hpc hreports, Option.bind_some, addNestedToReports_visit]
    refine (ih rfl ?_).trans ?_
    · exact hreports
    -- the chunk has been written twice
    simp only [setPc, ReportContainer.setChunk, Function.update_self, Function.update_idem]

/-- **A decoded packet is recorded by one `add_request_to_reports`**: the visits that follow it, one for
each of its nodes and one to free it, bring the worker back to the top of its loop. -/
theorem execFrom_packet {s : Shard P n} {chunk : Fin n} (request : PinbaRequest)
    (hpc : s.worker.pc = .recv) (hreports : s.worker.reports = some chunk) :
    (shard V n period).execFrom s (.worker (.recv (.decoded request)) ::
        (List.replicate (preorder request).length (.worker .visit) ++ [.worker .visit])) =
      some ({ s with
        container := s.container.setChunk chunk
          (addRequestToReports V.addRecord request (s.container.reportChunks chunk)) }.setPc .top) := by
  have hrecv : (shard V n period).step s (.worker (.recv (.decoded request))) =
      some (s.setPc (.visit [request])) := by
    simp only [shard, step, workerStep, hpc, hreports]
  have hlength : (preorder request).length = (preorderAll [request]).length := by
    rw [preorderAll_cons, preorderAll, List.append_nil]
  have hvisit : (shard V n period).execFrom (s.setPc (.visit [request]))
      (List.replicate (preorderAll [request]).length (.worker .visit)) = _ :=
    execFrom_visit rfl hreports
  rw [Machine.execFrom_cons, hrecv, Option.bind_some, Machine.execFrom_append, hlength, hvisit,
    addNestedToReports, addNestedToReports]
  rfl

end Shard

end Tinypinba
