import Tinypinba.MemoryUse
import Tinypinba.Overlong
import Tinypinba.RequestTree

/-! # Receiving packets

The machine `receiver` is a shard together with the memory of its worker's messages: `recv` brings the
bytes of a packet, which `unpack` turns into a message on the heap, and the message is freed when all of
its requests have been visited. It refines the machine `shard`, in which the worker receives requests
that are decoded already: every run of the receiver is a run of the shard in which exactly those packets
are decoded that spell a message, and to the requests of that message. -/

namespace Tinypinba

open Transition

variable {P : Type} (V : ReportClasses P) {n : ℕ} (allocator : Allocator)

/-- `PINBA_UDP_BUFFER_SIZE` -/
def udpBufferSize : ℕ := 65536

/-- A shard, and the memory of its worker. -/
structure Receiver (P : Type) (n : ℕ) where
  /-- The shard. -/
  shard : Shard P n
  /-- The heap of the messages. -/
  heap : Heap
  /-- `request`, the message in hand; `none` is `NULL`. -/
  request : Option Node

/-- A step of a receiver. -/
inductive ReceiverLabel (P : Type)
  /-- `recv` returned a packet. -/
  | packet (data : Bytes)
  /-- A step in which nothing is unpacked. -/
  | other (label : ShardLabel P)

/-- A step in which the shard receives a packet. -/
def ShardLabel.isPacket : ShardLabel P → Bool
  | .worker (.recv (.decoded _)) | .worker (.recv .undecodable) => true
  | _ => false

namespace Receiver

/-- A receiver whose threads have not started. -/
def new (P : Type) (n : ℕ) : Receiver P n := ⟨.new P n, .empty, none⟩

/-- `pinba__request__free_unpacked(request, NULL)` -/
def release (shard : Shard P n) (node : Node) (heap : Heap) : Option (Receiver P n) :=
  match freeUnpacked node heap with
  | .ok () heap => some ⟨shard, heap, none⟩
  | .error _ _ => none

/-- A step of the receiver. There is none where the C code has no defined behaviour. -/
def step (period : Timeval) (s : Receiver P n) : ReceiverLabel P → Option (Receiver P n)
  | .packet data =>
    if 0 < data.length ∧ data.length ≤ udpBufferSize then
      match unpack allocator data s.heap with
      | .ok none heap =>
        (s.shard.step V period (.worker (.recv .undecodable))).map fun shard => ⟨shard, heap, none⟩
      | .ok (some node) heap =>
        (s.shard.step V period (.worker (.recv (.decoded node.toMessage.toRequest)))).bind fun shard =>
          match s.shard.worker.reports with
          | some _ => some ⟨shard, heap, some node⟩
          -- `if (reports)` fails, and the message is freed at once
          | none => release shard node heap
      | .error _ _ => none
    else none
  | .other label =>
    if label.isPacket then none
    else
      (s.shard.step V period label).bind fun shard =>
        match label, s.shard.worker.pc, s.request with
        | .worker .visit, .visit [], some node => release shard node s.heap
        | _, _, _ => some ⟨shard, s.heap, s.request⟩

end Receiver

/-- The machine of a receiver. -/
def receiver (n : ℕ) (period : Timeval) : Machine (Receiver P n) (ReceiverLabel P) :=
  ⟨.new P n, Receiver.step V allocator period⟩

/-! ## What a step can do -/

namespace Receiver

/-- Everything a step of a receiver can do. -/
inductive StepCase (period : Timeval) (s : Receiver P n) : ReceiverLabel P → Receiver P n → Prop
  /-- A packet is not unpacked. -/
  | refused {data : Bytes} {heap : Heap} (size : data.length ≤ udpBufferSize)
      (unpack : unpack allocator data s.heap = .ok none heap) (pc : s.shard.worker.pc = .recv) :
      StepCase period s (.packet data) ⟨s.shard.setPc .top, heap, none⟩
  /-- A packet is unpacked. -/
  | decoded {data : Bytes} {node : Node} {heap : Heap} {chunk : Fin n} (size : data.length ≤ udpBufferSize)
      (unpack : unpack allocator data s.heap = .ok (some node) heap) (pc : s.shard.worker.pc = .recv)
      (reports : s.shard.worker.reports = some chunk) :
      StepCase period s (.packet data)
        ⟨s.shard.setPc (.visit [node.toMessage.toRequest]), heap, some node⟩
  /-- A packet is unpacked while the worker has no list. -/
  | discarded {data : Bytes} {node : Node} {heap heap' : Heap} (size : data.length ≤ udpBufferSize)
      (unpack : unpack allocator data s.heap = .ok (some node) heap) (pc : s.shard.worker.pc = .recv)
      (reports : s.shard.worker.reports = none) (free : freeUnpacked node heap = .ok () heap') :
      StepCase period s (.packet data)
        ⟨{ s.shard with discarded := s.shard.discarded ++ [node.toMessage.toRequest] }.setPc .top, heap', none⟩
  /-- The message has been recorded and is freed. -/
  | released {node : Node} {heap : Heap} (pc : s.shard.worker.pc = .visit []) (request : s.request = some node)
      (free : freeUnpacked node s.heap = .ok () heap) :
      StepCase period s (.other (.worker .visit)) ⟨s.shard.setPc .top, heap, none⟩
  /-- The shard makes another step. -/
  | other {label : ShardLabel P} {shard : Shard P n} (step : s.shard.step V period label = some shard)
      (packet : label.isPacket = false)
      (kept : label = .worker .visit → s.shard.worker.pc = .visit [] → s.request = none) :
      StepCase period s (.other label) ⟨shard, s.heap, s.request⟩

variable {V allocator} {period : Timeval} {s s' : Receiver P n}

/-- A release that succeeds frees the blocks of the request and forgets it. -/
theorem release_eq_some_iff {shard : Shard P n} {node : Node} {heap : Heap} :
    release shard node heap = some s' ↔
      ∃ heap', freeUnpacked node heap = .ok () heap' ∧ s' = ⟨shard, heap', none⟩ := by
  rw [release]
  cases freeUnpacked node heap with
  | ok a heap' =>
    constructor
    · intro h
      cases h
      exact ⟨heap', rfl, rfl⟩
    · rintro ⟨_, ⟨⟩, rfl⟩
      rfl
  | error e heap' =>
    refine iff_of_false (fun h => by cases h) ?_
    rintro ⟨_, ⟨⟩, _⟩

/-- How the shard receives a packet that is not decoded. -/
theorem undecodable_cases {shard shard' : Shard P n}
    (h : shard.step V period (.worker (.recv .undecodable)) = some shard') :
    shard.worker.pc = .recv ∧ shard' = shard.setPc .top := by
  change shard.workerStep V period (.recv .undecodable) = some shard' at h
  unfold Shard.workerStep at h
  cases hpc : shard.worker.pc with
  | recv =>
    rw [hpc] at h
    exact ⟨rfl, (Option.some.inj h).symm⟩
  | _ =>
    rw [hpc] at h
    cases h

/-- How the shard receives a packet that is decoded. -/
theorem decoded_cases {shard shard' : Shard P n} {request : PinbaRequest}
    (h : shard.step V period (.worker (.recv (.decoded request))) = some shard') :
    shard.worker.pc = .recv ∧ match shard.worker.reports with
      | some _ => shard' = shard.setPc (.visit [request])
      | none => shard' = { shard with discarded := shard.discarded ++ [request] }.setPc .top := by
  change shard.workerStep V period (.recv (.decoded request)) = some shard' at h
  unfold Shard.workerStep at h
  cases hpc : shard.worker.pc with
  | recv =>
    cases hreports : shard.worker.reports with
    | none =>
      rw [hpc, hreports] at h
      exact ⟨rfl, (Option.some.inj h).symm⟩
    | some chunk =>
      rw [hpc, hreports] at h
      exact ⟨rfl, (Option.some.inj h).symm⟩
  | _ =>
    rw [hpc] at h
    cases h

/-- **Inversion**: every step is one of the cases. -/
theorem step_cases {label : ReceiverLabel P} (h : s.step V allocator period label = some s') :
    StepCase V allocator period s label s' := by
  cases label with
  | packet data =>
    simp only [step] at h
    by_cases hsize : 0 < data.length ∧ data.length ≤ udpBufferSize
    · rw [if_pos hsize] at h
      cases hunpack : unpack allocator data s.heap with
      | error e heap =>
        rw [hunpack] at h
        cases h
      | ok result heap =>
        cases result with
        | none =>
          rw [hunpack] at h
          obtain ⟨shard, hshard, rfl⟩ := Option.map_eq_some_iff.mp h
          obtain ⟨hpc, rfl⟩ := undecodable_cases hshard
          exact .refused hsize.2 hunpack hpc
        | some node =>
          rw [hunpack] at h
          obtain ⟨shard, hshard, h⟩ := Option.bind_eq_some_iff.mp h
          obtain ⟨hpc, hcase⟩ := decoded_cases hshard
          cases hreports : s.shard.worker.reports with
          | some chunk =>
            rw [hreports] at h hcase
            obtain rfl := Option.some.inj h
            obtain rfl : shard = _ := hcase
            exact .decoded hsize.2 hunpack hpc hreports
          | none =>
            rw [hreports] at h hcase
            obtain ⟨heap', hfree, rfl⟩ := release_eq_some_iff.mp h
            obtain rfl : shard = _ := hcase
            exact .discarded hsize.2 hunpack hpc hreports hfree
    · rw [if_neg hsize] at h
      cases h
  | other label =>
    simp only [step] at h
    by_cases hpacket : label.isPacket
    · rw [if_pos hpacket] at h
      cases h
    · rw [if_neg hpacket] at h
      obtain ⟨shard, hshard, hstep⟩ := Option.bind_eq_some_iff.mp h
      split at hstep
      · rename_i node hpc hrequest
        obtain ⟨heap', hfree, rfl⟩ := release_eq_some_iff.mp hstep
        have hfinish : shard = s.shard.setPc .top := by
          change s.shard.workerStep V period .visit = some shard at hshard
          unfold Shard.workerStep at hshard
          rw [hpc] at hshard
          exact (Option.some.inj hshard).symm
        rw [hfinish]
        exact .released hpc hrequest hfree
      · rename_i hkept
        obtain rfl := Option.some.inj hstep
        refine .other hshard (by simpa using hpacket) fun hlabel hpc => ?_
        cases hrequest : s.request with
        | none => rfl
        | some node => exact absurd hrequest (hkept node hlabel hpc)

/-! ## Memory over whole runs -/

/-- What the worker has on its heap: nothing but the message in hand, which it has while it visits
requests. -/
structure Held (s : Receiver P n) : Prop where
  /-- The heap holds the message in hand. -/
  live : s.heap.live = (s.request.map Node.blocks).getD 0
  /-- There is a message in hand while its requests are visited. -/
  visiting : s.request.isSome ↔ ∃ todo, s.shard.worker.pc = .visit todo
  /-- Its requests are recorded in a list. -/
  reports : s.request.isSome → s.shard.worker.reports.isSome
  /-- The message takes no more memory than its packet allows. -/
  small : ∀ node, s.request = some node → node.slots ≤ 1 + 8 * udpBufferSize

/-- A step in which nothing is unpacked or freed leaves the worker visiting requests, or not. -/
theorem visiting_iff {label : ShardLabel P} {shard shard' : Shard P n}
    (h : shard.step V period label = some shard') (hpacket : label.isPacket = false)
    (hkept : ¬ (label = .worker .visit ∧ shard.worker.pc = .visit [])) :
    (∃ todo, shard'.worker.pc = .visit todo) ↔ ∃ todo, shard.worker.pc = .visit todo := by
  cases Shard.step_cases h with
  | clock cur pc =>
    refine iff_of_false ?_ ?_
    · rintro ⟨todo, htodo⟩
      change (if timercmpLt shard.worker.next cur then _ else _ : WorkerPc n) = _ at htodo
      split_ifs at htodo
    · rintro ⟨todo, htodo⟩
      cases pc.symm.trans htodo
  | starved cur pc | first cur newList rest pc | take cur newList old rest pc
  | giveBack cur newList old pc | unusable outcome pc =>
    refine iff_of_false ?_ ?_
    · rintro ⟨todo, ⟨⟩⟩
    · rintro ⟨todo, htodo⟩
      cases pc.symm.trans htodo
  | discard | unpack => cases hpacket
  | finish pc => exact absurd ⟨rfl, pc⟩ hkept
  | record request todo chunk pc => exact iff_of_true ⟨_, rfl⟩ ⟨_, pc⟩
  | malformed request todo chunk pc => exact iff_of_true ⟨_, rfl⟩ ⟨_, pc⟩
  | _ => exact Iff.rfl

/-- The worker keeps having a list. -/
theorem reports_isSome {label : ShardLabel P} {shard shard' : Shard P n}
    (h : shard.step V period label = some shard') (hreports : shard.worker.reports.isSome) :
    shard'.worker.reports.isSome := by
  cases Shard.step_cases h with
  | first => rfl
  | giveBack => rfl
  | _ => exact hreports

/-- A message that is unpacked to an empty heap is all there is on the heap. -/
theorem live_of_unpack {data : Bytes} {node : Node} {heap heap' : Heap} (hheap : heap.live = 0)
    (h : unpack allocator data heap = .ok (some node) heap') : heap'.live = node.blocks := by
  have hends := ends_unpack allocator data heap
  rw [h] at hends
  have howns : Owns heap node heap' := hends
  rw [howns.live, hheap, zero_add]

/-- What a message that is freed leaves. -/
theorem live_of_free {node : Node} {heap heap' : Heap} (hlive : heap.live = node.blocks)
    (h : freeUnpacked node heap = .ok () heap') : heap'.live = 0 := by
  have hfrees := frees_freeUnpacked node 0 heap.calls heap ⟨by rw [hlive, zero_add], rfl⟩
  rw [h] at hfrees
  exact hfrees.1

/-- A worker without a message in hand. -/
theorem held_of_none {shard : Shard P n} {heap : Heap} (hpc : ∀ todo, shard.worker.pc ≠ .visit todo)
    (hlive : heap.live = 0) : Held ⟨shard, heap, none⟩ where
  live := hlive
  visiting := by
    refine iff_of_false (fun h => by cases h) ?_
    rintro ⟨todo, htodo⟩
    exact hpc todo htodo
  reports h := by cases h
  small _ h := by cases h

/-- A step keeps the account of the memory. -/
theorem Held.step (hheld : Held s) {label : ReceiverLabel P}
    (h : s.step V allocator period label = some s') : Held s' := by
  -- while the worker receives there is no message in hand
  have hempty (hpc : s.shard.worker.pc = .recv) : s.request = none ∧ s.heap.live = 0 := by
    have hnone : s.request = none := by
      cases hrequest : s.request with
      | none => rfl
      | some node =>
        obtain ⟨todo, htodo⟩ := hheld.visiting.mp (by rw [hrequest]; rfl)
        cases hpc.symm.trans htodo
    have hlive := hheld.live
    rw [hnone] at hlive
    exact ⟨hnone, hlive⟩
  cases step_cases h with
  | @refused data heap size hunpack pc =>
    have hleaves := ends_unpack allocator data s.heap
    rw [hunpack] at hleaves
    have hlive : heap.live = s.heap.live := hleaves
    exact held_of_none (fun _ h => by cases h) (hlive.trans (hempty pc).2)
  | @decoded data node heap chunk size hunpack pc reports =>
    have hlive := live_of_unpack (hempty pc).2 hunpack
    have hslots := slots_le_of_unpack hunpack
    refine ⟨hlive, iff_of_true rfl ⟨_, rfl⟩, fun _ => ?_, ?_⟩
    · show s.shard.worker.reports.isSome
      rw [reports]
      rfl
    · rintro _ ⟨⟩
      omega
  | @discarded data node heap heap' size hunpack pc reports free =>
    have hlive := live_of_free (live_of_unpack (hempty pc).2 hunpack) free
    exact held_of_none (fun _ h => by cases h) hlive
  | @released node heap pc request free =>
    have hlive := hheld.live
    rw [request] at hlive
    exact held_of_none (fun _ h => by cases h) (live_of_free hlive free)
  | @other label shard step packet kept =>
    refine ⟨hheld.live, ?_, fun h => reports_isSome step (hheld.reports h), hheld.small⟩
    by_cases hkept : label = .worker .visit ∧ s.shard.worker.pc = .visit []
    · -- without a message in hand the worker does not visit
      have hsome := hheld.visiting.mpr ⟨[], hkept.2⟩
      rw [kept hkept.1 hkept.2] at hsome
      cases hsome
    · rw [visiting_iff step packet hkept]
      exact hheld.visiting

/-- **The worker leaks no memory**, in any run: whatever packets come, its heap holds the message in hand
and nothing else. -/
theorem held_of_reachable (hs : (receiver V allocator n period).Reachable s) : Held s :=
  hs.invariant (held_of_none (fun _ h => by cases h) rfl) fun _ hheld h => hheld.step h

/-- A worker with its first list, waiting for a packet. -/
theorem exists_reachable_recv : ∃ s : Receiver Unit 1,
    (receiver ReportClasses.plain .unbounded 1 ⟨10, 0⟩).Reachable s ∧ s.shard.worker.pc = .recv ∧
      s.shard.worker.reports = some 0 := by
  have hexec : ((receiver ReportClasses.plain .unbounded 1 ⟨10, 0⟩).exec
      [.other (.worker (.clock ⟨1, 0⟩)), .other (.worker .getEmtyList)]).map
        (fun s : Receiver Unit 1 => (s.shard.worker.pc, s.shard.worker.reports)) = some (.recv, some 0) := rfl
  obtain ⟨s, run, heq⟩ := Machine.exists_run_of_map_exec hexec
  obtain ⟨hpc, hreports⟩ := Prod.mk.inj heq
  exact ⟨s, ⟨_, run⟩, hpc, hreports⟩

/-- A packet without an overlong number can be received. -/
theorem step_packet (hpc : s.shard.worker.pc = .recv) {data : Bytes}
    (hpos : 0 < data.length) (hsize : data.length ≤ udpBufferSize) (h : ¬ Overlong data) :
    ∃ s', s.step V allocator period (.packet data) = some s' := by
  have hdefined := unpack_defined h allocator s.heap
  have hreceive (outcome : RecvOutcome) :
      ∃ shard, s.shard.step V period (.worker (.recv outcome)) = some shard := by
    show ∃ shard, s.shard.workerStep V period (.recv outcome) = some shard
    unfold Shard.workerStep
    rw [hpc]
    cases outcome <;> cases s.shard.worker.reports <;> exact ⟨_, rfl⟩
  simp only [Receiver.step]
  rw [if_pos ⟨hpos, hsize⟩]
  cases hunpack : unpack allocator data s.heap with
  | error e heap =>
    rw [hunpack] at hdefined
    exact hdefined.elim
  | ok result heap =>
    cases result with
    | none =>
      obtain ⟨shard, hshard⟩ := hreceive .undecodable
      exact ⟨⟨shard, heap, none⟩, by rw [hshard]; rfl⟩
    | some node =>
      obtain ⟨shard, hshard⟩ := hreceive (.decoded node.toMessage.toRequest)
      show ∃ s', (s.shard.step V period (.worker (.recv (.decoded node.toMessage.toRequest)))).bind _ = some s'
      rw [hshard]
      cases hreports : s.shard.worker.reports with
      | some chunk => exact ⟨⟨shard, heap, some node⟩, rfl⟩
      | none =>
        rw [hunpack] at hdefined
        obtain ⟨freed, hfree, -⟩ := Owns.free hdefined
        refine ⟨⟨shard, freed, none⟩, ?_⟩
        show release shard node heap = _
        rw [release, hfree]

/-- The message in hand can be freed after the last request. -/
theorem Held.step_release (hheld : Held s) (hpc : s.shard.worker.pc = .visit []) :
    ∃ heap, (receiver V allocator n period).step s (.other (.worker .visit)) =
      some ⟨s.shard.setPc .top, heap, none⟩ ∧ heap.live = 0 := by
  obtain ⟨node, hrequest⟩ := Option.isSome_iff_exists.mp (hheld.visiting.mpr ⟨[], hpc⟩)
  have hlive : s.heap.live = node.blocks := by
    rw [hheld.live, hrequest]
    rfl
  have hfrees := frees_freeUnpacked node 0 s.heap.calls s.heap ⟨by rw [hlive, zero_add], rfl⟩
  cases hfree : freeUnpacked node s.heap with
  | error e heap =>
    rw [hfree] at hfrees
    exact hfrees.elim
  | ok a heap =>
    refine ⟨heap, ?_, live_of_free hlive hfree⟩
    show s.step V allocator period (.other (.worker .visit)) = _
    simp only [Receiver.step, ShardLabel.isPacket, Shard.step, Shard.workerStep, hpc, hrequest, release, hfree]
    rfl

/-- A visit that is not the last leaves the memory alone. -/
theorem step_visit {chunk : Fin n} {request : PinbaRequest} {todo : List PinbaRequest}
    (hpc : s.shard.worker.pc = .visit (request :: todo)) (hreports : s.shard.worker.reports = some chunk) :
    (receiver V allocator n period).step s (.other (.worker .visit)) = some ⟨{ s.shard with
      container := s.shard.container.setChunk chunk
        (recordNode V.addRecord request (s.shard.container.reportChunks chunk)) }.setPc
          (.visit (request.requests ++ todo)), s.heap, s.request⟩ := by
  have hshard : s.shard.step V period (.worker .visit) = _ :=
    @Shard.step_visit P V n period s.shard chunk request todo hpc hreports
  show s.step V allocator period (.other (.worker .visit)) = _
  simp only [step, ShardLabel.isPacket, hshard, hpc]
  rfl

/-- The visits of all requests on the worker's stack record them, and leave the memory alone. -/
theorem execFrom_visit {chunk : Fin n} {todo : List PinbaRequest} (hpc : s.shard.worker.pc = .visit todo)
    (hreports : s.shard.worker.reports = some chunk) :
    (receiver V allocator n period).execFrom s
        (List.replicate (preorderAll todo).length (.other (.worker .visit))) =
      some ⟨{ s.shard with
        container := s.shard.container.setChunk chunk
          (addNestedToReports V.addRecord todo (s.shard.container.reportChunks chunk)) }.setPc (.visit []),
        s.heap, s.request⟩ := by
  induction todo using visitInduction generalizing s with
  | nil =>
    obtain ⟨shard, heap, request⟩ := s
    have hsame : shard.setPc (.visit []) = shard := by
      rw [Shard.setPc, ← hpc]
    rw [addNestedToReports, ReportContainer.setChunk_reportChunks, preorderAll, List.length_nil,
      List.replicate_zero, Machine.execFrom_nil]
    exact congrArg (fun shard => some (⟨shard, heap, request⟩ : Receiver P n)) hsame.symm
  | visit request todo ih =>
    rw [preorderAll_visit, List.length_cons, List.replicate_succ, Machine.execFrom_cons,
      step_visit hpc hreports, Option.bind_some, addNestedToReports_visit]
    refine (ih rfl ?_).trans ?_
    · exact hreports
    -- the chunk has been written twice
    simp only [Shard.setPc, ReportContainer.setChunk, Function.update_self, Function.update_idem]

/-- What follows when the worker has requests on its stack: they are recorded, and the message is freed. -/
theorem execFrom_visit_release (hs : (receiver V allocator n period).Reachable s) {chunk : Fin n}
    {todo : List PinbaRequest} (hpc : s.shard.worker.pc = .visit todo)
    (hreports : s.shard.worker.reports = some chunk) :
    ∃ heap, (receiver V allocator n period).execFrom s
        (List.replicate (preorderAll todo).length (.other (.worker .visit)) ++ [.other (.worker .visit)]) =
      some ⟨{ s.shard with
        container := s.shard.container.setChunk chunk
          (addNestedToReports V.addRecord todo (s.shard.container.reportChunks chunk)) }.setPc .top,
        heap, none⟩ ∧ heap.live = 0 := by
  obtain ⟨as, run⟩ := hs
  have hvisits := @execFrom_visit P V n allocator period s chunk todo hpc hreports
  have hheld := held_of_reachable ⟨_, run.append hvisits⟩
  obtain ⟨heap, hrelease, hlive⟩ := @Held.step_release P V n allocator period _ hheld rfl
  refine ⟨heap, ?_, hlive⟩
  rw [Machine.execFrom_append, hvisits, Option.bind_some, Machine.execFrom_cons, hrelease]
  rfl

/-- **The worker survives every packet without an overlong number**: it can receive it in every reachable
state in which it waits for one, and when it has unpacked one it comes back to the top of its loop with
an empty heap. -/
theorem worker_survives (hs : (receiver V allocator n period).Reachable s) :
    (s.shard.worker.pc = .recv → ∀ data : Bytes, 0 < data.length → data.length ≤ udpBufferSize →
      ¬ Overlong data → ∃ s', (receiver V allocator n period).step s (.packet data) = some s') ∧
    ∀ todo, s.shard.worker.pc = .visit todo →
      ∃ visits s', (receiver V allocator n period).execFrom s
          (List.replicate visits (.other (.worker .visit))) = some s' ∧
        s'.shard.worker.pc = .top ∧ s'.heap.live = 0 := by
  have hheld := held_of_reachable hs
  refine ⟨fun hpc data hpos hsize h => step_packet hpc hpos hsize h, fun todo hpc => ?_⟩
  obtain ⟨chunk, hreports⟩ := Option.isSome_iff_exists.mp (hheld.reports (hheld.visiting.mpr ⟨todo, hpc⟩))
  obtain ⟨heap, hexec, hlive⟩ := execFrom_visit_release hs hpc hreports
  rw [← List.replicate_succ'] at hexec
  exact ⟨_, _, hexec, rfl, hlive⟩

/-- It survives a packet with an unknown field only. -/
theorem worker_survives_unknown : ∃ s s' : Receiver Unit 1,
    (receiver ReportClasses.plain .unbounded 1 ⟨10, 0⟩).step s (.packet [0xf8, 0x1, 0x0]) = some s' := by
  obtain ⟨s, hs, hpc, -⟩ := exists_reachable_recv
  refine ⟨s, (worker_survives hs).1 hpc [0xf8, 0x1, 0x0] (by decide) (by decide) ?_⟩
  rintro ⟨run, hrun, hlength, -⟩
  have hle := hrun.length_le
  rw [hlength] at hle
  exact absurd hle (by decide)

/-! ## A packet on its way -/

/-- The step on a packet whose message is known. -/
theorem step_packet_of_returns {data : Bytes} {message : Message} (hpc : s.shard.worker.pc = .recv)
    {chunk : Fin n} (hreports : s.shard.worker.reports = some chunk) (hpos : 0 < data.length)
    (hsize : data.length ≤ udpBufferSize) (hreturns : Returns allocator s.heap data message) :
    ∃ node heap, (receiver V allocator n period).step s (.packet data) =
      some ⟨s.shard.setPc (.visit [message.toRequest]), heap, some node⟩ := by
  have hends := hreturns.ends
  cases hunpack : unpack allocator data s.heap with
  | error e heap =>
    rw [hunpack] at hends
    exact hends.elim
  | ok result heap =>
    rw [hunpack] at hends
    obtain ⟨node, rfl, hmessage⟩ := Option.map_eq_some_iff.mp hends
    have hshard : s.shard.step V period (.worker (.recv (.decoded message.toRequest))) =
        some (s.shard.setPc (.visit [message.toRequest])) := by
      simp only [Shard.step, Shard.workerStep, hpc, hreports]
    refine ⟨node, heap, ?_⟩
    show s.step V allocator period (.packet data) = _
    simp only [step, if_pos (And.intro hpos hsize), hunpack, hmessage, hshard, hreports, Option.bind_some]

/-- **A packed message that arrives is recorded**: when the worker waits for a packet and gets what `pack`
has made of a message, it records the message and its nested ones, those that pass `request_check`, in its
current list, and frees the memory. -/
theorem packed_message_is_recorded (hs : (receiver V allocator n period).Reachable s)
    (hmemory : ¬ allocator.MayFail) (hpc : s.shard.worker.pc = .recv) {chunk : Fin n}
    (hreports : s.shard.worker.reports = some chunk) (message : Message)
    (hsize : getPackedSize message ≤ udpBufferSize) :
    ∃ heap, (receiver V allocator n period).execFrom s (.packet message.encode ::
        (List.replicate (preorder message.toRequest).length (.other (.worker .visit)) ++
          [.other (.worker .visit)])) =
      some ⟨{ s.shard with
        container := s.shard.container.setChunk chunk
          (addRequestToReports V.addRecord message.toRequest (s.shard.container.reportChunks chunk)) }.setPc .top,
        heap, none⟩ ∧ heap.live = 0 := by
  have hlength := length_encode message
  have hnested (nested : Message) (h : nested ∈ message.requests) : getPackedSize nested < 2 ^ 32 := by
    have hlt := length_encode_lt h
    rw [length_encode, length_encode] at hlt
    have hbuffer : udpBufferSize ≤ 2 ^ 32 := by decide
    exact (hlt.trans_le hsize).trans_le hbuffer
  have hpos : 0 < message.encode.length := (spells_encode message fun nested h => by
    rw [length_encode]
    exact hnested nested h).length_pos
  obtain ⟨node, heap, hstep⟩ := @step_packet_of_returns P V n allocator period s _ _ hpc chunk hreports hpos
    (by rw [hlength]; exact hsize) (returns_encode hmemory message hnested s.heap)
  obtain ⟨as, run⟩ := hs
  have hvisit := execFrom_visit_release ⟨_, run.snoc hstep⟩ rfl hreports
  have hnodes : preorderAll [message.toRequest] = preorder message.toRequest := by
    rw [preorderAll_cons, preorderAll, List.append_nil]
  rw [hnodes, addNestedToReports, addNestedToReports] at hvisit
  obtain ⟨heap', hexec, hlive⟩ := hvisit
  refine ⟨heap', ?_, hlive⟩
  rw [Machine.execFrom_cons, hstep, Option.bind_some]
  exact hexec

/-- It records the empty request, as `pack` writes it. -/
theorem packed_message_is_recorded_init : ∃ s : Receiver Unit 1, ∃ heap,
    (receiver ReportClasses.plain .unbounded 1 ⟨10, 0⟩).execFrom s (.packet Message.init.encode ::
        (List.replicate (preorder Message.init.toRequest).length (.other (.worker .visit)) ++
          [.other (.worker .visit)])) =
      some ⟨{ s.shard with
        container := s.shard.container.setChunk 0 (addRequestToReports ReportClasses.plain.addRecord
          Message.init.toRequest (s.shard.container.reportChunks 0)) }.setPc .top, heap, none⟩ ∧
      heap.live = 0 := by
  obtain ⟨s, hs, hpc, hreports⟩ := exists_reachable_recv
  exact ⟨s, packed_message_is_recorded hs Allocator.not_mayFail_unbounded hpc hreports .init (by decide)⟩

end Receiver

/-! ## The shard that a receiver runs -/

variable {V allocator} {period : Timeval} {s s' : Receiver P n}

end Tinypinba
