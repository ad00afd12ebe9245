import Tinypinba.RoundTrip
import Tinypinba.UnpackSpec

/-! # Packets and messages

What `unpack` returns and what it leaves on the heap, stated for its callers: the message that the packet
spells, memory that `free_unpacked` gives back completely, and for a packet written by `pack` the message
that was packed. -/

namespace Tinypinba

/-! ## Allocators -/

/-- An allocator that never refuses: the address after the last one in use. -/
def Allocator.unbounded : Allocator where
  alloc _ _ used := some (used.sup id + 1)
  fresh := by
    intro _ _ used addr h hmem
    cases h
    have hle : used.sup id + 1 ≤ used.sup id := Finset.le_sup (f := id) hmem
    omega

/-- It never refuses. -/
theorem Allocator.not_mayFail_unbounded : ¬ Allocator.unbounded.MayFail := by
  rintro ⟨call, size, used, h⟩
  cases h

/-- A heap on which nothing is allocated yet. -/
def Heap.empty : Heap := ⟨0, 0, Multiset.nodup_zero⟩

/-! ## Messages -/

/-- `unpack` returns a message. -/
structure Returns (allocator : Allocator) (heap : Heap) (data : Bytes) (message : Message) : Prop where
  /-- There is no undefined behaviour, and the result holds the message. -/
  ends : Ends (fun result _ => result.map Node.toMessage = some message) (fun _ _ => False)
    (unpack allocator data heap)

variable {allocator : Allocator} {heap : Heap} {data : Bytes} {message : Message}

/-- A returned message is spelled by the packet, also when there is little memory. -/
theorem Returns.spells (h : Returns allocator heap data message) : SpellsMessage message data := by
  have hunpacked := unpacked allocator data heap
  have hends := h.ends
  generalize unpack allocator data heap = result at hends hunpacked
  cases hunpacked with
  | @message node heap' spells =>
    have hmessage : node.toMessage = message := Option.some.inj hends
    exact hmessage ▸ spells
  | refused => cases hends
  | wrong => cases hends
  | shift => exact hends.elim

/-- With memory, a packet that spells a message is unpacked to it. -/
theorem returns_of_spells (hmemory : ¬ allocator.MayFail) (h : SpellsMessage message data) (heap : Heap) :
    Returns allocator heap data message := by
  have hunpacked := unpacked allocator data heap
  have hread := (readMessage_eq_ok_iff data message).mpr h
  constructor
  generalize unpack allocator data heap = result at hunpacked
  cases hunpacked with
  | @message node heap' spells =>
    have hnode := (readMessage_eq_ok_iff data node.toMessage).mpr spells
    show some node.toMessage = some message
    rw [Except.ok.inj (hnode.symm.trans hread)]
  | refused _ hfail => exact (hmemory hfail).elim
  | wrong _ hwrong => cases hwrong.symm.trans hread
  | shift hshift => cases hshift.symm.trans hread

/-- **With memory, `unpack` returns a message exactly when the packet spells it.** -/
theorem unpack_returns_iff (hmemory : ¬ allocator.MayFail) :
    Returns allocator heap data message ↔ SpellsMessage message data :=
  ⟨Returns.spells, fun h => returns_of_spells hmemory h heap⟩

/-- The empty request, as `pack` writes it. -/
theorem unpack_returns_init : Returns .unbounded .empty (Message.encode .init) .init := by
  have hspells : SpellsMessage .init (Message.encode .init) :=
    spells_encode .init fun nested hmem => absurd hmem List.not_mem_nil
  exact (unpack_returns_iff Allocator.not_mayFail_unbounded).mpr hspells

/-! ## Memory -/

/-- How the heap changes when `unpack` returns a message. -/
structure Owns (before : Heap) (node : Node) (after : Heap) : Prop where
  /-- The blocks of the message are new, and nothing else is. -/
  live : after.live = before.live + node.blocks
  /-- Every array has room for its elements. -/
  tidy : node.Tidy
  /-- The message passes `check`. -/
  checked : check node = true

/-- How the heap changes in a call of `unpack`. -/
def Leaves (before : Heap) (result : Option Node) (after : Heap) : Prop :=
  match result with
  | none => after.live = before.live
  | some node => Owns before node after

/-- Whatever the packet and the allocator, `unpack` leaves a heap on which only the blocks of the message
are new, or shifts a word out of itself. -/
theorem ends_unpack (allocator : Allocator) (data : Bytes) (heap : Heap) :
    Ends (Leaves heap) (fun e _ => e = .undefined .badShift ∧ readMessage data = .error .badShift)
      (unpack allocator data heap) := by
  have hunpacked := unpacked allocator data heap
  generalize unpack allocator data heap = result at hunpacked
  cases hunpacked with
  | message _ tidy live => exact ⟨live, tidy, check_of_tidy _ tidy⟩
  | refused live => exact live
  | wrong live => exact live
  | shift h => exact ⟨rfl, h⟩

/-- `free_unpacked` gives the memory of a message back. -/
theorem Owns.free {before after : Heap} {node : Node} (h : Owns before node after) :
    ∃ heap, freeUnpacked node after = .ok () heap ∧ heap.live = before.live := by
  have hfrees := frees_freeUnpacked node before.live after.calls after ⟨h.live, rfl⟩
  cases hrun : freeUnpacked node after with
  | ok a heap =>
    rw [hrun] at hfrees
    exact ⟨heap, rfl, hfrees.1⟩
  | error e heap =>
    rw [hrun] at hfrees
    exact hfrees.elim

/-- **`unpack` is safe with memory and leaks none**: whatever the packet, the heap and the refusals of
the allocator, it accesses and frees nothing but its own blocks; a message it returns has room for its
elements, passes `check`, and gives all of its memory back to `free_unpacked`; and when it returns `NULL`
nothing of it is left. The one thing that it does not survive is a shift by too much. -/
theorem unpack_leaves_no_garbage (allocator : Allocator) (data : Bytes) (heap : Heap) :
    Ends (fun result after => Leaves heap result after ∧
        ∀ node, result = some node →
          ∃ freed, freeUnpacked node after = .ok () freed ∧ freed.live = heap.live)
      (fun e _ => e = .undefined .badShift) (unpack allocator data heap) := by
  refine (ends_unpack allocator data heap).weaken (fun result after h => ⟨h, ?_⟩) fun _ _ h => h.1
  rintro node rfl
  exact Owns.free h

/-! ## Packing and unpacking -/

/-- What `pack` writes is unpacked to the message. -/
theorem returns_encode (hmemory : ¬ allocator.MayFail) (message : Message)
    (hnested : ∀ nested ∈ message.requests, getPackedSize nested < 2 ^ 32) (heap : Heap) :
    Returns allocator heap message.encode message := by
  refine returns_of_spells hmemory (spells_encode message fun nested hmem => ?_) heap
  rw [length_encode]
  exact hnested nested hmem

end Tinypinba
