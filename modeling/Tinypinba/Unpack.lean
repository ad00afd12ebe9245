import Tinypinba.Foundation.Contract
import Tinypinba.Records

/-! # Unpacking

`pinba__request__unpack_merge` and the functions around it (`pinba.pb-c.c`) with their memory. A message
in memory is a `Node`: its fields, and for every array the block that its pointer points to. Blocks come
from a `ProtobufCAllocator`, which may refuse any call.

A program of type `Unpack` changes the local variables of one call of `unpack_merge` and the heap. It
stops with the negative result the C code returns, or with `undefined` where the C code has no defined
behaviour: shifting a word out of itself, touching memory outside a block, or freeing what is not
allocated. -/

namespace Tinypinba

open Decoder

/-! ## Memory -/

/-- An allocated block: its address, and the number of elements it has room for. -/
structure Block where
  /-- Where it is. -/
  addr : ℕ
  /-- How many elements of the type it was allocated for fit. -/
  size : ℕ
  deriving DecidableEq

/-- `ProtobufCAllocator`: `alloc` on its call number, the size and the addresses in use, `none` being
`NULL`. -/
structure Allocator where
  /-- `alloc` -/
  alloc : (call size : ℕ) → (used : Finset ℕ) → Option ℕ
  /-- A new block is not one that is in use. -/
  fresh : ∀ {call size used addr}, alloc call size used = some addr → addr ∉ used

/-- The blocks in use, and the number of calls of `alloc` so far. -/
structure Heap where
  /-- How often `alloc` has been called. -/
  calls : ℕ
  /-- The blocks allocated and not freed. -/
  live : Multiset Block
  /-- No two of them have the same address. -/
  distinct : (live.map Block.addr).Nodup

/-- How unpacking stops early. -/
inductive Stop
  /-- `PROTOBUF_C__WRONG_MESSAGE` -/
  | wrongMessage
  /-- `PROTOBUF_C__NOT_ENOUGH_MEMORY` -/
  | notEnoughMemory
  /-- Undefined behaviour. -/
  | undefined (u : Undefined)
  deriving DecidableEq

/-- A program that works on the heap. -/
abbrev Memory : Type → Type := EStateM Stop Heap

section Allocation

variable (allocator : Allocator)

/-- The heap after a call of `alloc` that returned `NULL`. -/
def Heap.refuse (heap : Heap) : Heap := ⟨heap.calls + 1, heap.live, heap.distinct⟩

/-- The heap after a call of `alloc` that returned a new block. -/
def Heap.add (heap : Heap) (block : Block) (h : block.addr ∉ (heap.live.map Block.addr).toFinset) : Heap :=
  ⟨heap.calls + 1, block ::ₘ heap.live, by
    rw [Multiset.map_cons, Multiset.nodup_cons]
    exact ⟨fun hmem => h (Multiset.mem_toFinset.mpr hmem), heap.distinct⟩⟩

/-- The heap after `free`. -/
def Heap.free (heap : Heap) (block : Block) : Heap :=
  ⟨heap.calls, heap.live.erase block,
    Multiset.nodup_of_le (Multiset.map_le_map (Multiset.erase_le _ _)) heap.distinct⟩

/-- `memory_allocate` -/
def memoryAllocate (size : ℕ) : Memory (Option Block) := fun heap =>
  match h : allocator.alloc heap.calls size (heap.live.map Block.addr).toFinset with
  | some addr => .ok (some ⟨addr, size⟩) (heap.add ⟨addr, size⟩ (allocator.fresh h))
  | none => .ok none heap.refuse

/-- `memory_allocate_copy`: the elements to copy must be in the source. -/
def memoryAllocateCopy (size : ℕ) (src : Option Block) (srcSize : ℕ) : Memory (Option Block) := do
  if size < srcSize then
    return none
  let ret ← memoryAllocate allocator size
  if ret.isSome ∧ (src.map Block.size).getD 0 < srcSize then
    throw (.undefined .badAccess)
  return ret

/-- `memory_free` -/
def memoryFree (ptr : Option Block) : Memory Unit := fun heap =>
  match ptr with
  | none => .ok () heap
  | some block => if block ∈ heap.live then .ok () (heap.free block) else .error (.undefined .badAccess) heap

end Allocation

/-! ## Messages in memory -/

/-- The fields that are arrays on the heap. -/
inductive ArrayField
  | words (f : RepeatedField)
  | dictionary
  | requests
  deriving DecidableEq

/-- The arrays in the order in which they are freed. -/
def ArrayField.all : List ArrayField :=
  [.words .timerHitCount, .words .timerValue, .words .timerTagCount, .words .timerTagName,
    .words .timerTagValue, .dictionary, .requests, .words .tagName, .words .tagValue,
    .words .timerRuUtime, .words .timerRuStime]

instance : Fintype ArrayField := .ofList ArrayField.all fun f => by
  cases f with
  | words f => cases f <;> decide
  | dictionary => decide
  | requests => decide

/-- A `Pinba__Request` in memory. -/
structure Node where
  /-- The block it is in. -/
  block : Block
  /-- The fields other than `requests`. -/
  fields : Fields
  /-- The pointers to the arrays, `none` being `NULL`. -/
  arrays : ArrayField → Option Block
  /-- The nested messages that the array `requests` points to. -/
  requests : List Node

/-- `pinba__request__init` on a block. -/
def Node.init (block : Block) : Node := ⟨block, .init, fun _ => none, []⟩

/-- The number of elements of an array: `n_timer_hit_count` and so on. -/
def Node.count (node : Node) : ArrayField → ℕ
  | .words f => (node.fields.repeated f).length
  | .dictionary => node.fields.dictionary.length
  | .requests => node.requests.length

/-- Assign to the pointer of an array. -/
def Node.setArray (node : Node) (f : ArrayField) (ptr : Option Block) : Node :=
  { node with arrays := Function.update node.arrays f ptr }

mutual

/-- `pinba__request__free_unpacked` -/
def freeUnpacked : Node → Memory Unit
  | ⟨block, _, arrays, requests⟩ => do
    memoryFree (arrays (.words .timerHitCount))
    memoryFree (arrays (.words .timerValue))
    memoryFree (arrays (.words .timerTagCount))
    memoryFree (arrays (.words .timerTagName))
    memoryFree (arrays (.words .timerTagValue))
    memoryFree (arrays .dictionary)
    freeNested requests
    memoryFree (arrays .requests)
    memoryFree (arrays (.words .tagName))
    memoryFree (arrays (.words .tagValue))
    memoryFree (arrays (.words .timerRuUtime))
    memoryFree (arrays (.words .timerRuStime))
    memoryFree (some block)

/-- Its loop over the nested messages. -/
def freeNested : List Node → Memory Unit
  | [] => pure ()
  | node :: nodes => do
    freeUnpacked node
    freeNested nodes

end

mutual

/-- `pinba__request__check` on a message that is there. -/
def check : Node → Bool
  | node@⟨_, _, arrays, requests⟩ =>
    let present (f : ArrayField) : Bool := node.count f = 0 || (arrays f).isSome
    present (.words .timerHitCount) && present (.words .timerValue) && present (.words .timerTagCount) &&
    present (.words .timerTagName) && present (.words .timerTagValue) && present .dictionary &&
    present .requests && checkNested requests && present (.words .tagName) &&
    present (.words .tagValue) && present (.words .timerRuUtime) && present (.words .timerRuStime)

/-- Its loop over the nested messages. -/
def checkNested : List Node → Bool
  | [] => true
  | node :: nodes => check node && checkNested nodes

end

/-! ## `unpack_merge` -/

/-- The local variables of a call of `unpack_merge`, the message it fills, and the heap. -/
structure Unpacking where
  /-- From `buffer` to `buffer_end`. -/
  buffer : Bytes
  /-- `required_fields` -/
  required : ℕ
  /-- `message` -/
  message : Node
  /-- The memory. -/
  heap : Heap

/-- A program in `unpack_merge`. -/
abbrev Unpack : Type → Type := EStateM Stop Unpacking

/-- The code between `read` and its `return`: a failed read is a wrong message. -/
def read {α : Type} (d : Read α) : Unpack α := fun s =>
  match d.run s.buffer with
  | .ok (a, rest) => .ok a { s with buffer := rest }
  | .error .null => .error .wrongMessage s
  | .error .badShift => .error (.undefined .badShift) s

/-- A call that works on the heap. -/
def onHeap {α : Type} (m : Memory α) : Unpack α := fun s =>
  match m s.heap with
  | .ok a heap => .ok a { s with heap := heap }
  | .error e heap => .error e { s with heap := heap }

/-- A change of the fields of `message`. -/
def setFields (change : Fields → Fields) : Unpack Unit :=
  modify fun s => { s with message := { s.message with fields := change s.message.fields } }

/-- An assignment to an array pointer of `message`. -/
def assign (f : ArrayField) (ptr : Option Block) : Unpack Unit :=
  modify fun s => { s with message := s.message.setArray f ptr }

/-- `required_fields[0] |= (1UL << bit)` -/
def require (bit : ℕ) : Unpack Unit := modify fun s => { s with required := s.required ||| 1 <<< bit }

/-- An access to the element with index `count` of an array. -/
def access (f : ArrayField) : Unpack Unit := do
  let message := (← get).message
  match message.arrays f with
  | some block => if block.size ≤ message.count f then throw (.undefined .badAccess)
  | none => throw (.undefined .badAccess)

section Merge

variable (allocator : Allocator)

/-- Make room for one more element: eight at first, then twice as many whenever the number of elements
is a power of two from eight on. -/
def grow (f : ArrayField) : Unpack Unit := do
  let n := (← get).message.count f
  if (n - 1) &&& n = 0 then
    if n = 0 then
      let ptr ← onHeap (memoryAllocate allocator 8)
      assign f ptr
      if ptr = none then throw .notEnoughMemory
    else if 8 ≤ n then
      let newPtr ← onHeap (memoryAllocateCopy allocator (2 * n) ((← get).message.arrays f) n)
      if newPtr = none then throw .notEnoughMemory
      onHeap (memoryFree ((← get).message.arrays f))
      assign f newPtr

/-- One element of an array of words. -/
def unpackElement (f : RepeatedField) : Unpack Unit := do
  grow allocator (.words f)
  let v ← read (readWord f.kind)
  access (.words f)
  setFields fun fields => fields.append f [v]

/-- The loop over a packed array, which ends at `stop` bytes before `buffer_end`. -/
def unpackElements (f : RepeatedField) (stop : ℕ) : ℕ → Unpack Unit
  | 0 => pure ()
  | fuel + 1 => do
    if stop < (← get).buffer.length then
      unpackElement allocator f
      unpackElements f stop fuel

/-- The code after the `case` label of a field; `nested` unpacks a nested message into a block. -/
def unpackField (nested : Block → Bytes → Unpack Node) : Field → Unpack Unit
  | .string f => do
    let bytes ← read readBlock
    setFields fun fields => fields.setString f bytes
    match f.bit with
    | some bit => require bit
    | none => pure ()
  | .number f => do
    let v ← read (readWord f.kind)
    setFields fun fields => fields.setNumber f v
    require f.bit
  | .optional f => do
    let v ← read readUint32
    setFields fun fields => fields.setOptional f v
  | .single f => unpackElement allocator f
  | .packed f => do
    let t ← read readInt32
    let left := (← get).buffer.length
    if (left : ℤ) < t then throw .wrongMessage
    unpackElements allocator f (left - t).toNat left
    if ((← get).buffer.length : ℤ) < left - t then throw .wrongMessage
  | .dictionary => do
    grow allocator .dictionary
    let bytes ← read readBlock
    access .dictionary
    setFields fun fields => fields.addEntry bytes
  | .requests => do
    grow allocator .requests
    let body ← read readBlock
    match ← onHeap (memoryAllocate allocator 1) with
    | none => throw .notEnoughMemory
    | some block =>
      let submessage ← nested block body
      access .requests
      modify fun s => { s with message := { s.message with requests := s.message.requests ++ [submessage] } }

/-- `unpack_merge` into a message just initialized; when it fails, the message is freed again. -/
def unpackInto (merge : Unpack Unit) (block : Block) (data : Bytes) : Memory Node := fun heap =>
  match merge ⟨data, 0, .init block, heap⟩ with
  | .ok () s => .ok s.message s.heap
  | .error (.undefined u) s => .error (.undefined u) s.heap
  | .error e s =>
    match freeUnpacked s.message s.heap with
    | .ok () heap => .error e heap
    | .error e heap => .error e heap

/-- The check after the loop of `unpack_merge`. -/
def finish : Unpack Unit := do
  if (← get).required ≠ 0x1ff then throw .wrongMessage

/-- One pass through the loop of `unpack_merge` on a buffer that begins with `first`; `merge` is the
call of `unpack_merge` on a nested message. -/
def unpackRecord (merge : Unpack Unit) (first : UInt8) (buffer : Bytes) : Unpack Unit :=
  match switch first buffer with
  | .field f buffer => do
    modify fun s => { s with buffer := buffer }
    unpackField allocator (fun block body => onHeap (unpackInto merge block body)) f
  | .skip first => read (skipField first)
  | .wrong => throw .wrongMessage

/-- `pinba__request__unpack_merge`; `fuel` bounds the passes through its loop, those of nested calls
counted too. -/
def unpackMerge : ℕ → Unpack Unit
  | 0 => do
    match (← get).buffer with
    | [] => finish
    | _ :: _ => throw .wrongMessage
  | fuel + 1 => do
    match (← get).buffer with
    | [] => finish
    | first :: buffer =>
      unpackRecord allocator (unpackMerge fuel) first buffer
      unpackMerge fuel

/-- `pinba__request__unpack`; `none` is `NULL`. Only undefined behaviour is an error. -/
def unpack (data : Bytes) : Memory (Option Node) := do
  match ← memoryAllocate allocator 1 with
  | none => return none
  | some block => fun heap =>
    match unpackInto (unpackMerge allocator data.length) block data heap with
    | .ok node heap => .ok (some node) heap
    | .error (.undefined u) heap => .error (.undefined u) heap
    | .error _ heap => .ok none heap

end Merge

end Tinypinba
