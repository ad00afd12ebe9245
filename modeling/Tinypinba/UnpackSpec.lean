import Tinypinba.UnpackMemory

/-! # What unpacking does

One contract for every function of `unpack_merge`. It says at once that the function reads from the
buffer what `readRecords` reads, that it makes of the message what the records make of it, and that the
message owns exactly the blocks that were allocated and not freed, whether it returns or fails, so that
nothing is accessed outside its block and nothing leaks. -/

namespace Tinypinba

open Decoder

/-! ## Views -/

mutual

/-- The message a node holds. -/
def Node.toMessage : Node → Message
  | ⟨_, fields, _, requests⟩ => ⟨fields, Node.toMessages requests⟩

/-- The messages several nodes hold. -/
def Node.toMessages : List Node → List Message
  | [] => []
  | node :: nodes => node.toMessage :: Node.toMessages nodes

end

/-- A message on the heap stands for its fields and what its nested messages stand for. -/
theorem Node.toMessage_eq (node : Node) :
    node.toMessage = ⟨node.fields, Node.toMessages node.requests⟩ := by
  cases node
  rw [Node.toMessage]

/-- Two lists of messages on the heap. -/
theorem Node.toMessages_append (nodes more : List Node) :
    Node.toMessages (nodes ++ more) = Node.toMessages nodes ++ Node.toMessages more := by
  induction nodes with
  | nil => rw [List.nil_append, Node.toMessages, List.nil_append]
  | cons node nodes ih => rw [List.cons_append, Node.toMessages, Node.toMessages, ih, List.cons_append]

/-- What a call of `unpack_merge` has decoded so far: the message, and which required fields. -/
structure View where
  /-- The message. -/
  message : Message
  /-- `required_fields` -/
  required : ℕ

/-- One more record. -/
def View.apply (v : View) (r : Record) : View :=
  ⟨v.message.apply r, match r.bit with
    | some bit => v.required ||| 1 <<< bit
    | none => v.required⟩

/-- What is decoded in a state of `unpack_merge`. -/
def Unpacking.view (s : Unpacking) : View := ⟨s.message.toMessage, s.required⟩

/-- The bits of `required_fields` are those of the records decoded. -/
theorem testBit_required (rs : List Record) (v : View) (k : ℕ) :
    (rs.foldl View.apply v).required.testBit k = true ↔
      v.required.testBit k = true ∨ some k ∈ rs.map Record.bit := by
  induction rs generalizing v with
  | nil => simp
  | cons r rs ih =>
    have happly : (v.apply r).required.testBit k = true ↔ v.required.testBit k = true ∨ some k = r.bit := by
      rw [View.apply]
      cases hbit : r.bit with
      | none => simp
      | some bit =>
        show (v.required ||| 1 <<< bit).testBit k = true ↔ _
        rw [Nat.testBit_or, Bool.or_eq_true, Nat.testBit_shiftLeft, Option.some.injEq, Bool.and_eq_true,
          decide_eq_true_eq, Nat.testBit_one_eq_true_iff_self_eq_zero]
        constructor
        · rintro (h | h)
          · exact .inl h
          · exact .inr (by omega)
        · rintro (h | h)
          · exact .inl h
          · exact .inr (by omega)
    rw [List.foldl_cons, ih, happly, List.map_cons, List.mem_cons]
    exact or_assoc

/-- There are nine required fields. -/
theorem Record.bit_lt {r : Record} {k : ℕ} (h : r.bit = some k) : k < 9 := by
  cases r with
  | string f _ => cases f <;> cases h <;> decide
  | number f _ => cases f <;> cases h <;> decide
  | _ => cases h

/-- **The test at the end of `unpack_merge`** is that every required field has been there. -/
theorem required_eq_iff (rs : List Record) (message : Message) :
    (rs.foldl View.apply ⟨message, 0⟩).required = 0x1ff ↔ Complete rs := by
  have hbits (k : ℕ) : (rs.foldl View.apply ⟨message, 0⟩).required.testBit k = true ↔
      some k ∈ rs.map Record.bit := by
    rw [testBit_required]
    simp
  have hmask (k : ℕ) : Nat.testBit 0x1ff k = true ↔ k < 9 := by
    rw [show (0x1ff : ℕ) = 2 ^ 9 - 1 from rfl, Nat.testBit_two_pow_sub_one, decide_eq_true_eq]
  constructor
  · intro h k hk
    rw [← hbits, h]
    exact (hmask k).mpr hk
  · intro h
    refine Nat.eq_of_testBit_eq fun k => ?_
    rw [Bool.eq_iff_iff, hbits, hmask]
    constructor
    · intro hmem
      obtain ⟨r, -, hr⟩ := List.mem_map.mp hmem
      exact Record.bit_lt hr
    · exact h k

/-- The message of a view is the records applied one after the other. -/
theorem message_foldl_apply (rs : List Record) (v : View) :
    (rs.foldl View.apply v).message = v.message.applyAll rs := by
  induction rs generalizing v with
  | nil => rfl
  | cons r rs ih => exact ih (v.apply r)

/-! ## States -/

/-- The allocator may refuse. -/
def Allocator.MayFail (allocator : Allocator) : Prop :=
  ∃ call size used, allocator.alloc call size used = none

/-- The errors of `unpack_merge` that are errors of the packet. -/
def decoding : Decoding Stop Unpacking UInt8 ReadError where
  input := Unpacking.buffer
  reason
    | .wrongMessage => some .null
    | .undefined .badShift => some .badShift
    | _ => none

/-- Besides the blocks in `base`, the heap holds the blocks of the message. -/
def Owned (base : Multiset Block) (s : Unpacking) : Prop := s.heap.live = base + s.message.blocks

/-- A state at the top of the loop of `unpack_merge`. -/
structure Ready (base : Multiset Block) (v : View) (s : Unpacking) : Prop where
  owned : Owned base s
  fits : ∀ f, s.message.Fits f (s.message.count f)
  nested : ∀ m ∈ s.message.requests, m.Tidy
  view : s.view = v

/-- A state after `grow`: there is room for one more element of `f`. -/
structure Grown (base : Multiset Block) (v : View) (f : ArrayField) (s : Unpacking) : Prop where
  owned : Owned base s
  room : ∃ block, s.message.arrays f = some block ∧ Allotted (s.message.count f + 1) block.size
  others : ∀ g, g ≠ f → s.message.Fits g (s.message.count g)
  nested : ∀ m ∈ s.message.requests, m.Tidy
  view : s.view = v

/-- A state in which `unpack_merge` has failed. A shift without a defined result promises nothing more. -/
structure Failed (allocator : Allocator) (base : Multiset Block) (e : Stop) (s : Unpacking) : Prop where
  owned : e ≠ .undefined .badShift → Owned base s
  access : e ≠ .undefined .badAccess
  memory : e = .notEnoughMemory → allocator.MayFail

variable {allocator : Allocator} {base : Multiset Block} {v : View}

/-! ## Reading -/

/-- Reading from the buffer changes nothing else. -/
theorem implements_read {α : Type} {P : Unpacking → Prop} (d : Read α)
    (hbuffer : ∀ s buffer, P s → P { s with buffer := buffer }) (howned : ∀ s, P s → Owned base s) :
    Implements decoding P (read d) d (fun a c s => a = c ∧ P s) (Failed allocator base) := by
  intro s hs
  rw [read]
  have hrun : decoding.input s = s.buffer := rfl
  rw [hrun]
  cases d.run s.buffer with
  | ok pair =>
    obtain ⟨a, rest⟩ := pair
    exact ⟨a, rfl, rfl, hbuffer s rest hs⟩
  | error e =>
    cases e with
    | null =>
      refine ⟨⟨fun _ => howned s hs, by decide, fun h => by cases h⟩, fun r hr => ?_⟩
      cases hr
      rfl
    | badShift =>
      refine ⟨⟨fun _ => howned s hs, by decide, fun h => by cases h⟩, fun r hr => ?_⟩
      cases hr
      rfl

/-- Reading does not touch the heap. -/
theorem implements_read_ready {α : Type} (d : Read α) :
    Implements decoding (Ready base v) (read d) d (fun a c s => a = c ∧ Ready base v s)
      (Failed allocator base) :=
  implements_read d (fun _ _ h => ⟨h.owned, h.fits, h.nested, h.view⟩) fun _ h => h.owned

/-- Nor does it while an array has room for one more element. -/
theorem implements_read_grown {α : Type} {f : ArrayField} (d : Read α) :
    Implements decoding (Grown base v f) (read d) d (fun a c s => a = c ∧ Grown base v f s)
      (Failed allocator base) :=
  implements_read d (fun _ _ h => ⟨h.owned, h.room, h.others, h.nested, h.view⟩) fun _ h => h.owned

/-! ## Growing -/

/-- A call of `alloc` returns a new block, or `NULL`. -/
theorem memoryAllocate_cases (allocator : Allocator) (size : ℕ) (heap : Heap) :
    (∃ block heap', memoryAllocate allocator size heap = .ok (some block) heap' ∧ block.size = size ∧
      heap'.live = heap.live + {block}) ∨
    ∃ heap', memoryAllocate allocator size heap = .ok none heap' ∧ heap'.live = heap.live ∧
      allocator.MayFail := by
  rw [memoryAllocate]
  split
  case h_1 addr haddr =>
    refine .inl ⟨_, _, rfl, rfl, ?_⟩
    show _ ::ₘ heap.live = _
    rw [add_comm, Multiset.singleton_add]
  case h_2 hnone => exact .inr ⟨_, rfl, rfl, _, _, _, hnone⟩

/-- A call of `alloc` in a known state. -/
theorem contract_allocate {E : Stop → Unpacking → Prop} (size : ℕ) (s : Unpacking) :
    Contract (· = s) (onHeap (memoryAllocate allocator size))
      (fun ptr s' => ∃ heap, s' = { s with heap := heap } ∧ heap.live = s.heap.live + pointee ptr ∧
        (∀ block, ptr = some block → block.size = size) ∧ (ptr = none → allocator.MayFail)) E := by
  rintro t rfl
  rw [onHeap]
  obtain ⟨block, heap, halloc, hsize, hlive⟩ | ⟨heap, halloc, hlive, hfail⟩ :=
    memoryAllocate_cases allocator size t.heap
  · rw [halloc]
    refine ⟨heap, rfl, hlive, fun b hb => ?_, fun h => by cases h⟩
    cases hb
    exact hsize
  · rw [halloc]
    exact ⟨heap, rfl, hlive.trans (add_zero _).symm, fun _ h => (by cases h), fun _ => hfail⟩

/-- A call of `free` on a block in use. -/
theorem contract_free {E : Stop → Unpacking → Prop} (ptr : Option Block) (s : Unpacking)
    (rest : Multiset Block) (hlive : s.heap.live = rest + pointee ptr) :
    Contract (· = s) (onHeap (memoryFree ptr))
      (fun _ s' => ∃ heap, s' = { s with heap := heap } ∧ heap.live = rest) E := by
  rintro t rfl
  have hfree := frees_memoryFree ptr rest t.heap.calls t.heap ⟨hlive, rfl⟩
  rw [onHeap]
  cases hrun : memoryFree ptr t.heap with
  | ok a heap =>
    rw [hrun] at hfree
    exact ⟨heap, rfl, hfree.1⟩
  | error e heap =>
    rw [hrun] at hfree
    exact hfree.elim

/-- Neither test of `memory_allocate_copy` fails when the source holds what is copied. -/
theorem memoryAllocateCopy_eq {size n : ℕ} {src : Block} (hsize : n ≤ size) (hsrc : n ≤ src.size)
    (heap : Heap) :
    memoryAllocateCopy allocator size (some src) n heap = memoryAllocate allocator size heap := by
  have hlarge : ¬ size < n := by omega
  have hfits : ¬ ((some src).map Block.size).getD 0 < n := by
    show ¬ src.size < n
    omega
  simp only [memoryAllocateCopy, hlarge, hfits, and_false, if_false]
  show EStateM.bind _ _ heap = _
  rw [EStateM.bind]
  cases memoryAllocate allocator size heap with
  | ok a heap => rfl
  | error e heap => rfl

/-- Assigning a new block to a pointer. -/
theorem toMessage_setArray (node : Node) (f : ArrayField) (ptr : Option Block) :
    (node.setArray f ptr).toMessage = node.toMessage := by
  rw [Node.toMessage_eq, Node.toMessage_eq]
  rfl

/-- A new array does not change the number of elements. -/
theorem count_setArray (node : Node) (f g : ArrayField) (ptr : Option Block) :
    (node.setArray f ptr).count g = node.count g := by
  cases g <;> rfl

/-- The other arrays keep their blocks. -/
theorem fits_setArray {node : Node} {f g : ArrayField} {ptr : Option Block} {n : ℕ} (h : g ≠ f) :
    (node.setArray f ptr).Fits g n ↔ node.Fits g n := by
  have harray : (node.setArray f ptr).arrays g = node.arrays g := Function.update_of_ne h _ _
  rw [Node.Fits, Node.Fits, harray]

/-- With a new block for `f` there is room. -/
theorem Ready.grown {s : Unpacking} (h : Ready base v s) {f : ArrayField} {block : Block} {heap : Heap}
    (hsize : Allotted (s.message.count f + 1) block.size)
    (hlive : heap.live + pointee (s.message.arrays f) = s.heap.live + {block}) :
    Grown base v f { s with message := s.message.setArray f (some block), heap := heap } where
  owned := by
    have howned : s.heap.live = base + s.message.blocks := h.owned
    have hblocks := s.message.blocks_setArray f (some block)
    rw [pointee_some] at hblocks
    rw [howned, add_assoc, ← hblocks, ← add_assoc] at hlive
    exact add_right_cancel hlive
  room := ⟨block, Function.update_self _ _ _, by rw [count_setArray]; exact hsize⟩
  others g hg := by
    rw [fits_setArray hg, count_setArray]
    exact h.fits g
  nested := h.nested
  view := by
    rw [← h.view, Unpacking.view, Unpacking.view, toMessage_setArray]

/-- The pointer of an array that is not empty. -/
theorem Ready.pointer {s : Unpacking} (h : Ready base v s) {f : ArrayField}
    (hn : s.message.count f ≠ 0) :
    ∃ block, s.message.arrays f = some block ∧ Allotted (s.message.count f) block.size := by
  have hfits := h.fits f
  rw [Node.Fits] at hfits
  split at hfits
  case h_1 => exact absurd hfits hn
  case h_2 block hblock => exact ⟨block, hblock, hfits.2⟩

/-- The pointer of an empty array. -/
theorem Ready.null {s : Unpacking} (h : Ready base v s) {f : ArrayField}
    (hn : s.message.count f = 0) : s.message.arrays f = none := by
  have hfits := h.fits f
  rw [Node.Fits] at hfits
  split at hfits
  case h_1 hnone => exact hnone
  case h_2 block hblock =>
    have hpos := hfits.1
    omega

/-- Where `grow` has nothing to do there is room. -/
theorem Ready.grown_of_room {s : Unpacking} (h : Ready base v s) {f : ArrayField}
    (hn : s.message.count f ≠ 0) (hroom : (s.message.count f).isPowerOfTwo → s.message.count f < 8) :
    Grown base v f s where
  owned := h.owned
  room := by
    obtain ⟨block, hblock, hallot⟩ := h.pointer hn
    exact ⟨block, hblock, hallot.room hroom⟩
  others g _ := h.fits g
  nested := h.nested
  view := h.view

/-- **What `grow` does**: it makes room for one more element, or it fails for lack of memory and leaves
no block behind. -/
theorem silent_grow (f : ArrayField) :
    Silent decoding (Ready base v) (grow allocator f) (fun _ => Grown base v f) (Failed allocator base) := by
  intro l
  refine Contract.get_bind fun s hs => ?_
  obtain ⟨hready, rfl⟩ := hs
  have howned : s.heap.live = base + s.message.blocks := hready.owned
  refine Contract.ite (fun htest => Contract.ite (fun hn => ?_) fun hn => Contract.ite (fun h8 => ?_) fun h8 => ?_)
    fun htest => ?_
  · -- the first block
    have hnull := hready.null hn
    refine (contract_allocate 8 s).bind fun ptr => Contract.start fun t ht => ?_
    obtain ⟨heap, rfl, hlive, hsize, hfail⟩ := ht
    refine Contract.bind (Q := fun _ t => t = { s with message := s.message.setArray f ptr, heap := heap })
      (Contract.update fun t ht => by rw [ht]) fun _ => ?_
    refine Contract.ite (fun hptr => ?_) fun hptr => ?_
    · have hblocks := s.message.blocks_setArray f none
      rw [hnull] at hblocks
      refine Contract.throw fun t ht => ⟨⟨fun _ => ?_, by decide, fun _ => hfail hptr⟩, rfl⟩
      rw [ht, hptr]
      rw [hptr, pointee_none, add_zero, howned] at hlive
      exact hlive.trans (congrArg (base + ·) (add_right_cancel hblocks).symm)
    · obtain ⟨block, rfl⟩ := Option.ne_none_iff_exists'.mp hptr
      refine Contract.pure fun t ht => ?_
      rw [ht]
      refine ⟨hready.grown ?_ ?_, rfl⟩
      · rw [hn, hsize block rfl]
        exact allotted_one
      · rw [hnull, pointee_none, add_zero]
        exact hlive
  · -- twice as much
    obtain ⟨block, hblock, hallot⟩ := hready.pointer hn
    have hpow := (and_eq_zero_iff hn).mp htest
    have hfull := hallot.full hpow h8
    refine Contract.get_bind fun t ht => ?_
    obtain rfl := ht
    have hcopy : onHeap (memoryAllocateCopy allocator (2 * t.message.count f) (t.message.arrays f)
        (t.message.count f)) = onHeap (memoryAllocate allocator (2 * t.message.count f)) := by
      rw [hblock]
      funext u
      rw [onHeap, onHeap, memoryAllocateCopy_eq (by omega) (by omega)]
    rw [hcopy]
    refine (contract_allocate (2 * t.message.count f) t).bind fun newPtr => Contract.start fun u hu => ?_
    obtain ⟨heap, rfl, hlive, hsize, hfail⟩ := hu
    refine Contract.ite (fun hptr => ?_) fun hptr => ?_
    · refine Contract.bind (Q := fun _ _ => False) (Contract.throw fun u hu => ?_) fun _ _ h => h.elim
      rw [hptr, pointee_none, add_zero, howned] at hlive
      rw [hu]
      exact ⟨⟨fun _ => hlive, by decide, fun _ => hfail hptr⟩, rfl⟩
    · obtain ⟨new, rfl⟩ := Option.ne_none_iff_exists'.mp hptr
      refine Contract.get_bind fun u hu => ?_
      obtain rfl := hu
      have hblocks := t.message.blocks_setArray f none
      rw [hblock, pointee_some, pointee_none, add_zero] at hblocks
      rw [howned, ← hblocks, pointee_some] at hlive
      refine (contract_free (t.message.arrays f) _ (base + (t.message.setArray f none).blocks + {new}) ?_).bind
        fun _ => Contract.start fun u hu => ?_
      · rw [hblock, pointee_some]
        show heap.live = _
        rw [hlive]
        abel
      · obtain ⟨heap', rfl, hlive'⟩ := hu
        refine Contract.update fun u hu => ?_
        rw [hu]
        refine ⟨hready.grown ?_ ?_, rfl⟩
        · rw [hsize new rfl]
          exact hallot.double hpow h8
        · rw [hblock, pointee_some, hlive', howned, ← hblocks]
          abel
  · refine Contract.pure fun t ht => ?_
    rw [ht]
    exact ⟨hready.grown_of_room hn fun _ => by omega, rfl⟩
  · have hn : s.message.count f ≠ 0 := by
      intro hn
      rw [hn] at htest
      exact htest rfl
    refine Contract.pure fun t ht => ?_
    rw [ht]
    exact ⟨hready.grown_of_room hn fun hpow => absurd ((and_eq_zero_iff hn).mpr hpow) htest, rfl⟩

/-- Where there is room the access is good. -/
theorem silent_access {E : Stop → Unpacking → Prop} (f : ArrayField) :
    Silent decoding (Grown base v f) (access f) (fun _ => Grown base v f) E := by
  intro l
  refine Contract.get_bind fun s hs => ?_
  obtain ⟨hgrown, rfl⟩ := hs
  obtain ⟨block, hblock, hallot⟩ := hgrown.room
  have hlt : ¬ block.size ≤ s.message.count f := by
    have hle := hallot.1
    omega
  simp only [hblock, if_neg hlt]
  refine Contract.pure fun t ht => ?_
  rw [ht]
  exact ⟨hgrown, rfl⟩

/-! ## Storing -/

/-- A change of the fields that keeps the lengths of the arrays. -/
theorem silent_setFields (change : Fields → Fields)
    (hrepeated : ∀ fields, (change fields).repeated = fields.repeated)
    (hdictionary : ∀ fields, (change fields).dictionary = fields.dictionary) :
    Silent decoding (Ready base v) (setFields change)
      (fun _ => Ready base ⟨{ v.message with fields := change v.message.fields }, v.required⟩)
      (Failed allocator base) := by
  refine Silent.update (fun _ => rfl) fun s h => ?_
  have hcount (f : ArrayField) :
      ({ s.message with fields := change s.message.fields } : Node).count f = s.message.count f := by
    cases f with
    | words f => exact congrArg (fun r => (r f).length) (hrepeated s.message.fields)
    | dictionary => exact congrArg List.length (hdictionary s.message.fields)
    | requests => rfl
  refine ⟨?_, fun f => ?_, h.nested, ?_⟩
  · have howned := h.owned
    rw [Owned, Node.blocks_eq] at howned ⊢
    exact howned
  · show s.message.Fits f _
    rw [hcount]
    exact h.fits f
  · rw [← h.view, Unpacking.view, Unpacking.view, Node.toMessage_eq, Node.toMessage_eq]

/-- Setting a bit of `required_fields`. -/
theorem silent_require (bit : ℕ) :
    Silent decoding (Ready base v) (require bit)
      (fun _ => Ready base ⟨v.message, v.required ||| 1 <<< bit⟩) (Failed allocator base) := by
  refine Silent.update (fun _ => rfl) fun s h => ⟨h.owned, h.fits, h.nested, ?_⟩
  rw [← h.view]
  rfl

/-- A change of the fields that appends to the array with room. -/
theorem silent_setFields_grown {f : ArrayField} {change : Fields → Fields}
    (hcount : ∀ node : Node, ({ node with fields := change node.fields } : Node).count f = node.count f + 1)
    (hothers : ∀ g, g ≠ f → ∀ node : Node,
      ({ node with fields := change node.fields } : Node).count g = node.count g) :
    Silent decoding (Grown base v f) (setFields change)
      (fun _ => Ready base ⟨{ v.message with fields := change v.message.fields }, v.required⟩)
      (Failed allocator base) := by
  refine Silent.update (fun _ => rfl) fun s h => ?_
  refine ⟨?_, fun g => ?_, h.nested, ?_⟩
  · have howned := h.owned
    rw [Owned, Node.blocks_eq] at howned ⊢
    exact howned
  · show s.message.Fits g _
    by_cases hg : g = f
    · obtain ⟨block, hblock, hallot⟩ := h.room
      rw [hg, hcount, Node.Fits, hblock]
      exact ⟨Nat.succ_pos _, hallot⟩
    · rw [hothers g hg]
      exact h.others g hg
  · rw [← h.view, Unpacking.view, Unpacking.view, Node.toMessage_eq, Node.toMessage_eq]

/-! ## Repeated fields -/

/-- Words appended in two parts. -/
theorem Fields.append_append (fields : Fields) (f : RepeatedField) (vs ws : List UInt32) :
    (fields.append f vs).append f ws = fields.append f (vs ++ ws) := by
  simp only [Fields.append, Function.update_self, Function.update_idem, List.append_assoc]

/-- Appending no word changes nothing. -/
theorem Fields.append_nil (fields : Fields) (f : RepeatedField) : fields.append f [] = fields := by
  simp only [Fields.append, List.append_nil, Function.update_eq_self]

/-- Elements one by one or together. -/
theorem View.apply_cons (v : View) (f : RepeatedField) (w : UInt32) (ws : List UInt32) :
    (v.apply (.single f w)).apply (.packed f ws) = v.apply (.packed f (w :: ws)) := by
  show View.mk { v.message with fields := (v.message.fields.append f [w]).append f ws } v.required = _
  rw [Fields.append_append]
  rfl

/-- Neither does an empty packed field. -/
theorem View.apply_nil (v : View) (f : RepeatedField) : v.apply (.packed f []) = v := by
  obtain ⟨⟨fields, requests⟩, required⟩ := v
  show View.mk ⟨fields.append f [], requests⟩ required = _
  rw [Fields.append_nil]

/-- **One element** of an array of words. -/
theorem implements_unpackElement (f : RepeatedField) :
    Implements decoding (Ready base v) (unpackElement allocator f) (readWord f.kind)
      (fun _ w s => Ready base (v.apply (.single f w)) s) (Failed allocator base) := by
  refine Implements.silent_bind (silent_grow (.words f)) fun _ => ?_
  refine (implements_read_grown (readWord f.kind)).then_silent fun w c => Silent.fact fun hw => ?_
  rw [← hw]
  refine (silent_access (.words f)).bind fun _ => silent_setFields_grown (fun node => ?_) fun g hg node => ?_
  · show (Function.update node.fields.repeated f (node.fields.repeated f ++ [w]) f).length = _
    rw [Function.update_self, List.length_append]
    rfl
  · cases g with
    | words g =>
      have hne : g ≠ f := fun h => hg (by rw [h])
      show (Function.update node.fields.repeated f (node.fields.repeated f ++ [w]) g).length = _
      rw [Function.update_of_ne hne]
      rfl
    | dictionary => rfl
    | requests => rfl

/-- **The loop over a packed array.** -/
theorem implements_unpackElements (f : RepeatedField) (stop fuel : ℕ) (v : View) :
    Implements decoding (Ready base v) (unpackElements allocator f stop fuel)
      (readWords f.kind stop fuel) (fun _ ws s => Ready base (v.apply (.packed f ws)) s)
      (Failed allocator base) := by
  have hdone (v : View) : Implements decoding (Ready base v) (pure () : Unpack Unit)
      (pure [] : Read (List UInt32)) (fun _ ws s => Ready base (v.apply (.packed f ws)) s)
      (Failed allocator base) := by
    intro s hs
    refine ⟨[], rfl, ?_⟩
    show Ready base (v.apply (.packed f [])) s
    rw [View.apply_nil]
    exact hs
  induction fuel generalizing v with
  | zero => exact hdone v
  | succ fuel ih =>
    refine Implements.get_bind fun s hs => Implements.ite (fun _ => ?_) fun _ => ?_
    · have helement := @implements_unpackElement allocator base v f
      refine Implements.weaken (P := Ready base v) ?_ (fun t ht => by rw [ht]; exact hs) (fun _ _ _ h => h)
        fun _ _ h => h
      refine helement.bind fun _ w => ?_
      rw [← map_eq_pure_bind]
      refine (ih (v.apply (.single f w))).map fun _ ws t h => ?_
      rwa [View.apply_cons] at h
    · exact (hdone v).weaken (fun t ht => by rw [ht]; exact hs) (fun _ _ _ h => h) fun _ _ h => h

/-- **A packed array.** -/
theorem implements_packed (nested : Block → Bytes → Unpack Node) (f : RepeatedField) :
    Implements decoding (Ready base v) (unpackField allocator nested (.packed f)) (readPacked f.kind)
      (fun _ ws s => Ready base (v.apply (.packed f ws)) s) (Failed allocator base) := by
  refine (implements_read_ready readInt32).bind fun t t' => ?_
  refine Implements.get_bind fun s hs => ?_
  obtain ⟨rfl, hready⟩ := hs
  have hfailed : Failed allocator base .wrongMessage s :=
    ⟨fun _ => hready.owned, by decide, fun h => by cases h⟩
  refine Implements.ite (fun _ => ?_) fun _ => ?_
  · refine Implements.bind (Q := fun _ _ _ => False)
      (Implements.throw (fun u hu => by rw [hu]; exact hfailed) rfl) fun _ _ _ h => h.elim
  · have helements := @implements_unpackElements allocator base f
      (s.buffer.length - t).toNat s.buffer.length v
    refine Implements.weaken (P := Ready base v) ?_ (fun u hu => by rw [hu]; exact hready)
      (fun _ _ _ h => h) fun _ _ h => h
    refine helements.bind fun _ ws => Implements.get_bind fun u hu => ?_
    have hfailed : Failed allocator base .wrongMessage u := ⟨fun _ => hu.owned, by decide, fun h => by cases h⟩
    refine Implements.ite (fun _ => ?_) fun _ => ?_
    · refine fun w hw => ⟨by rw [hw]; exact hfailed, fun r hr => ?_⟩
      cases hr
      rfl
    · refine fun w hw => ⟨ws, rfl, ?_⟩
      rw [hw]
      exact hu

/-! ## Nested messages -/

/-- A program that unpacks into an initialized message what `nested` decodes. -/
def Merges (allocator : Allocator) (merge : Unpack Unit) (nested : Bytes → Except ReadError Message) :
    Prop :=
  ∀ base s, Ready base ⟨Message.init, 0⟩ s →
    Ends (fun _ s' => nested s.buffer = .ok s'.message.toMessage ∧ ∃ v, Ready base v s')
      (fun e s' => Failed allocator base e s' ∧
        ∀ r, decoding.reason e = some r → nested s.buffer = .error r) (merge s)

/-- A new message has no elements, no arrays and no required field. -/
theorem ready_init (block : Block) (data : Bytes) (heap : Heap) (hlive : heap.live = base + {block}) :
    Ready base ⟨Message.init, 0⟩ ⟨data, 0, .init block, heap⟩ where
  owned := by
    rw [Owned, Node.blocks_init]
    exact hlive
  fits f := by
    cases f <;> rfl
  nested m hm := by cases hm
  view := by
    rw [Unpacking.view, Node.toMessage_eq]
    show View.mk ⟨.init, Node.toMessages []⟩ 0 = _
    rw [Node.toMessages]
    rfl

/-- **Unpacking into a new message**: the message owns its blocks, or everything is freed again. -/
theorem unpackInto_spec {merge : Unpack Unit} {nested : Bytes → Except ReadError Message}
    (hmerge : Merges allocator merge nested) (block : Block) (data : Bytes) (heap : Heap)
    (hlive : heap.live = base + {block}) :
    Ends (fun node heap' => nested data = .ok node.toMessage ∧ node.Tidy ∧ heap'.live = base + node.blocks)
      (fun e heap' => (e ≠ .undefined .badShift → heap'.live = base) ∧ e ≠ .undefined .badAccess ∧
        (e = .notEnoughMemory → allocator.MayFail) ∧
        ∀ r, decoding.reason e = some r → nested data = .error r)
      (unpackInto merge block data heap) := by
  have h := hmerge base _ (ready_init block data heap hlive)
  rw [unpackInto]
  cases hrun : merge ⟨data, 0, .init block, heap⟩ with
  | ok a s =>
    rw [hrun] at h
    obtain ⟨hnested, v, hready⟩ := h
    exact ⟨hnested, .intro hready.fits hready.nested, hready.owned⟩
  | error e s =>
    rw [hrun] at h
    obtain ⟨hfailed, hreason⟩ := h
    -- whatever the message owns by now is freed
    have hfree (he : e ≠ .undefined .badShift) :
        ∃ heap', freeUnpacked s.message s.heap = .ok () heap' ∧ heap'.live = base := by
      have hfrees := frees_freeUnpacked s.message base s.heap.calls s.heap ⟨hfailed.owned he, rfl⟩
      cases hrun : freeUnpacked s.message s.heap with
      | ok a heap' =>
        rw [hrun] at hfrees
        exact ⟨heap', rfl, hfrees.1⟩
      | error e heap' =>
        rw [hrun] at hfrees
        exact hfrees.elim
    cases e with
    | undefined u =>
      cases u with
      | badShift => exact ⟨fun h => absurd rfl h, by decide, hfailed.memory, hreason⟩
      | badAccess => exact absurd rfl hfailed.access
    | wrongMessage =>
      obtain ⟨heap', hrun, hbase⟩ := hfree (by decide)
      simp only [hrun]
      exact ⟨fun _ => hbase, by decide, hfailed.memory, hreason⟩
    | notEnoughMemory =>
      obtain ⟨heap', hrun, hbase⟩ := hfree (by decide)
      simp only [hrun]
      exact ⟨fun _ => hbase, by decide, fun _ => hfailed.memory rfl, hreason⟩

/-- An allocation adds a block to those that are not the message's. -/
theorem silent_allocate {f : ArrayField} (size : ℕ) :
    Silent decoding (Grown base v f) (onHeap (memoryAllocate allocator size))
      (fun ptr s => Grown (base + pointee ptr) v f s ∧ (ptr = none → allocator.MayFail))
      (Failed allocator base) := by
  intro l
  refine Contract.start fun s hs => ?_
  obtain ⟨hgrown, rfl⟩ := hs
  refine (contract_allocate size s).weaken (fun _ h => h) (fun ptr t ht => ?_) fun _ _ h => h
  obtain ⟨heap, rfl, hlive, -, hfail⟩ := ht
  have howned : s.heap.live = base + s.message.blocks := hgrown.owned
  refine ⟨⟨⟨?_, hgrown.room, hgrown.others, hgrown.nested, hgrown.view⟩, hfail⟩, rfl⟩
  show heap.live = base + pointee ptr + s.message.blocks
  rw [hlive, howned]
  abel

/-- **A nested message** is decoded as it would be alone, and its blocks are its own. -/
theorem implements_nested {merge : Unpack Unit} {nested : Bytes → Except ReadError Message}
    (hmerge : Merges allocator merge nested) (f : ArrayField) (block : Block) (body : Bytes) :
    Implements decoding (Grown (base + {block}) v f) (onHeap (unpackInto merge block body))
      (MonadExcept.ofExcept (nested body))
      (fun node m s => m = node.toMessage ∧ node.Tidy ∧ Grown (base + node.blocks) v f s)
      (Failed allocator base) := by
  intro s hs
  have howned : s.heap.live = base + {block} + s.message.blocks := hs.owned
  have hlive : s.heap.live = base + s.message.blocks + {block} := by
    rw [howned]
    abel
  have h := unpackInto_spec hmerge block body s.heap hlive
  rw [onHeap]
  cases hrun : unpackInto merge block body s.heap with
  | ok node heap =>
    rw [hrun] at h
    obtain ⟨hnested, htidy, hheap⟩ := h
    refine ⟨node.toMessage, ?_, rfl, htidy, ⟨?_, hs.room, hs.others, hs.nested, hs.view⟩⟩
    · rw [hnested]
      rfl
    · show heap.live = base + node.blocks + s.message.blocks
      rw [hheap]
      abel
  | error e heap =>
    rw [hrun] at h
    obtain ⟨hbase, haccess, hmemory, hreason⟩ := h
    refine ⟨⟨hbase, haccess, hmemory⟩, fun r hr => ?_⟩
    rw [hreason r hr]
    rfl

/-- Storing a nested message hands its blocks over. -/
theorem silent_addRequest {node : Node} (htidy : node.Tidy) :
    Silent decoding (Grown (base + node.blocks) v .requests)
      (modify fun s => { s with message := { s.message with requests := s.message.requests ++ [node] } })
      (fun _ => Ready base (v.apply (.request node.toMessage))) (Failed allocator base) := by
  refine Silent.update (fun _ => rfl) fun s h => ⟨?_, fun g => ?_, fun m hm => ?_, ?_⟩
  · have howned := h.owned
    rw [Owned, Node.blocks_eq s.message] at howned
    rw [Owned, Node.blocks_eq]
    show s.heap.live = base + ({s.message.block} + _ + Node.blocksAll (s.message.requests ++ [node]))
    rw [howned, Node.blocksAll_append, Node.blocksAll, Node.blocksAll]
    abel
  · by_cases hg : g = .requests
    · obtain ⟨block, hblock, hallot⟩ := h.room
      have harray : ({ s.message with requests := s.message.requests ++ [node] } : Node).arrays .requests =
          some block := hblock
      rw [hg, Node.Fits, harray, Node.count, List.length_append]
      exact ⟨Nat.succ_pos _, hallot⟩
    · have hcount : ({ s.message with requests := s.message.requests ++ [node] } : Node).count g =
          s.message.count g := by
        cases g with
        | words g => rfl
        | dictionary => rfl
        | requests => exact absurd rfl hg
      show s.message.Fits g _
      rw [hcount]
      exact h.others g hg
  · obtain hm | hm := List.mem_append.mp hm
    · exact h.nested m hm
    · rw [List.mem_singleton.mp hm]
      exact htidy
  · rw [← h.view, Unpacking.view, Unpacking.view, Node.toMessage_eq, Node.toMessage_eq]
    show View.mk ⟨s.message.fields, Node.toMessages (s.message.requests ++ [node])⟩ _ = _
    rw [Node.toMessages_append, Node.toMessages, Node.toMessages]
    rfl

/-! ## Fields and records -/

/-- The dictionary. -/
theorem implements_dictionary (nested : Block → Bytes → Unpack Node) :
    Implements decoding (Ready base v) (unpackField allocator nested .dictionary) readBlock
      (fun _ body s => Ready base (v.apply (.dictionary body)) s) (Failed allocator base) := by
  refine Implements.silent_bind (silent_grow .dictionary) fun _ => ?_
  refine (implements_read_grown readBlock).then_silent fun body c => Silent.fact fun hbody => ?_
  rw [← hbody]
  refine (silent_access .dictionary).bind fun _ => silent_setFields_grown (fun node => ?_) fun g hg node => ?_
  · show (node.fields.dictionary ++ [_]).length = _
    rw [List.length_append]
    rfl
  · cases g with
    | words g => rfl
    | dictionary => exact absurd rfl hg
    | requests => rfl

/-- The nested messages. -/
theorem implements_requests {merge : Unpack Unit} {nested : Bytes → Except ReadError Message}
    (hmerge : Merges allocator merge nested) :
    Implements decoding (Ready base v)
      (unpackField allocator (fun block body => onHeap (unpackInto merge block body)) .requests)
      (readValue nested .requests) (fun _ r s => Ready base (v.apply r) s) (Failed allocator base) := by
  refine Implements.silent_bind (silent_grow .requests) fun _ => ?_
  refine (implements_read_grown readBlock).bind fun body c s hs => ?_
  obtain ⟨rfl, hgrown⟩ := hs
  refine Implements.silent_bind (silent_allocate 1) (fun ptr => ?_) s hgrown
  cases ptr with
  | none =>
    refine Implements.fail (fun t ht => ?_) rfl
    have howned : Owned (base + 0) t := ht.1.owned
    rw [add_zero] at howned
    exact ⟨fun _ => howned, by decide, fun _ => ht.2 rfl⟩
  | some block =>
    refine Implements.map (Q := fun _ m s => Ready base (v.apply (.request m)) s) ?_ fun _ _ _ h => h
    refine Implements.weaken (P := Grown (base + {block}) v .requests) ?_ (fun t ht => ht.1)
      (fun _ _ _ h => h) fun _ _ h => h
    refine (implements_nested hmerge .requests block body).then_silent fun node m => ?_
    refine Silent.fact fun hm => Silent.fact fun htidy => ?_
    rw [hm]
    exact (silent_access .requests).bind fun _ => silent_addRequest htidy

/-- **The code after a `case` label** decodes the value of the field and stores it. -/
theorem implements_unpackField {merge : Unpack Unit} {nested : Bytes → Except ReadError Message}
    (hmerge : Merges allocator merge nested) (f : Field) :
    Implements decoding (Ready base v)
      (unpackField allocator (fun block body => onHeap (unpackInto merge block body)) f)
      (readValue nested f) (fun _ r s => Ready base (v.apply r) s) (Failed allocator base) := by
  cases f with
  | string f =>
    refine Implements.map (Q := fun _ bytes s => Ready base (v.apply (.string f bytes)) s) ?_
      fun _ _ _ h => h
    refine (implements_read_ready readBlock).then_silent fun bytes c => Silent.fact fun hbytes => ?_
    rw [← hbytes]
    refine (silent_setFields (fun fields => fields.setString f bytes) (fun _ => rfl) fun _ => rfl).bind
      fun _ => ?_
    cases f with
    | hostname => exact silent_require 0
    | serverName => exact silent_require 1
    | scriptName => exact silent_require 2
    | schema => exact Silent.pure fun _ h => h
  | number f =>
    refine Implements.map (Q := fun _ w s => Ready base (v.apply (.number f w)) s) ?_ fun _ _ _ h => h
    refine (implements_read_ready (readWord f.kind)).then_silent fun w c => Silent.fact fun hw => ?_
    rw [← hw]
    exact (silent_setFields (fun fields => fields.setNumber f w) (fun _ => rfl) fun _ => rfl).bind
      fun _ => silent_require f.bit
  | optional f =>
    refine Implements.map (Q := fun _ w s => Ready base (v.apply (.optional f w)) s) ?_ fun _ _ _ h => h
    refine (implements_read_ready readUint32).then_silent fun w c => Silent.fact fun hw => ?_
    rw [← hw]
    exact silent_setFields (fun fields => fields.setOptional f w) (fun _ => rfl) fun _ => rfl
  | single f => exact (implements_unpackElement f).map fun _ _ _ h => h
  | packed f => exact (implements_packed _ f).map fun _ _ _ h => h
  | dictionary => exact (implements_dictionary _).map fun _ _ _ h => h
  | requests => exact implements_requests hmerge

/-- **One pass through the loop** decodes one record. -/
theorem unpackRecord_spec {merge : Unpack Unit} {nested : Bytes → Except ReadError Message}
    (hmerge : Merges allocator merge nested) {first : UInt8} {buffer : Bytes} {s : Unpacking}
    (hs : Ready base v s) (hbuffer : s.buffer = first :: buffer) :
    Ends (fun _ s' => ∃ r, readRecord nested first buffer = .ok (r, s'.buffer) ∧ Ready base (v.apply r) s')
      (fun e s' => Failed allocator base e s' ∧
        ∀ r, decoding.reason e = some r → readRecord nested first buffer = .error r)
      (unpackRecord allocator merge first buffer s) := by
  rw [unpackRecord, readRecord]
  cases hswitch : switch first buffer with
  | field f rest =>
    exact implements_unpackField hmerge f { s with buffer := rest } ⟨hs.owned, hs.fits, hs.nested, hs.view⟩
  | skip b =>
    obtain ⟨rfl, -⟩ := (switch_eq_skip_iff first b buffer).mp hswitch
    have hskip : Implements decoding (Ready base v) (read (skipField b))
        ((fun _ => Record.unknown) <$> skipField b) (fun _ r s => Ready base (v.apply r) s)
        (Failed allocator base) :=
      (implements_read_ready (skipField b)).map fun _ _ _ h => h.2
    have h := hskip s hs
    have hinput : decoding.input s = b :: buffer := hbuffer
    rw [hinput] at h
    exact h
  | wrong =>
    refine ⟨⟨fun _ => hs.owned, by decide, fun h => by cases h⟩, fun r hr => ?_⟩
    cases hr
    rfl

/-- The end of the loop. -/
theorem finish_spec {s : Unpacking} (hs : Ready base v s) :
    Ends (fun _ s' => v.required = 0x1ff ∧ s' = s)
      (fun e s' => Failed allocator base e s' ∧ e = .wrongMessage ∧ v.required ≠ 0x1ff) (finish s) := by
  have hrequired : s.required = v.required := by
    rw [← hs.view]
    rfl
  show Ends _ _ ((if s.required ≠ 0x1ff then throw .wrongMessage else pure () : Unpack Unit) s)
  rw [hrequired]
  by_cases h : v.required = 0x1ff
  · rw [if_neg (not_not.mpr h)]
    exact ⟨h, rfl⟩
  · rw [if_pos h]
    exact ⟨⟨fun _ => hs.owned, by decide, fun h => by cases h⟩, rfl, h⟩

/-- What the records of a packet come to, after those that make up `v`. -/
def View.complete (v : View) (rs : List Record) : Except ReadError (List Record) :=
  if (rs.foldl View.apply v).required = 0x1ff then .ok rs else .error .null

/-- Reading succeeds when the required fields are there at the end. -/
theorem View.bind_complete_eq_ok_iff {v : View} {x : Except ReadError (List Record)} {rs : List Record} :
    x >>= v.complete = .ok rs ↔ x = .ok rs ∧ (rs.foldl View.apply v).required = 0x1ff := by
  cases x with
  | error e => exact iff_of_false (fun h => by cases h) fun h => by cases h.1
  | ok ss =>
    show v.complete ss = .ok rs ↔ _
    rw [View.complete]
    by_cases h : (ss.foldl View.apply v).required = 0x1ff
    · rw [if_pos h]
      constructor
      · intro hok
        cases hok
        exact ⟨rfl, h⟩
      · rintro ⟨hok, -⟩
        exact hok
    · rw [if_neg h]
      refine iff_of_false (fun hok => by cases hok) ?_
      rintro ⟨hok, hrequired⟩
      cases hok
      exact h hrequired

/-- The same errors as for the message that the records make. -/
theorem View.bind_ofRecords_of_error {x : Except ReadError (List Record)} {e : ReadError}
    (h : x >>= (⟨Message.init, 0⟩ : View).complete = .error e) : x >>= ofRecords = .error e := by
  cases x with
  | error e' =>
    cases h
    rfl
  | ok rs =>
    change View.complete ⟨Message.init, 0⟩ rs = .error e at h
    show ofRecords rs = .error e
    rw [View.complete] at h
    rw [ofRecords]
    by_cases hcomplete : Complete rs
    · rw [if_pos ((required_eq_iff rs _).mpr hcomplete)] at h
      cases h
    · rw [if_neg (mt (required_eq_iff rs _).mp hcomplete)] at h
      rw [if_neg hcomplete]
      cases h
      rfl

/-- One more record in front. -/
theorem View.complete_cons {v : View} {r : Record} {x : Except ReadError (List Record)} :
    (x >>= fun rs => pure (r :: rs)) >>= v.complete = (x >>= (v.apply r).complete) >>= fun rs => pure (r :: rs) := by
  cases x with
  | error e => rfl
  | ok rs =>
    show v.complete (r :: rs) = (v.apply r).complete rs >>= fun rs => pure (r :: rs)
    rw [View.complete, View.complete, List.foldl_cons]
    split_ifs
    · rfl
    · rfl

/-- A program that decodes the rest of a packet, whatever came before. -/
def MergesRecords (allocator : Allocator) (merge : Unpack Unit)
    (records : Bytes → Except ReadError (List Record)) : Prop :=
  ∀ base v s, Ready base v s →
    Ends (fun _ s' => ∃ rs, records s.buffer >>= v.complete = .ok rs ∧
        Ready base (rs.foldl View.apply v) s')
      (fun e s' => Failed allocator base e s' ∧
        ∀ r, decoding.reason e = some r → records s.buffer >>= v.complete = .error r) (merge s)

/-- Such a program decodes messages. -/
theorem MergesRecords.merges {merge : Unpack Unit} {records : Bytes → Except ReadError (List Record)}
    (h : MergesRecords allocator merge records) :
    Merges allocator merge fun body => records body >>= ofRecords := by
  intro base s hs
  refine (h base _ s hs).weaken (fun _ s' h => ?_) fun e s' h =>
    ⟨h.1, fun r hr => View.bind_ofRecords_of_error (h.2 r hr)⟩
  obtain ⟨rs, hok, hready⟩ := h
  obtain ⟨hrs, hrequired⟩ := View.bind_complete_eq_ok_iff.mp hok
  have hmessage : s'.message.toMessage = Message.init.applyAll rs := by
    rw [← message_foldl_apply rs ⟨Message.init, 0⟩, ← hready.view]
    rfl
  exact ⟨bind_ofRecords_eq_ok_iff.mpr ⟨rs, hrs, (required_eq_iff rs Message.init).mp hrequired, hmessage⟩,
    _, hready⟩

/-- At the end of the buffer, the message is returned when its required fields are there. -/
theorem mergesRecords_finish {fuel : ℕ} {s : Unpacking} (hs : Ready base v s) :
    Ends (fun _ s' => ∃ rs, readRecords fuel [] >>= v.complete = .ok rs ∧
        Ready base (rs.foldl View.apply v) s')
      (fun e s' => Failed allocator base e s' ∧
        ∀ r, decoding.reason e = some r → readRecords fuel [] >>= v.complete = .error r) (finish s) := by
  have hnil : readRecords fuel [] >>= v.complete = v.complete [] := by
    rw [readRecords]
    rfl
  rw [hnil]
  refine (@finish_spec allocator base v s hs).weaken (fun _ s' h => ?_) fun e s' h => ?_
  · obtain ⟨hrequired, rfl⟩ := h
    exact ⟨[], if_pos hrequired, hs⟩
  · obtain ⟨hfailed, rfl, hrequired⟩ := h
    refine ⟨hfailed, fun r hr => ?_⟩
    cases hr
    exact if_neg hrequired

/-- Looking at the local variables changes nothing. -/
theorem run_get (s : Unpacking) : (MonadState.get : Unpack Unpacking) s = .ok s s := rfl

/-- At the end of its buffer, `unpack_merge` has its message. -/
theorem unpackMerge_nil (fuel : ℕ) {s : Unpacking} (h : s.buffer = []) :
    unpackMerge allocator fuel s = finish s := by
  cases fuel with
  | zero => rw [unpackMerge, bind_of_ok (run_get s), h]
  | succ fuel => rw [unpackMerge, bind_of_ok (run_get s), h]

/-- A pass of `unpack_merge`. -/
theorem unpackMerge_succ_cons (fuel : ℕ) {s : Unpacking} {first : UInt8} {buffer : Bytes}
    (h : s.buffer = first :: buffer) :
    unpackMerge allocator (fuel + 1) s =
      (unpackRecord allocator (unpackMerge allocator fuel) first buffer >>= fun _ =>
        unpackMerge allocator fuel) s := by
  rw [unpackMerge, bind_of_ok (run_get s), h]

/-- Without fuel, `unpack_merge` has no pass. -/
theorem unpackMerge_zero_cons {s : Unpacking} {first : UInt8} {buffer : Bytes}
    (h : s.buffer = first :: buffer) :
    unpackMerge allocator 0 s = .error .wrongMessage s := by
  rw [unpackMerge, bind_of_ok (run_get s), h]
  rfl

/-- **`unpack_merge` decodes the records of a packet.** -/
theorem mergesRecords_unpackMerge (fuel : ℕ) :
    MergesRecords allocator (unpackMerge allocator fuel) (readRecords fuel) := by
  induction fuel with
  | zero =>
    intro base v s hs
    cases hbuffer : s.buffer with
    | nil =>
      rw [unpackMerge_nil 0 hbuffer]
      exact mergesRecords_finish hs
    | cons first buffer =>
      rw [unpackMerge_zero_cons hbuffer]
      refine ⟨⟨fun _ => hs.owned, by decide, fun h => by cases h⟩, fun r hr => ?_⟩
      cases hr
      rfl
  | succ fuel ih =>
    intro base v s hs
    cases hbuffer : s.buffer with
    | nil =>
      rw [unpackMerge_nil (fuel + 1) hbuffer]
      exact mergesRecords_finish hs
    | cons first buffer =>
      rw [unpackMerge_succ_cons fuel hbuffer]
      -- the calls on nested messages have one pass less
      have hrecord := unpackRecord_spec ih.merges hs hbuffer
      cases hrun : unpackRecord allocator (unpackMerge allocator fuel) first buffer s with
      | error e t =>
        rw [hrun] at hrecord
        rw [bind_of_error hrun]
        refine ⟨hrecord.1, fun r hr => ?_⟩
        rw [readRecords_of_error (hrecord.2 r hr)]
        rfl
      | ok a t =>
        rw [hrun] at hrecord
        obtain ⟨r, hr, hready⟩ := hrecord
        rw [bind_of_ok hrun, readRecords_of_ok hr, View.complete_cons]
        refine (ih base (v.apply r) t hready).weaken (fun _ s' h => ?_) fun e s' h =>
          ⟨h.1, fun e' he => by rw [h.2 e' he]; rfl⟩
        obtain ⟨rs, hrs, hend⟩ := h
        refine ⟨r :: rs, ?_, hend⟩
        rw [hrs]
        rfl

/-! ## Whole packets -/

/-- How `unpack` ends on a packet: it returns the message that the packet spells, which owns the blocks
that are new; or it returns `NULL` and leaves the heap as it was; or it shifts a word out of itself. -/
inductive Unpacked (allocator : Allocator) (data : Bytes) (heap : Heap) :
    EStateM.Result Stop Heap (Option Node) → Prop
  | message {node : Node} {heap' : Heap} (spells : SpellsMessage node.toMessage data) (tidy : node.Tidy)
      (live : heap'.live = heap.live + node.blocks) : Unpacked allocator data heap (.ok (some node) heap')
  | refused {heap' : Heap} (live : heap'.live = heap.live) (memory : allocator.MayFail) :
      Unpacked allocator data heap (.ok none heap')
  | wrong {heap' : Heap} (live : heap'.live = heap.live) (h : readMessage data = .error .null) :
      Unpacked allocator data heap (.ok none heap')
  | shift {heap' : Heap} (h : readMessage data = .error .badShift) :
      Unpacked allocator data heap (.error (.undefined .badShift) heap')

/-- **What `unpack` does**, on any packet and with any allocator. -/
theorem unpacked (allocator : Allocator) (data : Bytes) (heap : Heap) :
    Unpacked allocator data heap (unpack allocator data heap) := by
  rw [unpack]
  obtain ⟨block, heap₁, halloc, -, hlive⟩ | ⟨heap₁, halloc, hlive, hfail⟩ :=
    memoryAllocate_cases allocator 1 heap
  · rw [bind_of_ok halloc]
    have h := unpackInto_spec (@mergesRecords_unpackMerge allocator data.length).merges block data
      heap₁ hlive
    dsimp only
    cases hrun : unpackInto (unpackMerge allocator data.length) block data heap₁ with
    | ok node heap' =>
      rw [hrun] at h
      obtain ⟨hmessage, htidy, hheap⟩ := h
      exact .message ((readMessage_eq_ok_iff data _).mp hmessage) htidy hheap
    | error e heap' =>
      rw [hrun] at h
      obtain ⟨hbase, haccess, hmemory, hreason⟩ := h
      cases e with
      | wrongMessage => exact .wrong (hbase (by decide)) (hreason .null rfl)
      | notEnoughMemory => exact .refused (hbase (by decide)) (hmemory rfl)
      | undefined u =>
        cases u with
        | badShift => exact .shift (hreason .badShift rfl)
        | badAccess => exact absurd rfl haccess
  · rw [bind_of_ok halloc]
    exact .refused hlive hfail

end Tinypinba
