import Tinypinba.Unpack

/-! # The memory of messages

Which blocks a message owns, and how large its arrays are. `Node.blocks` collects the blocks of a
message and of the messages nested in it; `free_unpacked` frees exactly these. `Node.Tidy` says that an
array is `NULL` exactly when it is empty and otherwise has room for its elements, which is what `grow`
relies on and keeps. -/

namespace Tinypinba

/-- The block that a pointer points to. -/
def pointee (ptr : Option Block) : Multiset Block := (ptr.toList : Multiset Block)

@[simp] theorem pointee_none : pointee none = 0 := rfl

@[simp] theorem pointee_some (block : Block) : pointee (some block) = {block} := rfl

mutual

/-- The blocks of a message and of the messages nested in it. -/
def Node.blocks : Node → Multiset Block
  | ⟨block, _, arrays, requests⟩ => {block} + ∑ f, pointee (arrays f) + Node.blocksAll requests

/-- The blocks of several messages. -/
def Node.blocksAll : List Node → Multiset Block
  | [] => 0
  | node :: nodes => node.blocks + Node.blocksAll nodes

end

/-- The blocks of a message: its own, its arrays and those of its nested messages. -/
theorem Node.blocks_eq (node : Node) :
    node.blocks = {node.block} + ∑ f, pointee (node.arrays f) + Node.blocksAll node.requests := by
  cases node
  rw [Node.blocks]

@[simp] theorem Node.blocks_init (block : Block) : (Node.init block).blocks = {block} := by
  rw [Node.blocks_eq]
  show {block} + ∑ f : ArrayField, pointee none + Node.blocksAll [] = {block}
  rw [Node.blocksAll, pointee_none, Finset.sum_const_zero, add_zero, add_zero]

/-- The blocks of two lists of messages. -/
theorem Node.blocksAll_append (nodes more : List Node) :
    Node.blocksAll (nodes ++ more) = Node.blocksAll nodes + Node.blocksAll more := by
  induction nodes with
  | nil => rw [List.nil_append, Node.blocksAll, zero_add]
  | cons node nodes ih => rw [List.cons_append, Node.blocksAll, Node.blocksAll, ih, add_assoc]

/-- Assigning to a pointer exchanges its block. -/
theorem Node.blocks_setArray (node : Node) (f : ArrayField) (ptr : Option Block) :
    (node.setArray f ptr).blocks + pointee (node.arrays f) = node.blocks + pointee ptr := by
  have hnew : ∑ g, pointee (Function.update node.arrays f ptr g) =
      pointee ptr + ∑ g ∈ Finset.univ.erase f, pointee (node.arrays g) := by
    rw [← Finset.add_sum_erase _ _ (Finset.mem_univ f), Function.update_self]
    congr 1
    refine Finset.sum_congr rfl fun g hg => ?_
    rw [Function.update_of_ne (Finset.ne_of_mem_erase hg)]
  have hold : ∑ g, pointee (node.arrays g) =
      pointee (node.arrays f) + ∑ g ∈ Finset.univ.erase f, pointee (node.arrays g) :=
    (Finset.add_sum_erase _ _ (Finset.mem_univ f)).symm
  rw [Node.blocks_eq, Node.blocks_eq]
  show {node.block} + ∑ g, pointee (Function.update node.arrays f ptr g) + Node.blocksAll node.requests +
    pointee (node.arrays f) = _
  rw [hnew, hold]
  abel

/-! ## Freeing -/

/-- A program that frees these blocks, whatever else is allocated, and nothing more. -/
def Frees (m : Memory Unit) (blocks : Multiset Block) : Prop :=
  ∀ base calls, Contract (fun heap => heap.live = base + blocks ∧ heap.calls = calls) m
    (fun _ heap => heap.live = base ∧ heap.calls = calls) fun _ _ => False

/-- The blocks may be described in another way. -/
theorem Frees.congr {m : Memory Unit} {a b : Multiset Block} (h : Frees m a) (hab : a = b) : Frees m b :=
  hab ▸ h

/-- Doing nothing frees nothing. -/
theorem frees_pure : Frees (pure ()) 0 :=
  fun base _ => .pure fun _ h => ⟨h.1.trans (add_zero base), h.2⟩

/-- One after the other, two parts free the blocks of both. -/
theorem Frees.bind {m n : Memory Unit} {a b : Multiset Block} (hm : Frees m a) (hn : Frees n b) :
    Frees (do m; n) (a + b) := by
  intro base calls
  refine Contract.bind (Q := fun _ heap => heap.live = base + b ∧ heap.calls = calls) ?_
    fun _ => hn base calls
  refine (hm (base + b) calls).weaken (fun heap h => ⟨?_, h.2⟩) (fun _ _ h => h) fun _ _ h => h
  rw [h.1]
  abel

/-- `free` frees what its argument points to, and nothing for `NULL`. -/
theorem frees_memoryFree (ptr : Option Block) : Frees (memoryFree ptr) (pointee ptr) := by
  intro base calls heap h
  cases ptr with
  | none => exact ⟨h.1.trans (add_zero base), h.2⟩
  | some block =>
    have hmem : block ∈ heap.live := by
      rw [h.1]
      exact Multiset.mem_add.mpr (.inr (Multiset.mem_singleton_self block))
    rw [memoryFree, if_pos hmem]
    refine ⟨?_, h.2⟩
    show heap.live.erase block = base
    rw [h.1, pointee_some, add_comm, Multiset.singleton_add, Multiset.erase_cons_head]

/-- A sum over the arrays, taken in the order in which they are freed. -/
theorem sum_arrays (g : ArrayField → Multiset Block) : ∑ f, g f = (ArrayField.all.map g).sum :=
  List.sum_toFinset g (by decide)

mutual

/-- **`free_unpacked` frees the blocks of a message**, each of them once. -/
theorem frees_freeUnpacked : ∀ node, Frees (freeUnpacked node) node.blocks
  | ⟨block, fields, arrays, requests⟩ => by
    have hnested := frees_freeNested requests
    have hfree (f : ArrayField) := frees_memoryFree (arrays f)
    rw [freeUnpacked, Node.blocks, sum_arrays]
    refine ((hfree _).bind <| (hfree _).bind <| (hfree _).bind <| (hfree _).bind <| (hfree _).bind <|
      (hfree _).bind <| hnested.bind <| (hfree _).bind <| (hfree _).bind <| (hfree _).bind <|
      (hfree _).bind <| (hfree _).bind <| frees_memoryFree (some block)).congr ?_
    simp only [ArrayField.all, List.map_cons, List.map_nil, List.sum_cons, List.sum_nil, pointee_some]
    abel

/-- The nested messages are freed one after the other. -/
theorem frees_freeNested : ∀ nodes, Frees (freeNested nodes) (Node.blocksAll nodes)
  | [] => by
    rw [freeNested, Node.blocksAll]
    exact frees_pure
  | node :: nodes => by
    rw [freeNested, Node.blocksAll]
    exact (frees_freeUnpacked node).bind (frees_freeNested nodes)

end

/-! ## Room -/

/-- A size that `grow` gives an array of `n` elements: a power of two from eight on, and no larger than
it must be. -/
def Allotted (n size : ℕ) : Prop := n ≤ size ∧ (∃ k, size = 8 * 2 ^ k) ∧ (8 < size → size < 2 * n)

/-- The first allocation. -/
theorem allotted_one : Allotted 1 8 :=
  ⟨by decide, ⟨0, rfl⟩, fun h => absurd h (by decide)⟩

/-- The test of `grow`. -/
theorem and_eq_zero_iff {n : ℕ} (h : n ≠ 0) : (n - 1) &&& n = 0 ↔ n.isPowerOfTwo := by
  rw [Nat.and_comm]
  exact Nat.and_sub_one_eq_zero_iff_isPowerOfTwo h

/-- An array of `n ≥ 8` elements with `n` a power of two is full. -/
theorem Allotted.full {n size : ℕ} (h : Allotted n size) (hpow : n.isPowerOfTwo) (h8 : 8 ≤ n) :
    size = n := by
  obtain ⟨hle, ⟨k, rfl⟩, hlt⟩ := h
  obtain ⟨m, rfl⟩ := hpow
  have hsize : 8 * 2 ^ k = 2 ^ (k + 3) := by
    rw [pow_add]
    ring
  rw [hsize] at hle hlt ⊢
  have hmk : m ≤ k + 3 := (Nat.pow_le_pow_iff_right (by decide)).mp hle
  by_cases hk : 8 < 2 ^ (k + 3)
  · have hdouble : 2 ^ (k + 3) < 2 ^ (m + 1) := by
      rw [pow_succ 2 m]
      have := hlt hk
      omega
    have hkm := (Nat.pow_lt_pow_iff_right (by decide)).mp hdouble
    have heq : m = k + 3 := by omega
    rw [heq]
  · omega

/-- A full array is doubled. -/
theorem Allotted.double {n size : ℕ} (h : Allotted n size) (hpow : n.isPowerOfTwo) (h8 : 8 ≤ n) :
    Allotted (n + 1) (2 * n) := by
  have hfull := h.full hpow h8
  obtain ⟨hle, ⟨k, hk⟩, -⟩ := h
  refine ⟨by omega, ⟨k + 1, ?_⟩, fun _ => by omega⟩
  rw [pow_succ]
  omega

/-- Otherwise there is room for one more. -/
theorem Allotted.room {n size : ℕ} (h : Allotted n size) (hroom : n.isPowerOfTwo → n < 8) :
    Allotted (n + 1) size := by
  obtain ⟨hle, ⟨k, hk⟩, hlt⟩ := h
  have hpos : 0 < 2 ^ k := Nat.two_pow_pos k
  have hne : n ≠ size := by
    intro heq
    have hpow : n.isPowerOfTwo := ⟨k + 3, by rw [heq, hk, pow_add]; ring⟩
    have h8 := hroom hpow
    omega
  exact ⟨by omega, ⟨k, hk⟩, fun h8 => by have := hlt h8; omega⟩

/-- An array of `n` elements is `NULL` when it is empty and has room for them otherwise. -/
def Node.Fits (node : Node) (f : ArrayField) (n : ℕ) : Prop :=
  match node.arrays f with
  | none => n = 0
  | some block => 0 < n ∧ Allotted n block.size

/-- A message whose arrays, and those of the messages nested in it, have room for their elements. -/
inductive Node.Tidy : Node → Prop
  | intro {node : Node} (fits : ∀ f, node.Fits f (node.count f))
      (nested : ∀ m ∈ node.requests, m.Tidy) : Tidy node

/-- The pointer of an array that is not empty is not `NULL`. -/
theorem Node.Fits.isSome {node : Node} {f : ArrayField} {n : ℕ} (h : node.Fits f n) :
    n = 0 ∨ (node.arrays f).isSome := by
  rw [Node.Fits] at h
  split at h
  case h_1 => exact .inl h
  case h_2 block hptr => exact .inr (by rw [hptr]; rfl)

mutual

/-- **A tidy message passes `check`.** -/
theorem check_of_tidy : ∀ node : Node, node.Tidy → check node = true
  | ⟨block, fields, arrays, requests⟩, h => by
    cases h with
    | intro fits nested =>
      have hnested := checkNested_of_tidy requests nested
      have hpresent (f : ArrayField) := (fits f).isSome
      simp only [check, Bool.and_eq_true, Bool.or_eq_true, decide_eq_true_eq, hnested, hpresent, and_self]

/-- So do the messages nested in it. -/
theorem checkNested_of_tidy : ∀ nodes : List Node, (∀ m ∈ nodes, m.Tidy) → checkNested nodes = true
  | [], _ => by
    rw [checkNested]
  | node :: nodes, h => by
    have hnode := check_of_tidy node (h node List.mem_cons_self)
    have hnodes := checkNested_of_tidy nodes fun m hm => h m (List.mem_cons_of_mem _ hm)
    rw [checkNested, hnode, hnodes]
    rfl

end

end Tinypinba
