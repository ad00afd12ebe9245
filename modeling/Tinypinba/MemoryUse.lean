import Tinypinba.Packets

/-! # How much memory a packet takes

A packet is short, but its arrays are allocated eight elements at a time and doubled, and it may nest
messages that have arrays of their own. The memory of the message that `unpack` returns is still linear
in the length of the packet: every element and every nested message has bytes of its own. -/

namespace Tinypinba

/-! ## Messages -/

/-- The number of elements of an array. -/
def Message.count (message : Message) : ArrayField → ℕ
  | .words f => (message.fields.repeated f).length
  | .dictionary => message.fields.dictionary.length
  | .requests => message.requests.length

/-- The number of elements that a record appends to an array. -/
def Record.adds (r : Record) : ArrayField → ℕ
  | .words f => (r.words f).length
  | .dictionary => r.entries.length
  | .requests => r.nested.length

/-- A record adds its elements to the arrays. -/
theorem count_apply (message : Message) (r : Record) (f : ArrayField) :
    (message.apply r).count f = message.count f + r.adds f := by
  cases f with
  | words f =>
    show ((message.apply r).fields.repeated f).length = _
    rw [repeated_apply, List.length_append]
    rfl
  | dictionary =>
    show (message.apply r).fields.dictionary.length = _
    rw [dictionary_apply, List.length_append]
    rfl
  | requests =>
    show (message.apply r).requests.length = _
    rw [requests_apply, List.length_append]
    rfl

mutual

/-- The elements of a message and of the messages nested in it, these counted themselves as well. -/
def Message.weight : Message → ℕ
  | message@⟨_, requests⟩ => ∑ f, message.count f + Message.weightAll requests

/-- The weight of nested messages. -/
def Message.weightAll : List Message → ℕ
  | [] => 0
  | message :: messages => 1 + message.weight + Message.weightAll messages

end

/-- The weight of a message: its own elements and those of its nested messages. -/
theorem weight_eq (message : Message) :
    message.weight = ∑ f, message.count f + Message.weightAll message.requests := by
  cases message
  rw [Message.weight]

/-- The weight of two lists of messages. -/
theorem weightAll_append (messages more : List Message) :
    Message.weightAll (messages ++ more) = Message.weightAll messages + Message.weightAll more := by
  induction messages with
  | nil => rw [List.nil_append, Message.weightAll, Nat.zero_add]
  | cons message messages ih =>
    rw [List.cons_append, Message.weightAll, Message.weightAll, ih]
    omega

/-- What a record adds to the weight of a message. -/
def Record.weight (r : Record) : ℕ := ∑ f, r.adds f + Message.weightAll r.nested

/-- A record adds its weight. -/
theorem weight_apply (message : Message) (r : Record) :
    (message.apply r).weight = message.weight + r.weight := by
  have hsum : ∑ f, (message.apply r).count f = ∑ f, message.count f + ∑ f, r.adds f := by
    rw [← Finset.sum_add_distrib]
    exact Finset.sum_congr rfl fun f _ => count_apply message r f
  rw [weight_eq, weight_eq message, Record.weight, hsum, requests_apply, weightAll_append]
  omega

/-- A message without records weighs nothing. -/
theorem weight_init : Message.init.weight = 0 := by
  have hcount (f : ArrayField) : Message.init.count f = 0 := by
    cases f <;> rfl
  have hnested : Message.init.requests = [] := rfl
  rw [weight_eq, Finset.sum_eq_zero fun f _ => hcount f, hnested, Message.weightAll]

/-- A record that appends to one array weighs what it appends. -/
theorem Record.weight_of_adds {r : Record} (f : ArrayField) (h : ∀ g, g ≠ f → r.adds g = 0) :
    r.weight = r.adds f + Message.weightAll r.nested := by
  rw [weight, Finset.sum_eq_single f (fun g _ hg => h g hg) fun hf => absurd (Finset.mem_univ f) hf]

/-- A word takes at least one byte. -/
theorem SpellsWords.length_le {kind : WordKind} {vs : List UInt32} {bytes : Bytes}
    (h : SpellsWords kind vs bytes) : vs.length ≤ bytes.length := by
  induction h with
  | nil => exact Nat.le_refl 0
  | cons h _ ih =>
    have hpos := h.length_pos
    rw [List.length_cons, List.length_append]
    omega

/-- **A record weighs no more than its bytes**, if the messages in it do not. -/
theorem SpellsRecord.weight_le {Body : Message → Bytes → Prop} {r : Record} {bytes : Bytes}
    (h : SpellsRecord Body r bytes)
    (hbody : ∀ message body, body.length < bytes.length → Body message body →
      message.weight ≤ body.length) : r.weight ≤ bytes.length := by
  have hlight {r : Record} (hadds : ∀ f, r.adds f = 0) (hnested : r.nested = []) : r.weight = 0 := by
    rw [Record.weight, Finset.sum_eq_zero fun f _ => hadds f, hnested, Message.weightAll]
  cases h with
  | unknown =>
    have hzero : Record.unknown.weight = 0 := hlight (fun f => by cases f <;> rfl) rfl
    omega
  | @known f _ value h =>
    have htag := f.tag_length_pos
    rw [List.length_append] at hbody ⊢
    cases h with
    | string h =>
      rw [hlight (fun f => by cases f <;> rfl) rfl]
      omega
    | number h =>
      rw [hlight (fun f => by cases f <;> rfl) rfl]
      omega
    | optional h =>
      rw [hlight (fun f => by cases f <;> rfl) rfl]
      omega
    | @single f v _ h =>
      have hwords : (Record.single f v).adds (.words f) = 1 := by
        show (if f = f then [v] else []).length = 1
        rw [if_pos rfl]
        rfl
      rw [Record.weight_of_adds (.words f), hwords]
      · show 1 + Message.weightAll [] ≤ _
        rw [Message.weightAll]
        omega
      · intro g hg
        cases g with
        | words g =>
          show (if f = g then [v] else []).length = 0
          rw [if_neg fun h => hg (by rw [h])]
          rfl
        | dictionary => rfl
        | requests => rfl
    | @packed f vs _ h =>
      obtain ⟨t, front, body, -, -, hvs, rfl⟩ := h
      have hlength := hvs.length_le
      have hwords : (Record.packed f vs).adds (.words f) = vs.length := by
        show (if f = f then vs else []).length = vs.length
        rw [if_pos rfl]
      rw [Record.weight_of_adds (.words f), hwords, List.length_append]
      · show vs.length + Message.weightAll [] ≤ _
        rw [Message.weightAll]
        omega
      · intro g hg
        cases g with
        | words g =>
          show (if f = g then vs else []).length = 0
          rw [if_neg fun h => hg (by rw [h])]
          rfl
        | dictionary => rfl
        | requests => rfl
    | dictionary h =>
      rw [Record.weight_of_adds .dictionary]
      · show 1 + Message.weightAll [] ≤ _
        rw [Message.weightAll]
        omega
      · intro g hg
        cases g with
        | words g => rfl
        | dictionary => exact absurd rfl hg
        | requests => rfl
    | @request nested body _ h hnested =>
      have hlt := h.length_lt
      have hweight := hbody nested body (by omega) hnested
      rw [Record.weight_of_adds .requests]
      · show 1 + Message.weightAll [nested] ≤ _
        rw [Message.weightAll, Message.weightAll]
        have htwo : Field.requests.tag.length = 2 := rfl
        omega
      · intro g hg
        cases g with
        | words g => rfl
        | dictionary => rfl
        | requests => exact absurd rfl hg

/-- **A message weighs no more than the bytes that spell it.** -/
theorem SpellsMessage.weight_le {message : Message} {data : Bytes} (h : SpellsMessage message data) :
    message.weight ≤ data.length := by
  -- the messages nested in it are shorter
  generalize hn : data.length = n
  induction n using Nat.strong_induction_on generalizing message data with
  | h n ih =>
    have hrecords : ∀ (rs : List Record) (start : Message) (bytes : Bytes), bytes.length ≤ n →
        SpellsAll rs bytes → (start.applyAll rs).weight ≤ start.weight + bytes.length := by
      intro rs
      induction rs with
      | nil =>
        intro start bytes _ _
        exact Nat.le_add_right _ _
      | cons r rs ihrs =>
        intro start bytes hlength hspells
        cases hspells with
        | @cons _ _ front back h hs =>
          rw [List.length_append] at hlength ⊢
          have hrecord := h.weight_le fun nested body hlt hbody => ih body.length (by omega) hbody rfl
          have hrest := ihrs (start.apply r) back (by omega) hs
          rw [weight_apply] at hrest
          rw [applyAll_cons]
          omega
    cases h with
    | intro h _ =>
      have hall := hrecords _ Message.init data (by omega) h
      rw [weight_init] at hall
      omega

/-! ## Memory -/

mutual

/-- The memory of a message: one for itself, and one for each element that its arrays have room for. -/
def Node.slots : Node → ℕ
  | ⟨_, _, arrays, requests⟩ => 1 + ∑ f, ((arrays f).map Block.size).getD 0 + Node.slotsAll requests

/-- The memory of nested messages. -/
def Node.slotsAll : List Node → ℕ
  | [] => 0
  | node :: nodes => node.slots + Node.slotsAll nodes

end

/-- An array has room for eight times its elements at most. -/
theorem Node.Fits.size_le {node : Node} {f : ArrayField} {n : ℕ} (h : node.Fits f n) :
    ((node.arrays f).map Block.size).getD 0 ≤ 8 * n := by
  rw [Node.Fits] at h
  split at h
  case h_1 hptr =>
    rw [hptr]
    exact Nat.zero_le _
  case h_2 block hptr =>
    obtain ⟨hpos, hle, -, hlt⟩ := h
    rw [hptr]
    show block.size ≤ 8 * n
    by_cases h8 : 8 < block.size
    · have hdouble := hlt h8
      omega
    · omega

/-- A message on the heap has as many elements as the message it stands for. -/
theorem count_toMessage (node : Node) (f : ArrayField) : node.toMessage.count f = node.count f := by
  have hlength (nodes : List Node) : (Node.toMessages nodes).length = nodes.length := by
    induction nodes with
    | nil => rfl
    | cons node nodes ih => rw [Node.toMessages, List.length_cons, List.length_cons, ih]
  rw [Node.toMessage_eq]
  cases f with
  | words f => rfl
  | dictionary => rfl
  | requests => exact hlength node.requests

mutual

/-- **The memory of a tidy message is linear in its weight.** -/
theorem slots_le : ∀ node : Node, node.Tidy → node.slots ≤ 1 + 8 * node.toMessage.weight
  | ⟨block, fields, arrays, requests⟩, h => by
    cases h with
    | intro fits nested =>
      have hnested := slotsAll_le requests nested
      have harrays : ∑ f, ((arrays f).map Block.size).getD 0 ≤
          ∑ f, 8 * (Node.toMessage ⟨block, fields, arrays, requests⟩).count f := by
        refine Finset.sum_le_sum fun f _ => ?_
        rw [count_toMessage]
        exact (fits f).size_le
      rw [← Finset.mul_sum] at harrays
      have hrequests : (Node.toMessage ⟨block, fields, arrays, requests⟩).requests =
          Node.toMessages requests := by
        rw [Node.toMessage]
      rw [Node.slots, weight_eq, hrequests]
      omega

/-- The same for nested messages, all together. -/
theorem slotsAll_le : ∀ nodes : List Node, (∀ node ∈ nodes, node.Tidy) →
    Node.slotsAll nodes ≤ 8 * Message.weightAll (Node.toMessages nodes)
  | [], _ => by
    rw [Node.slotsAll]
    exact Nat.zero_le _
  | node :: nodes, h => by
    have hnode := slots_le node (h node List.mem_cons_self)
    have hnodes := slotsAll_le nodes fun m hm => h m (List.mem_cons_of_mem _ hm)
    rw [Node.slotsAll, Node.toMessages, Message.weightAll]
    omega

end

/-- A message that `unpack` returns takes no more memory than eight elements for each byte. -/
theorem slots_le_of_unpack {allocator : Allocator} {data : Bytes} {heap heap' : Heap} {node : Node}
    (h : unpack allocator data heap = .ok (some node) heap') : node.slots ≤ 1 + 8 * data.length := by
  have hunpacked := unpacked allocator data heap
  rw [h] at hunpacked
  cases hunpacked with
  | message spells tidy =>
    have hslots := slots_le node tidy
    have hweight := spells.weight_le
    omega

/-- **A packet cannot take more memory than eight elements for each of its bytes**, whatever it nests and
however its arrays have grown: this bounds the message that `unpack` returns, and when it returns `NULL`
nothing is left. -/
theorem unpack_memory_linear (allocator : Allocator) (data : Bytes) (heap : Heap) :
    Ends (fun result after => match result with
        | some node => node.slots ≤ 1 + 8 * data.length ∧ after.live = heap.live + node.blocks
        | none => after.live = heap.live)
      (fun e _ => e = .undefined .badShift) (unpack allocator data heap) := by
  have hends := ends_unpack allocator data heap
  cases hrun : unpack allocator data heap with
  | error e after =>
    rw [hrun] at hends
    exact hends.1
  | ok result after =>
    rw [hrun] at hends
    cases result with
    | none => exact hends
    | some node => exact ⟨slots_le_of_unpack hrun, Owns.live hends⟩

end Tinypinba
