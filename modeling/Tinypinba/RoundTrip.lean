import Tinypinba.Pack
import Tinypinba.RecordFields

/-! # Packing and unpacking again

What `pack` writes spells the message that was packed, so unpacking it gives that message back, with any
allocator that has memory. `pack` writes the length of a nested message as 32 bits, so nested messages
must be shorter than `2 ^ 32` bytes. -/

namespace Tinypinba

/-! ## Records -/

/-- The records that `Record.encode` spells. -/
def Record.Plain : Record → Prop
  | .string _ bytes => bytes.length < 2 ^ 32
  | .dictionary bytes => bytes.length < 2 ^ 32
  | .number _ _ | .optional _ _ | .single _ _ => True
  | .packed _ _ | .request _ | .unknown => False

/-- A packed block spells its bytes, if its length can be written. -/
theorem spellsBlock_blockPack {bytes : Bytes} (h : bytes.length < 2 ^ 32) :
    SpellsBlock bytes (blockPack bytes) :=
  ⟨UInt32.ofNat bytes.length, _, spellsUint32_uint32Pack _, (UInt32.toNat_ofNat_of_lt h).symm, rfl⟩

/-- A packed word spells itself. -/
theorem spellsWord_wordPack (kind : WordKind) (v : UInt32) : SpellsWord kind v (wordPack kind v) := by
  cases kind with
  | varint => exact spellsUint32_uint32Pack v
  | fixed32 => rfl

/-- So does a plain record. -/
theorem spellsRecord_encode {Body : Message → Bytes → Prop} {r : Record} (h : r.Plain) :
    SpellsRecord Body r r.encode := by
  cases r with
  | string f bytes => exact .known (.string (spellsBlock_blockPack h))
  | number f v => exact .known (.number (spellsWord_wordPack f.kind v))
  | optional f v => exact .known (.optional (spellsUint32_uint32Pack v))
  | single f v => exact .known (.single (spellsWord_wordPack f.kind v))
  | dictionary bytes => exact .known (.dictionary (spellsBlock_blockPack h))
  | packed => exact h.elim
  | request => exact h.elim
  | unknown => exact h.elim

/-- Plain records, packed one after the other, spell themselves. -/
theorem spellsAll_encodeRecords {rs : List Record} (h : ∀ r ∈ rs, r.Plain) :
    SpellsAll rs (encodeRecords rs) := by
  induction rs with
  | nil => exact .nil
  | cons r rs ih =>
    rw [encodeRecords_cons]
    exact .cons (spellsRecord_encode (h r List.mem_cons_self))
      (ih fun s hs => h s (List.mem_cons_of_mem _ hs))

/-- A string in a `char` array is short. -/
theorem CharArray.length_lt {size : ℕ} (a : CharArray size) (h : size ≤ 2 ^ 32) :
    a.str.bytes.length < 2 ^ 32 :=
  lt_of_lt_of_le a.fits h

/-- The buffers of the strings are small. -/
theorem StringField.size_le (f : StringField) : f.size ≤ 2 ^ 32 := by
  cases f <;> decide

/-- The records in front of the nested requests are plain. -/
theorem plain_head (fields : Fields) : ∀ r ∈ fields.head, r.Plain := by
  have hstring (f : StringField) := (fields.strings f).length_lt f.size_le
  have hentry (a : CharArray dictionaryEntrySize) := a.length_lt (by decide)
  simp [Fields.head, Record.Plain, or_imp, forall_and, hstring, hentry, -Nat.reducePow]

/-- So are the records behind them. -/
theorem plain_tail (fields : Fields) : ∀ r ∈ fields.tail, r.Plain := by
  have hstring (f : StringField) := (fields.strings f).length_lt f.size_le
  simp [Fields.tail, Record.Plain, or_imp, forall_and, hstring, -Nat.reducePow]

/-! ## Messages -/

/-- The records that `pack` writes. -/
def Message.records (message : Message) : List Record :=
  message.fields.head ++ (message.requests.map .request ++ message.fields.tail)

/-- The words of a field, written one in a record. -/
theorem flatMap_words_map (f g : RepeatedField) (vs : List UInt32) :
    (vs.map (.single g)).flatMap (Record.words f) = if g = f then vs else [] := by
  rw [List.flatMap_map]
  show vs.flatMap (fun v => if g = f then [v] else []) = _
  by_cases h : g = f
  · simp only [if_pos h]
    exact List.flatMap_singleton' vs
  · simp only [if_neg h]
    exact List.flatMap_eq_nil_iff.mpr fun _ _ => rfl

/-- The entries of the dictionary, written one in a record. -/
theorem flatMap_entries_map (entries : List (CharArray dictionaryEntrySize)) :
    (entries.map fun entry => .dictionary entry.str.bytes).flatMap Record.entries = entries := by
  rw [List.flatMap_map]
  simp only [Record.entries, CharArray.ofBuffer_bytes]
  exact List.flatMap_singleton' entries

/-- The nested requests, written one in a record. -/
theorem flatMap_nested_map (requests : List Message) :
    (requests.map .request).flatMap Record.nested = requests := by
  rw [List.flatMap_map]
  exact List.flatMap_singleton' requests

/-- What comes from records of another kind is nothing. -/
theorem flatMap_map_eq_nil {α β : Type} {k : α → Record} {g : Record → List β} (h : ∀ a, g (k a) = [])
    (as : List α) : (as.map k).flatMap g = [] := by
  rw [List.flatMap_map]
  exact List.flatMap_eq_nil_iff.mpr fun a _ => h a

/-- An optional field, written if it is there. -/
theorem lastSome_optional_map (f g : OptionalField) (v : Option UInt32) :
    lastSome (Record.optional? f) (v.toList.map (.optional g)) = if g = f then v else none := by
  cases v with
  | none =>
    rw [ite_self]
    rfl
  | some v => rfl

/-- The records that store a single value. -/
def Fields.scalars (fields : Fields) : List Record :=
  [.string .hostname (fields.strings .hostname).str.bytes,
    .string .serverName (fields.strings .serverName).str.bytes,
    .string .scriptName (fields.strings .scriptName).str.bytes,
    .number .requestCount (fields.numbers .requestCount),
    .number .documentSize (fields.numbers .documentSize),
    .number .memoryPeak (fields.numbers .memoryPeak),
    .number .requestTime (fields.numbers .requestTime),
    .number .ruUtime (fields.numbers .ruUtime),
    .number .ruStime (fields.numbers .ruStime)] ++
  ((fields.optionals .status).toList.map (.optional .status) ++
  ((fields.optionals .memoryFootprint).toList.map (.optional .memoryFootprint) ++
  [.string .schema (fields.strings .schema).str.bytes]))

/-- Single values come from these records alone. -/
theorem lastSome_records {β : Type} {g : Record → Option β} (hsingle : ∀ f v, g (.single f v) = none)
    (hdictionary : ∀ bytes, g (.dictionary bytes) = none) (hrequest : ∀ m, g (.request m) = none)
    (message : Message) : lastSome g message.records = lastSome g message.fields.scalars := by
  have hwords (f : RepeatedField) (vs : List UInt32) : lastSome g (vs.map (.single f)) = none :=
    lastSome_map_eq_none (hsingle f) vs
  have hentries (entries : List (CharArray dictionaryEntrySize)) :
      lastSome g (entries.map fun entry => .dictionary entry.str.bytes) = none :=
    lastSome_map_eq_none (fun entry => hdictionary entry.str.bytes) entries
  have hrequests (requests : List Message) : lastSome g (requests.map .request) = none :=
    lastSome_map_eq_none hrequest requests
  simp only [Message.records, Fields.head, Fields.tail, Fields.scalars, lastSome_append, lastSome_cons,
    lastSome_nil, hwords, hentries, hrequests, Option.none_or, Option.or_none, Option.or_assoc]

/-- **The records that `pack` writes make the message again.** -/
theorem applyAll_records (message : Message) : Message.init.applyAll message.records = message := by
  refine Message.ext_fields (fun f => ?_) (fun f => ?_) (fun f => ?_) (fun f => ?_) ?_ ?_
  · have hoptional (g : OptionalField) (v : Option UInt32) :
        lastSome (Record.string? f) (v.toList.map (.optional g)) = none :=
      lastSome_map_eq_none (fun _ => rfl) _
    have hlast : lastSome (Record.string? f) message.records = some (message.fields.strings f).str.bytes := by
      rw [lastSome_records (fun _ _ => rfl) (fun _ => rfl) fun _ => rfl]
      cases f <;> simp [Fields.scalars, hoptional, Record.string?]
    rw [strings_applyAll, hlast, Option.map_some, CharArray.ofBuffer_bytes]
    rfl
  · have hoptional (g : OptionalField) (v : Option UInt32) :
        lastSome (Record.number? f) (v.toList.map (.optional g)) = none :=
      lastSome_map_eq_none (fun _ => rfl) _
    have hlast : lastSome (Record.number? f) message.records = some (message.fields.numbers f) := by
      rw [lastSome_records (fun _ _ => rfl) (fun _ => rfl) fun _ => rfl]
      cases f <;> simp [Fields.scalars, hoptional, Record.number?]
    rw [numbers_applyAll, hlast]
    rfl
  · have hlast : lastSome (Record.optional? f) message.records = message.fields.optionals f := by
      rw [lastSome_records (fun _ _ => rfl) (fun _ => rfl) fun _ => rfl]
      cases f <;> simp [Fields.scalars, lastSome_optional_map, Record.optional?]
    rw [optionals_applyAll, hlast]
    exact Option.or_none
  · have hoptional (g : OptionalField) (vs : List UInt32) :
        (vs.map (.optional g)).flatMap (Record.words f) = [] :=
      flatMap_map_eq_nil (fun _ => rfl) vs
    have hentries (entries : List (CharArray dictionaryEntrySize)) :
        (entries.map fun entry => .dictionary entry.str.bytes).flatMap (Record.words f) = [] :=
      flatMap_map_eq_nil (fun _ => rfl) entries
    have hrequests (requests : List Message) : (requests.map .request).flatMap (Record.words f) = [] :=
      flatMap_map_eq_nil (fun _ => rfl) requests
    have hwords : message.records.flatMap (Record.words f) = message.fields.repeated f := by
      cases f <;>
        simp [Message.records, Fields.head, Fields.tail, flatMap_words_map, hoptional, hentries, hrequests,
          Record.words]
    rw [repeated_applyAll, hwords]
    rfl
  · have hoptional (g : OptionalField) (vs : List UInt32) :
        (vs.map (.optional g)).flatMap Record.entries = [] :=
      flatMap_map_eq_nil (fun _ => rfl) vs
    have hwords (g : RepeatedField) (vs : List UInt32) : (vs.map (.single g)).flatMap Record.entries = [] :=
      flatMap_map_eq_nil (fun _ => rfl) vs
    have hrequests (requests : List Message) : (requests.map .request).flatMap Record.entries = [] :=
      flatMap_map_eq_nil (fun _ => rfl) requests
    have hentries : message.records.flatMap Record.entries = message.fields.dictionary := by
      simp [Message.records, Fields.head, Fields.tail, flatMap_entries_map, hoptional, hwords, hrequests,
        Record.entries]
    rw [dictionary_applyAll, hentries]
    rfl
  · have hoptional (g : OptionalField) (vs : List UInt32) :
        (vs.map (.optional g)).flatMap Record.nested = [] :=
      flatMap_map_eq_nil (fun _ => rfl) vs
    have hwords (g : RepeatedField) (vs : List UInt32) : (vs.map (.single g)).flatMap Record.nested = [] :=
      flatMap_map_eq_nil (fun _ => rfl) vs
    have hentries (entries : List (CharArray dictionaryEntrySize)) :
        (entries.map fun entry => .dictionary entry.str.bytes).flatMap Record.nested = [] :=
      flatMap_map_eq_nil (fun _ => rfl) entries
    have hnested : message.records.flatMap Record.nested = message.requests := by
      simp [Message.records, Fields.head, Fields.tail, flatMap_nested_map, hoptional, hwords, hentries,
        Record.nested]
    rw [requests_applyAll, hnested]
    rfl

/-- Every required field is packed. -/
theorem complete_records (message : Message) : Complete message.records := by
  intro k hk
  rw [Message.records, Fields.head, List.map_append, List.map_append]
  interval_cases k <;> simp [Record.bit, StringField.bit, NumberField.bit]

/-! ## Whole messages -/

/-- The fields of a message are written around its nested requests. -/
theorem encode_eq (message : Message) :
    message.encode = encodeRecords message.fields.head ++
      (Message.encodeAll message.requests ++ encodeRecords message.fields.tail) := by
  cases message
  rw [Message.encode]

/-- A nested message is shorter than the one around it. -/
theorem length_encode_lt_encodeAll {message : Message} {messages : List Message} (h : message ∈ messages) :
    message.encode.length < (Message.encodeAll messages).length := by
  induction messages with
  | nil => cases h
  | cons m ms ih =>
    rw [Message.encodeAll, List.length_append, List.length_append, blockPack, List.length_append]
    obtain rfl | h := List.mem_cons.mp h
    · have htag := Field.tag_length_pos .requests
      omega
    · have hlt := ih h
      omega

/-- A nested request takes fewer bytes than the one around it. -/
theorem length_encode_lt {message nested : Message} (h : nested ∈ message.requests) :
    nested.encode.length < message.encode.length := by
  have hlt := length_encode_lt_encodeAll h
  rw [encode_eq message, List.length_append, List.length_append]
  omega

mutual

/-- **What `pack` writes spells the message.** -/
theorem spells_encode : ∀ message : Message,
    (∀ nested ∈ message.requests, nested.encode.length < 2 ^ 32) → SpellsMessage message message.encode
  | ⟨fields, requests⟩, h => by
    have hhead := spellsAll_encodeRecords (plain_head fields)
    have htail := spellsAll_encodeRecords (plain_tail fields)
    have hall : SpellsAll (Message.records ⟨fields, requests⟩) (Message.encode ⟨fields, requests⟩) := by
      rw [Message.encode]
      exact hhead.append ((spells_encodeAll requests h).append htail)
    have hspells := SpellsMessage.intro hall (complete_records _)
    rw [applyAll_records] at hspells
    exact hspells

/-- The same for nested requests, one after the other. -/
theorem spells_encodeAll : ∀ messages : List Message,
    (∀ nested ∈ messages, nested.encode.length < 2 ^ 32) →
      SpellsAll (messages.map .request) (Message.encodeAll messages)
  | [], _ => by
    rw [Message.encodeAll]
    exact .nil
  | message :: messages, h => by
    have hlength := h message List.mem_cons_self
    have hmessage := spells_encode message fun nested hnested => (length_encode_lt hnested).trans hlength
    have hmessages := spells_encodeAll messages fun nested hnested => h nested (List.mem_cons_of_mem _ hnested)
    rw [Message.encodeAll]
    exact .cons (.known (.request (spellsBlock_blockPack hlength) hmessage)) hmessages

end

end Tinypinba
