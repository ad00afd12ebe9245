import Tinypinba.Message

/-! # Packets as sequences of records

What a packet says, apart from how the generated code works it out. A packet is a sequence of records,
each a tag and a value; a record changes one field of a message, and the message of a packet is what its
records make of the initial one. `SpellsMessage` says which bytes spell which message.

`readRecords` decodes a packet into its records without memory management, and is the middle layer
between the grammar and `unpack_merge`: here it is shown to accept exactly the grammar. -/

namespace Tinypinba

open Decoder

/-- A field of a packet with its value. -/
inductive Record
  | string (f : StringField) (bytes : Bytes)
  | number (f : NumberField) (v : UInt32)
  | optional (f : OptionalField) (v : UInt32)
  | single (f : RepeatedField) (v : UInt32)
  | packed (f : RepeatedField) (vs : List UInt32)
  | dictionary (bytes : Bytes)
  | request (message : Message)
  | unknown

/-! ## What records do -/

/-- Append elements to a repeated field. -/
def Fields.append (fields : Fields) (f : RepeatedField) (vs : List UInt32) : Fields :=
  { fields with repeated := Function.update fields.repeated f (fields.repeated f ++ vs) }

/-- Store a string. -/
def Fields.setString (fields : Fields) (f : StringField) (bytes : Bytes) : Fields :=
  { fields with strings := Function.update fields.strings f (.ofBuffer f.size_pos bytes) }

/-- Store a required word. -/
def Fields.setNumber (fields : Fields) (f : NumberField) (v : UInt32) : Fields :=
  { fields with numbers := Function.update fields.numbers f v }

/-- Store an optional word and set its `has_` flag. -/
def Fields.setOptional (fields : Fields) (f : OptionalField) (v : UInt32) : Fields :=
  { fields with optionals := Function.update fields.optionals f (some v) }

/-- Append a string to the dictionary. -/
def Fields.addEntry (fields : Fields) (bytes : Bytes) : Fields :=
  { fields with dictionary := fields.dictionary ++ [.ofBuffer dictionaryEntrySize_pos bytes] }

/-- What a record makes of a message. -/
def Message.apply (message : Message) : Record → Message
  | .string f bytes => { message with fields := message.fields.setString f bytes }
  | .number f v => { message with fields := message.fields.setNumber f v }
  | .optional f v => { message with fields := message.fields.setOptional f v }
  | .single f v => { message with fields := message.fields.append f [v] }
  | .packed f vs => { message with fields := message.fields.append f vs }
  | .dictionary bytes => { message with fields := message.fields.addEntry bytes }
  | .request nested => { message with requests := message.requests ++ [nested] }
  | .unknown => message

/-- What several records make of a message. -/
def Message.applyAll (message : Message) (records : List Record) : Message :=
  records.foldl Message.apply message

/-- The bit of `required_fields` for a string. -/
def StringField.bit : StringField → Option ℕ
  | .hostname => some 0
  | .serverName => some 1
  | .scriptName => some 2
  | .schema => none

/-- The bit of `required_fields` for a word. -/
def NumberField.bit : NumberField → ℕ
  | .requestCount => 3
  | .documentSize => 4
  | .memoryPeak => 5
  | .requestTime => 6
  | .ruUtime => 7
  | .ruStime => 8

/-- The bit of `required_fields` that a record sets. -/
def Record.bit : Record → Option ℕ
  | .string f _ => f.bit
  | .number f _ => some f.bit
  | _ => none

/-- Every required field is there. -/
def Complete (records : List Record) : Prop := ∀ k < 9, some k ∈ records.map Record.bit

instance : DecidablePred Complete := fun records => Nat.decidableBallLT 9 fun k _ => some k ∈ records.map Record.bit

/-! ## The grammar -/

/-- A word. -/
def SpellsWord : WordKind → UInt32 → Bytes → Prop
  | .varint, v, bytes => SpellsUint32 v bytes
  | .fixed32, v, bytes => bytes = fixed32Pack v

/-- Words, one after the other. -/
inductive SpellsWords (kind : WordKind) : List UInt32 → Bytes → Prop
  | nil : SpellsWords kind [] []
  | cons {v : UInt32} {vs : List UInt32} {front back : Bytes} (h : SpellsWord kind v front)
      (hs : SpellsWords kind vs back) : SpellsWords kind (v :: vs) (front ++ back)

/-- Bytes with their number in front. -/
def SpellsBlock (body bytes : Bytes) : Prop :=
  ∃ len front, SpellsUint32 len front ∧ body.length = len.toNat ∧ bytes = front ++ body

/-- A packed array: the length of its body, and the words in it. -/
def SpellsPacked (kind : WordKind) (vs : List UInt32) (bytes : Bytes) : Prop :=
  ∃ t front body, SpellsInt32 t front ∧ (body.length : ℤ) = t ∧ SpellsWords kind vs body ∧
    bytes = front ++ body

/-- What follows the tag of a field. `Body` spells nested messages. -/
inductive SpellsValue (Body : Message → Bytes → Prop) : Field → Record → Bytes → Prop
  | string {f : StringField} {body bytes : Bytes} (h : SpellsBlock body bytes) :
      SpellsValue Body (.string f) (.string f body) bytes
  | number {f : NumberField} {v : UInt32} {bytes : Bytes} (h : SpellsWord f.kind v bytes) :
      SpellsValue Body (.number f) (.number f v) bytes
  | optional {f : OptionalField} {v : UInt32} {bytes : Bytes} (h : SpellsUint32 v bytes) :
      SpellsValue Body (.optional f) (.optional f v) bytes
  | single {f : RepeatedField} {v : UInt32} {bytes : Bytes} (h : SpellsWord f.kind v bytes) :
      SpellsValue Body (.single f) (.single f v) bytes
  | packed {f : RepeatedField} {vs : List UInt32} {bytes : Bytes} (h : SpellsPacked f.kind vs bytes) :
      SpellsValue Body (.packed f) (.packed f vs) bytes
  | dictionary {body bytes : Bytes} (h : SpellsBlock body bytes) :
      SpellsValue Body .dictionary (.dictionary body) bytes
  | request {nested : Message} {body bytes : Bytes} (h : SpellsBlock body bytes)
      (hbody : Body nested body) : SpellsValue Body .requests (.request nested) bytes

/-- A record: a tag and a value, or a field the program does not know. -/
inductive SpellsRecord (Body : Message → Bytes → Prop) : Record → Bytes → Prop
  | known {f : Field} {r : Record} {value : Bytes} (h : SpellsValue Body f r value) :
      SpellsRecord Body r (f.tag ++ value)
  | unknown {first : UInt8} {rest : Bytes} (h : Unknown first rest)
      (hfield : SpellsField first (first :: rest)) : SpellsRecord Body .unknown (first :: rest)

mutual

/-- A sequence of records. -/
inductive SpellsAll : List Record → Bytes → Prop
  | nil : SpellsAll [] []
  | cons {r : Record} {rs : List Record} {front back : Bytes}
      (h : SpellsRecord SpellsMessage r front) (hs : SpellsAll rs back) :
      SpellsAll (r :: rs) (front ++ back)

/-- **The bytes that spell a message**: records with every required field among them. -/
inductive SpellsMessage : Message → Bytes → Prop
  | intro {rs : List Record} {bytes : Bytes} (h : SpellsAll rs bytes) (hcomplete : Complete rs) :
      SpellsMessage (Message.init.applyAll rs) bytes

end

/-! ## Decoding records -/

/-- `read_uint32` or `read_fixed32`. -/
def readWord : WordKind → Read UInt32
  | .varint => readUint32
  | .fixed32 => readFixed32

/-- A length and that many bytes. -/
def readBlock : Read Bytes := do
  let length ← readUint32
  readBytes length.toNat

/-- Words as long as more than `stop` bytes are left. -/
def readWords (kind : WordKind) (stop : ℕ) : ℕ → Read (List UInt32)
  | 0 => pure []
  | fuel + 1 => do
    if stop < (← get).length then
      let v ← readWord kind
      let vs ← readWords kind stop fuel
      pure (v :: vs)
    else pure []

/-- The words in the next `t` bytes. -/
def readPackedBody (kind : WordKind) (t : ℤ) : Read (List UInt32) := do
  let left := (← get).length
  if (left : ℤ) < t then throw .null
  let vs ← readWords kind (left - t).toNat left
  if ((← get).length : ℤ) < left - t then throw .null
  pure vs

/-- A packed array. -/
def readPacked (kind : WordKind) : Read (List UInt32) := do
  let t ← readInt32
  readPackedBody kind t

/-- What follows the tag of a field; `nested` decodes a nested message. -/
def readValue (nested : Bytes → Except ReadError Message) : Field → Read Record
  | .string f => .string f <$> readBlock
  | .number f => .number f <$> readWord f.kind
  | .optional f => .optional f <$> readUint32
  | .single f => .single f <$> readWord f.kind
  | .packed f => .packed f <$> readPacked f.kind
  | .dictionary => .dictionary <$> readBlock
  | .requests => do
    let body ← readBlock
    .request <$> MonadExcept.ofExcept (nested body)

/-- One record of a buffer that begins with `first`. -/
def readRecord (nested : Bytes → Except ReadError Message) (first : UInt8) (buffer : Bytes) :
    Except ReadError (Record × Bytes) :=
  match switch first buffer with
  | .field f buffer => (readValue nested f).run buffer
  | .skip first => ((fun _ => Record.unknown) <$> skipField first).run (first :: buffer)
  | .wrong => .error .null

/-- The message that complete records make. -/
def ofRecords (records : List Record) : Except ReadError Message :=
  if Complete records then .ok (Message.init.applyAll records) else .error .null

/-- The records of a packet; `fuel` bounds their number, nested ones counted too. -/
def readRecords : ℕ → Bytes → Except ReadError (List Record)
  | _, [] => .ok []
  | 0, _ :: _ => .error .null
  | fuel + 1, first :: buffer => do
    let (r, rest) ← readRecord (fun body => readRecords fuel body >>= ofRecords) first buffer
    let rs ← readRecords fuel rest
    return r :: rs

/-- The message of a packet. -/
def readMessage (data : Bytes) : Except ReadError Message :=
  readRecords data.length data >>= ofRecords

/-! ## Values -/

/-- A word of either kind. -/
theorem decodes_readWord (kind : WordKind) : Decodes (readWord kind) (SpellsWord kind) := by
  cases kind with
  | varint => exact decodes_readUint32
  | fixed32 => exact decodes_readFixed32

/-- A word takes at least one byte. -/
theorem SpellsWord.length_pos {kind : WordKind} {v : UInt32} {bytes : Bytes}
    (h : SpellsWord kind v bytes) : 0 < bytes.length := by
  cases kind with
  | varint => exact h.1.length_pos
  | fixed32 =>
    have hbytes : bytes = fixed32Pack v := h
    rw [hbytes]
    exact Nat.succ_pos 3

/-- A block is a length and as many bytes. -/
theorem decodes_readBlock : Decodes readBlock SpellsBlock := by
  refine (decodes_readUint32.bind fun length => decodes_readBytes length.toNat).congr fun body bytes => ?_
  constructor
  · rintro ⟨len, front, back, hlen, ⟨rfl, hlength⟩, rfl⟩
    exact ⟨len, front, hlen, hlength, rfl⟩
  · rintro ⟨len, front, hlen, hlength, rfl⟩
    exact ⟨len, front, body, hlen, ⟨rfl, hlength⟩, rfl⟩

/-- Before the end of the words there is one more to read. -/
theorem readWords_of_lt {kind : WordKind} {stop : ℕ} {buffer : Bytes} (fuel : ℕ)
    (h : stop < buffer.length) :
    (readWords kind stop (fuel + 1)).run buffer =
      (readWord kind >>= fun v => readWords kind stop fuel >>= fun vs => pure (v :: vs)).run buffer := by
  show (if stop < buffer.length then _ else _ : Read (List UInt32)).run buffer = _
  rw [if_pos h]

/-- At their end, none is read. -/
theorem readWords_of_le {kind : WordKind} {stop : ℕ} {buffer : Bytes} (fuel : ℕ)
    (h : buffer.length ≤ stop) : (readWords kind stop fuel).run buffer = .ok ([], buffer) := by
  cases fuel with
  | zero => rfl
  | succ fuel =>
    show (if stop < buffer.length then _ else _ : Read (List UInt32)).run buffer = _
    rw [if_neg (by omega)]
    rfl

/-- No words take no bytes. -/
theorem spellsWords_nil_iff {kind : WordKind} {vs : List UInt32} : SpellsWords kind vs [] ↔ vs = [] := by
  constructor
  · intro h
    generalize hbytes : ([] : Bytes) = bytes at h
    cases h with
    | nil => rfl
    | cons h _ =>
      have hpos := h.length_pos
      have hlength := congrArg List.length hbytes
      rw [List.length_append, List.length_nil] at hlength
      omega
  · rintro rfl
    exact .nil

/-- **The loop over a packed array** ends exactly at its end when the bytes before are words. -/
theorem readWords_eq_ok_iff (kind : WordKind) (stop fuel : ℕ) (buffer rest : Bytes) (vs : List UInt32)
    (hfuel : buffer.length ≤ stop + fuel) :
    (readWords kind stop fuel).run buffer = .ok (vs, rest) ∧ stop ≤ rest.length ↔
      ∃ body, SpellsWords kind vs body ∧ rest.length = stop ∧ buffer = body ++ rest := by
  induction fuel generalizing buffer vs with
  | zero =>
    rw [readWords_of_le 0 (by omega)]
    constructor
    · rintro ⟨h, hstop⟩
      obtain ⟨rfl, rfl⟩ := Prod.mk.inj (Except.ok.inj h)
      exact ⟨[], .nil, by omega, rfl⟩
    · rintro ⟨body, hbody, hrest, rfl⟩
      rw [List.length_append] at hfuel
      have hnil : body = [] := List.eq_nil_of_length_eq_zero (by omega)
      rw [hnil, spellsWords_nil_iff] at hbody
      rw [hnil, hbody]
      exact ⟨rfl, by omega⟩
  | succ fuel ih =>
    by_cases hmore : stop < buffer.length
    · rw [readWords_of_lt fuel hmore]
      constructor
      · rintro ⟨h, hstop⟩
        obtain ⟨v, mid, hv, h⟩ := run_bind_eq_ok.mp h
        obtain ⟨ws, _, hws, h⟩ := run_bind_eq_ok.mp h
        cases h
        obtain ⟨front, hfront, rfl⟩ := (decodes_readWord kind _ _ _).mp hv
        have hpos := hfront.length_pos
        rw [List.length_append] at hfuel
        obtain ⟨back, hback, hrest, rfl⟩ := (ih mid ws (by omega)).mp ⟨hws, hstop⟩
        exact ⟨front ++ back, .cons hfront hback, hrest, (List.append_assoc _ _ _).symm⟩
      · rintro ⟨body, hbody, hrest, rfl⟩
        cases hbody with
        | nil =>
          rw [List.nil_append] at hmore
          omega
        | @cons v vs front back hfront hback =>
          have hpos := hfront.length_pos
          rw [List.length_append, List.length_append] at hfuel
          have hmid : (back ++ rest).length ≤ stop + fuel := by
            rw [List.length_append]
            omega
          obtain ⟨hws, hstop⟩ := (ih (back ++ rest) vs hmid).mpr ⟨back, hback, hrest, rfl⟩
          have hv : (readWord kind).run (front ++ back ++ rest) = .ok (v, back ++ rest) :=
            (decodes_readWord kind _ _ _).mpr ⟨front, hfront, List.append_assoc _ _ _⟩
          refine ⟨run_bind_eq_ok.mpr ⟨v, _, hv, ?_⟩, hstop⟩
          exact run_bind_eq_ok.mpr ⟨vs, rest, hws, rfl⟩
    · rw [readWords_of_le _ (by omega)]
      constructor
      · rintro ⟨h, hstop⟩
        obtain ⟨rfl, rfl⟩ := Prod.mk.inj (Except.ok.inj h)
        exact ⟨[], .nil, by omega, rfl⟩
      · rintro ⟨body, hbody, hrest, rfl⟩
        rw [List.length_append] at hmore
        have hnil : body = [] := List.eq_nil_of_length_eq_zero (by omega)
        rw [hnil, spellsWords_nil_iff] at hbody
        rw [hnil, hbody]
        exact ⟨rfl, by omega⟩

/-- A packed field behind its length, which may be negative: it must not end past the packet, nor its
last word behind its end. -/
theorem readPackedBody_eq_ok_iff (kind : WordKind) (t : ℤ) (buffer rest : Bytes) (vs : List UInt32) :
    (readPackedBody kind t).run buffer = .ok (vs, rest) ↔
      t ≤ buffer.length ∧ (buffer.length : ℤ) - t ≤ rest.length ∧
        (readWords kind (buffer.length - t).toNat buffer.length).run buffer = .ok (vs, rest) := by
  show (if (buffer.length : ℤ) < t then _ else _ : Read (List UInt32)).run buffer = _ ↔ _
  by_cases hlong : (buffer.length : ℤ) < t
  · rw [if_pos hlong]
    refine iff_of_false (fun h => by cases h) ?_
    rintro ⟨h, -⟩
    omega
  · rw [if_neg hlong]
    refine run_bind_eq_ok.trans ?_
    constructor
    · rintro ⟨ws, mid, hws, h⟩
      change (if (mid.length : ℤ) < buffer.length - t then _ else _ : Read (List UInt32)).run mid = _ at h
      by_cases hshort : (mid.length : ℤ) < buffer.length - t
      · rw [if_pos hshort] at h
        cases h
      · rw [if_neg hshort] at h
        cases h
        exact ⟨by omega, by omega, hws⟩
    · rintro ⟨-, hrest, hws⟩
      refine ⟨vs, rest, hws, ?_⟩
      show (if (rest.length : ℤ) < buffer.length - t then _ else _ : Read (List UInt32)).run rest = _
      rw [if_neg (by omega)]
      rfl

/-- The words of a packed array fill its body. -/
theorem decodes_readPackedBody (kind : WordKind) (t : ℤ) :
    Decodes (readPackedBody kind t) fun vs bytes => (bytes.length : ℤ) = t ∧ SpellsWords kind vs bytes := by
  intro buffer vs rest
  rw [readPackedBody_eq_ok_iff]
  have hloop := readWords_eq_ok_iff kind (buffer.length - t).toNat buffer.length buffer rest vs (by omega)
  constructor
  · rintro ⟨hlong, hrest, hws⟩
    obtain ⟨body, hbody, hstop, rfl⟩ := hloop.mp ⟨hws, by omega⟩
    rw [List.length_append] at hlong hrest hstop
    exact ⟨body, ⟨by omega, hbody⟩, rfl⟩
  · rintro ⟨body, ⟨hlength, hbody⟩, rfl⟩
    have hsum : ((body ++ rest).length : ℤ) = body.length + rest.length := by
      rw [List.length_append, Nat.cast_add]
    obtain ⟨hws, hstop⟩ := hloop.mpr ⟨body, hbody, by omega, rfl⟩
    exact ⟨by omega, by omega, hws⟩

/-- A packed field. -/
theorem decodes_readPacked (kind : WordKind) : Decodes (readPacked kind) (SpellsPacked kind) := by
  refine (decodes_readInt32.bind fun t => decodes_readPackedBody kind t).congr fun vs bytes => ?_
  constructor
  · rintro ⟨t, front, body, ht, ⟨hlength, hbody⟩, rfl⟩
    exact ⟨t, front, body, ht, hlength, hbody, rfl⟩
  · rintro ⟨t, front, body, ht, hlength, hbody, rfl⟩
    exact ⟨t, front, body, ht, ⟨hlength, hbody⟩, rfl⟩

/-! ## Records -/

/-- What decoding the value of a field accepts, whatever decodes nested messages. -/
theorem decodes_readValue (nested : Bytes → Except ReadError Message) (f : Field) :
    Decodes (readValue nested f) (SpellsValue (fun message body => nested body = .ok message) f) := by
  cases f with
  | string f =>
    refine (decodes_readBlock.map _).congr fun r bytes => ⟨?_, fun h => ?_⟩
    · rintro ⟨body, h, rfl⟩
      exact .string h
    · cases h with
      | string h => exact ⟨_, h, rfl⟩
  | number f =>
    refine ((decodes_readWord f.kind).map _).congr fun r bytes => ⟨?_, fun h => ?_⟩
    · rintro ⟨v, h, rfl⟩
      exact .number h
    · cases h with
      | number h => exact ⟨_, h, rfl⟩
  | optional f =>
    refine (decodes_readUint32.map _).congr fun r bytes => ⟨?_, fun h => ?_⟩
    · rintro ⟨v, h, rfl⟩
      exact .optional h
    · cases h with
      | optional h => exact ⟨_, h, rfl⟩
  | single f =>
    refine ((decodes_readWord f.kind).map _).congr fun r bytes => ⟨?_, fun h => ?_⟩
    · rintro ⟨v, h, rfl⟩
      exact .single h
    · cases h with
      | single h => exact ⟨_, h, rfl⟩
  | packed f =>
    refine ((decodes_readPacked f.kind).map _).congr fun r bytes => ⟨?_, fun h => ?_⟩
    · rintro ⟨vs, h, rfl⟩
      exact .packed h
    · cases h with
      | packed h => exact ⟨_, h, rfl⟩
  | dictionary =>
    refine (decodes_readBlock.map _).congr fun r bytes => ⟨?_, fun h => ?_⟩
    · rintro ⟨body, h, rfl⟩
      exact .dictionary h
    · cases h with
      | dictionary h => exact ⟨_, h, rfl⟩
  | requests =>
    have hnested (body : Bytes) := (Decodes.ofExcept (β := UInt8) (nested body)).map Record.request
    refine (decodes_readBlock.bind hnested).congr fun r bytes => ⟨?_, fun h => ?_⟩
    · rintro ⟨body, front, _, h, ⟨message, ⟨hbody, rfl⟩, rfl⟩, rfl⟩
      rw [List.append_nil]
      exact .request h hbody
    · cases h with
      | request h hbody => exact ⟨_, bytes, [], h, ⟨_, ⟨hbody, rfl⟩, rfl⟩, (List.append_nil _).symm⟩

/-- A skipped field has a tag and a value. -/
theorem SpellsField.two_le_length {first : UInt8} {bytes : Bytes} (h : SpellsField first bytes) :
    2 ≤ bytes.length := by
  obtain ⟨tag, payload, htag, hpayload, rfl⟩ := h
  have hpos := htag.length_pos
  have hvalue : 0 < payload.length := by
    generalize (first &&& 0x7).toNat = type at hpayload
    cases hpayload with
    | varint h => exact h.length_pos
    | fixed64 h => omega
    | bytes hlen _ =>
      have hfront := hlen.1.length_pos
      rw [List.length_append]
      omega
    | fixed32 h => omega
  rw [List.length_append]
  omega

/-- A field stays unknown whatever comes behind it. -/
theorem Unknown.append {first : UInt8} {rest : Bytes} (h : Unknown first rest) (more : Bytes) :
    Unknown first (rest ++ more) := by
  obtain ⟨houter, hinner | ⟨second, after, rfl, hne⟩⟩ := h
  · exact ⟨houter, .inl hinner⟩
  · exact ⟨houter, .inr ⟨second, after ++ more, List.cons_append, hne⟩⟩

/-- Whether a field is known shows in its own bytes. -/
theorem Unknown.of_append {first : UInt8} {rest more : Bytes} (h : Unknown first (rest ++ more))
    (hrest : rest ≠ []) : Unknown first rest := by
  obtain ⟨houter, hinner | ⟨second, after, heq, hne⟩⟩ := h
  · exact ⟨houter, .inl hinner⟩
  · cases rest with
    | nil => exact absurd rfl hrest
    | cons b rest =>
      obtain ⟨rfl, -⟩ := List.cons.inj heq
      exact ⟨houter, .inr ⟨b, rest, rfl, hne⟩⟩

/-- What decoding one record accepts. -/
theorem readRecord_eq_ok_iff (nested : Bytes → Except ReadError Message) (first : UInt8)
    (buffer rest : Bytes) (r : Record) :
    readRecord nested first buffer = .ok (r, rest) ↔
      ∃ bytes, SpellsRecord (fun message body => nested body = .ok message) r bytes ∧
        first :: buffer = bytes ++ rest := by
  constructor
  · intro h
    rw [readRecord] at h
    split at h
    case h_1 f after hswitch =>
      obtain ⟨value, hvalue, rfl⟩ := (decodes_readValue nested f _ _ _).mp h
      have htag := (switch_eq_field_iff first buffer (value ++ rest) f).mp hswitch
      exact ⟨f.tag ++ value, .known hvalue, htag.trans (List.append_assoc _ _ _).symm⟩
    case h_2 b hswitch =>
      obtain ⟨rfl, hunknown⟩ := (switch_eq_skip_iff first b buffer).mp hswitch
      obtain ⟨bytes, ⟨_, hfield, rfl⟩, heq⟩ := ((decodes_skipField b).map _ _ _ _).mp h
      have hlength := hfield.two_le_length
      match bytes, hlength with
      | c :: second :: after, _ =>
        obtain ⟨rfl, rfl⟩ := List.cons.inj heq
        exact ⟨_, .unknown (hunknown.of_append (List.cons_ne_nil _ _)) hfield, rfl⟩
    case h_3 => cases h
  · rintro ⟨bytes, hrecord, heq⟩
    rw [readRecord]
    cases hrecord with
    | @known f _ value hvalue =>
      have hswitch := (switch_eq_field_iff first buffer (value ++ rest) f).mpr
        (heq.trans (List.append_assoc _ _ _))
      rw [hswitch]
      exact (decodes_readValue nested f _ _ _).mpr ⟨value, hvalue, rfl⟩
    | @unknown b after hunknown hfield =>
      obtain ⟨rfl, rfl⟩ := List.cons.inj (show first :: buffer = b :: (after ++ rest) from heq)
      rw [(switch_eq_skip_iff first first _).mpr ⟨rfl, hunknown.append rest⟩]
      exact ((decodes_skipField first).map _ _ _ _).mpr ⟨_, ⟨(), hfield, rfl⟩, rfl⟩

/-! ## Packets -/

/-- A block is longer than its body. -/
theorem SpellsBlock.length_lt {body bytes : Bytes} (h : SpellsBlock body bytes) :
    body.length < bytes.length := by
  obtain ⟨len, front, hlen, -, rfl⟩ := h
  have hpos := hlen.1.length_pos
  rw [List.length_append]
  omega

/-- A tag is not empty. -/
theorem Field.tag_length_pos (f : Field) : 0 < f.tag.length := by
  cases f with
  | string f => cases f <;> decide
  | number f => cases f <;> decide
  | optional f => cases f <;> decide
  | single f => cases f <;> decide
  | packed f => cases f <;> decide
  | dictionary => decide
  | requests => decide

/-- A record has at least one byte. -/
theorem SpellsRecord.length_pos {Body : Message → Bytes → Prop} {r : Record} {bytes : Bytes}
    (h : SpellsRecord Body r bytes) : 0 < bytes.length := by
  cases h with
  | @known f _ _ h =>
    have hpos := f.tag_length_pos
    rw [List.length_append]
    omega
  | unknown => exact Nat.succ_pos _

/-- How nested messages are spelled matters only for the bytes inside the record. -/
theorem SpellsRecord.mono {Body Body' : Message → Bytes → Prop} {r : Record} {bytes : Bytes}
    (h : SpellsRecord Body r bytes)
    (hbody : ∀ message body, body.length < bytes.length → Body message body → Body' message body) :
    SpellsRecord Body' r bytes := by
  cases h with
  | @known f _ value h =>
    refine .known ?_
    cases h with
    | string h => exact .string h
    | number h => exact .number h
    | optional h => exact .optional h
    | single h => exact .single h
    | packed h => exact .packed h
    | dictionary h => exact .dictionary h
    | request h hnested =>
      have hlt := h.length_lt
      refine .request h (hbody _ _ ?_ hnested)
      rw [List.length_append]
      omega
  | unknown h hfield => exact .unknown h hfield

/-- Records make a message when the required fields are among them. -/
theorem ofRecords_eq_ok_iff {rs : List Record} {message : Message} :
    ofRecords rs = .ok message ↔ Complete rs ∧ message = Message.init.applyAll rs := by
  rw [ofRecords]
  split_ifs with h
  · constructor
    · intro hok
      cases hok
      exact ⟨h, rfl⟩
    · rintro ⟨-, rfl⟩
      rfl
  · refine iff_of_false (fun hok => by cases hok) ?_
    rintro ⟨hc, -⟩
    exact h hc

/-- The same when the records are read first. -/
theorem bind_ofRecords_eq_ok_iff {x : Except ReadError (List Record)} {message : Message} :
    x >>= ofRecords = .ok message ↔
      ∃ rs, x = .ok rs ∧ Complete rs ∧ message = Message.init.applyAll rs := by
  cases x with
  | error e =>
    refine iff_of_false (fun h => by cases h) ?_
    rintro ⟨_, h, -⟩
    cases h
  | ok rs =>
    refine (@ofRecords_eq_ok_iff rs message).trans ?_
    constructor
    · intro h
      exact ⟨rs, rfl, h⟩
    · rintro ⟨_, hrs, h⟩
      cases hrs
      exact h

/-- The records after the first. -/
theorem readRecords_of_ok {fuel : ℕ} {first : UInt8} {buffer rest : Bytes} {r : Record}
    (h : readRecord (fun body => readRecords fuel body >>= ofRecords) first buffer = .ok (r, rest)) :
    readRecords (fuel + 1) (first :: buffer) = readRecords fuel rest >>= fun rs => pure (r :: rs) := by
  rw [readRecords, h]
  rfl

/-- A packet whose first record is wrong. -/
theorem readRecords_of_error {fuel : ℕ} {first : UInt8} {buffer : Bytes} {e : ReadError}
    (h : readRecord (fun body => readRecords fuel body >>= ofRecords) first buffer = .error e) :
    readRecords (fuel + 1) (first :: buffer) = .error e := by
  rw [readRecords, h]
  rfl

/-- A pass reads one record and leaves the rest to the next pass. -/
theorem readRecords_cons_eq_ok_iff {fuel : ℕ} {first : UInt8} {buffer : Bytes} {rs : List Record} :
    readRecords (fuel + 1) (first :: buffer) = .ok rs ↔
      ∃ r rest rs', readRecord (fun body => readRecords fuel body >>= ofRecords) first buffer =
        .ok (r, rest) ∧ readRecords fuel rest = .ok rs' ∧ rs = r :: rs' := by
  cases hrecord : readRecord (fun body => readRecords fuel body >>= ofRecords) first buffer with
  | error e =>
    rw [readRecords_of_error hrecord]
    refine iff_of_false (fun h => by cases h) ?_
    rintro ⟨_, _, _, h, -⟩
    cases h
  | ok pair =>
    obtain ⟨r, rest⟩ := pair
    rw [readRecords_of_ok hrecord]
    constructor
    · intro h
      cases hrest : readRecords fuel rest with
      | error e =>
        rw [hrest] at h
        cases h
      | ok rs' =>
        rw [hrest] at h
        cases h
        exact ⟨r, rest, rs', rfl, hrest, rfl⟩
    · rintro ⟨_, _, rs', h, hrest, rfl⟩
      cases h
      rw [hrest]
      rfl

/-- The empty string spells the empty sequence of records, and no other. -/
theorem spellsAll_nil_iff {rs : List Record} : SpellsAll rs [] ↔ rs = [] := by
  constructor
  · intro h
    generalize hbytes : ([] : Bytes) = bytes at h
    cases h with
    | nil => rfl
    | cons h _ =>
      have hpos := h.length_pos
      have hlength := congrArg List.length hbytes
      rw [List.length_append, List.length_nil] at hlength
      omega
  · rintro rfl
    exact .nil

/-- **Decoding accepts exactly the grammar**, with any fuel that is at least the number of bytes. -/
theorem readRecords_eq_ok_iff (fuel : ℕ) (buffer : Bytes) (rs : List Record)
    (hfuel : buffer.length ≤ fuel) : readRecords fuel buffer = .ok rs ↔ SpellsAll rs buffer := by
  induction fuel generalizing buffer rs with
  | zero =>
    have hnil : buffer = [] := List.eq_nil_of_length_eq_zero (by omega)
    rw [hnil, spellsAll_nil_iff, readRecords, Except.ok.injEq]
    exact eq_comm
  | succ fuel ih =>
    cases buffer with
    | nil =>
      rw [spellsAll_nil_iff, readRecords, Except.ok.injEq]
      exact eq_comm
    | cons first buffer =>
      rw [List.length_cons] at hfuel
      -- inside a record the fuel is enough for nested messages
      have hnested (message : Message) (body : Bytes) (hbody : body.length ≤ fuel) :
          readRecords fuel body >>= ofRecords = .ok message ↔ SpellsMessage message body := by
        rw [bind_ofRecords_eq_ok_iff]
        constructor
        · rintro ⟨rs, hrs, hcomplete, rfl⟩
          exact .intro ((ih body rs hbody).mp hrs) hcomplete
        · intro h
          cases h with
          | intro h hcomplete => exact ⟨_, (ih body _ hbody).mpr h, hcomplete, rfl⟩
      rw [readRecords_cons_eq_ok_iff]
      constructor
      · rintro ⟨r, rest, rs', hrecord, hrest, rfl⟩
        obtain ⟨front, hfront, heq⟩ := (readRecord_eq_ok_iff _ _ _ _ _).mp hrecord
        have hlength := congrArg List.length heq
        have hpos := hfront.length_pos
        rw [List.length_cons, List.length_append] at hlength
        rw [heq]
        refine .cons (hfront.mono fun message body hbody => ?_) ((ih rest rs' (by omega)).mp hrest)
        exact (hnested message body (by omega)).mp
      · intro h
        generalize hbytes : first :: buffer = bytes at h
        cases h with
        | nil => cases hbytes
        | @cons r rs' front rest hfront hrest =>
          have hlength := congrArg List.length hbytes
          have hpos := hfront.length_pos
          rw [List.length_cons, List.length_append] at hlength
          refine ⟨r, rest, rs', ?_, (ih rest rs' (by omega)).mpr hrest, rfl⟩
          refine (readRecord_eq_ok_iff _ _ _ _ _).mpr ⟨front, hfront.mono fun message body hbody => ?_, hbytes⟩
          exact (hnested message body (by omega)).mpr

/-- Decoding a record calls `nested` on strings inside the record only. -/
theorem readRecord_congr {nested nested' : Bytes → Except ReadError Message} {first : UInt8}
    {buffer : Bytes} (h : ∀ body : Bytes, body.length ≤ buffer.length → nested body = nested' body) :
    readRecord nested first buffer = readRecord nested' first buffer := by
  rw [readRecord, readRecord]
  cases hswitch : switch first buffer with
  | field f rest =>
    have htag := congrArg List.length ((switch_eq_field_iff first buffer rest f).mp hswitch)
    have hpos := f.tag_length_pos
    rw [List.length_cons, List.length_append] at htag
    cases f with
    | requests =>
      show (readBlock >>= fun body => Record.request <$> MonadExcept.ofExcept (nested body)).run rest =
        (readBlock >>= fun body => Record.request <$> MonadExcept.ofExcept (nested' body)).run rest
      rw [StateT.run_bind, StateT.run_bind]
      cases hblock : readBlock.run rest with
      | error e => rfl
      | ok pair =>
        obtain ⟨body, after⟩ := pair
        obtain ⟨bytes, hbytes, rfl⟩ := (decodes_readBlock _ _ _).mp hblock
        have hlt := hbytes.length_lt
        rw [List.length_append] at htag
        show (Record.request <$> MonadExcept.ofExcept (nested body) : Read Record).run after = _
        rw [h body (by omega)]
        rfl
    | _ => rfl
  | skip b => rfl
  | wrong => rfl

/-- **The fuel of `readRecords` is never seen**: with as much as there are bytes, or more, the result is
the same, errors included. -/
theorem readRecords_fuel {fuel fuel' : ℕ} {buffer : Bytes} (h : buffer.length ≤ fuel)
    (h' : buffer.length ≤ fuel') : readRecords fuel buffer = readRecords fuel' buffer := by
  induction fuel generalizing fuel' buffer with
  | zero =>
    have hnil : buffer = [] := List.eq_nil_of_length_eq_zero (by omega)
    rw [hnil, readRecords, readRecords]
  | succ fuel ih =>
    cases buffer with
    | nil => rw [readRecords, readRecords]
    | cons first buffer =>
      rw [List.length_cons] at h h'
      obtain ⟨fuel', rfl⟩ : ∃ n, fuel' = n + 1 := ⟨fuel' - 1, by omega⟩
      have hnested : readRecord (fun body => readRecords fuel body >>= ofRecords) first buffer =
          readRecord (fun body => readRecords fuel' body >>= ofRecords) first buffer := by
        refine readRecord_congr fun body hbody => ?_
        have hbody' : readRecords fuel body = readRecords fuel' body := ih (by omega) (by omega)
        show readRecords fuel body >>= ofRecords = readRecords fuel' body >>= ofRecords
        rw [hbody']
      cases hrecord : readRecord (fun body => readRecords fuel body >>= ofRecords) first buffer with
      | error e => rw [readRecords_of_error hrecord, readRecords_of_error (hnested.symm.trans hrecord)]
      | ok pair =>
        obtain ⟨r, rest⟩ := pair
        obtain ⟨front, hfront, heq⟩ := (readRecord_eq_ok_iff _ _ _ _ _).mp hrecord
        have hlength := congrArg List.length heq
        have hpos := hfront.length_pos
        rw [List.length_cons, List.length_append] at hlength
        have hrest : readRecords fuel rest = readRecords fuel' rest := ih (by omega) (by omega)
        rw [readRecords_of_ok hrecord, readRecords_of_ok (hnested.symm.trans hrecord), hrest]

/-- **A packet decodes to the message it spells**, and only to that. -/
theorem readMessage_eq_ok_iff (data : Bytes) (message : Message) :
    readMessage data = .ok message ↔ SpellsMessage message data := by
  rw [readMessage, bind_ofRecords_eq_ok_iff]
  constructor
  · rintro ⟨rs, hrs, hcomplete, rfl⟩
    exact .intro ((readRecords_eq_ok_iff _ _ _ le_rfl).mp hrs) hcomplete
  · intro h
    cases h with
    | intro h hcomplete => exact ⟨_, (readRecords_eq_ok_iff _ _ _ le_rfl).mpr h, hcomplete, rfl⟩

/-- A message takes at least one byte, for its required fields. -/
theorem SpellsMessage.length_pos {message : Message} {data : Bytes} (h : SpellsMessage message data) :
    0 < data.length := by
  cases h with
  | intro h hcomplete =>
    cases h with
    | nil => cases hcomplete 0 (by decide)
    | cons h _ =>
      have hpos := h.length_pos
      rw [List.length_append]
      omega

/-- Bytes spell one sequence of records at most. -/
theorem SpellsAll.unique {rs ss : List Record} {bytes : Bytes} (hr : SpellsAll rs bytes)
    (hs : SpellsAll ss bytes) : rs = ss := by
  have hrs := (readRecords_eq_ok_iff bytes.length bytes rs le_rfl).mpr hr
  have hss := (readRecords_eq_ok_iff bytes.length bytes ss le_rfl).mpr hs
  exact Except.ok.inj (hrs.symm.trans hss)

/-- Sequences of records one after the other. -/
theorem SpellsAll.append {rs ss : List Record} {front back : Bytes} (hr : SpellsAll rs front)
    (hs : SpellsAll ss back) : SpellsAll (rs ++ ss) (front ++ back) := by
  induction rs generalizing front with
  | nil =>
    cases hr with
    | nil => exact hs
  | cons r rs ih =>
    cases hr with
    | cons h hr =>
      rw [List.append_assoc]
      exact .cons h (ih hr)

end Tinypinba
