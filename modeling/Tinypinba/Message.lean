import Tinypinba.Wire

/-! # Request messages

The generated type `Pinba__Request` of `pinba.pb-c.h` with all its fields, and the bytes that announce
each of them in a packet. Fields that the generated code treats alike are indexed by an enumeration, so
that every member of such a family keeps its own name, size and tag.

`float` fields are read and written as the 32-bit words they are stored in. -/

namespace Tinypinba

/-! ## Fields -/

/-- The fields of type `char [size]`. -/
inductive StringField
  | hostname | serverName | scriptName | schema
  deriving DecidableEq

/-- The required fields of 32 bits. -/
inductive NumberField
  | requestCount | documentSize | memoryPeak | requestTime | ruUtime | ruStime
  deriving DecidableEq

/-- The optional fields with a `has_` flag. -/
inductive OptionalField
  | status | memoryFootprint
  deriving DecidableEq

/-- The repeated fields of 32-bit elements. -/
inductive RepeatedField
  | timerHitCount | timerValue | timerTagCount | timerTagName | timerTagValue
  | tagName | tagValue | timerRuUtime | timerRuStime
  deriving DecidableEq

/-- The size of a `char` array: `PINBA_HOSTNAME_SIZE`, `PINBA_SERVER_NAME_SIZE`,
`PINBA_SCRIPT_NAME_SIZE` and `PINBA_SCHEMA_SIZE`. -/
def StringField.size : StringField → ℕ
  | .hostname => 33
  | .serverName => 33
  | .scriptName => 129
  | .schema => 17

/-- `PINBA_DICTIONARY_ENTRY_SIZE` -/
def dictionaryEntrySize : ℕ := 65

/-- How a 32-bit word is written: `uint32` as a varint, `float` as four bytes. -/
inductive WordKind
  | varint | fixed32
  deriving DecidableEq

/-- How a required word is written. -/
def NumberField.kind : NumberField → WordKind
  | .requestTime | .ruUtime | .ruStime => .fixed32
  | _ => .varint

/-- How an element of a repeated field is written. -/
def RepeatedField.kind : RepeatedField → WordKind
  | .timerValue | .timerRuUtime | .timerRuStime => .fixed32
  | _ => .varint

/-! ## Values -/

/-- The C string in an array `char [size]`. -/
structure CharArray (size : ℕ) where
  /-- The string. -/
  str : CString
  /-- The terminator has a place in the array. -/
  fits : str.bytes.length < size
  deriving DecidableEq

namespace CharArray

variable {size : ℕ}

/-- `{'\0'}` -/
def empty (h : 0 < size) : CharArray size := ⟨⟨[], by simp⟩, h⟩

/-- `LENGTH_LIMIT` -/
def lengthLimit (length limit : ℕ) : ℕ := if limit ≤ length then limit - 1 else length

/-- A length that is cut leaves room for the terminator. -/
theorem lengthLimit_lt {length limit : ℕ} (h : 0 < limit) : lengthLimit length limit < limit := by
  rw [lengthLimit]
  split_ifs <;> omega

/-- A C string is no longer than its buffer. -/
theorem length_ofBuffer_le (buf : StdString) : (CString.ofBuffer buf).bytes.length ≤ buf.length :=
  (List.takeWhile_prefix _).length_le

/-- `memcpy` of `LENGTH_LIMIT` bytes and a zero after them. -/
def ofBuffer (h : 0 < size) (buf : Bytes) : CharArray size :=
  ⟨CString.ofBuffer (buf.take (lengthLimit buf.length size)), by
    have htake := length_ofBuffer_le (buf.take (lengthLimit buf.length size))
    have hlimit : lengthLimit buf.length size < size := lengthLimit_lt h
    rw [List.length_take] at htake
    omega⟩

/-- A string without zeros is stored as it is. -/
theorem ofBuffer_bytes (h : 0 < size) (a : CharArray size) : ofBuffer h a.str.bytes = a := by
  obtain ⟨⟨bytes, hnul⟩, hfits⟩ := a
  have hlimit : lengthLimit bytes.length size = bytes.length := if_neg (by simpa using hfits)
  have hall : ∀ b ∈ bytes, decide (b ≠ 0) = true := by
    intro b hb
    have hne : b ≠ 0 := fun h0 => hnul (h0 ▸ hb)
    simpa using hne
  simp only [ofBuffer, CString.ofBuffer, CharArray.mk.injEq, CString.mk.injEq, hlimit, List.take_length]
  exact List.takeWhile_eq_self_iff.mpr hall

end CharArray

/-- Every string has a buffer. -/
theorem StringField.size_pos (f : StringField) : 0 < f.size := by
  cases f <;> decide

/-- So has an entry of the dictionary. -/
theorem dictionaryEntrySize_pos : 0 < dictionaryEntrySize := by
  decide

/-- The fields of a message other than its nested messages. A repeated field is the list of its `n_`
elements; an optional field is `none` when its `has_` flag is zero. -/
structure Fields where
  /-- The `char` arrays. -/
  strings : (f : StringField) → CharArray f.size
  /-- The required words. -/
  numbers : NumberField → UInt32
  /-- The optional words. -/
  optionals : OptionalField → Option UInt32
  /-- The arrays of words. -/
  repeated : RepeatedField → List UInt32
  /-- `dictionary` -/
  dictionary : List (CharArray dictionaryEntrySize)

/-- `Pinba__Request`: the fields, and `requests`. -/
structure Message where
  /-- The fields other than `requests`. -/
  fields : Fields
  /-- `requests`, `n_requests` of them. -/
  requests : List Message

/-- `PINBA__REQUEST__INIT` -/
def Fields.init : Fields where
  strings f := .empty f.size_pos
  numbers _ := 0
  optionals _ := none
  repeated _ := []
  dictionary := []

/-- `pinba__request__init` -/
def Message.init : Message := ⟨.init, []⟩

mutual

/-- The part of a message that recording looks at. -/
def Message.toRequest : Message → PinbaRequest
  | ⟨fields, requests⟩ =>
    { serverName := (fields.strings .serverName).str
      documentSize := fields.numbers .documentSize
      memoryFootprint := (fields.optionals .memoryFootprint).getD 0
      nTimerHitCount := (fields.repeated .timerHitCount).length
      nTimerValue := (fields.repeated .timerValue).length
      nTimerTagCount := (fields.repeated .timerTagCount).length
      nDictionary := fields.dictionary.length
      nTagName := (fields.repeated .tagName).length
      nTagValue := (fields.repeated .tagValue).length
      requests := Message.toRequests requests }

/-- The parts of nested messages. -/
def Message.toRequests : List Message → List PinbaRequest
  | [] => []
  | message :: messages => message.toRequest :: Message.toRequests messages

end

/-! ## Tags -/

/-- What a tag announces: a field, and for a repeated field of words whether one element follows or a
packed array. -/
inductive Field
  | string (f : StringField)
  | number (f : NumberField)
  | optional (f : OptionalField)
  | single (f : RepeatedField)
  | packed (f : RepeatedField)
  | dictionary
  | requests
  deriving DecidableEq

/-- The `case` labels of the outer `switch` of `unpack_merge` that are whole tags. -/
def caseOuter : UInt8 → Option Field
  | 0x0a => some (.string .hostname)
  | 0x12 => some (.string .serverName)
  | 0x1a => some (.string .scriptName)
  | 0x20 => some (.number .requestCount)
  | 0x28 => some (.number .documentSize)
  | 0x30 => some (.number .memoryPeak)
  | 0x3d => some (.number .requestTime)
  | 0x45 => some (.number .ruUtime)
  | 0x4d => some (.number .ruStime)
  | 0x50 => some (.single .timerHitCount)
  | 0x52 => some (.packed .timerHitCount)
  | 0x5a => some (.packed .timerValue)
  | 0x5d => some (.single .timerValue)
  | 0x60 => some (.single .timerTagCount)
  | 0x62 => some (.packed .timerTagCount)
  | 0x68 => some (.single .timerTagName)
  | 0x6a => some (.packed .timerTagName)
  | 0x70 => some (.single .timerTagValue)
  | 0x72 => some (.packed .timerTagValue)
  | 0x7a => some .dictionary
  | _ => none

/-- Its `case` labels with an inner `switch` on the second byte, whose one label is `0x1`. -/
def caseInner : UInt8 → Option Field
  | 0x80 => some (.optional .status)
  | 0x88 => some (.optional .memoryFootprint)
  | 0x92 => some .requests
  | 0x9a => some (.string .schema)
  | 0xa0 => some (.single .tagName)
  | 0xa2 => some (.packed .tagName)
  | 0xa8 => some (.single .tagValue)
  | 0xaa => some (.packed .tagValue)
  | 0xb2 => some (.packed .timerRuUtime)
  | 0xb5 => some (.single .timerRuUtime)
  | 0xba => some (.packed .timerRuStime)
  | 0xbd => some (.single .timerRuStime)
  | _ => none

/-- Where the `switch` of `unpack_merge` goes. -/
inductive Case
  /-- To the code of a field, with the buffer moved past its tag. -/
  | field (f : Field) (buffer : Bytes)
  /-- To `skip_field`, on a field that begins with this byte. -/
  | skip (first : UInt8)
  /-- To `return PROTOBUF_C__WRONG_MESSAGE`. -/
  | wrong

/-- The `switch` of `unpack_merge` on a buffer that begins with `first`. -/
def switch (first : UInt8) (buffer : Bytes) : Case :=
  match caseOuter first, caseInner first, buffer with
  | some f, _, buffer => .field f buffer
  | none, none, _ => .skip first
  | none, some _, [] => .wrong
  | none, some f, 0x1 :: buffer => .field f buffer
  | none, some _, _ :: _ => .skip first

/-- The tag of a field, as `pack` writes it. -/
def Field.tag : Field → Bytes
  | .string .hostname => [0x0a]
  | .string .serverName => [0x12]
  | .string .scriptName => [0x1a]
  | .number .requestCount => [0x20]
  | .number .documentSize => [0x28]
  | .number .memoryPeak => [0x30]
  | .number .requestTime => [0x3d]
  | .number .ruUtime => [0x45]
  | .number .ruStime => [0x4d]
  | .single .timerHitCount => [0x50]
  | .packed .timerHitCount => [0x52]
  | .single .timerValue => [0x5d]
  | .packed .timerValue => [0x5a]
  | .single .timerTagCount => [0x60]
  | .packed .timerTagCount => [0x62]
  | .single .timerTagName => [0x68]
  | .packed .timerTagName => [0x6a]
  | .single .timerTagValue => [0x70]
  | .packed .timerTagValue => [0x72]
  | .dictionary => [0x7a]
  | .optional .status => [0x80, 0x1]
  | .optional .memoryFootprint => [0x88, 0x1]
  | .requests => [0x92, 0x1]
  | .string .schema => [0x9a, 0x1]
  | .single .tagName => [0xa0, 0x1]
  | .packed .tagName => [0xa2, 0x1]
  | .single .tagValue => [0xa8, 0x1]
  | .packed .tagValue => [0xaa, 0x1]
  | .single .timerRuUtime => [0xb5, 0x1]
  | .packed .timerRuUtime => [0xb2, 0x1]
  | .single .timerRuStime => [0xbd, 0x1]
  | .packed .timerRuStime => [0xba, 0x1]

/-- A field the program does not know, by the first byte of its tag and what follows. -/
def Unknown (first : UInt8) (rest : Bytes) : Prop :=
  caseOuter first = none ∧ (caseInner first = none ∨ ∃ second after, rest = second :: after ∧ second ≠ 0x1)

/-- The outer `switch` takes a field by its tag of one byte. -/
theorem caseOuter_eq_some {first : UInt8} {f : Field} (h : caseOuter first = some f) :
    f.tag = [first] := by
  revert h
  unfold caseOuter
  split <;> intro h <;> cases h <;> rfl

/-- The inner one takes it by its tag of two bytes. -/
theorem caseInner_eq_some {first : UInt8} {f : Field} (h : caseInner first = some f) :
    f.tag = [first, 0x1] := by
  revert h
  unfold caseInner
  split <;> intro h <;> cases h <;> rfl

/-- **The `switch` goes to a field exactly on its tag.** -/
theorem switch_eq_field_iff (first : UInt8) (buffer rest : Bytes) (f : Field) :
    switch first buffer = .field f rest ↔ first :: buffer = f.tag ++ rest := by
  constructor
  · intro h
    unfold switch at h
    split at h
    case h_1 g _ _ hf =>
      cases h
      rw [caseOuter_eq_some hf, List.singleton_append]
    case h_4 g _ _ hf =>
      cases h
      rw [caseInner_eq_some hf]
      rfl
    all_goals cases h
  · intro h
    cases f with
    | string f => cases f <;> cases h <;> rfl
    | number f => cases f <;> cases h <;> rfl
    | optional f => cases f <;> cases h <;> rfl
    | single f => cases f <;> cases h <;> rfl
    | packed f => cases f <;> cases h <;> rfl
    | dictionary => cases h; rfl
    | requests => cases h; rfl

/-- **The `switch` goes to `skip_field` exactly on the fields it does not know.** -/
theorem switch_eq_skip_iff (first b : UInt8) (buffer : Bytes) :
    switch first buffer = .skip b ↔ b = first ∧ Unknown first buffer := by
  unfold switch Unknown
  constructor
  · intro h
    split at h
    case h_2 houter hinner =>
      cases h
      exact ⟨rfl, houter, .inl hinner⟩
    case h_5 second after hne houter hinner =>
      cases h
      exact ⟨rfl, houter, .inr ⟨second, after, rfl, hne⟩⟩
    all_goals cases h
  · rintro ⟨rfl, houter, hinner | ⟨second, after, rfl, hne⟩⟩
    · rw [houter, hinner]
    · rw [houter]
      cases hinner : caseInner b with
      | none => rfl
      | some f =>
        split
        case h_5 => rfl
        all_goals simp_all

end Tinypinba
