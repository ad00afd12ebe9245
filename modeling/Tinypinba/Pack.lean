import Tinypinba.Foundation.Contract
import Tinypinba.Records

/-! # Packing

`pinba__request__get_packed_size` and `pinba__request__pack` (`pinba.pb-c.c`). `pack` writes into an
array of the caller, through a pointer `p` that moves on; a nested message is packed behind one byte
left free for its length, and moved up when the length turns out to need more. A write outside the array
is undefined.

`encode` is the string that `pack` writes, as a function of the message: the records of the message, each
in its shortest spelling. -/

namespace Tinypinba

/-! ## Sizes -/

/-- The size of a word as `pack` writes it. -/
def wordSize : WordKind → UInt32 → ℕ
  | .varint, v => uint32Size v
  | .fixed32, _ => 4

/-- What `get_packed_size` adds for an array of words: the tags, and the words. -/
def wordsSize (tagSize : ℕ) (kind : WordKind) (vs : List UInt32) : ℕ :=
  if 0 < vs.length then tagSize * vs.length + (vs.map (wordSize kind)).sum else 0

/-- What it adds for an optional word. -/
def optionalSize (tagSize : ℕ) : Option UInt32 → ℕ
  | some v => tagSize + uint32Size v
  | none => 0

mutual

/-- `pinba__request__get_packed_size` -/
def getPackedSize : Message → ℕ
  | ⟨fields, requests⟩ =>
    1 + stringSize (fields.strings .hostname).str +
    (1 + stringSize (fields.strings .serverName).str) +
    (1 + stringSize (fields.strings .scriptName).str) +
    (1 + uint32Size (fields.numbers .requestCount)) +
    (1 + uint32Size (fields.numbers .documentSize)) +
    (1 + uint32Size (fields.numbers .memoryPeak)) +
    (1 + 4) + (1 + 4) + (1 + 4) +
    wordsSize 1 .varint (fields.repeated .timerHitCount) +
    wordsSize 1 .fixed32 (fields.repeated .timerValue) +
    wordsSize 1 .varint (fields.repeated .timerTagCount) +
    wordsSize 1 .varint (fields.repeated .timerTagName) +
    wordsSize 1 .varint (fields.repeated .timerTagValue) +
    (if 0 < fields.dictionary.length then
      1 * fields.dictionary.length + (fields.dictionary.map fun entry => stringSize entry.str).sum
    else 0) +
    optionalSize 2 (fields.optionals .status) +
    optionalSize 2 (fields.optionals .memoryFootprint) +
    (if 0 < requests.length then 2 * requests.length + getPackedSizes requests else 0) +
    (2 + stringSize (fields.strings .schema).str) +
    wordsSize 2 .varint (fields.repeated .tagName) +
    wordsSize 2 .varint (fields.repeated .tagValue) +
    wordsSize 2 .fixed32 (fields.repeated .timerRuUtime) +
    wordsSize 2 .fixed32 (fields.repeated .timerRuStime)

/-- Its loop over the nested messages. -/
def getPackedSizes : List Message → ℕ
  | [] => 0
  | message :: messages => submessageSize (getPackedSize message) + getPackedSizes messages

end

/-! ## The program -/

/-- The array that `pack` writes to, and how far it has come. -/
structure Packing where
  /-- The bytes of the array. -/
  out : Bytes
  /-- `p - out` -/
  p : ℕ

/-- A program in `pack`; it stops at an access outside the array. -/
abbrev Pack : Type → Type := EStateM Undefined Packing

/-- A store of several bytes. -/
def store (pos : ℕ) (bytes : Bytes) : Pack Unit := fun s =>
  if s.out.length < pos + bytes.length then .error .badAccess s
  else .ok () { s with out := s.out.take pos ++ bytes ++ s.out.drop (pos + bytes.length) }

/-- `memmove` inside the array. -/
def memmove (dst src length : ℕ) : Pack Unit := fun s =>
  if s.out.length < src + length then .error .badAccess s
  else store dst ((s.out.drop src).take length) s

/-- `p += n` -/
def advance (n : ℕ) : Pack Unit := modify fun s => { s with p := s.p + n }

/-- A store at `p`, which moves on behind it. -/
def emit (bytes : Bytes) : Pack Unit := do
  store (← get).p bytes
  advance bytes.length

/-- A word. -/
def wordPack : WordKind → UInt32 → Bytes
  | .varint, v => uint32Pack v
  | .fixed32, v => fixed32Pack v

/-- The code for a string. -/
def packString (tag : Bytes) (str : CString) : Pack Unit := do
  emit tag
  emit (stringPack str)

/-- The code for a required word. -/
def packWord (tag : Bytes) (kind : WordKind) (v : UInt32) : Pack Unit := do
  emit tag
  emit (wordPack kind v)

/-- The loop over an array. -/
def packEach {α : Type} (code : α → Pack Unit) : List α → Pack Unit
  | [] => pure ()
  | a :: as => do
    code a
    packEach code as

/-- The code for an optional word. -/
def packOptional (tag : Bytes) : Option UInt32 → Pack Unit
  | some v => packWord tag .varint v
  | none => pure ()

/-- A nested message, packed by `packNested`, behind its length: the length takes the byte left free for
it, and the message moves up when the length needs more. -/
def packBlock (packNested : Pack Unit) : Pack Unit := do
  let varintLengthP := (← get).p
  advance 1
  packNested
  let length := (← get).p - (varintLengthP + 1)
  let varintLength := uint32Size (UInt32.ofNat length)
  if varintLength ≠ 1 then
    memmove (varintLengthP + varintLength) (varintLengthP + 1) length
    advance (varintLength - 1)
  store varintLengthP (uint32Pack (UInt32.ofNat length))

/-- The fields before `requests`. -/
def packHead (fields : Fields) : Pack Unit := do
  packString (Field.tag (.string .hostname)) (fields.strings .hostname).str
  packString (Field.tag (.string .serverName)) (fields.strings .serverName).str
  packString (Field.tag (.string .scriptName)) (fields.strings .scriptName).str
  packWord (Field.tag (.number .requestCount)) .varint (fields.numbers .requestCount)
  packWord (Field.tag (.number .documentSize)) .varint (fields.numbers .documentSize)
  packWord (Field.tag (.number .memoryPeak)) .varint (fields.numbers .memoryPeak)
  packWord (Field.tag (.number .requestTime)) .fixed32 (fields.numbers .requestTime)
  packWord (Field.tag (.number .ruUtime)) .fixed32 (fields.numbers .ruUtime)
  packWord (Field.tag (.number .ruStime)) .fixed32 (fields.numbers .ruStime)
  packEach (packWord (Field.tag (.single .timerHitCount)) .varint) (fields.repeated .timerHitCount)
  packEach (packWord (Field.tag (.single .timerValue)) .fixed32) (fields.repeated .timerValue)
  packEach (packWord (Field.tag (.single .timerTagCount)) .varint) (fields.repeated .timerTagCount)
  packEach (packWord (Field.tag (.single .timerTagName)) .varint) (fields.repeated .timerTagName)
  packEach (packWord (Field.tag (.single .timerTagValue)) .varint) (fields.repeated .timerTagValue)
  packEach (fun entry => packString (Field.tag .dictionary) entry.str) fields.dictionary
  packOptional (Field.tag (.optional .status)) (fields.optionals .status)
  packOptional (Field.tag (.optional .memoryFootprint)) (fields.optionals .memoryFootprint)

/-- The fields after `requests`; `schema` is an array and never `NULL`. -/
def packTail (fields : Fields) : Pack Unit := do
  packString (Field.tag (.string .schema)) (fields.strings .schema).str
  packEach (packWord (Field.tag (.single .tagName)) .varint) (fields.repeated .tagName)
  packEach (packWord (Field.tag (.single .tagValue)) .varint) (fields.repeated .tagValue)
  packEach (packWord (Field.tag (.single .timerRuUtime)) .fixed32) (fields.repeated .timerRuUtime)
  packEach (packWord (Field.tag (.single .timerRuStime)) .fixed32) (fields.repeated .timerRuStime)

mutual

/-- `pinba__request__pack` -/
def pack : Message → Pack Unit
  | ⟨fields, requests⟩ => do
    packHead fields
    packRequests requests
    packTail fields

/-- Its loop over the nested messages. -/
def packRequests : List Message → Pack Unit
  | [] => pure ()
  | message :: messages => do
    emit (Field.tag .requests)
    packBlock (pack message)
    packRequests messages

end

/-! ## What is packed -/

/-- The records before the nested messages, in the order of `pack`. -/
def Fields.head (fields : Fields) : List Record :=
  [.string .hostname (fields.strings .hostname).str.bytes,
    .string .serverName (fields.strings .serverName).str.bytes,
    .string .scriptName (fields.strings .scriptName).str.bytes,
    .number .requestCount (fields.numbers .requestCount),
    .number .documentSize (fields.numbers .documentSize),
    .number .memoryPeak (fields.numbers .memoryPeak),
    .number .requestTime (fields.numbers .requestTime),
    .number .ruUtime (fields.numbers .ruUtime),
    .number .ruStime (fields.numbers .ruStime)] ++
  ((fields.repeated .timerHitCount).map (.single .timerHitCount) ++
  ((fields.repeated .timerValue).map (.single .timerValue) ++
  ((fields.repeated .timerTagCount).map (.single .timerTagCount) ++
  ((fields.repeated .timerTagName).map (.single .timerTagName) ++
  ((fields.repeated .timerTagValue).map (.single .timerTagValue) ++
  (fields.dictionary.map (fun entry => .dictionary entry.str.bytes) ++
  ((fields.optionals .status).toList.map (.optional .status) ++
  (fields.optionals .memoryFootprint).toList.map (.optional .memoryFootprint))))))))

/-- The records after them. -/
def Fields.tail (fields : Fields) : List Record :=
  .string .schema (fields.strings .schema).str.bytes ::
  ((fields.repeated .tagName).map (.single .tagName) ++
  ((fields.repeated .tagValue).map (.single .tagValue) ++
  ((fields.repeated .timerRuUtime).map (.single .timerRuUtime) ++
  (fields.repeated .timerRuStime).map (.single .timerRuStime))))

/-- Bytes with their number in front. -/
def blockPack (bytes : Bytes) : Bytes := uint32Pack (UInt32.ofNat bytes.length) ++ bytes

/-- The spelling of a record that `pack` chooses; it writes no packed arrays. -/
def Record.encode : Record → Bytes
  | .string f bytes => Field.tag (.string f) ++ blockPack bytes
  | .number f v => Field.tag (.number f) ++ wordPack f.kind v
  | .optional f v => Field.tag (.optional f) ++ uint32Pack v
  | .single f v => Field.tag (.single f) ++ wordPack f.kind v
  | .dictionary bytes => Field.tag .dictionary ++ blockPack bytes
  | .packed _ _ | .request _ | .unknown => []

/-- Several records, one after the other. -/
def encodeRecords (records : List Record) : Bytes := records.flatMap Record.encode

mutual

/-- The string that `pack` writes. -/
def Message.encode : Message → Bytes
  | ⟨fields, requests⟩ =>
    encodeRecords fields.head ++ (Message.encodeAll requests ++ encodeRecords fields.tail)

/-- The part of it for nested messages. -/
def Message.encodeAll : List Message → Bytes
  | [] => []
  | message :: messages =>
    Field.tag .requests ++ blockPack message.encode ++ Message.encodeAll messages

end

/-! ## Writing in place -/

/-- Where there is room for them behind what is already written, the program writes these bytes, and
touches nothing else. -/
def Writes (m : Pack Unit) (bytes : Bytes) : Prop :=
  ∀ pre junk, bytes.length ≤ junk.length → m ⟨pre ++ junk, pre.length⟩ =
    .ok () ⟨pre ++ bytes ++ junk.drop bytes.length, (pre ++ bytes).length⟩

/-- The bytes may be described in another way. -/
theorem Writes.congr {m : Pack Unit} {a b : Bytes} (h : Writes m a) (hab : a = b) : Writes m b :=
  hab ▸ h

/-- Doing nothing writes nothing. -/
theorem writes_pure : Writes (pure ()) [] := by
  intro pre junk _
  show EStateM.Result.ok () _ = _
  rw [List.append_nil, List.length_nil, List.drop_zero]

/-- **Programs one after the other** write one string after the other. -/
theorem Writes.bind {m n : Pack Unit} {a b : Bytes} (hm : Writes m a) (hn : Writes n b) :
    Writes (do m; n) (a ++ b) := by
  intro pre junk hroom
  rw [List.length_append] at hroom
  have ha := hm pre junk (by omega)
  have hb := hn (pre ++ a) (junk.drop a.length) (by rw [List.length_drop]; omega)
  have hdrop : (junk.drop a.length).drop b.length = junk.drop (a ++ b).length := by
    rw [List.drop_drop, List.length_append]
  rw [bind_of_ok ha, hb, hdrop, List.append_assoc pre a b]

/-- Writing over part of an array. -/
theorem store_eq (pre junk : Bytes) {old bytes : Bytes} (p : ℕ) (h : old.length = bytes.length) :
    store pre.length bytes ⟨pre ++ old ++ junk, p⟩ = .ok () ⟨pre ++ bytes ++ junk, p⟩ := by
  have hroom : ¬ (pre ++ old ++ junk).length < pre.length + bytes.length := by
    rw [List.length_append, List.length_append]
    omega
  have htake : (pre ++ old ++ junk).take pre.length = pre := by
    rw [List.append_assoc, List.take_left]
  have hdrop : (pre ++ old ++ junk).drop (pre.length + bytes.length) = junk := by
    rw [← h, ← List.length_append, List.drop_left]
  rw [store, if_neg hroom]
  simp only [htake, hdrop]

/-- Bytes that are copied are written. -/
theorem writes_emit (bytes : Bytes) : Writes (emit bytes) bytes := by
  intro pre junk hroom
  have hlength : (junk.take bytes.length).length = bytes.length := List.length_take_of_le hroom
  have hstore := store_eq pre (junk.drop bytes.length) pre.length hlength
  rw [List.append_assoc pre, List.take_append_drop] at hstore
  show (store pre.length bytes >>= fun _ => advance bytes.length) _ = _
  rw [bind_of_ok hstore, List.length_append]
  rfl

/-- A string field is its tag and a block. -/
theorem writes_packString (tag : Bytes) (str : CString) :
    Writes (packString tag str) (tag ++ blockPack str.bytes) :=
  (writes_emit tag).bind (writes_emit (stringPack str))

/-- A number is its tag and a word. -/
theorem writes_packWord (tag : Bytes) (kind : WordKind) (v : UInt32) :
    Writes (packWord tag kind v) (tag ++ wordPack kind v) :=
  (writes_emit tag).bind (writes_emit (wordPack kind v))

/-- A loop writes what its passes write. -/
theorem writes_packEach {α : Type} {code : α → Pack Unit} {r : α → Record}
    (h : ∀ a, Writes (code a) (r a).encode) (as : List α) :
    Writes (packEach code as) (encodeRecords (as.map r)) := by
  induction as with
  | nil => exact writes_pure
  | cons a as ih => exact (h a).bind ih

/-- An optional number is written if it is there. -/
theorem writes_packOptional (f : OptionalField) (v : Option UInt32) :
    Writes (packOptional (Field.tag (.optional f)) v) (encodeRecords (v.toList.map (.optional f))) := by
  cases v with
  | none => exact writes_pure
  | some v => exact (writes_packWord _ .varint v).congr (List.append_nil _).symm

/-- The first record is written first. -/
theorem encodeRecords_cons (r : Record) (rs : List Record) :
    encodeRecords (r :: rs) = r.encode ++ encodeRecords rs :=
  List.flatMap_cons

/-- Records written in two parts. -/
theorem encodeRecords_append (rs ss : List Record) :
    encodeRecords (rs ++ ss) = encodeRecords rs ++ encodeRecords ss :=
  List.flatMap_append

/-- Where a message is packed behind a byte for its length, moving it up makes room for the length. -/
theorem memmove_eq (pre body junk : Bytes) (x : UInt8) (p : ℕ) {k : ℕ} (hk : 0 < k)
    (hroom : k - 1 ≤ junk.length) :
    ∃ old, old.length = k ∧ memmove (pre.length + k) (pre.length + 1) body.length
      ⟨pre ++ ([x] ++ (body ++ junk)), p⟩ = .ok () ⟨pre ++ old ++ (body ++ junk.drop (k - 1)), p⟩ := by
  have hsrc : ((pre ++ ([x] ++ (body ++ junk))).drop (pre.length + 1)).take body.length = body := by
    rw [← List.append_assoc pre, ← List.length_singleton (a := x), ← List.length_append, List.drop_left,
      List.take_left]
  have hlength : (pre ++ ([x] ++ (body ++ junk))).length = pre.length + (1 + (body.length + junk.length)) := by
    rw [List.length_append, List.length_append, List.length_append, List.length_singleton]
  -- the first `k` bytes behind `pre` are going to be the length
  have htake : (pre ++ ([x] ++ (body ++ junk))).take (pre.length + k) =
      pre ++ ([x] ++ (body ++ junk)).take k := List.take_length_add_append k
  have hdrop : (pre ++ ([x] ++ (body ++ junk))).drop (pre.length + k + body.length) =
      junk.drop (k - 1) := by
    have hsum : pre.length + k + body.length = (pre ++ ([x] ++ body)).length + (k - 1) := by
      rw [List.length_append, List.length_append, List.length_singleton]
      omega
    rw [hsum, ← List.append_assoc [x], ← List.append_assoc pre ([x] ++ body), List.drop_length_add_append]
  refine ⟨([x] ++ (body ++ junk)).take k, ?_, ?_⟩
  · rw [List.length_take, List.length_append, List.length_append, List.length_singleton]
    omega
  · have hread : ¬ (pre ++ ([x] ++ (body ++ junk))).length < pre.length + 1 + body.length := by omega
    have hwrite : ¬ (pre ++ ([x] ++ (body ++ junk))).length < pre.length + k + body.length := by omega
    rw [memmove, if_neg hread]
    simp only [hsrc]
    rw [store, if_neg hwrite]
    simp only [htake, hdrop, List.append_assoc]

/-- **A nested message** ends up behind its length. -/
theorem writes_packBlock {packNested : Pack Unit} {body : Bytes} (h : Writes packNested body) :
    Writes (packBlock packNested) (blockPack body) := by
  intro pre junk hroom
  have hsize := length_uint32Pack (UInt32.ofNat body.length)
  have hpos : 0 < uint32Size (UInt32.ofNat body.length) := by
    rw [← hsize]
    exact (spellsUint32_uint32Pack _).1.length_pos
  rw [blockPack, List.length_append, hsize] at hroom
  cases junk with
  | nil =>
    rw [List.length_nil] at hroom
    omega
  | cons x junk =>
    rw [List.length_cons] at hroom
    have hnested := h (pre ++ [x]) junk (by omega)
    have hp : (pre ++ [x]).length = pre.length + 1 := List.length_append
    rw [hp, List.append_assoc pre [x] junk, List.append_assoc _ body, List.append_assoc pre [x]] at hnested
    have hlength : (pre ++ [x] ++ body).length - (pre.length + 1) = body.length := by
      rw [List.length_append, hp, Nat.add_sub_cancel_left]
    show (packNested >>= _) ⟨pre ++ ([x] ++ junk), pre.length + 1⟩ = _
    rw [bind_of_ok hnested]
    show (if uint32Size (UInt32.ofNat ((pre ++ [x] ++ body).length - (pre.length + 1))) ≠ 1 then _ else _ :
      Pack Unit) _ = _
    rw [hlength]
    generalize hk : uint32Size (UInt32.ofNat body.length) = k at hroom hpos hsize
    -- what is left of the array behind the length and the message
    have hrest : (x :: junk).drop (blockPack body).length = (junk.drop body.length).drop (k - 1) := by
      have hsum : (blockPack body).length = body.length + (k - 1) + 1 := by
        rw [blockPack, List.length_append, hsize]
        omega
      rw [hsum, List.drop_succ_cons, List.drop_drop]
    have hend : (pre ++ [x] ++ body).length + (k - 1) = (pre ++ blockPack body).length := by
      rw [blockPack, List.length_append, hp, List.length_append, List.length_append, hsize]
      omega
    by_cases hone : k = 1
    · rw [if_neg (not_not.mpr hone)]
      have hold : [x].length = (uint32Pack (UInt32.ofNat body.length)).length := by
        rw [hsize, hone]
        rfl
      have hstore := store_eq pre (body ++ junk.drop body.length) (pre ++ [x] ++ body).length hold
      rw [List.append_assoc pre [x]] at hstore
      show store pre.length (uint32Pack (UInt32.ofNat body.length)) _ = _
      rw [hstore, hrest, ← hend, hone, Nat.sub_self, List.drop_zero, Nat.add_zero, blockPack]
      simp only [List.append_assoc]
    · rw [if_pos hone]
      obtain ⟨old, hold, hmove⟩ := memmove_eq pre body (junk.drop body.length) x (pre ++ [x] ++ body).length
        hpos (by rw [List.length_drop]; omega)
      have hstore := store_eq pre (body ++ (junk.drop body.length).drop (k - 1))
        ((pre ++ [x] ++ body).length + (k - 1)) (hold.trans hsize.symm)
      show (memmove (pre.length + k) (pre.length + 1) body.length >>= _) _ = _
      rw [bind_of_ok hmove]
      show store pre.length (uint32Pack (UInt32.ofNat body.length)) _ = _
      rw [hstore, hrest, hend, blockPack]
      simp only [List.append_assoc]

/-- The fields in front of the nested requests. -/
theorem writes_packHead (fields : Fields) : Writes (packHead fields) (encodeRecords fields.head) := by
  have hstring (f : StringField) :
      Writes (packString (Field.tag (.string f)) (fields.strings f).str)
        (Record.string f (fields.strings f).str.bytes).encode :=
    writes_packString _ _
  have hwords (f : RepeatedField) :
      Writes (packEach (packWord (Field.tag (.single f)) f.kind) (fields.repeated f))
        (encodeRecords ((fields.repeated f).map (.single f))) :=
    writes_packEach (r := Record.single f) (fun v => writes_packWord _ _ v) _
  have hdictionary : Writes (packEach (fun entry => packString (Field.tag .dictionary) entry.str)
      fields.dictionary) (encodeRecords (fields.dictionary.map fun entry => .dictionary entry.str.bytes)) :=
    writes_packEach (r := fun entry : CharArray dictionaryEntrySize => Record.dictionary entry.str.bytes)
      (fun entry => writes_packString _ entry.str) _
  have hword (f : NumberField) :
      Writes (packWord (Field.tag (.number f)) f.kind (fields.numbers f))
        (Record.number f (fields.numbers f)).encode :=
    writes_packWord _ _ _
  refine ((hstring .hostname).bind <| (hstring .serverName).bind <| (hstring .scriptName).bind <|
    (hword .requestCount).bind <| (hword .documentSize).bind <| (hword .memoryPeak).bind <|
    (hword .requestTime).bind <| (hword .ruUtime).bind <| (hword .ruStime).bind <|
    (hwords .timerHitCount).bind <| (hwords .timerValue).bind <| (hwords .timerTagCount).bind <|
    (hwords .timerTagName).bind <| (hwords .timerTagValue).bind <| hdictionary.bind <|
    (writes_packOptional .status _).bind (writes_packOptional .memoryFootprint _)).congr ?_
  simp only [Fields.head, encodeRecords_append, encodeRecords_cons, List.cons_append, List.nil_append]

/-- The fields behind the nested requests. -/
theorem writes_packTail (fields : Fields) : Writes (packTail fields) (encodeRecords fields.tail) := by
  have hstring :
      Writes (packString (Field.tag (.string .schema)) (fields.strings .schema).str)
        (Record.string .schema (fields.strings .schema).str.bytes).encode :=
    writes_packString _ _
  have hwords (f : RepeatedField) :
      Writes (packEach (packWord (Field.tag (.single f)) f.kind) (fields.repeated f))
        (encodeRecords ((fields.repeated f).map (.single f))) :=
    writes_packEach (r := Record.single f) (fun v => writes_packWord _ _ v) _
  refine (hstring.bind <| (hwords .tagName).bind <| (hwords .tagValue).bind <|
    (hwords .timerRuUtime).bind (hwords .timerRuStime)).congr ?_
  simp only [Fields.tail, encodeRecords_append, encodeRecords_cons]

mutual

/-- **`pack` writes the encoding of the message**, and leaves the array behind it alone. -/
theorem writes_pack : ∀ message, Writes (pack message) message.encode
  | ⟨fields, requests⟩ => by
    have hrequests := writes_packRequests requests
    rw [pack, Message.encode]
    exact (writes_packHead fields).bind (hrequests.bind (writes_packTail fields))

/-- Nested requests are written one after the other, each as a block. -/
theorem writes_packRequests : ∀ messages, Writes (packRequests messages) (Message.encodeAll messages)
  | [] => by
    rw [packRequests, Message.encodeAll]
    exact writes_pure
  | message :: messages => by
    have hblock := writes_packBlock (writes_pack message)
    rw [packRequests, Message.encodeAll]
    exact ((writes_emit _).bind (hblock.bind (writes_packRequests messages))).congr
      (List.append_assoc _ _ _).symm

end

/-! ## The size of a packed message -/

/-- A word has the size computed for it. -/
theorem length_wordPack (kind : WordKind) (v : UInt32) : (wordPack kind v).length = wordSize kind v := by
  cases kind with
  | varint => exact length_uint32Pack v
  | fixed32 => rfl

/-- A block has the size computed for it. -/
theorem length_blockPack (bytes : Bytes) : (blockPack bytes).length = submessageSize bytes.length := by
  rw [blockPack, List.length_append, length_uint32Pack, submessageSize]

/-- The tests of `get_packed_size` save work and change nothing. -/
theorem ite_length_eq {α : Type} {as : List α} {n : ℕ} (h : as = [] → n = 0) :
    (if 0 < as.length then n else 0) = n := by
  by_cases hpos : 0 < as.length
  · rw [if_pos hpos]
  · rw [if_neg hpos, h (List.eq_nil_of_length_eq_zero (by omega))]

/-- The size of a repeated field is that of its tags and its words, also when there are none. -/
theorem wordsSize_eq (tagSize : ℕ) (kind : WordKind) (vs : List UInt32) :
    wordsSize tagSize kind vs = tagSize * vs.length + (vs.map (wordSize kind)).sum := by
  refine ite_length_eq fun h => ?_
  rw [h]
  rfl

/-- A repeated field has the size computed for it. -/
theorem length_encode_words (f : RepeatedField) (vs : List UInt32) :
    (encodeRecords (vs.map (.single f))).length =
      wordsSize (Field.tag (.single f)).length f.kind vs := by
  rw [wordsSize_eq]
  induction vs with
  | nil => rfl
  | cons v vs ih =>
    rw [List.map_cons, encodeRecords_cons, List.length_append, ih, Record.encode, List.length_append,
      length_wordPack, List.map_cons, List.sum_cons, List.length_cons]
    ring

/-- So has the dictionary. -/
theorem length_encode_dictionary (entries : List (CharArray dictionaryEntrySize)) :
    (encodeRecords (entries.map fun entry => .dictionary entry.str.bytes)).length =
      if 0 < entries.length then
        1 * entries.length + (entries.map fun entry => stringSize entry.str).sum
      else 0 := by
  rw [ite_length_eq fun h => by rw [h]; rfl]
  induction entries with
  | nil => rfl
  | cons entry entries ih =>
    rw [List.map_cons, encodeRecords_cons, List.length_append, ih, Record.encode, List.length_append,
      length_blockPack, List.map_cons, List.sum_cons, List.length_cons]
    show 1 + stringSize entry.str + _ = _
    ring

/-- So has an optional field. -/
theorem length_encode_optional (f : OptionalField) (v : Option UInt32) :
    (encodeRecords (v.toList.map (.optional f))).length = optionalSize 2 v := by
  cases v with
  | none => rfl
  | some v =>
    have htag : (Field.tag (.optional f)).length = 2 := by
      cases f <;> rfl
    show (encodeRecords [.optional f v]).length = _
    rw [encodeRecords_cons, List.length_append, Record.encode, List.length_append, length_uint32Pack, htag]
    rfl

/-- So has a string. -/
theorem length_encode_string (f : StringField) (str : CString) :
    (Record.string f str.bytes).encode.length = (Field.tag (.string f)).length + stringSize str := by
  rw [Record.encode, List.length_append, length_blockPack, stringSize]

/-- So has a number. -/
theorem length_encode_number (f : NumberField) (v : UInt32) :
    (Record.number f v).encode.length = 1 + wordSize f.kind v := by
  have htag : (Field.tag (.number f)).length = 1 := by
    cases f <;> rfl
  rw [Record.encode, List.length_append, length_wordPack, htag]

mutual

/-- **`get_packed_size` is the length of what `pack` writes.** -/
theorem length_encode : ∀ message : Message, message.encode.length = getPackedSize message
  | ⟨fields, requests⟩ => by
    have hrequests := length_encodeAll requests
    have hsizes : (Message.encodeAll requests).length =
        if 0 < requests.length then 2 * requests.length + getPackedSizes requests else 0 := by
      rw [hrequests, ite_length_eq fun h => by rw [h]; rfl]
    rw [Message.encode, getPackedSize, List.length_append, List.length_append, hsizes]
    simp only [Fields.head, Fields.tail, encodeRecords_append, encodeRecords_cons, List.cons_append,
      List.nil_append, List.length_append, length_encode_string, length_encode_number, length_encode_words,
      length_encode_dictionary, length_encode_optional]
    simp only [Field.tag, List.length_cons, List.length_nil, NumberField.kind, RepeatedField.kind, wordSize,
      Nat.reduceAdd]
    omega

/-- Nested requests have the sizes computed for them, and a tag each. -/
theorem length_encodeAll : ∀ messages : List Message,
    (Message.encodeAll messages).length = 2 * messages.length + getPackedSizes messages
  | [] => rfl
  | message :: messages => by
    rw [Message.encodeAll, getPackedSizes, List.length_append, List.length_append, length_blockPack,
      length_encode message, length_encodeAll messages, List.length_cons]
    show 2 + _ + _ = _
    ring

end

end Tinypinba
