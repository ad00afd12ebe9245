import Tinypinba.Packets

/-! # Numbers that are too long

`read_uint32` and `read_int32` shift by seven more for every byte that continues a number and never look
at how many there have been. Here it is shown that this is the only way to undefined behaviour, and which
packets lead there: a packet without five such bytes in a row never does. -/

namespace Tinypinba

open Decoder

/-- Five bytes in a row with the high bit set. -/
def Overlong (data : Bytes) : Prop := ∃ run, run <:+: data ∧ run.length = 5 ∧ ∀ b ∈ run, 128 ≤ b.toNat

/-- A string with an overlong part is overlong. -/
theorem Overlong.of_part {part data : Bytes} (h : Overlong part) (hpart : part <:+: data) :
    Overlong data := by
  obtain ⟨run, hrun, hlength, hmore⟩ := h
  exact ⟨run, hrun.trans hpart, hlength, hmore⟩

/-- A string stays overlong behind others. -/
theorem Overlong.append (front : Bytes) {back : Bytes} (h : Overlong back) : Overlong (front ++ back) :=
  h.of_part (List.suffix_append front back).isInfix

/-- A decoder that goes wrong on overlong numbers only. -/
abbrev Careful {α : Type} (d : Read α) : Prop := Blames .badShift Overlong d

/-! ## Numbers -/

/-- The loop shifts too far when more bytes continue the number than fit into it. -/
theorem readVarintLoop_eq_badShift {w i : ℕ} {tmp : BitVec w} {buffer : Bytes}
    (h : readVarintLoop w i tmp buffer = .error .badShift) :
    ∃ front rest, buffer = front ++ rest ∧ (∀ b ∈ front, 128 ≤ b.toNat) ∧ w ≤ (i + front.length) * 7 := by
  induction buffer generalizing i tmp with
  | nil => cases h
  | cons b buffer ih =>
    rw [readVarintLoop] at h
    by_cases hshift : i * 7 < w
    · rw [if_pos hshift] at h
      by_cases hlast : b.toNat < 128
      · rw [if_neg (not_not.mpr ((shiftRight_seven_eq_zero_iff b).mpr hlast))] at h
        cases h
      · rw [if_pos (mt (shiftRight_seven_eq_zero_iff b).mp hlast)] at h
        obtain ⟨front, rest, rfl, hmore, hlength⟩ := ih h
        refine ⟨b :: front, rest, rfl, ?_, ?_⟩
        · intro c hc
          obtain rfl | hc := List.mem_cons.mp hc
          · omega
          · exact hmore c hc
        · rw [List.length_cons]
          omega
    · refine ⟨[], b :: buffer, rfl, fun _ h => ?_, ?_⟩
      · cases h
      · rw [List.length_nil]
        omega

/-- A varint into a word of more than 28 bits is shifted out of the word by its sixth byte at the
earliest. -/
theorem careful_readVarint {w : ℕ} (hw : 28 < w) : Careful (readVarint w) := by
  intro buffer h
  obtain ⟨front, rest, rfl, hmore, hlength⟩ := readVarintLoop_eq_badShift h
  refine ⟨front.take 5, ?_, ?_, fun b hb => hmore b (List.mem_of_mem_take hb)⟩
  · exact ((List.take_prefix 5 front).trans (List.prefix_append front rest)).isInfix
  · rw [List.length_take]
    omega

/-- A `uint32_t`. -/
theorem careful_readUint32 : Careful readUint32 := (careful_readVarint (by decide)).map _

/-- An `int32_t`. -/
theorem careful_readInt32 : Careful readInt32 := (careful_readVarint (by decide)).map _

/-! ## Functions that do not shift -/

/-- A fixed word has four bytes, whatever these are. -/
theorem careful_readFixed32 : Careful readFixed32 := by
  intro buffer h
  match buffer, h with
  | [], h => cases h
  | [_], h => cases h
  | [_, _], h => cases h
  | [_, _, _], h => cases h

/-- Plain bytes are copied. -/
theorem careful_readBytes (length : ℕ) : Careful (readBytes length) := by
  intro buffer h
  change readBytes length buffer = _ at h
  rw [readBytes] at h
  split_ifs at h
  cases h

/-- A varint that is skipped is not shifted. -/
theorem careful_skipVarint : Careful skipVarint := by
  intro buffer h
  change skipVarintLoop buffer = _ at h
  induction buffer with
  | nil => cases h
  | cons b buffer ih =>
    rw [skipVarintLoop] at h
    split_ifs at h
    exact (ih h).append [b]

/-! ## Values -/

/-- A word of either kind. -/
theorem careful_readWord (kind : WordKind) : Careful (readWord kind) := by
  cases kind with
  | varint => exact careful_readUint32
  | fixed32 => exact careful_readFixed32

/-- A block: its length is a varint. -/
theorem careful_readBlock : Careful readBlock :=
  careful_readUint32.bind_of_mono decodes_readUint32 (fun length => careful_readBytes length.toNat)
    fun front _ h => h.append front

/-- The words of a packed field. -/
theorem careful_readWords (kind : WordKind) (stop fuel : ℕ) : Careful (readWords kind stop fuel) := by
  induction fuel with
  | zero => exact .pure []
  | succ fuel ih =>
    intro buffer h
    by_cases hmore : stop < buffer.length
    · rw [readWords_of_lt fuel hmore] at h
      refine (careful_readWord kind).bind_of_mono (decodes_readWord kind) (fun v => ?_)
        (fun front _ h => h.append front) buffer h
      exact ih.map _
    · rw [readWords_of_le _ (by omega)] at h
      cases h

/-- A packed field behind its length. -/
theorem careful_readPackedBody (kind : WordKind) (t : ℤ) : Careful (readPackedBody kind t) := by
  intro buffer h
  change (if (buffer.length : ℤ) < t then _ else _ : Read (List UInt32)).run buffer = _ at h
  by_cases hlong : (buffer.length : ℤ) < t
  · rw [if_pos hlong] at h
    cases h
  · rw [if_neg hlong] at h
    change ((readWords kind (buffer.length - t).toNat buffer.length) >>= fun vs => _ : Read (List UInt32)).run
      buffer = _ at h
    rw [StateT.run_bind] at h
    cases hws : (readWords kind (buffer.length - t).toNat buffer.length).run buffer with
    | error e =>
      rw [hws] at h
      cases h
      exact careful_readWords kind _ _ buffer hws
    | ok pair =>
      obtain ⟨vs, rest⟩ := pair
      rw [hws] at h
      change (if (rest.length : ℤ) < buffer.length - t then _ else _ : Read (List UInt32)).run rest = _ at h
      split_ifs at h
      · cases h
      · cases h

/-- A packed field. -/
theorem careful_readPacked (kind : WordKind) : Careful (readPacked kind) :=
  careful_readInt32.bind_of_mono decodes_readInt32 (careful_readPackedBody kind)
    fun front _ h => h.append front

/-! ## Records -/

/-- A field that is skipped. -/
theorem careful_skipField (first : UInt8) : Careful (skipField first) := by
  have hbytes : Careful skipBytes :=
    careful_readUint32.bind_of_mono decodes_readUint32 (fun v => (careful_readBytes v.toNat).map _)
      fun front _ h => h.append front
  refine careful_skipVarint.bind_of_mono decodes_skipVarint (fun _ => ?_) fun front _ h => h.append front
  unfold skipPayload
  split
  · exact careful_skipVarint
  · exact (careful_readBytes 8).map _
  · exact hbytes
  · exact (careful_readBytes 4).map _
  · exact .throw (by decide)

/-- The value of a field is decoded without a shift by too much, if what is nested in it is. -/
theorem careful_readValue {nested : Bytes → Except ReadError Message}
    (hnested : ∀ body, nested body = .error .badShift → Overlong body) (f : Field) :
    Careful (readValue nested f) := by
  cases f with
  | string f => exact careful_readBlock.map _
  | number f => exact (careful_readWord f.kind).map _
  | optional f => exact careful_readUint32.map _
  | single f => exact (careful_readWord f.kind).map _
  | packed f => exact (careful_readPacked f.kind).map _
  | dictionary => exact careful_readBlock.map _
  | requests =>
    refine careful_readBlock.bind decodes_readBlock fun body bytes rest hbytes h => ?_
    have hbody : nested body = .error .badShift := by
      cases hrun : nested body with
      | ok message =>
        rw [hrun] at h
        cases h
      | error e =>
        rw [hrun] at h
        cases h
        rfl
    -- the body lies in the bytes that have been read
    obtain ⟨len, front, -, -, rfl⟩ := hbytes
    have hinfix : body <:+: front ++ body ++ rest := ⟨front, rest, rfl⟩
    exact (hnested body hbody).of_part hinfix

/-- **Only an overlong number leads to a shift by too much.** -/
theorem overlong_of_readRecords {fuel : ℕ} {buffer : Bytes}
    (h : readRecords fuel buffer = .error .badShift) : Overlong buffer := by
  induction fuel generalizing buffer with
  | zero =>
    cases buffer with
    | nil => cases h
    | cons first buffer => cases h
  | succ fuel ih =>
    cases buffer with
    | nil => cases h
    | cons first buffer =>
      cases hrecord : readRecord (fun body => readRecords fuel body >>= ofRecords) first buffer with
      | ok pair =>
        obtain ⟨r, rest⟩ := pair
        rw [readRecords_of_ok hrecord] at h
        obtain ⟨front, -, heq⟩ := (readRecord_eq_ok_iff _ _ _ _ _).mp hrecord
        have hrest : readRecords fuel rest = .error .badShift := by
          cases hrest : readRecords fuel rest with
          | ok rs =>
            rw [hrest] at h
            cases h
          | error e =>
            rw [hrest] at h
            cases h
            rfl
        rw [heq]
        exact (ih hrest).append front
      | error e =>
        rw [readRecords_of_error hrecord] at h
        cases h
        have hnested (body : Bytes) (hbody : readRecords fuel body >>= ofRecords = .error .badShift) :
            Overlong body := by
          cases hrun : readRecords fuel body with
          | error e =>
            rw [hrun] at hbody
            cases hbody
            exact ih hrun
          | ok rs =>
            rw [hrun] at hbody
            change ofRecords rs = _ at hbody
            rw [ofRecords] at hbody
            split_ifs at hbody
            cases hbody
        rw [readRecord] at hrecord
        cases hswitch : switch first buffer with
        | field f rest =>
          rw [hswitch] at hrecord
          rw [(switch_eq_field_iff first buffer rest f).mp hswitch]
          exact (careful_readValue hnested f rest hrecord).append f.tag
        | skip b =>
          rw [hswitch] at hrecord
          obtain ⟨rfl, -⟩ := (switch_eq_skip_iff first b buffer).mp hswitch
          exact (careful_skipField b).map (fun _ => Record.unknown) (b :: buffer) hrecord
        | wrong =>
          rw [hswitch] at hrecord
          cases hrecord

/-- **A packet with a varint that is shifted out of its word is overlong.** -/
theorem overlong_of_readMessage {data : Bytes} (h : readMessage data = .error .badShift) : Overlong data := by
  rw [readMessage] at h
  cases hrun : readRecords data.length data with
  | error e =>
    rw [hrun] at h
    cases h
    exact overlong_of_readRecords hrun
  | ok rs =>
    rw [hrun] at h
    change ofRecords rs = _ at h
    rw [ofRecords] at h
    split_ifs at h
    cases h

/-! ## Packets -/

/-- **`unpack` has a result on every packet without an overlong number**: it returns a message or `NULL`,
with any allocator. -/
theorem unpack_defined {data : Bytes} (h : ¬ Overlong data) (allocator : Allocator) (heap : Heap) :
    Ends (Leaves heap) (fun _ _ => False) (unpack allocator data heap) :=
  (ends_unpack allocator data heap).weaken (fun _ _ h => h)
    fun _ _ hshift => h (overlong_of_readMessage hshift.2)

end Tinypinba
