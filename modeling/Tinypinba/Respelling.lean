import Mathlib.Logic.Relation
import Tinypinba.Packets

/-! # Packets that say the same

A message can be spelled in many ways: with its fields in another order, with fields the program does not
know, with an array packed or element by element, or with a value that a later one overwrites. `Respelled`
is the least equivalence of sequences of records that allows these changes anywhere, and `unpack` returns
the same message for the packets of equivalent sequences. Packets put one after the other spell the merge
of their messages. -/

namespace Tinypinba

/-! ## Changes that make no difference -/

/-- The field that a record is for. -/
def Record.target : Record → Option Field
  | .string f _ => some (.string f)
  | .number f _ => some (.number f)
  | .optional f _ => some (.optional f)
  | .single f _ | .packed f _ => some (.single f)
  | .dictionary _ => some .dictionary
  | .request _ => some .requests
  | .unknown => none

/-- A record for a field that holds one value. -/
def Record.Stores : Record → Prop
  | .string _ _ | .number _ _ | .optional _ _ => True
  | _ => False

/-- A change to a part of a packet that makes no difference. -/
inductive Change : List Record → List Record → Prop
  /-- A field the program does not know may be left out. -/
  | unknown : Change [.unknown] []
  /-- Records for different fields may be exchanged. -/
  | swap {r s : Record} (h : r.target ≠ s.target) : Change [r, s] [s, r]
  /-- A value may be left out when it is overwritten. -/
  | overwrite {r s : Record} (h : r.target = s.target) (hs : s.Stores) : Change [r, s] [s]
  /-- An array may be packed. -/
  | packed (f : RepeatedField) (vs : List UInt32) : Change [.packed f vs] (vs.map (.single f))

/-- Such a change somewhere in a sequence of records. -/
inductive ChangeIn : List Record → List Record → Prop
  | intro (front : List Record) {a b : List Record} (back : List Record) (h : Change a b) :
      ChangeIn (front ++ a ++ back) (front ++ b ++ back)

/-- Sequences of records that become each other by such changes. -/
def Respelled : List Record → List Record → Prop := Relation.EqvGen ChangeIn

/-- A record for another field has no string for this one. -/
theorem string?_eq_none {f : StringField} {r : Record} (h : r.target ≠ some (.string f)) :
    r.string? f = none := by
  cases r with
  | string g bytes => exact if_neg fun hg => h (by rw [Record.target, hg])
  | _ => rfl

/-- It has no number for this one. -/
theorem number?_eq_none {f : NumberField} {r : Record} (h : r.target ≠ some (.number f)) :
    r.number? f = none := by
  cases r with
  | number g v => exact if_neg fun hg => h (by rw [Record.target, hg])
  | _ => rfl

/-- It has no optional number for this one. -/
theorem optional?_eq_none {f : OptionalField} {r : Record} (h : r.target ≠ some (.optional f)) :
    r.optional? f = none := by
  cases r with
  | optional g v => exact if_neg fun hg => h (by rw [Record.target, hg])
  | _ => rfl

/-- It has no words for this one. -/
theorem words_eq_nil {f : RepeatedField} {r : Record} (h : r.target ≠ some (.single f)) : r.words f = [] := by
  cases r with
  | single g v => exact if_neg fun hg => h (by rw [Record.target, hg])
  | packed g vs => exact if_neg fun hg => h (by rw [Record.target, hg])
  | _ => rfl

/-- A record for another field has no entry of the dictionary. -/
theorem entries_eq_nil {r : Record} (h : r.target ≠ some .dictionary) : r.entries = [] := by
  cases r with
  | dictionary bytes => exact absurd rfl h
  | _ => rfl

/-- It has no nested request. -/
theorem nested_eq_nil {r : Record} (h : r.target ≠ some .requests) : r.nested = [] := by
  cases r with
  | request message => exact absurd rfl h
  | _ => rfl

/-- Of two records for different fields, at most one is for a given field. -/
theorem ne_or_ne {r s : Record} (h : r.target ≠ s.target) (f : Option Field) :
    r.target ≠ f ∨ s.target ≠ f := by
  by_cases hr : r.target = f
  · exact .inr fun hs => h (hr.trans hs.symm)
  · exact .inl hr

/-- Values of one field, of which at most one is there. -/
theorem or_comm_of_none {α : Type} {a b : Option α} (h : a = none ∨ b = none) : a.or b = b.or a := by
  obtain rfl | rfl := h
  · rw [Option.none_or, Option.or_none]
  · rw [Option.none_or, Option.or_none]

/-- Appending nothing may be done on either side. -/
theorem append_comm_of_nil {α : Type} {as bs : List α} (h : as = [] ∨ bs = []) : as ++ bs = bs ++ as := by
  obtain rfl | rfl := h
  · rw [List.nil_append, List.append_nil]
  · rw [List.nil_append, List.append_nil]

/-- Records for different fields commute. -/
theorem apply_comm {r s : Record} (h : r.target ≠ s.target) (message : Message) :
    (message.apply r).apply s = (message.apply s).apply r := by
  refine Message.ext_fields (fun f => ?_) (fun f => ?_) (fun f => ?_) (fun f => ?_) ?_ ?_
  · have hnone := (ne_or_ne h (some (.string f))).imp string?_eq_none string?_eq_none
    rw [strings_apply, strings_apply, strings_apply, strings_apply]
    obtain hr | hs := hnone
    · rw [hr]
      rfl
    · rw [hs]
      rfl
  · have hnone := (ne_or_ne h (some (.number f))).imp number?_eq_none number?_eq_none
    rw [numbers_apply, numbers_apply, numbers_apply, numbers_apply]
    obtain hr | hs := hnone
    · rw [hr]
      rfl
    · rw [hs]
      rfl
  · have hnone := (ne_or_ne h (some (.optional f))).imp optional?_eq_none optional?_eq_none
    rw [optionals_apply, optionals_apply, optionals_apply, optionals_apply, ← Option.or_assoc,
      ← Option.or_assoc, or_comm_of_none hnone]
  · have hnil := (ne_or_ne h (some (.single f))).imp words_eq_nil words_eq_nil
    rw [repeated_apply, repeated_apply, repeated_apply, repeated_apply, List.append_assoc,
      List.append_assoc, append_comm_of_nil hnil]
  · have hnil := (ne_or_ne h (some .dictionary)).imp entries_eq_nil entries_eq_nil
    rw [dictionary_apply, dictionary_apply, dictionary_apply, dictionary_apply, List.append_assoc,
      List.append_assoc, append_comm_of_nil hnil]
  · have hnil := (ne_or_ne h (some .requests)).imp nested_eq_nil nested_eq_nil
    rw [requests_apply, requests_apply, requests_apply, requests_apply, List.append_assoc,
      List.append_assoc, append_comm_of_nil hnil]

/-- A value that is overwritten is not seen. -/
theorem apply_overwrite {r s : Record} (h : r.target = s.target) (hs : s.Stores) (message : Message) :
    (message.apply r).apply s = message.apply s := by
  cases s with
  | string f bytes =>
    cases r with
    | string g _ =>
      obtain rfl : g = f := by simpa [Record.target] using h
      obtain ⟨⟨strings, _, _, _, _⟩, _⟩ := message
      simp only [Message.apply, Fields.setString, Function.update_idem]
    | _ => simp [Record.target] at h
  | number f v =>
    cases r with
    | number g _ =>
      obtain rfl : g = f := by simpa [Record.target] using h
      simp only [Message.apply, Fields.setNumber, Function.update_idem]
    | _ => simp [Record.target] at h
  | optional f v =>
    cases r with
    | optional g _ =>
      obtain rfl : g = f := by simpa [Record.target] using h
      simp only [Message.apply, Fields.setOptional, Function.update_idem]
    | _ => simp [Record.target] at h
  | single => exact hs.elim
  | packed => exact hs.elim
  | dictionary => exact hs.elim
  | request => exact hs.elim
  | unknown => exact hs.elim

/-- A packed array appends what its elements append. -/
theorem applyAll_singles (f : RepeatedField) (vs : List UInt32) (message : Message) :
    message.applyAll (vs.map (.single f)) = message.apply (.packed f vs) := by
  induction vs generalizing message with
  | nil =>
    obtain ⟨⟨_, _, _, repeated, _⟩, _⟩ := message
    show _ = Message.apply _ (.packed f [])
    simp only [Message.apply, Fields.append, List.append_nil, Function.update_eq_self, List.map_nil]
    rfl
  | cons v vs ih =>
    rw [List.map_cons, applyAll_cons, ih]
    simp only [Message.apply, Fields.append, Function.update_idem, Function.update_self, List.append_assoc]
    rfl

/-- **A change of the records does not change the message they make.** -/
theorem Change.applyAll_eq {a b : List Record} (h : Change a b) (message : Message) :
    message.applyAll a = message.applyAll b := by
  cases h with
  | unknown => rfl
  | swap h => exact apply_comm h message
  | overwrite h hs => exact apply_overwrite h hs message
  | packed f vs => exact (applyAll_singles f vs message).symm

/-- The bit of a record goes with its field. -/
theorem bit_eq_of_target {r s : Record} (h : r.target = s.target) : r.bit = s.bit := by
  cases r <;> cases s <;> simp_all [Record.target, Record.bit]

/-- It does not change which required fields are there either. -/
theorem Change.mem_bits {a b : List Record} (h : Change a b) (k : ℕ) :
    some k ∈ a.map Record.bit ↔ some k ∈ b.map Record.bit := by
  cases h with
  | unknown => simp [Record.bit]
  | swap h => simp [or_comm]
  | overwrite h hs => simp [bit_eq_of_target h]
  | packed f vs => simp [Record.bit]

/-- **Equivalent sequences of records make the same message**, and have the same required fields. -/
theorem Respelled.same {rs ss : List Record} (h : Respelled rs ss) :
    (∀ message : Message, message.applyAll rs = message.applyAll ss) ∧
      ∀ k, some k ∈ rs.map Record.bit ↔ some k ∈ ss.map Record.bit := by
  induction h with
  | rel rs ss h =>
    obtain ⟨front, back, hchange⟩ := h
    refine ⟨fun message => ?_, fun k => ?_⟩
    · rw [applyAll_append, applyAll_append, applyAll_append, applyAll_append, hchange.applyAll_eq]
    · have hbits := hchange.mem_bits k
      rw [List.map_append, List.map_append, List.map_append, List.map_append, List.mem_append, List.mem_append,
        List.mem_append, List.mem_append, hbits]
  | refl rs => exact ⟨fun _ => rfl, fun _ => Iff.rfl⟩
  | symm rs ss _ ih => exact ⟨fun message => (ih.1 message).symm, fun k => (ih.2 k).symm⟩
  | trans rs ss ts _ _ ih ih' =>
    exact ⟨fun message => (ih.1 message).trans (ih'.1 message), fun k => (ih.2 k).trans (ih'.2 k)⟩

variable {allocator : Allocator} {heap : Heap}

/-- The message of a packet from its records. -/
theorem spellsMessage_iff {rs : List Record} {data : Bytes} (h : SpellsAll rs data) (message : Message) :
    SpellsMessage message data ↔ Complete rs ∧ message = Message.init.applyAll rs := by
  constructor
  · intro hm
    cases hm with
    | intro hss hcomplete =>
      obtain rfl := h.unique hss
      exact ⟨hcomplete, rfl⟩
  · rintro ⟨hcomplete, rfl⟩
    exact .intro h hcomplete

/-- **`unpack` returns the same for packets that say the same.** -/
theorem unpack_respelled {rs ss : List Record} {data data' : Bytes} (h : Respelled rs ss)
    (hrs : SpellsAll rs data) (hss : SpellsAll ss data') (hmemory : ¬ allocator.MayFail) (message : Message) :
    Returns allocator heap data message ↔ Returns allocator heap data' message := by
  obtain ⟨hsame, hbits⟩ := h.same
  have hcomplete : Complete rs ↔ Complete ss :=
    forall_congr' fun k => imp_congr_right fun _ => hbits k
  have hiff : SpellsMessage message data ↔ SpellsMessage message data' := by
    rw [spellsMessage_iff hrs, spellsMessage_iff hss, hcomplete, hsame]
  constructor
  · intro hreturns
    exact returns_of_spells hmemory (hiff.mp hreturns.spells) heap
  · intro hreturns
    exact returns_of_spells hmemory (hiff.mpr hreturns.spells) heap

/-- The records of fields without nested messages. -/
def Fields.records (fields : Fields) : List Record := fields.head ++ fields.tail

/-- These records with the first two exchanged. -/
def Fields.serverNameFirst (fields : Fields) : List Record :=
  .string .serverName (fields.strings .serverName).str.bytes ::
    .string .hostname (fields.strings .hostname).str.bytes :: fields.records.drop 2

/-- Moving the server name to the front respells a message. -/
theorem respelled_serverNameFirst (fields : Fields) : Respelled fields.records fields.serverNameFirst :=
  .rel _ _ (.intro [] (fields.records.drop 2)
    (.swap (r := .string .hostname (fields.strings .hostname).str.bytes)
      (s := .string .serverName (fields.strings .serverName).str.bytes) (by simp [Record.target])))

/-- The records of a message are plain. -/
theorem plain_records (fields : Fields) : ∀ r ∈ fields.records, r.Plain := by
  intro r hr
  obtain hr | hr := List.mem_append.mp hr
  · exact plain_head _ r hr
  · exact plain_tail _ r hr

/-- They are plain in the other order, too. -/
theorem plain_serverNameFirst (fields : Fields) : ∀ r ∈ fields.serverNameFirst, r.Plain := by
  intro r hr
  obtain rfl | hr := List.mem_cons.mp hr
  · exact plain_records fields _ (by simp [Fields.records, Fields.head])
  obtain rfl | hr := List.mem_cons.mp hr
  · exact plain_records fields _ (by simp [Fields.records, Fields.head])
  · exact plain_records fields r (List.mem_of_mem_drop hr)

/-- The records of a message spell it. -/
theorem spellsMessage_records (fields : Fields) : SpellsMessage ⟨fields, []⟩ (encodeRecords fields.records) := by
  have hrecords : fields.records = Message.records ⟨fields, []⟩ := rfl
  rw [spellsMessage_iff (spellsAll_encodeRecords (plain_records fields)), hrecords, applyAll_records]
  exact ⟨complete_records _, rfl⟩

/-- The empty request with its server name in front is unpacked to the same message. -/
theorem unpack_respelled_serverNameFirst :
    Returns .unbounded .empty (encodeRecords Fields.init.serverNameFirst) ⟨.init, []⟩ := by
  have hrecords := spellsAll_encodeRecords (plain_records .init)
  have hswapped := spellsAll_encodeRecords (plain_serverNameFirst .init)
  have hmemory := Allocator.not_mayFail_unbounded
  have hreturns := returns_of_spells hmemory (spellsMessage_records .init) .empty
  exact (unpack_respelled (respelled_serverNameFirst .init) hrecords hswapped hmemory _).mp hreturns

/-! ## Packets one after the other -/

/-- What two messages come to when their packets stand one after the other. -/
structure Joined (first second merged : Message) : Prop where
  /-- Required strings come from the second. -/
  strings : ∀ f, f ≠ .schema → merged.fields.strings f = second.fields.strings f
  /-- The schema comes from one of them, and from the second if it has one. -/
  schema : merged.fields.strings .schema = second.fields.strings .schema ∨
    merged.fields.strings .schema = first.fields.strings .schema ∧
      second.fields.strings .schema = .empty StringField.schema.size_pos
  /-- Required words come from the second. -/
  numbers : ∀ f, merged.fields.numbers f = second.fields.numbers f
  /-- Optional words come from the second if it has them. -/
  optionals : ∀ f, merged.fields.optionals f = (second.fields.optionals f).or (first.fields.optionals f)
  /-- Arrays are appended. -/
  repeated : ∀ f, merged.fields.repeated f = first.fields.repeated f ++ second.fields.repeated f
  /-- Dictionaries are appended. -/
  dictionary : merged.fields.dictionary = first.fields.dictionary ++ second.fields.dictionary
  /-- Nested messages are appended. -/
  requests : merged.requests = first.requests ++ second.requests

/-- In complete records there is one for every required string. -/
theorem Complete.isSome_string {rs : List Record} (h : Complete rs) {f : StringField} (hf : f ≠ .schema) :
    (lastSome (Record.string? f) rs).isSome := by
  obtain ⟨k, hk, hbit⟩ : ∃ k < 9, f.bit = some k := by
    cases f with
    | hostname => exact ⟨0, by decide, rfl⟩
    | serverName => exact ⟨1, by decide, rfl⟩
    | scriptName => exact ⟨2, by decide, rfl⟩
    | schema => exact absurd rfl hf
  obtain ⟨r, hr, hrbit⟩ := List.mem_map.mp (h k hk)
  refine isSome_lastSome hr ?_
  cases r with
  | string g bytes =>
    have hg : g = f := by
      rw [← hbit] at hrbit
      cases g <;> cases f <;> first | rfl | cases hrbit
    rw [Record.string?, if_pos hg]
    rfl
  | number g v =>
    rw [← hbit] at hrbit
    cases g <;> cases f <;> cases hrbit
  | _ => cases hrbit

/-- In complete records there is one for every required word. -/
theorem Complete.isSome_number {rs : List Record} (h : Complete rs) (f : NumberField) :
    (lastSome (Record.number? f) rs).isSome := by
  have hk : f.bit < 9 := by
    cases f <;> decide
  obtain ⟨r, hr, hrbit⟩ := List.mem_map.mp (h f.bit hk)
  refine isSome_lastSome hr ?_
  cases r with
  | number g v =>
    have hg : g = f := by
      cases g <;> cases f <;> first | rfl | cases hrbit
    rw [Record.number?, if_pos hg]
    rfl
  | string g bytes => cases g <;> cases f <;> cases hrbit
  | _ => cases hrbit

/-- The message of records one after the other. -/
theorem joined_applyAll {rs ss : List Record} (hs : Complete ss) :
    Joined (Message.init.applyAll rs) (Message.init.applyAll ss) (Message.init.applyAll (rs ++ ss)) where
  strings f hf := by
    obtain ⟨bytes, hlast⟩ := Option.isSome_iff_exists.mp (hs.isSome_string hf)
    rw [strings_applyAll, strings_applyAll, lastSome_append, hlast]
    rfl
  schema := by
    rw [applyAll_append, strings_applyAll, strings_applyAll _ ss]
    cases lastSome (Record.string? .schema) ss with
    | none => exact .inr ⟨rfl, rfl⟩
    | some bytes => exact .inl rfl
  numbers f := by
    obtain ⟨v, hlast⟩ := Option.isSome_iff_exists.mp (hs.isSome_number f)
    rw [numbers_applyAll, numbers_applyAll, lastSome_append, hlast]
    rfl
  optionals f := by
    have hinit : Message.init.fields.optionals f = none := rfl
    rw [applyAll_append, optionals_applyAll, optionals_applyAll _ ss, hinit, Option.or_none]
  repeated f := by
    have hinit : Message.init.fields.repeated f = [] := rfl
    rw [applyAll_append, repeated_applyAll, repeated_applyAll _ ss, hinit, List.nil_append]
  dictionary := by
    have hinit : Message.init.fields.dictionary = [] := rfl
    rw [applyAll_append, dictionary_applyAll, dictionary_applyAll _ ss, hinit, List.nil_append]
  requests := by
    have hinit : Message.init.requests = [] := rfl
    rw [applyAll_append, requests_applyAll, requests_applyAll _ ss, hinit, List.nil_append]

/-- **Packets one after the other unpack to their messages merged.** -/
theorem unpack_append {front back : Bytes} {first second : Message} (hmemory : ¬ allocator.MayFail)
    (hfirst : Returns allocator heap front first) (hsecond : Returns allocator heap back second) :
    ∃ merged, Returns allocator heap (front ++ back) merged ∧ Joined first second merged := by
  cases hfirst.spells with
  | @intro rs _ hrs hrcomplete =>
    cases hsecond.spells with
    | @intro ss _ hss hscomplete =>
      refine ⟨_, returns_of_spells hmemory (.intro (hrs.append hss) fun k hk => ?_) heap,
        joined_applyAll hscomplete⟩
      rw [List.map_append]
      exact List.mem_append_left _ (hrcomplete k hk)

/-- The empty request twice. -/
theorem unpack_append_twice : ∃ merged,
    Returns .unbounded .empty (encodeRecords Fields.init.records ++ encodeRecords Fields.init.records) merged ∧
      Joined ⟨.init, []⟩ ⟨.init, []⟩ merged := by
  have hmemory := Allocator.not_mayFail_unbounded
  have hreturns := returns_of_spells hmemory (spellsMessage_records .init) .empty
  exact unpack_append hmemory hreturns hreturns

end Tinypinba
