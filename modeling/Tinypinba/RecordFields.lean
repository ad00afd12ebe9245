import Tinypinba.Records

/-! # What records make of each field

The message that a sequence of records makes, field by field: the last record decides a field that holds
one value, and an array is what the records for it append, in their order. So packets can be put one after
the other, fields the program does not know can be put in or left out, and an array may be packed or
written element by element. -/

namespace Tinypinba

/-- The last value that a function finds in a list. -/
def lastSome {α β : Type} (g : α → Option β) : List α → Option β
  | [] => none
  | a :: as => (lastSome g as).or (g a)

section LastSome

variable {α β γ : Type} {g : α → Option β}

@[simp] theorem lastSome_nil : lastSome g [] = none := rfl

/-- What the rest of the list has comes later. -/
@[simp] theorem lastSome_cons (a : α) (as : List α) : lastSome g (a :: as) = (lastSome g as).or (g a) :=
  rfl

/-- What the second list has comes later. -/
@[simp] theorem lastSome_append (as bs : List α) :
    lastSome g (as ++ bs) = (lastSome g bs).or (lastSome g as) := by
  induction as with
  | nil => rw [List.nil_append, lastSome_nil, Option.or_none]
  | cons a as ih => rw [List.cons_append, lastSome_cons, ih, lastSome_cons, Option.or_assoc]

/-- Nothing is found when the function finds nothing. -/
theorem lastSome_eq_none {as : List α} (h : ∀ a ∈ as, g a = none) : lastSome g as = none := by
  induction as with
  | nil => rfl
  | cons a as ih =>
    rw [lastSome_cons, ih fun b hb => h b (List.mem_cons_of_mem _ hb), h a List.mem_cons_self]
    rfl

/-- The list `as.map k` has no value when `k` never makes one. -/
theorem lastSome_map_eq_none {k : γ → α} (h : ∀ c, g (k c) = none) (cs : List γ) :
    lastSome g (cs.map k) = none := by
  refine lastSome_eq_none fun a ha => ?_
  obtain ⟨c, -, rfl⟩ := List.mem_map.mp ha
  exact h c

/-- Some value is found where some element has one. -/
theorem isSome_lastSome {a : α} {as : List α} (ha : a ∈ as) (h : (g a).isSome) : (lastSome g as).isSome := by
  induction as with
  | nil => cases ha
  | cons b as ih =>
    rw [lastSome_cons]
    obtain rfl | ha := List.mem_cons.mp ha
    · rw [Option.isSome_or, h, Bool.or_true]
    · rw [Option.isSome_or, ih ha, Bool.true_or]

end LastSome

namespace Record

/-- The string that a record stores in a field. -/
def string? (f : StringField) : Record → Option Bytes
  | .string g bytes => if g = f then some bytes else none
  | _ => none

/-- The word that a record stores in a required field. -/
def number? (f : NumberField) : Record → Option UInt32
  | .number g v => if g = f then some v else none
  | _ => none

/-- The word that a record stores in an optional field. -/
def optional? (f : OptionalField) : Record → Option UInt32
  | .optional g v => if g = f then some v else none
  | _ => none

/-- The words that a record appends to an array. -/
def words (f : RepeatedField) : Record → List UInt32
  | .single g v => if g = f then [v] else []
  | .packed g vs => if g = f then vs else []
  | _ => []

/-- The string that a record appends to the dictionary. -/
def entries : Record → List (CharArray dictionaryEntrySize)
  | .dictionary bytes => [.ofBuffer dictionaryEntrySize_pos bytes]
  | _ => []

/-- The message that a record appends to `requests`. -/
def nested : Record → List Message
  | .request message => [message]
  | _ => []

end Record

/-- Records applied in two parts. -/
theorem applyAll_append (message : Message) (rs ss : List Record) :
    message.applyAll (rs ++ ss) = (message.applyAll rs).applyAll ss :=
  List.foldl_append

/-- The first record is applied first. -/
theorem applyAll_cons (message : Message) (r : Record) (rs : List Record) :
    message.applyAll (r :: rs) = (message.apply r).applyAll rs :=
  rfl

/-! ## One record -/

/-- A record overwrites the string that it has. -/
theorem strings_apply (message : Message) (r : Record) (f : StringField) :
    (message.apply r).fields.strings f =
      ((r.string? f).map (CharArray.ofBuffer f.size_pos)).getD (message.fields.strings f) := by
  cases r with
  | string g bytes =>
    rw [Record.string?]
    by_cases h : g = f
    · subst h
      rw [if_pos rfl]
      exact Function.update_self ..
    · rw [if_neg h]
      exact Function.update_of_ne (Ne.symm h) ..
  | _ => rfl

/-- It overwrites the number that it has. -/
theorem numbers_apply (message : Message) (r : Record) (f : NumberField) :
    (message.apply r).fields.numbers f = (r.number? f).getD (message.fields.numbers f) := by
  cases r with
  | number g v =>
    rw [Record.number?]
    by_cases h : g = f
    · subst h
      rw [if_pos rfl]
      exact Function.update_self ..
    · rw [if_neg h]
      exact Function.update_of_ne (Ne.symm h) ..
  | _ => rfl

/-- It overwrites the optional number that it has. -/
theorem optionals_apply (message : Message) (r : Record) (f : OptionalField) :
    (message.apply r).fields.optionals f = (r.optional? f).or (message.fields.optionals f) := by
  cases r with
  | optional g v =>
    rw [Record.optional?]
    by_cases h : g = f
    · subst h
      rw [if_pos rfl]
      exact Function.update_self ..
    · rw [if_neg h]
      exact Function.update_of_ne (Ne.symm h) ..
  | _ => rfl

/-- It appends its words to the array they belong to. -/
theorem repeated_apply (message : Message) (r : Record) (f : RepeatedField) :
    (message.apply r).fields.repeated f = message.fields.repeated f ++ r.words f := by
  have hupdate (g : RepeatedField) (vs : List UInt32) :
      (message.fields.append g vs).repeated f = message.fields.repeated f ++ if g = f then vs else [] := by
    by_cases h : g = f
    · subst h
      rw [if_pos rfl]
      exact Function.update_self ..
    · rw [if_neg h, List.append_nil]
      exact Function.update_of_ne (Ne.symm h) ..
  cases r with
  | single g v => exact hupdate g [v]
  | packed g vs => exact hupdate g vs
  | _ => exact (List.append_nil _).symm

/-- It appends its entry to the dictionary. -/
theorem dictionary_apply (message : Message) (r : Record) :
    (message.apply r).fields.dictionary = message.fields.dictionary ++ r.entries := by
  cases r with
  | dictionary bytes => rfl
  | _ => exact (List.append_nil _).symm

/-- It appends its request to the nested ones. -/
theorem requests_apply (message : Message) (r : Record) :
    (message.apply r).requests = message.requests ++ r.nested := by
  cases r with
  | request nested => rfl
  | _ => exact (List.append_nil _).symm

/-! ## Several records -/

/-- The last string of a field stays. -/
theorem strings_applyAll (message : Message) (rs : List Record) (f : StringField) :
    (message.applyAll rs).fields.strings f =
      ((lastSome (Record.string? f) rs).map (CharArray.ofBuffer f.size_pos)).getD
        (message.fields.strings f) := by
  induction rs generalizing message with
  | nil => rfl
  | cons r rs ih =>
    rw [applyAll_cons, ih, strings_apply, lastSome_cons]
    cases lastSome (Record.string? f) rs with
    | none => rw [Option.none_or]; rfl
    | some bytes => rw [Option.some_or]; rfl

/-- The last number of a field stays. -/
theorem numbers_applyAll (message : Message) (rs : List Record) (f : NumberField) :
    (message.applyAll rs).fields.numbers f =
      (lastSome (Record.number? f) rs).getD (message.fields.numbers f) := by
  induction rs generalizing message with
  | nil => rfl
  | cons r rs ih =>
    rw [applyAll_cons, ih, numbers_apply, lastSome_cons]
    cases lastSome (Record.number? f) rs with
    | none => rw [Option.none_or]; rfl
    | some v => rw [Option.some_or]; rfl

/-- The last number of an optional field stays. -/
theorem optionals_applyAll (message : Message) (rs : List Record) (f : OptionalField) :
    (message.applyAll rs).fields.optionals f =
      (lastSome (Record.optional? f) rs).or (message.fields.optionals f) := by
  induction rs generalizing message with
  | nil => rfl
  | cons r rs ih => rw [applyAll_cons, ih, optionals_apply, lastSome_cons, Option.or_assoc]

/-- All words of a field are kept, in order. -/
theorem repeated_applyAll (message : Message) (rs : List Record) (f : RepeatedField) :
    (message.applyAll rs).fields.repeated f = message.fields.repeated f ++ rs.flatMap (Record.words f) := by
  induction rs generalizing message with
  | nil => exact (List.append_nil _).symm
  | cons r rs ih => rw [applyAll_cons, ih, repeated_apply, List.flatMap_cons, List.append_assoc]

/-- All entries of the dictionary are kept, in order. -/
theorem dictionary_applyAll (message : Message) (rs : List Record) :
    (message.applyAll rs).fields.dictionary = message.fields.dictionary ++ rs.flatMap Record.entries := by
  induction rs generalizing message with
  | nil => exact (List.append_nil _).symm
  | cons r rs ih => rw [applyAll_cons, ih, dictionary_apply, List.flatMap_cons, List.append_assoc]

/-- All nested requests are kept, in order. -/
theorem requests_applyAll (message : Message) (rs : List Record) :
    (message.applyAll rs).requests = message.requests ++ rs.flatMap Record.nested := by
  induction rs generalizing message with
  | nil => exact (List.append_nil _).symm
  | cons r rs ih => rw [applyAll_cons, ih, requests_apply, List.flatMap_cons, List.append_assoc]

/-- Messages with the same fields are the same. -/
theorem Message.ext_fields {a b : Message} (hstrings : ∀ f, a.fields.strings f = b.fields.strings f)
    (hnumbers : ∀ f, a.fields.numbers f = b.fields.numbers f)
    (hoptionals : ∀ f, a.fields.optionals f = b.fields.optionals f)
    (hrepeated : ∀ f, a.fields.repeated f = b.fields.repeated f)
    (hdictionary : a.fields.dictionary = b.fields.dictionary) (hrequests : a.requests = b.requests) :
    a = b := by
  obtain ⟨⟨_, _, _, _, _⟩, _⟩ := a
  obtain ⟨⟨_, _, _, _, _⟩, _⟩ := b
  obtain rfl := funext hstrings
  obtain rfl := funext hnumbers
  obtain rfl := funext hoptionals
  obtain rfl := funext hrepeated
  obtain rfl := hdictionary
  obtain rfl := hrequests
  rfl

end Tinypinba
