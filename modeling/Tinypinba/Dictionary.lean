import Tinypinba.Worker
import Tinypinba.Foundation.Relabel

/-! # The dictionary

A request names its tags by indices into a dictionary of its own. `Dictionary::new_request`
(`dictionary.cc`) adds the request's words to a global dictionary and rewrites `tag_name` in place: for
every word in turn, the entries that hold its index become its global id with the high bit set. The
loop over `tag_value` beside it compares the same way, but what it assigns to is the pointer
`tag_value`, not the entry; the model takes this as it is written.

`add_word` is declared and not defined in the repository; `Dictionary` is what `new_request` relies on.
A read through the overwritten pointer is no read of the request's array, and is undefined (`none`).

* `newRequest_eq` — the two arrays and the dictionary do not influence each other;
* `tagNameLoops_eq_map` — the rewriting of `tag_name` is one simultaneous substitution;
* `tagValueLoops_cases` — what becomes of `tag_value`. -/

namespace Tinypinba

/-! ## The model -/

/-- `Dictionary` with states `D`: `add_word`, the words known so far, and what `add_word` promises. -/
structure Dictionary (D : Type) where
  /-- `add_word`: the id of the word, and the dictionary afterwards. -/
  addWord : D → CString → UInt32 × D
  /-- The id of a word, if it is known. -/
  idOf : D → CString → Option UInt32
  /-- The word added is known afterwards, under the id returned. -/
  idOf_addWord : ∀ d word, idOf (addWord d word).2 word = some (addWord d word).1
  /-- A known word keeps its id. -/
  idOf_addWord_of_known : ∀ d word known id, idOf d known = some id →
    idOf (addWord d word).2 known = some id
  /-- Ids are below the high bit. -/
  addWord_lt : ∀ d word, (addWord d word).1.toNat < 2 ^ 31

/-- `index | 0x80000000` -/
def globalIndex (index : UInt32) : UInt32 := index ||| 0x80000000

/-- A request with its dictionary and its tags. -/
structure TaggedRequest extends PinbaRequest where
  /-- `dictionary`: entries of a fixed size, each a C string. -/
  dictionary : List CString
  /-- `tag_name` -/
  tagName : List UInt32
  /-- `tag_value` -/
  tagValue : List UInt32
  /-- `n_dictionary` counts the entries of `dictionary`. -/
  nDictionary_eq : nDictionary = dictionary.length
  /-- `n_tag_name` counts those of `tag_name`. -/
  nTagName_eq : nTagName = tagName.length
  /-- `n_tag_value` counts those of `tag_value`. -/
  nTagValue_eq : nTagValue = tagValue.length

/-- What the pointer `tag_value` holds. -/
inductive Uint32Ptr
  /-- The address of an array with these entries. -/
  | array (entries : List UInt32)
  /-- A number that was assigned to it. -/
  | address (number : UInt32)
  deriving DecidableEq

/-- `tag_value[j]`; `none` is a read outside any array. -/
def Uint32Ptr.read : Uint32Ptr → ℕ → Option UInt32
  | .array entries, j => entries[j]?
  | .address _, _ => none

/-- The two arrays of tags during `new_request`. -/
structure RequestTags where
  /-- `tag_name` -/
  tagName : List UInt32
  /-- `tag_value` -/
  tagValue : Uint32Ptr
  deriving DecidableEq

/-- The loop over `tag_name` for the word `i`. -/
def tagNameLoop (i : ℕ) (label : UInt32) (tagName : List UInt32) : List UInt32 :=
  tagName.map fun k => if k.toNat = i then label else k

/-- The body of the loop over `tag_value`, for the entry `j`: what is overwritten is `tag_value`. -/
def tagValueBody (i : ℕ) (label : UInt32) (tagValue : Uint32Ptr) (j : ℕ) : Option Uint32Ptr :=
  (tagValue.read j).map fun k => if k.toNat = i then .address label else tagValue

/-- The loop over `tag_value` for the word `i`. -/
def tagValueLoop (nTagValue i : ℕ) (label : UInt32) (tagValue : Uint32Ptr) : Option Uint32Ptr :=
  (List.range nTagValue).foldlM (tagValueBody i label) tagValue

namespace Dictionary

variable {D : Type} (A : Dictionary D)

/-- The loop of `new_request` over the words from the index `i` on. -/
def newRequestLoop (nTagValue : ℕ) : ℕ → List CString → D → RequestTags → Option (D × RequestTags)
  | _, [], d, tags => some (d, tags)
  | i, str :: words, d, tags =>
    let (index, d) := A.addWord d str
    let tagName := tagNameLoop i (globalIndex index) tags.tagName
    (tagValueLoop nTagValue i (globalIndex index) tags.tagValue).bind fun tagValue =>
      newRequestLoop nTagValue (i + 1) words d ⟨tagName, tagValue⟩

/-- `Dictionary::new_request`; `none` is an undefined read. -/
def newRequest (d : D) (request : TaggedRequest) : Option (D × RequestTags) :=
  A.newRequestLoop request.nTagValue 0 request.dictionary d ⟨request.tagName, .array request.tagValue⟩

/-! ## The three parts of the loop -/

/-- Add words one after the other: their ids, and the dictionary afterwards. -/
def addWords : D → List CString → List UInt32 × D
  | d, [] => ([], d)
  | d, word :: words =>
    let (index, d) := A.addWord d word
    let (indices, d) := addWords d words
    (index :: indices, d)

end Dictionary

/-- The passes over an array: the indices from `i` on, with what is put in their place. -/
def wordPasses : ℕ → List UInt32 → List (ℕ × UInt32)
  | _, [] => []
  | i, label :: labels => (i, label) :: wordPasses (i + 1) labels

/-- The loops over `tag_name` for all words. -/
def tagNameLoops (i : ℕ) (labels tagName : List UInt32) : List UInt32 :=
  (wordPasses i labels).foldl (fun tagName pass => tagNameLoop pass.1 pass.2 tagName) tagName

/-- The loops over `tag_value` for all words. -/
def tagValueLoops (nTagValue i : ℕ) (labels : List UInt32) (tagValue : Uint32Ptr) : Option Uint32Ptr :=
  (wordPasses i labels).foldlM (fun tagValue pass => tagValueLoop nTagValue pass.1 pass.2 tagValue) tagValue

namespace Dictionary

variable {D : Type} (A : Dictionary D)

/-- The loop over the words, as its three parts. -/
theorem newRequestLoop_eq (nTagValue i : ℕ) (words : List CString) (d : D) (tags : RequestTags) :
    A.newRequestLoop nTagValue i words d tags =
      (tagValueLoops nTagValue i ((A.addWords d words).1.map globalIndex) tags.tagValue).map
        fun tagValue => ((A.addWords d words).2,
          ⟨tagNameLoops i ((A.addWords d words).1.map globalIndex) tags.tagName, tagValue⟩) := by
  induction words generalizing i d tags with
  | nil => rfl
  | cons word words ih =>
    simp only [newRequestLoop, addWords, List.map_cons, tagValueLoops, tagNameLoops, wordPasses,
      List.foldlM_cons, List.foldl_cons, ih]
    -- a loop over `tag_value` that fails is the end on both sides
    cases tagValueLoop nTagValue i (globalIndex (A.addWord d word).1) tags.tagValue <;> rfl

/-- **`new_request` does three things at once**: it adds the request's words, and rewrites either array
by passes with the ids of the words. -/
theorem newRequest_eq (d : D) (request : TaggedRequest) :
    A.newRequest d request =
      (tagValueLoops request.nTagValue 0 ((A.addWords d request.dictionary).1.map globalIndex)
        (.array request.tagValue)).map fun tagValue =>
          ((A.addWords d request.dictionary).2,
            ⟨tagNameLoops 0 ((A.addWords d request.dictionary).1.map globalIndex) request.tagName,
              tagValue⟩) :=
  A.newRequestLoop_eq _ _ _ _ _

end Dictionary

/-! ## The words -/

section Words

variable {D : Type} (A : Dictionary D)

/-- `d'` knows what `d` knows, under the same ids. -/
def Dictionary.Extends (d d' : D) : Prop := ∀ word id, A.idOf d word = some id → A.idOf d' word = some id

/-- Adding words renumbers none. -/
theorem Dictionary.extends_addWords (d : D) (words : List CString) :
    A.Extends d (A.addWords d words).2 := by
  induction words generalizing d with
  | nil => exact fun _ _ h => h
  | cons word words ih =>
    intro known id h
    exact ih _ known id (A.idOf_addWord_of_known d word known id h)

/-- One id is assigned to each word. -/
@[simp] theorem Dictionary.length_addWords (d : D) (words : List CString) :
    (A.addWords d words).1.length = words.length := by
  induction words generalizing d with
  | nil => rfl
  | cons word words ih => exact congrArg (· + 1) (ih _)

/-- It is the id of the word at the end, and it is below the high bit. -/
theorem Dictionary.getElem?_addWords {d : D} {words : List CString} {i : ℕ} {word : CString}
    (h : words[i]? = some word) :
    ∃ id, (A.addWords d words).1[i]? = some id ∧ A.idOf (A.addWords d words).2 word = some id ∧
      id.toNat < 2 ^ 31 := by
  induction words generalizing d i with
  | nil => cases h
  | cons first words ih =>
    cases i with
    | zero =>
      obtain rfl : first = word := Option.some.inj h
      refine ⟨(A.addWord d first).1, rfl, ?_, A.addWord_lt d first⟩
      exact A.extends_addWords _ words first _ (A.idOf_addWord d first)
    | succ i => exact ih h

end Words

/-! ## Tag names -/

/-- The index `i` is replaced by a pass iff it is one of the words'. -/
theorem lookup_wordPasses (i : ℕ) (labels : List UInt32) (k : ℕ) :
    (wordPasses i labels).lookup (i + k) = labels[k]? := by
  induction labels generalizing i k with
  | nil => rfl
  | cons label labels ih =>
    rw [wordPasses, List.lookup_cons]
    cases k with
    | zero => rw [Nat.add_zero, beq_self_eq_true]; rfl
    | succ k =>
      rw [beq_eq_false_iff_ne.mpr (by omega), List.getElem?_cons_succ, ← ih (i + 1) k]
      simp only [Nat.add_assoc, Nat.add_comm 1 k]

/-- Every pass is for an index from `i` on, below the end, and puts in one of the labels. -/
theorem mem_wordPasses {i : ℕ} {labels : List UInt32} {pass : ℕ × UInt32} (h : pass ∈ wordPasses i labels) :
    i ≤ pass.1 ∧ pass.1 < i + labels.length ∧ pass.2 ∈ labels := by
  induction labels generalizing i with
  | nil => cases h
  | cons label labels ih =>
    rcases List.mem_cons.mp h with rfl | h
    · simp
    · obtain ⟨hle, hlt, hmem⟩ := ih h
      refine ⟨by omega, ?_, List.mem_cons_of_mem _ hmem⟩
      rw [List.length_cons]
      omega

/-- A global index has the high bit. -/
theorem le_globalIndex (index : UInt32) : 2 ^ 31 ≤ (globalIndex index).toNat := by
  rw [globalIndex, UInt32.toNat_or]
  exact Nat.right_le_or

/-- The high bit keeps local and global indices apart. -/
theorem apart_wordPasses (i : ℕ) (indices : List UInt32) (h : i + indices.length ≤ 2 ^ 31) :
    Relabel.Apart UInt32.toNat (wordPasses i (indices.map globalIndex)) := by
  refine List.pairwise_of_forall_mem_list ?_
  intro pass hpass later hlater
  obtain ⟨index, -, hindex⟩ := List.mem_map.mp (mem_wordPasses hpass).2.2
  have hlt := (mem_wordPasses hlater).2.1
  have hle := le_globalIndex index
  rw [List.length_map] at hlt
  rw [← hindex]
  omega

/-- **The rewriting of `tag_name` is one simultaneous substitution**: no entry is rewritten twice. -/
theorem tagNameLoops_eq_map (indices tagName : List UInt32) (h : indices.length ≤ 2 ^ 31) :
    tagNameLoops 0 (indices.map globalIndex) tagName =
      tagName.map fun k => (indices[k.toNat]?).elim k globalIndex := by
  have hpasses : tagNameLoops 0 (indices.map globalIndex) tagName =
      tagName.map (Relabel.sequential UInt32.toNat (wordPasses 0 (indices.map globalIndex))) :=
    Relabel.foldl_map_replace _ _
  rw [hpasses]
  refine List.map_congr_left fun k _ => ?_
  rw [Relabel.sequential_eq_simultaneous (apart_wordPasses 0 indices (by omega)), Relabel.simultaneous,
    ← Nat.zero_add k.toNat, lookup_wordPasses, List.getElem?_map, Nat.zero_add]
  cases indices[k.toNat]? <;> rfl

/-! ## Tag values -/

/-- Once `tag_value` has been overwritten, its next read is undefined. -/
theorem foldlM_tagValueBody_address (i : ℕ) (label number : UInt32) {js : List ℕ} (h : js ≠ []) :
    js.foldlM (tagValueBody i label) (.address number) = none := by
  cases js with
  | nil => exact absurd rfl h
  | cons j js => rfl

/-- What the loop over `tag_value` does from some entry on: no entry left carries the index and the
array stays; only the last one does and `tag_value` is overwritten in the last round; or one before the
last does and the next read is undefined. -/
theorem foldlM_tagValueBody_cases (i : ℕ) (label : UInt32) (start rest : List UInt32) :
    let loop := (List.range' start.length rest.length).foldlM (tagValueBody i label)
      (.array (start ++ rest))
    ((∀ k ∈ rest, k.toNat ≠ i) ∧ loop = some (.array (start ++ rest))) ∨
    (∃ init last, rest = init ++ [last] ∧ (∀ k ∈ init, k.toNat ≠ i) ∧ last.toNat = i ∧
      loop = some (.address label)) ∨
    ∃ init k more, rest = init ++ k :: more ∧ more ≠ [] ∧ k.toNat = i ∧ loop = none := by
  intro loop
  induction rest generalizing start with
  | nil => exact .inl ⟨by simp, rfl⟩
  | cons k rest ih =>
    have hread : (Uint32Ptr.array (start ++ k :: rest)).read start.length = some k := by
      rw [Uint32Ptr.read, List.getElem?_append_right (le_refl _), Nat.sub_self, List.getElem?_cons_zero]
    have hloop : loop = ((List.range' (start.length + 1) rest.length).foldlM (tagValueBody i label)
        (if k.toNat = i then .address label else .array (start ++ k :: rest))) := by
      simp only [loop, List.length_cons, List.range'_succ, List.foldlM_cons, tagValueBody, hread,
        Option.map_some]
      rfl
    rw [hloop]
    by_cases hk : k.toNat = i
    · rw [if_pos hk]
      -- the pointer is gone: what is left decides whether it is read again
      cases rest with
      | nil => exact .inr (.inl ⟨[], k, rfl, by simp, hk, rfl⟩)
      | cons next more =>
        exact .inr (.inr ⟨[], k, next :: more, rfl, by simp, hk,
          foldlM_tagValueBody_address i label label (by simp [List.range'_succ])⟩)
    · rw [if_neg hk]
      have hstart : start ++ k :: rest = (start ++ [k]) ++ rest := by simp
      have hlength : start.length + 1 = (start ++ [k]).length := by simp
      rw [hstart, hlength]
      rcases ih (start ++ [k]) with ⟨hquiet, h⟩ | ⟨init, last, rfl, hquiet, hlast, h⟩ |
        ⟨init, hit, more, rfl, hmore, hhit, h⟩
      · exact .inl ⟨List.forall_mem_cons.mpr ⟨hk, hquiet⟩, h⟩
      · exact .inr (.inl ⟨k :: init, last, rfl, List.forall_mem_cons.mpr ⟨hk, hquiet⟩, hlast, h⟩)
      · exact .inr (.inr ⟨k :: init, hit, more, rfl, hmore, hhit, h⟩)

/-- Among the entries the only one in the range of indices from `i` to `i + n` is the last one, and it
is the last index of the range. -/
def HitsOnlyAtEnd (i n : ℕ) (values : List UInt32) : Prop :=
  ∀ (j : ℕ) k, values[j]? = some k → i ≤ k.toNat → k.toNat < i + n →
    j + 1 = values.length ∧ k.toNat + 1 = i + n

/-- An index that no entry carries can be left out of the range. -/
theorem hitsOnlyAtEnd_succ_iff {i n : ℕ} {values : List UInt32} (hquiet : ∀ k ∈ values, k.toNat ≠ i) :
    HitsOnlyAtEnd i (n + 1) values ↔ HitsOnlyAtEnd (i + 1) n values := by
  refine forall_congr' fun j => forall_congr' fun k => forall_congr' fun hk => ?_
  have hne := hquiet k (List.mem_of_getElem? hk)
  constructor
  · intro h _ _
    have hend := h (by omega) (by omega)
    omega
  · intro h _ _
    have hend := h (by omega) (by omega)
    omega

/-- An entry in the range is the last one. -/
theorem HitsOnlyAtEnd.eq_nil {i n : ℕ} {init more : List UInt32} {k : UInt32}
    (h : HitsOnlyAtEnd i n (init ++ k :: more)) (hle : i ≤ k.toNat) (hlt : k.toNat < i + n) :
    more = [] := by
  have hhit : (init ++ k :: more)[init.length]? = some k := by simp
  have hend := (h init.length k hhit hle hlt).1
  rw [List.length_append, List.length_cons] at hend
  exact List.length_eq_zero_iff.mp (by omega)

/-- It carries the last index of the range. -/
theorem HitsOnlyAtEnd.toNat_succ {i n : ℕ} {values : List UInt32} {k : UInt32}
    (h : HitsOnlyAtEnd i n values) (hk : k ∈ values) (hle : i ≤ k.toNat) (hlt : k.toNat < i + n) :
    k.toNat + 1 = i + n := by
  obtain ⟨j, hj⟩ := List.mem_iff_getElem?.mp hk
  exact (h j k hj hle hlt).2

/-- A range of one index, which only the last entry carries. -/
theorem hitsOnlyAtEnd_concat {i : ℕ} {init : List UInt32} {last : UInt32}
    (hquiet : ∀ k ∈ init, k.toNat ≠ i) : HitsOnlyAtEnd i 1 (init ++ [last]) := by
  intro j k hk hle hlt
  have hki : k.toNat = i := by omega
  refine ⟨?_, by omega⟩
  by_contra hj
  -- an entry before the last one does not carry the index
  have hlength : j < (init ++ [last]).length := (List.getElem?_eq_some_iff.mp hk).1
  have hinit : j < init.length := by
    rw [List.length_append, List.length_singleton] at hlength hj
    omega
  rw [List.getElem?_append_left hinit] at hk
  exact hquiet k (List.mem_of_getElem? hk) hki

/-- Once `tag_value` has been overwritten, the loops for further words are undefined. -/
theorem tagValueLoops_address {nTagValue : ℕ} (i : ℕ) {labels : List UInt32} (number : UInt32)
    (hvalues : nTagValue ≠ 0) (hlabels : labels ≠ []) :
    tagValueLoops nTagValue i labels (.address number) = none := by
  obtain ⟨label, labels, rfl⟩ := List.exists_cons_of_ne_nil hlabels
  have hread : tagValueLoop nTagValue i label (.address number) = none :=
    foldlM_tagValueBody_address i label number (by simpa using hvalues)
  rw [tagValueLoops, wordPasses, List.foldlM_cons, hread]
  rfl

/-- **What becomes of `tag_value`**: when no entry is in the range of the words' indices, the array
stays; otherwise `new_request` overwrites the pointer, and gets through with it only when nothing is
read after that. -/
theorem tagValueLoops_cases (i : ℕ) (labels values : List UInt32) :
    let loops := tagValueLoops values.length i labels (.array values)
    ((∀ k ∈ values, ¬ (i ≤ k.toNat ∧ k.toNat < i + labels.length)) ∧ loops = some (.array values)) ∨
    (HitsOnlyAtEnd i labels.length values ∧
      (∃ k ∈ values, i ≤ k.toNat ∧ k.toNat < i + labels.length) ∧
      ∃ number, loops = some (.address number)) ∨
    (¬ HitsOnlyAtEnd i labels.length values ∧ loops = none) := by
  intro loops
  induction labels generalizing i with
  | nil => exact .inl ⟨fun k _ h => by simp only [List.length_nil] at h; omega, rfl⟩
  | cons label labels ih =>
    have hloops : loops = (tagValueLoop values.length i label (.array values)).bind
        (tagValueLoops values.length (i + 1) labels) := rfl
    have hfirst := foldlM_tagValueBody_cases i label [] values
    rw [List.nil_append, List.length_nil, ← List.range_eq_range'] at hfirst
    rw [List.length_cons]
    rcases hfirst with ⟨hquiet, h⟩ | ⟨init, last, rfl, hquiet, hlast, h⟩ |
      ⟨init, k, more, rfl, hmore, hk, h⟩
    · -- the first word hits nothing: the other words' range decides
      have hrest : loops = tagValueLoops values.length (i + 1) labels (.array values) := by
        rw [hloops, tagValueLoop, h]
        rfl
      rw [hitsOnlyAtEnd_succ_iff hquiet, hrest]
      rcases ih (i + 1) with ⟨hnone, h⟩ | ⟨hend, ⟨k, hk, hhit⟩, h⟩ | h
      · refine .inl ⟨fun k hk hrange => ?_, h⟩
        have hne := hquiet k hk
        have hout := hnone k hk
        omega
      · exact .inr (.inl ⟨hend, ⟨k, hk, by omega⟩, h⟩)
      · exact .inr (.inr h)
    · -- it hits the last entry, and the next word would read again
      have hmem : last ∈ init ++ [last] := List.mem_append_right _ List.mem_cons_self
      rw [hloops, tagValueLoop, h, Option.bind_some]
      cases labels with
      | nil =>
        have hlt : last.toNat < i + 1 := by omega
        exact .inr (.inl ⟨hitsOnlyAtEnd_concat hquiet, ⟨last, hmem, hlast.ge, hlt⟩, label, rfl⟩)
      | cons next labels =>
        refine .inr (.inr ⟨fun hend => ?_, ?_⟩)
        · have hlength : (next :: labels).length = labels.length + 1 := rfl
          have hsucc := hend.toNat_succ hmem (by omega) (by omega)
          omega
        · exact tagValueLoops_address (i + 1) label (by simp) (List.cons_ne_nil _ _)
    · -- it hits an earlier entry, and the same loop reads again
      refine .inr (.inr ⟨fun hend => hmore (hend.eq_nil (by omega) (by omega)), ?_⟩)
      rw [hloops, tagValueLoop, h]
      rfl

/-! ## `new_request` as a whole -/

namespace Dictionary

variable {D : Type} (A : Dictionary D)

/-- What an entry of `tag_name` is rewritten to when the words are added. -/
def translate (d : D) (words : List CString) (k : UInt32) : UInt32 :=
  ((A.addWords d words).1[k.toNat]?).elim k globalIndex

/-- The entry `k'` is the global index of the word with the index `k`. -/
def GlobalOf (d : D) (words : List CString) (k k' : UInt32) : Prop :=
  ∃ word, words[k.toNat]? = some word ∧ ∃ id, A.idOf d word = some id ∧ k' = globalIndex id

/-- The entry `k'` is what the entry `k` should become: the global index of the word it stands for, or
`k` itself when there is no such word. -/
def Translated (d : D) (words : List CString) (k k' : UInt32) : Prop :=
  match words[k.toNat]? with
  | some word => ∃ id, A.idOf d word = some id ∧ k' = globalIndex id
  | none => k' = k

variable {A} {d d' : D} {request : TaggedRequest} {tags : RequestTags}

/-- An index of a word is translated to the global index of that word. -/
theorem Translated.of_lt {words : List CString} {k k' : UInt32} (h : A.Translated d words k k')
    (hk : k.toNat < words.length) : A.GlobalOf d words k k' := by
  rw [Translated, List.getElem?_eq_getElem hk] at h
  exact ⟨words[k.toNat], List.getElem?_eq_getElem hk, h⟩

/-- An index that is none of the words' is kept. -/
theorem Translated.of_le {words : List CString} {k k' : UInt32} (h : A.Translated d words k k')
    (hk : words.length ≤ k.toNat) : k' = k := by
  rwa [Translated, List.getElem?_eq_none hk] at h

/-- What the passes put in for an entry is its translation. -/
theorem translated_translate (A : Dictionary D) (d : D) (words : List CString) (k : UInt32) :
    A.Translated (A.addWords d words).2 words k (A.translate d words k) := by
  rw [Translated, translate]
  cases hword : words[k.toNat]? with
  | none =>
    have hlength : (A.addWords d words).1.length ≤ k.toNat := by
      rw [length_addWords]
      exact List.getElem?_eq_none_iff.mp hword
    rw [List.getElem?_eq_none hlength]
    rfl
  | some word =>
    obtain ⟨id, hget, hid, -⟩ := A.getElem?_addWords hword
    rw [hget]
    exact ⟨id, hid, rfl⟩

/-- **When `new_request` gets through**, it has added the words and rewritten every tag name. -/
theorem newRequest_eq_some (h : A.newRequest d request = some (d', tags))
    (hn : request.nDictionary ≤ 2 ^ 31) :
    d' = (A.addWords d request.dictionary).2 ∧
      tags.tagName = request.tagName.map (A.translate d request.dictionary) := by
  rw [newRequest_eq] at h
  obtain ⟨tagValue, -, htags⟩ := Option.map_eq_some_iff.mp h
  obtain ⟨rfl, rfl⟩ := Prod.mk.inj htags
  rw [request.nDictionary_eq, ← A.length_addWords d] at hn
  exact ⟨rfl, tagNameLoops_eq_map _ _ hn⟩

/-- It has translated each of them. -/
theorem newRequest_translated (h : A.newRequest d request = some (d', tags))
    (hn : request.nDictionary ≤ 2 ^ 31) :
    List.Forall₂ (A.Translated d' request.dictionary) request.tagName tags.tagName := by
  obtain ⟨rfl, htagName⟩ := newRequest_eq_some h hn
  rw [htagName, List.forall₂_map_right_iff]
  exact List.forall₂_same.mpr fun k _ => translated_translate A d _ k

end Dictionary

/-- No entry of `tag_value` is read after `tag_value` has been overwritten: an entry that is an index of
a word is the last one, and the index of the last word. -/
def TaggedRequest.ReadsDefined (request : TaggedRequest) : Prop :=
  HitsOnlyAtEnd 0 request.nDictionary request.tagValue

namespace Dictionary

variable {D : Type} {A : Dictionary D} {d d' : D} {request : TaggedRequest} {tags : RequestTags}

/-- The cases of `tagValueLoops_cases`, for a request. -/
theorem tagValue_cases (A : Dictionary D) (d : D) (request : TaggedRequest) :
    let loops := tagValueLoops request.nTagValue 0
      ((A.addWords d request.dictionary).1.map globalIndex) (.array request.tagValue)
    ((∀ k ∈ request.tagValue, request.nDictionary ≤ k.toNat) ∧ loops = some (.array request.tagValue)) ∨
    (request.ReadsDefined ∧ (∃ k ∈ request.tagValue, k.toNat < request.nDictionary) ∧
      ∃ number, loops = some (.address number)) ∨
    (¬ request.ReadsDefined ∧ loops = none) := by
  intro loops
  have hcases := tagValueLoops_cases 0 ((A.addWords d request.dictionary).1.map globalIndex)
    request.tagValue
  rw [← request.nTagValue_eq, List.length_map, length_addWords, ← request.nDictionary_eq] at hcases
  rcases hcases with ⟨hnone, h⟩ | ⟨hend, ⟨k, hk, -, hlt⟩, h⟩ | h
  · refine .inl ⟨fun k hk => ?_, h⟩
    have := hnone k hk
    omega
  · exact .inr (.inl ⟨hend, ⟨k, hk, by omega⟩, h⟩)
  · exact .inr (.inr h)

/-- **When `new_request` gets through**: exactly when every read is defined. -/
theorem newRequest_isSome_iff (A : Dictionary D) (d : D) (request : TaggedRequest) :
    (A.newRequest d request).isSome ↔ request.ReadsDefined := by
  rw [newRequest_eq, Option.isSome_map]
  rcases tagValue_cases A d request with ⟨hnone, h⟩ | ⟨hdefined, -, number, h⟩ | ⟨hundefined, h⟩
  · rw [h]
    refine iff_of_true rfl fun j k hk _ hlt => ?_
    have := hnone k (List.mem_of_getElem? hk)
    omega
  · rw [h]
    exact iff_of_true rfl hdefined
  · rw [h]
    exact iff_of_false (by simp) hundefined

/-- `tag_value` is still an array, the one it was, exactly when none of its entries is an index of a
word. -/
theorem newRequest_tagValue_eq_array_iff {values : List UInt32}
    (h : A.newRequest d request = some (d', tags)) :
    tags.tagValue = .array values ↔
      request.tagValue = values ∧ ∀ k ∈ request.tagValue, request.nDictionary ≤ k.toNat := by
  rw [newRequest_eq] at h
  obtain ⟨tagValue, hloops, htags⟩ := Option.map_eq_some_iff.mp h
  obtain ⟨-, rfl⟩ := Prod.mk.inj htags
  rcases tagValue_cases A d request with ⟨hnone, h⟩ | ⟨-, ⟨k, hk, hlt⟩, number, h⟩ | ⟨-, h⟩
  · obtain rfl : Uint32Ptr.array request.tagValue = tagValue := Option.some.inj (h.symm.trans hloops)
    rw [Uint32Ptr.array.injEq]
    exact (and_iff_left hnone).symm
  · obtain rfl : Uint32Ptr.address number = tagValue := Option.some.inj (h.symm.trans hloops)
    refine iff_of_false (fun heq => by cases heq) fun ⟨_, hnone⟩ => ?_
    have := hnone k hk
    omega
  · rw [h] at hloops
    cases hloops

end Dictionary

end Tinypinba
