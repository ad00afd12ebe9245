import Tinypinba.Dictionary

/-! # What a request's tags become

Three results on `Dictionary::new_request`: tag names are translated by one simultaneous substitution,
tag values do not stay beside them, and passing `request_check` is not enough for being translated.
Each comes with the exact condition on the request under which `new_request` keeps the promise; the
loop over `tag_value` has a part in all three. -/

namespace Tinypinba

namespace Dictionary

/-! ## A dictionary, and requests -/

/-- A dictionary that numbers its words in the order of their arrival. -/
def listDictionary : Dictionary (List CString) where
  addWord d word :=
    let d' := if word ∈ d then d else d ++ [word]
    (UInt32.ofNat (d'.idxOf word % 2 ^ 31), d')
  idOf d word := if word ∈ d then some (UInt32.ofNat (d.idxOf word % 2 ^ 31)) else none
  idOf_addWord d word := by
    by_cases hword : word ∈ d
    · simp [hword]
    · simp [hword]
  idOf_addWord_of_known d word known id h := by
    by_cases hknown : known ∈ d
    · rw [if_pos hknown] at h
      by_cases hword : word ∈ d
      · simpa [hword, hknown] using h
      · -- new words go to the end
        simpa [hword, hknown, List.idxOf_append_of_mem hknown] using h
    · rw [if_neg hknown] at h
      cases h
  addWord_lt d word := by
    simp only [UInt32.toNat_ofNat']
    omega

/-- A request with this dictionary and these tags. -/
def withTags (dictionary : List CString) (tagName tagValue : List UInt32) : TaggedRequest where
  toPinbaRequest :=
    { BaseData.sevenKbytes with
      nDictionary := dictionary.length
      nTagName := tagName.length
      nTagValue := tagValue.length }
  dictionary := dictionary
  tagName := tagName
  tagValue := tagValue
  nDictionary_eq := rfl
  nTagName_eq := rfl
  nTagValue_eq := rfl

/-- The word `"a"`. -/
def wordA : CString := .ofBuffer [97]

/-- The word `"b"`. -/
def wordB : CString := .ofBuffer [98]

variable {D : Type} (A : Dictionary D)

/-! ## Tag names -/

/-- `new_request` gets through, with every tag name translated and none added or lost. -/
def RelabelsNames (d : D) (request : TaggedRequest) : Prop :=
  ∃ d' tags, A.newRequest d request = some (d', tags) ∧
    List.Forall₂ (A.Translated d' request.dictionary) request.tagName tags.tagName

/-- The tag names of a request spell these words, through its own dictionary. -/
def Spells (request : TaggedRequest) (words : List CString) : Prop :=
  List.Forall₂ (fun (k : UInt32) word => request.dictionary[k.toNat]? = some word) request.tagName words

/-- These entries are the global indices of these words. -/
def Globals (d : D) (words : List CString) (tagName : List UInt32) : Prop :=
  List.Forall₂ (fun word k => ∃ id, A.idOf d word = some id ∧ k = globalIndex id) words tagName

variable {A} {d d' : D} {request : TaggedRequest} {words : List CString}

/-- The translation of tag names that spell some words consists of the global indices of these. -/
theorem Spells.globals {tagName : List UInt32} (hspells : Spells request words)
    (h : List.Forall₂ (A.Translated d request.dictionary) request.tagName tagName) :
    A.Globals d words tagName := by
  rw [Spells] at hspells
  generalize request.tagName = names at hspells h
  induction hspells generalizing tagName with
  | nil =>
    cases h
    exact .nil
  | cons hword _ ih =>
    cases h with
    | cons hentry hrest =>
      rw [Translated, hword] at hentry
      exact .cons hentry (ih hrest)

/-- Words have the same global indices now and later. -/
theorem Globals.unique (hextends : A.Extends d d') {tagName tagName' : List UInt32}
    (h : A.Globals d words tagName) (h' : A.Globals d' words tagName') : tagName = tagName' := by
  rw [Globals] at h h'
  induction h generalizing tagName' with
  | nil =>
    cases h'
    rfl
  | cons hentry _ ih =>
    cases h' with
    | cons hentry' hrest =>
      obtain ⟨id, hid, rfl⟩ := hentry
      obtain ⟨id', hid', rfl⟩ := hentry'
      obtain rfl : id = id' := Option.some.inj ((hextends _ id hid).symm.trans hid')
      rw [ih hrest]

/-- `new_request` relabels the names of a request iff it gets through. -/
theorem relabelsNames_iff (A : Dictionary D) (d : D) (request : TaggedRequest)
    (hn : request.nDictionary ≤ 2 ^ 31) : A.RelabelsNames d request ↔ request.ReadsDefined := by
  rw [← newRequest_isSome_iff A d request, Option.isSome_iff_exists]
  constructor
  · rintro ⟨d', tags, h, -⟩
    exact ⟨_, h⟩
  · rintro ⟨⟨d', tags⟩, h⟩
    exact ⟨d', tags, h, newRequest_translated h hn⟩

/-- **Tag names are relabelled as one simultaneous substitution, if `new_request` gets through**: exactly
when no entry of `tag_value` is read after the pointer has been overwritten. Then every name that is an
index of a word has become the global index of that word and every other name is as it was; and of two
requests that spell the same names through their own dictionaries, passed one after the other with any
words added in between, both end with the same names. -/
theorem newRequest_relabels_iff (A : Dictionary D) :
    (∀ d request, request.nDictionary ≤ 2 ^ 31 → (A.RelabelsNames d request ↔ request.ReadsDefined)) ∧
    ∀ (d : D) r₁ r₂ words, r₁.nDictionary ≤ 2 ^ 31 → r₂.nDictionary ≤ 2 ^ 31 →
      Spells r₁ words → Spells r₂ words →
      ((∃ d₁ t₁, A.newRequest d r₁ = some (d₁, t₁) ∧ ∀ d', A.Extends d₁ d' →
          ∃ d₂ t₂, A.newRequest d' r₂ = some (d₂, t₂) ∧ t₁.tagName = t₂.tagName) ↔
        r₁.ReadsDefined ∧ r₂.ReadsDefined) := by
  refine ⟨relabelsNames_iff A, fun d r₁ r₂ words hn₁ hn₂ hspells₁ hspells₂ => ?_⟩
  constructor
  · rintro ⟨d₁, t₁, h₁, hlater⟩
    obtain ⟨d₂, t₂, h₂, -⟩ := hlater d₁ fun _ _ h => h
    rw [← newRequest_isSome_iff A d r₁, ← newRequest_isSome_iff A d₁ r₂, h₁, h₂]
    exact ⟨rfl, rfl⟩
  · rintro ⟨hdefined₁, hdefined₂⟩
    obtain ⟨d₁, t₁, h₁, hnames₁⟩ := (relabelsNames_iff A d r₁ hn₁).mpr hdefined₁
    refine ⟨d₁, t₁, h₁, fun d' hextends => ?_⟩
    obtain ⟨d₂, t₂, h₂, hnames₂⟩ := (relabelsNames_iff A d' r₂ hn₂).mpr hdefined₂
    refine ⟨d₂, t₂, h₂, ?_⟩
    -- the second request finds the ids the first one left
    have hextends₂ : A.Extends d₁ d₂ := by
      obtain ⟨rfl, -⟩ := newRequest_eq_some h₂ hn₂
      exact fun word id h => A.extends_addWords d' _ word id (hextends word id h)
    exact (hspells₁.globals hnames₁).unique hextends₂ (hspells₂.globals hnames₂)

/-- The same names through dictionaries in either order, without values: both become the same. -/
theorem newRequest_relabels_iff_swapped :
    listDictionary.RelabelsNames [wordB] (withTags [wordA, wordB] [0, 1] []) ∧
    ∃ d₁ t₁, listDictionary.newRequest [] (withTags [wordA, wordB] [0, 1] []) = some (d₁, t₁) ∧
      ∀ d', listDictionary.Extends d₁ d' → ∃ d₂ t₂,
        listDictionary.newRequest d' (withTags [wordB, wordA] [1, 0] []) = some (d₂, t₂) ∧
        t₁.tagName = t₂.tagName := by
  have hdefined : ∀ dictionary tagName, (withTags dictionary tagName []).ReadsDefined :=
    fun _ _ j k hk => by cases hk
  refine ⟨((newRequest_relabels_iff listDictionary).1 _ _ (by decide)).mpr (hdefined _ _), ?_⟩
  refine ((newRequest_relabels_iff listDictionary).2 [] _ _ [wordA, wordB] (by decide) (by decide) ?_
    ?_).mpr ⟨hdefined _ _, hdefined _ _⟩
  · exact .cons rfl (.cons rfl .nil)
  · exact .cons rfl (.cons rfl .nil)

/-- Two values `0` and a dictionary of one word: the second value is read through the pointer that the
first has overwritten. -/
theorem newRequest_relabels_twoValues :
    ¬ ∀ (d : List CString) request, request.nDictionary ≤ 2 ^ 31 →
      listDictionary.RelabelsNames d request := by
  intro h
  obtain ⟨d', tags, htags, -⟩ := h [] (withTags [wordA] [0, 0] [0, 0]) (by decide)
  have hnone : listDictionary.newRequest [] (withTags [wordA] [0, 0] [0, 0]) = none := by decide
  rw [hnone] at htags
  cases htags

/-! ## Tag values -/

/-- `new_request` gets through with `n_tag_value` values still in an array, every name and every value
the global index of the word it stood for, and equal arrays still equal. -/
def KeepsValues (A : Dictionary D) (d : D) (request : TaggedRequest) : Prop :=
  ∃ d' tags values, A.newRequest d request = some (d', tags) ∧ tags.tagValue = .array values ∧
    values.length = request.nTagValue ∧
    List.Forall₂ (A.GlobalOf d' request.dictionary) request.tagName tags.tagName ∧
    List.Forall₂ (A.GlobalOf d' request.dictionary) request.tagValue values ∧
    (request.tagName = request.tagValue → tags.tagName = values)

/-- **Tag values stay parallel to tag names only when there are none.** For a request with as many values
as names and only indices of words among the values, `new_request` gets through with an array of the
global indices of the same words beside those of the names exactly when there is no value: the first
value that is found to be an index replaces the array by a number. -/
theorem newRequest_keeps_values_iff (A : Dictionary D) (d : D) (request : TaggedRequest)
    (hparallel : request.nTagName = request.nTagValue)
    (hvalues : ∀ k ∈ request.tagValue, k.toNat < request.nDictionary)
    (hn : request.nDictionary ≤ 2 ^ 31) :
    A.KeepsValues d request ↔ request.nTagValue = 0 := by
  constructor
  · rintro ⟨d', tags, values, h, harray, -, -, -, -⟩
    obtain ⟨-, hnone⟩ := (newRequest_tagValue_eq_array_iff h).mp harray
    rw [request.nTagValue_eq, List.length_eq_zero_iff, List.eq_nil_iff_forall_not_mem]
    intro k hk
    have hlt := hvalues k hk
    have hle := hnone k hk
    omega
  · intro hzero
    have hvalue : request.tagValue = [] := by
      rwa [request.nTagValue_eq, List.length_eq_zero_iff] at hzero
    have hname : request.tagName = [] := by
      rwa [hzero, request.nTagName_eq, List.length_eq_zero_iff] at hparallel
    have hnone : ∀ k, k ∉ request.tagValue := List.eq_nil_iff_forall_not_mem.mp hvalue
    have hdefined : request.ReadsDefined := fun j k hk =>
      absurd (List.mem_of_getElem? hk) (hnone k)
    obtain ⟨d', tags, h, htranslated⟩ := (relabelsNames_iff A d request hn).mpr hdefined
    have htagName : tags.tagName = [] := by
      rw [hname] at htranslated
      exact List.forall₂_nil_left_iff.mp htranslated
    have harray : tags.tagValue = .array [] :=
      (newRequest_tagValue_eq_array_iff h).mpr ⟨hvalue, fun k hk => absurd hk (hnone k)⟩
    refine ⟨d', tags, [], h, harray, hzero.symm, ?_, ?_, fun _ => htagName⟩
    · rw [hname, htagName]
      exact .nil
    · rw [hvalue]
      exact .nil

/-- A request with one tag, whose name and value are the only word of its dictionary. -/
def oneTag : TaggedRequest := withTags [wordA] [0] [0]

/-- The equivalence at this request: its value is not kept. -/
theorem newRequest_keeps_values_iff_oneTag : ¬ listDictionary.KeepsValues [] oneTag := by
  have hiff := newRequest_keeps_values_iff listDictionary [] oneTag rfl (by simp [oneTag, withTags])
    (by decide)
  rw [hiff]
  decide

/-- Its `tag_value` becomes the number `0x80000000`. -/
theorem newRequest_keeps_values_oneTag :
    ¬ ∀ (d : List CString) request, request.nTagName = request.nTagValue →
      (∀ k ∈ request.tagName, k.toNat < request.nDictionary) →
      (∀ k ∈ request.tagValue, k.toNat < request.nDictionary) → request.nDictionary ≤ 2 ^ 31 →
      listDictionary.KeepsValues d request := by
  intro h
  obtain ⟨d', tags, values, htags, hvalues, -⟩ :=
    h [] oneTag rfl (by simp [oneTag, withTags]) (by simp [oneTag, withTags]) (by decide)
  have hresult : listDictionary.newRequest [] oneTag =
      some ([wordA], ⟨[0x80000000], .address 0x80000000⟩) := by decide
  rw [hresult] at htags
  cases htags
  cases hvalues

/-! ## Accepted requests -/

/-- The entry `k` is the global index of one of the words. -/
def GlobalAmong (A : Dictionary D) (d : D) (words : List CString) (k : UInt32) : Prop :=
  ∃ word ∈ words, ∃ id, A.idOf d word = some id ∧ k = globalIndex id

/-- `new_request` gets through, and every tag name is the global index of a word of the request. -/
def LeavesGlobals (A : Dictionary D) (d : D) (request : TaggedRequest) : Prop :=
  ∃ d' tags, A.newRequest d request = some (d', tags) ∧
    ∀ k ∈ tags.tagName, A.GlobalAmong d' request.dictionary k

/-- Every tag name is an index of a word, and a tag value is one only in the last place and if it is the
index of the last word. -/
def TagsInRange (request : TaggedRequest) : Prop :=
  (∀ k ∈ request.tagName, k.toNat < request.nDictionary) ∧
    ∀ (j : ℕ) k, request.tagValue[j]? = some k → k.toNat < request.nDictionary →
      j + 1 = request.nTagName ∧ k.toNat + 1 = request.nDictionary

/-- An accepted request has as many names as values, so for it this says that the names are in range and
that `new_request` gets through. -/
theorem tagsInRange_iff (hcheck : (requestCheck (some request.toPinbaRequest)).1 = 0) :
    TagsInRange request ↔
      (∀ k ∈ request.tagName, k.toNat < request.nDictionary) ∧ request.ReadsDefined := by
  have hlengths : request.nTagName = request.nTagValue := ((requestCheck_eq_zero_iff _).mp hcheck).2.2.1
  refine and_congr_right fun _ => ?_
  simp only [TaggedRequest.ReadsDefined, HitsOnlyAtEnd, Nat.zero_le, Nat.zero_add, true_implies,
    hlengths, request.nTagValue_eq]

/-- A request that leaves global indices gets through. -/
theorem LeavesGlobals.readsDefined (h : A.LeavesGlobals d request) : request.ReadsDefined := by
  obtain ⟨d', tags, htags, -⟩ := h
  rw [← newRequest_isSome_iff A d request, htags]
  rfl

/-- A tag name that is no index of a word is kept, so it has to be a global index already. -/
theorem LeavesGlobals.globalAmong_of_le (h : A.LeavesGlobals d request)
    (hn : request.nDictionary ≤ 2 ^ 31) {k : UInt32} (hk : k ∈ request.tagName)
    (hle : request.nDictionary ≤ k.toNat) : ∃ d', A.GlobalAmong d' request.dictionary k := by
  obtain ⟨d', tags, htags, hglobal⟩ := h
  obtain ⟨-, htagName⟩ := newRequest_eq_some htags hn
  have hkept : A.translate d request.dictionary k = k :=
    (translated_translate A d _ k).of_le (request.nDictionary_eq ▸ hle)
  refine ⟨d', hglobal k ?_⟩
  rw [htagName, ← hkept]
  exact List.mem_map_of_mem hk

/-- Tag names in range become global indices, in every dictionary. -/
theorem leavesGlobals_of_lt (A : Dictionary D) (d : D) (hn : request.nDictionary ≤ 2 ^ 31)
    (hnames : ∀ k ∈ request.tagName, k.toNat < request.nDictionary) (hreads : request.ReadsDefined) :
    A.LeavesGlobals d request := by
  obtain ⟨⟨d', tags⟩, h⟩ :=
    Option.isSome_iff_exists.mp ((newRequest_isSome_iff A d request).mpr hreads)
  refine ⟨d', tags, h, fun k' hk' => ?_⟩
  obtain ⟨rfl, htagName⟩ := newRequest_eq_some h hn
  rw [htagName] at hk'
  obtain ⟨k, hk, rfl⟩ := List.mem_map.mp hk'
  have hlt := hnames k hk
  rw [request.nDictionary_eq] at hlt
  obtain ⟨word, hword, hid⟩ := (translated_translate A d request.dictionary k).of_lt hlt
  exact ⟨word, List.mem_of_getElem? hword, hid⟩

/-- A dictionary with one id for all words. -/
def sameId (id : UInt32) (h : id.toNat < 2 ^ 31) : Dictionary Unit where
  addWord d _ := (id, d)
  idOf _ _ := some id
  idOf_addWord _ _ := rfl
  idOf_addWord_of_known _ _ _ _ h := h
  addWord_lt _ _ := h

/-- No entry is the global index of a word in every dictionary. -/
theorem exists_not_globalAmong (words : List CString) (k : UInt32) :
    ∃ A : Dictionary Unit, ∀ d, ¬ A.GlobalAmong d words k := by
  have hid : ∀ id (h : id.toNat < 2 ^ 31), k ≠ globalIndex id →
      ∀ d, ¬ (sameId id h).GlobalAmong d words k := by
    rintro id h hk d ⟨word, -, id', hsome, rfl⟩
    obtain rfl : id = id' := Option.some.inj hsome
    exact hk rfl
  by_cases hk : k = globalIndex 0
  · have hne : k ≠ globalIndex 1 := by
      rw [hk]
      decide
    exact ⟨_, hid 1 (by decide) hne⟩
  · exact ⟨_, hid 0 (by decide) hk⟩

/-- **What `request_check` accepts is not always translated.** For an accepted request `new_request` gets
through, in every state of every dictionary, and leaves every tag name the global index of a word of the
request's own dictionary, exactly when every tag name is in range and the tag values let it through. The
same holds of each dictionary and state alone when no tag name has the high bit already. -/
theorem newRequest_translates_accepted_iff (request : TaggedRequest)
    (hcheck : (requestCheck (some request.toPinbaRequest)).1 = 0)
    (hn : request.nDictionary ≤ 2 ^ 31) :
    ((∀ (D : Type) (A : Dictionary D) (d : D), A.LeavesGlobals d request) ↔ TagsInRange request) ∧
    ((∀ k ∈ request.tagName, k.toNat < 2 ^ 31) →
      ∀ (D : Type) (A : Dictionary D) (d : D), A.LeavesGlobals d request ↔ TagsInRange request) := by
  rw [tagsInRange_iff hcheck]
  constructor
  · constructor
    · intro h
      refine ⟨fun k hk => ?_, (h Unit (sameId 0 (by decide)) ()).readsDefined⟩
      by_contra hlt
      -- there is a dictionary in which the entry is no global index
      obtain ⟨A, hnot⟩ := exists_not_globalAmong request.dictionary k
      obtain ⟨d', hglobal⟩ := (h Unit A ()).globalAmong_of_le hn hk (not_lt.mp hlt)
      exact hnot d' hglobal
    · rintro ⟨hnames, hreads⟩ D A d
      exact leavesGlobals_of_lt A d hn hnames hreads
  · intro hlow D A d
    constructor
    · intro h
      refine ⟨fun k hk => ?_, h.readsDefined⟩
      by_contra hlt
      -- in no dictionary is the entry a global index: these have the high bit
      obtain ⟨d', word, -, id, -, rfl⟩ := h.globalAmong_of_le hn hk (not_lt.mp hlt)
      exact absurd (hlow _ hk) (not_lt.mpr (le_globalIndex id))
    · rintro ⟨hnames, hreads⟩
      exact leavesGlobals_of_lt A d hn hnames hreads

/-- A request with one word, whose one name is the index of it and whose one value is no index. -/
theorem newRequest_translates_accepted_iff_oneName :
    (∀ (D : Type) (A : Dictionary D) (d : D), A.LeavesGlobals d (withTags [wordA] [0] [5])) ∧
      listDictionary.LeavesGlobals [] (withTags [wordA] [0] [5]) := by
  have hrange : TagsInRange (withTags [wordA] [0] [5]) := by
    refine ⟨fun k hk => ?_, fun j k hk hlt => ?_⟩
    · obtain rfl := List.mem_singleton.mp hk
      decide
    · obtain rfl := List.mem_singleton.mp (List.mem_of_getElem? hk)
      exact absurd hlt (by decide)
  have hlow : ∀ k ∈ (withTags [wordA] [0] [5]).tagName, k.toNat < 2 ^ 31 := by
    intro k hk
    obtain rfl := List.mem_singleton.mp hk
    decide
  have hiff := newRequest_translates_accepted_iff (withTags [wordA] [0] [5]) (by decide) (by decide)
  exact ⟨hiff.1.mpr hrange, (hiff.2 hlow _ listDictionary []).mpr hrange⟩

/-- A request with one word and one tag, whose name and value have the index 5. -/
def danglingTag : TaggedRequest := withTags [wordA] [5] [5]

/-- It is accepted, and its name is kept. -/
theorem newRequest_translates_accepted_dangling :
    ¬ ∀ (d : List CString) (request : TaggedRequest),
      (requestCheck (some request.toPinbaRequest)).1 = 0 → request.nDictionary ≤ 2 ^ 31 →
      listDictionary.LeavesGlobals d request := by
  intro h
  obtain ⟨d', tags, htags, hglobal⟩ := h [] danglingTag (by decide) (by decide)
  have hresult : listDictionary.newRequest [] danglingTag = some ([wordA], ⟨[5], .array [5]⟩) := by
    decide
  rw [hresult] at htags
  cases htags
  obtain ⟨word, -, id, -, hid⟩ := hglobal 5 List.mem_cons_self
  have hbit := le_globalIndex id
  rw [← hid] at hbit
  exact absurd hbit (by decide)

end Dictionary

end Tinypinba
