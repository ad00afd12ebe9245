import Mathlib

/-! # A cursor over an ordered map that grows

A walk through an ordered map that remembers nothing but the key it is at and looks the next one up
again: `first?` starts it and `upperBound?` continues it. Between two steps the map may gain keys on
either side of the cursor and its values may change.

* `entriesAbove` — what the walk would still visit if the map stayed as it is; a step takes its head
  (`entriesAbove_eq_cons`), and the walk ends when it is empty (`entriesAbove_eq_nil`);
* `Walked` — what holds of a walk so far, for any growth of the map on the way: it is kept by growth
  (`Walked.grow`), by a step (`Walked.advance`) and by the end (`Walked.finish`). -/

namespace MapCursor

universe u v w

variable {κ : Type u} {β : Type v} {cmp : κ → κ → Ordering}

/-- The first entry of an ordered map. -/
def first? [Std.TransCmp cmp] (m : Std.ExtTreeMap κ β cmp) : Option (κ × β) := m.toList.head?

/-- The first entry whose key is greater than `k`. -/
def upperBound? [Std.TransCmp cmp] (m : Std.ExtTreeMap κ β cmp) (k : κ) : Option (κ × β) :=
  m.toList.find? fun e => cmp k e.1 == .lt

/-- Where a walk is. -/
inductive Position (κ : Type u)
  /-- Before its first step. -/
  | start
  /-- At the entry with this key. -/
  | at (key : κ)
  /-- At the end. -/
  | done
  deriving DecidableEq

variable (cmp) in
/-- Whether a key is still ahead of the cursor. -/
def ahead : Position κ → κ → Bool
  | .start, _ => true
  | .at a, k => cmp a k == .lt
  | .done, _ => false

/-- One step of a walk; `none` is its end. -/
def advance? [Std.TransCmp cmp] (m : Std.ExtTreeMap κ β cmp) : Position κ → Option (κ × β)
  | .start => first? m
  | .at a => upperBound? m a
  | .done => none

/-- The entries ahead of the cursor, in order. -/
def entriesAbove [Std.TransCmp cmp] (m : Std.ExtTreeMap κ β cmp) (pos : Position κ) :
    List (κ × β) :=
  m.toList.filter fun e => ahead cmp pos e.1

/-! ## A step -/

section Step

variable [Std.TransCmp cmp] (m : Std.ExtTreeMap κ β cmp)

/-- From the start, every entry is to come. -/
@[simp] theorem entriesAbove_start : entriesAbove m .start = m.toList :=
  List.filter_eq_self.mpr fun _ _ => rfl

/-- A step goes to the first entry ahead. -/
theorem advance?_eq_head? (pos : Position κ) : advance? m pos = (entriesAbove m pos).head? := by
  cases pos with
  | start => rw [entriesAbove_start, advance?, first?]
  | «at» a => rw [advance?, upperBound?, entriesAbove, List.head?_filter]; rfl
  | done =>
    have hnone : entriesAbove m .done = [] := List.filter_eq_nil_iff.mpr fun _ _ => by simp [ahead]
    rw [hnone, advance?, List.head?_nil]

/-- At the end of the walk nothing is ahead. -/
theorem entriesAbove_eq_nil {pos : Position κ} (h : advance? m pos = none) :
    entriesAbove m pos = [] := by
  rwa [advance?_eq_head?, List.head?_eq_none_iff] at h

/-- What is ahead of an entry ahead is ahead. -/
theorem ahead_trans {pos : Position κ} {j k : κ} (hj : ahead cmp pos j) (hk : ahead cmp (.at j) k) :
    ahead cmp pos k := by
  cases pos with
  | start => rfl
  | «at» a =>
    simp only [ahead, beq_iff_eq] at hj hk ⊢
    exact Std.TransCmp.lt_trans hj hk
  | done => cases hj

/-- **A step consumes the head** of what is ahead. -/
theorem entriesAbove_eq_cons {pos : Position κ} {e : κ × β} (h : advance? m pos = some e) :
    entriesAbove m pos = e :: entriesAbove m (.at e.1) := by
  rw [advance?_eq_head?, List.head?_eq_some_iff] at h
  obtain ⟨rest, hrest⟩ := h
  have hmem : e ∈ entriesAbove m pos := by rw [hrest]; exact List.mem_cons_self
  have hahead : ahead cmp pos e.1 := (List.mem_filter.mp hmem).2
  -- the entries ahead are in order, so the rest is ahead of the head
  have hordered : (entriesAbove m pos).Pairwise fun a b => cmp a.1 b.1 = .lt :=
    m.ordered_keys_toList.filter _
  rw [hrest] at hordered
  have hlater : ∀ d ∈ rest, ahead cmp (.at e.1) d.1 := fun d hd =>
    beq_iff_eq.mpr ((List.pairwise_cons.mp hordered).1 d hd)
  have hnot : ¬ ahead cmp (.at e.1) e.1 := by
    simp [ahead, Std.ReflCmp.compare_self]
  have hsame : entriesAbove m (.at e.1) = (entriesAbove m pos).filter fun d => ahead cmp (.at e.1) d.1 := by
    rw [entriesAbove, entriesAbove, List.filter_filter]
    refine List.filter_congr fun d _ => ?_
    by_cases hd : ahead cmp (.at e.1) d.1
    · rw [hd, ahead_trans hahead hd, Bool.and_self]
    · rw [Bool.eq_false_iff.mpr hd, Bool.false_and]
  rw [hsame, hrest, List.filter_cons_of_neg (by exact hnot), List.filter_eq_self.mpr hlater]

variable {m}

/-- When nothing is ahead the walk ends. -/
theorem advance?_eq_none {pos : Position κ} (h : entriesAbove m pos = []) : advance? m pos = none := by
  rw [advance?_eq_head?, h, List.head?_nil]

/-- When something is ahead the walk goes to the first of it, and the rest stays ahead. -/
theorem advance?_eq_some {pos : Position κ} {e : κ × β} {rest : List (κ × β)}
    (h : entriesAbove m pos = e :: rest) :
    advance? m pos = some e ∧ entriesAbove m (.at e.1) = rest := by
  have hsome : advance? m pos = some e := by rw [advance?_eq_head?, h, List.head?_cons]
  have hcons := entriesAbove_eq_cons m hsome
  rw [h] at hcons
  exact ⟨hsome, (List.cons.inj hcons).2.symm⟩

variable (m)

/-- A key of the map is ahead of the cursor iff its entry is among those ahead. -/
theorem exists_mem_entriesAbove [Std.LawfulEqCmp cmp] {pos : Position κ} {k : κ} :
    (∃ v, (k, v) ∈ entriesAbove m pos) ↔ k ∈ m ∧ ahead cmp pos k := by
  simp only [entriesAbove, List.mem_filter, Std.ExtTreeMap.mem_toList_iff_getElem?_eq_some,
    exists_and_right]
  rw [← Option.isSome_iff_exists, Std.ExtTreeMap.isSome_getElem?_iff_mem]

end Step

/-! ## A walk -/

section Walk

variable [Std.TransCmp cmp] {m₀ m m' : Std.ExtTreeMap κ β cmp} {pos : Position κ}
  {visited : List κ}

/-- A walk that started when the map was `m₀`, has visited the keys `visited`, and is at `pos` while the
map is `m`. -/
structure Walked (m₀ m : Std.ExtTreeMap κ β cmp) (pos : Position κ) (visited : List κ) : Prop where
  /-- The keys of the map at the start are still there. -/
  kept : ∀ k ∈ m₀, k ∈ m
  /-- Keys have been visited in strictly ascending order. -/
  ascending : visited.Pairwise fun j k => cmp j k = .lt
  /-- Every visited key is in the map. -/
  present : ∀ k ∈ visited, k ∈ m
  /-- Every visited key is behind what is ahead. -/
  behind : ∀ j ∈ visited, ∀ k, ahead cmp pos k → cmp j k = .lt
  /-- Every key of the map at the start has been visited or is ahead. -/
  complete : ∀ k ∈ m₀, k ∈ visited ∨ ahead cmp pos k

/-- A walk that has not begun. -/
theorem Walked.start : Walked m m .start [] where
  kept _ h := h
  ascending := .nil
  present _ h := absurd h List.not_mem_nil
  behind _ h := absurd h List.not_mem_nil
  complete _ _ := .inr rfl

/-- The map may gain keys, on either side of the cursor. -/
theorem Walked.grow (h : Walked m₀ m pos visited) (hgrow : ∀ k ∈ m, k ∈ m') :
    Walked m₀ m' pos visited :=
  { h with
    kept := fun k hk => hgrow k (h.kept k hk)
    present := fun k hk => hgrow k (h.present k hk) }

variable [Std.LawfulEqCmp cmp]

/-- The entry a step goes to is in the map and ahead of the cursor. -/
theorem mem_and_ahead_of_advance? {e : κ × β} (h : advance? m pos = some e) :
    e.1 ∈ m ∧ ahead cmp pos e.1 := by
  refine (exists_mem_entriesAbove m).mp ⟨e.2, ?_⟩
  rw [entriesAbove_eq_cons m h]
  exact List.mem_cons_self

/-- A step visits the key it goes to. -/
theorem Walked.advance {e : κ × β} (h : Walked m₀ m pos visited) (hstep : advance? m pos = some e) :
    Walked m₀ m (.at e.1) (visited ++ [e.1]) := by
  obtain ⟨hmem, hahead⟩ := mem_and_ahead_of_advance? hstep
  refine ⟨h.kept, ?_, ?_, ?_, ?_⟩
  · rw [List.pairwise_append]
    refine ⟨h.ascending, List.pairwise_singleton _ _, fun j hj k hk => ?_⟩
    obtain rfl := List.mem_singleton.mp hk
    exact h.behind j hj e.1 hahead
  · intro k hk
    rcases List.mem_append.mp hk with hk | hk
    · exact h.present k hk
    · obtain rfl := List.mem_singleton.mp hk
      exact hmem
  · intro j hj k hk
    rcases List.mem_append.mp hj with hj | hj
    · exact h.behind j hj k (ahead_trans hahead hk)
    · obtain rfl := List.mem_singleton.mp hj
      exact beq_iff_eq.mp hk
  · intro k hk
    rcases h.complete k hk with hk' | hk'
    · exact .inl (List.mem_append_left _ hk')
    -- a key that was ahead is the one the step went to, or is ahead of it
    · obtain ⟨v, hv⟩ := (exists_mem_entriesAbove m).mpr ⟨h.kept k hk, hk'⟩
      rw [entriesAbove_eq_cons m hstep] at hv
      rcases List.mem_cons.mp hv with rfl | hv
      · exact .inl (List.mem_append_right _ List.mem_cons_self)
      · exact .inr ((exists_mem_entriesAbove m).mp ⟨v, hv⟩).2

/-- When there is no next entry, every key of the map at the start has been visited. -/
theorem Walked.finish (h : Walked m₀ m pos visited) (hstep : advance? m pos = none) :
    Walked m₀ m .done visited := by
  refine { h with behind := fun _ _ _ hk => (by cases hk), complete := fun k hk => .inl ?_ }
  refine (h.complete k hk).resolve_right fun hahead => ?_
  obtain ⟨v, hv⟩ := (exists_mem_entriesAbove m).mpr ⟨h.kept k hk, hahead⟩
  rw [entriesAbove_eq_nil m hstep] at hv
  cases hv

end Walk

end MapCursor
