import Mathlib

/-! # Loops that touch one key at a time

Two loop shapes and the one fact that makes each of them pointwise: an iteration reads and writes a
single key, and no key is visited twice, so the loop acts on every key on its own.

* `foldl_update_apply` — a `for` loop over indices that rewrites one entry of a table per round;
* `foldlM_invariant` — what every iteration keeps, the loop keeps;
* `foldlM_apply` — a fallible loop over the entries of an ordered map that updates some other state
  at the key of the entry it is looking at;
* `upsert_eq_some` — the body that finds or creates an entry and then changes it;
* `sum_update_add` — what rewriting one entry does to a sum over a table. -/

namespace KeyedLoop

universe u v w

open Function (update)

/-! ## Loops over indices -/

/-- A loop over the indices `l`, none repeated, that replaces the entry at `i` by `g i` of it changes
exactly the entries listed in `l`, each once. -/
theorem foldl_update_apply {ι : Type u} [DecidableEq ι] {β : ι → Type v} (g : ∀ i, β i → β i)
    (l : List ι) (hl : l.Nodup) (f : ∀ i, β i) (j : ι) :
    l.foldl (fun f i => update f i (g i (f i))) f j = if j ∈ l then g j (f j) else f j := by
  induction l generalizing f with
  | nil => simp
  | cons i l ih =>
    obtain ⟨hi, hl⟩ := List.nodup_cons.mp hl
    rw [List.foldl_cons, ih hl]
    by_cases hji : j = i
    · subst hji
      rw [if_neg hi, if_pos List.mem_cons_self, Function.update_self]
    · simp only [Function.update_of_ne hji, List.mem_cons, hji, false_or]

/-- A loop over all indices below `n` that replaces each entry `f i` by `g i (f i)`. -/
theorem foldl_finRange_update {n : ℕ} {β : Fin n → Type v} (g : ∀ i, β i → β i) (f : ∀ i, β i) :
    (List.finRange n).foldl (fun f i => update f i (g i (f i))) f = fun i => g i (f i) := by
  funext j
  rw [foldl_update_apply g _ (List.nodup_finRange n), if_pos (List.mem_finRange j)]

/-- Rewriting one entry of a table changes a sum over the table by the change of that entry's term. -/
theorem sum_update_add {ι : Type u} [Fintype ι] [DecidableEq ι] {β : ι → Type v} (F : ∀ i, β i → ℤ)
    (f : ∀ i, β i) (i : ι) (x : β i) :
    ∑ j, F j (update f i x j) + F i (f i) = ∑ j, F j (f j) + F i x := by
  have hnew := Finset.add_sum_erase Finset.univ (fun j => F j (update f i x j)) (Finset.mem_univ i)
  have hold := Finset.add_sum_erase Finset.univ (fun j => F j (f j)) (Finset.mem_univ i)
  have hothers : ∑ j ∈ Finset.univ.erase i, F j (update f i x j) =
      ∑ j ∈ Finset.univ.erase i, F j (f j) :=
    Finset.sum_congr rfl fun j hj => by rw [Function.update_of_ne (Finset.ne_of_mem_erase hj)]
  rw [Function.update_self] at hnew
  omega

/-! ## Loops over the entries of a map -/

section Entries

variable {κ : Type u} {β : Type v} {σ : Type w} {δ : Type*}

/-- Fold over a list of entries with distinct keys: every listed key is treated once, with the value
it had at the start, and no other key is touched. `Q` is what the body needs of the key's own data in
order not to fail. -/
theorem foldlM_list_apply (look : σ → κ → δ) (body : σ → κ → β → Option σ) (f : κ → δ → β → δ)
    (Q : κ → δ → β → Prop)
    (hbody : ∀ s k v, Q k (look s k) v → ∃ s', body s k v = some s' ∧
      look s' k = f k (look s k) v ∧ ∀ j, j ≠ k → look s' j = look s j)
    (l : List (κ × β)) (hl : l.Pairwise fun a b => a.1 ≠ b.1) (s : σ)
    (hQ : ∀ e ∈ l, Q e.1 (look s e.1) e.2) :
    ∃ s', l.foldlM (fun s e => body s e.1 e.2) s = some s' ∧
      (∀ e ∈ l, look s' e.1 = f e.1 (look s e.1) e.2) ∧
      ∀ j, (∀ e ∈ l, e.1 ≠ j) → look s' j = look s j := by
  induction l generalizing s with
  | nil => exact ⟨s, rfl, by simp, fun _ _ => rfl⟩
  | cons e l ih =>
    obtain ⟨hne, hl⟩ := List.pairwise_cons.mp hl
    obtain ⟨s₁, hs₁, hhit, hmiss⟩ := hbody s e.1 e.2 (hQ e List.mem_cons_self)
    -- the other entries are as they were before the first round
    have hkeep : ∀ d ∈ l, look s₁ d.1 = look s d.1 := fun d hd => hmiss d.1 (hne d hd).symm
    obtain ⟨s', hs', hin, hout⟩ := ih hl s₁ fun d hd => by
      rw [hkeep d hd]
      exact hQ d (List.mem_cons_of_mem _ hd)
    refine ⟨s', by rw [List.foldlM_cons, hs₁]; exact hs', ?_, ?_⟩
    · intro d hd
      rcases List.mem_cons.mp hd with rfl | hd
      · rw [hout d.1 fun c hc => (hne c hc).symm, hhit]
      · rw [hin d hd, hkeep d hd]
    · intro j hj
      rw [hout j fun d hd => hj d (List.mem_cons_of_mem _ hd),
        hmiss j (hj e List.mem_cons_self).symm]

variable {cmp : κ → κ → Ordering} [Std.TransCmp cmp] [Std.LawfulEqCmp cmp]

/-- What the body keeps at every entry of the map, a successful loop keeps. -/
theorem foldlM_invariant (body : σ → κ → β → Option σ) (I : σ → Prop) (m : Std.ExtTreeMap κ β cmp)
    (hbody : ∀ s k v s', m[k]? = some v → I s → body s k v = some s' → I s') {s s' : σ}
    (hs : I s) (h : m.foldlM body s = some s') : I s' := by
  rw [Std.ExtTreeMap.foldlM_eq_foldlM_toList] at h
  have hmem : ∀ e ∈ m.toList, m[e.1]? = some e.2 := fun e he =>
    Std.ExtTreeMap.mem_toList_iff_getElem?_eq_some.mp he
  -- induction on the entries still to visit, all of them entries of the map
  revert hmem
  generalize m.toList = l at h
  induction l generalizing s with
  | nil =>
    intro _
    obtain rfl : s = s' := by simpa using h
    exact hs
  | cons e l ih =>
    intro hmem
    rw [List.foldlM_cons] at h
    obtain ⟨t, ht, hrest⟩ := Option.bind_eq_some_iff.mp h
    exact ih (hbody s e.1 e.2 t (hmem e List.mem_cons_self) hs ht) hrest
      fun d hd => hmem d (List.mem_cons_of_mem _ hd)

/-- **A loop over the entries of an ordered map acts key by key.** When the body succeeds on every
entry and changes the observed state only at that entry's key, so does the loop: at a key of the map
the observation is rewritten once, elsewhere it is kept. -/
theorem foldlM_apply (look : σ → κ → δ) (body : σ → κ → β → Option σ) (f : κ → δ → β → δ)
    (Q : κ → δ → β → Prop)
    (hbody : ∀ s k v, Q k (look s k) v → ∃ s', body s k v = some s' ∧
      look s' k = f k (look s k) v ∧ ∀ j, j ≠ k → look s' j = look s j)
    (m : Std.ExtTreeMap κ β cmp) (s : σ) (hQ : ∀ k v, m[k]? = some v → Q k (look s k) v) :
    ∃ s', m.foldlM body s = some s' ∧
      ∀ j, look s' j = (m[j]?).elim (look s j) (f j (look s j)) := by
  have hdistinct : m.toList.Pairwise fun a b => a.1 ≠ b.1 :=
    m.distinct_keys_toList.imp fun h heq => h (Std.LawfulEqCmp.compare_eq_iff_eq.mpr heq)
  obtain ⟨s', hs', hin, hout⟩ := foldlM_list_apply look body f Q hbody m.toList hdistinct s
    fun e he => hQ e.1 e.2 (Std.ExtTreeMap.mem_toList_iff_getElem?_eq_some.mp he)
  refine ⟨s', by rw [Std.ExtTreeMap.foldlM_eq_foldlM_toList]; exact hs', fun j => ?_⟩
  cases hj : m[j]? with
  | some v => exact hin (j, v) (Std.ExtTreeMap.mem_toList_iff_getElem?_eq_some.mpr hj)
  | none =>
    refine hout j fun e he heq => ?_
    have := Std.ExtTreeMap.mem_toList_iff_getElem?_eq_some.mp he
    rw [heq, hj] at this
    exact absurd this (by simp)

/-- Find an entry, or create it, and then change it: `f` is applied to the entry at `k`, which is first
inserted as `create` says when it is missing, unless missing entries are skipped. -/
def upsert (m : Std.ExtTreeMap κ β cmp) (k : κ) (skip : Bool) (create : Option β) (f : β → β) :
    Option (Std.ExtTreeMap κ β cmp) :=
  match m[k]? with
  | none => if skip then some m else create.map fun new => (m.insert k new).modify k f
  | some _ => some (m.modify k f)

/-- What `upsert` makes of the entry at its key. -/
def upserted (old : Option β) (skip : Bool) (create : Option β) (f : β → β) : Option β :=
  match old with
  | none => if skip then none else create.map f
  | some old => some (f old)

/-- **`upsert` touches one key**, and fails only when it has to create an entry and cannot. -/
theorem upsert_eq_some (m : Std.ExtTreeMap κ β cmp) (k : κ) (skip : Bool) (create : Option β)
    (f : β → β) (hcreate : m[k]? = none → skip = false → create.isSome) :
    ∃ m', upsert m k skip create f = some m' ∧ m'[k]? = upserted m[k]? skip create f ∧
      ∀ j, j ≠ k → m'[j]? = m[j]? := by
  have hcmp : ∀ j, j ≠ k → cmp k j ≠ .eq := fun j hj h =>
    hj (Std.LawfulEqCmp.compare_eq_iff_eq.mp h).symm
  cases hold : m[k]? with
  | some old =>
    refine ⟨m.modify k f, by rw [upsert, hold], ?_, fun j hj => ?_⟩
    · rw [Std.ExtTreeMap.getElem?_modify_self, hold]
      rfl
    · rw [Std.ExtTreeMap.getElem?_modify, if_neg (hcmp j hj)]
  | none =>
    cases skip with
    | true => exact ⟨m, by rw [upsert, hold]; rfl, hold, fun _ _ => rfl⟩
    | false =>
      obtain ⟨new, rfl⟩ := Option.isSome_iff_exists.mp (hcreate hold rfl)
      refine ⟨(m.insert k new).modify k f, by rw [upsert, hold]; rfl, ?_, fun j hj => ?_⟩
      · rw [Std.ExtTreeMap.getElem?_modify_self, Std.ExtTreeMap.getElem?_insert_self]
        rfl
      · rw [Std.ExtTreeMap.getElem?_modify, if_neg (hcmp j hj), Std.ExtTreeMap.getElem?_insert,
          if_neg (hcmp j hj)]

end Entries

end KeyedLoop
