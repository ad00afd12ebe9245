import Mathlib

/-! # Relabelling in place

Passes over an array, each of which replaces the entries that carry one number by another entry, share
one space for old and new entries: a later pass may find what an earlier one has put in. When no pass
puts in an entry that a later pass looks for, the passes one after the other are one simultaneous
substitution (`sequential_eq_simultaneous`). -/

namespace Relabel

universe u v

variable {α : Type u} {κ : Type v} [DecidableEq κ] (key : α → κ)

/-- What a pass, a number to look for and an entry to put in its place, does to an entry. -/
def replace (x : α) (pass : κ × α) : α := if key x = pass.1 then pass.2 else x

/-- Passes one after the other. -/
def sequential (passes : List (κ × α)) (x : α) : α := passes.foldl (replace key) x

/-- All passes at once: an entry is looked up under the number it carries at the start. -/
def simultaneous (passes : List (κ × α)) (x : α) : α := (passes.lookup (key x)).getD x

/-- No pass puts in an entry that a later pass looks for. -/
def Apart (passes : List (κ × α)) : Prop := passes.Pairwise fun pass later => key pass.2 ≠ later.1

variable {key}

/-- An entry that no pass looks for stays. -/
theorem sequential_eq_self {passes : List (κ × α)} {x : α} (h : ∀ pass ∈ passes, key x ≠ pass.1) :
    sequential key passes x = x := by
  induction passes with
  | nil => rfl
  | cons pass passes ih =>
    obtain ⟨hpass, hpasses⟩ := List.forall_mem_cons.mp h
    rw [sequential, List.foldl_cons, replace, if_neg hpass]
    exact ih hpasses

/-- **Passes that stay apart are one simultaneous substitution.** -/
theorem sequential_eq_simultaneous {passes : List (κ × α)} (h : Apart key passes) (x : α) :
    sequential key passes x = simultaneous key passes x := by
  induction passes with
  | nil => rfl
  | cons pass passes ih =>
    obtain ⟨hpass, hpasses⟩ := List.pairwise_cons.mp h
    by_cases hx : key x = pass.1
    · -- the entry is replaced, and not looked for again
      rw [sequential, List.foldl_cons, replace, if_pos hx, simultaneous, List.lookup_cons,
        beq_iff_eq.mpr hx]
      exact sequential_eq_self hpass
    · rw [sequential, List.foldl_cons, replace, if_neg hx, simultaneous, List.lookup_cons,
        beq_eq_false_iff_ne.mpr hx]
      exact ih hpasses

/-- Passes over an array are passes over each of its entries. -/
theorem foldl_map_replace (passes : List (κ × α)) (xs : List α) :
    passes.foldl (fun xs pass => xs.map (replace key · pass)) xs = xs.map (sequential key passes) := by
  induction passes generalizing xs with
  | nil => exact (List.map_id xs).symm
  | cons pass passes ih =>
    rw [List.foldl_cons, ih, List.map_map]
    rfl

end Relabel
