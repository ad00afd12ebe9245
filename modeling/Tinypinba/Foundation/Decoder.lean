import Mathlib.Logic.Basic
import Mathlib.Tactic.Common

/-! # Decoders and the strings they accept

A `Decoder` takes a value off the front of its input, or stops with an error. `Decodes d Spells` says
what a decoder is for without saying how it works: it returns `a` exactly when a string that spells `a`
stands at the front of the input, and leaves what comes after that string. One such fact carries both
directions, that every accepted string is well formed and that every well-formed string is accepted.

The rules give the spelled strings of composed decoders. `Blames` says what an input is like on which a
decoder stops with a certain error, with the same rules. -/

universe u v w

/-- A **decoder** of tokens `β` with errors `ε`. -/
abbrev Decoder (β : Type u) (ε : Type v) (α : Type u) : Type (max u v) :=
  StateT (List β) (Except ε) α

namespace Decoder

variable {β : Type u} {ε : Type v} {α γ : Type u}

/-- A decoder that accepts exactly the strings in `Spells`. -/
def Decodes (d : Decoder β ε α) (Spells : α → List β → Prop) : Prop :=
  ∀ input a rest, d.run input = .ok (a, rest) ↔ ∃ bytes, Spells a bytes ∧ input = bytes ++ rest

/-- Two decoders one after the other succeed when both do, the second on what the first has left. -/
theorem run_bind_eq_ok {d : Decoder β ε α} {f : α → Decoder β ε γ} {input rest : List β} {c : γ} :
    (d >>= f).run input = .ok (c, rest) ↔
      ∃ a mid, d.run input = .ok (a, mid) ∧ (f a).run mid = .ok (c, rest) := by
  rw [StateT.run_bind]
  cases h : d.run input with
  | error e =>
    refine iff_of_false (fun h => by cases h) ?_
    rintro ⟨a, mid, h, -⟩
    cases h
  | ok pair =>
    obtain ⟨a, mid⟩ := pair
    show (f a).run mid = _ ↔ _
    constructor
    · intro hf
      exact ⟨a, mid, rfl, hf⟩
    · rintro ⟨_, _, h, hf⟩
      cases h
      exact hf

namespace Decodes

variable {d : Decoder β ε α} {Spells : α → List β → Prop}

/-- An error is spelled by no string. -/
theorem throw (e : ε) : Decodes (MonadExcept.throw e : Decoder β ε α) fun _ _ => False := by
  intro input b rest
  refine iff_of_false (fun h => by cases h) ?_
  rintro ⟨_, h, -⟩
  exact h

/-- The result of a computation that reads nothing. -/
theorem ofExcept (x : Except ε α) :
    Decodes (MonadExcept.ofExcept x : Decoder β ε α) fun a bytes => x = .ok a ∧ bytes = [] := by
  intro input b rest
  cases x with
  | ok a =>
    constructor
    · intro h
      cases h
      exact ⟨[], ⟨rfl, rfl⟩, rfl⟩
    · rintro ⟨_, ⟨h, rfl⟩, rfl⟩
      cases h
      rfl
  | error e =>
    refine iff_of_false (fun h => by cases h) ?_
    rintro ⟨_, ⟨h, -⟩, -⟩
    cases h

/-- **Decoders one after the other** accept the strings of the one followed by those of the other. -/
theorem bind (hd : Decodes d Spells) {f : α → Decoder β ε γ} {Then : α → γ → List β → Prop}
    (hf : ∀ a, Decodes (f a) (Then a)) :
    Decodes (d >>= f) fun c bytes =>
      ∃ a front back, Spells a front ∧ Then a c back ∧ bytes = front ++ back := by
  intro input c rest
  rw [run_bind_eq_ok]
  constructor
  · rintro ⟨a, mid, ha, hc⟩
    obtain ⟨front, hfront, rfl⟩ := (hd _ _ _).mp ha
    obtain ⟨back, hback, rfl⟩ := (hf a _ _ _).mp hc
    exact ⟨front ++ back, ⟨a, front, back, hfront, hback, rfl⟩, (List.append_assoc _ _ _).symm⟩
  · rintro ⟨_, ⟨a, front, back, hfront, hback, rfl⟩, rfl⟩
    refine ⟨a, back ++ rest, (hd _ _ _).mpr ⟨front, hfront, List.append_assoc _ _ _⟩, ?_⟩
    exact (hf a _ _ _).mpr ⟨back, hback, rfl⟩

/-- Computing with the value does not change the strings. -/
theorem map (hd : Decodes d Spells) (f : α → γ) :
    Decodes (f <$> d) fun c bytes => ∃ a, Spells a bytes ∧ c = f a := by
  intro input c rest
  rw [map_eq_pure_bind, run_bind_eq_ok]
  constructor
  · rintro ⟨a, mid, ha, h⟩
    cases h
    obtain ⟨bytes, hbytes, rfl⟩ := (hd _ _ _).mp ha
    exact ⟨bytes, ⟨a, hbytes, rfl⟩, rfl⟩
  · rintro ⟨bytes, ⟨a, hbytes, rfl⟩, rfl⟩
    exact ⟨a, rest, (hd _ _ _).mpr ⟨bytes, hbytes, rfl⟩, rfl⟩

/-- The accepted strings may be described in another way. -/
theorem congr (hd : Decodes d Spells) {Spells' : α → List β → Prop}
    (h : ∀ a bytes, Spells a bytes ↔ Spells' a bytes) : Decodes d Spells' := by
  intro input a rest
  rw [hd input a rest]
  exact exists_congr fun bytes => and_congr_left fun _ => h a bytes

end Decodes

/-! ## Errors -/

/-- A decoder that stops with the error `e` only on inputs in `Bad`. -/
def Blames (e : ε) (Bad : List β → Prop) (d : Decoder β ε α) : Prop :=
  ∀ input, d.run input = .error e → Bad input

namespace Blames

variable {e : ε} {Bad : List β → Prop} {d : Decoder β ε α} {Spells : α → List β → Prop}

/-- No error, nothing to blame. -/
theorem pure (a : α) : Blames e Bad (Pure.pure a : Decoder β ε α) := by
  intro input h
  cases h

/-- Another error blames nothing. -/
theorem throw {e' : ε} (hne : e' ≠ e) : Blames e Bad (MonadExcept.throw e' : Decoder β ε α) := by
  intro input h
  cases h
  exact absurd rfl hne

/-- **Decoders one after the other**: what the second blames may lie in what the first has read. -/
theorem bind (hd : Blames e Bad d) (hdecodes : Decodes d Spells) {f : α → Decoder β ε γ}
    (hf : ∀ a bytes rest, Spells a bytes → (f a).run rest = .error e → Bad (bytes ++ rest)) :
    Blames e Bad (d >>= f) := by
  intro input h
  rw [StateT.run_bind] at h
  cases hrun : d.run input with
  | error e' =>
    rw [hrun] at h
    cases h
    exact hd input hrun
  | ok pair =>
    obtain ⟨a, rest⟩ := pair
    rw [hrun] at h
    obtain ⟨bytes, hbytes, rfl⟩ := (hdecodes _ _ _).mp hrun
    exact hf a bytes rest hbytes h

/-- When bad input stays bad with more in front of it, each decoder may be looked at alone. -/
theorem bind_of_mono (hd : Blames e Bad d) (hdecodes : Decodes d Spells) {f : α → Decoder β ε γ}
    (hf : ∀ a, Blames e Bad (f a)) (hmono : ∀ front back, Bad back → Bad (front ++ back)) :
    Blames e Bad (d >>= f) :=
  hd.bind hdecodes fun a bytes rest _ h => hmono bytes rest (hf a rest h)

/-- Computing with the value adds no error. -/
theorem map (hd : Blames e Bad d) (f : α → γ) : Blames e Bad (f <$> d) := by
  intro input h
  rw [map_eq_pure_bind, StateT.run_bind] at h
  cases hrun : d.run input with
  | error e' =>
    rw [hrun] at h
    cases h
    exact hd input hrun
  | ok pair =>
    rw [hrun] at h
    cases h

end Blames

end Decoder
