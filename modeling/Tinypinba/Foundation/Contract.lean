import Tinypinba.Foundation.Decoder

/-! # Contracts of programs with state and errors

Rules for programs in `EStateM`, whose state survives an error, so that a caller can clean up. A
`Contract` is a precondition with a postcondition for each way to end; `Implements` relates a program to
a `Decoder` that says what the program does to its input. Both have one rule per construct, and a
function has one contract that its callers cite. -/

universe u

variable {ε σ α γ : Type u}

/-- How a program ended: in `Q` with its result, or in `E` with its error. -/
def Ends (Q : α → σ → Prop) (E : ε → σ → Prop) : EStateM.Result ε σ α → Prop
  | .ok a s => Q a s
  | .error e s => E e s

/-- Started in `P`, the program ends in `Q` with its result, or in `E` with its error. -/
def Contract (P : σ → Prop) (x : EStateM ε σ α) (Q : α → σ → Prop) (E : ε → σ → Prop) : Prop :=
  ∀ s, P s → Ends Q E (x s)

/-- A result that ends as required ends as anything weaker requires. -/
theorem Ends.weaken {Q Q' : α → σ → Prop} {E E' : ε → σ → Prop} {r : EStateM.Result ε σ α}
    (h : Ends Q E r) (hQ : ∀ a s, Q a s → Q' a s) (hE : ∀ e s, E e s → E' e s) : Ends Q' E' r := by
  cases r with
  | ok a s => exact hQ a s h
  | error e s => exact hE e s h

/-- After a first part that succeeds, the second runs in the state it leaves. -/
theorem bind_of_ok {x : EStateM ε σ α} {f : α → EStateM ε σ γ} {s t : σ} {a : α} (h : x s = .ok a t) :
    (x >>= f) s = f a t := by
  show EStateM.bind x f s = _
  rw [EStateM.bind, h]

/-- An error of the first part is an error of both. -/
theorem bind_of_error {x : EStateM ε σ α} {f : α → EStateM ε σ γ} {s t : σ} {e : ε}
    (h : x s = .error e t) : (x >>= f) s = .error e t := by
  show EStateM.bind x f s = _
  rw [EStateM.bind, h]

/-- **One program after the other** ends as the second ends after the first. -/
theorem Ends.bind {Q : α → σ → Prop} {E : ε → σ → Prop} {R : γ → σ → Prop} {x : EStateM ε σ α}
    {f : α → EStateM ε σ γ} {s : σ} (hx : Ends Q E (x s)) (hf : ∀ a t, Q a t → Ends R E (f a t)) :
    Ends R E ((x >>= f) s) := by
  cases hrun : x s with
  | ok a t =>
    rw [hrun] at hx
    rw [bind_of_ok hrun]
    exact hf a t hx
  | error e t =>
    rw [hrun] at hx
    rw [bind_of_error hrun]
    exact hx

namespace Contract

variable {P : σ → Prop} {x : EStateM ε σ α} {Q : α → σ → Prop} {E : ε → σ → Prop}

/-- Returning a value changes no state. -/
theorem pure {a : α} (h : ∀ s, P s → Q a s) : Contract P (Pure.pure a : EStateM ε σ α) Q E :=
  fun s hs => h s hs

/-- Neither does an error. -/
theorem throw {e : ε} (h : ∀ s, P s → E e s) :
    Contract P (MonadExcept.throw e : EStateM ε σ α) Q E :=
  fun s hs => h s hs

/-- **One program after the other**: an error of the first is the error of both. -/
theorem bind {R : γ → σ → Prop} {f : α → EStateM ε σ γ} (hx : Contract P x Q E)
    (hf : ∀ a, Contract (Q a) (f a) R E) : Contract P (x >>= f) R E :=
  fun s hs => (hx s hs).bind hf

/-- A stronger precondition and weaker postconditions. -/
theorem weaken {P' : σ → Prop} {Q' : α → σ → Prop} {E' : ε → σ → Prop} (hx : Contract P x Q E)
    (hP : ∀ s, P' s → P s) (hQ : ∀ a s, Q a s → Q' a s) (hE : ∀ e s, E e s → E' e s) :
    Contract P' x Q' E' :=
  fun s hs => (hx s (hP s hs)).weaken hQ hE

/-- Both branches meet the contract, each under its condition. -/
theorem ite {c : Prop} [Decidable c] {y : EStateM ε σ α} (hx : c → Contract P x Q E)
    (hy : ¬ c → Contract P y Q E) : Contract P (if c then x else y) Q E := by
  by_cases h : c
  · rw [if_pos h]
    exact hx h
  · rw [if_neg h]
    exact hy h

/-- It is enough to start in one state at a time. -/
theorem start (h : ∀ s, P s → Contract (· = s) x Q E) : Contract P x Q E :=
  fun s hs => h s hs s rfl

/-- Reading the state and going on from it. -/
theorem get_bind {f : σ → EStateM ε σ α} (h : ∀ s, P s → Contract (· = s) (f s) Q E) :
    Contract P (MonadState.get >>= f) Q E :=
  fun s hs => h s hs s rfl

/-- Changing the state. -/
theorem update {f : σ → σ} {Q : PUnit → σ → Prop} (h : ∀ s, P s → Q ⟨⟩ (f s)) :
    Contract P (modify f : EStateM ε σ PUnit) Q E :=
  fun s hs => h s hs

end Contract

/-! ## Programs that decode -/

section Decoding

variable {β δ : Type u}

/-- The state carries the `input` still to be decoded; `reason` says which errors of the program are
errors of the input. -/
structure Decoding (ε σ β δ : Type u) where
  /-- The input still to be decoded. -/
  input : σ → List β
  /-- The error of the decoder that an error of the program stands for; `none` if it is the program's
  own. -/
  reason : ε → Option δ

/-- A contract of a program that leaves the input alone and fails only for reasons of its own. -/
def Silent (D : Decoding ε σ β δ) (P : σ → Prop) (x : EStateM ε σ α) (Q : α → σ → Prop)
    (E : ε → σ → Prop) : Prop :=
  ∀ l, Contract (fun s => P s ∧ D.input s = l) x (fun a s => Q a s ∧ D.input s = l)
    fun e s => E e s ∧ D.reason e = none

/-- Started in `P`, the program does to the input what the decoder does, and ends in `Q` with its own
result and the decoded value. When it stops, it is in `E`, and the decoder stops with the error that the
error of the program stands for, if it stands for one. -/
def Implements (D : Decoding ε σ β δ) (P : σ → Prop) (x : EStateM ε σ α) (d : Decoder β δ γ)
    (Q : α → γ → σ → Prop) (E : ε → σ → Prop) : Prop :=
  ∀ s, P s → Ends (fun a s' => ∃ c, d.run (D.input s) = .ok (c, D.input s') ∧ Q a c s')
    (fun e s' => E e s' ∧ ∀ r, D.reason e = some r → d.run (D.input s) = .error r) (x s)

variable {D : Decoding ε σ β δ} {P : σ → Prop} {x : EStateM ε σ α} {E : ε → σ → Prop}

namespace Silent

variable {Q : α → σ → Prop}

/-- Silent parts one after the other are silent. -/
theorem bind {R : γ → σ → Prop} {f : α → EStateM ε σ γ} (hx : Silent D P x Q E)
    (hf : ∀ a, Silent D (Q a) (f a) R E) : Silent D P (x >>= f) R E :=
  fun l => (hx l).bind fun a => hf a l

/-- Returning a value is silent. -/
theorem pure {Q : α → σ → Prop} {a : α} (h : ∀ s, P s → Q a s) :
    Silent D P (Pure.pure a : EStateM ε σ α) Q E :=
  fun _ s hs => ⟨h s hs.1, hs.2⟩

/-- A fact of the precondition that is not about the state. -/
theorem fact {p : Prop} (h : p → Silent D P x Q E) : Silent D (fun s => p ∧ P s) x Q E :=
  fun l s hs => h hs.1.1 l s ⟨hs.1.2, hs.2⟩

/-- A change of the state that keeps the input. -/
theorem update {f : σ → σ} {Q : PUnit → σ → Prop} (hinput : ∀ s, D.input (f s) = D.input s)
    (h : ∀ s, P s → Q ⟨⟩ (f s)) : Silent D P (modify f : EStateM ε σ PUnit) Q E :=
  fun _ s hs => ⟨h s hs.1, (hinput s).trans hs.2⟩

end Silent

namespace Implements

variable {d : Decoder β δ γ} {Q : α → γ → σ → Prop}

/-- **Programs one after the other** implement decoders one after the other. -/
theorem bind {α' γ' : Type u} {f : α → EStateM ε σ α'} {g : γ → Decoder β δ γ'}
    {R : α' → γ' → σ → Prop} (hx : Implements D P x d Q E)
    (hf : ∀ a c, Implements D (Q a c) (f a) (g c) R E) :
    Implements D P (x >>= f) (d >>= g) R E := by
  intro s hs
  have h := hx s hs
  rw [StateT.run_bind]
  cases hrun : x s with
  | ok a s' =>
    rw [hrun] at h
    obtain ⟨c, hd, hq⟩ := h
    rw [bind_of_ok hrun, hd]
    exact hf a c s' hq
  | error e s' =>
    rw [hrun] at h
    rw [bind_of_error hrun]
    refine ⟨h.1, fun r hr => ?_⟩
    rw [h.2 r hr]
    rfl

/-- A silent program implements a decoder that reads nothing. -/
theorem of_silent {Q : α → σ → Prop} (hx : Silent D P x Q E) (c : γ) :
    Implements D P x (Pure.pure c : Decoder β δ γ) (fun a b s => Q a s ∧ b = c) E := by
  intro s hs
  have h := hx (D.input s) s ⟨hs, rfl⟩
  cases hrun : x s with
  | ok a s' =>
    rw [hrun] at h
    exact ⟨c, by rw [h.2]; rfl, h.1, rfl⟩
  | error e s' =>
    rw [hrun] at h
    refine ⟨h.1, fun r hr => ?_⟩
    cases h.2.symm.trans hr

/-- A silent program before one that decodes. -/
theorem silent_bind {α' : Type u} {Q : α → σ → Prop} {f : α → EStateM ε σ α'} {R : α' → γ → σ → Prop}
    (hx : Silent D P x Q E) (hf : ∀ a, Implements D (Q a) (f a) d R E) :
    Implements D P (x >>= f) d R E := by
  have h := (of_silent hx PUnit.unit).bind (g := fun _ => d) fun a _ s hs => hf a s hs.1
  rwa [pure_bind] at h

/-- A silent program after one that decodes. -/
theorem then_silent {α' : Type u} {f : α → EStateM ε σ α'} {R : α' → γ → σ → Prop}
    (hx : Implements D P x d Q E) (hf : ∀ a c, Silent D (Q a c) (f a) (fun b s => R b c s) E) :
    Implements D P (x >>= f) d R E := by
  have hpure (a : α) (c : γ) : Implements D (Q a c) (f a) (Pure.pure c : Decoder β δ γ) R E := by
    intro s hs
    have hsilent := of_silent (hf a c) c s hs
    cases hrun : f a s with
    | ok b s' =>
      rw [hrun] at hsilent
      obtain ⟨_, hd, hr, rfl⟩ := hsilent
      exact ⟨_, hd, hr⟩
    | error e s' =>
      rw [hrun] at hsilent
      exact hsilent
  have h := hx.bind hpure
  rwa [bind_pure] at h

/-- A stronger precondition and weaker postconditions. -/
theorem weaken {P' : σ → Prop} {Q' : α → γ → σ → Prop} {E' : ε → σ → Prop}
    (hx : Implements D P x d Q E) (hP : ∀ s, P' s → P s) (hQ : ∀ a c s, Q a c s → Q' a c s)
    (hE : ∀ e s, E e s → E' e s) : Implements D P' x d Q' E' := by
  intro s hs
  refine (hx s (hP s hs)).weaken (fun a s' h => ?_) fun e s' h => ⟨hE e s' h.1, h.2⟩
  obtain ⟨c, hd, hq⟩ := h
  exact ⟨c, hd, hQ a c s' hq⟩

/-- Computing with the decoded value. -/
theorem map {γ' : Type u} {g : γ → γ'} {R : α → γ' → σ → Prop} (hx : Implements D P x d Q E)
    (hR : ∀ a c s, Q a c s → R a (g c) s) : Implements D P x (g <$> d) R E := by
  intro s hs
  have h := hx s hs
  rw [map_eq_pure_bind, StateT.run_bind]
  cases hrun : x s with
  | ok a s' =>
    rw [hrun] at h
    obtain ⟨c, hd, hq⟩ := h
    rw [hd]
    exact ⟨g c, rfl, hR a c s' hq⟩
  | error e s' =>
    rw [hrun] at h
    refine ⟨h.1, fun r hr => ?_⟩
    rw [h.2 r hr]
    rfl

/-- Both stop with the same error. -/
theorem throw {e : ε} {r : δ} (hE : ∀ s, P s → E e s) (hr : D.reason e = some r) :
    Implements D P (MonadExcept.throw e : EStateM ε σ α) (MonadExcept.throw r : Decoder β δ γ) Q E := by
  intro s hs
  refine ⟨hE s hs, fun r' hr' => ?_⟩
  cases hr.symm.trans hr'
  rfl

/-- The program stops for a reason of its own. -/
theorem fail {e : ε} (hE : ∀ s, P s → E e s) (hr : D.reason e = none) :
    Implements D P (MonadExcept.throw e : EStateM ε σ α) d Q E := by
  intro s hs
  refine ⟨hE s hs, fun r hr' => ?_⟩
  cases hr.symm.trans hr'

/-- Both go on from the state they read. -/
theorem get_bind {f : σ → EStateM ε σ α} {g : List β → Decoder β δ γ}
    (h : ∀ s, P s → Implements D (· = s) (f s) (g (D.input s)) Q E) :
    Implements D P (MonadState.get >>= f) (MonadState.get >>= g) Q E :=
  fun s hs => h s hs s rfl

/-- Both take the same branch. -/
theorem ite {c : Prop} [Decidable c] {y : EStateM ε σ α} {d' : Decoder β δ γ}
    (hx : c → Implements D P x d Q E) (hy : ¬ c → Implements D P y d' Q E) :
    Implements D P (if c then x else y) (if c then d else d') Q E := by
  by_cases h : c
  · rw [if_pos h, if_pos h]
    exact hx h
  · rw [if_neg h, if_neg h]
    exact hy h

end Implements

end Decoding
