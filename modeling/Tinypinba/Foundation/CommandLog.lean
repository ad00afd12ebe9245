import Mathlib

/-! # A command stream replayed by lagging replicas

One issuer appends commands to a stream; every replica keeps a queue of the commands it has not
applied yet and catches up by applying its whole queue at a time of its own. `Delivered` is the
invariant of such a system — what a replica applied followed by what it still has pending is the
stream — with one rule per operation. `Converging` is what it is for: replaying the pending commands
over a replica's present value gives the value of the whole stream, however far behind the replica
is.

`Registry` is the value replicated here: a partial map in which the first registration of a key wins
and a deletion frees the key again. -/

namespace CommandLog

universe u v w

open Function (update)

/-! ## Delivery -/

section Delivery

variable {ι : Type u} {κ : Type v} {σ : Type w}

/-- Every replica `i` has applied a prefix of the stream `issued`, holds the rest in its queue, and its
value is the replay of the applied part from `start`. -/
structure Delivered (step : σ → κ → σ) (start : σ) (issued : List κ) (applied pending : ι → List κ)
    (value : ι → σ) : Prop where
  /-- Nothing is lost, duplicated or reordered. -/
  split : ∀ i, applied i ++ pending i = issued
  /-- The value of a replica is determined by what it applied. -/
  replay : ∀ i, value i = (applied i).foldl step start

namespace Delivered

variable {step : σ → κ → σ} {start : σ} {issued : List κ} {applied pending : ι → List κ}
  {value : ι → σ}

/-- Before anything is issued all queues are empty and all replicas are at the start. -/
theorem nil : Delivered (ι := ι) step start [] (fun _ => []) (fun _ => []) (fun _ => start) :=
  ⟨fun _ => rfl, fun _ => rfl⟩

/-- Issuing a command appends it to every queue and changes no replica. -/
theorem issue (h : Delivered step start issued applied pending value) (c : κ) :
    Delivered step start (issued ++ [c]) applied (fun i => pending i ++ [c]) value where
  split i := by rw [← List.append_assoc, h.split i]
  replay := h.replay

/-- A replica catches up: it applies its whole queue in order and empties it. -/
theorem drain [DecidableEq ι] (h : Delivered step start issued applied pending value) (i : ι) :
    Delivered step start issued (update applied i (applied i ++ pending i)) (update pending i [])
      (update value i ((pending i).foldl step (value i))) where
  split j := by
    by_cases hj : j = i
    · -- its queue has moved to the applied part as a whole
      subst hj
      rw [Function.update_self, Function.update_self, List.append_nil, h.split]
    · rw [Function.update_of_ne hj, Function.update_of_ne hj, h.split]
  replay j := by
    by_cases hj : j = i
    · subst hj
      rw [Function.update_self, Function.update_self, List.foldl_append, h.replay]
    · rw [Function.update_of_ne hj, Function.update_of_ne hj, h.replay]

end Delivered

/-- The replicas all head for the value `goal`: replaying its queue would bring each of them there. -/
def Converging (step : σ → κ → σ) (goal : σ) (pending : ι → List κ) (value : ι → σ) : Prop :=
  ∀ i, (pending i).foldl step (value i) = goal

namespace Converging

variable {step : σ → κ → σ} {goal : σ} {pending : ι → List κ} {value : ι → σ}

/-- Replicas without pending commands that all have the value `goal` head for it. -/
theorem nil (goal : σ) : Converging (ι := ι) step goal (fun _ => []) (fun _ => goal) := fun _ => rfl

/-- An issued command moves the goal. -/
theorem issue (h : Converging step goal pending value) (c : κ) :
    Converging step (step goal c) (fun i => pending i ++ [c]) value := fun i => by
  rw [List.foldl_append, h i, List.foldl_cons, List.foldl_nil]

/-- A replica that catches up reaches the goal; the goal stays. -/
theorem drain [DecidableEq ι] (h : Converging step goal pending value) (i : ι) :
    Converging step goal (update pending i [])
      (update value i ((pending i).foldl step (value i))) := fun j => by
  by_cases hj : j = i
  · subst hj
    rw [Function.update_self, Function.update_self, List.foldl_nil, h]
  · rw [Function.update_of_ne hj, Function.update_of_ne hj, h]

end Converging

end Delivery

/-! ## Registries -/

/-- A command on a registry: register a value under a key, or free the key. -/
inductive Command (κ : Type u) (β : Type v)
  | add (key : κ) (value : β)
  | del (key : κ)
  deriving DecidableEq, Repr

/-- The key a command is about. -/
def Command.key {κ : Type u} {β : Type v} : Command κ β → κ
  | .add k _ => k
  | .del k => k

/-- The key of an addition. -/
@[simp] theorem Command.key_add {κ : Type u} {β : Type v} (k : κ) (v : β) :
    (Command.add k v).key = k := rfl

/-- The key of a deletion. -/
@[simp] theorem Command.key_del {κ : Type u} {β : Type v} (k : κ) :
    (Command.del k : Command κ β).key = k := rfl

/-- A partial map from keys to what is registered under them. -/
abbrev Registry (κ : Type u) (β : Type v) : Type _ := κ → Option β

namespace Registry

variable {κ : Type u} {β : Type v} [DecidableEq κ]

/-- Nothing is registered. -/
def empty : Registry κ β := fun _ => none

omit [DecidableEq κ] in
@[simp] theorem empty_apply (k : κ) : (empty : Registry κ β) k = none := rfl

/-- The effect of one command: **the first registration of a key wins**; deleting frees the key. -/
def apply (m : Registry κ β) : Command κ β → Registry κ β
  | .add k v => if (m k).isSome then m else update m k (some v)
  | .del k => update m k none

/-- Replay a sequence of commands in order. -/
def replay (m : Registry κ β) (cs : List (Command κ β)) : Registry κ β := cs.foldl apply m

@[simp] theorem replay_nil (m : Registry κ β) : m.replay [] = m := rfl

@[simp] theorem replay_cons (m : Registry κ β) (c : Command κ β) (cs : List (Command κ β)) :
    m.replay (c :: cs) = (m.apply c).replay cs := rfl

/-- Commands replayed in two parts. -/
theorem replay_append (m : Registry κ β) (cs ds : List (Command κ β)) :
    m.replay (cs ++ ds) = (m.replay cs).replay ds :=
  List.foldl_append

/-- Registering under a key that is taken changes nothing. -/
theorem apply_add_of_isSome {m : Registry κ β} {k : κ} (h : (m k).isSome) (v : β) :
    m.apply (.add k v) = m := if_pos h

/-- Registering under a free key enters the value. -/
theorem apply_add_of_eq_none {m : Registry κ β} {k : κ} (h : m k = none) (v : β) :
    m.apply (.add k v) = update m k (some v) := by
  rw [apply, if_neg (by simp [h])]

/-- A command leaves every key but its own alone. -/
theorem apply_of_key_ne (m : Registry κ β) {c : Command κ β} {k : κ} (h : c.key ≠ k) :
    m.apply c k = m k := by
  cases c with
  | add j v =>
    rw [apply]
    split
    · rfl
    · exact Function.update_of_ne (Ne.symm h) _ _
  | del j => exact Function.update_of_ne (Ne.symm h) _ _

/-- After an add the key is registered. -/
theorem apply_add_self_isSome (m : Registry κ β) (k : κ) (v : β) :
    (m.apply (.add k v) k).isSome := by
  rw [apply]
  split
  · assumption
  · simp

/-- After a deletion the key is free. -/
@[simp] theorem apply_del_self (m : Registry κ β) (k : κ) : m.apply (.del k) k = none :=
  Function.update_self _ _ _

/-- What an add finds registered it leaves as it is. -/
theorem apply_add_eq_of_eq_some {m : Registry κ β} {j : κ} {u : β} (h : m j = some u) (k : κ)
    (v : β) : m.apply (.add k v) j = some u := by
  by_cases hjk : k = j
  · subst hjk
    rw [apply_add_of_isSome (by simp [h]), h]
  · rw [apply_of_key_ne m (by simpa using hjk), h]

/-- A key is registered after an add iff it was before or is the one added. -/
theorem isSome_apply_add (m : Registry κ β) (k j : κ) (v : β) :
    (m.apply (.add k v) j).isSome ↔ (m j).isSome ∨ j = k := by
  by_cases hjk : j = k
  · subst hjk
    simp [apply_add_self_isSome]
  · rw [apply_of_key_ne m (by simpa using Ne.symm hjk)]
    simp [hjk]

/-- Commands about other keys leave a key alone. -/
theorem replay_of_forall_key_ne (m : Registry κ β) {cs : List (Command κ β)} {k : κ}
    (h : ∀ c ∈ cs, c.key ≠ k) : m.replay cs k = m k := by
  induction cs generalizing m with
  | nil => rfl
  | cons c cs ih =>
    rw [replay_cons, ih _ fun d hd => h d (List.mem_cons_of_mem _ hd),
      apply_of_key_ne m (h c List.mem_cons_self)]

/-- Additions leave everything that is registered as it is. -/
theorem replay_add_eq_of_eq_some {m : Registry κ β} {cs : List (Command κ β)}
    (hadds : ∀ c ∈ cs, ∃ k v, c = .add k v) {j : κ} {u : β} (h : m j = some u) :
    m.replay cs j = some u := by
  induction cs generalizing m with
  | nil => exact h
  | cons c cs ih =>
    obtain ⟨k, v, rfl⟩ := hadds c List.mem_cons_self
    rw [replay_cons]
    exact ih (fun d hd => hadds d (List.mem_cons_of_mem _ hd)) (apply_add_eq_of_eq_some h k v)

/-- **The last command about a key decides**: when that is a deletion, the key ends up free. -/
theorem replay_del_last (m : Registry κ β) (cs ds : List (Command κ β)) {k : κ}
    (h : ∀ c ∈ ds, c.key ≠ k) : m.replay (cs ++ .del k :: ds) k = none := by
  rw [replay_append, replay_cons, replay_of_forall_key_ne _ h, apply_del_self]

end Registry

end CommandLog
