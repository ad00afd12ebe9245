import Mathlib.Data.Nat.Basic
import Mathlib.Tactic.Ring

/-! # Base-128 varints

A varint writes a number in groups of seven bits, lowest group first, one group a byte; every byte but
the last has its high bit set. This file is about the format itself: `IsVarint` says which byte strings
are varints, `value` reads them and `encode` writes the shortest one.

* `IsVarint.append_inj` — varints are prefix-free: where one ends is determined by its bytes;
* `value_encode` — encoding and reading give the number back;
* `length_encode_le_iff` — how long an encoding is. -/

namespace Varint

/-- The number that groups of seven bits stand for, the lowest first. -/
def value : List UInt8 → ℕ
  | [] => 0
  | b :: bs => b.toNat % 128 + 128 * value bs

/-- One varint: the high bit is set in every byte but the last. -/
inductive IsVarint : List UInt8 → Prop
  | last {b : UInt8} (h : b.toNat < 128) : IsVarint [b]
  | more {b : UInt8} {bs : List UInt8} (h : 128 ≤ b.toNat) (rest : IsVarint bs) : IsVarint (b :: bs)

/-- The varint of a number, without leading zero groups. -/
def encode (n : ℕ) : List UInt8 :=
  if n < 128 then [UInt8.ofNat n] else UInt8.ofNat (n % 128 + 128) :: encode (n / 128)
termination_by n
decreasing_by omega

/-- A number of one group is one byte. -/
theorem encode_of_lt {n : ℕ} (h : n < 128) : encode n = [UInt8.ofNat n] := by
  rw [encode, if_pos h]

/-- A larger number starts with its lowest group, which goes on. -/
theorem encode_of_le {n : ℕ} (h : 128 ≤ n) :
    encode n = UInt8.ofNat (n % 128 + 128) :: encode (n / 128) := by
  rw [encode, if_neg (by omega)]

/-- No group stands for zero. -/
@[simp] theorem value_nil : value [] = 0 := rfl

/-- The first byte is the lowest group. -/
theorem value_cons (b : UInt8) (bs : List UInt8) : value (b :: bs) = b.toNat % 128 + 128 * value bs :=
  rfl

/-- A number below 256 fits into a byte. -/
theorem toNat_ofNat {n : ℕ} (h : n < 256) : (UInt8.ofNat n).toNat = n :=
  UInt8.toNat_ofNat_of_lt (by simpa using h)

/-! ## Where a varint ends -/

/-- A varint has at least one byte. -/
theorem IsVarint.length_pos {bs : List UInt8} (h : IsVarint bs) : 0 < bs.length := by
  cases h with
  | last => simp
  | more => simp

/-- **Varints are prefix-free.** -/
theorem IsVarint.append_inj {as bs r s : List UInt8} (ha : IsVarint as) (hb : IsVarint bs)
    (h : as ++ r = bs ++ s) : as = bs ∧ r = s := by
  induction ha generalizing bs with
  | last hlast =>
    cases hb with
    | last =>
      obtain ⟨rfl, rfl⟩ := List.cons.inj h
      exact ⟨rfl, rfl⟩
    | more hmore =>
      -- the same byte cannot both end and continue a number
      have hbyte := (List.cons.inj h).1
      rw [hbyte] at hlast
      omega
  | more hmore _ ih =>
    cases hb with
    | last hlast =>
      have hbyte := (List.cons.inj h).1
      rw [hbyte] at hmore
      omega
    | more _ hrest =>
      obtain ⟨rfl, htail⟩ := List.cons.inj h
      obtain ⟨rfl, rfl⟩ := ih hrest htail
      exact ⟨rfl, rfl⟩

/-! ## Reading what was written -/

/-- What `encode` writes is a varint. -/
theorem isVarint_encode (n : ℕ) : IsVarint (encode n) := by
  induction n using Nat.strongRecOn with
  | ind n ih =>
    by_cases h : n < 128
    · rw [encode_of_lt h]
      exact .last (by rwa [toNat_ofNat (by omega)])
    · rw [encode_of_le (by omega)]
      refine .more ?_ (ih (n / 128) (by omega))
      rw [toNat_ofNat (by omega)]
      omega

/-- **Reading an encoded number gives it back.** -/
@[simp] theorem value_encode (n : ℕ) : value (encode n) = n := by
  induction n using Nat.strongRecOn with
  | ind n ih =>
    by_cases h : n < 128
    · rw [encode_of_lt h, value_cons, value_nil, toNat_ofNat (by omega)]
      omega
    · rw [encode_of_le (by omega), value_cons, ih (n / 128) (by omega), toNat_ofNat (by omega)]
      omega

/-! ## Lengths -/

/-- `k` groups stand for a number below `128 ^ k`. -/
theorem value_lt (bs : List UInt8) : value bs < 128 ^ bs.length := by
  induction bs with
  | nil => simp
  | cons b bs ih =>
    have hgroup : b.toNat % 128 < 128 := Nat.mod_lt _ (by decide)
    have hpow : 128 ^ (b :: bs).length = 128 * 128 ^ bs.length := by
      rw [List.length_cons, pow_succ, mul_comm]
    rw [value_cons, hpow]
    omega

/-- **How long an encoding is**: at most `k` bytes exactly for the numbers below `128 ^ k`. -/
theorem length_encode_le_iff {n k : ℕ} (hk : 0 < k) : (encode n).length ≤ k ↔ n < 128 ^ k := by
  constructor
  · intro h
    calc n = value (encode n) := (value_encode n).symm
      _ < 128 ^ (encode n).length := value_lt _
      _ ≤ 128 ^ k := Nat.pow_le_pow_right (by decide) h
  · intro h
    induction k, hk using Nat.le_induction generalizing n with
    | base =>
      rw [encode_of_lt (by omega)]
      simp
    | succ k hk ih =>
      by_cases hn : n < 128
      · rw [encode_of_lt hn]
        simp
      · have hdiv : n / 128 < 128 ^ k := by
          rw [Nat.div_lt_iff_lt_mul (by decide), ← pow_succ]
          exact h
        rw [encode_of_le (by omega), List.length_cons]
        have hlength := ih hdiv
        omega

end Varint
