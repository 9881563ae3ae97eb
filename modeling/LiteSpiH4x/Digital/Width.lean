import Mathlib.Algebra.NeZero
import Mathlib.Algebra.Order.Ring.Nat
import Mathlib.Data.Nat.Log

/-! # Signal widths and array selection

The two conventions of the hardware generator that the designs lean on: how many bits a signal
declared by its largest value gets, and which element an out-of-range array index selects.

* **`bitsFor n`** — the width of a signal that must hold `0, …, n`.
* **`clampIndex n i`** — the element of an `n`-element array that index `i` reads or writes. -/

namespace Digital

/-- The number of bits of a signal that must hold every value `0, …, n`; at least one. -/
def bitsFor (n : ℕ) : ℕ := if n = 0 then 1 else Nat.log 2 n + 1

/-- A signal has at least one bit. -/
theorem one_le_bitsFor (n : ℕ) : 1 ≤ bitsFor n := by
  unfold bitsFor
  split <;> omega

/-- The declared largest value fits. -/
theorem lt_two_pow_bitsFor (n : ℕ) : n < 2 ^ bitsFor n := by
  unfold bitsFor
  split
  · omega
  · exact Nat.lt_pow_succ_log_self one_lt_two n

/-- A signal that counts `2 ^ k` values has `k` bits, for `k ≥ 1`. -/
theorem bitsFor_two_pow_sub_one {k : ℕ} (hk : 1 ≤ k) : bitsFor (2 ^ k - 1) = k := by
  have hpow : 2 ^ k = 2 ^ (k - 1) * 2 := by
    rw [← pow_succ, Nat.sub_add_cancel hk]
  have hpos : 0 < 2 ^ (k - 1) := Nat.two_pow_pos _
  rw [bitsFor, if_neg (by omega), Nat.log_eq_of_pow_le_of_lt_pow (m := k - 1) (by omega)
    (by rw [pow_succ]; omega), Nat.sub_add_cancel hk]

/-- The element of an `n`-element array that index `i` selects: an index past the end selects
the last element, for reads and for writes. -/
def clampIndex (n : ℕ) [NeZero n] (i : ℕ) : Fin n :=
  ⟨min i (n - 1), lt_of_le_of_lt (min_le_right _ _) (Nat.sub_lt (NeZero.pos n) one_pos)⟩

/-- The position a clamped index selects. -/
@[simp] theorem val_clampIndex (n : ℕ) [NeZero n] (i : ℕ) :
    (clampIndex n i : ℕ) = min i (n - 1) := rfl

end Digital
