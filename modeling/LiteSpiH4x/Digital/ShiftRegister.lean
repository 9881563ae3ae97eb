import Mathlib.Data.List.Induction
import Mathlib.Data.Nat.ModEq
import Mathlib.Logic.Function.Iterate
import Mathlib.Tactic.Ring

/-! # Serial bit streams and shift registers

A serial line carries a value most significant bit first; a shift register of width `w` that
takes one bit per clock edge holds the value of the bits it has seen, truncated to `w` bits.

* **`msbVal`** — the number a list of bits spells, most significant bit first.
* **`ofBits w bits`** — the content of a `w`-bit shift register that started at zero and has
  shifted in `bits`; `ofBits_concat` is its clock edge.
* **`rotl`** — the one-place rotation, and `msb_rotl_iterate`, the bit it shows after `i` edges.
* **`shiftConcat_false_shiftLeft`** — one more place of a word being shifted out. -/

namespace Digital

/-! ## Values of bit lists -/

/-- The number spelled by a list of bits, most significant bit first. -/
def msbVal (bits : List Bool) : ℕ := bits.foldl (fun v b => 2 * v + b.toNat) 0

@[simp] theorem msbVal_nil : msbVal [] = 0 := rfl

/-- One more bit doubles the value and adds the bit. -/
theorem msbVal_concat (bits : List Bool) (b : Bool) :
    msbVal (bits ++ [b]) = 2 * msbVal bits + b.toNat := by
  simp only [msbVal, List.foldl_append, List.foldl_cons, List.foldl_nil]

/-- The value of a concatenation: the first part weighs as many places as the second is long. -/
theorem msbVal_append (xs ys : List Bool) :
    msbVal (xs ++ ys) = msbVal xs * 2 ^ ys.length + msbVal ys := by
  induction ys using List.reverseRecOn with
  | nil => simp
  | append_singleton ys b ih =>
    rw [← List.append_assoc, msbVal_concat, msbVal_concat, ih, List.length_append,
      List.length_singleton, pow_succ]
    ring

/-- A list of `n` bits spells a number below `2 ^ n`. -/
theorem msbVal_lt (bits : List Bool) : msbVal bits < 2 ^ bits.length := by
  induction bits using List.reverseRecOn with
  | nil => simp
  | append_singleton bits b ih =>
    have hb : b.toNat ≤ 1 := Bool.toNat_le b
    rw [msbVal_concat, List.length_append, List.length_singleton, pow_succ]
    omega

/-! ## Shift registers -/

/-- The content of a `w`-bit shift register that started at zero and has taken in `bits`, the
first bit ending up highest. -/
def ofBits (w : ℕ) (bits : List Bool) : BitVec w := BitVec.ofNat w (msbVal bits)

/-- **The clock edge of a shift register**: taking in `b` moves every bit up one place. -/
theorem ofBits_concat (w : ℕ) (bits : List Bool) (b : Bool) :
    ofBits w (bits ++ [b]) = (ofBits w bits).shiftConcat b := by
  apply BitVec.eq_of_toNat_eq
  rw [BitVec.toNat_shiftConcat, ofBits, ofBits, BitVec.toNat_ofNat, BitVec.toNat_ofNat,
    msbVal_concat, Nat.shiftLeft_eq, pow_one, mul_comm]
  conv_rhs => rw [Nat.add_mod, Nat.mod_mul_mod, ← Nat.add_mod]

/-- The empty register. -/
@[simp] theorem ofBits_nil (w : ℕ) : ofBits w [] = 0#w := rfl

/-- A narrower register that takes the same bits holds the low bits of the wider one. -/
theorem setWidth_ofBits {w v : ℕ} (h : v ≤ w) (bits : List Bool) :
    (ofBits w bits).setWidth v = ofBits v bits := by
  rw [ofBits, ofBits, BitVec.setWidth_ofNat_of_le h]

/-- The highest `k` bits of a word spell the word without its other bits. -/
theorem msbVal_map_getMsbD {w : ℕ} (x : BitVec w) {k : ℕ} (hk : k ≤ w) :
    msbVal ((List.range k).map x.getMsbD) = x.toNat / 2 ^ (w - k) := by
  induction k with
  | zero => simp [Nat.div_eq_of_lt x.isLt]
  | succ k ih =>
    have hbit : (x.getMsbD k).toNat = x.toNat / 2 ^ (w - (k + 1)) % 2 := by
      rw [BitVec.getMsbD_eq_getLsbD, BitVec.getLsbD, decide_eq_true (by omega), Bool.true_and,
        Nat.toNat_testBit, show w - 1 - k = w - (k + 1) by omega]
    have hhalf : x.toNat / 2 ^ (w - k) = x.toNat / 2 ^ (w - (k + 1)) / 2 := by
      rw [Nat.div_div_eq_div_mul, ← pow_succ, show w - (k + 1) + 1 = w - k by omega]
    rw [List.range_succ, List.map_append, List.map_cons, List.map_nil, msbVal_concat,
      ih (by omega), hbit, hhalf]
    omega

/-- A register that takes in all bits of a word holds the word. -/
theorem ofBits_map_getMsbD {w : ℕ} (x : BitVec w) :
    ofBits w ((List.range w).map x.getMsbD) = x := by
  rw [ofBits, msbVal_map_getMsbD x le_rfl, Nat.sub_self, pow_zero, Nat.div_one,
    BitVec.ofNat_toNat, BitVec.setWidth_eq]

/-! ## Rotation -/

/-- Rotate left by one place: the highest bit comes back in at the bottom. -/
def rotl {w : ℕ} (x : BitVec w) : BitVec w := x.shiftConcat x.msb

/-- After one rotation, the bit `j` places from the top is the one that stood `j + 1` places
from the top. -/
theorem getMsbD_rotl {w j : ℕ} (x : BitVec w) (hj : j < w) :
    (rotl x).getMsbD j = x.getMsbD ((j + 1) % w) := by
  rw [rotl, BitVec.getMsbD_eq_getLsbD, BitVec.getLsbD_shiftConcat]
  -- the lowest place takes the old highest bit, every other one its lower neighbour
  by_cases hlast : w - 1 - j = 0
  · have hw : j + 1 = w := by omega
    rw [if_pos hlast, hw, Nat.mod_self, BitVec.msb]
    simp only [hj, show 0 < w by omega, hlast, decide_true, Bool.true_and]
  · have hlt : j + 1 < w := by omega
    rw [if_neg hlast, Nat.mod_eq_of_lt hlt, BitVec.getMsbD_eq_getLsbD]
    simp only [hj, hlt, show w - 1 - j < w by omega, decide_true, Bool.true_and,
      show w - 1 - j - 1 = w - 1 - (j + 1) by omega]

/-- **The rotating register's output.** After `i` rotations of a `w`-bit word, the highest bit
is the one that started `i mod w` places from the top. -/
theorem msb_rotl_iterate {w : ℕ} (x : BitVec w) (i : ℕ) :
    (rotl^[i] x).msb = x.getMsbD (i % w) := by
  rcases Nat.eq_zero_or_pos w with rfl | hw
  · simp [BitVec.msb, BitVec.getMsbD]
  -- generalised to every place, for the induction on the number of rotations
  suffices h : ∀ i j, j < w → (rotl^[i] x).getMsbD j = x.getMsbD ((j + i) % w) by
    have h0 := h i 0 hw
    rwa [zero_add] at h0
  intro i
  induction i with
  | zero => intro j hj; rw [Function.iterate_zero, id, add_zero, Nat.mod_eq_of_lt hj]
  | succ i ih =>
    intro j hj
    rw [Function.iterate_succ_apply', getMsbD_rotl _ hj, ih _ (Nat.mod_lt _ hw), Nat.mod_add_mod,
      Nat.add_right_comm, Nat.add_assoc]

/-! ## Shifting out -/

/-- Shifting out one more bit of a word, zeros following from below. -/
theorem shiftConcat_false_shiftLeft {w : ℕ} (x : BitVec w) (j : ℕ) :
    (x <<< j).shiftConcat false = x <<< (j + 1) := by
  apply BitVec.eq_of_toNat_eq
  rw [BitVec.toNat_shiftConcat, BitVec.toNat_shiftLeft, BitVec.toNat_shiftLeft, Bool.toNat_false,
    add_zero, Nat.shiftLeft_eq, Nat.shiftLeft_eq, Nat.shiftLeft_eq, pow_one, Nat.mod_mul_mod,
    pow_succ, mul_assoc]

end Digital
