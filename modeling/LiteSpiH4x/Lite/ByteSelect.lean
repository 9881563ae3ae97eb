import LiteSpiH4x.Lite.FlashEmuLite
import Mathlib.Data.List.OfFn

/-! # Byte selection over the whole window

`byte_sel` should be one of the `2 ^ prefetch_bits` bytes of the prefetch registers. The register
is picked by `pfr_idx`, a field of the address that is as wide as the number `prefetch_bits`
needs, where it ought to be as wide as the number of registers needs. A field that is too wide
clamps to the last register, one that is too narrow comes round to the first again.

* **`windowBytes`** — the bytes of the registers, one after the other.
* **`InReach`** — the addresses whose register the field picks all the same.
* **`byteSel_iff`** — `byte_sel` is the window's byte for these addresses, and these are all
  addresses exactly if there is one register or the field has the right width. -/

namespace LiteSpiH4x

open Digital

namespace FlashEmuLite

variable {cfg : LiteConfig}

/-! ## The bytes of the window -/

/-- The bytes of a port word, the lowest first. -/
def wordBytes (cfg : LiteConfig) (word : cfg.Word) : List (BitVec 8) :=
  List.ofFn fun j : Fin (2 ^ cfg.k) => word.extractLsb' (8 * j) 8

/-- The bytes of the prefetch registers, from the first register on. -/
def windowBytes (pfRegs : Fin cfg.numPrefetchReads → cfg.Word) : List (BitVec 8) :=
  (List.ofFn pfRegs).flatMap (wordBytes cfg)

/-- The registers hold the bytes of a window. -/
theorem numPrefetchReads_mul (cfg : LiteConfig) :
    cfg.numPrefetchReads * 2 ^ cfg.k = 2 ^ cfg.prefetchBits := by
  rw [DramConfig.numPrefetchReads_eq, ← pow_add, Nat.sub_add_cancel cfg.le]

/-- The bytes of the window by their number. -/
theorem windowBytes_eq (pfRegs : Fin cfg.numPrefetchReads → cfg.Word) :
    windowBytes pfRegs =
      List.ofFn fun b : Fin (cfg.numPrefetchReads * 2 ^ cfg.k) =>
        (pfRegs (clampIndex _ (b / 2 ^ cfg.k))).extractLsb' (8 * (b % 2 ^ cfg.k)) 8 := by
  rw [List.ofFn_mul, windowBytes, List.flatMap_def, List.map_ofFn]
  congr 2
  funext i
  refine congrArg List.ofFn (funext fun j => ?_)
  have hdiv : ((i : ℕ) * 2 ^ cfg.k + (j : ℕ)) / 2 ^ cfg.k = i := by
    rw [mul_comm, Nat.mul_add_div (Nat.two_pow_pos _), Nat.div_eq_of_lt j.isLt, add_zero]
  have hmod : ((i : ℕ) * 2 ^ cfg.k + (j : ℕ)) % 2 ^ cfg.k = j := by
    rw [mul_comm, Nat.mul_add_mod, Nat.mod_eq_of_lt j.isLt]
  have hreg : clampIndex cfg.numPrefetchReads i = i := by
    apply Fin.ext
    rw [val_clampIndex]
    exact Nat.min_eq_left (by omega)
  simp only [hdiv, hmod, hreg]

/-- The number of the register that the window has an address's byte in. -/
def windowReg (cfg : LiteConfig) (addr : BitVec 24) : ℕ :=
  addr.toNat / 2 ^ cfg.k % cfg.numPrefetchReads

/-- **The window's byte** for an address. -/
theorem windowBytes_getElem? (pfRegs : Fin cfg.numPrefetchReads → cfg.Word) (addr : BitVec 24) :
    (windowBytes pfRegs)[addr.toNat % 2 ^ cfg.prefetchBits]? =
      some ((pfRegs (clampIndex _ (windowReg cfg addr))).extractLsb'
        (8 * (addr.toNat % 2 ^ cfg.k)) 8) := by
  have hlt : addr.toNat % 2 ^ cfg.prefetchBits < cfg.numPrefetchReads * 2 ^ cfg.k := by
    rw [numPrefetchReads_mul]
    exact Nat.mod_lt _ (Nat.two_pow_pos _)
  have hdiv : addr.toNat % 2 ^ cfg.prefetchBits / 2 ^ cfg.k = windowReg cfg addr := by
    rw [← numPrefetchReads_mul, mul_comm, Nat.mod_mul_right_div_self, windowReg]
  have hmod : addr.toNat % 2 ^ cfg.prefetchBits % 2 ^ cfg.k = addr.toNat % 2 ^ cfg.k :=
    Nat.mod_mod_of_dvd _ (Nat.pow_dvd_pow 2 cfg.le)
  rw [windowBytes_eq, List.getElem?_ofFn, dif_pos hlt]
  simp only [hdiv, hmod]

/-! ## The register picked -/

/-- The number of the register that `pfr_idx` picks. -/
def pickedReg (cfg : LiteConfig) (addr : BitVec 24) : ℕ :=
  min (addr.toNat / 2 ^ cfg.k % 2 ^ pfrIdxWidth cfg) (cfg.numPrefetchReads - 1)

/-- The selected byte, in the register picked. -/
theorem byteSel_eq (hk : 1 ≤ cfg.k) (pfRegs : Fin cfg.numPrefetchReads → cfg.Word)
    (addr : BitVec 24) :
    byteSel pfRegs addr =
      (pfRegs (clampIndex _ (pickedReg cfg addr))).extractLsb'
        (8 * (addr.toNat % 2 ^ cfg.k)) 8 := by
  have hidx : (pfrIdx cfg addr).toNat = addr.toNat / 2 ^ cfg.k % 2 ^ pfrIdxWidth cfg := by
    rw [pfrIdx, BitVec.toNat_setWidth, BitVec.toNat_ushiftRight, Nat.shiftRight_eq_div_pow,
      byteIdxWidth, nbytesPerMt_eq, bitsFor_two_pow_sub_one hk]
  have hreg : clampIndex cfg.numPrefetchReads (pfrIdx cfg addr).toNat =
      clampIndex cfg.numPrefetchReads (pickedReg cfg addr) := by
    apply Fin.ext
    rw [val_clampIndex, val_clampIndex, pickedReg, hidx]
    omega
  rw [byteSel, byteOf_eq, pfrSel, hreg]

/-- **Which registers are confused.** The selected byte is the window's, whatever the registers
hold, exactly if the register picked is the window's. -/
theorem forall_byteSel_iff (hk : 1 ≤ cfg.k) (addr : BitVec 24) :
    (∀ pfRegs : Fin cfg.numPrefetchReads → cfg.Word,
        (windowBytes pfRegs)[addr.toNat % 2 ^ cfg.prefetchBits]? = some (byteSel pfRegs addr)) ↔
      pickedReg cfg addr = windowReg cfg addr := by
  have hpos := cfg.numPrefetchReads_pos
  have hwin : windowReg cfg addr < cfg.numPrefetchReads := Nat.mod_lt _ hpos
  have hpick : pickedReg cfg addr < cfg.numPrefetchReads := by
    rw [pickedReg]
    omega
  constructor
  · -- registers that tell the register picked from every other one
    intro h
    by_contra hne
    have hdiff : clampIndex cfg.numPrefetchReads (windowReg cfg addr) ≠
        clampIndex cfg.numPrefetchReads (pickedReg cfg addr) := by
      intro heq
      have hval := congrArg Fin.val heq
      rw [val_clampIndex, val_clampIndex] at hval
      omega
    have hsel := h fun i =>
      if i = clampIndex _ (pickedReg cfg addr) then BitVec.allOnes _ else 0
    rw [windowBytes_getElem?, byteSel_eq hk, Option.some.injEq] at hsel
    simp only [hdiff, if_false, if_true] at hsel
    have hbit := congrArg (fun x => x.getLsbD 0) hsel
    have hbyte : 8 * (addr.toNat % 2 ^ cfg.k) < 8 * 2 ^ cfg.k :=
      Nat.mul_lt_mul_of_pos_left (Nat.mod_lt _ (Nat.two_pow_pos _)) (by decide)
    simp [DramConfig.dataWidth] at hbit
    omega
  · intro h pfRegs
    rw [windowBytes_getElem?, byteSel_eq hk, h]

/-! ## Addresses in reach -/

/-- The addresses whose register the field `pfr_idx` picks. The surplus bits of a field that is
wide enough are zero, or the register is the last one, where they lead; the index bits that a
narrow field lacks are zero. -/
def InReach (cfg : LiteConfig) (addr : BitVec 24) : Prop :=
  if cfg.prefetchBits - cfg.k ≤ pfrIdxWidth cfg then
    addr.toNat / 2 ^ cfg.k % 2 ^ pfrIdxWidth cfg < cfg.numPrefetchReads ∨
      windowReg cfg addr = cfg.numPrefetchReads - 1
  else windowReg cfg addr < 2 ^ pfrIdxWidth cfg

instance (cfg : LiteConfig) (addr : BitVec 24) : Decidable (InReach cfg addr) := by
  unfold InReach
  infer_instance

/-- The register picked is the window's exactly for the addresses in reach. -/
theorem pickedReg_eq_iff (cfg : LiteConfig) (addr : BitVec 24) :
    pickedReg cfg addr = windowReg cfg addr ↔ InReach cfg addr := by
  have hpos := cfg.numPrefetchReads_pos
  have hwin : windowReg cfg addr < cfg.numPrefetchReads := Nat.mod_lt _ hpos
  have hn := cfg.numPrefetchReads_eq
  unfold InReach
  split
  case isTrue hwide =>
    -- the field read modulo the number of registers is the register
    have hdvd : cfg.numPrefetchReads ∣ 2 ^ pfrIdxWidth cfg := by
      rw [hn]
      exact Nat.pow_dvd_pow 2 hwide
    have hmod := Nat.mod_mod_of_dvd (addr.toNat / 2 ^ cfg.k) hdvd
    rw [← windowReg] at hmod
    rw [pickedReg]
    rcases Nat.lt_or_ge (addr.toNat / 2 ^ cfg.k % 2 ^ pfrIdxWidth cfg) cfg.numPrefetchReads
      with hlt | hge
    · rw [Nat.mod_eq_of_lt hlt] at hmod
      omega
    · omega
  case isFalse hnarrow =>
    -- the register read modulo the size of the field is the field
    have hdvd : 2 ^ pfrIdxWidth cfg ∣ cfg.numPrefetchReads := by
      rw [hn]
      exact Nat.pow_dvd_pow 2 (by omega)
    have hmod := Nat.mod_mod_of_dvd (addr.toNat / 2 ^ cfg.k) hdvd
    rw [← windowReg] at hmod
    have hfield : windowReg cfg addr % 2 ^ pfrIdxWidth cfg < 2 ^ pfrIdxWidth cfg :=
      Nat.mod_lt _ (Nat.two_pow_pos _)
    have hle : 2 ^ pfrIdxWidth cfg ≤ cfg.numPrefetchReads := Nat.le_of_dvd hpos hdvd
    rw [pickedReg, ← hmod, Nat.min_eq_left (by omega)]
    exact ⟨fun h => h ▸ hfield, fun h => Nat.mod_eq_of_lt h⟩

/-- The word number of an address that is a power of two. -/
theorem toNat_twoPow_div {e : ℕ} (he : e + cfg.k < 24) :
    (BitVec.ofNat 24 (2 ^ (e + cfg.k))).toNat / 2 ^ cfg.k = 2 ^ e := by
  rw [BitVec.toNat_ofNat, Nat.mod_eq_of_lt (Nat.pow_lt_pow_right one_lt_two he), pow_add,
    Nat.mul_div_cancel _ (Nat.two_pow_pos _)]

/-- **When all addresses are in reach**: there is one register, or the field is as wide as the
number of registers needs. -/
theorem forall_inReach_iff (cfg : LiteConfig) :
    (∀ addr, InReach cfg addr) ↔
      cfg.prefetchBits = cfg.k ∨ pfrIdxWidth cfg = cfg.prefetchBits - cfg.k := by
  have hle := cfg.le
  have hlt := cfg.lt
  have hn := cfg.numPrefetchReads_eq
  constructor
  · intro h
    by_contra hnot
    obtain ⟨hmany, hwidth⟩ := not_or.mp hnot
    rcases Nat.lt_or_gt_of_ne hwidth with hnarrow | hwide
    · -- the first word past what a narrow field tells apart
      have hreach := h (BitVec.ofNat 24 (2 ^ (pfrIdxWidth cfg + cfg.k)))
      have hsmall : 2 ^ pfrIdxWidth cfg < cfg.numPrefetchReads := by
        rw [hn]
        exact Nat.pow_lt_pow_right one_lt_two hnarrow
      rw [InReach, if_neg (by omega), windowReg, toNat_twoPow_div (by omega),
        Nat.mod_eq_of_lt hsmall] at hreach
      exact absurd hreach (lt_irrefl _)
    · -- the first word past the window
      have hreach := h (BitVec.ofNat 24 (2 ^ (cfg.prefetchBits - cfg.k + cfg.k)))
      have hfield : 2 ^ (cfg.prefetchBits - cfg.k) < 2 ^ pfrIdxWidth cfg :=
        Nat.pow_lt_pow_right one_lt_two hwide
      have htwo : 1 < cfg.numPrefetchReads := by
        rw [hn]
        exact Nat.one_lt_two_pow (by omega)
      rw [InReach, if_pos hwide.le, windowReg, toNat_twoPow_div (by omega),
        Nat.mod_eq_of_lt hfield, ← hn, Nat.mod_self] at hreach
      omega
  · intro h addr
    rw [← pickedReg_eq_iff, pickedReg, windowReg]
    rcases h with hone | hwidth
    · rw [hn, hone, Nat.sub_self, pow_zero, Nat.sub_self, Nat.min_zero, Nat.mod_one]
    · have hmod := Nat.mod_lt (addr.toNat / 2 ^ cfg.k) cfg.numPrefetchReads_pos
      rw [hwidth, ← hn]
      exact Nat.min_eq_left (by omega)

/-- **Which bytes are selected.** For ports of at least two bytes: whatever the registers hold,
`byte_sel` is byte number `addr mod 2 ^ prefetch_bits` of the window exactly for the addresses in
reach, and all addresses are in reach exactly if there is one register or the width of `pfr_idx`
is the number of index bits. -/
theorem byteSel_iff (cfg : LiteConfig) (hk : 1 ≤ cfg.k) :
    (∀ addr : BitVec 24,
      (∀ pfRegs : Fin cfg.numPrefetchReads → cfg.Word,
          (windowBytes pfRegs)[addr.toNat % 2 ^ cfg.prefetchBits]? = some (byteSel pfRegs addr)) ↔
        InReach cfg addr) ∧
      ((∀ addr, InReach cfg addr) ↔
        cfg.prefetchBits = cfg.k ∨
          bitsFor (cfg.prefetchBits - 1) = cfg.prefetchBits - cfg.k) := by
  refine ⟨?_, forall_inReach_iff cfg⟩
  intro addr
  rw [forall_byteSel_iff hk, pickedReg_eq_iff]

/-- The default configuration, whose two index bits are read from a field of three. -/
theorem byteSel_iff_sixBits :
    (∀ addr : BitVec 24,
      (∀ pfRegs : Fin LiteConfig.sixBits.numPrefetchReads → LiteConfig.sixBits.Word,
          (windowBytes pfRegs)[addr.toNat % 64]? = some (byteSel pfRegs addr)) ↔
        InReach LiteConfig.sixBits addr) ∧
      ((∀ addr, InReach LiteConfig.sixBits addr) ↔ 6 = 4 ∨ bitsFor 5 = 2) :=
  byteSel_iff LiteConfig.sixBits (by decide)

/-- There, address `0x40` is byte zero of its window, and the last register is picked. -/
theorem byteSel_wraps :
    let pfRegs : Fin LiteConfig.sixBits.numPrefetchReads → LiteConfig.sixBits.Word :=
      fun i => if i.val = 3 then 1 else 0
    (windowBytes pfRegs)[(0x40#24).toNat % 2 ^ LiteConfig.sixBits.prefetchBits]? ≠
      some (byteSel pfRegs 0x40#24) := by
  decide +kernel

end FlashEmuLite

end LiteSpiH4x
