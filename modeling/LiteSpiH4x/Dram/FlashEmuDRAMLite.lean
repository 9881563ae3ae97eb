import LiteSpiH4x.Digital.Width
import LiteSpiH4x.ReadPort.Burst
import Mathlib.Algebra.Order.Group.Nat
import Mathlib.Logic.Function.Basic

/-! # FlashEmuDRAMLite

The prefetcher: at a valid window address it leaves `IDLE`, launches one read per prefetch
register, then lands the beats in the registers and is idle again. One down-counter serves the
launch, the landing and the choice of the register.

* **`DramConfig`** — the parameters: port word of `8 * 2 ^ k` bits, `prefetch_bits`, and the
  port's address width.
* **`FlashEmuDRAMLite.next`** — one system clock edge.
* **`At`** — where in a pass the registers are; `refines` says that every run is a sequence of
  bursts. -/

namespace LiteSpiH4x

open Digital ReadPort

/-- Parameters of a prefetcher. The port's `data_width` is `8 * 2 ^ k`; a window of
`2 ^ prefetchBits` bytes holds at least one word. -/
structure DramConfig where
  k : ℕ
  prefetchBits : ℕ
  addressWidth : ℕ
  le : k ≤ prefetchBits

namespace DramConfig

variable (cfg : DramConfig)

/-- `port.data_width` -/
abbrev dataWidth : ℕ := 8 * 2 ^ cfg.k

/-- `num_prefetch_reads` -/
def numPrefetchReads : ℕ := 2 ^ cfg.prefetchBits * 8 / cfg.dataWidth

/-- An address of the port. -/
abbrev Addr := BitVec cfg.addressWidth

/-- A word of the port. -/
abbrev Word := BitVec cfg.dataWidth

/-- There are as many prefetch registers as words in a window. -/
theorem numPrefetchReads_eq : cfg.numPrefetchReads = 2 ^ (cfg.prefetchBits - cfg.k) := by
  rw [numPrefetchReads, dataWidth, mul_comm 8, Nat.mul_div_mul_right _ _ (by omega),
    Nat.pow_div cfg.le two_pos]

/-- At least one read is made. -/
theorem numPrefetchReads_pos : 0 < cfg.numPrefetchReads := by
  rw [numPrefetchReads_eq]
  exact Nat.two_pow_pos _

instance : NeZero cfg.numPrefetchReads := ⟨cfg.numPrefetchReads_pos.ne'⟩

/-- Width of `rd_cnt`, declared by its exclusive bound. -/
abbrev rdCntWidth : ℕ := bitsFor (cfg.numPrefetchReads - 1)

end DramConfig

/-- The states of `ctrl_fsm`. -/
inductive CtrlState
  | idle
  | rdLaunch
  | rdLand
  deriving DecidableEq, Repr

/-- The registers of the prefetcher. -/
structure FlashEmuDRAMLite (cfg : DramConfig) where
  /-- `ctrl_fsm.state` -/
  state : CtrlState
  /-- `rd_cnt` -/
  rdCnt : BitVec cfg.rdCntWidth
  /-- `read_addr` -/
  readAddr : cfg.Addr
  /-- `paddr_tmp` -/
  paddrTmp : BitVec 24
  /-- `prefetch_regs` -/
  pfRegs : Fin cfg.numPrefetchReads → cfg.Word

namespace FlashEmuDRAMLite

variable {cfg : DramConfig}

/-- `rd_cnt.reset` -/
def rdCntReset (cfg : DramConfig) : BitVec cfg.rdCntWidth :=
  BitVec.ofNat _ (cfg.numPrefetchReads - 1)

/-- The registers at power-on. -/
def boot (cfg : DramConfig) : FlashEmuDRAMLite cfg where
  state := .idle
  rdCnt := rdCntReset cfg
  readAddr := 0
  paddrTmp := 0
  pfRegs := fun _ => 0

/-- `paddr[4:]`, as wide as the port's address. -/
def wordAddr (cfg : DramConfig) (paddr : BitVec 24) : cfg.Addr :=
  (paddr >>> 4).setWidth cfg.addressWidth

/-- The register that `pf_regs[num_prefetch_reads - rd_cnt]` writes. -/
def landingReg (s : FlashEmuDRAMLite cfg) : Fin cfg.numPrefetchReads :=
  clampIndex cfg.numPrefetchReads (cfg.numPrefetchReads - s.rdCnt.toNat)

/-- `cmd.valid` with `cmd.addr` -/
def cmd (s : FlashEmuDRAMLite cfg) : Option cfg.Addr :=
  match s.state with
  | .rdLaunch => some s.readAddr
  | _ => none

/-- `rdata.ready` -/
def rdataReady (s : FlashEmuDRAMLite cfg) : Bool :=
  match s.state with
  | .rdLand => true
  | _ => false

/-- A system clock edge: `paddr` and `paddr_valid` on the inputs, `cmd.ready`, and the data beat
presented. -/
def next (s : FlashEmuDRAMLite cfg) (paddr : BitVec 24) (paddrValid : Bool) (cmdReady : Bool)
    (rdata : Option cfg.Word) : FlashEmuDRAMLite cfg :=
  match s.state with
  | .idle =>
    { s with
      rdCnt := rdCntReset cfg
      paddrTmp := if paddrValid then paddr else s.paddrTmp
      readAddr := if paddrValid then wordAddr cfg paddr else s.readAddr
      state := if paddrValid then .rdLaunch else .idle }
  | .rdLaunch =>
    if cmdReady then
      { s with
        -- the later assignment to `rd_cnt` wins: the last command reloads it for the landing
        rdCnt := if s.rdCnt = 0 then rdCntReset cfg else s.rdCnt - 1
        readAddr := s.readAddr + 1
        state := if s.rdCnt = 0 then .rdLand else .rdLaunch }
    else s
  | .rdLand =>
    match rdata with
    | none => s
    | some data =>
      { s with
        pfRegs := Function.update s.pfRegs s.landingReg data
        -- at zero it wraps, and `IDLE` reloads it
        rdCnt := s.rdCnt - 1
        state := if s.rdCnt = 0 then .idle else .rdLand }

/-- The prefetcher as a master of its port, with the window address and its validity as inputs. -/
def master (cfg : DramConfig) :
    Master (FlashEmuDRAMLite cfg) (BitVec 24 × Bool) cfg.Addr cfg.Word where
  cmd := cmd
  ready := rdataReady
  next := fun s i cmdReady rdata => s.next i.1 i.2 cmdReady rdata

/-- On leaving `IDLE` the prefetcher captures the word address. -/
theorem readAddr_of_idle {s : FlashEmuDRAMLite cfg} (hs : s.state = .idle) (paddr : BitVec 24)
    (cmdReady : Bool) (rdata : Option cfg.Word) :
    (s.next paddr true cmdReady rdata).readAddr = wordAddr cfg paddr := by
  simp only [next, hs, if_true]

/-- The edge that leaves the prefetcher in `IDLE` was one in `IDLE` without a valid address, or
took the last beat of a pass. -/
theorem state_next_idle {s : FlashEmuDRAMLite cfg} {paddr : BitVec 24}
    {paddrValid cmdReady : Bool} {rdata : Option cfg.Word}
    (h : (s.next paddr paddrValid cmdReady rdata).state = .idle) :
    s.state = .idle ∧ paddrValid = false ∨
      s.state = .rdLand ∧ s.rdCnt = 0 ∧ rdata.isSome = true := by
  unfold next at h
  cases hs : s.state with
  | idle =>
    left
    refine ⟨rfl, ?_⟩
    cases paddrValid with
    | false => rfl
    | true => simp only [hs, if_true, reduceCtorEq] at h
  | rdLaunch =>
    cases cmdReady with
    | false => simp only [hs, Bool.false_eq_true, if_false, reduceCtorEq] at h
    | true =>
      simp only [hs, if_true] at h
      split at h <;> cases h
  | rdLand =>
    right
    cases rdata with
    | none => simp only [hs, reduceCtorEq] at h
    | some data =>
      simp only [hs] at h
      split at h
      · exact ⟨rfl, ‹_›, rfl⟩
      · cases h

/-! ## Passes -/

/-- The reads of a pass that starts at word address `base`. -/
def burst (cfg : DramConfig) (base : cfg.Addr) : Burst cfg.Addr where
  addr := fun i => base + BitVec.ofNat _ i
  count := cfg.numPrefetchReads

/-- `rd_cnt` when `i` of a phase's steps are done. -/
def rdCntAt (cfg : DramConfig) (i : ℕ) : BitVec cfg.rdCntWidth :=
  BitVec.ofNat _ (cfg.numPrefetchReads - 1 - i)

/-- The registers at a phase of a pass. -/
inductive At (s : FlashEmuDRAMLite cfg) : Phase cfg.Addr → Prop
  | idle (hs : s.state = .idle) : At s .quiet
  | launch (base : cfg.Addr) (i : ℕ) (hi : i < cfg.numPrefetchReads) (hs : s.state = .rdLaunch)
      (hcnt : s.rdCnt = rdCntAt cfg i) (haddr : s.readAddr = base + BitVec.ofNat _ i) :
      At s (.launch (burst cfg base) i)
  | land (base : cfg.Addr) (j : ℕ) (hj : j < cfg.numPrefetchReads) (hs : s.state = .rdLand)
      (hcnt : s.rdCnt = rdCntAt cfg j) : At s (.land (burst cfg base) j)

/-- The counter's value while it counts down. -/
theorem toNat_rdCntAt (i : ℕ) : (rdCntAt cfg i).toNat = cfg.numPrefetchReads - 1 - i := by
  rw [rdCntAt, BitVec.toNat_ofNat]
  exact Nat.mod_eq_of_lt (lt_of_le_of_lt (Nat.sub_le _ _) (lt_two_pow_bitsFor _))

/-- The counter reads zero at the last step only. -/
theorem rdCntAt_eq_zero {i : ℕ} (hi : i < cfg.numPrefetchReads) :
    rdCntAt cfg i = 0 ↔ i + 1 = cfg.numPrefetchReads := by
  rw [← BitVec.toNat_inj, toNat_rdCntAt, BitVec.ofNat_eq_ofNat, BitVec.toNat_ofNat, Nat.zero_mod]
  omega

/-- Before the last step, decrementing moves the counter on. -/
theorem rdCntAt_sub_one {i : ℕ} (hi : i + 1 < cfg.numPrefetchReads) :
    rdCntAt cfg i - 1 = rdCntAt cfg (i + 1) := by
  have hcnt : cfg.numPrefetchReads - 1 - i = cfg.numPrefetchReads - 1 - (i + 1) + 1 := by omega
  rw [rdCntAt, hcnt, BitVec.ofNat_add]
  exact BitVec.add_sub_cancel _ _

namespace At

variable {s : FlashEmuDRAMLite cfg} {b : Burst cfg.Addr} {paddr : BitVec 24}
  {paddrValid cmdReady : Bool} {rdata : Option cfg.Word}

/-- A pass has commands left to launch, or beats left to take. -/
theorem proper {φ : Phase cfg.Addr} (h : At s φ) : φ.Proper := by
  cases h with
  | idle hs => trivial
  | launch base i hi => exact hi
  | land base j hj => exact hj

/-- The FSM is in `IDLE` exactly between passes. -/
theorem idle_iff {φ : Phase cfg.Addr} (h : At s φ) : s.state = .idle ↔ φ = .quiet := by
  cases h with
  | idle hs => simp only [hs]
  | launch base i hi hs => simp only [hs, reduceCtorEq]
  | land base j hj hs => simp only [hs, reduceCtorEq]

/-- In `RD_LAUNCH` a pass launches. -/
theorem launch_of_state {φ : Phase cfg.Addr} (h : At s φ) (hs : s.state = .rdLaunch) :
    ∃ b i, φ = .launch b i := by
  cases h with
  | idle hs' | land _ _ _ hs' => exact absurd (hs'.symm.trans hs) nofun
  | launch base i => exact ⟨_, i, rfl⟩

/-- In `RD_LAND` a pass lands. -/
theorem land_of_state {φ : Phase cfg.Addr} (h : At s φ) (hs : s.state = .rdLand) :
    ∃ b j, φ = .land b j := by
  cases h with
  | idle hs' | launch _ _ _ hs' => exact absurd (hs'.symm.trans hs) nofun
  | land base j => exact ⟨_, j, rfl⟩

/-- In `IDLE` a valid address starts a pass at its word. -/
theorem start (h : At s .quiet) :
    At (s.next paddr true cmdReady rdata) (.launch (burst cfg (wordAddr cfg paddr)) 0) := by
  cases h with
  | idle hs =>
    refine .launch _ 0 cfg.numPrefetchReads_pos ?_ ?_ ?_
    · simp only [next, hs, if_true]
    · simp only [next, hs, rdCntAt, rdCntReset, Nat.sub_zero]
    · simp only [next, hs, if_true, BitVec.add_zero]

/-- In `IDLE` nothing starts without a valid address. -/
theorem wait (h : At s .quiet) : At (s.next paddr false cmdReady rdata) .quiet := by
  cases h with
  | idle hs => exact .idle (by simp only [next, hs, Bool.false_eq_true, if_false])

/-- A command that is not accepted is driven again. -/
theorem next_stall {i : ℕ} (h : At s (.launch b i)) :
    s.next paddr paddrValid false rdata = s := by
  cases h with
  | launch base i hi hs => simp only [next, hs, Bool.false_eq_true, if_false]

/-- An accepted command counts, and the last one ends the launch. -/
theorem issue {i : ℕ} (h : At s (.launch b i)) :
    At (s.next paddr paddrValid true rdata)
      (if i + 1 = cfg.numPrefetchReads then .land b 0 else .launch b (i + 1)) := by
  cases h with
  | launch base i hi hs hcnt haddr =>
    split
    · rename_i hlast
      have hzero : s.rdCnt = 0 := by rw [hcnt, rdCntAt_eq_zero hi]; exact hlast
      refine .land base 0 cfg.numPrefetchReads_pos ?_ ?_
      · simp only [next, hs, if_true, hzero]
      · simp only [next, hs, if_true, hzero, rdCntAt, rdCntReset, Nat.sub_zero]
    · rename_i hmore
      have hne : s.rdCnt ≠ 0 := by rw [hcnt, Ne, rdCntAt_eq_zero hi]; exact hmore
      refine .launch base (i + 1) (by omega) ?_ ?_ ?_
      · simp only [next, hs, if_true, hne, if_false]
      · simp only [next, hs, if_true, hne, if_false]
        rw [hcnt, rdCntAt_sub_one (by omega)]
      · simp only [next, hs, if_true, haddr]
        rw [BitVec.ofNat_add, ← BitVec.add_assoc]
        rfl

/-- The launch leaves the prefetch registers alone. -/
theorem pfRegs_launch {i : ℕ} (h : At s (.launch b i)) :
    (s.next paddr paddrValid cmdReady rdata).pfRegs = s.pfRegs := by
  cases h with
  | launch base i hi hs =>
    simp only [next, hs]
    split <;> rfl

/-- Without a beat the landing waits. -/
theorem next_await {j : ℕ} (h : At s (.land b j)) :
    s.next paddr paddrValid cmdReady none = s := by
  cases h with
  | land base j hj hs => simp only [next, hs]

/-- A beat counts, and the last one ends the pass. -/
theorem take {j : ℕ} (h : At s (.land b j)) (data : cfg.Word) :
    At (s.next paddr paddrValid cmdReady (some data))
      (if j + 1 = cfg.numPrefetchReads then .quiet else .land b (j + 1)) := by
  cases h with
  | land base j hj hs hcnt =>
    split
    · rename_i hlast
      have hzero : s.rdCnt = 0 := by rw [hcnt, rdCntAt_eq_zero hj]; exact hlast
      exact .idle (by simp only [next, hs, hzero, if_true])
    · rename_i hmore
      have hne : s.rdCnt ≠ 0 := by rw [hcnt, Ne, rdCntAt_eq_zero hj]; exact hmore
      refine .land base (j + 1) (by omega) ?_ ?_
      · simp only [next, hs, hne, if_false]
      · simp only [next, hs]
        rw [hcnt, rdCntAt_sub_one (by omega)]

/-- **The landing index.** Beat number `j` is written one register too high, to register `j + 1`,
or to the last one where that is out of range. -/
theorem pfRegs_take {j : ℕ} (h : At s (.land b j)) (data : cfg.Word) :
    (s.next paddr paddrValid cmdReady (some data)).pfRegs =
      Function.update s.pfRegs (clampIndex cfg.numPrefetchReads (j + 1)) data := by
  cases h with
  | land base j hj hs hcnt =>
    have hidx : cfg.numPrefetchReads - (cfg.numPrefetchReads - 1 - j) = j + 1 := by omega
    simp only [next, hs, landingReg, hcnt, toNat_rdCntAt, hidx]

end At

/-- **Every run is a sequence of bursts.** -/
theorem refines (cfg : DramConfig) :
    (master cfg).Refines (fun _ _ _ _ => True) At where
  cmd := by
    intro s φ h
    cases h with
    | idle hs => simp only [master, cmd, hs, Phase.cmd]
    | launch base i hi hs hcnt haddr => simp only [master, cmd, hs, Phase.cmd, burst, haddr]
    | land base j hj hs hcnt => simp only [master, cmd, hs, Phase.cmd]
  ready := by
    intro s φ h
    cases h with
    | idle hs => simp only [master, rdataReady, hs, Phase.listens]
    | launch base i hi hs hcnt haddr => simp only [master, rdataReady, hs, Phase.listens]
    | land base j hj hs hcnt => simp only [master, rdataReady, hs, Phase.listens]
  next := by
    rintro s φ ⟨paddr, paddrValid⟩ cmdReady rdata h -
    cases h with
    | idle hs =>
      cases paddrValid with
      | false => exact ⟨_, .wait, (At.idle hs).wait⟩
      | true => exact ⟨_, .start cfg.numPrefetchReads_pos, (At.idle hs).start⟩
    | launch base i hi hs hcnt haddr =>
      have h := At.launch base i hi hs hcnt haddr
      cases cmdReady with
      | false =>
        refine ⟨_, .stall, ?_⟩
        simpa only [master, h.next_stall] using h
      | true =>
        refine ⟨_, ?_, h.issue⟩
        split
        · exact .issueLast ‹_›
        · exact .issue (by simp only [burst]; omega)
    | land base j hj hs hcnt =>
      have h := At.land base j hj hs hcnt
      cases rdata with
      | none =>
        refine ⟨_, .await, ?_⟩
        simpa only [master, h.next_await] using h
      | some data =>
        refine ⟨_, ?_, h.take data⟩
        split
        · exact .takeLast ‹_›
        · exact .take (by simp only [burst]; omega)

end FlashEmuDRAMLite

end LiteSpiH4x
