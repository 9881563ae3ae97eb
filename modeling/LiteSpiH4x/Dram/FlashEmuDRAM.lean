import LiteSpiH4x.ReadPort.Burst
import Mathlib.Data.Fin.Basic

/-! # FlashEmuDRAM

The host-programmed reader. The host writes a read count and a start address into two CSRs; while
the trigger is up the engine makes passes over them, and it uses the CSRs themselves as counters,
keeping the originals in two temporaries of the FSM. The trigger going down resets the FSM's state,
but neither the CSRs nor the temporaries, which are declared like the CSRs.

* **`FlashEmuDRAM.next`** — one system clock edge: the FSM's clauses, then the `ResetInserter`.
* **`At N A`** — where in a pass over `N + 1` words from `A` the registers are.
* **`Harmless`** — the cycles in which the trigger may go down without a trace; `refines` says
  that with such releases only, every run is a sequence of bursts. -/

namespace LiteSpiH4x

open ReadPort

/-- The states of `ctrl_fsm`. `delayed_enter` replaces the transitions from `RESET` to `IDLE` and
from `IDLE` to `RD_LAUNCH` by chains of fifteen anonymous states. -/
inductive FillState
  | reset
  | resetDelay (i : Fin 15)
  | idle
  | idleDelay (i : Fin 15)
  | rdLaunch
  | rdLand
  deriving DecidableEq, Repr

/-- The registers of the reader. -/
structure FlashEmuDRAM (addressWidth dataWidth : ℕ) where
  /-- `ctrl_fsm.state` -/
  state : FillState
  /-- `fill_addr.storage` -/
  fillAddr : BitVec addressWidth
  /-- `fa_tmp` -/
  faTmp : BitVec addressWidth
  /-- `readback_word.storage` -/
  readbackWord : BitVec dataWidth
  /-- `rd_cnt.storage` -/
  rdCnt : BitVec 8
  /-- `rdc_tmp` -/
  rdcTmp : BitVec 8
  deriving DecidableEq, Repr

namespace FlashEmuDRAM

variable {aw dw : ℕ}

/-- The next state of a `delayed_enter` chain that ends in `target`. -/
def delayedEnter (anonymous : Fin 15 → FillState) (target : FillState) (i : Fin 15) :
    FillState :=
  if h : i.val + 1 < 15 then anonymous ⟨i.val + 1, h⟩ else target

/-- The clauses of `ctrl_fsm`, with the CSR writes they drive: `cmd.ready` and the data beat
presented are the inputs. -/
def act (s : FlashEmuDRAM aw dw) (cmdReady : Bool) (rdata : Option (BitVec dw)) :
    FlashEmuDRAM aw dw :=
  match s.state with
  -- `delayed_enter` comes after the clause's own `NextState` and does not look at the trigger
  | .reset => { s with state := .resetDelay 0 }
  | .resetDelay i => { s with state := delayedEnter .resetDelay .idle i }
  | .idle => { s with rdcTmp := s.rdCnt, faTmp := s.fillAddr, state := .idleDelay 0 }
  | .idleDelay i => { s with state := delayedEnter .idleDelay .rdLaunch i }
  | .rdLaunch =>
    if cmdReady then
      { s with
        -- write strobes on the CSRs: of two assignments the later one wins
        rdCnt := if s.rdCnt = 0 then s.rdcTmp else s.rdCnt - 1
        fillAddr := s.fillAddr + 1
        state := if s.rdCnt = 0 then .rdLand else .rdLaunch }
    else s
  | .rdLand =>
    match rdata with
    | none => s
    | some data =>
      { s with
        readbackWord := data
        rdCnt := if s.rdCnt = 0 then s.rdcTmp else s.rdCnt - 1
        fillAddr := if s.rdCnt = 0 then s.faTmp else s.fillAddr
        state := if s.rdCnt = 0 then .reset else .rdLand }

/-- A system clock edge. While `combo_trigger` is low, the `ResetInserter` puts the state of the FSM
at its reset value. The two temporaries are `Signal.like` storage without a reset, and the CSRs are
outside the FSM. -/
def next (s : FlashEmuDRAM aw dw) (comboTrigger : Bool) (cmdReady : Bool)
    (rdata : Option (BitVec dw)) : FlashEmuDRAM aw dw :=
  if comboTrigger then s.act cmdReady rdata
  -- the clause of the state left still drives the CSRs' write strobes in this cycle, and in `IDLE`
  -- it still loads the temporaries
  else { s.act cmdReady rdata with state := .reset }

/-- `cmd.valid` with `cmd.addr` -/
def cmd (s : FlashEmuDRAM aw dw) : Option (BitVec aw) :=
  match s.state with
  | .rdLaunch => some s.fillAddr
  | _ => none

/-- `rdata.ready` -/
def rdataReady (s : FlashEmuDRAM aw dw) : Bool :=
  match s.state with
  | .rdLand => true
  | _ => false

/-- The reader as a master of its port, with the combined trigger as its input. -/
def master (aw dw : ℕ) : Master (FlashEmuDRAM aw dw) Bool (BitVec aw) (BitVec dw) where
  cmd := cmd
  ready := rdataReady
  next := next

/-- The registers before the first trigger, with the host's `N` and `A` in the CSRs. -/
def programmed (dw : ℕ) (N : BitVec 8) (A : BitVec aw) : FlashEmuDRAM aw dw where
  state := .reset
  fillAddr := A
  faTmp := 0
  readbackWord := 0
  rdCnt := N
  rdcTmp := 0

/-! ## Passes -/

/-- The reads of a pass over `N + 1` words from `A`. -/
def burst (N : BitVec 8) (A : BitVec aw) : Burst (BitVec aw) where
  addr := fun i => A + BitVec.ofNat aw i
  count := N.toNat + 1

/-- The registers at a phase of a pass. Between passes the CSRs hold what the host programmed. -/
inductive At (N : BitVec 8) (A : BitVec aw) (s : FlashEmuDRAM aw dw) : Phase (BitVec aw) → Prop
  | rest (hs : s.state = .reset ∨ (∃ i, s.state = .resetDelay i) ∨ s.state = .idle)
      (hcnt : s.rdCnt = N) (haddr : s.fillAddr = A) : At N A s .quiet
  | delay (i : Fin 15) (hs : s.state = .idleDelay i) (hcnt : s.rdCnt = N)
      (haddr : s.fillAddr = A) (hrdc : s.rdcTmp = N) (hfa : s.faTmp = A) : At N A s .quiet
  | launch (i : ℕ) (hi : i ≤ N.toNat) (hs : s.state = .rdLaunch)
      (hcnt : s.rdCnt = BitVec.ofNat 8 (N.toNat - i))
      (haddr : s.fillAddr = A + BitVec.ofNat aw i) (hrdc : s.rdcTmp = N) (hfa : s.faTmp = A) :
      At N A s (.launch (burst N A) i)
  | land (j : ℕ) (hj : j ≤ N.toNat) (hs : s.state = .rdLand)
      (hcnt : s.rdCnt = BitVec.ofNat 8 (N.toNat - j)) (hrdc : s.rdcTmp = N) (hfa : s.faTmp = A) :
      At N A s (.land (burst N A) j)

/-- The trigger is up, or it goes down in a cycle in which the pass leaves no trace: it has not
launched a command yet and none is accepted now, or its last beat is taken now. -/
def Harmless (s : FlashEmuDRAM aw dw) (comboTrigger cmdReady : Bool)
    (rdata : Option (BitVec dw)) : Prop :=
  comboTrigger = true ∨
    (s.state = .rdLaunch → s.rdCnt = s.rdcTmp ∧ cmdReady = false) ∧
      (s.state = .rdLand → s.rdCnt = 0 ∧ rdata.isSome = true)

instance (s : FlashEmuDRAM aw dw) (comboTrigger cmdReady : Bool) (rdata : Option (BitVec dw)) :
    Decidable (Harmless s comboTrigger cmdReady rdata) := by
  unfold Harmless
  infer_instance

/-- The counter reads zero at the last step only. -/
theorem rdCnt_eq_zero {N : BitVec 8} {i : ℕ} (hi : i ≤ N.toNat) :
    BitVec.ofNat 8 (N.toNat - i) = 0 ↔ i + 1 = N.toNat + 1 := by
  have hN := N.isLt
  rw [← BitVec.toNat_inj, BitVec.toNat_ofNat, Nat.mod_eq_of_lt (by omega)]
  simp only [BitVec.ofNat_eq_ofNat, BitVec.toNat_ofNat, Nat.zero_mod]
  omega

/-- Before the last step, decrementing moves the counter on. -/
theorem rdCnt_sub_one {N : BitVec 8} {i : ℕ} (hi : i < N.toNat) :
    BitVec.ofNat 8 (N.toNat - i) - 1 = BitVec.ofNat 8 (N.toNat - (i + 1)) := by
  rw [show N.toNat - i = N.toNat - (i + 1) + 1 by omega, BitVec.ofNat_add]
  exact BitVec.add_sub_cancel _ _

/-- The counter at its start. -/
theorem rdCnt_zero (N : BitVec 8) : BitVec.ofNat 8 (N.toNat - 0) = N := by
  rw [Nat.sub_zero, BitVec.ofNat_toNat, BitVec.setWidth_eq]

namespace At

variable {N : BitVec 8} {A : BitVec aw} {s : FlashEmuDRAM aw dw} {b : Burst (BitVec aw)}
  {cmdReady : Bool} {rdata : Option (BitVec dw)}

/-- A pass has commands left to launch, or beats left to take. -/
theorem proper {φ : Phase (BitVec aw)} (h : At N A s φ) : φ.Proper := by
  cases h with
  | rest hs => trivial
  | delay i hs => trivial
  | launch i hi => exact Nat.lt_succ_of_le hi
  | land j hj => exact Nat.lt_succ_of_le hj

/-- A pass makes `N + 1` reads. -/
theorem count_eq {φ : Phase (BitVec aw)} (h : At N A s φ) {b : Burst (BitVec aw)} {i : ℕ}
    (hφ : φ = .launch b i ∨ φ = .land b i) : b.count = N.toNat + 1 := by
  cases h with
  | rest hs => rcases hφ with hφ | hφ <;> cases hφ
  | delay i hs => rcases hφ with hφ | hφ <;> cases hφ
  | launch i hi hs => rcases hφ with hφ | hφ <;> cases hφ; rfl
  | land j hj hs => rcases hφ with hφ | hφ <;> cases hφ; rfl

/-- In `RD_LAUNCH` a pass launches. -/
theorem launch_of_state {φ : Phase (BitVec aw)} (h : At N A s φ) (hs : s.state = .rdLaunch) :
    ∃ b i, φ = .launch b i := by
  cases h with
  | rest hs' => rcases hs' with hs' | ⟨i, hs'⟩ | hs' <;> exact absurd (hs'.symm.trans hs) nofun
  | delay _ hs' | land _ _ hs' => exact absurd (hs'.symm.trans hs) nofun
  | launch i => exact ⟨_, i, rfl⟩

/-- In `RD_LAND` a pass lands. -/
theorem land_of_state {φ : Phase (BitVec aw)} (h : At N A s φ) (hs : s.state = .rdLand) :
    ∃ b j, φ = .land b j := by
  cases h with
  | rest hs' => rcases hs' with hs' | ⟨i, hs'⟩ | hs' <;> exact absurd (hs'.symm.trans hs) nofun
  | delay _ hs' | launch _ _ hs' => exact absurd (hs'.symm.trans hs) nofun
  | land j => exact ⟨_, j, rfl⟩

/-- Between passes the CSRs are the host's. -/
theorem csrs (h : At N A s .quiet) : s.rdCnt = N ∧ s.fillAddr = A := by
  cases h with
  | rest hs hcnt haddr => exact ⟨hcnt, haddr⟩
  | delay i hs hcnt haddr => exact ⟨hcnt, haddr⟩

/-- Between passes the FSM walks to `RD_LAUNCH` through the delay chains, by way of `IDLE`, which
saves the CSRs. -/
theorem act_quiet (h : At N A s .quiet) :
    At N A (s.act cmdReady rdata) .quiet ∨
      At N A (s.act cmdReady rdata) (.launch (burst N A) 0) := by
  cases h with
  | rest hs hcnt haddr =>
    left
    rcases hs with hs | ⟨i, hs⟩ | hs
    · exact .rest (by simp [act, hs]) (by simpa [act, hs]) (by simpa [act, hs])
    · refine .rest ?_ (by simpa [act, hs]) (by simpa [act, hs])
      simp only [act, hs, delayedEnter]
      split
      · exact Or.inr (Or.inl ⟨_, rfl⟩)
      · exact Or.inr (Or.inr rfl)
    -- `IDLE` saves the CSRs into the temporaries
    · exact .delay 0 (by simp [act, hs]) (by simpa [act, hs]) (by simpa [act, hs])
        (by simpa [act, hs]) (by simpa [act, hs])
  | delay i hs hcnt haddr hrdc hfa =>
    by_cases hi : i.val + 1 < 15
    · left
      exact .delay ⟨i.val + 1, hi⟩ (by simp [act, hs, delayedEnter, hi]) (by simpa [act, hs])
        (by simpa [act, hs]) (by simpa [act, hs]) (by simpa [act, hs])
    · right
      refine .launch 0 (Nat.zero_le _) (by simp [act, hs, delayedEnter, hi]) ?_
        (by simpa [act, hs]) (by simpa [act, hs]) (by simpa [act, hs])
      rw [rdCnt_zero]
      simpa [act, hs]

/-- A command that is not accepted is driven again. -/
theorem act_stall {i : ℕ} (h : At N A s (.launch b i)) : s.act false rdata = s := by
  cases h with
  | launch i hi hs => simp only [act, hs, Bool.false_eq_true, if_false]

/-- An accepted command counts, and the last one ends the launch. -/
theorem act_issue {i : ℕ} (h : At N A s (.launch b i)) :
    At N A (s.act true rdata)
      (if i + 1 = N.toNat + 1 then .land b 0 else .launch b (i + 1)) := by
  cases h with
  | launch i hi hs hcnt haddr hrdc hfa =>
    split
    · rename_i hlast
      have hzero : s.rdCnt = 0 := by rw [hcnt, rdCnt_eq_zero hi]; exact hlast
      refine .land 0 (Nat.zero_le _) ?_ ?_ ?_ ?_
      · simp only [act, hs, if_true, hzero]
      · rw [rdCnt_zero]
        simp only [act, hs, if_true, hzero, hrdc]
      · simp only [act, hs, if_true, hrdc]
      · simp only [act, hs, if_true, hfa]
    · rename_i hmore
      have hne : s.rdCnt ≠ 0 := by rw [hcnt, Ne, rdCnt_eq_zero hi]; exact hmore
      refine .launch (i + 1) (by omega) ?_ ?_ ?_ ?_ ?_
      · simp only [act, hs, if_true, hne, if_false]
      · simp only [act, hs, if_true, hne, if_false]
        rw [hcnt, rdCnt_sub_one (by omega)]
      · simp only [act, hs, if_true, haddr]
        rw [BitVec.ofNat_add, ← BitVec.add_assoc]
        rfl
      · simp only [act, hs, if_true, hrdc]
      · simp only [act, hs, if_true, hfa]

/-- Without a beat the landing waits. -/
theorem act_await {j : ℕ} (h : At N A s (.land b j)) : s.act cmdReady none = s := by
  cases h with
  | land j hj hs => simp only [act, hs]

/-- A beat counts, and the last one ends the pass and restores the CSRs. -/
theorem act_take {j : ℕ} (h : At N A s (.land b j)) (data : BitVec dw) :
    At N A (s.act cmdReady (some data))
      (if j + 1 = N.toNat + 1 then .quiet else .land b (j + 1)) := by
  cases h with
  | land j hj hs hcnt hrdc hfa =>
    split
    · rename_i hlast
      have hzero : s.rdCnt = 0 := by rw [hcnt, rdCnt_eq_zero hj]; exact hlast
      refine .rest (Or.inl ?_) ?_ ?_
      · simp only [act, hs, hzero, if_true]
      · simp only [act, hs, hzero, if_true, hrdc]
      · simp only [act, hs, hzero, if_true, hfa]
    · rename_i hmore
      have hne : s.rdCnt ≠ 0 := by rw [hcnt, Ne, rdCnt_eq_zero hj]; exact hmore
      refine .land (j + 1) (by omega) ?_ ?_ ?_ ?_
      · simp only [act, hs, hne, if_false]
      · simp only [act, hs, hne, if_false]
        rw [hcnt, rdCnt_sub_one (by omega)]
      · simp only [act, hs, hrdc]
      · simp only [act, hs, hfa]

/-- **Step lemma, trigger up.** -/
theorem act_step {φ : Phase (BitVec aw)} (h : At N A s φ) :
    ∃ φ', Phase.Step φ cmdReady rdata.isSome φ' ∧ At N A (s.act cmdReady rdata) φ' := by
  cases φ with
  | quiet =>
    rcases (h.act_quiet : At N A (s.act cmdReady rdata) _ ∨ At N A (s.act cmdReady rdata) _)
      with h' | h'
    · exact ⟨_, .wait, h'⟩
    · exact ⟨_, .start (Nat.succ_pos _), h'⟩
  | launch b i =>
    have hcount : b.count = N.toNat + 1 := h.count_eq (Or.inl rfl)
    cases cmdReady with
    | false => exact ⟨_, .stall, by rw [h.act_stall]; exact h⟩
    | true =>
      refine ⟨_, ?_, h.act_issue⟩
      split
      · exact .issueLast (by rw [hcount]; assumption)
      · have hi : i < b.count := h.proper
        exact .issue (by omega)
  | land b j =>
    have hcount : b.count = N.toNat + 1 := h.count_eq (Or.inr rfl)
    cases rdata with
    | none => exact ⟨_, .await, by rw [h.act_await]; exact h⟩
    | some data =>
      refine ⟨_, ?_, h.act_take data⟩
      split
      · exact .takeLast (by rw [hcount]; assumption)
      · have hj : j < b.count := h.proper
        exact .take (by omega)

/-- Resetting the FSM between passes leaves the engine between passes. -/
theorem released (h : At N A s .quiet) : At N A { s with state := .reset } .quiet :=
  .rest (Or.inl rfl) h.csrs.1 h.csrs.2

/-- **Step lemma, trigger down.** A harmless release ends between passes. -/
theorem release {φ : Phase (BitVec aw)} (h : At N A s φ)
    (hok : Harmless s false cmdReady rdata) :
    Phase.Step φ cmdReady rdata.isSome .quiet ∧
      At N A { s.act cmdReady rdata with state := .reset } .quiet := by
  obtain ⟨hlaunch, hland⟩ := hok.resolve_left Bool.false_ne_true
  cases h with
  | rest hs hcnt haddr =>
    refine ⟨.wait, .rest (Or.inl rfl) ?_ ?_⟩
    · rcases hs with hs | ⟨i, hs⟩ | hs <;> simpa only [act, hs]
    · rcases hs with hs | ⟨i, hs⟩ | hs <;> simpa only [act, hs]
  | delay i hs hcnt haddr =>
    exact ⟨.wait, .rest (Or.inl rfl) (by simpa only [act, hs]) (by simpa only [act, hs])⟩
  | launch i hi hs hcnt haddr hrdc hfa =>
    obtain ⟨heq, hready⟩ := hlaunch hs
    -- the counter has not moved, so no command of this pass has been accepted
    obtain rfl : i = 0 := by
      rw [hcnt, hrdc, ← BitVec.toNat_inj, BitVec.toNat_ofNat] at heq
      have hN := N.isLt
      omega
    subst hready
    rw [(At.launch 0 hi hs hcnt haddr hrdc hfa).act_stall]
    refine ⟨.giveUp, .rest (Or.inl rfl) ?_ ?_⟩
    · rw [hcnt, rdCnt_zero]
    · rw [haddr, BitVec.add_zero]
  | land j hj hs hcnt hrdc hfa =>
    obtain ⟨hzero, hbeat⟩ := hland hs
    -- the last beat restores the CSRs in the very cycle in which the FSM is reset
    obtain ⟨data, rfl⟩ := Option.isSome_iff_exists.mp hbeat
    have hlast : j + 1 = N.toNat + 1 := by rwa [hcnt, rdCnt_eq_zero hj] at hzero
    have htake : At N A (s.act cmdReady (some data)) _ :=
      (At.land j hj hs hcnt hrdc hfa).act_take data
    rw [if_pos hlast] at htake
    exact ⟨.takeLast hlast, htake.released⟩

end At

/-- **The sequence of bursts.** While the trigger is up, or goes down without harm, every edge is
a step of a pass over the host's words. -/
theorem refines (dw : ℕ) (N : BitVec 8) (A : BitVec aw) :
    (master aw dw).Refines Harmless (At N A) where
  cmd := by
    intro s φ h
    cases h with
    | rest hs => rcases hs with hs | ⟨i, hs⟩ | hs <;> simp only [master, cmd, hs, Phase.cmd]
    | delay i hs => simp only [master, cmd, hs, Phase.cmd]
    | launch i hi hs hcnt haddr => simp only [master, cmd, hs, Phase.cmd, burst, haddr]
    | land j hj hs => simp only [master, cmd, hs, Phase.cmd]
  ready := by
    intro s φ h
    cases h with
    | rest hs =>
      rcases hs with hs | ⟨i, hs⟩ | hs <;> simp only [master, rdataReady, hs, Phase.listens]
    | delay i hs => simp only [master, rdataReady, hs, Phase.listens]
    | launch i hi hs => simp only [master, rdataReady, hs, Phase.listens]
    | land j hj hs => simp only [master, rdataReady, hs, Phase.listens]
  next := by
    intro s φ comboTrigger cmdReady rdata h hok
    cases comboTrigger with
    | true => exact h.act_step
    | false => exact ⟨_, h.release hok⟩

end FlashEmuDRAM

end LiteSpiH4x
