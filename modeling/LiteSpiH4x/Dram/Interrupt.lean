import LiteSpiH4x.Dram.FlashEmuDRAM
import LiteSpiH4x.ReadPort.Ledger

/-! # Interrupting FlashEmuDRAM

A pass counts in the CSRs the host programmed and restores them at its end. When the trigger goes
down in mid-pass the FSM is reset, the CSRs stay as the pass had them, and the beats of commands
already accepted are still to come, for the next pass to take as its own.

* **`no_residue`** — in runs whose releases are all harmless, every `RESET` finds the CSRs as
  programmed, and every pass that completes has read the host's words and reads back the last.
* **`residue`** — a release after the first of four commands leaves the next pass too short and
  at the wrong address. -/

namespace LiteSpiH4x

open ReadPort StepMachine

namespace FlashEmuDRAM

variable {aw dw : ℕ} {N : BitVec 8} {A : BitVec aw} {mem : BitVec aw → BitVec dw}

/-- In `RESET` the CSRs are the host's. -/
theorem At.csrs_of_reset {s : FlashEmuDRAM aw dw} {φ : Phase (BitVec aw)} (h : At N A s φ)
    (hs : s.state = .reset) : s.rdCnt = N ∧ s.fillAddr = A := by
  cases h with
  | rest _ hcnt haddr => exact ⟨hcnt, haddr⟩
  | delay _ _ hcnt haddr => exact ⟨hcnt, haddr⟩
  | launch i hi hs' => rw [hs] at hs'; cases hs'
  | land j hj hs' => rw [hs] at hs'; cases hs'

/-- In `RD_LAND` with the counter at zero a pass waits for its last beat. -/
theorem At.last_land {s : FlashEmuDRAM aw dw} {φ : Phase (BitVec aw)} (h : At N A s φ)
    (hs : s.state = .rdLand) (hzero : s.rdCnt = 0) : φ = .land (burst N A) N.toNat := by
  cases h with
  | rest hs' => rcases hs' with hs' | ⟨i, hs'⟩ | hs' <;> rw [hs] at hs' <;> cases hs'
  | delay i hs' => rw [hs] at hs'; cases hs'
  | launch i hi hs' => rw [hs] at hs'; cases hs'
  | land j hj _ hcnt =>
    rw [hcnt, rdCnt_eq_zero hj] at hzero
    rw [Nat.succ.inj hzero]

/-- **No residue.** Take any run at a port that holds its beats in which the trigger goes down
only in harmless cycles. Whenever the FSM is in `RESET` the CSRs hold what the host programmed,
and whenever a pass takes its last beat, its commands were those for `A, …, A + N` and the word
read back is the one at `A + N`. -/
theorem no_residue (aw dw : ℕ) (N : BitVec 8) (A : BitVec aw) (mem : BitVec aw → BitVec dw)
    (es : List (Bool × Cycle))
    (hok : Along ((master aw dw).bookedHeld mem) (Master.Meets mem Harmless)
      ((programmed dw N A, []), {}) es) :
    let x := run ((master aw dw).bookedHeld mem) ((programmed dw N A, []), {}) es
    (x.1.1.state = .reset → x.1.1.rdCnt = N ∧ x.1.1.fillAddr = A) ∧
    ∀ e : Bool × Cycle, x.1.1.state = .rdLand → x.1.1.rdCnt = 0 →
      (presented x.1.2 e.2).isSome = true →
        let y := (master aw dw).bookedHeld mem x e
        y.2.issued = (List.range (N.toNat + 1)).map (fun i => A + BitVec.ofNat aw i) ∧
          y.1.1.readbackWord = mem (A + BitVec.ofNat aw N.toNat) := by
  intro x
  have hstart : Master.Refines.Held (At N A) ((programmed dw N A, []), ({} : Ledger (BitVec aw))) :=
    ⟨.quiet, .rest (Or.inl rfl) rfl rfl, trivial, rfl, rfl⟩
  have hheld : Master.Refines.Held (At N A) x :=
    run_invariant_of_along (fun x e hc hx => (refines dw N A).held_step x e hc hx) hstart hok
  -- the phase reached, with the port's commands and the books as the phase has them
  obtain ⟨φ, hat, hproper, hq, hbooked⟩ := hheld
  refine ⟨hat.csrs_of_reset, ?_⟩
  intro e hs hzero hbeat
  have hphase := hat.last_land hs hzero
  subst hphase
  have hpresented : presented x.1.2 e.2 = some (A + BitVec.ofNat aw N.toNat) := by
    rw [hq, Master.presented_land hproper] at hbeat ⊢
    cases hvalid : e.2.valid with
    | false => rw [hvalid] at hbeat; cases hbeat
    | true => rfl
  constructor
  · have hcmd : (master aw dw).cmd x.1.1 = none := (refines dw N A).cmd hat
    have hready : (master aw dw).ready x.1.1 = true := (refines dw N A).ready hat
    simp only [Master.bookedHeld, watch, Master.ledger, Ledger.next, hcmd, hready]
    simpa [burst] using hbooked.2.1
  · simp only [Master.bookedHeld, watch, Master.heldStep, hpresented, Option.map_some, master,
      next, act, hs]
    split <;> rfl

/-- Two passes of two reads, with the trigger released before the first command of another one. -/
theorem no_residue_released :
    let es := List.replicate 33 (true, (⟨false, false⟩ : Cycle)) ++ [(false, ⟨false, false⟩)] ++
      List.replicate 33 (true, ⟨false, false⟩) ++ List.replicate 3 (true, ⟨true, true⟩)
    let x := run ((master 20 8).bookedHeld fun a => a.setWidth 8)
      ((programmed 8 1 0x10, []), {}) es
    let y := (master 20 8).bookedHeld (fun a => a.setWidth 8) x (true, ⟨true, true⟩)
    y.2.issued = (List.range 2).map (fun i => 0x10#20 + BitVec.ofNat 20 i) ∧
      y.1.1.readbackWord = (0x10#20 + BitVec.ofNat 20 1).setWidth 8 :=
  (no_residue 20 8 1 0x10 (fun a => a.setWidth 8) _ (by decide)).2 (true, ⟨true, true⟩)
    (by decide) (by decide) (by decide)

/-- With four reads programmed from address `0x10`, the trigger goes down when the first command
has been accepted: the FSM is in `RESET`, three reads are left in `rd_cnt`, and `fill_addr` has
moved on. -/
theorem residue :
    let es := List.replicate 33 (true, (⟨false, false⟩ : Cycle)) ++
      [(true, ⟨true, false⟩), (false, ⟨false, false⟩)]
    let x := run ((master 20 8).bookedHeld fun _ => 0) ((programmed 8 3 0x10, []), {}) es
    x.1.1.state = .reset ∧ ¬ (x.1.1.rdCnt = 3 ∧ x.1.1.fillAddr = 0x10) := by
  decide

end FlashEmuDRAM

end LiteSpiH4x
