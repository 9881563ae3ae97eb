import Mathlib.Data.List.Basic

/-! # The test access port controller

The sixteen states of the boundary-scan test access port, which `TMS` steers on the rising edges
of `TCK`.

* **`TapState.next`** — the transitions; `foldl_next_true` is the reset sequence.
* **`TapState.DrOpen`** — the states in which a scan of a data register is in progress or paused;
  `drOpen_next` says how they are entered. -/

namespace Digital

/-- The states of a test access port controller. -/
inductive TapState
  | testLogicReset
  | runTestIdle
  | selectDrScan
  | captureDr
  | shiftDr
  | exit1Dr
  | pauseDr
  | exit2Dr
  | updateDr
  | selectIrScan
  | captureIr
  | shiftIr
  | exit1Ir
  | pauseIr
  | exit2Ir
  | updateIr
  deriving DecidableEq, Repr

namespace TapState

/-- The state after a rising edge of `TCK`. -/
def next (s : TapState) (tms : Bool) : TapState :=
  match s with
  | testLogicReset => if tms then testLogicReset else runTestIdle
  | runTestIdle => if tms then selectDrScan else runTestIdle
  | selectDrScan => if tms then selectIrScan else captureDr
  | captureDr => if tms then exit1Dr else shiftDr
  | shiftDr => if tms then exit1Dr else shiftDr
  | exit1Dr => if tms then updateDr else pauseDr
  | pauseDr => if tms then exit2Dr else pauseDr
  | exit2Dr => if tms then updateDr else shiftDr
  | updateDr => if tms then selectDrScan else runTestIdle
  | selectIrScan => if tms then testLogicReset else captureIr
  | captureIr => if tms then exit1Ir else shiftIr
  | shiftIr => if tms then exit1Ir else shiftIr
  | exit1Ir => if tms then updateIr else pauseIr
  | pauseIr => if tms then exit2Ir else pauseIr
  | exit2Ir => if tms then updateIr else shiftIr
  | updateIr => if tms then selectDrScan else runTestIdle

/-- `TMS` high keeps the controller in `Test-Logic-Reset`. -/
theorem foldl_next_replicate (n : ℕ) :
    (List.replicate n true).foldl next testLogicReset = testLogicReset := by
  induction n with
  | zero => rfl
  | succ n ih => exact ih

/-- **Five rising edges with `TMS` high** end in `Test-Logic-Reset`, wherever they start. -/
theorem foldl_next_true {bits : List Bool} (h5 : 5 ≤ bits.length) (h : ∀ b ∈ bits, b = true)
    (s : TapState) : bits.foldl next s = testLogicReset := by
  obtain ⟨n, hn⟩ := Nat.exists_eq_add_of_le h5
  have hfive : (List.replicate 5 true).foldl next s = testLogicReset := by cases s <;> rfl
  rw [List.eq_replicate_iff.mpr ⟨hn, h⟩, List.replicate_add, List.foldl_append, hfive,
    foldl_next_replicate]

/-- A scan of a data register has been captured, and may be shifted on. -/
def DrOpen : TapState → Prop
  | shiftDr | exit1Dr | pauseDr | exit2Dr => True
  | _ => False

/-- A scan of a data register is opened by its capture only. -/
theorem drOpen_next {s : TapState} {tms : Bool} (h : (s.next tms).DrOpen) :
    s = captureDr ∨ s.DrOpen := by
  cases s <;> cases tms <;> simp_all [next, DrOpen]

end TapState

end Digital
