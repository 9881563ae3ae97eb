import LiteSpiH4x.Tap.JTAGTAP

/-! # Resetting the port from anywhere

The port has no reset line: a tester that attaches to it finds it in any state, and brings it into
a known one over `TMS`. Its registers are not reset with the controller, but by the first rising
edge after it.

* **`Same`** — two ports that no tester can tell apart, whatever their controllers are made of.
* **`tms_reset`** — after five cycles with `TMS` high nothing from before them is ever seen. -/

namespace LiteSpiH4x

open Digital StepMachine

namespace JTAGTAP

variable {σ τ : Type*}

/-- Two ports in the same state of the standard's controller, with the same registers. -/
structure Same (abs : σ → TapState) (abs' : τ → TapState) (s : JTAGTAP σ) (t : JTAGTAP τ) :
    Prop where
  fsm : abs s.fsm = abs' t.fsm
  hello : s.hello = t.hello
  ir : s.ir = t.ir
  tdo : s.tdo = t.tdo

section

variable {fsm : JTAGTAPFSM σ} {fsm' : JTAGTAPFSM τ} {abs : σ → TapState} {abs' : τ → TapState}
  {s : JTAGTAP σ} {t : JTAGTAP τ} {c : TckCycle}

/-- The line out before its register, by the state of the standard's controller. -/
theorem tdoPre_of_conforms (hfsm : fsm.Conforms abs) (s : JTAGTAP σ) (c : TckCycle) :
    s.tdoPre fsm c =
      if abs s.fsm = .shiftDr then
        if s.ir = opIdcode then c.idcodeTdo
        else if s.ir = opBypass then c.bypassTdo
        else if s.ir = opHello then s.hello.drTmp
        else c.bypassTdo
      else if abs s.fsm = .shiftIr then s.ir.getLsbD 0
      else false := by
  simp only [tdoPre, hfsm.shiftDr, hfsm.shiftIr, decide_eq_true_eq]

/-- A rising edge, by the state of the standard's controller. -/
theorem Same.rise (h : Same abs abs' s t) (hfsm : fsm.Conforms abs) (hfsm' : fsm'.Conforms abs')
    (c : TckCycle) : Same abs abs' (s.rise fsm c) (t.rise fsm' c) where
  fsm := by
    rw [JTAGTAP.rise, JTAGTAP.rise, hfsm.next, hfsm'.next, h.fsm]
  hello := by
    simp only [JTAGTAP.rise, hfsm.testLogicReset, hfsm'.testLogicReset, hfsm.captureDr,
      hfsm'.captureDr, hfsm.shiftDr, hfsm'.shiftDr, h.fsm, h.hello]
  ir := by
    simp only [JTAGTAP.rise, hfsm.testLogicReset, hfsm'.testLogicReset, hfsm.captureIr,
      hfsm'.captureIr, hfsm.shiftIr, hfsm'.shiftIr, h.fsm, h.ir]
  tdo := h.tdo

/-- A falling edge. -/
theorem Same.fall (h : Same abs abs' s t) (hfsm : fsm.Conforms abs) (hfsm' : fsm'.Conforms abs')
    (c : TckCycle) : Same abs abs' (s.fall fsm c) (t.fall fsm' c) where
  fsm := h.fsm
  hello := congrArg HelloReg.fall h.hello
  ir := h.ir
  tdo := by
    simp only [JTAGTAP.fall, tdoPre_of_conforms hfsm, tdoPre_of_conforms hfsm', h.fsm, h.ir,
      h.hello]

/-- **Step lemma.** Ports that are the same stay so, and scan the same. -/
theorem Same.cycle (h : Same abs abs' s t) (hfsm : fsm.Conforms abs) (hfsm' : fsm'.Conforms abs')
    (c : TckCycle) : Same abs abs' (s.cycle fsm c) (t.cycle fsm' c) :=
  (h.rise hfsm hfsm' c).fall hfsm hfsm' c

/-- An analyser records the same of ports that are the same. -/
theorem Same.scanEvent_eq (h : Same abs abs' s t) (hfsm : fsm.Conforms abs)
    (hfsm' : fsm'.Conforms abs') (c : TckCycle) (w : ScanLog) :
    scanEvent fsm s c w = scanEvent fsm' t c w := by
  simp only [scanEvent, hfsm.testLogicReset, hfsm'.testLogicReset, hfsm.captureIr,
    hfsm'.captureIr, hfsm.shiftIr, hfsm'.shiftIr, hfsm.captureDr, hfsm'.captureDr, hfsm.shiftDr,
    hfsm'.shiftDr, h.fsm, h.ir, h.hello, h.tdo]

/-- The controller of a port moves under `TMS` alone. -/
theorem abs_run (hfsm : fsm.Conforms abs) (s : JTAGTAP σ) (cs : List TckCycle) :
    abs (run (cycle fsm) s cs).fsm = (cs.map TckCycle.tms).foldl TapState.next (abs s.fsm) := by
  induction cs generalizing s with
  | nil => rfl
  | cons c cs ih =>
    rw [run_cons, ih, List.map_cons, List.foldl_cons]
    exact congrArg (List.foldl _ · _) (hfsm.next s.fsm c.tms)

/-- The line out is low when the controller leaves `Test-Logic-Reset` or stays there. -/
theorem tdo_of_reset (hfsm : fsm.Conforms abs) (hs : abs s.fsm = .testLogicReset) (c : TckCycle) :
    (s.cycle fsm c).tdo = false := by
  have hnext : abs (s.rise fsm c).fsm = TapState.next .testLogicReset c.tms :=
    (hfsm.next s.fsm c.tms).trans (by rw [hs])
  have htdo : (s.cycle fsm c).tdo = (s.rise fsm c).tdoPre fsm c := rfl
  rw [htdo, tdoPre_of_conforms hfsm, hnext]
  cases c.tms <;> rfl

/-- **The reset edge.** The rising edge that finds the controller in `Test-Logic-Reset` loads the
registers, so the ports are the same from there on. -/
theorem same_of_reset (hfsm : fsm.Conforms abs) (hfsm' : fsm'.Conforms abs')
    (hs : abs s.fsm = .testLogicReset) (ht : abs' t.fsm = .testLogicReset) (c : TckCycle) :
    Same abs abs' (s.cycle fsm c) (t.cycle fsm' c) where
  fsm := by
    calc abs (s.cycle fsm c).fsm = (abs s.fsm).next c.tms := hfsm.next s.fsm c.tms
      _ = (abs' t.fsm).next c.tms := by rw [hs, ht]
      _ = abs' (t.cycle fsm' c).fsm := (hfsm'.next t.fsm c.tms).symm
  hello := by
    simp only [JTAGTAP.cycle, JTAGTAP.fall, HelloReg.fall, JTAGTAP.rise, HelloReg.rise,
      hfsm.testLogicReset, hfsm'.testLogicReset, hs, ht, decide_true, Bool.true_or, if_true]
  ir := by
    simp only [JTAGTAP.cycle, JTAGTAP.fall, JTAGTAP.rise, hfsm.testLogicReset,
      hfsm'.testLogicReset, hs, ht, decide_true, if_true]
  tdo := by rw [tdo_of_reset hfsm hs, tdo_of_reset hfsm' ht]

/-- The reset edge closes all scans. -/
theorem scanEvent_of_reset (hfsm : fsm.Conforms abs) (hs : abs s.fsm = .testLogicReset)
    (c : TckCycle) (w : ScanLog) : scanEvent fsm s c w = {} := by
  rw [scanEvent, hfsm.testLogicReset, hs, decide_eq_true rfl, if_pos rfl]

/-- What an analyser has recorded before the reset edge does not matter after it. -/
theorem record_of_reset (hfsm : fsm.Conforms abs) (hs : abs s.fsm = .testLogicReset)
    (w : ScanLog) (c : TckCycle) (cs : List TckCycle) :
    record (JTAGTAP.cycle fsm) (scanEvent fsm) s w (c :: cs) =
      record (JTAGTAP.cycle fsm) (scanEvent fsm) (s.cycle fsm c) {} cs := by
  rw [← scanEvent_of_reset hfsm hs c w]
  rfl

/-- Five cycles with `TMS` high end in `Test-Logic-Reset`. -/
theorem abs_of_high (hfsm : fsm.Conforms abs) (s : JTAGTAP σ) {high : List TckCycle}
    (h5 : 5 ≤ high.length) (hhigh : ∀ c ∈ high, c.tms = true) :
    abs (run (JTAGTAP.cycle fsm) s high).fsm = .testLogicReset := by
  rw [abs_run hfsm]
  refine TapState.foldl_next_true ?_ ?_ _
  · rwa [List.length_map]
  · intro b hb
    obtain ⟨c, hc, rfl⟩ := List.mem_map.mp hb
    exact hhigh c hc

end

/-- **Reset from anywhere.** Take two ports with conforming controllers, in any states whatever, and
let each see five or more cycles with `TMS` high, `TDI` being what it may. Under the same cycles
from then on, their lines out show the same for ever, and an analyser that attached to them at any
time records the same scans: nothing from before the reset is ever seen. -/
theorem tms_reset {fsm : JTAGTAPFSM σ} {fsm' : JTAGTAPFSM τ} {abs : σ → TapState}
    {abs' : τ → TapState} (hfsm : fsm.Conforms abs) (hfsm' : fsm'.Conforms abs') (s : JTAGTAP σ)
    (t : JTAGTAP τ) (w w' : ScanLog) {high high' : List TckCycle} (h5 : 5 ≤ high.length)
    (hhigh : ∀ c ∈ high, c.tms = true) (h5' : 5 ≤ high'.length)
    (hhigh' : ∀ c ∈ high', c.tms = true) (c : TckCycle) (cs : List TckCycle) :
    trace (cycle fsm) tdo (run (cycle fsm) s high) (c :: cs) =
        trace (cycle fsm') tdo (run (cycle fsm') t high') (c :: cs) ∧
      record (cycle fsm) (scanEvent fsm) s w (high ++ c :: cs) =
        record (cycle fsm') (scanEvent fsm') t w' (high' ++ c :: cs) := by
  have hs := abs_of_high hfsm s h5 hhigh
  have ht := abs_of_high hfsm' t h5' hhigh'
  have hsame := same_of_reset hfsm hfsm' hs ht c
  constructor
  · rw [trace, trace, hsame.tdo]
    congr 1
    exact trace_eq_of_bisim (fun _ _ c h => h.cycle hfsm hfsm' c) (fun _ _ h => h.tdo) hsame cs
  · rw [record_append, record_append, record_of_reset hfsm hs, record_of_reset hfsm' ht]
    exact record_eq_of_bisim (fun _ _ c h => h.cycle hfsm hfsm' c)
      (fun _ _ c w h => h.scanEvent_eq hfsm hfsm' c w) hsame {} cs

/-- A port reset in the middle of a scan of the hello register selects and scans as one that has
just been powered on. -/
theorem tms_reset_scanning :
    let fsm := JTAGTAPFSM.standard
    let s := run (cycle fsm) (boot .testLogicReset false)
      (selectHello ++ List.replicate 3 ⟨false, true, false, false⟩)
    let high := List.replicate 5 (⟨true, true, false, false⟩ : TckCycle)
    let cs := selectHello.tail ++ List.replicate 3 ⟨false, false, false, false⟩
    trace (cycle fsm) tdo (run (cycle fsm) s high) (⟨false, false, false, false⟩ :: cs) =
        trace (cycle fsm) tdo (run (cycle fsm) (boot .shiftIr true) high)
          (⟨false, false, false, false⟩ :: cs) ∧
      record (cycle fsm) (scanEvent fsm) s {} (high ++ ⟨false, false, false, false⟩ :: cs) =
        record (cycle fsm) (scanEvent fsm) (boot .shiftIr true) {}
          (high ++ ⟨false, false, false, false⟩ :: cs) :=
  tms_reset JTAGTAPFSM.standard_conforms JTAGTAPFSM.standard_conforms _ _ {} {} (by decide)
    (by decide) (by decide) (by decide) _ _

/-- Four are not enough: a port that was shifting a data register goes on to scan an instruction. -/
example :
    let fsm := JTAGTAPFSM.standard
    let high := List.replicate 4 (⟨true, false, false, false⟩ : TckCycle)
    let cs := List.replicate 3 (⟨false, false, false, false⟩ : TckCycle)
    trace (cycle fsm) tdo (run (cycle fsm) (boot .shiftDr true) high) cs ≠
      trace (cycle fsm) tdo (run (cycle fsm) (boot .testLogicReset true) high) cs := by
  decide

end JTAGTAP

end LiteSpiH4x
