import LiteSpiH4x.Digital.ScanChain
import LiteSpiH4x.Digital.TapController
import LiteSpiH4x.StepMachine.Run

/-! # JTAGTAP

A test access port with an instruction register and three data registers. Registers are captured
and shifted on rising edges of TCK; the line out is a register on falling ones. The hello register
puts a falling-edge register of its own in front of it, and so lags one edge behind while it is
being shifted.

* **`JTAGTAPFSM`** — the controller as the port sees it, with **`JTAGTAPFSM.Conforms`** for one that
  is the standard's.
* **`JTAGTAP.cycle`** — a TCK cycle, the rising edge and the falling one.
* **`ScanLog`** — the instruction scan and the data scan in progress, as an analyser records them.
* **`tap_iff`** — instruction scans always read right; data scans of the hello register do exactly
  if no edge straight after a capture or a shift asks for a change of the line. -/

namespace LiteSpiH4x

open Digital StepMachine

/-- A test access port controller with states `σ`: its rising edge under `tms`, and its state
outputs. -/
structure JTAGTAPFSM (σ : Type*) where
  next : σ → Bool → σ
  /-- `TEST_LOGIC_RESET` -/
  testLogicReset : σ → Bool
  /-- `CAPTURE_DR` -/
  captureDr : σ → Bool
  /-- `SHIFT_DR` -/
  shiftDr : σ → Bool
  /-- `CAPTURE_IR` -/
  captureIr : σ → Bool
  /-- `SHIFT_IR` -/
  shiftIr : σ → Bool

/-- The controller is the standard's, by the state that `abs` reads off: it moves on rising edges,
and a state's output is high while it is the current one. -/
structure JTAGTAPFSM.Conforms {σ : Type*} (fsm : JTAGTAPFSM σ) (abs : σ → TapState) : Prop where
  next : ∀ q tms, abs (fsm.next q tms) = (abs q).next tms
  testLogicReset : ∀ q, fsm.testLogicReset q = decide (abs q = .testLogicReset)
  captureDr : ∀ q, fsm.captureDr q = decide (abs q = .captureDr)
  shiftDr : ∀ q, fsm.shiftDr q = decide (abs q = .shiftDr)
  captureIr : ∀ q, fsm.captureIr q = decide (abs q = .captureIr)
  shiftIr : ∀ q, fsm.shiftIr q = decide (abs q = .shiftIr)

/-- The standard's controller itself. -/
def JTAGTAPFSM.standard : JTAGTAPFSM TapState where
  next := TapState.next
  testLogicReset := fun q => decide (q = .testLogicReset)
  captureDr := fun q => decide (q = .captureDr)
  shiftDr := fun q => decide (q = .shiftDr)
  captureIr := fun q => decide (q = .captureIr)
  shiftIr := fun q => decide (q = .shiftIr)

/-- It conforms to itself. -/
theorem JTAGTAPFSM.standard_conforms : JTAGTAPFSM.standard.Conforms id := by
  constructor <;> intros <;> rfl

/-! ## The hello register -/

/-- `OP_IDCODE` -/
def opIdcode : BitVec 5 := 0b00010

/-- `OP_BYPASS` -/
def opBypass : BitVec 5 := 0b11111

/-- `OP_HELLO` -/
def opHello : BitVec 5 := 0b00110

/-- `HELLO` -/
def helloCode : BitVec 32 := 0xAA00FF55

/-- The registers of `HelloReg`. -/
structure HelloReg where
  /-- `dr` -/
  dr : BitVec 32
  /-- `dr_tmp` -/
  drTmp : Bool
  deriving DecidableEq, Repr

namespace HelloReg

/-- The registers at power-on. -/
def boot : HelloReg where
  dr := helloCode
  drTmp := helloCode.getLsbD 0

/-- The rising edge, in `jtag`. -/
def rise (r : HelloReg) (testLogicReset captureDr shiftDr tdi : Bool) : HelloReg :=
  { r with
    dr :=
      if testLogicReset || captureDr then helloCode
      else if shiftDr then scanIn r.dr tdi
      else r.dr }

/-- The falling edge, in `jtag_inv`. -/
def fall (r : HelloReg) : HelloReg := { r with drTmp := r.dr.getLsbD 0 }

end HelloReg

/-! ## The port -/

/-- The registers of the port. -/
structure JTAGTAP (σ : Type*) where
  /-- `state_fsm` -/
  fsm : σ
  /-- `hello` -/
  hello : HelloReg
  /-- `ir` -/
  ir : BitVec 5
  /-- `tdo` -/
  tdo : Bool

namespace JTAGTAP

/-- What a TCK cycle finds: `tms` and `tdi` at its rising edge, and at its falling one the lines
that the other two data registers drive. -/
structure TckCycle where
  tms : Bool
  tdi : Bool
  idcodeTdo : Bool
  bypassTdo : Bool
  deriving DecidableEq, Repr

variable {σ : Type*}

/-- The registers at power-on, with the controller in state `q`. -/
def boot (q : σ) (tdo : Bool) : JTAGTAP σ where
  fsm := q
  hello := .boot
  ir := 0
  tdo := tdo

/-- `tdo_pre` -/
def tdoPre (fsm : JTAGTAPFSM σ) (s : JTAGTAP σ) (c : TckCycle) : Bool :=
  if fsm.shiftDr s.fsm then
    if s.ir = opIdcode then c.idcodeTdo
    else if s.ir = opBypass then c.bypassTdo
    else if s.ir = opHello then s.hello.drTmp
    else c.bypassTdo
  else if fsm.shiftIr s.fsm then s.ir.getLsbD 0
  else false

/-- The rising edge, in `jtag`. -/
def rise (fsm : JTAGTAPFSM σ) (s : JTAGTAP σ) (c : TckCycle) : JTAGTAP σ :=
  { s with
    fsm := fsm.next s.fsm c.tms
    hello := s.hello.rise (fsm.testLogicReset s.fsm) (fsm.captureDr s.fsm) (fsm.shiftDr s.fsm) c.tdi
    ir :=
      if fsm.testLogicReset s.fsm then 0
      else if fsm.captureIr s.fsm then 0b101
      else if fsm.shiftIr s.fsm then scanIn s.ir c.tdi
      else s.ir }

/-- The falling edge, in `jtag_inv`. -/
def fall (fsm : JTAGTAPFSM σ) (s : JTAGTAP σ) (c : TckCycle) : JTAGTAP σ :=
  { s with
    hello := s.hello.fall
    tdo := s.tdoPre fsm c }

/-- A TCK cycle. -/
def cycle (fsm : JTAGTAPFSM σ) (s : JTAGTAP σ) (c : TckCycle) : JTAGTAP σ :=
  (s.rise fsm c).fall fsm c

/-! ## The scans of a run -/

/-- A scan of a data register. -/
structure DrScan where
  /-- The instruction at the capture. -/
  ir : BitVec 5
  /-- The lowest bit of the hello register before the capture. -/
  old : Bool
  /-- The edges since. -/
  scan : Scan
  deriving DecidableEq, Repr

/-- The last instruction scan and the last data scan since the last test logic reset. -/
structure ScanLog where
  ir : Option Scan := none
  dr : Option DrScan := none
  deriving DecidableEq, Repr

/-- Record a cycle. The line out is the one that its rising edge finds. -/
def scanEvent (fsm : JTAGTAPFSM σ) (s : JTAGTAP σ) (c : TckCycle) (w : ScanLog) : ScanLog :=
  if fsm.testLogicReset s.fsm then {}
  else
    { ir :=
        if fsm.captureIr s.fsm then some .capture
        else if fsm.shiftIr s.fsm then w.ir.map fun x => x.shift c.tdi s.tdo
        else w.ir.map Scan.hold
      dr :=
        if fsm.captureDr s.fsm then some ⟨s.ir, s.hello.dr.getLsbD 0, .capture⟩
        else if fsm.shiftDr s.fsm then w.dr.map fun x => { x with scan := x.scan.shift c.tdi s.tdo }
        else w.dr.map fun x => { x with scan := x.scan.hold } }

/-- The scans after a run. -/
def scanLog (fsm : JTAGTAPFSM σ) (s : JTAGTAP σ) (cs : List TckCycle) : ScanLog :=
  record (cycle fsm) (scanEvent fsm) s {} cs

/-- What holds between the port and its scans after every run. -/
structure Scanning (abs : σ → TapState) (s : JTAGTAP σ) (w : ScanLog) : Prop where
  drTmp : s.hello.drTmp = s.hello.dr.getLsbD 0
  irTdo : ∀ x ∈ w.ir, abs s.fsm = .shiftIr → s.tdo = s.ir.getLsbD 0
  ir : ∀ x ∈ w.ir, s.ir = scanned 0b101#5 x.tdi ∧ x.Streams 0b101#5
  dr : ∀ x ∈ w.dr, s.hello.dr = scanned helloCode x.scan.tdi
  /-- The instruction does not change during a data scan. -/
  held : ∀ x ∈ w.dr, (abs s.fsm).DrOpen → x.ir = s.ir
  /-- What the next shift edge of a hello scan will find. -/
  shown : ∀ x ∈ w.dr, abs s.fsm = .shiftDr → x.ir = opHello → s.tdo =
    if x.scan.moved then x.scan.bitBefore x.old helloCode x.scan.edges.length
    else streamBit helloCode x.scan.tdi x.scan.edges.length
  lags : ∀ x ∈ w.dr, x.ir = opHello → x.scan.Lags x.old helloCode

namespace Scanning

variable {fsm : JTAGTAPFSM σ} {abs : σ → TapState} {s : JTAGTAP σ} {w : ScanLog} {c : TckCycle}

/-- At power-on. -/
theorem boot (q : σ) (tdo : Bool) : Scanning abs (JTAGTAP.boot q tdo) {} where
  drTmp := by simp only [JTAGTAP.boot, HelloReg.boot]
  irTdo := by rintro x ⟨⟩
  ir := by rintro x ⟨⟩
  dr := by rintro x ⟨⟩
  held := by rintro x ⟨⟩
  shown := by rintro x ⟨⟩
  lags := by rintro x ⟨⟩

/-- The line out in the first half of an instruction shift cycle. -/
theorem irTdo_cycle (hfsm : fsm.Conforms abs) (hshift : abs (s.cycle fsm c).fsm = .shiftIr) :
    (s.cycle fsm c).tdo = (s.cycle fsm c).ir.getLsbD 0 := by
  have hq : abs (fsm.next s.fsm c.tms) = .shiftIr := hshift
  simp only [cycle, fall, tdoPre, rise, hfsm.shiftDr, hfsm.shiftIr, hq, reduceCtorEq,
    decide_true, decide_false, if_true, Bool.false_eq_true, if_false]

/-- **The instruction scan**, a cycle on. -/
theorem ir_cycle (h : Scanning abs s w) (hfsm : fsm.Conforms abs) :
    ∀ x ∈ (scanEvent fsm s c w).ir,
      (s.cycle fsm c).ir = scanned 0b101#5 x.tdi ∧ x.Streams 0b101#5 := by
  intro x hx
  unfold scanEvent at hx
  cases hreset : fsm.testLogicReset s.fsm with
  | true =>
    rw [hreset, if_pos rfl] at hx
    cases hx
  | false =>
    simp only [hreset, Bool.false_eq_true, if_false] at hx
    cases hcapture : fsm.captureIr s.fsm with
    | true =>
      rw [hcapture, if_pos rfl] at hx
      cases hx
      refine ⟨?_, Scan.each_capture _⟩
      simp only [cycle, rise, fall, hreset, hcapture, Bool.false_eq_true, if_false, if_true,
        Scan.tdi_capture, scanned_nil]
      rfl
    | false =>
      simp only [hcapture, Bool.false_eq_true, if_false] at hx
      cases hshift : fsm.shiftIr s.fsm with
      | true =>
        rw [hshift, if_pos rfl] at hx
        obtain ⟨y, hy, rfl⟩ := Option.map_eq_some_iff.mp hx
        obtain ⟨hir, hstreams⟩ := h.ir y hy
        have hstate : abs s.fsm = .shiftIr := by
          rw [hfsm.shiftIr, decide_eq_true_eq] at hshift
          exact hshift
        refine ⟨?_, hstreams.shift (by decide) _ ((h.irTdo y hy hstate).trans (by rw [hir]))⟩
        simp only [cycle, rise, fall, hreset, hcapture, hshift, Bool.false_eq_true, if_false,
          if_true, Scan.tdi_shift, scanned_concat, hir]
      | false =>
        simp only [hshift, Bool.false_eq_true, if_false] at hx
        obtain ⟨y, hy, rfl⟩ := Option.map_eq_some_iff.mp hx
        obtain ⟨hir, hstreams⟩ := h.ir y hy
        refine ⟨?_, hstreams⟩
        simp only [cycle, rise, fall, hreset, hcapture, hshift, Bool.false_eq_true, if_false,
          Scan.tdi_hold, hir]

/-- **What a cycle does to the data scan** and to the hello register. -/
theorem dr_scanEvent (hfsm : fsm.Conforms abs) {x : DrScan} (hx : x ∈ (scanEvent fsm s c w).dr) :
    (abs s.fsm = .captureDr ∧ x = ⟨s.ir, s.hello.dr.getLsbD 0, .capture⟩ ∧
        (s.cycle fsm c).hello.dr = helloCode) ∨
      (abs s.fsm = .shiftDr ∧ (∃ y ∈ w.dr, x = { y with scan := y.scan.shift c.tdi s.tdo }) ∧
        (s.cycle fsm c).hello.dr = scanIn s.hello.dr c.tdi) ∨
      (abs s.fsm ≠ .captureDr ∧ abs s.fsm ≠ .shiftDr ∧
        (∃ y ∈ w.dr, x = { y with scan := y.scan.hold }) ∧
        (s.cycle fsm c).hello.dr = s.hello.dr) := by
  simp only [scanEvent, hfsm.testLogicReset, hfsm.captureDr, hfsm.shiftDr, decide_eq_true_eq] at hx
  have hdr : (s.cycle fsm c).hello.dr =
      if abs s.fsm = .testLogicReset ∨ abs s.fsm = .captureDr then helloCode
      else if abs s.fsm = .shiftDr then scanIn s.hello.dr c.tdi else s.hello.dr := by
    simp only [cycle, fall, HelloReg.fall, rise, HelloReg.rise, hfsm.testLogicReset,
      hfsm.captureDr, hfsm.shiftDr, Bool.or_eq_true, decide_eq_true_eq]
  by_cases hreset : abs s.fsm = .testLogicReset
  · rw [if_pos hreset] at hx
    cases hx
  rw [if_neg hreset] at hx
  by_cases hcapture : abs s.fsm = .captureDr
  · simp only [if_pos hcapture] at hx
    cases hx
    exact Or.inl ⟨hcapture, rfl, by rw [hdr, if_pos (Or.inr hcapture)]⟩
  rw [if_neg (not_or.mpr ⟨hreset, hcapture⟩)] at hdr
  simp only [if_neg hcapture] at hx
  by_cases hshift : abs s.fsm = .shiftDr
  · rw [if_pos hshift] at hx hdr
    obtain ⟨y, hy, rfl⟩ := Option.map_eq_some_iff.mp hx
    exact Or.inr (Or.inl ⟨hshift, ⟨y, hy, rfl⟩, hdr⟩)
  · rw [if_neg hshift] at hx hdr
    obtain ⟨y, hy, rfl⟩ := Option.map_eq_some_iff.mp hx
    exact Or.inr (Or.inr ⟨hcapture, hshift, ⟨y, hy, rfl⟩, hdr⟩)

/-- The instruction stays during a data scan. -/
theorem ir_eq (hfsm : fsm.Conforms abs) (hopen : abs s.fsm = .captureDr ∨ (abs s.fsm).DrOpen) :
    (s.cycle fsm c).ir = s.ir := by
  have hir : (s.cycle fsm c).ir =
      if abs s.fsm = .testLogicReset then 0
      else if abs s.fsm = .captureIr then 0b101
      else if abs s.fsm = .shiftIr then scanIn s.ir c.tdi else s.ir := by
    simp only [cycle, fall, rise, hfsm.testLogicReset, hfsm.captureIr, hfsm.shiftIr,
      decide_eq_true_eq]
  rw [hir]
  cases hq : abs s.fsm <;> simp_all [TapState.DrOpen]

/-- The line out in the first half of a shift cycle of the hello register: what the register
showed before the rising edge. -/
theorem helloTdo_cycle (hfsm : fsm.Conforms abs) (hshift : abs (s.cycle fsm c).fsm = .shiftDr)
    (hir : (s.cycle fsm c).ir = opHello) : (s.cycle fsm c).tdo = s.hello.drTmp := by
  have hq : abs (fsm.next s.fsm c.tms) = .shiftDr := hshift
  have htdo : (s.cycle fsm c).tdo =
      if fsm.shiftDr (fsm.next s.fsm c.tms) then
        if (s.cycle fsm c).ir = opIdcode then c.idcodeTdo
        else if (s.cycle fsm c).ir = opBypass then c.bypassTdo
        else if (s.cycle fsm c).ir = opHello then s.hello.drTmp
        else c.bypassTdo
      else if fsm.shiftIr (fsm.next s.fsm c.tms) then (s.cycle fsm c).ir.getLsbD 0
      else false := rfl
  rw [htdo, hir, hfsm.shiftDr, hq, if_pos (decide_eq_true rfl), if_neg (by decide),
    if_neg (by decide), if_pos rfl]

/-- **The instruction of a data scan**, a cycle on. -/
theorem held_cycle (h : Scanning abs s w) (hfsm : fsm.Conforms abs) :
    ∀ x ∈ (scanEvent fsm s c w).dr, (abs (s.cycle fsm c).fsm).DrOpen →
      x.ir = (s.cycle fsm c).ir := by
  intro x hx hopen
  have hbefore : abs s.fsm = .captureDr ∨ (abs s.fsm).DrOpen := by
    have hq : abs (s.cycle fsm c).fsm = (abs s.fsm).next c.tms := hfsm.next s.fsm c.tms
    rw [hq] at hopen
    exact TapState.drOpen_next hopen
  rw [ir_eq hfsm hbefore]
  rcases dr_scanEvent hfsm hx with ⟨-, rfl, -⟩ | ⟨hq, ⟨y, hy, rfl⟩, -⟩ | ⟨hq, -, ⟨y, hy, rfl⟩, -⟩
  · rfl
  · exact h.held y hy (by rw [hq]; trivial)
  · exact h.held y hy (hbefore.resolve_left hq)

/-- **What a hello scan shows next**, a cycle on: the bit that the register had lowest before the
cycle's rising edge. -/
theorem shown_cycle (h : Scanning abs s w) (hfsm : fsm.Conforms abs) :
    ∀ x ∈ (scanEvent fsm s c w).dr, abs (s.cycle fsm c).fsm = .shiftDr → x.ir = opHello →
      (s.cycle fsm c).tdo =
        if x.scan.moved then x.scan.bitBefore x.old helloCode x.scan.edges.length
        else streamBit helloCode x.scan.tdi x.scan.edges.length := by
  intro x hx hshift hir
  have hheld := h.held_cycle hfsm x hx (by rw [hshift]; trivial)
  have hlow : ∀ y ∈ w.dr,
      s.hello.dr.getLsbD 0 = streamBit helloCode y.scan.tdi y.scan.edges.length := by
    intro y hy
    rw [h.dr y hy, getLsbD_scanned _ _ (by decide), Scan.length_tdi, Nat.add_zero]
  rw [helloTdo_cycle hfsm hshift (hheld.symm.trans hir), h.drTmp]
  rcases dr_scanEvent hfsm hx with ⟨-, rfl, -⟩ | ⟨-, ⟨y, hy, rfl⟩, -⟩ | ⟨-, -, ⟨y, hy, rfl⟩, -⟩
  -- straight after the capture the line still shows the register from before it
  · rfl
  -- straight after a shift it shows the bit just shifted out
  · have hlt : y.scan.edges.length < 32 + y.scan.tdi.length := by rw [Scan.length_tdi]; omega
    have hbit := streamBit_append helloCode hlt [c.tdi]
    rw [hlow y hy, ← hbit, ← Scan.tdi_shift y.scan c.tdi s.tdo]
    simp only [Scan.shift, Scan.bitBefore, List.length_append, List.length_singleton, if_true,
      Nat.add_one_ne_zero, if_false, Nat.add_sub_cancel]
  -- after a pause the extra register has caught up
  · exact hlow y hy

/-- **Step lemma.** Every cycle keeps the port in step with its scans. -/
theorem cycle (h : Scanning abs s w) (hfsm : fsm.Conforms abs) :
    Scanning abs (s.cycle fsm c) (scanEvent fsm s c w) where
  drTmp := rfl
  irTdo := fun _ _ hshift => irTdo_cycle hfsm hshift
  ir := h.ir_cycle hfsm
  dr := by
    intro x hx
    rcases dr_scanEvent hfsm hx with ⟨-, rfl, hdr⟩ | ⟨-, ⟨y, hy, rfl⟩, hdr⟩ |
      ⟨-, -, ⟨y, hy, rfl⟩, hdr⟩
    · exact hdr
    · rw [hdr, h.dr y hy, Scan.tdi_shift, scanned_concat]
    · rw [hdr, h.dr y hy, Scan.tdi_hold]
  held := h.held_cycle hfsm
  shown := h.shown_cycle hfsm
  lags := by
    intro x hx hir
    rcases dr_scanEvent hfsm hx with ⟨-, rfl, -⟩ | ⟨hq, ⟨y, hy, rfl⟩, -⟩ |
      ⟨-, -, ⟨y, hy, rfl⟩, -⟩
    · exact Scan.each_capture _
    · exact (h.lags y hy hir).shift (by decide) _ (h.shown y hy hq hir)
    · exact h.lags y hy hir

/-- **Run lemma.** The port is in step with its scans after every run. -/
theorem run (hfsm : fsm.Conforms abs) (q : σ) (tdo : Bool) (cs : List TckCycle) :
    Scanning abs (StepMachine.run (JTAGTAP.cycle fsm) (JTAGTAP.boot q tdo) cs)
      (scanLog fsm (JTAGTAP.boot q tdo) cs) :=
  run_record_invariant (fun _ _ _ h => h.cycle hfsm) (boot q tdo) cs

end Scanning

/-! ## What the scans read -/

/-- The scans in progress have read what they should: an instruction scan the captured `0b101` and
then the line in, which the instruction register, once shifted through, holds; a data scan of the
hello register its code and then the line in. -/
structure Reads (s : JTAGTAP σ) (w : ScanLog) : Prop where
  irStream : ∀ x, w.ir = some x → x.Streams 0b101#5
  ir : ∀ x, w.ir = some x → 5 ≤ x.edges.length → ∀ j < 5,
    s.ir.getLsbD j = x.tdi.getD (x.edges.length - 5 + j) false
  helloStream : ∀ x, w.dr = some x → x.ir = opHello → x.scan.Streams helloCode

/-- **When the scans read right.** Of every run, from power-on, of a port with a conforming
controller: instruction scans do, and a scan of the hello register does exactly if each of its
shift edges that comes straight after the capture or another shift edge is due a bit equal to the
one before it, which for the first is the bit that the register had lowest before its capture. -/
theorem tap_iff {fsm : JTAGTAPFSM σ} {abs : σ → TapState} (hfsm : fsm.Conforms abs) (q : σ)
    (tdo : Bool) (cs : List TckCycle) :
    Reads (run (cycle fsm) (boot q tdo) cs) (scanLog fsm (boot q tdo) cs) ↔
      ∀ x, (scanLog fsm (boot q tdo) cs).dr = some x → x.ir = opHello →
        x.scan.Even x.old helloCode := by
  have h := Scanning.run hfsm q tdo cs
  constructor
  · intro hreads x hx hir
    exact (h.lags x hx hir).streams_iff.mp (hreads.helloStream x hx hir)
  · intro heven
    refine ⟨fun x hx => (h.ir x hx).2, ?_, ?_⟩
    · intro x hx hlen j hj
      have hlen' : 5 ≤ x.tdi.length := by rwa [Scan.length_tdi]
      rw [(h.ir x hx).1, getLsbD_scanned_of_le _ hlen' hj, Scan.length_tdi]
    · intro x hx hir
      exact (h.lags x hx hir).streams_iff.mpr (heven x hx hir)

/-- From power-on, the instruction scan that selects the hello register, up to the capture of a
data scan. -/
def selectHello : List TckCycle :=
  [(false, false), (true, false), (true, false), (false, false), (false, false), (false, false),
    (false, true), (false, true), (false, false), (true, false), (true, false), (true, false),
    (false, false)].map fun (tms, tdi) => ⟨tms, tdi, false, false⟩

/-- Two bits of the hello word with a pause between them read right. -/
theorem tap_iff_paused :
    let cs := selectHello ++ [(false, false), (true, true), (false, false), (true, false),
      (false, false), (true, true)].map fun (tms, tdi) => ⟨tms, tdi, false, false⟩
    Reads (run (cycle JTAGTAPFSM.standard) (boot .testLogicReset false) cs)
      (scanLog JTAGTAPFSM.standard (boot .testLogicReset false) cs) := by
  intro cs
  refine (tap_iff JTAGTAPFSM.standard_conforms .testLogicReset false cs).mpr ?_
  have hlog : (scanLog JTAGTAPFSM.standard (boot .testLogicReset false) cs).dr =
      some ⟨opHello, true, ⟨[⟨true, true, true⟩, ⟨true, false, false⟩], true⟩⟩ := by decide
  intro x hx _
  rw [hlog] at hx
  cases hx
  unfold Scan.Even Scan.Each
  decide

/-- Two bits of it in a row do not: the second edge reads the first bit again. -/
theorem tap_lags :
    let cs := selectHello ++ List.replicate 3 ⟨false, false, false, false⟩
    ¬ Reads (run (cycle JTAGTAPFSM.standard) (boot .testLogicReset false) cs)
      (scanLog JTAGTAPFSM.standard (boot .testLogicReset false) cs) := by
  intro cs h
  exact absurd (h.helloStream _ rfl rfl 1 (by decide)) (by decide)

end JTAGTAP

end LiteSpiH4x
