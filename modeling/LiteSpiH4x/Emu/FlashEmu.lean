import LiteSpiH4x.Digital.ClockDomains
import LiteSpiH4x.Emu.CmdFsm
import LiteSpiH4x.Emu.FlashEmuMem
import LiteSpiH4x.StepMachine.Run

/-! # FlashEmu

The SPI flash emulator with its byte memory on chip: the command state machine in the `spi`
domain (clock `sclk`), the output registers in the `spi_inv` domain (clock `~sclk`), both under
a reset that `~rstn | csn` raises, and `FlashEmuMem` behind the SPI and loader ports.

* **`Regs.next`** — an edge of `sclk` for the registers of the `spi` domain.
* **`State.pins`** / **`step`** — a change of the pins, of `sel`, or a system clock edge.
* **`Inv`** — after every run, the front end is `Front.decode` of the bits logged since the reset
  was released, and the output enable is the one decoded at the last falling edge. -/

namespace LiteSpiH4x

open Digital StepMachine

namespace FlashEmu

/-- The registers of the `spi` clock domain. -/
structure Regs extends CmdRegs where
  /-- `dr` -/
  dr : BitVec 8
  /-- `qmode` -/
  qmode : Bool
  deriving DecidableEq, Repr

namespace Regs

/-- The registers after an edge with the domain's reset up. -/
def reset (idcode : BitVec 24) (esi : Bool) : Regs where
  toCmdRegs := CmdRegs.reset idcode esi
  dr := 0
  qmode := false

/-- `dr_tmp`: at the first bit of a byte the memory's output, afterwards the shift register. -/
def drTmp (r : Regs) (datR : BitVec 8) : BitVec 8 := if r.drBitCnt = 0 then datR else r.dr

/-- `eso` -/
def eso (r : Regs) (datR : BitVec 8) : Bool :=
  match r.state with
  | .rdid => r.idcode.msb
  | .readGetData => (r.drTmp datR).msb
  | _ => false

/-- `eso_oe` -/
def esoOe (r : Regs) : Bool :=
  match r.state with
  | .rdid => true
  | .readGetData => true
  | _ => false

/-- The `cmd_fsm` clauses: the registers after an edge of the `spi` clock with reset down. -/
def next (r : Regs) (esi : Bool) (datR : BitVec 8) : Regs :=
  match r.state with
  | .getCmd =>
    let cmdNext := r.cmdNext esi
    { r with
      cmd := cmdNext
      cmdBitCnt := r.cmdBitCnt + 1
      state :=
        if r.cmdBitCnt = 7 then
          if cmdNext = cmdRead then .readGetAddr
          else if cmdNext = cmdQread then .readGetAddr
          else if cmdNext = cmdRdid then .rdid
          else .badCmdErr
        else r.state
      -- only the second branch of the source's `If` assigns `qmode`
      qmode :=
        if r.cmdBitCnt = 7 then
          if cmdNext = cmdRead then r.qmode
          else if cmdNext = cmdQread then true
          else r.qmode
        else r.qmode }
  | .rdid => { r with idcode := r.idcode.shiftConcat r.idcode.msb }
  | .readGetAddr =>
    { r with
      addr := r.addrNext esi
      addrCnt := r.addrCnt + 1
      state := if r.addrCnt = 23 then .readGetData else r.state }
  | .readGetData =>
    { r with
      -- three bits: the counter wraps after eight single bits or two nibbles
      drBitCnt := if !r.qmode then r.drBitCnt + 1 else r.drBitCnt + 4
      -- the source shifts by one bit in quad mode too
      dr := (r.drTmp datR).shiftConcat false
      addr := if r.drBitCnt = 7 ∨ r.drBitCnt = 4 ∧ r.qmode = true then r.addrNext esi else r.addr }
  | .badCmdErr => r

/-- The part of the registers that the bits received determine. -/
def front (r : Regs) : Front where
  toCmdRegs := r.toCmdRegs
  qmode := r.qmode

/-- The reset edge resets the front end. -/
@[simp] theorem front_reset (idcode : BitVec 24) (esi : Bool) :
    (reset idcode esi).front = Front.reset idcode esi := rfl

/-- **The clock edge of the front end** does not depend on read data. -/
theorem front_next (r : Regs) (esi : Bool) (datR : BitVec 8) :
    (r.next esi datR).front = r.front.next true esi := by
  obtain ⟨⟨state, cmdBitCnt, cmd, addr, addrCnt, drBitCnt, idcode⟩, dr, qmode⟩ := r
  cases state
  case getCmd =>
    have hne : cmdQread ≠ cmdRead := by decide
    simp only [next, front, Front.next, CmdRegs.cmdNext, Front.accept, true_and]
    by_cases h7 : cmdBitCnt = 7
    · by_cases hr : cmd.shiftConcat esi = cmdRead
      · simp only [h7, hr, hne.symm, if_true, if_false, and_false]
      · by_cases hq : cmd.shiftConcat esi = cmdQread
        · simp only [h7, hq, hne, if_true, if_false, and_true]
        · simp only [h7, hr, hq, if_true, if_false, and_false]
          rfl
    · simp only [h7, if_false, false_and]
  case readGetData =>
    cases qmode <;> simp [next, front, Front.next, CmdRegs.addrNext]
  all_goals rfl

end Regs

/-- The emulator and the pins it is wired to. The level of `sclk` is the clock of `dom`. -/
structure State where
  /-- Pin `qes.csn`. -/
  csn : Bool
  /-- Pin `qes.rstn`. -/
  rstn : Bool
  /-- Pin `qes.si`, read as `esi`. -/
  si : Bool
  /-- Clock `sclk` and the resets of `cd_spi` and `cd_spi_inv`. -/
  dom : DomainPair
  /-- Registers of `cd_spi`. -/
  regs : Regs
  /-- `eso_delayed`, in `cd_spi_inv` -/
  esoDelayed : Bool
  /-- `eso_oe_delayed`, in `cd_spi_inv` -/
  esoOeDelayed : Bool
  /-- `loader_port` as the system bus drives it. -/
  lmp : FakeMemoryPort
  /-- The memory. -/
  flashMem : FlashEmuMem

/-- Changes of the SPI pins. Edges of `sclk` come one at a time; the level pins may change
together. -/
inductive PinEvent
  | lines (csn rstn si : Bool)
  | sclk (level : Bool)
  deriving DecidableEq, Repr

/-- What can happen to the emulator: a change of its pins, a write of the `sel` CSR, or a system
clock edge with `p` on the loader port. -/
inductive Event
  | pin (e : PinEvent)
  | sel (level : Bool)
  | sys (p : FakeMemoryPort)
  deriving DecidableEq, Repr

/-- The reset input `~rstn | csn`. -/
def resetInput (csn rstn : Bool) : Bool := !rstn || csn

namespace State

/-- `spiemu_port`: the address is `addr_next`, the write enable is never driven. -/
def fmp (s : State) (esi : Bool) : FakeMemoryPort where
  adr := (s.regs.addrNext esi).setWidth 8
  datW := 0
  we := false

/-- `eso_ts.o` -/
def esoTsO (s : State) : Bool := s.esoDelayed

/-- `eso_ts.oe` -/
def esoTsOe (s : State) : Bool := s.esoOeDelayed && !s.dom.rstInv

/-- The pins take new levels. A rising edge of `sclk` clocks the `spi` domain and, if it is
selected, the memory; a falling one clocks the `spi_inv` domain. -/
def pins (idcode : BitVec 24) (s : State) (csn rstn sclk si : Bool) : State :=
  let input := resetInput csn rstn
  { s with
    csn := csn
    rstn := rstn
    si := si
    dom := s.dom.drive sclk input
    regs :=
      if s.dom.rises sclk then
        -- synchronous reset: the edge that finds the reset up loads the reset values
        (if s.dom.rstNow input then Regs.reset idcode si else s.regs.next si s.flashMem.datR)
      else s.regs
    flashMem :=
      -- `clk_mux` passes the edge on whether or not `csn` is low
      if s.dom.rises sclk then s.flashMem.edge false (s.fmp si) s.lmp else s.flashMem
    esoDelayed :=
      if s.dom.falls sclk then
        (if s.dom.rstInvNow input then false else s.regs.eso s.flashMem.datR)
      else s.esoDelayed
    esoOeDelayed :=
      if s.dom.falls sclk then (if s.dom.rstInvNow input then false else s.regs.esoOe)
      else s.esoOeDelayed }

variable {idcode : BitVec 24} {s : State} {sclk : Bool}

/-- A rising edge of `sclk`. -/
theorem pins_of_rises (h : s.dom.rises sclk = true) (csn rstn si : Bool) :
    s.pins idcode csn rstn sclk si =
      { s with
        csn := csn, rstn := rstn, si := si
        dom := ⟨true, resetInput csn rstn, s.dom.rstInv || resetInput csn rstn⟩
        regs := if s.dom.rstNow (resetInput csn rstn) then Regs.reset idcode si
          else s.regs.next si s.flashMem.datR
        flashMem := s.flashMem.edge false (s.fmp si) s.lmp } := by
  simp only [pins, h, DomainPair.not_falls_of_rises h, DomainPair.drive_of_rises h, if_true,
    Bool.false_eq_true, if_false]

/-- A falling edge of `sclk`. -/
theorem pins_of_falls (h : s.dom.falls sclk = true) (csn rstn si : Bool) :
    s.pins idcode csn rstn sclk si =
      { s with
        csn := csn, rstn := rstn, si := si
        dom := ⟨false, s.dom.rst || resetInput csn rstn, resetInput csn rstn⟩
        esoDelayed := if s.dom.rstInvNow (resetInput csn rstn) then false
          else s.regs.eso s.flashMem.datR
        esoOeDelayed := if s.dom.rstInvNow (resetInput csn rstn) then false
          else s.regs.esoOe } := by
  simp only [pins, h, DomainPair.not_rises_of_falls h, DomainPair.drive_of_falls h, if_true,
    Bool.false_eq_true, if_false]

/-- A change of the pins without an edge of `sclk`. -/
theorem pins_of_still (hr : s.dom.rises sclk = false) (hf : s.dom.falls sclk = false)
    (csn rstn si : Bool) :
    s.pins idcode csn rstn sclk si =
      { s with
        csn := csn, rstn := rstn, si := si
        dom := ⟨s.dom.clk, s.dom.rst || resetInput csn rstn,
          s.dom.rstInv || resetInput csn rstn⟩ } := by
  simp only [pins, hr, hf, DomainPair.drive_of_still hr hf, Bool.false_eq_true, if_false]

end State

/-- One event. -/
def step (idcode : BitVec 24) (s : State) : Event → State
  | .pin (.lines csn rstn si) => s.pins idcode csn rstn s.dom.clk si
  | .pin (.sclk level) => s.pins idcode s.csn s.rstn level s.si
  -- a write of the CSR switches port and clock, and is no clock edge of the memory by itself
  | .sel level => { s with flashMem := { s.flashMem with sel := level } }
  | .sys p => { s with lmp := p, flashMem := s.flashMem.edge true (s.fmp s.si) p }

/-- The emulator at power-on with `csn` high: registers at their initial values, both resets up,
the SPI side selected. -/
def boot (idcode : BitVec 24) (rstn sclk si : Bool) : State where
  csn := true
  rstn := rstn
  si := si
  dom := ⟨sclk, true, true⟩
  regs := { CmdRegs.reset idcode false with cmd := 0, dr := 0, qmode := false }
  esoDelayed := false
  esoOeDelayed := false
  lmp := ⟨0, 0, false⟩
  flashMem := ⟨false, initMem, 0⟩

/-- A host clocks in bits: for each, the line is set, `sclk` rises and falls. -/
def clockIn (bits : List Bool) : List Event :=
  bits.flatMap fun b => [.pin (.lines false true b), .pin (.sclk true), .pin (.sclk false)]

/-! ## The bus log -/

/-- The bus log of the transaction in progress: cleared while the reset input is high, otherwise
extended by the edges of `sclk`. -/
def logEvent (s : State) (e : Event) (w : BusLog) : BusLog :=
  match e with
  | .pin (.lines csn rstn si) => w.next s.dom s.dom.clk (resetInput csn rstn) si s.esoDelayed
  | .pin (.sclk level) => w.next s.dom level (resetInput s.csn s.rstn) s.si s.esoDelayed
  | _ => w

/-- The bus log after a run. -/
def busLog (idcode : BitVec 24) (s : State) (es : List Event) : BusLog :=
  record (step idcode) logEvent s {} es

/-- **The pin rule.** A relation between emulator and log that survives every change of the pins,
and that neither `sel` nor a system clock edge disturbs, survives every event. -/
theorem step_cases {idcode : BitVec 24} {P : State → BusLog → Prop} {s : State} {w : BusLog}
    (hpins : ∀ csn rstn sclk si,
      P (s.pins idcode csn rstn sclk si) (w.next s.dom sclk (resetInput csn rstn) si s.esoDelayed))
    (hsel : ∀ level, P { s with flashMem := { s.flashMem with sel := level } } w)
    (hsys : ∀ p, P { s with lmp := p, flashMem := s.flashMem.edge true (s.fmp s.si) p } w)
    (e : Event) : P (step idcode s e) (logEvent s e w) := by
  match e with
  | .pin (.lines csn rstn si) => exact hpins csn rstn s.dom.clk si
  | .pin (.sclk level) => exact hpins s.csn s.rstn level s.si
  | .sel level => exact hsel level
  | .sys p => exact hsys p

/-! ## The front end along a run -/

/-- The output enable that a transaction asks for after the given bits. -/
def oeAfter (bits : List Bool) : Bool :=
  decide (8 ≤ bits.length ∧ Front.opcode bits = cmdRdid) ||
    decide (32 ≤ bits.length ∧ Front.IsRead true (Front.opcode bits))

/-- The decoded front end drives the line in an identification read from its ninth clock and in
a read from its 33rd. -/
theorem esoOe_of_front {r : Regs} {idcode : BitVec 24} {bits : List Bool}
    (h : r.front = Front.decode true idcode bits) : r.esoOe = oeAfter bits := by
  have hstate : r.state = (Front.decode true idcode bits).state := by rw [← h]; rfl
  rw [Regs.esoOe, hstate, oeAfter]
  rcases lt_or_ge bits.length 8 with hlt | h8
  · simp [Front.decode_header hlt, show ¬ 8 ≤ bits.length by omega,
      show ¬ 32 ≤ bits.length by omega]
  -- after the opcode: an identification read drives at once, a read after its address
  by_cases hid : Front.opcode bits = cmdRdid
  · simp [Front.decode_rdid h8 hid, h8, hid]
  by_cases hread : Front.IsRead true (Front.opcode bits)
  · rcases lt_or_ge bits.length 32 with hlt | h32
    · simp [Front.decode_addr h8 hlt hread, hid, show ¬ 32 ≤ bits.length by omega]
    · simp [Front.decode_data h32 hread, hread, h32]
  · simp [Front.decode_bad h8 hid hread, hid, hread]

/-- Before the opcode is complete nothing is driven. -/
theorem oeAfter_of_short {bits : List Bool} (h : bits.length < 8) : oeAfter bits = false := by
  simp [oeAfter, show ¬ 8 ≤ bits.length by omega, show ¬ 32 ≤ bits.length by omega]

/-- What holds between the emulator and its bus log after every run. -/
structure Inv (idcode : BitVec 24) (s : State) (w : BusLog) : Prop where
  /-- The log is in step with the two clock domains. -/
  tracks : Tracks s.dom (resetInput s.csn s.rstn) w
  /-- The front end has decoded the logged bits. -/
  front : w.rises ≠ [] → s.regs.front = Front.decode true idcode w.bits
  /-- The registered output enable was decoded at the last falling edge. -/
  oe : ∀ f, w.fallen = some f → s.esoOeDelayed = oeAfter (w.bits.take f)

namespace Inv

variable {idcode : BitVec 24} {s : State} {w : BusLog}

/-- Under an asserted reset the invariant holds of the empty log. -/
theorem of_held (hrst : s.dom.rst = true) (hinv : s.dom.rstInv = true) : Inv idcode s {} where
  tracks := Tracks.of_held hrst hinv
  front := fun h => absurd rfl h
  oe := fun _ h => by cases h

/-- At power-on. -/
theorem boot (rstn sclk si : Bool) : Inv idcode (FlashEmu.boot idcode rstn sclk si) {} :=
  of_held rfl rfl

/-- A change of the pins keeps the invariant. -/
theorem pins (h : Inv idcode s w) (csn rstn sclk si : Bool) :
    Inv idcode (s.pins idcode csn rstn sclk si)
      (w.next s.dom sclk (resetInput csn rstn) si s.esoDelayed) where
  tracks := h.tracks.next sclk (resetInput csn rstn) si s.esoDelayed
  front := by
    refine h.tracks.register (P := fun bits (r : Regs) => r.front = Front.decode true idcode bits)
      h.front ?_ fun _ _ _ hr => ?_
    · rw [Regs.front_reset, Front.decode_singleton]
    · rw [Regs.front_next, hr, Front.decode_concat]
  oe := by
    refine h.tracks.inverse_register (Q := fun bits (q : Bool) => q = oeAfter bits) h.oe ?_
      fun _ _ hne => esoOe_of_front (h.front hne)
    intro bits hshort
    rw [oeAfter_of_short (by omega)]

/-- **Step lemma.** Every event keeps the invariant. -/
theorem step (h : Inv idcode s w) (e : Event) :
    Inv idcode (FlashEmu.step idcode s e) (logEvent s e w) :=
  step_cases (P := Inv idcode) h.pins (fun _ => ⟨h.tracks, h.front, h.oe⟩)
    (fun _ => ⟨h.tracks, h.front, h.oe⟩) e

/-- **Run lemma.** The invariant holds after every run from power-on. -/
theorem run (rstn sclk si : Bool) (es : List Event) :
    Inv idcode (StepMachine.run (FlashEmu.step idcode) (FlashEmu.boot idcode rstn sclk si) es)
      (busLog idcode (FlashEmu.boot idcode rstn sclk si) es) :=
  run_record_invariant (fun _ _ e h => h.step e) (Inv.boot rstn sclk si) es

end Inv

end FlashEmu

end LiteSpiH4x
