import LiteSpiH4x.Emu.FlashEmu

/-! # The vendor's flash model

`MX25U25635F.v` is the behavioural model of the flash that the emulator stands in for; the bench has
it on the pins that FlashEmu passes on. This file embeds what it does on a standard SPI bus in its
power-up configuration: the command decoder, identification (`RDID`), read (`READ1X`), and the
commands without a meaning. Delays are left out: every output settles before the next change of
a pin. `RESET` is high.

* **`posedgeSclk`**, **`negedgeSclk`**, **`posedgeCs`**, **`negedgeCs`** — the blocks and tasks that
  wait for an edge.
* **`step`** — a change of the pins.
* **`so`** — the pin `SO`. -/

namespace LiteSpiH4x

open FlashEmu

/-- `STATE`. The commands whose branches are not embedded have a state of their own. -/
inductive MxState
  | standby
  | cmd
  | badCmd
  | otherCmd
  deriving DecidableEq, Repr

/-- Where the task `read_1xio` is, behind its trigger `Read_1XIO_Mode`. -/
inductive MxRead
  /-- Not triggered. -/
  | off
  /-- `wait ( SCLK == 1'b0 )` -/
  | waitSclk
  /-- In `dummy_cycle`, with rising edges to go. -/
  | dummyCycle (todo : ℕ)
  /-- In the loop, with `OUT_Buf` and `Dummy_Count`; a byte outside the array is unknown. -/
  | data (outBuf : Option (BitVec 8)) (dummyCount : ℕ)
  deriving DecidableEq, Repr

/-- The variables of the model that the embedded branches use. A single bit that may be unknown is
an `Option Bool`. -/
structure MX25U25635F where
  /-- `CS_INT`, the pin `CS` while the chip is enabled and not in reset. -/
  cs : Bool
  /-- Pin `SCLK`. -/
  sclk : Bool
  /-- Pin `SI`. -/
  si : Bool
  /-- `STATE` -/
  state : MxState
  /-- `CMD_BUS` -/
  cmdBus : BitVec 8
  /-- `SI_Reg` -/
  siReg : BitVec 32
  /-- `Bit_Tmp`, an `integer` -/
  bitTmp : BitVec 32
  /-- `Address` -/
  address : BitVec 25
  /-- `SI_IN_EN` -/
  siInEn : Bool
  /-- `SO_OUT_EN` -/
  soOutEn : Bool
  /-- `SIO1_Reg` -/
  sio1Reg : Option Bool
  /-- `SIO1_Out_Reg` -/
  sio1OutReg : Option Bool
  /-- `RDID_Mode` -/
  rdidMode : Bool
  /-- `Read_1XIO_Mode` -/
  read1xioMode : Bool
  /-- `Dummy_Count` of the task `read_id`, while it runs. -/
  readId : Option ℕ
  /-- The task `read_1xio`. -/
  read1xio : MxRead
  deriving DecidableEq, Repr

namespace MX25U25635F

/-- `RDID` -/
def rdid : BitVec 8 := 0x9f

/-- `READ1X` -/
def read1x : BitVec 8 := 0x03

/-- `NOP` -/
def nop : BitVec 8 := 0x00

/-- The other commands that the decoder has a branch for. -/
def otherCmds : List (BitVec 8) :=
  [0x06, 0x04, 0xb7, 0xe9, 0xaf, 0x05, 0x15, 0x01, 0xc0, 0x13, 0x0b, 0x0c, 0x20, 0x21, 0xd8, 0xdc,
    0x52, 0x5c, 0xb0, 0x30, 0x60, 0xc7, 0x02, 0x12, 0x5a, 0x16, 0x17, 0x18, 0xb9, 0xab, 0x90, 0xbb,
    0xbc, 0xb1, 0xc1, 0x2b, 0x2f, 0xc8, 0xc5, 0xeb, 0xea, 0xec, 0x3b, 0x3c, 0x6b, 0x6c, 0x38, 0x3e,
    0x35, 0xf5, 0x66, 0x99]

/-- `{ID_MXIC, Memory_Type, Memory_Density}` -/
def dummyId : BitVec 24 := 0xc2#8 ++ 0x25#8 ++ 0x39#8

/-- `TOP_Add` -/
def topAdd : ℕ := 0x1fffff

/-- `read_array`, with the initial contents of `ARRAY`: unknown outside its bounds. -/
def readArray (address : BitVec 25) : Option (BitVec 8) :=
  if address.toNat ≤ topAdd then some (BitVec.ofNat 8 (val4addr address.toNat)) else none

/-- The pin `SO`: floating, or driven to a level that may be unknown. -/
def so (m : MX25U25635F) : Option (Option Bool) := if m.soOutEn then some m.sio1OutReg else none

/-- `SIO1_Reg <= v` by a task that has raised `SO_OUT_EN`: the output buffer follows changes. -/
def drive (m : MX25U25635F) (v : Option Bool) : MX25U25635F :=
  { m with
    soOutEn := true
    siInEn := false
    sio1Reg := v
    sio1OutReg := if v = m.sio1Reg then m.sio1OutReg else v }

/-- `CMD_STATE`: the decoder, with `Bit` at `bit`. A rise of a mode triggers its task. -/
def decodeCmd (m : MX25U25635F) (bit : BitVec 32) : MX25U25635F :=
  if m.cmdBus = rdid then
    { m with
      rdidMode := true
      readId := if m.rdidMode then m.readId else some 24 }
  else if m.cmdBus = read1x then
    { m with
      -- three address bytes; bit 24 is `EA_Reg[0]`, which is zero
      address := if bit = 31 then (m.siReg.setWidth 24).setWidth 25 else m.address
      read1xioMode := true
      read1xio := if m.read1xioMode then m.read1xio else .waitSclk }
  else if m.cmdBus = nop then m
  else if m.cmdBus ∈ otherCmds then { m with state := .otherCmd }
  else { m with state := .badCmd }

/-- A rising edge in `dummy_cycle`; after the last one `read_1xio` loads its buffer. -/
def dummyEdge (m : MX25U25635F) : MX25U25635F :=
  match m.read1xio with
  | .dummyCycle (todo + 1) =>
    { m with read1xio := if todo = 0 then .data (readArray m.address) 8 else .dummyCycle todo }
  | _ => m

/-- The first part of a rising edge: the bit on `SI` is counted, and taken in while `SI` is
enabled. -/
def sample (m : MX25U25635F) : MX25U25635F :=
  { m with
    sclk := true
    bitTmp := m.bitTmp + 1
    -- `{8'b0, SI_Reg[22:0], SI}`
    siReg := if m.siInEn then ((m.siReg.shiftConcat m.si).setWidth 24).setWidth 32 else m.siReg }

/-- A rising edge of `SCLK` with `CS` low. -/
def posedgeSclk (m : MX25U25635F) : MX25U25635F :=
  let m := m.sample
  let bit := m.bitTmp - 1
  let m := if bit = 7 then { m with state := .cmd, cmdBus := m.siReg.setWidth 8 } else m
  -- the decoder looks again at every edge; `dummy_cycle` waits for the same edges, and reads
  -- the address a moment later
  (if m.state = .cmd then m.decodeCmd bit else m).dummyEdge

/-- A falling edge in the loop of `read_id`. -/
def readIdEdge (m : MX25U25635F) : MX25U25635F :=
  match m.readId with
  | none => m
  | some (n + 1) => { m.drive (some (dummyId.getLsbD n)) with readId := some n }
  | some 0 => { m.drive (some (dummyId.getLsbD 23)) with readId := some 23 }

/-- A falling edge in `read_function` and in the loop of `read_1xio`. -/
def read1xioEdge (m : MX25U25635F) : MX25U25635F :=
  match m.read1xio with
  | .off => m
  | .waitSclk => { m with read1xio := .dummyCycle 24 }
  | .dummyCycle _ => m
  | .data outBuf (n + 1) =>
    { m.drive (outBuf.map (·.getLsbD n)) with read1xio := .data outBuf n }
  | .data _ 0 =>
    let address := m.address + 1
    let outBuf := readArray address
    { m.drive (outBuf.map (·.getLsbD 7)) with
      address := address
      read1xio := .data outBuf 7 }

/-- A falling edge of `SCLK` with `CS` low. -/
def negedgeSclk (m : MX25U25635F) : MX25U25635F :=
  { m with sclk := false }.readIdEdge.read1xioEdge

/-- The chip is selected: `SI` is enabled, as fast boot is off. -/
def negedgeCs (m : MX25U25635F) : MX25U25635F := { m with cs := false, siInEn := true }

/-- The chip is deselected: outputs are released and tasks disabled. -/
def posedgeCs (m : MX25U25635F) : MX25U25635F :=
  { m with
    cs := true
    sio1Reg := none
    sio1OutReg := none
    soOutEn := false
    bitTmp := 0
    siInEn := false
    rdidMode := false
    read1xioMode := false
    state := .standby
    readId := none
    read1xio := .off }

/-- A change of the pins. -/
def step (m : MX25U25635F) : PinEvent → MX25U25635F
  | .lines csn _ si =>
    let m := { m with si := si }
    if m.cs && !csn then m.negedgeCs
    else if !m.cs && csn then m.posedgeCs
    else m
  | .sclk level =>
    if !m.cs && !m.sclk && level then m.posedgeSclk
    else if !m.cs && m.sclk && !level then m.negedgeSclk
    else { m with sclk := level }

/-- After power-up, with the chip enabled and `CS` high. -/
def boot (sclk si : Bool) : MX25U25635F where
  cs := true
  sclk := sclk
  si := si
  state := .standby
  cmdBus := 0
  siReg := 0
  bitTmp := 0
  address := 0
  siInEn := false
  soOutEn := false
  sio1Reg := some true
  sio1OutReg := some true
  rdidMode := false
  read1xioMode := false
  readId := none
  read1xio := .off

end MX25U25635F

end LiteSpiH4x
