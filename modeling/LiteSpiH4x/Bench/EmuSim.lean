import LiteSpiH4x.Emu.FlashDevice
import LiteSpiH4x.StepMachine.Interleaving

/-! # The drivers of the emulator's bench

`emu_sim.py` drives FlashEmu from both sides: over its SPI pins, one assignment and half a clock
period at a time, and over the system bus, through the `sel` CSR and the memory's loader port. The
system clock runs all the while. A driver is the list of what it does, in order; the edges of the
system clock come in between.

* **`Bench`** / **`Bench.step`** — the emulator, what the driver has sampled so far, and whether
  its assertions held.
* **`BitSequence`**, **`CsrBus`** — what the drivers rely on of the bit string library and of the
  bus bridge.
* **`readFlashSpi`**, **`readFlashWb`**, **`writeFlashWb`**, .. — the drivers.
* **`Rest`**, **`During`** — what holds between operations and inside a transaction, with one rule
  for each thing a driver does. -/

namespace LiteSpiH4x

open Digital StepMachine FlashEmu

namespace EmuSim

/-! ## The bench -/

/-- What happens in the bench. -/
inductive Event
  /-- `q.csn <= level` -/
  | csn (level : Bool)
  /-- `q.rstn <= level` -/
  | rstn (level : Bool)
  /-- `q.sclk <= level` -/
  | sclk (level : Bool)
  /-- `q.si <= level` -/
  | si (level : Bool)
  /-- `assert q.sclk.value == 0` -/
  | assertSclk
  /-- The driver reads `q.so.value`. -/
  | sample
  /-- The `sel` CSR is written. -/
  | sel (level : Bool)
  /-- A system clock edge of a bus write, with `p` on the loader port. -/
  | sys (p : FakeMemoryPort)
  /-- A system clock edge of a bus read, after which the bus takes the loader port's data. -/
  | fetch (p : FakeMemoryPort)
  /-- Any other system clock edge: nothing is written. -/
  | idle (adr datW : BitVec 8)
  deriving DecidableEq, Repr

/-- What a driver does; the other edges of the system clock are not its own. -/
def Event.own : Event → Bool
  | .idle _ _ => false
  | _ => true

/-- The emulator in its bench. -/
structure Bench where
  emu : State
  /-- The bus log of the transaction in progress. -/
  log : BusLog
  /-- The samples of `q.so` taken so far. -/
  so : List (Option Bool)
  /-- The data the bus has returned so far. -/
  datrd : List (BitVec 8)
  /-- No assertion has failed. -/
  ok : Bool

namespace Bench

/-- A driver is called: nothing is sampled yet. -/
def start (s : State) : Bench := ⟨s, {}, [], [], true⟩

/-- Something happens to the emulator. -/
def emit (idcode : BitVec 24) (b : Bench) (e : FlashEmu.Event) : Bench :=
  { b with emu := FlashEmu.step idcode b.emu e, log := logEvent b.emu e b.log }

@[simp] theorem emu_emit (idcode : BitVec 24) (b : Bench) (e : FlashEmu.Event) :
    (b.emit idcode e).emu = FlashEmu.step idcode b.emu e := rfl

/-- One event of the bench. -/
def step (idcode : BitVec 24) (b : Bench) : Event → Bench
  | .csn level => b.emit idcode (.pin (.lines level b.emu.rstn b.emu.si))
  | .rstn level => b.emit idcode (.pin (.lines b.emu.csn level b.emu.si))
  | .sclk level => b.emit idcode (.pin (.sclk level))
  | .si level => b.emit idcode (.pin (.lines b.emu.csn b.emu.rstn level))
  | .assertSclk => { b with ok := b.ok && !b.emu.dom.clk }
  | .sample => { b with so := b.so ++ [b.emu.so] }
  | .sel level => b.emit idcode (.sel level)
  | .sys p => b.emit idcode (.sys p)
  | .fetch p =>
    let b' := b.emit idcode (.sys p)
    { b' with datrd := b'.datrd ++ [b'.emu.flashMem.datR] }
  | .idle adr datW => b.emit idcode (.sys ⟨adr, datW, false⟩)

end Bench

/-! ## What the drivers rely on -/

/-- The bit strings of the drivers, most significant bit first. -/
structure BitSequence where
  /-- `BitSequence(value, msb=True, length=length)` -/
  ofInt : (value length : ℕ) → List Bool
  /-- `BitSequence(0, length=length)` -/
  zeros : (length : ℕ) → List Bool
  /-- `seq.tobytes(msb=True)` -/
  tobytes : List Bool → List (BitVec 8)
  length_ofInt : ∀ value length, value < 2 ^ length → (ofInt value length).length = length
  msbVal_ofInt : ∀ value length, value < 2 ^ length → msbVal (ofInt value length) = value
  zeros_eq : ∀ length, 0 < length → zeros length = List.replicate length false
  tobytes_nil : tobytes [] = []
  tobytes_append : ∀ byte rest, byte.length = 8 →
    tobytes (byte ++ rest) = ofBits 8 byte :: tobytes rest

namespace BitSequence

/-- Eight bits make a byte; fewer bits that are left over make one, too. -/
def pack : List Bool → List (BitVec 8)
  | [] => []
  | a :: b :: c :: d :: e :: f :: g :: h :: rest => ofBits 8 [a, b, c, d, e, f, g, h] :: pack rest
  | rest => [ofBits 8 rest]

/-- Bit strings as lists of the bits of a number. -/
def msbFirst : BitSequence where
  ofInt := fun value length => (List.range length).map (BitVec.ofNat length value).getMsbD
  zeros := fun length => List.replicate length false
  tobytes := pack
  length_ofInt := fun value length _ => by rw [List.length_map, List.length_range]
  msbVal_ofInt := fun value length h => by
    rw [msbVal_map_getMsbD _ le_rfl, Nat.sub_self, pow_zero, Nat.div_one, BitVec.toNat_ofNat,
      Nat.mod_eq_of_lt h]
  zeros_eq := fun _ _ => rfl
  tobytes_nil := rfl
  tobytes_append := fun byte rest h => by
    match byte, h with
    | [_, _, _, _, _, _, _, _], _ => rfl

end BitSequence

/-- The bridge from the bench's bus master to the CSRs: how a bus cycle at word `adr` of the
memory's region, or a write of the `sel` CSR, shows at the emulator. -/
structure CsrBus where
  /-- `send_cycle([WBOp(flash_mem_wb_base + adr, dat=dat)])` -/
  write : (adr : ℕ) → (dat : BitVec 8) → List Event
  /-- `send_cycle([WBOp(flash_mem_wb_base + adr)])` -/
  read : (adr : ℕ) → List Event
  /-- `send_cycle([WBOp(flash_mem_sel_ptr, dat=level)])` -/
  setSel : (level : Bool) → List Event
  write_own : ∀ adr dat, adr < 0x100 →
    (write adr dat).filter Event.own = [.sys ⟨BitVec.ofNat 8 adr, dat, true⟩]
  read_own : ∀ adr, adr < 0x100 → ∃ datW,
    (read adr).filter Event.own = [.fetch ⟨BitVec.ofNat 8 adr, datW, false⟩]
  setSel_own : ∀ level, (setSel level).filter Event.own = [.sel level]

/-- A bridge that takes two edges for each cycle and works on the second. -/
def CsrBus.twoCycle : CsrBus where
  write := fun adr dat =>
    [.idle (BitVec.ofNat 8 adr) dat, .sys ⟨BitVec.ofNat 8 adr, dat, true⟩]
  read := fun adr =>
    [.idle (BitVec.ofNat 8 adr) 0, .fetch ⟨BitVec.ofNat 8 adr, 0, false⟩]
  setSel := fun level => [.idle 0 (BitVec.ofBool level |>.setWidth 8), .sel level]
  write_own := fun _ _ _ => rfl
  read_own := fun _ _ => ⟨0, rfl⟩
  setSel_own := fun _ => rfl

/-! ## The drivers -/

/-- `spi_txfr_start` -/
def spiTxfrStart : List Event := [.csn false]

/-- `spi_txfr_end` -/
def spiTxfrEnd : List Event := [.csn true]

/-- `tick_si`, one bit: the line is read while the rise of the clock is only scheduled. -/
def tick (writeOnly : Bool) (di : Bool) : List Event :=
  [.si di, .assertSclk] ++ (if writeOnly then [] else [.sample]) ++ [.sclk true, .sclk false]

/-- `tick_si` -/
def tickSi (si : List Bool) (writeOnly : Bool) : List Event := si.flatMap (tick writeOnly)

/-- `tick_so` -/
def tickSo (seq : BitSequence) (nbits : ℕ) (writeOnly : Bool) : List Event :=
  tickSi (seq.zeros nbits) writeOnly

/-- `reset_flash_lines` -/
def resetFlashLines : List Event := [.sclk false, .rstn true, .csn true, .si false]

/-- `reset_flash` -/
def resetFlash : List Event :=
  resetFlashLines ++ [.rstn false] ++
    (List.range 5).flatMap (fun _ => [.sclk true, .sclk false]) ++ [.rstn true]

/-- `read_flash_id` -/
def readFlashId (seq : BitSequence) : List Event :=
  spiTxfrStart ++ tickSi (seq.ofInt 0x9f 8) true ++ tickSo seq (3 * 8) false ++ spiTxfrEnd

/-- `read_flash_spi` -/
def readFlashSpi (seq : BitSequence) (addr sz : ℕ) : List Event :=
  spiTxfrStart ++ tickSi (seq.ofInt 0x03 8 ++ seq.ofInt addr 24) true ++
    tickSo seq (sz * 8) false ++ spiTxfrEnd

/-- The tests that send a command and sample nothing: `length` bits of `cmd`, then `nbits` more
clocks if there are any. -/
def command (seq : BitSequence) (cmd length nbits : ℕ) : List Event :=
  spiTxfrStart ++ tickSi (seq.ofInt cmd length) true ++
    (if nbits = 0 then [] else tickSo seq nbits true) ++ spiTxfrEnd

/-- `enable_write` -/
def enableWrite (seq : BitSequence) : List Event := command seq 0x06 8 0

/-- `read_status_wel`, `read_status_wip` and `read_status_qe` -/
def readStatus (seq : BitSequence) : List Event := command seq 0x05 8 8

/-- `enable_quad_mode` -/
def enableQuadMode (seq : BitSequence) : List Event := command seq 0x0140 16 0

/-- `read_first_four_bytes_qmode` -/
def readFirstFourBytesQmode (seq : BitSequence) : List Event := command seq 0x6b000004 32 (4 * 8)

/-- `read_flash_wb` -/
def readFlashWb (bus : CsrBus) (addr sz : ℕ) : List Event :=
  bus.setSel true ++ (List.range sz).flatMap (fun i => bus.read (addr + i)) ++ bus.setSel false

/-- `write_flash_wb` -/
def writeFlashWb (bus : CsrBus) (addr : ℕ) (buf : List (BitVec 8)) : List Event :=
  bus.setSel true ++ buf.zipIdx.flatMap (fun x => bus.write (addr + x.2) x.1) ++
    bus.setSel false

end EmuSim

end LiteSpiH4x
