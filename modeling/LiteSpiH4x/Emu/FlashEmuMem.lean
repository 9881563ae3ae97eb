import Mathlib.Logic.Function.Basic
import Mathlib.Tactic.Common

/-! # The emulator's byte memory and its two ports

`FlashEmuMem` is 256 bytes behind one synchronous port in a clock domain of its own. The CSR bit
`sel` gives port and clock to the SPI side (`sel = 0`) or to the loader on the system bus
(`sel = 1`), each by a multiplexer.

* **`FlashEmuMem.edge`** — an edge of the SPI or of the system clock, passed by the clock
  multiplexer only to the selected side.
* **`FlashEmuMem.mem_edge_spi`** — the SPI side never writes.
* **`FlashEmuMem.edge_sys_of_loader`** — the loader does while it is selected. -/

namespace LiteSpiH4x

/-- What a client drives on a memory port. -/
structure FakeMemoryPort where
  adr : BitVec 8
  datW : BitVec 8
  we : Bool
  deriving DecidableEq, Repr

/-- `MemoryPortMux`: the real port is driven by `p0` while `sel` is low and by `p1` while it is
high. -/
def MemoryPortMux.port (sel : Bool) (p0 p1 : FakeMemoryPort) : FakeMemoryPort where
  adr := if !sel then p0.adr else p1.adr
  datW := if !sel then p0.datW else p1.datW
  we := if !sel then p0.we else p1.we

/-- `val4addr`: the initial byte at an address, its four bytes folded by exclusive or. -/
def val4addr (addr : ℕ) : ℕ :=
  (addr &&& 0xff) ^^^ ((addr >>> 8) &&& 0xff) ^^^ ((addr >>> 16) &&& 0xff) ^^^
    ((addr >>> 24) &&& 0xff)

/-- The `init` list of the memory. -/
def initMem (a : BitVec 8) : BitVec 8 := BitVec.ofNat 8 (val4addr a.toNat)

/-- The memory, its registered read address, and the CSR bit that selects its side. -/
structure FlashEmuMem where
  /-- `sel_csr.fields.sel` -/
  sel : Bool
  /-- Contents of `mem`. -/
  mem : BitVec 8 → BitVec 8
  /-- The address `real_port` sampled at its last clock edge. -/
  memadr : BitVec 8

namespace FlashEmuMem

/-- `real_port.dat_r`: the byte at the sampled address. Both client ports see it. -/
def datR (m : FlashEmuMem) : BitVec 8 := m.mem m.memadr

/-- A clock edge of `spimem` with `p` on the real port: the address is sampled and, with `we`,
the byte written. -/
def clock (m : FlashEmuMem) (p : FakeMemoryPort) : FlashEmuMem :=
  { m with
    mem := if p.we then Function.update m.mem p.adr p.datW else m.mem
    -- the read address is registered, not the data: a write shows at once on `dat_r`
    memadr := p.adr }

/-- An edge of the SPI clock (`src = false`) or of the system clock (`src = true`). `clk_mux`
passes it to `spimem` if its side is selected. -/
def edge (m : FlashEmuMem) (src : Bool) (p0 p1 : FakeMemoryPort) : FlashEmuMem :=
  if m.sel = src then m.clock (MemoryPortMux.port m.sel p0 p1) else m

@[simp] theorem sel_edge (m : FlashEmuMem) (src : Bool) (p0 p1 : FakeMemoryPort) :
    (m.edge src p0 p1).sel = m.sel := by
  unfold edge
  split <;> rfl

/-- **An SPI edge writes nothing** when the SPI side never raises its write enable. -/
@[simp] theorem mem_edge_spi (m : FlashEmuMem) (adr datW : BitVec 8) (p1 : FakeMemoryPort) :
    (m.edge false ⟨adr, datW, false⟩ p1).mem = m.mem := by
  unfold edge
  split
  · rename_i h
    simp only [clock, MemoryPortMux.port, h, Bool.not_false, if_true, Bool.false_eq_true, if_false]
  · rfl

/-- An SPI edge with the SPI side selected samples the SPI side's address. -/
theorem memadr_edge_spi {m : FlashEmuMem} (h : m.sel = false) (p0 p1 : FakeMemoryPort) :
    (m.edge false p0 p1).memadr = p0.adr := by
  simp only [edge, h, if_true, clock, MemoryPortMux.port, Bool.not_false]

/-- A system edge while the SPI side is selected does nothing. -/
theorem edge_sys_of_spi {m : FlashEmuMem} (h : m.sel = false) (p0 p1 : FakeMemoryPort) :
    m.edge true p0 p1 = m := by
  simp only [edge, h, Bool.false_eq_true, if_false]

/-- A system edge while the loader is selected is a clock edge with the loader's port. -/
theorem edge_sys_of_loader {m : FlashEmuMem} (h : m.sel = true) (p0 p1 : FakeMemoryPort) :
    m.edge true p0 p1 = m.clock p1 := by
  simp [edge, h, MemoryPortMux.port]

end FlashEmuMem

end LiteSpiH4x
