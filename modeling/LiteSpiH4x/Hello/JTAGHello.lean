import LiteSpiH4x.Digital.ScanChain
import LiteSpiH4x.StepMachine.Run

/-! # JTAGHello

A user data register behind a vendor's JTAG primitive: its phases come in from outside, cycle by
cycle. It is captured and shifted on rising edges of TCK, and the line out takes its lowest bit on
falling ones, so every rising edge finds the line out in step with the register.

* **`JTAGHello.cycle`** — a TCK cycle, the rising edge and the falling one.
* **`scanLog`** — the scan in progress, as an analyser records it.
* **`tdo_stream`** — what it reads, whatever the phases do between the shift edges. -/

namespace LiteSpiH4x

open Digital StepMachine

/-- The registers of the hello register's two domains. -/
structure JTAGHello where
  /-- `hello_dr` -/
  helloDr : BitVec 32
  /-- `hello_inner_tdo` -/
  helloInnerTdo : Bool
  deriving DecidableEq, Repr

namespace JTAGHello

/-- `hello_dr.reset` -/
def helloDrReset : BitVec 32 := 0xAA00FF55

/-- What a TCK cycle finds on the inputs: the phases of `phy`, and `tdi`. -/
structure TckCycle where
  reset : Bool
  capture : Bool
  shift : Bool
  tdi : Bool
  deriving DecidableEq, Repr

/-- The registers at power-on. -/
def boot : JTAGHello where
  helloDr := helloDrReset
  helloInnerTdo := false

/-- The rising edge, in `jtag`. -/
def rise (s : JTAGHello) (c : TckCycle) : JTAGHello :=
  { s with
    helloDr :=
      if c.reset || c.capture then helloDrReset
      else if c.shift then scanIn s.helloDr c.tdi
      else s.helloDr }

/-- The falling edge, in `jtag_inv`. -/
def fall (s : JTAGHello) : JTAGHello := { s with helloInnerTdo := s.helloDr.getLsbD 0 }

/-- A TCK cycle. -/
def cycle (s : JTAGHello) (c : TckCycle) : JTAGHello := (s.rise c).fall

/-- Line `tdo`. -/
def tdo (s : JTAGHello) : Bool := s.helloInnerTdo

/-- Record a cycle: a reset or capture edge opens a scan, a shift edge extends it. -/
def scanEvent (s : JTAGHello) (c : TckCycle) (w : Option Scan) : Option Scan :=
  if c.reset || c.capture then some .capture
  else if c.shift then w.map fun x => x.shift c.tdi s.tdo
  else w.map Scan.hold

/-- The scan since the last reset or capture edge of a run, if it had one. -/
def scanLog (s : JTAGHello) (cs : List TckCycle) : Option Scan :=
  record cycle scanEvent s none cs

/-- What holds between the registers and the scan in progress after every run. -/
structure Scanning (s : JTAGHello) (w : Scan) : Prop where
  helloDr : s.helloDr = scanned helloDrReset w.tdi
  tdo : s.tdo = s.helloDr.getLsbD 0
  streams : w.Streams helloDrReset

/-- **Step lemma.** Every cycle keeps the registers in step with the scan. -/
theorem Scanning.cycle {s : JTAGHello} {w : Option Scan} (h : ∀ x ∈ w, Scanning s x)
    (c : TckCycle) : ∀ x ∈ scanEvent s c w, Scanning (s.cycle c) x := by
  unfold scanEvent
  split
  case isTrue hcapture =>
    -- a capture, whatever the register held and the line out showed
    rintro x ⟨⟩
    refine ⟨?_, rfl, Scan.each_capture _⟩
    simp only [JTAGHello.cycle, rise, fall, hcapture, if_true, Scan.tdi_capture, scanned_nil]
  case isFalse hcapture =>
    split
    case isTrue hshift =>
      intro x hx
      obtain ⟨y, hy, rfl⟩ := Option.map_eq_some_iff.mp hx
      have hs := h y hy
      refine ⟨?_, rfl, hs.streams.shift (by decide) _ (hs.tdo.trans (by rw [hs.helloDr]))⟩
      simp only [JTAGHello.cycle, rise, fall, hcapture, hshift, if_true, if_false, Scan.tdi_shift,
        scanned_concat, hs.helloDr, Bool.false_eq_true]
    case isFalse hshift =>
      intro x hx
      obtain ⟨y, hy, rfl⟩ := Option.map_eq_some_iff.mp hx
      have hs := h y hy
      refine ⟨?_, rfl, hs.streams⟩
      simp only [JTAGHello.cycle, rise, fall, hcapture, hshift, if_false, Scan.tdi_hold,
        hs.helloDr, Bool.false_eq_true]

/-- **Run lemma.** The registers are in step with the scan after every run. -/
theorem Scanning.run (s : JTAGHello) (cs : List TckCycle) :
    ∀ x ∈ scanLog s cs, Scanning (StepMachine.run JTAGHello.cycle s cs) x := by
  refine run_record_invariant (P := fun t (w : Option Scan) => ∀ x ∈ w, Scanning t x)
    (fun t w c h => Scanning.cycle h c) ?_ cs
  rintro x ⟨⟩

/-- **The scan stream.** In every run, from any registers, the shift edges since the last reset or
capture edge read the hello word, lowest bit first, and after its 32 bits the line in, 32 shift
edges late; cycles without a shift, of which there may be any number anywhere, do not count. -/
theorem tdo_stream (s : JTAGHello) (cs : List TckCycle) {x : Scan} (hx : scanLog s cs = some x)
    (j : ℕ) (hj : j < x.edges.length) :
    x.edges[j].tdo =
      if j < 32 then (0xAA00FF55#32).getLsbD j else x.edges[j - 32].tdi := by
  have h : x.edges[j].tdo = streamBit helloDrReset x.tdi j :=
    (Scanning.run s cs x hx).streams j hj
  rw [h, streamBit]
  split
  · rfl
  · have hlen : j - 32 < x.tdi.length := by
      rw [Scan.length_tdi]
      omega
    rw [List.getD_eq_getElem _ _ hlen]
    simp only [Scan.tdi, List.getElem_map]

/-- Two shift edges with a pause between them, straight after a capture. -/
theorem tdo_stream_paused :
    let cs : List TckCycle := [⟨false, true, false, false⟩, ⟨false, false, true, true⟩,
      ⟨false, false, false, false⟩, ⟨false, false, true, true⟩]
    let x : Scan := ⟨[⟨true, true, true⟩, ⟨true, false, false⟩], true⟩
    scanLog boot cs = some x ∧ x.edges[1].tdo = (0xAA00FF55#32).getLsbD 1 := by
  intro cs x
  have hlog : scanLog boot cs = some x := by decide
  exact ⟨hlog, tdo_stream boot cs hlog 1 (by decide)⟩

end JTAGHello

end LiteSpiH4x
