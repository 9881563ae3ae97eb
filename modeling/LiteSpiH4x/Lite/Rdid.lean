import LiteSpiH4x.Emu.FlashEmu
import LiteSpiH4x.Lite.FlashEmuLite

/-! # The identification stream of both emulators

In `rdid` the register `idcode` rotates in place, and the next transaction's reset edge restores
it. The line out shows its highest bit, half a clock late.

* **`RdidOut`** — what the line out owes after the opcode, as a function of the bits taken in.
* **`rdid_stream`** — rising edge `9 + i` samples bit `23 - i mod 24`, in both. -/

namespace LiteSpiH4x

open Digital StepMachine

/-- What an identification read shifts out after its opcode: `idcode` from the top, repeated. -/
def RdidOut (idcode : BitVec 24) (bits : List Bool) (so : Bool) : Prop :=
  8 ≤ bits.length → Front.opcode bits = cmdRdid → so = idcode.getMsbD ((bits.length - 8) % 24)

/-- Nothing is owed while the opcode comes in. -/
theorem RdidOut.of_short {idcode : BitVec 24} {bits : List Bool} (h : bits.length < 8) (so : Bool) :
    RdidOut idcode bits so := fun h8 => absurd h8 (by omega)

/-- The decoded front end of an identification read has rotated `idcode` once per further bit. -/
theorem Front.rdid_regs {quad : Bool} {idcode : BitVec 24} {bits : List Bool} {f : Front}
    (h : f = Front.decode quad idcode bits) (h8 : 8 ≤ bits.length)
    (hop : Front.opcode bits = cmdRdid) :
    f.state = .rdid ∧ f.idcode.msb = idcode.getMsbD ((bits.length - 8) % 24) := by
  rw [h, Front.decode_rdid h8 hop]
  exact ⟨rfl, msb_rotl_iterate idcode _⟩

/-- Bit `i` of the stream, from the log of the line out. -/
theorem RdidOut.bit {idcode : BitVec 24} {w : BusLog} (h : w.Emits (RdidOut idcode))
    (hop : Front.opcode w.bits = cmdRdid) {i : ℕ} (hi : 8 + i < w.rises.length) :
    w.rises[8 + i].2 = idcode.getLsbD (23 - i % 24) := by
  have hlen : (w.bits.take (8 + i)).length = 8 + i := by
    rw [List.length_take, BusLog.length_bits, Nat.min_eq_left hi.le]
  have hbit := h (8 + i) hi (by omega) (by rw [Front.opcode_take (by omega), hop])
  have hmod : i % 24 < 24 := Nat.mod_lt _ (by omega)
  rw [hbit, hlen, Nat.add_sub_cancel_left, BitVec.getMsbD_eq_getLsbD]
  simp only [hmod, decide_true, Bool.true_and]

namespace FlashEmu

variable {idcode : BitVec 24} {s : State} {w : BusLog}

/-- A change of the pins keeps the line out to the identification stream. -/
theorem Inv.rdid_pins (h : Inv idcode s w) (hs : w.Shows (RdidOut idcode) s.esoDelayed)
    (csn rstn sclk si : Bool) :
    (w.next s.dom sclk (resetInput csn rstn) si s.esoDelayed).Shows (RdidOut idcode)
      (s.pins idcode csn rstn sclk si).esoDelayed := by
  refine h.tracks.shows hs (fun bits q hb => RdidOut.of_short (by omega) q) ?_ _ si
  intro _ _ hne h8 hop
  -- the falling edge loads the highest bit of the rotated register
  obtain ⟨hstate, hmsb⟩ := Front.rdid_regs (h.front hne) h8 hop
  have hstate' : s.regs.state = .rdid := hstate
  rw [Regs.eso, hstate']
  exact hmsb

/-- **Run lemma.** The line out keeps to the identification stream. -/
theorem rdid_shows (idcode : BitVec 24) (rstn sclk si : Bool) (es : List Event) :
    (busLog idcode (boot idcode rstn sclk si) es).Shows (RdidOut idcode)
      (run (step idcode) (boot idcode rstn sclk si) es).esoDelayed := by
  suffices h : Inv idcode (run (step idcode) (boot idcode rstn sclk si) es)
      (busLog idcode (boot idcode rstn sclk si) es) ∧
      (busLog idcode (boot idcode rstn sclk si) es).Shows (RdidOut idcode)
        (run (step idcode) (boot idcode rstn sclk si) es).esoDelayed from h.2
  refine run_record_invariant
    (P := fun s (w : BusLog) => Inv idcode s w ∧ w.Shows (RdidOut idcode) s.esoDelayed)
    (fun s w e h => ⟨h.1.step e, ?_⟩) ⟨Inv.boot rstn sclk si, BusLog.Shows.empty _ _⟩ es
  · match e with
    | .pin (.lines csn rstn si) => exact h.1.rdid_pins h.2 csn rstn s.dom.clk si
    | .pin (.sclk level) => exact h.1.rdid_pins h.2 s.csn s.rstn level s.si
    | .sel level => exact h.2
    | .sys p => exact h.2

end FlashEmu

namespace FlashEmuLite

variable {cfg : LiteConfig} {idcode : BitVec 24} {mem : cfg.Addr → cfg.Word} {s : State cfg}
  {w : BusLog}

/-- A change of the pins keeps the line out to the identification stream. -/
theorem Inv.rdid_pins (h : Inv idcode s w) (hs : w.Shows (RdidOut idcode) s.esoDelayed)
    (csn sclk si : Bool) :
    (w.next s.dom (sclk && !csn) csn si s.esoDelayed).Shows (RdidOut idcode)
      (s.pins idcode csn sclk si).esoDelayed := by
  refine h.tracks.shows hs (fun bits q hb => RdidOut.of_short (by omega) q) ?_ _ si
  intro _ _ hne h8 hop
  -- the falling edge loads the highest bit of the rotated register
  obtain ⟨hstate, hmsb⟩ := Front.rdid_regs (h.front hne) h8 hop
  have hstate' : s.regs.state = .rdid := hstate
  rw [Regs.eso, hstate']
  exact hmsb

/-- **Run lemma.** The line out keeps to the identification stream. -/
theorem rdid_shows (idcode : BitVec 24) (mem : cfg.Addr → cfg.Word) (sclk si : Bool)
    (es : List Event) :
    (busLog idcode mem (boot cfg idcode sclk si) es).Shows (RdidOut idcode)
      (run (step idcode mem) (boot cfg idcode sclk si) es).esoDelayed := by
  suffices h : Inv idcode (run (step idcode mem) (boot cfg idcode sclk si) es)
      (busLog idcode mem (boot cfg idcode sclk si) es) ∧
      (busLog idcode mem (boot cfg idcode sclk si) es).Shows (RdidOut idcode)
        (run (step idcode mem) (boot cfg idcode sclk si) es).esoDelayed from h.2
  refine run_record_invariant
    (P := fun s (w : BusLog) => Inv idcode s w ∧ w.Shows (RdidOut idcode) s.esoDelayed)
    (fun s w e h => ⟨h.1.step e, ?_⟩) ⟨Inv.boot sclk si, BusLog.Shows.empty _ _⟩ es
  · match e with
    | .lines csn si => exact h.1.rdid_pins h.2 csn s.sclk si
    | .sclk level => exact h.1.rdid_pins h.2 s.csn level s.si
    | .sys c => exact h.2

end FlashEmuLite

/-- **The identification stream.** In every transaction whose first eight bits are `0x9f`, after
any history (for FlashEmuLite, in mode 0), rising edge `9 + i` of `sclk` samples bit
`23 - i mod 24` of `idcode`. -/
theorem rdid_stream :
    (∀ (idcode : BitVec 24) (rstn sclk si : Bool) (es : List FlashEmu.Event),
      let w := FlashEmu.busLog idcode (FlashEmu.boot idcode rstn sclk si) es
      Front.opcode w.bits = 0x9f#8 → ∀ i (h : 8 + i < w.rises.length),
        w.rises[8 + i].2 = idcode.getLsbD (23 - i % 24)) ∧
    (∀ (cfg : LiteConfig) (idcode : BitVec 24) (mem : cfg.Addr → cfg.Word) (sclk si : Bool)
      (es : List FlashEmuLite.Event),
      Along (FlashEmuLite.step idcode mem) FlashEmuLite.ModeZero
        (FlashEmuLite.boot cfg idcode sclk si) es →
      let w := FlashEmuLite.sclkLog idcode mem (FlashEmuLite.boot cfg idcode sclk si) es
      Front.opcode w.bits = 0x9f#8 → ∀ i (h : 8 + i < w.rises.length),
        w.rises[8 + i].2 = idcode.getLsbD (23 - i % 24)) := by
  constructor
  · intro idcode rstn sclk si es w hop i hi
    exact RdidOut.bit (FlashEmu.rdid_shows idcode rstn sclk si es).emits hop hi
  · intro cfg idcode mem sclk si es hes w hop i hi
    have hemits := (FlashEmuLite.rdid_shows idcode mem sclk si es).emits
    rw [← FlashEmuLite.sclkLog_eq idcode mem sclk si hes] at hemits
    exact RdidOut.bit hemits hop hi

/-- An identification read cut off after nine clocks, and the first data bit of another. -/
theorem rdid_stream_again :
    let opcode := [true, false, false, true, true, true, true, true, true]
    let es := FlashEmuLite.clockIn opcode ++ [.lines true true] ++ FlashEmuLite.clockIn opcode
    let w := FlashEmuLite.sclkLog 0x20ba18#24 (fun _ => 0)
      (FlashEmuLite.boot LiteConfig.sixBits 0x20ba18#24 false false) es
    ∃ h : 8 + 0 < w.rises.length, w.rises[8 + 0].2 = (0x20ba18#24).getLsbD (23 - 0 % 24) := by
  intro opcode es w
  have h : 8 + 0 < w.rises.length := by decide
  exact ⟨h, rdid_stream.2 LiteConfig.sixBits 0x20ba18#24 (fun _ => 0) false false es (by decide)
    (by decide) 0 h⟩

end LiteSpiH4x
