import LiteSpiH4x.Emu.FlashEmuQread

/-! # FlashEmu is a serial flash

A serial flash, seen from its pins, answers each bit of a transaction with a level or with high
impedance, and what it answers depends on the bits of this transaction and on its contents alone.

* **`respond`** — that answer for the three opcodes the emulator knows: identification, read, and
  on its one driven line the quad read.
* **`DeviceInv`** — along a transaction, the driven output is the answer to the bits received
  before the last falling edge.
* **`so_eq_respond`** — whole runs: any number of transactions of any length, with the loader at
  work between them. -/

namespace LiteSpiH4x

open Digital StepMachine

namespace FlashEmu

/-- The level of the output pin, `none` while it floats. -/
def State.so (s : State) : Option Bool := if s.esoTsOe then some s.esoTsO else none

/-- What a flash with contents `M` answers after `bits` of a transaction. An identification read
goes round `idcode`; a read sends the bytes from its address on, eight bits each; a quad read
moves on to the next byte after two clocks, so its one line shows the two highest bits of each. -/
def respond (idcode : BitVec 24) (M : BitVec 8 → BitVec 8) (bits : List Bool) : Option Bool :=
  let A := (Front.address bits).toNat
  let k := bits.length - 32
  if bits.length < 8 then none
  else if Front.opcode bits = cmdRdid then some (idcode.getMsbD ((bits.length - 8) % 24))
  else if bits.length < 32 then none
  else if Front.opcode bits = cmdRead then
    some ((M (BitVec.ofNat 8 (A + k / 8))).getMsbD (k % 8))
  else if Front.opcode bits = cmdQread then
    some ((M (BitVec.ofNat 8 (A + k / 2))).getMsbD (k % 2))
  else none

variable {idcode : BitVec 24} {M : BitVec 8 → BitVec 8} {bits : List Bool}

/-- No answer before the opcode is complete. -/
theorem respond_header (h : bits.length < 8) : respond idcode M bits = none := if_pos h

/-- The answer to an identification read. -/
theorem respond_rdid (h : 8 ≤ bits.length) (hop : Front.opcode bits = cmdRdid) :
    respond idcode M bits = some (idcode.getMsbD ((bits.length - 8) % 24)) := by
  rw [respond, if_neg (not_lt.mpr h), if_pos hop]

/-- No answer before the address of a read is complete. -/
theorem respond_addr (hlt : bits.length < 32) (hid : Front.opcode bits ≠ cmdRdid) :
    respond idcode M bits = none := by
  rw [respond, if_neg hid, if_pos hlt, ite_self]

/-- The answer to a read. -/
theorem respond_read (h : 32 ≤ bits.length) (hop : Front.opcode bits = cmdRead) :
    respond idcode M bits =
      some ((M (BitVec.ofNat 8 ((Front.address bits).toNat + (bits.length - 32) / 8))).getMsbD
        ((bits.length - 32) % 8)) := by
  have hid : Front.opcode bits ≠ cmdRdid := by rw [hop]; decide
  rw [respond, if_neg (by omega), if_neg hid, if_neg (not_lt.mpr h), if_pos hop]

/-- The answer to a quad read. -/
theorem respond_qread (h : 32 ≤ bits.length) (hop : Front.opcode bits = cmdQread) :
    respond idcode M bits =
      some ((M (BitVec.ofNat 8 ((Front.address bits).toNat + (bits.length - 32) / 2))).getMsbD
        ((bits.length - 32) % 2)) := by
  have hid : Front.opcode bits ≠ cmdRdid := by rw [hop]; decide
  have hread : Front.opcode bits ≠ cmdRead := by rw [hop]; decide
  rw [respond, if_neg (by omega), if_neg hid, if_neg (not_lt.mpr h), if_neg hread, if_pos hop]

/-- No answer to any other opcode. -/
theorem respond_bad (hid : Front.opcode bits ≠ cmdRdid)
    (hread : ¬ Front.IsRead true (Front.opcode bits)) : respond idcode M bits = none := by
  rw [Front.IsRead, not_or, not_and] at hread
  rw [respond, if_neg hid, if_neg hread.1, if_neg (hread.2 rfl), ite_self, ite_self]

/-- The memory sees the low byte of the 24-bit address of the byte in delivery. -/
theorem setWidth_add_ofNat (A : BitVec 24) (i : ℕ) :
    (A + BitVec.ofNat 24 i).setWidth 8 = BitVec.ofNat 8 (A.toNat + i) := by
  apply BitVec.eq_of_toNat_eq
  simp only [BitVec.toNat_setWidth, BitVec.toNat_add, BitVec.toNat_ofNat]
  omega

/-- **What the front end offers** at a falling edge is the answer to the bits received. -/
theorem offer_eq_respond {r : Regs} {memadr : BitVec 8}
    (h : r.front = Front.decode true idcode bits) (hd : Delivers M bits r memadr)
    (hq : QDelivers M bits r memadr) :
    (if r.esoOe then some (r.eso (M memadr)) else none) = respond idcode M bits := by
  have hstate : r.state = (Front.decode true idcode bits).state := by rw [← h]; rfl
  rcases lt_or_ge bits.length 8 with hlt | h8
  · rw [respond_header hlt, Regs.esoOe, hstate, Front.decode_header hlt]
    rfl
  by_cases hid : Front.opcode bits = cmdRdid
  · have hdec := @Front.decode_rdid true idcode bits h8 hid
    have hrot : r.idcode = rotl^[bits.length - 8] idcode :=
      congrArg (fun f => f.idcode) (h.trans hdec)
    rw [hdec] at hstate
    rw [respond_rdid h8 hid, Regs.esoOe, Regs.eso, hstate]
    simp only [if_true, hrot, msb_rotl_iterate]
  by_cases hread : Front.IsRead true (Front.opcode bits)
  · rcases lt_or_ge bits.length 32 with hlt | h32
    · rw [respond_addr hlt hid, Regs.esoOe, hstate, Front.decode_addr h8 hlt hread]
      rfl
    · rw [Front.decode_data h32 hread] at hstate
      rcases hread with hop | ⟨-, hop⟩
      · have hmsb := hd h32 hop
        rw [byteAt, setWidth_add_ofNat] at hmsb
        rw [respond_read h32 hop, Regs.esoOe, Regs.eso, hstate]
        simp only [if_true, hmsb, BitVec.msb_shiftLeft]
      · have hmsb := hq h32 hop
        rw [qbyteAt, setWidth_add_ofNat] at hmsb
        rw [respond_qread h32 hop, Regs.esoOe, Regs.eso, hstate]
        simp only [if_true, hmsb, BitVec.msb_shiftLeft]
  · rw [respond_bad hid hread, Regs.esoOe, hstate, Front.decode_bad h8 hid hread]
    rfl

/-- Along a transaction with the SPI side selected and contents `M`: what holds in a read of
either kind, and the output register holds the answer to the bits before the last falling edge. -/
structure DeviceInv (idcode : BitVec 24) (M : BitVec 8 → BitVec 8) (s : State) (w : BusLog) :
    Prop where
  base : QreadInv idcode M s w
  out : ∀ f, w.fallen = some f →
    (if s.esoOeDelayed then some s.esoDelayed else none) = respond idcode M (w.bits.take f)

namespace DeviceInv

variable {s : State} {w : BusLog}

/-- With the SPI side selected and `csn` high, nothing has been answered yet. -/
theorem of_deselected (h : Inv idcode s w) (hcsn : s.csn = true) (hsel : s.flashMem.sel = false) :
    DeviceInv idcode s.flashMem.mem s w := by
  have hlog : w = {} := h.tracks.held (by rw [resetInput, hcsn, Bool.or_true])
  subst hlog
  exact ⟨QreadInv.of_deselected h hcsn hsel, fun f hf => by cases hf⟩

/-- A change of the pins keeps the invariant. -/
theorem pins (h : DeviceInv idcode M s w) (csn rstn sclk si : Bool) :
    DeviceInv idcode M (s.pins idcode csn rstn sclk si)
      (w.next s.dom sclk (resetInput csn rstn) si s.esoDelayed) where
  base := h.base.pins csn rstn sclk si
  out := by
    -- both output registers are loaded by the same falling edges
    have hpair := @Tracks.inverse_register _ _ _ (Bool × Bool)
      (fun bits q => (if q.2 then some q.1 else none) = respond idcode M bits)
      h.base.base.base.tracks sclk (resetInput csn rstn) si s.esoDelayed
      (s.esoDelayed, s.esoOeDelayed) (false, false)
      (s.regs.eso s.flashMem.datR, s.regs.esoOe) h.out
      (fun _ hshort => (respond_header (by omega)).symm) ?_
    · intro f hf
      rw [← hpair f hf]
      simp only [State.pins]
      split <;> [split; skip] <;> rfl
    · intro _ _ hne
      have hdat : s.flashMem.datR = M s.flashMem.memadr := by
        rw [FlashEmuMem.datR, h.base.base.mem]
      rw [hdat]
      exact offer_eq_respond (h.base.base.base.front hne) (h.base.base.delivers hne)
        (h.base.qdelivers hne)

/-- **Step lemma.** Every event but the selection of the loader keeps the invariant. -/
theorem step (h : DeviceInv idcode M s w) (e : Event) (he : e ≠ .sel true) :
    DeviceInv idcode M (FlashEmu.step idcode s e) (logEvent s e w) := by
  have hbase := h.base.step e he
  match e with
  | .pin (.lines csn rstn si) => exact h.pins csn rstn s.dom.clk si
  | .pin (.sclk level) => exact h.pins s.csn s.rstn level s.si
  | .sel level => exact ⟨hbase, h.out⟩
  | .sys p => exact ⟨hbase, h.out⟩

/-- The output pin shows the answer to the bits before the last falling edge, and floats until
there is one. -/
theorem so_eq (h : DeviceInv idcode M s w) :
    s.so = w.fallen.bind fun f => respond idcode M (w.bits.take f) := by
  have hinv := h.base.base.base.tracks.rstInv
  rw [State.so, State.esoTsOe, State.esoTsO, hinv]
  cases hf : w.fallen with
  | none => simp
  | some f =>
    rw [Option.bind_some, ← h.out f hf]
    simp only [Option.isNone_some, Bool.not_false, Bool.and_true]

end DeviceInv

/-! ## Whole runs -/

/-- The loader is selected, and stays selected, only while `csn` is high. -/
def Polite (s : State) : Event → Prop
  | .pin (.lines csn _ _) => csn = false → s.flashMem.sel = false
  | .sel level => level = true → s.csn = true
  | _ => True

instance (s : State) (e : Event) : Decidable (Polite s e) :=
  match e with
  | .pin (.lines csn _ _) =>
    inferInstanceAs (Decidable (csn = false → s.flashMem.sel = false))
  | .pin (.sclk _) => .isTrue trivial
  | .sel level => inferInstanceAs (Decidable (level = true → s.csn = true))
  | .sys _ => .isTrue trivial

/-- What holds along a run whose loader keeps out of transactions. -/
structure Tidy (idcode : BitVec 24) (s : State) (w : BusLog) : Prop where
  inv : Inv idcode s w
  idle : s.flashMem.sel = true → s.csn = true
  device : s.flashMem.sel = false → DeviceInv idcode s.flashMem.mem s w

namespace Tidy

variable {s : State} {w : BusLog}

/-- Pins leave the side selected and the contents alone. -/
theorem flashMem_pins (idcode : BitVec 24) (s : State) (csn rstn sclk si : Bool) :
    (s.pins idcode csn rstn sclk si).flashMem.sel = s.flashMem.sel ∧
      (s.pins idcode csn rstn sclk si).flashMem.mem = s.flashMem.mem := by
  have h := @Holds.pins idcode s ⟨s.flashMem.sel, s.flashMem.mem⟩ ⟨rfl, rfl⟩ csn rstn sclk si
  exact ⟨h.sel, h.mem⟩

/-- A change of the pins keeps the invariant, if it does not select the chip under the loader. -/
theorem pins (h : Tidy idcode s w) (csn rstn sclk si : Bool)
    (hcsn : s.flashMem.sel = true → csn = true) :
    Tidy idcode (s.pins idcode csn rstn sclk si)
      (w.next s.dom sclk (resetInput csn rstn) si s.esoDelayed) := by
  obtain ⟨hsel, hmem⟩ := flashMem_pins idcode s csn rstn sclk si
  refine ⟨h.inv.pins csn rstn sclk si, ?_, ?_⟩
  · rw [hsel]
    exact hcsn
  · rw [hsel, hmem]
    exact fun hspi => (h.device hspi).pins csn rstn sclk si

/-- **Step lemma.** -/
theorem step (h : Tidy idcode s w) (e : Event) (he : Polite s e) :
    Tidy idcode (FlashEmu.step idcode s e) (logEvent s e w) := by
  have hinv := h.inv.step e
  match e with
  | .pin (.lines csn rstn si) =>
    refine h.pins csn rstn s.dom.clk si fun hsel => ?_
    cases csn with
    | true => rfl
    | false => exact absurd hsel (by rw [he rfl]; decide)
  | .pin (.sclk level) => exact h.pins s.csn s.rstn level s.si h.idle
  | .sel true => exact ⟨hinv, fun _ => he rfl, fun hsel => (Bool.false_ne_true hsel.symm).elim⟩
  | .sel false =>
    refine ⟨hinv, fun hsel => (Bool.false_ne_true hsel).elim, fun _ => ?_⟩
    cases hsel : s.flashMem.sel with
    | true => exact DeviceInv.of_deselected hinv (h.idle hsel) rfl
    | false => exact (h.device hsel).step _ (by simp)
  | .sys p =>
    have hsel : (s.flashMem.edge true (s.fmp s.si) p).sel = s.flashMem.sel :=
      FlashEmuMem.sel_edge _ _ _ _
    refine ⟨hinv, ?_, ?_⟩
    · intro hs
      exact h.idle (hsel ▸ hs)
    · intro hs
      have hspi : s.flashMem.sel = false := hsel ▸ hs
      have hkeep : s.flashMem.edge true (s.fmp s.si) p = s.flashMem :=
        FlashEmuMem.edge_sys_of_spi hspi _ _
      have hdev := (h.device hspi).step (.sys p) (by simp)
      rwa [show s.flashMem.mem = (FlashEmu.step idcode s (.sys p)).flashMem.mem by
        rw [FlashEmu.step, hkeep]] at hdev

/-- **Run lemma.** -/
theorem run (rstn sclk si : Bool) {es : List Event}
    (hpolite : Along (FlashEmu.step idcode) Polite (boot idcode rstn sclk si) es) :
    Tidy idcode (StepMachine.run (FlashEmu.step idcode) (boot idcode rstn sclk si) es)
      (busLog idcode (boot idcode rstn sclk si) es) :=
  run_record_invariant_of_along (fun _ _ e he h => h.step e he)
    ⟨Inv.boot rstn sclk si, fun hsel => (Bool.false_ne_true hsel).elim,
      fun _ => DeviceInv.of_deselected (Inv.boot rstn sclk si) rfl rfl⟩ hpolite

end Tidy

/-- **FlashEmu is a serial flash.** In every run whose loader keeps out of transactions, whatever
their number, opcodes and lengths, whatever is loaded between them and wherever system clock edges
fall, the output pin shows at every moment what a flash with the contents loaded so far answers to
the bits of the current transaction that came before its last falling edge. -/
theorem so_eq_respond (idcode : BitVec 24) (rstn sclk si : Bool) (es : List Event)
    (hpolite : Along (step idcode) Polite (boot idcode rstn sclk si) es) :
    let s := run (step idcode) (boot idcode rstn sclk si) es
    let w := busLog idcode (boot idcode rstn sclk si) es
    s.so = w.fallen.bind fun f => respond idcode (Loaded.after es).mem (w.bits.take f) := by
  intro s w
  have htidy : Tidy idcode s w := Tidy.run rstn sclk si hpolite
  have hmem : s.flashMem.mem = (Loaded.after es).mem := (Holds.run rstn sclk si es).mem
  rw [← hmem]
  cases hsel : s.flashMem.sel with
  | false => exact (htidy.device hsel).so_eq
  | true =>
    -- the loader has the memory, so the chip is not selected and nothing is logged
    have hcsn := htidy.idle hsel
    have hlog : w = {} := htidy.inv.tracks.held (by rw [resetInput, hcsn, Bool.or_true])
    rw [State.so, State.esoTsOe, htidy.inv.tracks.rstInv, hlog]
    simp

/-- Byte 1 is loaded with `0xa5` and read, after a transaction cut off in its opcode. -/
theorem so_eq_respond_loaded :
    let es := clockIn [true, false] ++ [.pin (.lines true true false), .sel true,
      .sys ⟨1, 0xa5, true⟩, .sel false] ++
      clockIn ((List.range 33).map fun i => i = 6 || i = 7 || i = 31)
    let s := run (step 0) (boot 0 true false false) es
    let w := busLog 0 (boot 0 true false false) es
    s.so = w.fallen.bind fun f => respond 0 (Loaded.after es).mem (w.bits.take f) :=
  so_eq_respond 0 true false false _ (by decide +kernel)

end FlashEmu

end LiteSpiH4x
