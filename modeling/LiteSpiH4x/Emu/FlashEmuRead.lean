import LiteSpiH4x.Emu.FlashEmu

/-! # Reads of FlashEmu deliver the loaded memory

The memory answers one clock late, so the front end puts the *next* address on the port, takes
the first bit of a byte from the port and the other seven from a shift register.

* **`Loaded`** — what the memory is for: the initial bytes under the loader's writes, nothing
  else. `mem_eq_loaded` says that the emulator's memory is that after every run.
* **`Delivers`** — the byte in delivery, `dr_tmp`, is the addressed byte shifted by the number of
  its bits already consumed.
* **`read_bytes`** — whole runs with the loader: loading, reading back and serial reads. -/

namespace LiteSpiH4x

open Digital StepMachine

namespace FlashEmu

/-! ## What the memory should hold -/

/-- The specified memory: which side is selected and what has been loaded. -/
structure Loaded where
  sel : Bool
  mem : BitVec 8 → BitVec 8

namespace Loaded

/-- Before anything is loaded, byte `a` is `val4addr a`. -/
def start : Loaded where
  sel := false
  mem := fun a => BitVec.ofNat 8 (val4addr a.toNat)

/-- A loader cycle with the loader selected and its write enable up writes its byte. Nothing else
changes the contents. -/
def next (m : Loaded) : Event → Loaded
  | .pin _ => m
  | .sel level => { m with sel := level }
  | .sys p =>
    { m with mem := if m.sel && p.we then Function.update m.mem p.adr p.datW else m.mem }

/-- The specified memory after a list of events. -/
def after (es : List Event) : Loaded := run next start es

@[simp] theorem after_concat (es : List Event) (e : Event) :
    after (es ++ [e]) = (after es).next e := run_concat next start es e

end Loaded

/-- The emulator holds the specified memory. -/
structure Holds (s : State) (m : Loaded) : Prop where
  sel : s.flashMem.sel = m.sel
  mem : s.flashMem.mem = m.mem

namespace Holds

variable {idcode : BitVec 24} {s : State} {m : Loaded}

/-- **Pins write nothing.** -/
theorem pins (h : Holds s m) (csn rstn sclk si : Bool) :
    Holds (s.pins idcode csn rstn sclk si) m := by
  cases hr : s.dom.rises sclk with
  | false =>
    simp only [State.pins, hr, Bool.false_eq_true, if_false]
    exact ⟨h.sel, h.mem⟩
  | true =>
    rw [State.pins_of_rises hr]
    refine ⟨?_, ?_⟩
    · exact (FlashEmuMem.sel_edge _ _ _ _).trans h.sel
    · rw [State.fmp, FlashEmuMem.mem_edge_spi, h.mem]

/-- **Step lemma.** Each event does to the memory what is specified. -/
theorem step (h : Holds s m) (e : Event) : Holds (FlashEmu.step idcode s e) (m.next e) := by
  match e with
  | .pin (.lines csn rstn si) => exact h.pins csn rstn s.dom.clk si
  | .pin (.sclk level) => exact h.pins s.csn s.rstn level s.si
  | .sel level => exact ⟨rfl, h.mem⟩
  | .sys p =>
    refine ⟨(FlashEmuMem.sel_edge _ _ _ _).trans h.sel, ?_⟩
    cases hsel : m.sel with
    | false =>
      rw [FlashEmu.step, FlashEmuMem.edge_sys_of_spi (h.sel.trans hsel), h.mem]
      simp only [Loaded.next, hsel, Bool.false_and, Bool.false_eq_true, if_false]
    | true =>
      rw [FlashEmu.step, FlashEmuMem.edge_sys_of_loader (h.sel.trans hsel)]
      simp only [FlashEmuMem.clock, Loaded.next, hsel, Bool.true_and, h.mem]

/-- **Run lemma.** After every run from power-on the memory is as specified. -/
theorem run (rstn sclk si : Bool) (es : List Event) :
    Holds (StepMachine.run (FlashEmu.step idcode) (boot idcode rstn sclk si) es)
      (Loaded.after es) := by
  induction es using List.reverseRecOn with
  | nil => exact ⟨rfl, rfl⟩
  | append_singleton es e ih =>
    rw [run_concat, Loaded.after_concat]
    exact ih.step e

end Holds

/-- **Reading back.** The port shows the loaded byte at the address a loader cycle has sampled,
for as long as only pins move. -/
theorem datR_of_loader {idcode : BitVec 24} {s : State} {m : Loaded} (h : Holds s m)
    (hsel : m.sel = true) (p : FakeMemoryPort) (es : List PinEvent) :
    (run (step idcode) s (.sys p :: es.map .pin)).flashMem.datR = (m.next (.sys p)).mem p.adr := by
  have hstep : Holds (step idcode s (.sys p)) _ := h.step (.sys p)
  have hadr : (step idcode s (.sys p)).flashMem.memadr = p.adr := by
    rw [step, FlashEmuMem.edge_sys_of_loader (h.sel.trans hsel)]
    rfl
  rw [run_cons, FlashEmuMem.datR]
  -- the pins clock the memory through the deselected side only
  have hpins : ∀ (t : State) (csn rstn sclk si : Bool), t.flashMem.sel = true →
      (t.pins idcode csn rstn sclk si).flashMem = t.flashMem := by
    intro t csn rstn sclk si ht
    simp only [State.pins, FlashEmuMem.edge, ht, Bool.true_eq_false, if_false, ite_self]
  have hrun : (run (step idcode) (step idcode s (.sys p)) (es.map .pin)).flashMem =
      (step idcode s (.sys p)).flashMem := by
    refine run_invariant_of_mem (C := fun e => ∃ q, e = Event.pin q)
      (P := fun (t : State) => t.flashMem = (step idcode s (.sys p)).flashMem) ?_ rfl _ ?_
    · rintro t e ⟨q, rfl⟩ ht
      have htsel : t.flashMem.sel = true := by rw [ht, hstep.sel]; exact hsel
      cases q with
      | lines csn rstn si => exact (hpins t csn rstn _ si htsel).trans ht
      | sclk level => exact (hpins t _ _ level _ htsel).trans ht
    · intro e he
      obtain ⟨q, -, rfl⟩ := List.mem_map.mp he
      exact ⟨q, rfl⟩
  rw [hrun, hadr, hstep.mem]

/-! ## Serial reads -/

/-- The byte in delivery after `bits`: the addressed one, counting on from the address received,
one byte for eight bits. -/
def byteAt (M : BitVec 8 → BitVec 8) (bits : List Bool) : BitVec 8 :=
  M ((Front.address bits + BitVec.ofNat 24 ((bits.length - 32) / 8)).setWidth 8)

/-- While a read delivers data, `dr_tmp` is the byte in delivery with its consumed bits shifted
out. -/
def Delivers (M : BitVec 8 → BitVec 8) (bits : List Bool) (r : Regs) (memadr : BitVec 8) : Prop :=
  32 ≤ bits.length → Front.opcode bits = cmdRead →
    r.drTmp (M memadr) = byteAt M bits <<< ((bits.length - 32) % 8)

/-- What a read shifts out: after its 32-bit header, the bytes in delivery from the highest bit
down. -/
def ReadOut (M : BitVec 8 → BitVec 8) (bits : List Bool) (so : Bool) : Prop :=
  32 ≤ bits.length → Front.opcode bits = cmdRead →
    so = (byteAt M bits).getMsbD ((bits.length - 32) % 8)

/-- Bit `j` of byte `i` of a read: the byte at the address received plus `i`, modulo 256. -/
theorem ReadOut.bit {M : BitVec 8 → BitVec 8} {bits : List Bool} {so : Bool} {i j : ℕ}
    (h : ReadOut M (bits.take (32 + (8 * i + j))) so) (hlen : 32 + (8 * i + j) ≤ bits.length)
    (hop : Front.opcode bits = cmdRead) (hj : j < 8) :
    so = (M (BitVec.ofNat 8 ((Front.address bits).toNat + i))).getMsbD j := by
  have htake : (bits.take (32 + (8 * i + j))).length = 32 + (8 * i + j) := by
    rw [List.length_take, Nat.min_eq_left hlen]
  have hlen' : (bits.take (32 + (8 * i + j))).length - 32 = 8 * i + j := by omega
  have hadr : (Front.address bits + BitVec.ofNat 24 i).setWidth 8 =
      BitVec.ofNat 8 ((Front.address bits).toNat + i) := by
    apply BitVec.eq_of_toNat_eq
    simp only [BitVec.toNat_setWidth, BitVec.toNat_add, BitVec.toNat_ofNat]
    omega
  have hbit := h (by omega) (by rw [Front.opcode_take (by omega), hop])
  rw [byteAt, hlen', Front.address_take (by omega), show (8 * i + j) / 8 = i by omega,
    show (8 * i + j) % 8 = j by omega, hadr] at hbit
  exact hbit

/-- The registers in a read that delivers data. -/
theorem front_data {r : Regs} {idcode : BitVec 24} {bits : List Bool}
    (h : r.front = Front.decode true idcode bits) (h32 : 32 ≤ bits.length)
    (hop : Front.opcode bits = cmdRead) :
    r.state = .readGetData ∧ r.qmode = false ∧
      r.drBitCnt = BitVec.ofNat 3 (bits.length - 32) ∧
      r.addr = Front.address bits + BitVec.ofNat 24 ((bits.length - 32) / 8) := by
  exact Front.data_regs h hop (Nat.add_sub_of_le h32).symm

/-- The output line of a read that delivers data. -/
theorem eso_of_delivers {M : BitVec 8 → BitVec 8} {r : Regs} {memadr : BitVec 8}
    {idcode : BitVec 24} {bits : List Bool} (h : r.front = Front.decode true idcode bits)
    (hd : Delivers M bits r memadr) : ReadOut M bits (r.eso (M memadr)) := by
  intro h32 hop
  rw [Regs.eso, (front_data h h32 hop).1]
  simp only [hd h32 hop, BitVec.msb_shiftLeft]

/-- **The last address edge** puts the address on the memory port in time for the first bit. -/
theorem delivers_first {M : BitVec 8 → BitVec 8} {r : Regs} {idcode : BitVec 24}
    {bits : List Bool} {esi : Bool} (d : BitVec 8)
    (h : r.front = Front.decode true idcode bits) (h31 : bits.length = 31) :
    Delivers M (bits ++ [esi]) (r.next esi d) ((r.addrNext esi).setWidth 8) := by
  intro h32 hop
  have hlen : (bits ++ [esi]).length - 32 = 0 := by simp [h31]
  have hfront : (r.next esi d).front = Front.decode true idcode (bits ++ [esi]) := by
    rw [Regs.front_next, h, Front.decode_concat]
  obtain ⟨-, -, hcnt, haddr⟩ := front_data hfront h32 hop
  have hop' : Front.opcode bits = cmdRead := by
    rw [← hop, Front.opcode_append (by omega)]
  have hstate : r.state = .readGetAddr := by
    have hf := @Front.decode_addr true idcode bits (by omega) (by omega) (Or.inl hop')
    rw [← h] at hf
    exact congrArg (fun f => f.state) hf
  have hnext : r.addrNext esi = (r.next esi d).addr := by
    simp only [CmdRegs.addrNext, Regs.next, hstate]
  -- at bit 0 the byte comes from the port, which has sampled the whole address
  rw [Regs.drTmp, hcnt, hlen, hnext, haddr, byteAt, hlen, Nat.zero_mod, BitVec.shiftLeft_zero]
  exact if_pos rfl

/-- **A data edge** moves on by one bit, and after eight bits to the next byte, whose address has
been on the port during the last one. -/
theorem delivers_next {M : BitVec 8 → BitVec 8} {r : Regs} {memadr : BitVec 8}
    {idcode : BitVec 24} {bits : List Bool} {esi : Bool}
    (h : r.front = Front.decode true idcode bits) (h32 : 32 ≤ bits.length)
    (hd : Delivers M bits r memadr) :
    Delivers M (bits ++ [esi]) (r.next esi (M memadr)) ((r.addrNext esi).setWidth 8) := by
  intro h33 hop
  have hop' : Front.opcode bits = cmdRead := by
    rw [← hop, Front.opcode_append (by omega)]
  have hfront : (r.next esi (M memadr)).front = Front.decode true idcode (bits ++ [esi]) := by
    rw [Regs.front_next, h, Front.decode_concat]
  obtain ⟨hstate, -, -, haddr⟩ := front_data h h32 hop'
  obtain ⟨-, -, hcnt', haddr'⟩ := front_data hfront h33 hop
  obtain ⟨t, ht⟩ : ∃ t, bits.length = 32 + t := ⟨bits.length - 32, by omega⟩
  have hlen : bits.length - 32 = t := by omega
  have hlen' : (bits ++ [esi]).length - 32 = t + 1 := by simp; omega
  have haddress : Front.address (bits ++ [esi]) = Front.address bits := Front.address_append h32 _
  rw [hlen'] at hcnt' haddr'
  rw [Regs.drTmp, hcnt', byteAt, hlen', haddress]
  by_cases hlast : (t + 1) % 8 = 0
  · -- the next byte: the port has sampled its address at this edge
    have hzero : BitVec.ofNat 3 (t + 1) = 0 := by
      rw [← BitVec.toNat_inj, BitVec.toNat_ofNat]
      exact hlast
    have hdiv : (t + 1) / 8 = t / 8 + 1 := by omega
    have hnext : r.addrNext esi = Front.address bits + BitVec.ofNat 24 ((t + 1) / 8) := by
      rw [CmdRegs.addrNext, hstate]
      simp only [haddr, hlen]
      rw [hdiv, BitVec.ofNat_add, ← BitVec.add_assoc]
      rfl
    rw [if_pos hzero, hlast, hnext, BitVec.shiftLeft_zero]
  · -- the same byte, one bit further
    have hne : BitVec.ofNat 3 (t + 1) ≠ 0 := by
      rw [Ne, ← BitVec.toNat_inj, BitVec.toNat_ofNat]
      exact hlast
    have hdiv : (t + 1) / 8 = t / 8 := by omega
    have hmod : (t + 1) % 8 = t % 8 + 1 := by omega
    have hdr : (r.next esi (M memadr)).dr = (r.drTmp (M memadr)).shiftConcat false := by
      simp only [Regs.next, hstate]
    rw [if_neg hne, hdr, hd h32 hop', byteAt, hlen, hdiv, hmod, shiftConcat_false_shiftLeft]

/-- **Registers next to the memory port.** With the SPI side selected, a fact about the bits logged,
the registers of the `spi` domain and the address the memory has sampled holds along the log if
the reset edge establishes it and every later rising edge carries it on. -/
theorem register_port {idcode : BitVec 24} {s : State} {w : BusLog}
    {P : List Bool → Regs → BitVec 8 → Prop} (h : Inv idcode s w) (hsel : s.flashMem.sel = false)
    (hold : w.rises ≠ [] → P w.bits s.regs s.flashMem.memadr) {si : Bool}
    (hreset : P [si] (Regs.reset idcode si) (s.fmp si).adr)
    (hnext : w.rises ≠ [] → P w.bits s.regs s.flashMem.memadr →
      P (w.bits ++ [si]) (s.regs.next si s.flashMem.datR) (s.fmp si).adr)
    (csn rstn sclk : Bool) :
    let s' := s.pins idcode csn rstn sclk si
    let w' := w.next s.dom sclk (resetInput csn rstn) si s.esoDelayed
    w'.rises ≠ [] → P w'.bits s'.regs s'.flashMem.memadr := by
  intro s' w' hne
  have hreg := @Tracks.register _ _ _ (Regs × BitVec 8) (fun bits x => P bits x.1 x.2)
    h.tracks sclk (resetInput csn rstn) si s.esoDelayed (s.regs, s.flashMem.memadr)
    (Regs.reset idcode si, (s.fmp si).adr) (s.regs.next si s.flashMem.datR, (s.fmp si).adr)
    hold hreset (fun _ _ hne' hd => hnext hne' hd) hne
  cases hr : s.dom.rises sclk with
  | false =>
    simp only [hr, Bool.false_eq_true, if_false] at hreg
    simpa only [s', w', State.pins, hr, Bool.false_eq_true, if_false] using hreg
  | true =>
    have hadr : s'.flashMem.memadr = (s.fmp si).adr := by
      simp only [s', State.pins, hr, if_true, FlashEmuMem.memadr_edge_spi hsel]
    rw [hadr]
    simp only [hr, if_true] at hreg
    simp only [s', State.pins, hr, if_true]
    split at hreg
    · rwa [if_pos ‹_›]
    · rwa [if_neg ‹_›]

/-- What holds along a run while the SPI side stays selected and the memory is `M`. -/
structure ReadInv (idcode : BitVec 24) (M : BitVec 8 → BitVec 8) (s : State) (w : BusLog) :
    Prop where
  base : Inv idcode s w
  sel : s.flashMem.sel = false
  mem : s.flashMem.mem = M
  delivers : w.rises ≠ [] → Delivers M w.bits s.regs s.flashMem.memadr
  shows : w.Shows (ReadOut M) s.esoDelayed

namespace ReadInv

variable {idcode : BitVec 24} {M : BitVec 8 → BitVec 8} {s : State} {w : BusLog}

/-- With the SPI side selected and `csn` high, nothing is owed yet. -/
theorem of_deselected (h : Inv idcode s w) (hcsn : s.csn = true) (hsel : s.flashMem.sel = false) :
    ReadInv idcode s.flashMem.mem s w := by
  have hlog : w = {} := h.tracks.held (by rw [resetInput, hcsn, Bool.or_true])
  subst hlog
  exact ⟨h, hsel, rfl, fun hne => absurd rfl hne, BusLog.Shows.empty _ _⟩

/-- The registers of the `spi` domain and the sampled address after a change of the pins. -/
theorem delivers_pins (h : ReadInv idcode M s w) (csn rstn sclk si : Bool) :
    let s' := s.pins idcode csn rstn sclk si
    let w' := w.next s.dom sclk (resetInput csn rstn) si s.esoDelayed
    w'.rises ≠ [] → Delivers M w'.bits s'.regs s'.flashMem.memadr := by
  refine register_port h.base h.sel h.delivers (fun h32 => absurd h32 (by simp)) ?_ csn rstn sclk
  intro hne' hd
  have hfront := h.base.front hne'
  rw [FlashEmuMem.datR, h.mem]
  -- before the last address edge nothing is owed; that edge and each data edge carry it on
  rcases lt_trichotomy w.bits.length 31 with hlt | heq | hgt
  · intro h32
    simp only [List.length_append, List.length_singleton] at h32
    omega
  · exact delivers_first _ hfront heq
  · exact delivers_next hfront (by omega) hd

/-- A change of the pins keeps the invariant. -/
theorem pins (h : ReadInv idcode M s w) (csn rstn sclk si : Bool) :
    ReadInv idcode M (s.pins idcode csn rstn sclk si)
      (w.next s.dom sclk (resetInput csn rstn) si s.esoDelayed) where
  base := h.base.pins csn rstn sclk si
  sel := (Holds.pins (m := ⟨false, M⟩) ⟨h.sel, h.mem⟩ csn rstn sclk si).sel
  mem := (Holds.pins (m := ⟨false, M⟩) ⟨h.sel, h.mem⟩ csn rstn sclk si).mem
  delivers := h.delivers_pins csn rstn sclk si
  shows := by
    refine h.base.tracks.shows h.shows ?_ ?_ (resetInput csn rstn) si
    · intro bits _ hshort h32
      omega
    · intro _ _ hne
      rw [FlashEmuMem.datR, h.mem]
      exact eso_of_delivers (h.base.front hne) (h.delivers hne)

/-- **Step lemma.** Every event but the selection of the loader keeps the invariant. -/
theorem step (h : ReadInv idcode M s w) (e : Event) (he : e ≠ .sel true) :
    ReadInv idcode M (FlashEmu.step idcode s e) (logEvent s e w) := by
  have hbase := h.base.step e
  match e with
  | .pin (.lines csn rstn si) => exact h.pins csn rstn s.dom.clk si
  | .pin (.sclk level) => exact h.pins s.csn s.rstn level s.si
  | .sel true => exact absurd rfl he
  | .sel false => exact ⟨hbase, rfl, h.mem, h.delivers, h.shows⟩
  | .sys p =>
    have hmem : (FlashEmu.step idcode s (.sys p)).flashMem = s.flashMem :=
      FlashEmuMem.edge_sys_of_spi h.sel _ _
    refine ⟨hbase, ?_, ?_, ?_, h.shows⟩
    · rw [hmem, h.sel]
    · rw [hmem, h.mem]
    · intro hne
      rw [hmem]
      exact h.delivers hne

end ReadInv

/-- **Reads over whole runs with the loader.** After every run the memory holds the initial bytes
under the loader's effective writes; a loader cycle with the loader selected reads that memory at
the address it samples; and in a read that starts with `csn` high and the SPI side selected, and
that the loader does not interrupt, rising edge `33 + (8 * i + j)` samples bit `7 - j` of the byte
at address `A + i` modulo 256. -/
theorem read_bytes (idcode : BitVec 24) (rstn sclk si : Bool) (hist : List Event) :
    let s := run (step idcode) (boot idcode rstn sclk si) hist
    let M := (Loaded.after hist).mem
    s.flashMem.mem = M ∧
    (∀ (p : FakeMemoryPort) (es : List PinEvent), (Loaded.after hist).sel = true →
      (run (step idcode) s (.sys p :: es.map .pin)).flashMem.datR =
        (Loaded.after (hist ++ [.sys p])).mem p.adr) ∧
    (s.csn = true → (Loaded.after hist).sel = false →
      ∀ txn : List Event, (∀ e ∈ txn, e ≠ .sel true) →
        let w := busLog idcode (boot idcode rstn sclk si) (hist ++ txn)
        Front.opcode w.bits = 0x03#8 →
          ∀ i j (_ : j < 8) (h : 32 + (8 * i + j) < w.rises.length),
            w.rises[32 + (8 * i + j)].2 =
              (M (BitVec.ofNat 8 ((Front.address w.bits).toNat + i))).getMsbD j) := by
  intro s M
  have hholds : Holds s (Loaded.after hist) := Holds.run rstn sclk si hist
  refine ⟨hholds.mem, ?_, ?_⟩
  · intro p es hsel
    rw [Loaded.after_concat]
    exact datR_of_loader hholds hsel p es
  · intro hcsn hsel txn htxn w hop i j hj hlen
    have hstart := ReadInv.of_deselected (@Inv.run idcode rstn sclk si hist) hcsn
      (hholds.sel.trans hsel)
    have hread : ReadInv idcode s.flashMem.mem (run (step idcode) s txn) w := by
      rw [show w = record (step idcode) logEvent s (busLog idcode (boot idcode rstn sclk si) hist)
        txn from record_append _ _ _ _ _ _]
      exact run_record_invariant_of_mem (fun _ _ e he h => h.step e he) hstart txn htxn
    have hbit := hread.shows.emits _ hlen
    -- the contents at the start of the transaction are those loaded, and stay so
    rw [hholds.mem] at hbit
    exact hbit.bit (by rw [BusLog.length_bits]; omega) hop hj

/-- Byte 1 is loaded with `0xa5`; a serial read of address 1 delivers its highest bit. -/
theorem read_bytes_loaded :
    let hist : List Event := [.sel true, .sys ⟨1, 0xa5, true⟩, .sel false]
    let txn := clockIn ((List.range 33).map fun i => i = 6 || i = 7 || i = 31)
    let w := busLog 0 (boot 0 true false false) (hist ++ txn)
    ∃ h : 32 + (8 * 0 + 0) < w.rises.length,
      w.rises[32 + (8 * 0 + 0)].2 =
        ((Loaded.after hist).mem
          (BitVec.ofNat 8 ((Front.address w.bits).toNat + 0))).getMsbD 0 := by
  intro hist txn w
  have hlen : 32 + (8 * 0 + 0) < w.rises.length := by decide
  exact ⟨hlen, (read_bytes 0 true false false hist).2.2 rfl rfl txn (by decide) (by decide)
    0 0 (by decide) hlen⟩

end FlashEmu

end LiteSpiH4x
