import LiteSpiH4x.Bench.EmuSim

/-! # What the bench's drivers do to the emulator

One condition describes the bench between operations, one describes it inside a transaction, and
each thing a driver does has a rule that leads from one to the other. The rules hold in every
interleaving with the system clock.

* **`Rest`** — the chip is not selected; the memory belongs to either side.
* **`During`** — the chip has been selected and has taken in some bits.
* **`tickSi_triple`** — a driver that samples reads the flash's answer to each prefix of what it
  has sent. -/

namespace LiteSpiH4x

open Digital StepMachine FlashEmu

namespace EmuSim

variable {idcode : BitVec 24} {M : BitVec 8 → BitVec 8}

/-! ## Between operations -/

/-- The chip is not selected. The memory holds `M` and belongs to the SPI side or, with `sel`, to
the loader; so far the driver has sampled `so`, and the bus has returned `rd`. -/
structure Rest (idcode : BitVec 24) (sel rstn clk : Bool) (M : BitVec 8 → BitVec 8)
    (so : List (Option Bool)) (rd : List (BitVec 8)) (b : Bench) : Prop where
  inv : Inv idcode b.emu b.log
  csn : b.emu.csn = true
  rstn : b.emu.rstn = rstn
  clk : b.emu.dom.clk = clk
  sel : b.emu.flashMem.sel = sel
  mem : b.emu.flashMem.mem = M
  so : b.so = so
  datrd : b.datrd = rd
  ok : b.ok = true

namespace Rest

variable {sel rstn clk : Bool} {so : List (Option Bool)} {rd : List (BitVec 8)} {b : Bench}

/-- A change of the pins that leaves `csn` high. -/
theorem pins (h : Rest idcode sel rstn clk M so rd b) (rstn' clk' si : Bool) :
    Rest idcode sel rstn' clk' M so rd
      { b with
        emu := b.emu.pins idcode true rstn' clk' si
        log := b.log.next b.emu.dom clk' (resetInput true rstn') si b.emu.esoDelayed } := by
  obtain ⟨hsel, hmem⟩ := Tidy.flashMem_pins idcode b.emu true rstn' clk' si
  exact
    { inv := h.inv.pins true rstn' clk' si
      csn := rfl
      rstn := rfl
      clk := rfl
      sel := hsel.trans h.sel
      mem := hmem.trans h.mem
      so := h.so
      datrd := h.datrd
      ok := h.ok }

/-- A system clock edge. It writes if the loader has the memory and its write enable is up. -/
theorem sys (h : Rest idcode sel rstn clk M so rd b) (p : FakeMemoryPort) :
    Rest idcode sel rstn clk (if sel && p.we then Function.update M p.adr p.datW else M) so rd
      (b.emit idcode (.sys p)) where
  inv := h.inv.step (.sys p)
  csn := h.csn
  rstn := h.rstn
  clk := h.clk
  sel := (FlashEmuMem.sel_edge _ _ _ _).trans h.sel
  mem := (@Holds.step idcode b.emu ⟨sel, M⟩ ⟨h.sel, h.mem⟩ (.sys p)).mem
  so := h.so
  datrd := h.datrd
  ok := h.ok

/-- The other edges of the system clock disturb nothing. -/
theorem stable : Stable (Bench.step idcode) Event.own (Rest idcode sel rstn clk M so rd) := by
  intro b e he h
  match e with
  | .idle adr datW =>
    have hsys := h.sys ⟨adr, datW, false⟩
    rwa [Bool.and_false, if_neg Bool.false_ne_true] at hsys

/-- With the loader selected, a bus read returns the byte at the address it puts on the port. -/
theorem fetch (h : Rest idcode true rstn clk M so rd b) (adr datW : BitVec 8) :
    Rest idcode true rstn clk M so (rd ++ [M adr])
      (Bench.step idcode b (.fetch ⟨adr, datW, false⟩)) := by
  have hsys := h.sys ⟨adr, datW, false⟩
  rw [Bool.and_false, if_neg Bool.false_ne_true] at hsys
  have hdat : (FlashEmu.step idcode b.emu (.sys ⟨adr, datW, false⟩)).flashMem.datR = M adr := by
    have hread := @datR_of_loader idcode b.emu ⟨true, M⟩ ⟨h.sel, h.mem⟩ rfl ⟨adr, datW, false⟩ []
    simpa [Loaded.next] using hread
  refine { hsys with datrd := ?_ }
  rw [Bench.step, Bench.emu_emit, hdat]
  exact congrArg (· ++ [M adr]) hsys.datrd

/-- The loader is selected, or the SPI side. -/
theorem select (h : Rest idcode sel rstn clk M so rd b) (level : Bool) :
    Rest idcode level rstn clk M so rd (b.emit idcode (.sel level)) :=
  { h with inv := h.inv.step (.sel level), sel := rfl }

end Rest

/-! ## Inside a transaction -/

/-- The chip is selected and has taken in `bits`; the clock is at level `clk`, and so far the
driver has sampled `so`. -/
structure During (idcode : BitVec 24) (M : BitVec 8 → BitVec 8) (clk : Bool) (bits : List Bool)
    (so : List (Option Bool)) (b : Bench) : Prop where
  device : DeviceInv idcode M b.emu b.log
  csn : b.emu.csn = false
  rstn : b.emu.rstn = true
  clk : b.emu.dom.clk = clk
  bits : b.log.bits = bits
  so : b.so = so
  datrd : b.datrd = []
  ok : b.ok = true

namespace During

variable {clk : Bool} {bits : List Bool} {so : List (Option Bool)} {b : Bench}

/-- A change of the pins without a rising edge. -/
theorem pins (h : During idcode M clk bits so b) (clk' si : Bool)
    (hr : b.emu.dom.rises clk' = false) :
    During idcode M clk' bits so
      { b with
        emu := b.emu.pins idcode false true clk' si
        log := b.log.next b.emu.dom clk' (resetInput false true) si b.emu.esoDelayed } :=
  { device := h.device.pins false true clk' si
    csn := rfl
    rstn := rfl
    clk := rfl
    bits := (BusLog.bits_next_of_not_rises hr _ _ _).trans h.bits
    so := h.so
    datrd := h.datrd
    ok := h.ok }

/-- The other edges of the system clock disturb nothing. -/
theorem stable : Stable (Bench.step idcode) Event.own (During idcode M clk bits so) := by
  intro b e he h
  match e with
  | .idle adr datW =>
    exact { h with device := h.device.step (.sys ⟨adr, datW, false⟩) (by simp) }

/-- While the clock is low, the pin shows the answer to all bits taken in. -/
theorem so_eq (h : During idcode M false bits so b) : b.emu.so = respond idcode M bits := by
  have htracks := h.device.base.base.base.tracks
  have hlow := htracks.low h.clk
  have hlen : b.log.rises.length = bits.length := by rw [← BusLog.length_bits, h.bits]
  rw [h.device.so_eq, h.bits]
  cases hf : b.log.fallen with
  | none =>
    -- no edge yet: nothing is driven, and nothing is due
    rw [hf, Option.getD_none, hlen] at hlow
    exact (respond_header (by omega)).symm
  | some f =>
    rw [hf, Option.getD_some, hlen] at hlow
    rw [Option.bind_some, hlow, List.take_length]

/-- `si` takes the level of the next bit. -/
theorem setSi (h : During idcode M false bits so b) (level : Bool) :
    During idcode M false bits so (Bench.step idcode b (.si level)) ∧
      (Bench.step idcode b (.si level)).emu.si = level := by
  refine ⟨?_, rfl⟩
  have hstill : b.emu.dom.rises b.emu.dom.clk = false := Bool.not_and_self _
  have hpins := h.pins b.emu.dom.clk level hstill
  rw [h.clk] at hpins
  rw [Bench.step, Bench.emit, FlashEmu.step, logEvent, h.csn, h.rstn, h.clk]
  exact hpins

/-- The clock rises and the chip takes in the bit on the line. -/
theorem rise (h : During idcode M false bits so b) :
    During idcode M true (bits ++ [b.emu.si]) so (Bench.step idcode b (.sclk true)) := by
  have hr : b.emu.dom.rises true = true := DomainPair.rises_iff.mpr ⟨h.clk, rfl⟩
  have hbits := BusLog.bits_next_of_rises hr b.emu.si b.emu.esoDelayed b.log
  rw [Bench.step, Bench.emit, FlashEmu.step, logEvent, h.csn, h.rstn]
  exact
    { device := h.device.pins false true true b.emu.si
      csn := rfl
      rstn := rfl
      clk := rfl
      bits := hbits.trans (by rw [h.bits])
      so := h.so
      datrd := h.datrd
      ok := h.ok }

/-- The clock falls. -/
theorem fall (h : During idcode M true bits so b) :
    During idcode M false bits so (Bench.step idcode b (.sclk false)) := by
  have hr : b.emu.dom.rises false = false := Bool.and_false _
  rw [Bench.step, Bench.emit, FlashEmu.step, logEvent, h.csn, h.rstn]
  exact h.pins false b.emu.si hr

/-- The driver reads the line. -/
theorem sample (h : During idcode M false bits so b) :
    During idcode M false bits (so ++ [respond idcode M bits]) (Bench.step idcode b .sample) :=
  { h with so := by rw [Bench.step, h.so, h.so_eq] }

/-- The driver's assertion holds. -/
theorem assertSclk (h : During idcode M false bits so b) :
    During idcode M false bits so (Bench.step idcode b .assertSclk) :=
  { h with ok := by rw [Bench.step, h.ok, h.clk]; rfl }

end During

/-! ## The drivers of the SPI side -/

/-- What a driver samples while it sends `si` after `bits`: the answer before each clock. -/
def answers (idcode : BitVec 24) (M : BitVec 8 → BitVec 8) (writeOnly : Bool)
    (bits si : List Bool) : List (Option Bool) :=
  if writeOnly then [] else (List.range si.length).map fun i => respond idcode M (bits ++ si.take i)

/-- One more bit, one more answer. -/
theorem answers_concat (writeOnly : Bool) (bits si : List Bool) (di : Bool) :
    answers idcode M writeOnly bits (si ++ [di]) =
      answers idcode M writeOnly bits si ++
        if writeOnly then [] else [respond idcode M (bits ++ si)] := by
  cases writeOnly with
  | true => rfl
  | false =>
    simp only [answers, Bool.false_eq_true, if_false, List.length_append, List.length_singleton,
      List.range_succ, List.map_append, List.map_cons, List.map_nil]
    congr 1
    · apply List.map_congr_left
      intro i hi
      rw [List.take_append_of_le_length (List.mem_range.mp hi).le]
    · rw [List.take_left']
      rfl

/-- The line keeps its level between the driver's events. -/
theorem stable_si (level : Bool) :
    Stable (Bench.step idcode) Event.own fun b => b.emu.si = level := by
  intro b e he h
  match e with
  | .idle adr datW => exact h

/-- A transaction is opened. -/
theorem spiTxfrStart_triple : Triple (Bench.step idcode) Event.own
    (Rest idcode false true false M [] []) spiTxfrStart (During idcode M false [] []) := by
  refine Triple.act Rest.stable During.stable rfl fun b h => ?_
  have hstill : b.emu.dom.rises b.emu.dom.clk = false := Bool.not_and_self _
  have hlog : b.log = {} := h.inv.tracks.held (by rw [resetInput, h.csn, Bool.or_true])
  have hdev : DeviceInv idcode M b.emu b.log := h.mem ▸ DeviceInv.of_deselected h.inv h.csn h.sel
  have hbits := BusLog.bits_next_of_not_rises hstill b.emu.si b.emu.esoDelayed b.log
  rw [Bench.step, Bench.emit, FlashEmu.step, logEvent, h.rstn]
  exact
    { device := hdev.pins false true b.emu.dom.clk b.emu.si
      csn := rfl
      rstn := rfl
      clk := h.clk
      bits := hbits.trans (by rw [hlog]; rfl)
      so := h.so
      datrd := h.datrd
      ok := h.ok }

/-- A transaction is closed. -/
theorem spiTxfrEnd_triple {bits : List Bool} {so : List (Option Bool)} :
    Triple (Bench.step idcode) Event.own (During idcode M false bits so) spiTxfrEnd
      (Rest idcode false true false M so []) := by
  refine Triple.act During.stable Rest.stable rfl fun b h => ?_
  obtain ⟨hsel, hmem⟩ := Tidy.flashMem_pins idcode b.emu true true b.emu.dom.clk b.emu.si
  rw [Bench.step, Bench.emit, FlashEmu.step, logEvent, h.rstn]
  exact
    { inv := h.device.base.base.base.pins true true b.emu.dom.clk b.emu.si
      csn := rfl
      rstn := rfl
      clk := h.clk
      sel := hsel.trans h.device.base.base.sel
      mem := hmem.trans h.device.base.base.mem
      so := h.so
      datrd := h.datrd
      ok := h.ok }

/-- One bit of a transaction. -/
theorem tick_triple (writeOnly di : Bool) {bits : List Bool} {so : List (Option Bool)} :
    Triple (Bench.step idcode) Event.own (During idcode M false bits so) (tick writeOnly di)
      (During idcode M false (bits ++ [di])
        (so ++ if writeOnly then [] else [respond idcode M bits])) := by
  have hset : ∀ so', Stable (Bench.step idcode) Event.own
      fun b => During idcode M false bits so' b ∧ b.emu.si = di :=
    fun so' => During.stable.and (stable_si di)
  have hline : Triple (Bench.step idcode) Event.own (During idcode M false bits so)
      ([.si di] ++ [.assertSclk]) fun b => During idcode M false bits so b ∧ b.emu.si = di :=
    (Triple.act During.stable (hset so) rfl fun b h => h.setSi di).seq
      (Triple.act (hset so) (hset so) rfl fun b h => ⟨h.1.assertSclk, h.2⟩)
  have hread : Triple (Bench.step idcode) Event.own
      (fun b => During idcode M false bits so b ∧ b.emu.si = di)
      (if writeOnly then [] else [.sample])
      (fun b => During idcode M false bits
        (so ++ if writeOnly then [] else [respond idcode M bits]) b ∧ b.emu.si = di) := by
    cases writeOnly with
    | true => exact (Triple.skip (hset so)).weaken (fun _ h => h) (fun _ h => by simpa using h)
    | false => exact Triple.act (hset so) (hset _) rfl fun b h => ⟨h.1.sample, h.2⟩
  have hrise : ∀ so', Triple (Bench.step idcode) Event.own
      (fun b => During idcode M false bits so' b ∧ b.emu.si = di) [.sclk true]
      (During idcode M true (bits ++ [di]) so') := by
    refine fun so' => Triple.act (hset so') During.stable rfl fun b h => ?_
    have h' := h.1.rise
    rwa [h.2] at h'
  have hfall : ∀ so', Triple (Bench.step idcode) Event.own
      (During idcode M true (bits ++ [di]) so') [.sclk false]
      (During idcode M false (bits ++ [di]) so') :=
    fun so' => Triple.act During.stable During.stable rfl fun b h => h.fall
  exact (hline.seq hread).seq ((hrise _).seq (hfall _))

/-- **The bits of a transaction.** A driver that sends `si`, and samples unless it only writes,
reads the flash's answer to each prefix of what it has sent. -/
theorem tickSi_triple (si : List Bool) (writeOnly : Bool) {bits : List Bool}
    {so : List (Option Bool)} :
    Triple (Bench.step idcode) Event.own (During idcode M false bits so) (tickSi si writeOnly)
      (During idcode M false (bits ++ si) (so ++ answers idcode M writeOnly bits si)) := by
  refine (Triple.forEach (I := fun sent => During idcode M false (bits ++ sent)
    (so ++ answers idcode M writeOnly bits sent)) (fun _ => During.stable) si ?_).weaken
    (fun b h => ?_) fun _ h => h
  · intro sent di _
    have htick := @tick_triple idcode M writeOnly di (bits ++ sent)
      (so ++ answers idcode M writeOnly bits sent)
    rwa [List.append_assoc, List.append_assoc, ← answers_concat] at htick
  · simpa [answers] using h

/-- A whole transaction: `cmd` is sent, then `si`, during which the driver samples unless it only
writes. -/
theorem txfr_triple (cmd si : List Bool) (writeOnly : Bool) :
    Triple (Bench.step idcode) Event.own (Rest idcode false true false M [] [])
      (spiTxfrStart ++ tickSi cmd true ++ tickSi si writeOnly ++ spiTxfrEnd)
      (Rest idcode false true false M (answers idcode M writeOnly cmd si) []) :=
  ((spiTxfrStart_triple.seq (tickSi_triple cmd true)).seq (tickSi_triple si writeOnly)).seq
    spiTxfrEnd_triple

/-! ## Resets -/

section Reset

variable {sel rstn clk : Bool} {so : List (Option Bool)} {rd : List (BitVec 8)}

/-- The clock moves while the chip is not selected. -/
theorem sclk_triple (level : Bool) :
    Triple (Bench.step idcode) Event.own (Rest idcode sel rstn clk M so rd) [.sclk level]
      (Rest idcode sel rstn level M so rd) := by
  refine Triple.act Rest.stable Rest.stable rfl fun b h => ?_
  rw [Bench.step, Bench.emit, FlashEmu.step, logEvent, h.csn, h.rstn]
  exact h.pins rstn level b.emu.si

/-- The hardware reset is raised or released. -/
theorem rstn_triple (level : Bool) :
    Triple (Bench.step idcode) Event.own (Rest idcode sel rstn clk M so rd) [.rstn level]
      (Rest idcode sel level clk M so rd) := by
  refine Triple.act Rest.stable Rest.stable rfl fun b h => ?_
  rw [Bench.step, Bench.emit, FlashEmu.step, logEvent, h.csn, h.clk]
  exact h.pins level clk b.emu.si

/-- The other lines are set. -/
theorem lines_triple (level : Bool) :
    Triple (Bench.step idcode) Event.own (Rest idcode sel rstn clk M so rd)
      ([.csn true] ++ [.si level]) (Rest idcode sel rstn clk M so rd) := by
  refine Triple.seq (Q := Rest idcode sel rstn clk M so rd)
    (Triple.act Rest.stable Rest.stable rfl fun b h => ?_)
    (Triple.act Rest.stable Rest.stable rfl fun b h => ?_)
  · rw [Bench.step, Bench.emit, FlashEmu.step, logEvent, h.rstn, h.clk]
    exact h.pins rstn clk b.emu.si
  · rw [Bench.step, Bench.emit, FlashEmu.step, logEvent, h.csn, h.rstn, h.clk]
    exact h.pins rstn clk level

/-- **A reset** leaves the memory alone and the lines as the other drivers expect them. -/
theorem resetFlash_triple :
    Triple (Bench.step idcode) Event.own (Rest idcode sel rstn clk M so rd) resetFlash
      (Rest idcode sel true false M so rd) := by
  have hlines : Triple (Bench.step idcode) Event.own (Rest idcode sel rstn clk M so rd)
      resetFlashLines (Rest idcode sel true false M so rd) :=
    (sclk_triple false).seq ((rstn_triple true).seq (lines_triple false))
  have hclocks : Triple (Bench.step idcode) Event.own (Rest idcode sel false false M so rd)
      ((List.range 5).flatMap fun _ => [.sclk true, .sclk false])
      (Rest idcode sel false false M so rd) :=
    Triple.forEach (I := fun _ => Rest idcode sel false false M so rd) (fun _ => Rest.stable) _
      fun _ _ _ => (sclk_triple true).seq (sclk_triple false)
  exact ((hlines.seq (rstn_triple false)).seq hclocks).seq (rstn_triple true)

end Reset

/-! ## The drivers of the bus side -/

/-- The memory changes sides. -/
theorem setSel_triple (bus : CsrBus) (sel level : Bool) {so : List (Option Bool)}
    {rd : List (BitVec 8)} :
    Triple (Bench.step idcode) Event.own (Rest idcode sel true false M so rd) (bus.setSel level)
      (Rest idcode level true false M so rd) :=
  Triple.single Rest.stable Rest.stable (bus.setSel_own level) fun _ h => h.select level

/-- A byte is written. -/
theorem write_triple (bus : CsrBus) {adr : ℕ} (hadr : adr < 0x100) (dat : BitVec 8)
    {so : List (Option Bool)} {rd : List (BitVec 8)} :
    Triple (Bench.step idcode) Event.own (Rest idcode true true false M so rd) (bus.write adr dat)
      (Rest idcode true true false (Function.update M (BitVec.ofNat 8 adr) dat) so rd) :=
  Triple.single Rest.stable Rest.stable (bus.write_own adr dat hadr) fun _ h =>
    h.sys ⟨BitVec.ofNat 8 adr, dat, true⟩

/-- A byte is read. -/
theorem read_triple (bus : CsrBus) {adr : ℕ} (hadr : adr < 0x100) {so : List (Option Bool)}
    {rd : List (BitVec 8)} :
    Triple (Bench.step idcode) Event.own (Rest idcode true true false M so rd) (bus.read adr)
      (Rest idcode true true false M so (rd ++ [M (BitVec.ofNat 8 adr)])) := by
  obtain ⟨datW, hread⟩ := bus.read_own adr hadr
  exact Triple.single Rest.stable Rest.stable hread fun _ h => h.fetch _ datW

/-- **Reading over the bus** returns the bytes in order. -/
theorem readFlashWb_triple (bus : CsrBus) {addr sz : ℕ} (h : addr + sz ≤ 0x100) :
    Triple (Bench.step idcode) Event.own (Rest idcode false true false M [] [])
      (readFlashWb bus addr sz)
      (Rest idcode false true false M []
        ((List.range sz).map fun i => M (BitVec.ofNat 8 (addr + i)))) := by
  refine ((setSel_triple bus false true).seq ?_).seq (setSel_triple bus true false)
  refine Triple.forEach (I := fun done => Rest idcode true true false M []
    (done.map fun i => M (BitVec.ofNat 8 (addr + i)))) (fun _ => Rest.stable) _ fun done i hi => ?_
  have hlt : addr + i < 0x100 := by
    have hsz : i < sz := List.mem_range.mp hi
    omega
  rw [List.map_append]
  exact read_triple bus hlt

/-- **Writing over the bus** changes one byte after the other. -/
theorem writeFlashWb_triple (bus : CsrBus) {addr : ℕ} {buf : List (BitVec 8)}
    (h : addr + buf.length ≤ 0x100) :
    Triple (Bench.step idcode) Event.own (Rest idcode false true false M [] [])
      (writeFlashWb bus addr buf)
      (Rest idcode false true false
        (buf.zipIdx.foldl (fun M x => Function.update M (BitVec.ofNat 8 (addr + x.2)) x.1) M)
        [] []) := by
  refine ((setSel_triple bus false true).seq ?_).seq (setSel_triple bus true false)
  refine Triple.forEach (I := fun (done : List (BitVec 8 × ℕ)) => Rest idcode true true false
    (done.foldl (fun M x => Function.update M (BitVec.ofNat 8 (addr + x.2)) x.1) M) [] [])
    (fun _ => Rest.stable) _ fun done x hx => ?_
  have hlt : addr + x.2 < 0x100 := by
    have hlen := (List.mem_zipIdx hx).2.1
    omega
  rw [List.foldl_append]
  exact write_triple bus hlt x.1

end EmuSim

end LiteSpiH4x
