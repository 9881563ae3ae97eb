import LiteSpiH4x.Digital.ClockDomains
import LiteSpiH4x.Dram.FlashEmuDRAMLite
import LiteSpiH4x.Emu.CmdFsm
import LiteSpiH4x.StepMachine.Run

/-! # FlashEmuLite

The SPI flash emulator in front of a DRAM. Its command state machine is a copy of FlashEmu's
without quad reads, on the gated clock `sclk & ~csn` and under a reset that only `csn` raises.
The leading bits of an address go to the prefetcher in the `sys` domain: the address on plain
wires, its validity through two flip-flops.

* **`Regs.next`** — an edge of the gated clock for the registers of the `spi` domain.
* **`step`** — a change of the pins, or a system clock edge of synchroniser, prefetcher and port.
* **`Inv`** — after every run, the front end and the partial address are functions of the bits
  logged since the reset was released.
* **`sclkLog`** — the transaction as the host sees it, by the edges of `sclk` itself; in mode 0 it
  is the log of the gated clock. -/

namespace LiteSpiH4x

open Digital ReadPort StepMachine

/-- Parameters of a FlashEmuLite: those of its prefetcher, with `prefetch_bits` between one and
the address width. -/
structure LiteConfig extends DramConfig where
  one_le : 1 ≤ prefetchBits
  lt : prefetchBits < 24

/-- The default `prefetch_bits = 6` at a 128-bit port with 20 address bits. -/
def LiteConfig.sixBits : LiteConfig where
  k := 4
  prefetchBits := 6
  addressWidth := 20
  le := by decide
  one_le := by decide
  lt := by decide

namespace FlashEmuLite

variable {cfg : LiteConfig}

/-- The registers of the `spi` clock domain. -/
structure Regs (cfg : LiteConfig) extends CmdRegs where
  /-- `dr` -/
  dr : BitVec 8
  /-- `partial_addr` -/
  paddr : BitVec (24 - cfg.prefetchBits)
  deriving DecidableEq

/-! ## Byte selection -/

/-- `nbytes_per_mt` -/
def nbytesPerMt (cfg : LiteConfig) : ℕ := cfg.dataWidth / 8

/-- A port word of `8 * 2 ^ k` bits has `2 ^ k` bytes. -/
theorem nbytesPerMt_eq (cfg : LiteConfig) : nbytesPerMt cfg = 2 ^ cfg.k := by
  rw [nbytesPerMt, DramConfig.dataWidth]
  omega

instance : NeZero (nbytesPerMt cfg) := ⟨by rw [nbytesPerMt_eq]; exact (Nat.two_pow_pos _).ne'⟩

/-- `byte_idx.nbits`, declared by the exclusive bound `nbytes_per_mt`. -/
abbrev byteIdxWidth (cfg : LiteConfig) : ℕ := bitsFor (nbytesPerMt cfg - 1)

/-- The width of `pfr_idx`, declared by the exclusive bound `prefetch_bits`. -/
abbrev pfrIdxWidth (cfg : LiteConfig) : ℕ := bitsFor (cfg.prefetchBits - 1)

/-- `pfr_idx` -/
def pfrIdx (cfg : LiteConfig) (addr : BitVec 24) : BitVec (pfrIdxWidth cfg) :=
  (addr >>> byteIdxWidth cfg).setWidth _

/-- `pfr_sel` -/
def pfrSel (pfRegs : Fin cfg.numPrefetchReads → cfg.Word) (addr : BitVec 24) : cfg.Word :=
  pfRegs (clampIndex cfg.numPrefetchReads (pfrIdx cfg addr).toNat)

/-- `byte_idx` -/
def byteIdx (cfg : LiteConfig) (addr : BitVec 24) : BitVec (byteIdxWidth cfg) := addr.setWidth _

/-- `byte_arr[byte_idx]` of a port word. -/
def byteOf (word : cfg.Word) (addr : BitVec 24) : BitVec 8 :=
  word.extractLsb' (8 * (clampIndex (nbytesPerMt cfg) (byteIdx cfg addr).toNat : ℕ)) 8

/-- The byte index has as many bits as the address has below the word. -/
theorem toNat_byteIdx (cfg : LiteConfig) (addr : BitVec 24) :
    min (byteIdx cfg addr).toNat (nbytesPerMt cfg - 1) = addr.toNat % 2 ^ cfg.k := by
  rw [byteIdx, BitVec.toNat_setWidth, byteIdxWidth, nbytesPerMt_eq]
  rcases Nat.eq_zero_or_pos cfg.k with hk | hk
  · rw [hk, pow_zero, Nat.sub_self, Nat.min_zero, Nat.mod_one]
  · have hmod := Nat.mod_lt addr.toNat (Nat.two_pow_pos cfg.k)
    rw [bitsFor_two_pow_sub_one hk, Nat.min_eq_left (by omega)]

/-- **The byte of a word**, the lowest first, whatever the width of the port. -/
theorem byteOf_eq (word : cfg.Word) (addr : BitVec 24) :
    byteOf word addr = word.extractLsb' (8 * (addr.toNat % 2 ^ cfg.k)) 8 := by
  rw [byteOf, val_clampIndex, toNat_byteIdx]

/-- `byte_sel` -/
def byteSel (pfRegs : Fin cfg.numPrefetchReads → cfg.Word) (addr : BitVec 24) : BitVec 8 :=
  byteOf (pfrSel pfRegs addr) addr

/-! ## The command state machine -/

namespace Regs

/-- The registers after an edge with the domain's reset up. -/
def reset (idcode : BitVec 24) (si : Bool) : Regs cfg where
  toCmdRegs := CmdRegs.reset idcode si
  dr := 0
  paddr := 0

/-- `partial_addr_valid` -/
def paddrValid (r : Regs cfg) : Bool :=
  match r.state with
  | .readGetAddr => r.addrCnt = BitVec.ofNat 5 (23 - (cfg.prefetchBits - 1))
  | _ => false

/-- `partial_addr_fw`: the partial address over zeros. -/
def paddrFw (r : Regs cfg) : BitVec 24 := r.paddr.setWidth 24 <<< cfg.prefetchBits

/-- `dr_tmp`: at the first bit of a byte the selected byte, afterwards the shift register. -/
def drTmp (r : Regs cfg) (byteSel : BitVec 8) : BitVec 8 :=
  if r.drBitCnt = 0 then byteSel else r.dr

/-- `eso` -/
def eso (r : Regs cfg) (byteSel : BitVec 8) : Bool :=
  match r.state with
  | .rdid => r.idcode.msb
  | .readGetData => (r.drTmp byteSel).msb
  | _ => false

/-- The `cmd_fsm` clauses: the registers after an edge of the `spi` clock with reset down. -/
def next (r : Regs cfg) (si : Bool) (byteSel : BitVec 8) : Regs cfg :=
  match r.state with
  | .getCmd =>
    { r with
      cmd := r.cmdNext si
      cmdBitCnt := r.cmdBitCnt + 1
      state :=
        if r.cmdBitCnt = 7 then
          if r.cmdNext si = cmdRead then .readGetAddr
          else if r.cmdNext si = cmdRdid then .rdid
          else .badCmdErr
        else r.state }
  | .rdid => { r with idcode := r.idcode.shiftConcat r.idcode.msb }
  | .readGetAddr =>
    { r with
      addr := r.addrNext si
      addrCnt := r.addrCnt + 1
      paddr :=
        -- the target is narrower than `addr_next` and keeps its low bits
        if r.addrCnt = BitVec.ofNat 5 (23 - cfg.prefetchBits) then (r.addrNext si).setWidth _
        else r.paddr
      state := if r.addrCnt = 23 then .readGetData else r.state }
  | .readGetData =>
    { r with
      drBitCnt := r.drBitCnt + 1
      -- the first bit of a byte leaves through `dr_tmp`, the other seven through `dr`
      dr := (r.drTmp byteSel).shiftConcat false
      addr := if r.drBitCnt = 7 then r.addrNext si else r.addr }
  | .badCmdErr => r

/-- The part of the registers that FlashEmu has too. -/
def front (r : Regs cfg) : Front where
  toCmdRegs := r.toCmdRegs
  qmode := false

/-- The reset edge resets the front end. -/
@[simp] theorem front_reset (idcode : BitVec 24) (si : Bool) :
    (reset idcode si : Regs cfg).front = Front.reset idcode si := rfl

/-- **The clock edge of the front end** does not depend on read data. -/
theorem front_next (r : Regs cfg) (si : Bool) (byteSel : BitVec 8) :
    (r.next si byteSel).front = r.front.next false si := by
  obtain ⟨⟨state, cmdBitCnt, cmd, addr, addrCnt, drBitCnt, idcode⟩, dr, paddr⟩ := r
  cases state
  case getCmd =>
    simp only [next, front, Front.next, CmdRegs.cmdNext, Front.accept, Bool.false_eq_true,
      false_and, and_false, if_false]
    rfl
  case readGetData => simp [next, front, Front.next, CmdRegs.addrNext]
  all_goals rfl

/-- Only the address state loads the partial address. -/
theorem paddr_next_of_ne {r : Regs cfg} (h : r.state ≠ .readGetAddr) (si : Bool)
    (byteSel : BitVec 8) : (r.next si byteSel).paddr = r.paddr := by
  unfold next
  split
  case h_3 hs => exact absurd hs h
  all_goals rfl

end Regs

/-! ## The emulator, its prefetcher and the port -/

/-- The emulator, the pins it is wired to, and the port of its prefetcher. -/
structure State (cfg : LiteConfig) where
  /-- Pin `csn`. -/
  csn : Bool
  /-- Pin `sclk`. -/
  sclk : Bool
  /-- Pin `si`. -/
  si : Bool
  /-- Clock `sclk & ~csn` and the resets of `cd_spi` and `cd_spi_inv`. -/
  dom : DomainPair
  /-- Registers of `cd_spi`. -/
  regs : Regs cfg
  /-- `eso_delayed`, in `cd_spi_inv`, which drives pin `so`. -/
  esoDelayed : Bool
  /-- First flip-flop of `paddr_valid_sync`. -/
  paddrValidMeta : Bool
  /-- Second flip-flop, `partial_addr_valid_sys`. -/
  paddrValidSys : Bool
  /-- The prefetcher. -/
  flashMem : FlashEmuDRAMLite cfg.toDramConfig
  /-- Addresses of the reads the port has accepted and not answered. -/
  outstanding : List cfg.Addr

/-- What can happen: the level pins change, `sclk` changes, or the system clock has an edge. -/
inductive Event
  | lines (csn si : Bool)
  | sclk (level : Bool)
  | sys (c : Cycle)
  deriving DecidableEq, Repr

namespace State

/-- `byte_sel` as the registers stand. -/
def byteSel (s : State cfg) : BitVec 8 := FlashEmuLite.byteSel s.flashMem.pfRegs s.regs.addr

/-- The pins take new levels. The gated clock may have an edge at a change of `csn`. -/
def pins (idcode : BitVec 24) (s : State cfg) (csn sclk si : Bool) : State cfg :=
  let clk := sclk && !csn
  { s with
    csn := csn
    sclk := sclk
    si := si
    dom := s.dom.drive clk csn
    regs :=
      if s.dom.rises clk then
        (if s.dom.rstNow csn then Regs.reset idcode si else s.regs.next si s.byteSel)
      else s.regs
    esoDelayed :=
      if s.dom.falls clk then (if s.dom.rstInvNow csn then false else s.regs.eso s.byteSel)
      else s.esoDelayed }

/-- A system clock edge: the synchroniser, and the prefetcher at its port. -/
def sysEdge (mem : cfg.Addr → cfg.Word) (s : State cfg) (c : Cycle) : State cfg :=
  let x := (FlashEmuDRAMLite.master cfg.toDramConfig).heldStep mem (s.flashMem, s.outstanding)
    ((s.regs.paddrFw, s.paddrValidSys), c)
  { s with
    -- `partial_addr_valid` is decoded from the state, not registered in `cd_spi`
    paddrValidMeta := s.regs.paddrValid
    paddrValidSys := s.paddrValidMeta
    flashMem := x.1
    outstanding := x.2 }

/-- The prefetcher's clock edge. -/
theorem flashMem_sysEdge (mem : cfg.Addr → cfg.Word) (s : State cfg) (c : Cycle) :
    (s.sysEdge mem c).flashMem = s.flashMem.next s.regs.paddrFw s.paddrValidSys c.ready
      ((presented s.outstanding c).map mem) := rfl

/-- The port's commands after its clock edge. -/
theorem outstanding_sysEdge (mem : cfg.Addr → cfg.Word) (s : State cfg) (c : Cycle) :
    (s.sysEdge mem c).outstanding =
      ((FlashEmuDRAMLite.master cfg.toDramConfig).heldStep mem (s.flashMem, s.outstanding)
        ((s.regs.paddrFw, s.paddrValidSys), c)).2 := rfl

end State

/-- One event. -/
def step (idcode : BitVec 24) (mem : cfg.Addr → cfg.Word) (s : State cfg) : Event → State cfg
  | .lines csn si => s.pins idcode csn s.sclk si
  | .sclk level => s.pins idcode s.csn level s.si
  | .sys c => s.sysEdge mem c

/-- The emulator at power-on with `csn` high. -/
def boot (cfg : LiteConfig) (idcode : BitVec 24) (sclk si : Bool) : State cfg where
  csn := true
  sclk := sclk
  si := si
  dom := ⟨false, true, true⟩
  regs := { CmdRegs.reset idcode false with cmd := 0, dr := 0, paddr := 0 }
  esoDelayed := false
  paddrValidMeta := false
  paddrValidSys := false
  flashMem := FlashEmuDRAMLite.boot cfg.toDramConfig
  outstanding := []

/-- A host clocks in bits: for each, the line is set, `sclk` rises and falls. -/
def clockIn (bits : List Bool) : List Event :=
  bits.flatMap fun b => [.lines false b, .sclk true, .sclk false]

/-! ## The bus log -/

/-- The bus log of the transaction in progress, by the edges of the gated clock. -/
def logEvent (s : State cfg) (e : Event) (w : BusLog) : BusLog :=
  match e with
  | .lines csn si => w.next s.dom (s.sclk && !csn) csn si s.esoDelayed
  | .sclk level => w.next s.dom (level && !s.csn) s.csn s.si s.esoDelayed
  | .sys _ => w

/-- The bus log after a run. -/
def busLog (idcode : BitVec 24) (mem : cfg.Addr → cfg.Word) (s : State cfg) (es : List Event) :
    BusLog :=
  record (step idcode mem) logEvent s {} es

/-! ## The front end along a run -/

/-- The leading `24 - prefetch_bits` address bits of a transaction. -/
def lead (cfg : LiteConfig) (bits : List Bool) : BitVec (24 - cfg.prefetchBits) :=
  ofBits _ ((bits.drop 8).take (24 - cfg.prefetchBits))

/-- Leading address bits over zeros, as a byte address. -/
def windowAddr (cfg : LiteConfig) (lead : BitVec (24 - cfg.prefetchBits)) : BitVec 24 :=
  lead.setWidth 24 <<< cfg.prefetchBits

/-- The port word of a byte address: `8 * 2 ^ k` bits are `2 ^ k` bytes. -/
def portWord (cfg : LiteConfig) (addr : BitVec 24) : cfg.Addr :=
  (addr >>> cfg.k).setWidth cfg.addressWidth

/-- The transaction is a read, and its leading address bits have come in. -/
def LeadIn (cfg : LiteConfig) (bits : List Bool) : Prop :=
  Front.opcode bits = cmdRead ∧ 32 - cfg.prefetchBits ≤ bits.length

instance (cfg : LiteConfig) (bits : List Bool) : Decidable (LeadIn cfg bits) :=
  inferInstanceAs (Decidable (_ ∧ _))

/-- `partial_addr` as a function of the transaction's bits. -/
def paddrAfter (cfg : LiteConfig) (bits : List Bool) : BitVec (24 - cfg.prefetchBits) :=
  if LeadIn cfg bits then lead cfg bits else 0

/-- Every module that has no quad reads takes `CMD_READ` only. -/
theorem isRead_false_iff (c : BitVec 8) : Front.IsRead false c ↔ c = cmdRead := by
  simp only [Front.IsRead, Bool.false_eq_true, false_and, or_false]

/-- The address is being shifted in between the opcode and the end of the header of a read. -/
theorem state_addr_iff {r : Regs cfg} {idcode : BitVec 24} {bits : List Bool}
    (h : r.front = Front.decode false idcode bits) :
    r.state = .readGetAddr ↔
      8 ≤ bits.length ∧ bits.length < 32 ∧ Front.opcode bits = cmdRead := by
  rw [← isRead_false_iff, ← @Front.state_decode_addr_iff false idcode, ← h]
  rfl

/-- Data is delivered from the end of the header of a read on. -/
theorem state_data_iff {r : Regs cfg} {idcode : BitVec 24} {bits : List Bool}
    (h : r.front = Front.decode false idcode bits) :
    r.state = .readGetData ↔ 32 ≤ bits.length ∧ Front.opcode bits = cmdRead := by
  rw [← isRead_false_iff, ← @Front.state_decode_data_iff false idcode, ← h]
  rfl

/-- While the address is being shifted in, it and its counter are read off the bits. -/
theorem addr_of_state {r : Regs cfg} {idcode : BitVec 24} {bits : List Bool}
    (h : r.front = Front.decode false idcode bits) (hs : r.state = .readGetAddr) :
    r.addr = ofBits 24 (bits.drop 8) ∧ r.addrCnt = BitVec.ofNat 5 (bits.length - 8) := by
  obtain ⟨h8, h32, hop⟩ := (state_addr_iff h).mp hs
  have hdec := @Front.decode_addr false idcode bits h8 h32 ((isRead_false_iff _).mpr hop)
  rw [← h] at hdec
  exact ⟨congrArg (fun f => f.addr) hdec, congrArg (fun f => f.addrCnt) hdec⟩

/-- More bits than the leading ones do not change them. -/
theorem lead_append {bits : List Bool} (h : 32 - cfg.prefetchBits ≤ bits.length)
    (bs : List Bool) : lead cfg (bits ++ bs) = lead cfg bits := by
  have hlt := cfg.lt
  rw [lead, lead, List.drop_append_of_le_length (by omega),
    List.take_append_of_le_length (by rw [List.length_drop]; omega)]

/-- Once in, the leading bits stay in. -/
theorem LeadIn.append {bits : List Bool} (h : LeadIn cfg bits) (bs : List Bool) :
    LeadIn cfg (bits ++ bs) := by
  have hlt := cfg.lt
  refine ⟨?_, ?_⟩
  · rw [Front.opcode_append (by have := h.2; omega), h.1]
  · rw [List.length_append]
    exact Nat.le_add_right_of_le h.2

/-- **The partial address** is loaded by the edge that takes in the last leading bit, and by no
other. -/
theorem paddrAfter_concat {bits : List Bool} (h8 : 8 ≤ bits.length) (b : Bool) :
    paddrAfter cfg (bits ++ [b]) =
      if Front.opcode bits = cmdRead ∧ bits.length = 31 - cfg.prefetchBits then
        ((ofBits 24 (bits.drop 8)).shiftConcat b).setWidth _
      else paddrAfter cfg bits := by
  have hlt := cfg.lt
  have hop : Front.opcode (bits ++ [b]) = Front.opcode bits := Front.opcode_append h8 [b]
  -- the bit is the last leading one, comes after it, or comes before it
  by_cases hnew : Front.opcode bits = cmdRead ∧ bits.length = 31 - cfg.prefetchBits
  · have hin : LeadIn cfg (bits ++ [b]) := ⟨by rw [hop, hnew.1], by simp; omega⟩
    rw [if_pos hnew, paddrAfter, if_pos hin, lead, ← ofBits_concat, setWidth_ofBits (by omega),
      List.drop_append_of_le_length h8, List.take_of_length_le (by simp; omega)]
  · rw [if_neg hnew, paddrAfter, paddrAfter]
    by_cases hin : LeadIn cfg bits
    · rw [if_pos (hin.append [b]), if_pos hin, lead_append hin.2]
    · have hnot : ¬ LeadIn cfg (bits ++ [b]) := by
        rintro ⟨hread, hlen⟩
        rw [hop] at hread
        rw [List.length_append, List.length_singleton] at hlen
        by_cases hl : bits.length = 31 - cfg.prefetchBits
        · exact hnew ⟨hread, hl⟩
        · exact hin ⟨hread, by omega⟩
      rw [if_neg hnot, if_neg hin]

/-- Before the opcode is in there is no partial address. -/
theorem paddrAfter_of_short {bits : List Bool} (h : bits.length ≤ 8) : paddrAfter cfg bits = 0 := by
  have hlt := cfg.lt
  exact if_neg fun hin => absurd hin.2 (by omega)

/-- **The clock edge of the partial address.** -/
theorem paddr_next {r : Regs cfg} {idcode : BitVec 24} {bits : List Bool}
    (h : r.front = Front.decode false idcode bits) (hp : r.paddr = paddrAfter cfg bits)
    (si : Bool) (byteSel : BitVec 8) :
    (r.next si byteSel).paddr = paddrAfter cfg (bits ++ [si]) := by
  have hlt := cfg.lt
  have hstate := state_addr_iff h
  rcases lt_or_ge bits.length 8 with hshort | h8
  · have hne : r.state ≠ .readGetAddr := fun hs => absurd (hstate.mp hs).1 (by omega)
    have hzero : paddrAfter cfg bits = 0 := paddrAfter_of_short hshort.le
    rw [paddrAfter_of_short (by simp; omega), ← hzero, ← hp, Regs.paddr_next_of_ne hne]
  rw [paddrAfter_concat h8, ← hp]
  by_cases hs : r.state = .readGetAddr
  · obtain ⟨-, h32, hop⟩ := hstate.mp hs
    obtain ⟨haddr, hcnt⟩ := addr_of_state h hs
    have hlast : r.addrCnt = BitVec.ofNat 5 (23 - cfg.prefetchBits) ↔
        Front.opcode bits = cmdRead ∧ bits.length = 31 - cfg.prefetchBits := by
      rw [hcnt, ← BitVec.toNat_inj, BitVec.toNat_ofNat, BitVec.toNat_ofNat]
      exact ⟨fun heq => ⟨hop, by omega⟩, fun hl => by rw [hl.2]; omega⟩
    simp only [Regs.next, CmdRegs.addrNext, hs, haddr]
    exact if_congr hlast rfl rfl
  · rw [Regs.paddr_next_of_ne hs, if_neg]
    rintro ⟨hop, hlen⟩
    exact hs (hstate.mpr ⟨h8, by omega, hop⟩)

/-- **The validity of the partial address** is raised between the edge that takes in the last
leading bit and the next. -/
theorem paddrValid_iff {r : Regs cfg} {idcode : BitVec 24} {bits : List Bool}
    (h : r.front = Front.decode false idcode bits) :
    r.paddrValid = true ↔ Front.opcode bits = cmdRead ∧ bits.length = 32 - cfg.prefetchBits := by
  have hlt := cfg.lt
  have hone := cfg.one_le
  have hstate := state_addr_iff h
  by_cases hs : r.state = .readGetAddr
  · obtain ⟨h8, h32, hop⟩ := hstate.mp hs
    obtain ⟨-, hcnt⟩ := addr_of_state h hs
    simp only [Regs.paddrValid, hs, hcnt, decide_eq_true_eq]
    rw [← BitVec.toNat_inj, BitVec.toNat_ofNat, BitVec.toNat_ofNat]
    exact ⟨fun heq => ⟨hop, by omega⟩, fun hl => by rw [hl.2]; omega⟩
  · have hfalse : r.paddrValid = false := by
      unfold Regs.paddrValid
      split
      · contradiction
      · rfl
    rw [hfalse]
    refine ⟨fun hf => absurd hf Bool.false_ne_true, ?_⟩
    rintro ⟨hop, hlen⟩
    exact absurd (hstate.mpr ⟨by omega, by omega, hop⟩) hs

/-- What holds between the emulator and its bus log after every run. -/
structure Inv (idcode : BitVec 24) (s : State cfg) (w : BusLog) : Prop where
  /-- The clock is gated. -/
  clk : s.dom.clk = (s.sclk && !s.csn)
  /-- The log is in step with the two clock domains. -/
  tracks : Tracks s.dom s.csn w
  /-- The front end has decoded the logged bits. -/
  front : w.rises ≠ [] → s.regs.front = Front.decode false idcode w.bits
  /-- The partial address is the one among the logged bits. -/
  paddr : w.rises ≠ [] → s.regs.paddr = paddrAfter cfg w.bits

namespace Inv

variable {idcode : BitVec 24} {mem : cfg.Addr → cfg.Word} {s : State cfg} {w : BusLog}

/-- At power-on. -/
theorem boot (sclk si : Bool) : Inv idcode (FlashEmuLite.boot cfg idcode sclk si) {} where
  clk := by rw [FlashEmuLite.boot, Bool.not_true, Bool.and_false]
  tracks := Tracks.of_held rfl rfl
  front := fun h => absurd rfl h
  paddr := fun h => absurd rfl h

/-- A change of the pins keeps the invariant. -/
theorem pins (h : Inv idcode s w) (csn sclk si : Bool) :
    Inv idcode (s.pins idcode csn sclk si)
      (w.next s.dom (sclk && !csn) csn si s.esoDelayed) where
  clk := rfl
  tracks := h.tracks.next _ csn si s.esoDelayed
  front := by
    refine h.tracks.register
      (P := fun bits (r : Regs cfg) => r.front = Front.decode false idcode bits)
      h.front ?_ fun _ _ _ hr => ?_
    · rw [Regs.front_reset, Front.decode_singleton]
    · rw [Regs.front_next, hr, Front.decode_concat]
  paddr := by
    refine h.tracks.register (P := fun bits (r : Regs cfg) => r.paddr = paddrAfter cfg bits)
      h.paddr ?_ fun _ _ hne hr => ?_
    · exact (paddrAfter_of_short (by simp)).symm
    · exact paddr_next (h.front hne) hr _ _

/-- **Step lemma.** Every event keeps the invariant. -/
theorem step (h : Inv idcode s w) (e : Event) :
    Inv idcode (FlashEmuLite.step idcode mem s e) (logEvent s e w) := by
  match e with
  | .lines csn si => exact h.pins csn s.sclk si
  | .sclk level => exact h.pins s.csn level s.si
  | .sys c => exact ⟨h.clk, h.tracks, h.front, h.paddr⟩

/-- **How the validity gets up.** If it is up after a change of the pins, it was so before, or the
change was the rising edge that takes in the last leading bit of a read. -/
theorem paddrValid_pins (h : Inv idcode s w) {csn sclk si : Bool}
    (hv : (s.pins idcode csn sclk si).regs.paddrValid = true) :
    s.dom.rises (sclk && !csn) = false ∧ s.regs.paddrValid = true ∨
      s.dom.rises (sclk && !csn) = true ∧
        (w.next s.dom (sclk && !csn) csn si s.esoDelayed).rises ≠ [] ∧
        Front.opcode (w.next s.dom (sclk && !csn) csn si s.esoDelayed).bits = cmdRead ∧
        (w.next s.dom (sclk && !csn) csn si s.esoDelayed).bits.length = 32 - cfg.prefetchBits := by
  cases hr : s.dom.rises (sclk && !csn) with
  | false =>
    left
    refine ⟨rfl, ?_⟩
    simpa only [State.pins, hr, Bool.false_eq_true, if_false] using hv
  | true =>
    right
    obtain rfl : csn = false := DomainPair.gate_of_rises hr
    have hne := BusLog.rises_next_ne_nil hr si s.esoDelayed w
    exact ⟨rfl, hne, (paddrValid_iff ((h.pins false sclk si).front hne)).mp hv⟩

/-- **Run lemma.** The invariant holds after every run from power-on. -/
theorem run (sclk si : Bool) (es : List Event) :
    Inv idcode
      (StepMachine.run (FlashEmuLite.step idcode mem) (FlashEmuLite.boot cfg idcode sclk si) es)
      (busLog idcode mem (FlashEmuLite.boot cfg idcode sclk si) es) :=
  run_record_invariant (fun _ _ e h => h.step e) (Inv.boot sclk si) es

end Inv

/-! ## The host's view -/

/-- Mode 0: `csn` falls while `sclk` is low. -/
def ModeZero (s : State cfg) : Event → Prop
  | .lines csn _ => s.csn = true → csn = false → s.sclk = false
  | _ => True

instance (s : State cfg) (e : Event) : Decidable (ModeZero s e) := by
  unfold ModeZero
  split <;> infer_instance

/-- The transaction in progress by the edges of `sclk` itself. -/
def sclkEvent (s : State cfg) (e : Event) (w : BusLog) : BusLog :=
  match e with
  | .lines csn si => w.next ⟨s.sclk, s.dom.rst, s.dom.rstInv⟩ s.sclk csn si s.esoDelayed
  | .sclk level => w.next ⟨s.sclk, s.dom.rst, s.dom.rstInv⟩ level s.csn s.si s.esoDelayed
  | .sys _ => w

/-- The host's log after a run. -/
def sclkLog (idcode : BitVec 24) (mem : cfg.Addr → cfg.Word) (s : State cfg) (es : List Event) :
    BusLog :=
  record (step idcode mem) sclkEvent s {} es

/-- In mode 0 the gate of the clock is not seen from outside. -/
theorem sclkEvent_eq {idcode : BitVec 24} {s : State cfg} {w : BusLog} (h : Inv idcode s w)
    (e : Event) (he : ModeZero s e) :
    sclkEvent s e w = logEvent s e w := by
  have hclk := h.clk
  match e with
  | .sys c => rfl
  | .lines true si => rfl
  | .lines false si =>
    -- with `csn` low or `sclk` low the gate does not show
    have hgate : (s.sclk && !s.csn) = s.sclk := by
      cases hcsn : s.csn with
      | false => exact Bool.and_true _
      | true => rw [he hcsn rfl]; rfl
    rw [sclkEvent, logEvent, Bool.not_false, Bool.and_true]
    exact BusLog.next_congr (hclk.trans hgate).symm _ _ _ _ _
  | .sclk level =>
    cases hcsn : s.csn with
    | true => simp only [sclkEvent, logEvent, hcsn, BusLog.next_of_input]
    | false =>
      rw [hcsn, Bool.not_false, Bool.and_true] at hclk
      rw [sclkEvent, logEvent, hcsn, Bool.not_false, Bool.and_true]
      exact BusLog.next_congr hclk.symm _ _ _ _ _

/-- In a run in mode 0 the host's log is the log of the gated clock. -/
theorem sclkLog_eq (idcode : BitVec 24) (mem : cfg.Addr → cfg.Word) (sclk si : Bool)
    {es : List Event} (hes : Along (step idcode mem) ModeZero (boot cfg idcode sclk si) es) :
    sclkLog idcode mem (boot cfg idcode sclk si) es =
      busLog idcode mem (boot cfg idcode sclk si) es := by
  induction es using List.reverseRecOn with
  | nil => rfl
  | append_singleton es e ih =>
    obtain ⟨hes, he⟩ := along_concat.mp hes
    rw [sclkLog, busLog, record_concat, record_concat]
    have hinv := @Inv.run cfg idcode mem sclk si es
    rw [show record _ _ _ _ es = busLog idcode mem (boot cfg idcode sclk si) es from ih hes]
    exact sclkEvent_eq hinv e he

end FlashEmuLite

end LiteSpiH4x
