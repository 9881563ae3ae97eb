import LiteSpiH4x.Emu.FlashDevice

/-! # Reads while the loader is at work

Nothing keeps the loader out of a read: `sel` takes port and clock of the memory away from the SPI
side at any time. A read of either kind then goes on, and what it sends is made of what the port
happens to show. Of each byte the first bit goes out from the port itself, while `dr` is loaded from
the port only at the next rising edge, and the other bits come from there.

* **`Custody`** — for each clock period, what the port showed and whether the memory was the SPI
  side's all through it.
* **`read_beside_loader`** — what the host samples, in any run: a byte is torn after its first bit
  at most, and right if the loader has kept out of one period. -/

namespace LiteSpiH4x

open Digital StepMachine

namespace FlashEmu

/-- The clocks that a read spends on a byte: eight, or two in a quad read. -/
def period (op : BitVec 8) : ℕ := if op = cmdQread then 2 else 8

/-- The byte of a read in delivery `i` bytes after the first: the one at the address received plus
`i`, modulo 256. -/
def nthByte (M : BitVec 8 → BitVec 8) (A : BitVec 24) (i : ℕ) : BitVec 8 :=
  M (BitVec.ofNat 8 (A.toNat + i))

/-- The memory's port in the clock period that ends with some rising edge. -/
structure Glance where
  /-- What it showed at the falling edge. -/
  first : BitVec 8
  /-- What it showed at the rising edge. -/
  port : BitVec 8
  /-- The SPI side has had the memory since the rising edge before. -/
  owned : Bool
  /-- The contents at the rising edge. -/
  mem : BitVec 8 → BitVec 8

/-- The bus log of the transaction in progress, with the memory's port. -/
structure Custody where
  log : BusLog := {}
  /-- One for each rising edge. -/
  glances : List Glance := []
  /-- What the port showed at the last falling edge. -/
  offered : BitVec 8 := 0
  /-- The SPI side has had the memory since the last rising edge. -/
  owned : Bool := false

namespace Custody

/-- A change of the pins. -/
def pins (s : State) (csn rstn sclk si : Bool) (g : Custody) : Custody where
  log := g.log.next s.dom sclk (resetInput csn rstn) si s.esoDelayed
  glances :=
    if resetInput csn rstn then []
    else if s.dom.rises sclk then
      g.glances ++ [⟨g.offered, s.flashMem.datR, g.owned, s.flashMem.mem⟩]
    else g.glances
  offered := if s.dom.falls sclk then s.flashMem.datR else g.offered
  owned := if s.dom.rises sclk then !s.flashMem.sel else g.owned

/-- Record an event. -/
def next (s : State) (e : Event) (g : Custody) : Custody :=
  match e with
  | .pin (.lines csn rstn si) => g.pins s csn rstn s.dom.clk si
  | .pin (.sclk level) => g.pins s s.csn s.rstn level s.si
  | .sel level => { g with owned := g.owned && !level }
  | .sys _ => g

/-- The record of a run. -/
def after (idcode : BitVec 24) (s : State) (es : List Event) : Custody :=
  record (step idcode) next s {} es

/-- The log in it is the bus log. -/
theorem log_after (idcode : BitVec 24) (s : State) (es : List Event) :
    (after idcode s es).log = busLog idcode s es := by
  induction es using List.reverseRecOn with
  | nil => rfl
  | append_singleton es e ih =>
    rw [after, record_concat, busLog, record_concat, ← after, ← busLog, ← ih]
    match e with
    | .pin (.lines _ _ _) | .pin (.sclk _) | .sel _ | .sys _ => rfl

end Custody

/-! ## The front end in a read of either kind -/

section

variable {r : Regs} {idcode : BitVec 24} {bits : List Bool} {k : ℕ}

theorem two_le_period (op : BitVec 8) : 2 ≤ period op := by
  unfold period
  split <;> omega

/-- The registers in a read that delivers data. -/
theorem front_period (h : r.front = Front.decode true idcode bits)
    (hread : Front.IsRead true (Front.opcode bits)) (hk : bits.length = 32 + k) :
    r.state = .readGetData ∧ (r.drBitCnt = 0 ↔ k % period (Front.opcode bits) = 0) ∧
      r.addr = Front.address bits + BitVec.ofNat 24 (k / period (Front.opcode bits)) := by
  rcases hread with hop | ⟨-, hop⟩
  · obtain ⟨hstate, -, hcnt, haddr⟩ := front_data h (by omega) hop
    have hlen : bits.length - 32 = k := by omega
    rw [hlen] at hcnt haddr
    rw [hop, period, if_neg (by decide)]
    refine ⟨hstate, ?_, haddr⟩
    rw [hcnt, ← BitVec.toNat_inj, BitVec.toNat_ofNat]
    simp only [BitVec.reduceToNat]
  · rw [hop, period, if_pos rfl]
    exact front_qdata h hop hk

/-- **The address on the port.** The edge before a byte's first clock presents its address. -/
theorem setWidth_addrNext {esi : Bool} (h : r.front = Front.decode true idcode bits)
    (hread : Front.IsRead true (Front.opcode (bits ++ [esi]))) {i : ℕ}
    (hlen : bits.length + 1 = 32 + period (Front.opcode (bits ++ [esi])) * i) :
    (r.addrNext esi).setWidth 8 =
      BitVec.ofNat 8 ((Front.address (bits ++ [esi])).toNat + i) := by
  have hop : Front.opcode (bits ++ [esi]) = Front.opcode bits := Front.opcode_append (by omega) _
  rw [hop] at hread hlen
  have htwo := two_le_period (Front.opcode bits)
  rw [← setWidth_add_ofNat]
  congr 1
  cases i with
  | zero =>
    -- the last bit of the address
    have hstate : r.state = .readGetAddr := by
      have hf := @Front.decode_addr true idcode bits (by omega) (by omega) hread
      rw [← h] at hf
      exact congrArg (fun f => f.state) hf
    have hfront : (r.next esi 0).front = Front.decode true idcode (bits ++ [esi]) := by
      rw [Regs.front_next, h, Front.decode_concat]
    have hk : (bits ++ [esi]).length = 32 + 0 := by
      rw [List.length_append, List.length_singleton]
      exact hlen
    obtain ⟨-, -, haddr⟩ := front_period hfront (by rwa [hop]) hk
    rw [Nat.zero_div] at haddr
    rw [← haddr]
    simp only [CmdRegs.addrNext, Regs.next, hstate]
  | succ i =>
    -- the byte before is still in delivery
    rw [Nat.mul_succ] at hlen
    have hk : bits.length = 32 + (period (Front.opcode bits) * i +
        (period (Front.opcode bits) - 1)) := by omega
    obtain ⟨hstate, -, haddr⟩ := front_period h hread hk
    rw [Nat.mul_add_div (by omega), Nat.div_eq_of_lt (Nat.sub_lt (by omega) one_pos),
      Nat.add_zero] at haddr
    rw [Front.address_append (by omega), CmdRegs.addrNext, hstate]
    simp only [haddr]
    rw [BitVec.add_assoc, BitVec.ofNat_add]
    rfl

end

/-! ## What `dr` and the output come from -/

/-- While a byte of a read goes out, `dr` is what the port showed at the byte's first clock, with
the bits already out shifted away. -/
def Latched (bits : List Bool) (r : Regs) (gs : List Glance) : Prop :=
  ∀ i j, 0 < j → j < period (Front.opcode bits) →
    bits.length = 32 + (period (Front.opcode bits) * i + j) →
    Front.IsRead true (Front.opcode bits) →
    ∃ x, gs[32 + period (Front.opcode bits) * i]? = some x ∧ r.dr = x.port <<< j

/-- Nothing is asked of a header. -/
theorem Latched.of_short {bits : List Bool} (h : bits.length < 32) (r : Regs) (gs : List Glance) :
    Latched bits r gs := by
  intro i j _ _ hlen
  omega

/-- **A rising edge** loads `dr` from the port at a byte's first clock, and shifts it at the
others. -/
theorem Latched.next {r : Regs} {idcode : BitVec 24} {bits : List Bool} {gs : List Glance}
    {esi : Bool} (hl : Latched bits r gs) (hlength : gs.length = bits.length)
    (h : r.front = Front.decode true idcode bits) (x : Glance) :
    Latched (bits ++ [esi]) (r.next esi x.port) (gs ++ [x]) := by
  intro i j hj hjp hlen hread
  rw [List.length_append, List.length_singleton] at hlen
  have hop : Front.opcode (bits ++ [esi]) = Front.opcode bits := Front.opcode_append (by omega) _
  rw [hop] at hjp hlen hread ⊢
  obtain ⟨j, rfl⟩ : ∃ n, j = n + 1 := ⟨j - 1, by omega⟩
  have hlen' : bits.length = 32 + (period (Front.opcode bits) * i + j) := by omega
  obtain ⟨hstate, hcnt, -⟩ := front_period h hread hlen'
  rw [Nat.mul_add_mod, Nat.mod_eq_of_lt (by omega)] at hcnt
  have hdr : (r.next esi x.port).dr = (r.drTmp x.port).shiftConcat false := by
    simp only [Regs.next, hstate]
  rw [hdr, Regs.drTmp]
  cases j with
  | zero =>
    refine ⟨x, ?_, ?_⟩
    · rw [← Nat.add_zero (period _ * i), ← hlen', ← hlength, List.getElem?_concat_length]
    · have hshift := shiftConcat_false_shiftLeft x.port 0
      rw [BitVec.shiftLeft_zero] at hshift
      rw [if_pos (hcnt.mpr rfl), hshift]
  | succ j =>
    obtain ⟨y, hy, hdr⟩ := hl i (j + 1) (Nat.succ_pos j) (by omega) hlen' hread
    refine ⟨y, ?_, ?_⟩
    · rw [List.getElem?_append_left (by omega), hy]
    · have hne : r.drBitCnt ≠ 0 := fun hzero => Nat.succ_ne_zero j (hcnt.mp hzero)
      rw [if_neg hne, hdr, shiftConcat_false_shiftLeft]

/-- What a read with opcode `op` sends after `n` bits: the highest bit of `first` at a byte's first
clock, and then bits of what the port showed at it. -/
def Sends (gs : List Glance) (first : BitVec 8) (op : BitVec 8) (n : ℕ) (so : Bool) : Prop :=
  ∀ i j, j < period op → n = 32 + (period op * i + j) → Front.IsRead true op →
    (j = 0 → so = first.msb) ∧
      (0 < j → ∃ x, gs[32 + period op * i]? = some x ∧ so = x.port.getMsbD j)

namespace Sends

variable {gs : List Glance} {first op : BitVec 8} {n : ℕ} {so : Bool}

/-- Nothing is sent during the header. -/
theorem of_short (h : n < 32) : Sends gs first op n so := by
  intro i j _ hn
  omega

/-- What has been sent stays. -/
theorem append (h : Sends gs first op n so) (x : Glance) : Sends (gs ++ [x]) first op n so := by
  intro i j hj hn hread
  obtain ⟨hzero, hpos⟩ := h i j hj hn hread
  refine ⟨hzero, fun hlt => ?_⟩
  obtain ⟨y, hy, hso⟩ := hpos hlt
  refine ⟨y, ?_, hso⟩
  rw [List.getElem?_append_left (List.getElem?_eq_some_iff.mp hy).1, hy]

/-- **What the front end offers** at a falling edge. -/
theorem of_latched {r : Regs} {idcode : BitVec 24} {bits : List Bool} {d : BitVec 8}
    (hl : Latched bits r gs) (h : r.front = Front.decode true idcode bits) :
    Sends gs d (Front.opcode bits) bits.length (r.eso d) := by
  intro i j hj hlen hread
  obtain ⟨hstate, hcnt, -⟩ := front_period h hread hlen
  rw [Nat.mul_add_mod, Nat.mod_eq_of_lt hj] at hcnt
  simp only [Regs.eso, hstate, Regs.drTmp]
  refine ⟨fun hzero => ?_, fun hpos => ?_⟩
  · rw [if_pos (hcnt.mpr hzero)]
  · obtain ⟨x, hx, hdr⟩ := hl i j hpos hj hlen hread
    exact ⟨x, hx, by rw [if_neg (fun h0 => hpos.ne' (hcnt.mp h0)), hdr, BitVec.msb_shiftLeft]⟩

end Sends

/-- A glance at the port in the period before a byte's first rising edge shows that byte. -/
def Glance.Shows (y : Glance) (A : BitVec 24) (op : BitVec 8) (n : ℕ) : Prop :=
  ∀ i, n = 32 + period op * i → Front.IsRead true op →
    y.first = nthByte y.mem A i ∧ y.port = nthByte y.mem A i

/-! ## The record along a run -/

/-- What holds between the emulator and the record after every run. -/
structure Custody.Inv (idcode : BitVec 24) (s : State) (g : Custody) : Prop where
  base : FlashEmu.Inv idcode s g.log
  length : g.glances.length = g.log.rises.length
  latched : g.log.rises ≠ [] → Latched g.log.bits s.regs g.glances
  /-- While the memory is the SPI side's, it has the side selected, -/
  sel : g.owned = true → s.flashMem.sel = false
  /-- has sampled the address of the byte to come, -/
  adr : g.owned = true → ∀ i, Front.IsRead true (Front.opcode g.log.bits) →
    g.log.bits.length = 32 + period (Front.opcode g.log.bits) * i →
    s.flashMem.memadr = BitVec.ofNat 8 ((Front.address g.log.bits).toNat + i)
  /-- and still shows what it showed at the falling edge. -/
  offered : g.owned = true → s.dom.clk = false → g.offered = s.flashMem.datR
  out : ∀ f, g.log.fallen = some f →
    Sends g.glances g.offered (Front.opcode g.log.bits) f s.esoDelayed
  sampled : ∀ n y (h : n < g.log.rises.length), g.glances[n]? = some y →
    Sends g.glances y.first (Front.opcode g.log.bits) n g.log.rises[n].2
  whole : ∀ n (y : Glance), g.glances[n]? = some y → y.owned = true →
    y.Shows (Front.address g.log.bits) (Front.opcode g.log.bits) n

namespace Custody.Inv

variable {idcode : BitVec 24} {s : State} {g : Custody}

/-- At power-on. -/
theorem boot (rstn sclk si : Bool) : Custody.Inv idcode (FlashEmu.boot idcode rstn sclk si) {} where
  base := FlashEmu.Inv.boot rstn sclk si
  length := rfl
  latched := fun hne => absurd rfl hne
  sel := fun h => absurd h Bool.false_ne_true
  adr := fun h => absurd h Bool.false_ne_true
  offered := fun h => absurd h Bool.false_ne_true
  out := fun f h => by cases h
  sampled := fun n y h => absurd h (Nat.not_lt_zero n)
  whole := fun n y h => by cases h

/-- The memory's side after a change of the pins. -/
theorem sel_pins (h : Custody.Inv idcode s g) (csn rstn sclk si : Bool)
    (howned : (g.pins s csn rstn sclk si).owned = true) :
    (s.pins idcode csn rstn sclk si).flashMem.sel = false := by
  rw [(Tidy.flashMem_pins idcode s csn rstn sclk si).1]
  cases hr : s.dom.rises sclk with
  | false =>
    simp only [Custody.pins, hr, Bool.false_eq_true, if_false] at howned
    exact h.sel howned
  | true =>
    simp only [Custody.pins, hr, if_true, Bool.not_eq_true'] at howned
    exact howned

/-- The port after a change of the pins: nothing moves it between the edges. -/
theorem offered_pins (h : Custody.Inv idcode s g) (csn rstn sclk si : Bool)
    (howned : (g.pins s csn rstn sclk si).owned = true)
    (hclk : (s.pins idcode csn rstn sclk si).dom.clk = false) :
    (g.pins s csn rstn sclk si).offered = (s.pins idcode csn rstn sclk si).flashMem.datR := by
  have hlow : sclk = false := hclk
  have hr : s.dom.rises sclk = false := by rw [hlow, DomainPair.rises, Bool.and_false]
  simp only [Custody.pins, State.pins, hr, Bool.false_eq_true, if_false] at howned ⊢
  cases hf : s.dom.falls sclk with
  | true => rw [if_pos rfl]
  | false =>
    rw [if_neg Bool.false_ne_true]
    refine h.offered howned ?_
    rw [← DomainPair.clk_eq_of_still hr hf, hlow]

/-- While the reset input is high nothing is recorded. -/
theorem pins_of_input (h : Custody.Inv idcode s g) {csn rstn : Bool}
    (hin : resetInput csn rstn = true) (sclk si : Bool) :
    Custody.Inv idcode (s.pins idcode csn rstn sclk si) (g.pins s csn rstn sclk si) := by
  have hlog : (g.pins s csn rstn sclk si).log = {} := by
    simp only [Custody.pins, hin, BusLog.next_of_input]
  have hglances : (g.pins s csn rstn sclk si).glances = [] := by
    simp only [Custody.pins, hin, if_true]
  have hbits : (g.pins s csn rstn sclk si).log.bits = [] := by rw [hlog]; rfl
  exact
    { base := h.base.pins csn rstn sclk si
      length := by rw [hlog, hglances]; rfl
      latched := fun hne => absurd (by rw [hlog]) hne
      sel := h.sel_pins csn rstn sclk si
      adr := fun _ i _ hlen => by
        rw [hbits, List.length_nil] at hlen
        omega
      offered := h.offered_pins csn rstn sclk si
      out := fun f hf => by
        rw [hlog] at hf
        cases hf
      sampled := fun n y hn => by
        rw [hlog] at hn
        exact absurd hn (Nat.not_lt_zero n)
      whole := fun n y hy => by
        rw [hglances] at hy
        cases hy }

/-- No edge of the clock. -/
theorem pins_of_still (h : Custody.Inv idcode s g) {csn rstn sclk : Bool}
    (hin : resetInput csn rstn = false) (hr : s.dom.rises sclk = false)
    (hf : s.dom.falls sclk = false) (si : Bool) :
    Custody.Inv idcode (s.pins idcode csn rstn sclk si) (g.pins s csn rstn sclk si) := by
  have hg : g.pins s csn rstn sclk si = g := by
    rw [Custody.pins, hin, BusLog.next_of_still hr hf]
    simp only [hr, hf, Bool.false_eq_true, if_false]
  have hbase := h.base.pins csn rstn sclk si
  have hsel := h.sel_pins csn rstn sclk si
  have hoffered := h.offered_pins csn rstn sclk si
  rw [hin, BusLog.next_of_still hr hf] at hbase
  rw [hg] at hsel hoffered ⊢
  refine ⟨hbase, h.length, ?_, hsel, ?_, hoffered, ?_, h.sampled, h.whole⟩
  · simpa only [State.pins, hr, Bool.false_eq_true, if_false] using h.latched
  · simpa only [State.pins, hr, Bool.false_eq_true, if_false] using h.adr
  · simpa only [State.pins, hf, Bool.false_eq_true, if_false] using h.out

/-- **A falling edge** offers the next bit. -/
theorem pins_of_falls (h : Custody.Inv idcode s g) {csn rstn sclk : Bool}
    (hin : resetInput csn rstn = false) (hf : s.dom.falls sclk = true) (si : Bool) :
    Custody.Inv idcode (s.pins idcode csn rstn sclk si) (g.pins s csn rstn sclk si) := by
  have hr := DomainPair.not_rises_of_falls hf
  have hg : g.pins s csn rstn sclk si =
      { g with
        log := { g.log with fallen := some g.log.rises.length }
        offered := s.flashMem.datR } := by
    rw [Custody.pins, hin, BusLog.next_of_falls hf]
    simp only [hr, hf, Bool.false_eq_true, if_false, if_true]
  have hbase := h.base.pins csn rstn sclk si
  have hsel := h.sel_pins csn rstn sclk si
  have hoffered := h.offered_pins csn rstn sclk si
  rw [hin, BusLog.next_of_falls hf] at hbase
  rw [hg] at hsel hoffered ⊢
  have hregs : (s.pins idcode csn rstn sclk si).regs = s.regs := by
    simp only [State.pins, hr, Bool.false_eq_true, if_false]
  have hmem : (s.pins idcode csn rstn sclk si).flashMem = s.flashMem := by
    simp only [State.pins, hr, Bool.false_eq_true, if_false]
  refine ⟨hbase, h.length, ?_, hsel, ?_, hoffered, ?_, h.sampled, h.whole⟩
  · rw [hregs]
    exact h.latched
  · rw [hmem]
    exact h.adr
  · intro f hfallen
    obtain rfl : g.log.rises.length = f := Option.some.inj hfallen
    rcases Nat.lt_or_ge g.log.rises.length 32 with hlt | hge
    · exact Sends.of_short hlt
    have hne : g.log.rises ≠ [] := List.ne_nil_of_length_pos (by omega)
    have hnow : s.dom.rstInvNow (resetInput csn rstn) = false := by
      rw [DomainPair.rstInvNow, hin, Bool.or_false, h.base.tracks.rstInv]
      cases hfallen : g.log.fallen with
      | some f => rfl
      | none =>
        have hfew := h.base.tracks.first hfallen
        omega
    have heso : (s.pins idcode csn rstn sclk si).esoDelayed = s.regs.eso s.flashMem.datR := by
      simp only [State.pins, hf, hnow, Bool.false_eq_true, if_false, if_true]
    have hsends := Sends.of_latched (d := s.flashMem.datR) (h.latched hne) (h.base.front hne)
    rw [heso]
    rwa [BusLog.length_bits] at hsends

/-- The registers after a rising edge that is not the reset edge. -/
theorem regs_of_rises (h : Custody.Inv idcode s g) {csn rstn sclk : Bool}
    (hin : resetInput csn rstn = false) (hr : s.dom.rises sclk = true) (si : Bool)
    (hne : g.log.rises ≠ []) :
    (s.pins idcode csn rstn sclk si).regs = s.regs.next si s.flashMem.datR := by
  have hnow : s.dom.rstNow (resetInput csn rstn) = false := by
    rw [DomainPair.rstNow, hin, Bool.or_false, h.base.tracks.rst, List.isEmpty_eq_false_iff]
    exact hne
  simp only [State.pins, hr, hnow, Bool.false_eq_true, if_false, if_true]

/-- **A glance that is owned** shows the byte to come. -/
theorem shows_of_owned (h : Custody.Inv idcode s g) (hclk : s.dom.clk = false)
    (howned : g.owned = true) :
    (⟨g.offered, s.flashMem.datR, g.owned, s.flashMem.mem⟩ : Glance).Shows
      (Front.address g.log.bits) (Front.opcode g.log.bits) g.log.bits.length := by
  intro i hlen hread
  have hport : s.flashMem.datR = nthByte s.flashMem.mem (Front.address g.log.bits) i := by
    rw [FlashEmuMem.datR, h.adr howned i hread hlen, nthByte]
  exact ⟨(h.offered howned hclk).trans hport, hport⟩

section

variable {csn rstn sclk : Bool}

/-- The log after a rising edge. -/
theorem log_of_rises (hin : resetInput csn rstn = false) (hr : s.dom.rises sclk = true)
    (si : Bool) : (g.pins s csn rstn sclk si).log =
      { g.log with rises := g.log.rises ++ [(si, s.esoDelayed)] } := by
  rw [Custody.pins, hin, BusLog.next_of_rises hr]

/-- The bits taken in after it. -/
theorem bits_of_rises (hin : resetInput csn rstn = false) (hr : s.dom.rises sclk = true)
    (si : Bool) : (g.pins s csn rstn sclk si).log.bits = g.log.bits ++ [si] := by
  rw [Custody.pins, hin, BusLog.bits_next_of_rises hr]

/-- The glances after it. -/
theorem glances_of_rises (hin : resetInput csn rstn = false) (hr : s.dom.rises sclk = true)
    (si : Bool) : (g.pins s csn rstn sclk si).glances =
      g.glances ++ [⟨g.offered, s.flashMem.datR, g.owned, s.flashMem.mem⟩] := by
  simp only [Custody.pins, hin, hr, Bool.false_eq_true, if_false, if_true]

/-- `dr` after a rising edge. -/
theorem latched_of_rises (h : Custody.Inv idcode s g) (hin : resetInput csn rstn = false)
    (hr : s.dom.rises sclk = true) (si : Bool) :
    Latched (g.pins s csn rstn sclk si).log.bits (s.pins idcode csn rstn sclk si).regs
      (g.pins s csn rstn sclk si).glances := by
  have hlen := BusLog.length_bits g.log
  rw [bits_of_rises hin hr, glances_of_rises hin hr]
  rcases Nat.lt_or_ge g.log.bits.length 31 with hlt | hge
  · refine Latched.of_short ?_ _ _
    rw [List.length_append, List.length_singleton]
    omega
  · have hne : g.log.rises ≠ [] := List.ne_nil_of_length_pos (by omega)
    rw [h.regs_of_rises hin hr si hne]
    exact (h.latched hne).next (h.length.trans hlen.symm) (h.base.front hne)
      ⟨g.offered, s.flashMem.datR, g.owned, s.flashMem.mem⟩

/-- The address sampled by a rising edge. -/
theorem adr_of_rises (h : Custody.Inv idcode s g) (hin : resetInput csn rstn = false)
    (hr : s.dom.rises sclk = true) (si : Bool) (howned : (g.pins s csn rstn sclk si).owned = true)
    {i : ℕ} (hread : Front.IsRead true (Front.opcode (g.pins s csn rstn sclk si).log.bits))
    (hi : (g.pins s csn rstn sclk si).log.bits.length =
      32 + period (Front.opcode (g.pins s csn rstn sclk si).log.bits) * i) :
    (s.pins idcode csn rstn sclk si).flashMem.memadr =
      BitVec.ofNat 8 ((Front.address (g.pins s csn rstn sclk si).log.bits).toNat + i) := by
  have hlen := BusLog.length_bits g.log
  rw [bits_of_rises hin hr] at hread hi ⊢
  rw [List.length_append, List.length_singleton] at hi
  have hne : g.log.rises ≠ [] := List.ne_nil_of_length_pos (by omega)
  have hadr := setWidth_addrNext (h.base.front hne) hread hi
  simp only [Custody.pins, hr, if_true, Bool.not_eq_true'] at howned
  have hsampled : (s.pins idcode csn rstn sclk si).flashMem.memadr =
      (s.regs.addrNext si).setWidth 8 := by
    simp only [State.pins, hr, if_true, FlashEmuMem.memadr_edge_spi howned, State.fmp]
  exact hsampled.trans hadr

/-- The bits sampled, after a rising edge: one more, which was offered at the last falling edge. -/
theorem sampled_of_rises (h : Custody.Inv idcode s g) (hin : resetInput csn rstn = false)
    (hr : s.dom.rises sclk = true) (si : Bool) {n : ℕ} {y : Glance}
    (hn : n < (g.pins s csn rstn sclk si).log.rises.length)
    (hy : (g.pins s csn rstn sclk si).glances[n]? = some y) :
    Sends (g.pins s csn rstn sclk si).glances y.first
      (Front.opcode (g.pins s csn rstn sclk si).log.bits) n
      (g.pins s csn rstn sclk si).log.rises[n].2 := by
  have hclk := (DomainPair.rises_iff.mp hr).1
  have hlen := BusLog.length_bits g.log
  rw [glances_of_rises hin hr] at hy ⊢
  rw [bits_of_rises hin hr]
  simp only [log_of_rises hin hr, List.length_append, List.length_singleton] at hn ⊢
  rcases Nat.lt_or_ge n 32 with hlt | hge
  · exact Sends.of_short hlt
  rw [Front.opcode_append (by omega)]
  rcases Nat.lt_or_ge n g.log.rises.length with hold | hnew
  · rw [List.getElem?_append_left (by rw [h.length]; exact hold)] at hy
    rw [List.getElem_append_left hold]
    exact (h.sampled n y hold hy).append _
  · obtain rfl : n = g.log.rises.length := by omega
    rw [← h.length, List.getElem?_concat_length, Option.some.injEq] at hy
    subst hy
    rw [List.getElem_append_right le_rfl]
    simp only [Nat.sub_self, List.getElem_cons_zero]
    exact (h.out _ (h.base.tracks.fallen_of_low hclk (by omega))).append _

/-- The bytes shown to glances that are owned, after a rising edge. -/
theorem whole_of_rises (h : Custody.Inv idcode s g) (hin : resetInput csn rstn = false)
    (hr : s.dom.rises sclk = true) (si : Bool) {n : ℕ} {y : Glance}
    (hy : (g.pins s csn rstn sclk si).glances[n]? = some y) (howned : y.owned = true) :
    y.Shows (Front.address (g.pins s csn rstn sclk si).log.bits)
      (Front.opcode (g.pins s csn rstn sclk si).log.bits) n := by
  have hlen := BusLog.length_bits g.log
  rw [glances_of_rises hin hr] at hy
  rw [bits_of_rises hin hr]
  intro i hi hread
  have hn : n < g.log.rises.length + 1 := by
    have hlt := (List.getElem?_eq_some_iff.mp hy).1
    rwa [List.length_append, List.length_singleton, h.length] at hlt
  have h32 : 32 ≤ g.log.bits.length := by omega
  rw [Front.opcode_append (by omega)] at hi hread
  rw [Front.address_append h32]
  rcases Nat.lt_or_ge n g.log.rises.length with hold | hnew
  · rw [List.getElem?_append_left (by rw [h.length]; exact hold)] at hy
    exact h.whole n y hy howned i hi hread
  · obtain rfl : n = g.log.rises.length := by omega
    rw [← h.length, List.getElem?_concat_length, Option.some.injEq] at hy
    subst hy
    exact h.shows_of_owned (DomainPair.rises_iff.mp hr).1 howned i (hlen.trans hi) hread

end

/-- **A rising edge** has the bit offered sampled, and glances at the port. -/
theorem pins_of_rises (h : Custody.Inv idcode s g) {csn rstn sclk : Bool}
    (hin : resetInput csn rstn = false) (hr : s.dom.rises sclk = true) (si : Bool) :
    Custody.Inv idcode (s.pins idcode csn rstn sclk si) (g.pins s csn rstn sclk si) where
  base := h.base.pins csn rstn sclk si
  length := by
    rw [glances_of_rises hin hr, log_of_rises hin hr, List.length_append, List.length_append,
      h.length]
    rfl
  latched := fun _ => h.latched_of_rises hin hr si
  sel := h.sel_pins csn rstn sclk si
  adr := fun howned _ hread hi => h.adr_of_rises hin hr si howned hread hi
  offered := h.offered_pins csn rstn sclk si
  out := by
    intro f hfallen
    have hlen := BusLog.length_bits g.log
    have hf := DomainPair.not_falls_of_rises hr
    have hoff : (g.pins s csn rstn sclk si).offered = g.offered := by
      simp only [Custody.pins, hf, Bool.false_eq_true, if_false]
    have heso : (s.pins idcode csn rstn sclk si).esoDelayed = s.esoDelayed := by
      simp only [State.pins, hf, Bool.false_eq_true, if_false]
    rw [log_of_rises hin hr] at hfallen
    have hle : f ≤ g.log.rises.length := h.base.tracks.fallen_le hfallen
    rw [glances_of_rises hin hr, bits_of_rises hin hr, hoff, heso]
    rcases Nat.lt_or_ge f 32 with hlt | hge
    · exact Sends.of_short hlt
    · rw [Front.opcode_append (by omega)]
      exact (h.out f hfallen).append _
  sampled := fun _ _ hn hy => h.sampled_of_rises hin hr si hn hy
  whole := fun _ _ hy howned => h.whole_of_rises hin hr si hy howned

/-- A change of the pins. -/
theorem pins (h : Custody.Inv idcode s g) (csn rstn sclk si : Bool) :
    Custody.Inv idcode (s.pins idcode csn rstn sclk si) (g.pins s csn rstn sclk si) := by
  cases hin : resetInput csn rstn with
  | true => exact h.pins_of_input hin sclk si
  | false =>
    cases hr : s.dom.rises sclk with
    | true => exact h.pins_of_rises hin hr si
    | false =>
      cases hf : s.dom.falls sclk with
      | true => exact h.pins_of_falls hin hf si
      | false => exact h.pins_of_still hin hr hf si

/-- **Step lemma.** Every event keeps the record right, the loader's included. -/
theorem step (h : Custody.Inv idcode s g) (e : Event) :
    Custody.Inv idcode (FlashEmu.step idcode s e) (g.next s e) := by
  match e with
  | .pin (.lines csn rstn si) => exact h.pins csn rstn s.dom.clk si
  | .pin (.sclk level) => exact h.pins s.csn s.rstn level s.si
  | .sel true =>
    -- the loader takes the memory, and nothing is said of it from here on
    have hnot : (g.owned && !true) = false := Bool.and_false _
    exact ⟨h.base.step (.sel true), h.length, h.latched,
      fun ho => absurd (hnot.symm.trans ho) Bool.false_ne_true,
      fun ho => absurd (hnot.symm.trans ho) Bool.false_ne_true,
      fun ho => absurd (hnot.symm.trans ho) Bool.false_ne_true, h.out, h.sampled, h.whole⟩
  | .sel false =>
    have hsame : (g.owned && !false) = g.owned := Bool.and_true _
    exact ⟨h.base.step (.sel false), h.length, h.latched, fun _ => rfl,
      fun ho => h.adr (hsame.symm.trans ho), fun ho => h.offered (hsame.symm.trans ho), h.out,
      h.sampled, h.whole⟩
  | .sys p =>
    -- while the SPI side has the memory, a system clock edge does not reach it
    have hkeep : g.owned = true → (FlashEmu.step idcode s (.sys p)).flashMem = s.flashMem :=
      fun ho => FlashEmuMem.edge_sys_of_spi (h.sel ho) _ _
    refine ⟨h.base.step (.sys p), h.length, h.latched, ?_, ?_, ?_, h.out, h.sampled, h.whole⟩
    · intro ho
      rw [hkeep ho]
      exact h.sel ho
    · intro ho
      rw [hkeep ho]
      exact h.adr ho
    · intro ho
      rw [hkeep ho]
      exact h.offered ho

/-- **Run lemma.** -/
theorem run (rstn sclk si : Bool) (es : List Event) :
    Custody.Inv idcode
      (StepMachine.run (FlashEmu.step idcode) (FlashEmu.boot idcode rstn sclk si) es)
      (Custody.after idcode (FlashEmu.boot idcode rstn sclk si) es) :=
  run_record_invariant (fun _ _ e h => h.step e) (boot rstn sclk si) es

end Custody.Inv

/-- **Reads while the loader is at work.** In every run, whatever the loader does and when: of byte
`i` of a read, at the rising edges that sample it, the first bit is that of what the memory's port
showed at the falling edge before, and all others are those of what it showed at the first of these
rising edges. If the memory was the SPI side's during the one clock period before that edge, the
byte is the one at address `A + i` modulo 256 as the memory was then, and nothing that the loader
does before or after it can touch that. -/
theorem read_beside_loader (idcode : BitVec 24) (rstn sclk si : Bool) (es : List Event) :
    let w := busLog idcode (boot idcode rstn sclk si) es
    let g := Custody.after idcode (boot idcode rstn sclk si) es
    let p := period (Front.opcode w.bits)
    Front.opcode w.bits = 0x03#8 ∨ Front.opcode w.bits = 0x6b#8 →
      ∀ i j (_ : j < p) (h : 32 + (p * i + j) < w.rises.length),
        ∃ x, g.glances[32 + p * i]? = some x ∧
          w.rises[32 + (p * i + j)].2 = (if j = 0 then x.first else x.port).getMsbD j ∧
          (x.owned = true →
            w.rises[32 + (p * i + j)].2 = (nthByte x.mem (Front.address w.bits) i).getMsbD j) := by
  intro w g p hop i j hj hlen
  have hinv : Custody.Inv idcode (run (step idcode) (boot idcode rstn sclk si) es) g :=
    Custody.Inv.run rstn sclk si es
  have hlog : g.log = w := Custody.log_after idcode _ es
  have hread : Front.IsRead true (Front.opcode g.log.bits) := by
    rw [hlog]
    exact hop.imp_right fun h => ⟨rfl, h⟩
  have hlength := hinv.length
  obtain ⟨x, hx⟩ : ∃ x, g.glances[32 + p * i]? = some x :=
    ⟨_, List.getElem?_eq_getElem (by rw [hlength, hlog]; omega)⟩
  obtain ⟨y, hy⟩ : ∃ y, g.glances[32 + (p * i + j)]? = some y :=
    ⟨_, List.getElem?_eq_getElem (by rw [hlength, hlog]; exact hlen)⟩
  have hp : period (Front.opcode g.log.bits) = p := by rw [hlog]
  have hsends := hinv.sampled (32 + (p * i + j)) y (by rw [hlog]; exact hlen) hy i j
    (by rw [hp]; exact hj) (by rw [hp]) hread
  simp only [hlog] at hsends
  have hbit : w.rises[32 + (p * i + j)].2 = (if j = 0 then x.first else x.port).getMsbD j := by
    rcases Nat.eq_zero_or_pos j with rfl | hpos
    · obtain rfl : x = y := Option.some.inj (hx.symm.trans hy)
      rw [if_pos rfl]
      exact hsends.1 rfl
    · obtain ⟨z, hz, hso⟩ := hsends.2 hpos
      obtain rfl : x = z := Option.some.inj (hx.symm.trans hz)
      rw [if_neg hpos.ne']
      exact hso
  refine ⟨x, hx, hbit, fun howned => ?_⟩
  obtain ⟨hfirst, hport⟩ := hinv.whole (32 + p * i) x hx howned i (by rw [hp]) hread
  rw [hlog] at hfirst hport
  rw [hbit, hfirst, hport, ite_self]

/-- The loader takes the memory and overwrites byte 0 while it goes out: its fourth bit is still
that of the byte as it was. -/
theorem read_beside_loader_overwritten :
    let es := clockIn ((List.range 33).map fun i => i = 6 || i = 7) ++
      [.sel true, .sys ⟨0, 0xff, true⟩] ++ clockIn (List.replicate 3 false)
    let w := busLog 0 (boot 0 true false false) es
    let g := Custody.after 0 (boot 0 true false false) es
    ∃ h : 32 + (8 * 0 + 3) < w.rises.length, ∃ x, g.glances[32 + 8 * 0]? = some x ∧
      x.owned = true ∧
      w.rises[32 + (8 * 0 + 3)].2 = (nthByte x.mem (Front.address w.bits) 0).getMsbD 3 := by
  intro es w g
  have hop : Front.opcode w.bits = 0x03#8 := by decide +kernel
  have hp : period (Front.opcode w.bits) = 8 := by rw [hop]; rfl
  have hlen : 32 + (8 * 0 + 3) < w.rises.length := by decide +kernel
  have hread := read_beside_loader 0 true false false es (Or.inl hop) 0 3
  rw [hp] at hread
  obtain ⟨x, hx, -, hbyte⟩ := hread (by decide) hlen
  have howned : g.glances[32 + 8 * 0]?.map Glance.owned = some true := by decide +kernel
  rw [show g.glances[32 + 8 * 0]? = some x from hx, Option.map_some, Option.some.injEq] at howned
  exact ⟨hlen, x, hx, howned, hbyte howned⟩

end FlashEmu

end LiteSpiH4x
