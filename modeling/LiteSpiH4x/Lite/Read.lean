import LiteSpiH4x.Lite.Prefetched
import Mathlib.Data.List.GetD

/-! # Reads of FlashEmuLite

The bytes a read shifts out are taken from the prefetch registers: the first bit of a byte at a
falling edge, the other seven at the rising edge after it. Which byte that is, is arithmetic: the
window whose words the registers hold at that edge, counted in words of 128 bits; the register that
`pfr_idx`, a field of the address as wide as `prefetch_bits` needs, selects; and the word that
register got. The window is that of the read only if its own pass was launched: a prefetcher that
is busy when the leading address bits come in may miss their validity, and be idle again with an
older window by the time the data is sent.

* **`dramByte`** / **`shownByte`** — the byte a read should deliver, and the one it gets from
  registers with given contents; **`pickedByte`** — the same with the read's own window in them.
* **`Course`** — ghost state of a transaction: the contents of the registers at the edges of its
  clock.
* **`read_iff`** — every read delivers the DRAM exactly if each byte shown has the bits it
  should. -/

namespace LiteSpiH4x

open Digital ReadPort StepMachine FlashEmuDRAMLite

namespace FlashEmuLite

variable {cfg : LiteConfig}

/-! ## The bytes -/

/-- Byte `b` of the DRAM: byte `b mod W / 8` of port word `b div W / 8`, the lowest first. -/
def dramByte (mem : cfg.Addr → cfg.Word) (b : BitVec 24) : BitVec 8 :=
  (mem (portWord cfg b)).extractLsb' (8 * (b.toNat % 2 ^ cfg.k)) 8

/-- The word address of the window that holds byte `a`, as the prefetcher counts words. -/
def windowBase (cfg : LiteConfig) (a : BitVec 24) : cfg.Addr :=
  wordAddr cfg.toDramConfig (a >>> cfg.prefetchBits <<< cfg.prefetchBits)

/-- The byte that is picked for address `b` from registers with these contents. -/
def shownByte (mem : cfg.Addr → cfg.Word) (h : Contents cfg.toDramConfig) (b : BitVec 24) :
    BitVec 8 :=
  byteOf (h.word mem (min (pfrIdx cfg b).toNat (cfg.numPrefetchReads - 1))) b

/-- The byte that a read at address `a` picks for address `b` from its own window. -/
def pickedByte (mem : cfg.Addr → cfg.Word) (a : BitVec 24) (torn : Bool) (b : BitVec 24) :
    BitVec 8 :=
  byteOf (lineOf mem (windowBase cfg a) torn (min (pfrIdx cfg b).toNat (cfg.numPrefetchReads - 1)))
    b

/-- The address of the byte that data bit `t` of a read at `a` belongs to. -/
def byteAddr (a : BitVec 24) (t : ℕ) : BitVec 24 := a + BitVec.ofNat 24 (t / 8)

/-- Data bit `t` of a read at `a` from registers with these contents. -/
def shownBit (mem : cfg.Addr → cfg.Word) (a : BitVec 24) (h : Contents cfg.toDramConfig) (t : ℕ) :
    Bool :=
  (shownByte mem h (byteAddr a t)).getMsbD (t % 8)

/-- Bit `t` of the bytes picked. -/
def pickedBit (mem : cfg.Addr → cfg.Word) (a : BitVec 24) (torn : Bool) (t : ℕ) : Bool :=
  (pickedByte mem a torn (byteAddr a t)).getMsbD (t % 8)

/-- With the window of the read in the registers, and no pass in progress. -/
theorem shownBit_own (mem : cfg.Addr → cfg.Word) (a : BitVec 24) (t : ℕ) :
    shownBit mem a { last := some (windowBase cfg a) } t = pickedBit mem a false t := rfl

/-- With the window of the read in the registers, and a further pass over it in progress. -/
theorem shownByte_again (mem : cfg.Addr → cfg.Word) (a b : BitVec 24) {j : ℕ}
    (hj : j < cfg.numPrefetchReads) :
    shownByte mem ⟨some (windowBase cfg a), some (windowBase cfg a, j)⟩ b =
      pickedByte mem a (decide (j + 1 = cfg.numPrefetchReads ∧ 2 ≤ cfg.numPrefetchReads)) b := by
  rw [shownByte, pickedByte, Contents.word_again hj]

/-- The byte selected from the registers as they are. -/
theorem byteSel_eq_shownByte {mem : cfg.Addr → cfg.Word}
    {x : FlashEmuDRAMLite cfg.toDramConfig × List cfg.Addr} {h : Contents cfg.toDramConfig}
    (hs : Shelved mem x h) (b : BitVec 24) : byteSel x.1.pfRegs b = shownByte mem h b := by
  rw [byteSel, pfrSel, hs.pfRegs_eq, val_clampIndex, shownByte]

/-- The window of the leading address bits is that of the whole address. -/
theorem wordAddr_lead {bits : List Bool} (h : 32 ≤ bits.length) :
    wordAddr cfg.toDramConfig (windowAddr cfg (lead cfg bits)) =
      windowBase cfg (Front.address bits) := by
  have hlt := cfg.lt
  rw [windowBase]
  congr 1
  -- the address is the leading bits followed by those within the window
  obtain ⟨ys, zs, hsplit, hys, hzs⟩ : ∃ ys zs : List Bool, (bits.drop 8).take 24 = ys ++ zs ∧
      ys = (bits.drop 8).take (24 - cfg.prefetchBits) ∧ zs.length = cfg.prefetchBits := by
    refine ⟨_, ((bits.drop 8).take 24).drop (24 - cfg.prefetchBits), ?_, rfl, ?_⟩
    · conv_lhs => rw [← List.take_append_drop (24 - cfg.prefetchBits) ((bits.drop 8).take 24)]
      rw [List.take_take, Nat.min_eq_left (by omega)]
    · rw [List.length_drop, List.length_take, List.length_drop]
      omega
  have hylen : ys.length = 24 - cfg.prefetchBits := by
    rw [hys, List.length_take, List.length_drop]
    omega
  have hval : msbVal (ys ++ zs) < 2 ^ 24 := by
    refine lt_of_lt_of_eq (msbVal_lt _) ?_
    rw [List.length_append, hylen, hzs, Nat.sub_add_cancel hlt.le]
  have hyval : msbVal ys < 2 ^ (24 - cfg.prefetchBits) := hylen ▸ msbVal_lt ys
  have hz : msbVal zs < 2 ^ cfg.prefetchBits := hzs ▸ msbVal_lt zs
  have happ := msbVal_append ys zs
  rw [hzs] at happ
  have hshift : msbVal (ys ++ zs) / 2 ^ cfg.prefetchBits = msbVal ys := by
    rw [happ, mul_comm, Nat.mul_add_div (Nat.two_pow_pos _), Nat.div_eq_of_lt hz, add_zero]
  apply BitVec.eq_of_toNat_eq
  rw [windowAddr, lead, Front.address, hsplit, ← hys, ofBits, ofBits, BitVec.toNat_shiftLeft,
    BitVec.toNat_shiftLeft, BitVec.toNat_ushiftRight, BitVec.toNat_setWidth, BitVec.toNat_ofNat,
    BitVec.toNat_ofNat, Nat.mod_eq_of_lt hyval, Nat.mod_eq_of_lt hval, Nat.shiftRight_eq_div_pow,
    hshift]
  congr 2
  exact Nat.mod_eq_of_lt (lt_of_lt_of_le hyval (Nat.pow_le_pow_right two_pos (Nat.sub_le _ _)))

/-! ## The course of a transaction -/

/-- What has become of the transaction in progress. -/
structure Course (cfg : LiteConfig) where
  /-- The bus log. -/
  log : BusLog := {}
  /-- The contents of the prefetch registers. -/
  contents : Contents cfg.toDramConfig := {}
  /-- Their contents at the last falling edge. -/
  atFall : Contents cfg.toDramConfig := {}
  /-- Their contents at the falling edge before each rising edge, and at it. -/
  seen : List (Contents cfg.toDramConfig × Contents cfg.toDramConfig) := []
  /-- The prefetcher was in `IDLE` at the falling edge that takes the first data bit. -/
  prompt : Bool := false

namespace Course

/-- A change of the pins. -/
def pins (g : Course cfg) (s : State cfg) (csn sclk si : Bool) : Course cfg :=
  let clk := sclk && !csn
  { log := g.log.next s.dom clk csn si s.esoDelayed
    contents := g.contents
    atFall := if s.dom.falls clk then g.contents else g.atFall
    seen :=
      if csn then []
      else if s.dom.rises clk then g.seen ++ [(g.atFall, g.contents)]
      else g.seen
    prompt := !csn &&
      -- the falling edge after the header loads the first data bit into `eso_delayed`
      (if s.dom.falls clk && g.log.rises.length == 32 then decide (s.flashMem.state = .idle)
      else g.prompt) }

/-- One event. -/
def next (s : State cfg) (e : Event) (g : Course cfg) : Course cfg :=
  match e with
  | .lines csn si => g.pins s csn s.sclk si
  | .sclk level => g.pins s s.csn level s.si
  | .sys c =>
    { g with
      contents := g.contents.next (s.flashMem, s.outstanding)
        ((s.regs.paddrFw, s.paddrValidSys), c) }

/-- The contents at the rising edge that takes the last seven bits of the byte of data bit `t`. -/
def atRise (g : Course cfg) (t : ℕ) : Contents cfg.toDramConfig :=
  (g.seen.getD (32 + 8 * (t / 8)) ({}, {})).2

/-- The contents when data bit `t` was taken. -/
def takenFrom (g : Course cfg) (t : ℕ) : Contents cfg.toDramConfig :=
  if t % 8 = 0 then (g.seen.getD (32 + t) ({}, {})).1 else g.atRise t

/-- The contents when data bit `t` was taken, for the bit the line out shows. -/
def shownFrom (g : Course cfg) (t : ℕ) : Contents cfg.toDramConfig :=
  if t % 8 = 0 then g.atFall else g.atRise t

end Course

/-- The course of the transaction in progress after a run. -/
def course (idcode : BitVec 24) (mem : cfg.Addr → cfg.Word) (s : State cfg) (es : List Event) :
    Course cfg :=
  record (step idcode mem) Course.next s {} es

/-- The first `n` bytes clocked out are those of the DRAM, the highest bit first. -/
def Delivered (mem : cfg.Addr → cfg.Word) (g : Course cfg) (n : ℕ) : Prop :=
  ∀ i < n, ∀ j < 8, ∀ h : 32 + (8 * i + j) < g.log.rises.length,
    g.log.rises[32 + (8 * i + j)].2 =
      (dramByte mem (Front.address g.log.bits + BitVec.ofNat 24 i)).getMsbD j

/-- The first `n` bytes shown have the bits they should. -/
def PicksRight (mem : cfg.Addr → cfg.Word) (g : Course cfg) (n : ℕ) : Prop :=
  ∀ i < n, ∀ j < 8,
    (shownByte mem (g.takenFrom (8 * i + j))
      (Front.address g.log.bits + BitVec.ofNat 24 i)).getMsbD j =
    (dramByte mem (Front.address g.log.bits + BitVec.ofNat 24 i)).getMsbD j

instance (mem : cfg.Addr → cfg.Word) (g : Course cfg) (n : ℕ) : Decidable (Delivered mem g n) :=
  inferInstanceAs (Decidable (∀ i < n, ∀ j < 8, ∀ _ : 32 + (8 * i + j) < g.log.rises.length, _ = _))

instance (mem : cfg.Addr → cfg.Word) (g : Course cfg) (n : ℕ) : Decidable (PicksRight mem g n) :=
  inferInstanceAs (Decidable (∀ i < n, ∀ j < 8, _ = _))

/-! ## The registers while a read delivers data -/

/-- The registers in a read that delivers data. -/
theorem front_data {r : Regs cfg} {idcode : BitVec 24} {bits : List Bool} {t : ℕ}
    (h : r.front = Front.decode false idcode bits) (hop : Front.opcode bits = cmdRead)
    (ht : bits.length = 32 + t) :
    r.state = .readGetData ∧ (r.drBitCnt = 0 ↔ t % 8 = 0) ∧
      r.addr = byteAddr (Front.address bits) t := by
  obtain ⟨hstate, -, hcnt, haddr⟩ := Front.data_regs h hop ht
  refine ⟨hstate, ?_, haddr⟩
  rw [show r.drBitCnt = BitVec.ofNat 3 t from hcnt, ← BitVec.toNat_inj, BitVec.toNat_ofNat]
  rfl

/-- A read whose header is in: the bits on their way out are those shown. -/
structure Delivering (mem : cfg.Addr → cfg.Word) (s : State cfg) (g : Course cfg) : Prop where
  len : 32 ≤ g.log.bits.length
  op : Front.opcode g.log.bits = cmdRead
  /-- The shift register holds the rest of the byte. -/
  data : ∀ t, g.log.bits.length = 32 + t → t % 8 ≠ 0 → s.regs.dr =
    shownByte mem (g.atRise t) (byteAddr (Front.address g.log.bits) t) <<< (t % 8)
  out : ∀ t, g.log.fallen = some (32 + t) →
    s.esoDelayed = shownBit mem (Front.address g.log.bits) (g.shownFrom t) t
  emits : ∀ t (h : 32 + t < g.log.rises.length),
    g.log.rises[32 + t].2 = shownBit mem (Front.address g.log.bits) (g.takenFrom t) t

/-- What holds between the emulator and the course of the transaction after every run. -/
structure Reading (idcode : BitVec 24) (mem : cfg.Addr → cfg.Word) (s : State cfg)
    (g : Course cfg) : Prop where
  base : Inv idcode s g.log
  seen : g.seen.length = g.log.rises.length
  shelved : Shelved mem (s.flashMem, s.outstanding) g.contents
  delivering : 32 ≤ g.log.bits.length → Front.opcode g.log.bits = cmdRead → Delivering mem s g

namespace Course

variable {g : Course cfg}

/-- Without a rising edge nothing more is seen. -/
theorem atRise_congr {g' : Course cfg} (h : g'.seen = g.seen) : g'.atRise = g.atRise := by
  funext t
  rw [atRise, atRise, h]

/-- Without a rising edge no bit is taken. -/
theorem takenFrom_congr {g' : Course cfg} (h : g'.seen = g.seen) : g'.takenFrom = g.takenFrom := by
  funext t
  rw [takenFrom, takenFrom, atRise_congr h, h]

/-- A further rising edge does not change what was seen at the earlier ones. -/
theorem atRise_of_seen {g' : Course cfg} {x : Contents cfg.toDramConfig × _}
    (h : g'.seen = g.seen ++ [x]) {t : ℕ} (ht : 32 + 8 * (t / 8) < g.seen.length) :
    g'.atRise t = g.atRise t := by
  rw [atRise, atRise, h, List.getD_append _ _ _ _ ht]

/-- A further rising edge does not change what was seen of the earlier bits. -/
theorem takenFrom_of_seen {g' : Course cfg} {x : Contents cfg.toDramConfig × _}
    (h : g'.seen = g.seen ++ [x]) {t : ℕ} (ht : 32 + t < g.seen.length) :
    g'.takenFrom t = g.takenFrom t := by
  rw [takenFrom, takenFrom, atRise_of_seen h (by omega), h, List.getD_append _ _ _ _ ht]

end Course

namespace Delivering

variable {idcode : BitVec 24} {mem : cfg.Addr → cfg.Word} {s : State cfg} {g : Course cfg}
  {t : ℕ}

/-- The bit formed for the line out, before its edge: the first bit of a byte from the registers
as they are, the others from the shift register. -/
theorem eso_eq (h : Delivering mem s g) (hb : Inv idcode s g.log)
    (hs : Shelved mem (s.flashMem, s.outstanding) g.contents) (ht : g.log.bits.length = 32 + t) :
    s.regs.eso s.byteSel = shownBit mem (Front.address g.log.bits)
      (if t % 8 = 0 then g.contents else g.atRise t) t := by
  have hne : g.log.rises ≠ [] := BusLog.rises_ne_nil_of_pos (by omega)
  obtain ⟨hstate, hcnt, haddr⟩ := front_data (hb.front hne) h.op ht
  rw [Regs.eso, hstate, shownBit]
  simp only [Regs.drTmp]
  by_cases hzero : t % 8 = 0
  · rw [if_pos (hcnt.mpr hzero), if_pos hzero, hzero, State.byteSel,
      byteSel_eq_shownByte hs, haddr, BitVec.msb]
  · rw [if_neg (fun hc => hzero (hcnt.mp hc)), if_neg hzero, h.data t ht hzero,
      BitVec.msb_shiftLeft]

/-- The shift register after a rising edge within a byte: the byte moves up one place, its first
bit coming from the registers. -/
theorem dr_next (h : Delivering mem s g) (hb : Inv idcode s g.log)
    (hs : Shelved mem (s.flashMem, s.outstanding) g.contents) (ht : g.log.bits.length = 32 + t)
    (hmod : (t + 1) % 8 ≠ 0) (si : Bool) :
    (s.regs.next si s.byteSel).dr = shownByte mem
      (if t % 8 = 0 then g.contents else g.atRise t)
      (byteAddr (Front.address g.log.bits) t) <<< ((t + 1) % 8) := by
  have hne : g.log.rises ≠ [] := BusLog.rises_ne_nil_of_pos (by omega)
  obtain ⟨hstate, hcnt, hbyte⟩ := front_data (hb.front hne) h.op ht
  have hdr : (s.regs.next si s.byteSel).dr = (s.regs.drTmp s.byteSel).shiftConcat false := by
    simp only [Regs.next, hstate]
  have hsucc : (t + 1) % 8 = t % 8 + 1 := by omega
  rw [hdr, Regs.drTmp, hsucc, ← shiftConcat_false_shiftLeft]
  by_cases hzero : t % 8 = 0
  · rw [if_pos (hcnt.mpr hzero), if_pos hzero, hzero, BitVec.shiftLeft_zero, State.byteSel,
      byteSel_eq_shownByte hs, hbyte]
  · rw [if_neg fun hc => hzero (hcnt.mp hc), if_neg hzero, h.data t ht hzero]

/-- When the header has just come in, no data bit is on its way yet. -/
theorem of_header (hop : Front.opcode g.log.bits = cmdRead) (hlen : g.log.bits.length = 32)
    (hfew : ∀ f, g.log.fallen = some f → f < 32) : Delivering mem s g where
  len := hlen.ge
  op := hop
  data := by
    intro t ht h0
    omega
  out := by
    intro t hf
    have hless := hfew _ hf
    omega
  emits := by
    intro t ht
    rw [← BusLog.length_bits] at ht
    omega

/-- No edge: nothing changes. -/
theorem still (h : Delivering mem s g) {sclk : Bool}
    (hr : s.dom.rises (sclk && !false) = false) (hf : s.dom.falls (sclk && !false) = false)
    (si : Bool) :
    Delivering mem (s.pins idcode false sclk si) (g.pins s false sclk si) := by
  have hlog : (g.pins s false sclk si).log = g.log := BusLog.next_of_still hr hf _ _ _
  have hseen : (g.pins s false sclk si).seen = g.seen := by
    simp only [Course.pins, hr, Bool.false_eq_true, if_false]
  have hfall : (g.pins s false sclk si).atFall = g.atFall := by
    simp only [Course.pins, hf, Bool.false_eq_true, if_false]
  have hrise : (g.pins s false sclk si).atRise = g.atRise := Course.atRise_congr hseen
  have hout : (g.pins s false sclk si).shownFrom = g.shownFrom := by
    funext t
    rw [Course.shownFrom, Course.shownFrom, hfall, hrise]
  have hat : (g.pins s false sclk si).takenFrom = g.takenFrom := Course.takenFrom_congr hseen
  have hregs : (s.pins idcode false sclk si).regs = s.regs := by
    simp only [State.pins, hr, Bool.false_eq_true, if_false]
  have heso : (s.pins idcode false sclk si).esoDelayed = s.esoDelayed := by
    simp only [State.pins, hf, Bool.false_eq_true, if_false]
  refine ⟨?_, ?_, ?_, ?_, ?_⟩ <;> simp only [hlog, hrise, hout, hat, hregs, heso]
  · exact h.len
  · exact h.op
  · exact h.data
  · exact h.out
  · exact h.emits

/-- **A falling edge** puts the next bit on the line out. -/
theorem falls (h : Delivering mem s g) (hb : Inv idcode s g.log)
    (hs : Shelved mem (s.flashMem, s.outstanding) g.contents) {sclk : Bool}
    (hf : s.dom.falls (sclk && !false) = true) (si : Bool) :
    Delivering mem (s.pins idcode false sclk si) (g.pins s false sclk si) := by
  have hr : s.dom.rises (sclk && !false) = false := DomainPair.not_rises_of_falls hf
  have hlog : (g.pins s false sclk si).log = { g.log with fallen := some g.log.rises.length } :=
    BusLog.next_of_falls hf _ _ _
  have hbits : (g.pins s false sclk si).log.bits = g.log.bits :=
    BusLog.bits_next_of_not_rises hr _ _ _
  have hrises : (g.pins s false sclk si).log.rises = g.log.rises := by rw [hlog]
  have hseen : (g.pins s false sclk si).seen = g.seen := by
    simp only [Course.pins, hr, Bool.false_eq_true, if_false]
  have hfall : (g.pins s false sclk si).atFall = g.contents := by
    simp only [Course.pins, hf, if_true]
  have hrise : (g.pins s false sclk si).atRise = g.atRise := Course.atRise_congr hseen
  have hat : (g.pins s false sclk si).takenFrom = g.takenFrom := Course.takenFrom_congr hseen
  have hregs : (s.pins idcode false sclk si).regs = s.regs := by
    simp only [State.pins, hr, Bool.false_eq_true, if_false]
  -- the inverse reset fell at the first falling edge, long before the header was in
  have hinv : s.dom.rstInv = false := by
    rw [hb.tracks.rstInv]
    cases hfallen : g.log.fallen with
    | some f => rfl
    | none =>
      have hshort := hb.tracks.first hfallen
      have hlen := h.len
      rw [BusLog.length_bits] at hlen
      omega
  have heso : (s.pins idcode false sclk si).esoDelayed = s.regs.eso s.byteSel := by
    simp only [State.pins, hf, DomainPair.rstInvNow, hinv, Bool.or_false, if_true,
      Bool.false_eq_true, if_false]
  refine ⟨?_, ?_, ?_, ?_, ?_⟩ <;> simp only [hbits, hrises, hrise, hat, hregs, heso]
  · exact h.len
  · exact h.op
  · exact h.data
  · intro t ht
    rw [hlog, Option.some.injEq, ← BusLog.length_bits] at ht
    rw [h.eso_eq hb hs ht, Course.shownFrom, hfall, hrise]
  · exact h.emits

/-- **A rising edge** samples the line out and moves on by one bit. -/
theorem rises (h : Delivering mem s g) (hb : Inv idcode s g.log)
    (hs : Shelved mem (s.flashMem, s.outstanding) g.contents)
    (hlen : g.seen.length = g.log.rises.length) {sclk : Bool}
    (hr : s.dom.rises (sclk && !false) = true) (si : Bool) :
    Delivering mem (s.pins idcode false sclk si) (g.pins s false sclk si) := by
  have hf : s.dom.falls (sclk && !false) = false := DomainPair.not_falls_of_rises hr
  obtain ⟨n, hn⟩ : ∃ n, g.log.bits.length = 32 + n := ⟨_, (Nat.add_sub_of_le h.len).symm⟩
  have hn' : g.log.rises.length = 32 + n := by rw [← BusLog.length_bits, hn]
  have hne : g.log.rises ≠ [] := BusLog.rises_ne_nil_of_pos (by omega)
  have hlog : (g.pins s false sclk si).log =
      { g.log with rises := g.log.rises ++ [(si, s.esoDelayed)] } := BusLog.next_of_rises hr _ _ _
  have hbits : (g.pins s false sclk si).log.bits = g.log.bits ++ [si] :=
    BusLog.bits_next_of_rises hr _ _ _
  have haddr : Front.address (g.log.bits ++ [si]) = Front.address g.log.bits :=
    Front.address_append h.len _
  have hseen : (g.pins s false sclk si).seen = g.seen ++ [(g.atFall, g.contents)] := by
    simp only [Course.pins, hr, Bool.false_eq_true, if_false, if_true]
  have hfall : (g.pins s false sclk si).atFall = g.atFall := by
    simp only [Course.pins, hf, Bool.false_eq_true, if_false]
  have hrst : s.dom.rst = false := by
    rw [hb.tracks.rst, List.isEmpty_eq_false_iff]
    exact hne
  have hregs : (s.pins idcode false sclk si).regs = s.regs.next si s.byteSel := by
    simp only [State.pins, hr, DomainPair.rstNow, hrst, Bool.or_false, if_true,
      Bool.false_eq_true, if_false]
  have heso : (s.pins idcode false sclk si).esoDelayed = s.esoDelayed := by
    simp only [State.pins, hf, Bool.false_eq_true, if_false]
  refine ⟨?_, ?_, ?_, ?_, ?_⟩ <;> simp only [hbits, haddr, hregs, heso]
  · rw [List.length_append]
    exact Nat.le_add_right_of_le h.len
  · rw [Front.opcode_append (by have := h.len; omega), h.op]
  · intro t ht h0
    rw [List.length_append, List.length_singleton] at ht
    obtain rfl : t = n + 1 := by omega
    have hdiv : (n + 1) / 8 = n / 8 := by omega
    have hfrom : (g.pins s false sclk si).atRise (n + 1) =
        if n % 8 = 0 then g.contents else g.atRise n := by
      by_cases hzero : n % 8 = 0
      · rw [if_pos hzero, Course.atRise, hseen, hdiv, List.getD_append_right _ _ _ _ (by omega),
          show 32 + 8 * (n / 8) - g.seen.length = 0 by omega]
        rfl
      · rw [if_neg hzero, Course.atRise_of_seen hseen (by omega), Course.atRise,
          Course.atRise, hdiv]
    rw [h.dr_next hb hs hn h0, hfrom, byteAddr, byteAddr, hdiv]
  · intro t ht
    rw [hlog] at ht
    have hle := hb.tracks.fallen_le ht
    rw [h.out t ht, Course.shownFrom, Course.shownFrom, hfall]
    by_cases hzero : t % 8 = 0
    · rw [if_pos hzero, if_pos hzero]
    · rw [if_neg hzero, if_neg hzero, Course.atRise_of_seen hseen (by omega)]
  · intro t ht
    simp only [hlog] at ht ⊢
    rw [List.length_append, List.length_singleton] at ht
    rcases Nat.lt_or_ge (32 + t) g.log.rises.length with hlt | hge
    · rw [Course.takenFrom_of_seen hseen (by omega)]
      simp only [List.getElem_append_left hlt]
      exact h.emits t hlt
    · -- the bit sampled now was put out at the last falling edge
      obtain rfl : t = n := by omega
      have hfallen : g.log.fallen = some (32 + t) := by
        rw [hb.tracks.fallen_of_low (DomainPair.rises_iff.mp hr).1 (by omega), hn']
      have hfrom : (g.pins s false sclk si).takenFrom t = g.shownFrom t := by
        rw [Course.takenFrom, Course.shownFrom]
        by_cases hzero : t % 8 = 0
        · rw [if_pos hzero, if_pos hzero, hseen, List.getD_append_right _ _ _ _ (by omega),
            show 32 + t - g.seen.length = 0 by omega]
          rfl
        · rw [if_neg hzero, if_neg hzero, Course.atRise_of_seen hseen (by omega)]
      rw [hfrom, ← h.out t hfallen]
      simp only [List.getElem_append_right hge, show 32 + t - g.log.rises.length = 0 by omega,
        List.getElem_cons_zero]

end Delivering

namespace Reading

variable {idcode : BitVec 24} {mem : cfg.Addr → cfg.Word} {s : State cfg} {g : Course cfg}

/-- At power-on. -/
theorem boot (sclk si : Bool) : Reading idcode mem (FlashEmuLite.boot cfg idcode sclk si) {} where
  base := Inv.boot sclk si
  seen := rfl
  shelved := Shelved.boot
  delivering := fun hlen => absurd hlen (by decide : ¬ 32 ≤ 0)

/-- **A system clock edge** carries on the pass, or starts one. -/
theorem sys (h : Reading idcode mem s g) (c : Cycle) :
    Reading idcode mem (s.sysEdge mem c) (g.next s (.sys c)) where
  base := h.base.step (.sys c)
  seen := h.seen
  shelved := h.shelved.step ((s.regs.paddrFw, s.paddrValidSys), c)
  delivering := by
    intro hlen hop
    have hd := h.delivering hlen hop
    exact ⟨hd.len, hd.op, hd.data, hd.out, hd.emits⟩

/-- A change of the pins that leaves the transaction, or comes between transactions. -/
theorem pins_deselect (h : Reading idcode mem s g) (sclk si : Bool) :
    Reading idcode mem (s.pins idcode true sclk si) (g.pins s true sclk si) where
  base := h.base.pins true sclk si
  seen := rfl
  shelved := h.shelved
  delivering := fun hlen => absurd hlen (by decide : ¬ 32 ≤ 0)

/-- **Data bits** go out one by one once the header is in. -/
theorem delivering_pins (h : Reading idcode mem s g) {sclk si : Bool}
    (hlen : 32 ≤ (g.pins s false sclk si).log.bits.length)
    (hop : Front.opcode (g.pins s false sclk si).log.bits = cmdRead) :
    Delivering mem (s.pins idcode false sclk si) (g.pins s false sclk si) := by
  cases hr : s.dom.rises (sclk && !false) with
  | false =>
    have hbits : (g.pins s false sclk si).log.bits = g.log.bits :=
      BusLog.bits_next_of_not_rises hr _ _ _
    rw [hbits] at hlen hop
    have hd := h.delivering hlen hop
    cases hf : s.dom.falls (sclk && !false) with
    | true => exact hd.falls h.base h.shelved hf si
    | false => exact hd.still hr hf si
  | true =>
    have hbits : (g.pins s false sclk si).log.bits = g.log.bits ++ [si] :=
      BusLog.bits_next_of_rises hr _ _ _
    by_cases hold : 32 ≤ g.log.bits.length
    · rw [hbits, Front.opcode_append (by omega)] at hop
      exact (h.delivering hold hop).rises h.base h.shelved h.seen hr si
    · -- the edge that takes in the last bit of the header
      have hlog : (g.pins s false sclk si).log =
          { g.log with rises := g.log.rises ++ [(si, s.esoDelayed)] } :=
        BusLog.next_of_rises hr _ _ _
      have hlen' : (g.pins s false sclk si).log.bits.length = 32 := by
        rw [hbits, List.length_append, List.length_singleton] at hlen ⊢
        omega
      refine Delivering.of_header hop hlen' ?_
      intro f hf
      rw [hlog] at hf
      have hle := h.base.tracks.fallen_le hf
      rw [← BusLog.length_bits] at hle
      omega

/-- A change of the pins within a transaction. -/
theorem pins_select (h : Reading idcode mem s g) (sclk si : Bool) :
    Reading idcode mem (s.pins idcode false sclk si) (g.pins s false sclk si) where
  base := h.base.pins false sclk si
  seen := by
    cases hr : s.dom.rises (sclk && !false) with
    | true =>
      simp only [Course.pins, hr, BusLog.next_of_rises hr, Bool.false_eq_true, if_false, if_true,
        List.length_append, List.length_singleton, h.seen]
    | false =>
      have hlog : (g.pins s false sclk si).log.rises.length = g.log.rises.length := by
        rw [← BusLog.length_bits, ← BusLog.length_bits]
        exact congrArg List.length (BusLog.bits_next_of_not_rises hr _ _ _)
      rw [hlog]
      simp only [Course.pins, hr, Bool.false_eq_true, if_false, h.seen]
  shelved := h.shelved
  delivering := h.delivering_pins

/-- A change of the pins. -/
theorem pins (h : Reading idcode mem s g) (csn sclk si : Bool) :
    Reading idcode mem (s.pins idcode csn sclk si) (g.pins s csn sclk si) := by
  cases csn with
  | true => exact h.pins_deselect sclk si
  | false => exact h.pins_select sclk si

/-- **Step lemma.** Every event keeps the invariant. -/
theorem step (h : Reading idcode mem s g) (e : Event) :
    Reading idcode mem (FlashEmuLite.step idcode mem s e) (g.next s e) := by
  match e with
  | .lines csn si => exact h.pins csn s.sclk si
  | .sclk level => exact h.pins s.csn level s.si
  | .sys c => exact h.sys c

/-- **Run lemma.** The invariant holds after every run from power-on. -/
theorem run (idcode : BitVec 24) (mem : cfg.Addr → cfg.Word) (sclk si : Bool)
    (es : List Event) :
    Reading idcode mem
      (StepMachine.run (FlashEmuLite.step idcode mem) (FlashEmuLite.boot cfg idcode sclk si) es)
      (course idcode mem (FlashEmuLite.boot cfg idcode sclk si) es) :=
  run_record_invariant (fun _ _ e h => h.step e) (Reading.boot sclk si) es

end Reading

/-- **Reads.** After every run from power-on, whatever it left in the prefetch registers and
whatever the prefetcher is doing: the first `n` bytes a read has clocked out are those of the DRAM
exactly if each byte shown has the bits it should. -/
theorem read_iff (cfg : LiteConfig) (idcode : BitVec 24) (mem : cfg.Addr → cfg.Word)
    (sclk si : Bool) (es : List Event)
    (hread : Front.opcode (course idcode mem (boot cfg idcode sclk si) es).log.bits = cmdRead)
    (n : ℕ)
    (hlen : 32 + 8 * n ≤
      (course idcode mem (boot cfg idcode sclk si) es).log.rises.length) :
    Delivered mem (course idcode mem (boot cfg idcode sclk si) es) n ↔
      PicksRight mem (course idcode mem (boot cfg idcode sclk si) es) n := by
  have hd := (Reading.run idcode mem sclk si es).delivering
    (by rw [BusLog.length_bits]; omega) hread
  generalize course idcode mem (boot cfg idcode sclk si) es = g at hd hlen ⊢
  -- bit by bit: what was sampled is the bit shown
  refine forall₄_congr ?_
  intro i hi j hj
  have hbound : 32 + (8 * i + j) < g.log.rises.length := by omega
  have hbit := hd.emits (8 * i + j) hbound
  rw [shownBit, byteAddr, show (8 * i + j) / 8 = i by omega,
    show (8 * i + j) % 8 = j by omega] at hbit
  rw [← hbit]
  exact ⟨fun h => h hbound, fun h _ => h⟩

/-- A course keeps the bus log. In mode 0 that is the host's (`sclkLog_eq`). -/
theorem course_log (idcode : BitVec 24) (mem : cfg.Addr → cfg.Word) (s : State cfg)
    (es : List Event) : (course idcode mem s es).log = busLog idcode mem s es := by
  induction es using List.reverseRecOn with
  | nil => rfl
  | append_singleton es e ih =>
    rw [course, busLog, record_concat, record_concat, ← course, ← busLog, ← ih]
    cases e <;> rfl

/-- A read of one byte at `0x10` from a DRAM of ones: register 1 holds the window's first word, and
that has the same bits as the second. -/
theorem read_iff_inner :
    let mem : LiteConfig.sixBits.Addr → LiteConfig.sixBits.Word := fun _ => BitVec.allOnes _
    let es := clockIn ((List.range 26).map fun i => i = 6 || i = 7) ++
      List.replicate 11 (.sys ⟨true, true⟩) ++ clockIn ((List.range 14).map fun i => i = 1)
    Delivered mem (course 0 mem (boot LiteConfig.sixBits 0 false false) es) 1 :=
  (read_iff LiteConfig.sixBits 0 (fun _ => BitVec.allOnes _) false false _ (by decide +kernel) 1
    (by decide +kernel)).mpr (by decide +kernel)

/-- The same read at address 0 delivers register 0, which is never written. -/
theorem read_first_word :
    let mem : LiteConfig.sixBits.Addr → LiteConfig.sixBits.Word := fun _ => BitVec.allOnes _
    let es := clockIn ((List.range 26).map fun i => i = 6 || i = 7) ++
      List.replicate 11 (.sys ⟨true, true⟩) ++ clockIn (List.replicate 14 false)
    let g := course 0 mem (boot LiteConfig.sixBits 0 false false) es
    Front.opcode g.log.bits = cmdRead ∧ g.prompt = true ∧ 32 + 8 * 1 ≤ g.log.rises.length ∧
      ¬ Delivered mem g 1 := by
  decide +kernel

/-- A read at `0x70` whose own window would give it the right byte, after one at address 0 that was
broken off: the prefetcher still launches the first window while the validity of the second is up,
and is idle again in time with the wrong words. -/
theorem read_missed :
    let mem : LiteConfig.sixBits.Addr → LiteConfig.sixBits.Word :=
      fun a => if a < 4 then 0 else BitVec.allOnes _
    let stalled : List Event := List.replicate 3 (.sys ⟨false, false⟩)
    let es := clockIn ((List.range 26).map fun i => i = 6 || i = 7) ++ stalled ++
      [.lines true false] ++
      clockIn ((List.range 26).map fun i => i = 6 || i = 7 || i = 25) ++ stalled ++
      clockIn [true] ++ stalled ++ List.replicate 8 (.sys ⟨true, true⟩) ++
      clockIn ((List.range 13).map fun i => i = 0)
    let g := course 0 mem (boot LiteConfig.sixBits 0 false false) es
    Front.opcode g.log.bits = cmdRead ∧ g.prompt = true ∧ 32 + 8 * 1 ≤ g.log.rises.length ∧
      ¬ Delivered mem g 1 ∧ pickedByte mem 0x70 false 0x70 = dramByte mem 0x70 := by
  decide +kernel

end FlashEmuLite

end LiteSpiH4x
