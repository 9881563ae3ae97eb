import LiteSpiH4x.Emu.FlashDevice
import LiteSpiH4x.Macronix.Transaction

/-! # FlashEmu and the vendor's flash model on the same pins

The bench's flash model takes in what FlashEmu passes on: the same `sclk`, `csn` and `si`. Where the
emulator knows a command, the two drive their outputs at the same moments; what they show differs
only where the emulator's 256 bytes differ from the model's array.

* **`Mirrored`** — where the two contents agree.
* **`Coupled`** — the model beside the emulator, over one bus log.
* **`so_eq_iff`** — when the two outputs are equal. -/

namespace LiteSpiH4x

open Digital StepMachine FlashEmu

namespace MX25U25635F

variable {m : MX25U25635F} {bits : List Bool} {f : ℕ}

/-! ## The two contents -/

/-- An initial byte, as a word. -/
theorem ofNat_val4addr (n : ℕ) :
    BitVec.ofNat 8 (val4addr n) = BitVec.ofNat 8 n ^^^ BitVec.ofNat 8 (n >>> 8) ^^^
      BitVec.ofNat 8 (n >>> 16) ^^^ BitVec.ofNat 8 (n >>> 24) := by
  have hones : BitVec.ofNat 8 0xff = BitVec.allOnes 8 := rfl
  simp only [val4addr, BitVec.ofNat_xor, BitVec.ofNat_and, hones, BitVec.and_allOnes]

/-- The emulator's byte `n`: the address itself. -/
theorem initMem_ofNat (n : ℕ) : initMem (BitVec.ofNat 8 n) = BitVec.ofNat 8 n := by
  have hlow : (BitVec.ofNat 8 n).toNat < 2 ^ 8 := (BitVec.ofNat 8 n).isLt
  rw [initMem, ofNat_val4addr, Nat.shiftRight_eq_div_pow, Nat.shiftRight_eq_div_pow,
    Nat.shiftRight_eq_div_pow, Nat.div_eq_of_lt (by omega), Nat.div_eq_of_lt (by omega),
    Nat.div_eq_of_lt (by omega), BitVec.ofNat_toNat, BitVec.setWidth_eq, BitVec.xor_zero,
    BitVec.xor_zero, BitVec.xor_zero]

/-- The emulator has bit `j` of the byte at `a`, counted from the top: the address is in the array,
and its higher bytes leave the bit alone. -/
def Mirrored (a : BitVec 25) (j : ℕ) : Prop :=
  a.toNat ≤ topAdd ∧
    (BitVec.ofNat 8 (a.toNat >>> 8) ^^^ BitVec.ofNat 8 (a.toNat >>> 16)).getMsbD j = false

instance (a : BitVec 25) (j : ℕ) : Decidable (Mirrored a j) := inferInstanceAs (Decidable (_ ∧ _))

/-- The two contents at one bit. -/
theorem mirrored_iff {a : BitVec 25} {j n : ℕ}
    (hn : BitVec.ofNat 8 a.toNat = BitVec.ofNat 8 n) :
    (readArray a).map (·.getMsbD j) = some ((initMem (BitVec.ofNat 8 n)).getMsbD j) ↔
      Mirrored a j := by
  rw [readArray, Mirrored, initMem_ofNat, ← hn]
  split_ifs with htop
  · have hzero : a.toNat >>> 24 = 0 := by
      rw [Nat.shiftRight_eq_div_pow, Nat.div_eq_of_lt]
      exact lt_of_le_of_lt htop (by decide)
    rw [Option.map_some, Option.some.injEq, ofNat_val4addr, hzero]
    simp only [BitVec.getMsbD_xor, BitVec.xor_zero, htop, true_and]
    cases (BitVec.ofNat 8 a.toNat).getMsbD j <;> simp
  · simp only [htop, false_and, Option.map_none, reduceCtorEq]

/-- The two answers to the same bits. -/
theorem answer_eq_iff (hq : 8 ≤ bits.length → Front.opcode bits ≠ cmdQread) :
    answer bits = (respond 0xc22539 initMem bits).map some ↔
      (32 ≤ bits.length → Front.opcode bits = cmdRead →
        Mirrored (byteAddress bits bits.length) ((bits.length - 32) % 8)) := by
  rcases lt_or_ge bits.length 8 with hlt | h8
  · rw [answer_header hlt, respond_header hlt]
    exact iff_of_true rfl fun h32 => absurd h32 (by omega)
  by_cases hid : Front.opcode bits = cmdRdid
  · have hne : Front.opcode bits ≠ cmdRead := by rw [hid]; decide
    rw [answer_rdid h8 hid, respond_rdid h8 hid]
    exact iff_of_true rfl fun _ hop => absurd hop hne
  by_cases hop : Front.opcode bits = cmdRead
  · rcases lt_or_ge bits.length 32 with hlt | h32
    · rw [answer_none hid (by omega), respond_addr hlt hid]
      exact iff_of_true rfl fun h32 => absurd h32 (by omega)
    · have hlow : BitVec.ofNat 8 (byteAddress bits bits.length).toNat =
          BitVec.ofNat 8 ((Front.address bits).toNat + (bits.length - 32) / 8) := by
        apply BitVec.eq_of_toNat_eq
        simp only [byteAddress, BitVec.toNat_ofNat, BitVec.toNat_add, BitVec.toNat_setWidth]
        omega
      rw [answer_read h32 hop, respond_read h32 hop, Option.map_some, Option.some.injEq,
        mirrored_iff hlow]
      exact ⟨fun h _ _ => h, fun h => h h32 hop⟩
  · have hnone : ¬ Front.IsRead true (Front.opcode bits) := by
      rintro (h | ⟨-, h⟩)
      · exact hop h
      · exact hq h8 h
    rw [answer_none hid (fun h => hop h.1), respond_bad hid hnone]
    exact iff_of_true rfl fun _ h => absurd h hop

/-- A command that the model is tracked through is no quad read. -/
theorem Stage.opcode_ne (h : Stage m bits f) (hlen : 8 ≤ bits.length) :
    Front.opcode bits ≠ cmdQread := by
  cases h with
  | header h => exact absurd hlen (not_le.mpr h.short)
  | ignored h => exact fun hop => h.opcode.2 (.inr ⟨rfl, hop⟩)
  | rdid h => rw [h.opcode]; decide
  | read h => rw [h.opcode]; decide

/-! ## The model beside the emulator -/

/-- What is asked of a run: the chip is not reset, the commands are among the embedded ones, and no
transaction goes on once its clock has risen `2 ^ 32 - 1` times, as the model's counter of edges
would then start over and take the bits for a new opcode. -/
def Standard (m : MX25U25635F) : PinEvent → Prop
  | .lines _ rstn _ => rstn = true
  | .sclk level =>
    m.bitTmp ≠ BitVec.allOnes 32 ∧ (m.step (.sclk level)).state ≠ .otherCmd

instance (m : MX25U25635F) (e : PinEvent) : Decidable (Standard m e) :=
  match e with
  | .lines _ rstn _ => inferInstanceAs (Decidable (rstn = true))
  | .sclk level => inferInstanceAs (Decidable
      (m.bitTmp ≠ BitVec.allOnes 32 ∧ (m.step (.sclk level)).state ≠ .otherCmd))

/-- A move of the clock to where it is. -/
theorem step_of_still {level : Bool} (h : m.sclk = level) : m.step (.sclk level) = m := by
  subst h
  have hrise : ¬ (!m.cs && !m.sclk && m.sclk) = true := by simp
  have hfall : ¬ (!m.cs && m.sclk && !m.sclk) = true := by simp
  rw [step, if_neg hrise, if_neg hfall]

/-- The model beside the emulator. -/
structure Coupled (s : State) (w : BusLog) (m : MX25U25635F) : Prop where
  device : DeviceInv 0xc22539 initMem s w
  rstn : s.rstn = true
  cs : m.cs = s.csn
  sclk : m.sclk = s.dom.clk
  si : m.si = s.si
  out : m.sio1OutReg = m.sio1Reg
  idle : s.csn = true → Idle m
  busy : s.csn = false → Busy m w.bits (w.fallen.getD 0)

namespace Coupled

variable {s : State} {w : BusLog}

/-- What the emulator knows of its log. -/
theorem tracks (h : Coupled s w m) : Tracks s.dom (resetInput s.csn s.rstn) w :=
  h.device.base.base.base.tracks

/-- Nothing is logged while the chip is not selected. -/
theorem log_eq (h : Coupled s w m) (hcsn : s.csn = true) : w = {} :=
  h.tracks.held (by rw [resetInput, hcsn, Bool.or_true])

/-- The last falling edge is behind the last rising edge while the clock is low. -/
theorem fallen_of_low (h : Coupled s w m) (hclk : s.dom.clk = false) :
    w.fallen.getD 0 = w.bits.length := by
  rw [BusLog.length_bits]
  exact h.tracks.low hclk

/-- While the clock is high, it is one rising edge behind, if there is one. -/
theorem fallen_of_high (h : Coupled s w m) (hclk : s.dom.clk = true) :
    w.fallen.getD 0 + 1 = w.bits.length ∨ w.bits.length ≤ 1 := by
  rw [BusLog.length_bits]
  cases hfallen : w.fallen with
  | none => exact .inr (h.tracks.first hfallen)
  | some f => exact .inl (h.tracks.high f hclk hfallen)

/-- The model between transactions, after a move of the clock. -/
theorem idle_sclk (h : Idle m) (level : Bool) : Idle { m with sclk := level } :=
  ⟨h.state, h.bitTmp, { h.tasks with }, h.soOutEn⟩

/-- The other lines move. -/
theorem lines (h : Coupled s w m) (csn si : Bool) :
    let e : PinEvent := .lines csn true si
    Coupled (FlashEmu.step 0xc22539 s (.pin e)) (logEvent s (.pin e) w) (m.step e) := by
  intro e
  have hdevice := h.device.step (.pin e) (by simp)
  have hr : s.dom.rises s.dom.clk = false := by rw [DomainPair.rises, Bool.not_and_self]
  have hf : s.dom.falls s.dom.clk = false := by rw [DomainPair.falls, Bool.and_not_self]
  have hno : ∀ {p : Prop}, true = false → p := fun h => (Bool.false_ne_true h.symm).elim
  cases csn with
  | true =>
    cases hcs : m.cs with
    | true =>
      have hm : m.step e = { m with si := si } := by simp [step, e, hcs]
      have hidle := h.idle (h.cs.symm.trans hcs)
      rw [hm]
      exact ⟨hdevice, rfl, hcs, h.sclk, rfl, h.out,
        fun _ => ⟨hidle.state, hidle.bitTmp, { hidle.tasks with }, hidle.soOutEn⟩, hno⟩
    | false =>
      have hm : m.step e = posedgeCs { m with si := si } := by simp [step, e, hcs]
      rw [hm]
      exact ⟨hdevice, rfl, rfl, h.sclk, rfl, rfl, fun _ => idle_posedgeCs _, hno⟩
  | false =>
    have hlog : logEvent s (.pin e) w = w := BusLog.next_of_still hr hf _ _ _
    cases hcs : m.cs with
    | true =>
      have hm : m.step e = negedgeCs { m with si := si } := by simp [step, e, hcs]
      have hcsn : s.csn = true := h.cs.symm.trans hcs
      have hidle := h.idle hcsn
      rw [hlog] at hdevice ⊢
      rw [hm]
      refine ⟨hdevice, rfl, rfl, h.sclk, rfl, h.out, fun hcsn' => hno hcsn'.symm, fun _ => ?_⟩
      rw [h.log_eq hcsn]
      exact (Idle.negedgeCs ⟨hidle.state, hidle.bitTmp, { hidle.tasks with }, hidle.soOutEn⟩)
    | false =>
      have hm : m.step e = { m with si := si } := by simp [step, e, hcs]
      rw [hlog] at hdevice ⊢
      rw [hm]
      exact ⟨hdevice, rfl, hcs, h.sclk, rfl, h.out, fun hcsn' => hno hcsn'.symm,
        fun _ => (h.busy (h.cs.symm.trans hcs)).lines si⟩

/-- The clock moves. -/
theorem clock (h : Coupled s w m) (level : Bool) (hstd : Standard m (.sclk level)) :
    let e : PinEvent := .sclk level
    Coupled (FlashEmu.step 0xc22539 s (.pin e)) (logEvent s (.pin e) w) (m.step e) := by
  intro e
  have hdevice := h.device.step (.pin e) (by simp)
  have hclk := h.sclk
  cases hcs : m.cs with
  | true =>
    have hcsn : s.csn = true := h.cs.symm.trans hcs
    have hm : m.step e = { m with sclk := level } := by simp [step, e, hcs]
    rw [hm]
    exact ⟨hdevice, h.rstn, hcs.trans hcsn.symm, rfl, h.si, h.out,
      fun _ => idle_sclk (h.idle hcsn) level,
      fun hcsn' => absurd (hcsn.symm.trans hcsn') (by decide)⟩
  | false =>
    have hcsn : s.csn = false := h.cs.symm.trans hcs
    have hinput : resetInput s.csn s.rstn = false := by rw [resetInput, hcsn, h.rstn]; rfl
    have hbusy := h.busy hcsn
    have hidle : ∀ {p : Prop}, s.csn = true → p := fun hcsn' =>
      absurd (hcsn.symm.trans hcsn') (by decide)
    cases hlow : m.sclk <;> cases level
    case false.true =>
      -- a rising edge
      have hm : m.step e = m.posedgeSclk := by simp [step, e, hcs, hlow]
      have hr : s.dom.rises true = true := DomainPair.rises_iff.mpr ⟨hclk ▸ hlow, rfl⟩
      have hfallen := h.fallen_of_low (hclk ▸ hlow)
      have hlog : logEvent s (.pin e) w =
          { w with rises := w.rises ++ [(s.si, s.esoDelayed)] } := by
        rw [logEvent, hinput, BusLog.next_of_rises hr]
      have hbits : (logEvent s (.pin e) w).bits = w.bits ++ [m.si] := by
        rw [logEvent, hinput, BusLog.bits_next_of_rises hr, h.si]
      have hkeeps := keeps_posedgeSclk m
      have hnext := (hfallen ▸ hbusy).posedgeSclk hstd.1 (hm ▸ hstd.2)
      rw [hm]
      refine ⟨hdevice, h.rstn, hkeeps.cs.trans h.cs, hkeeps.sclk, hkeeps.si.trans h.si,
        hkeeps.out h.out, hidle, fun _ => ?_⟩
      rw [hbits, hlog, hfallen]
      exact hnext
    case true.false =>
      -- a falling edge
      have hm : m.step e = m.negedgeSclk := by simp [step, e, hcs, hlow]
      have hf : s.dom.falls false = true := DomainPair.falls_iff.mpr ⟨hclk ▸ hlow, rfl⟩
      have hlog : logEvent s (.pin e) w = { w with fallen := some w.rises.length } := by
        rw [logEvent, hinput, BusLog.next_of_falls hf]
      have hkeeps := keeps_negedgeSclk m
      have hnext := hbusy.negedgeSclk (h.fallen_of_high (hclk ▸ hlow))
      rw [hm]
      refine ⟨hdevice, h.rstn, hkeeps.cs.trans h.cs, hkeeps.sclk, hkeeps.si.trans h.si,
        hkeeps.out h.out, hidle, fun _ => ?_⟩
      rw [hlog, Option.getD_some, ← BusLog.length_bits]
      exact hnext
    case false.false | true.true =>
      have hm : m.step e = m := step_of_still hlow
      have hstill := hclk.symm.trans hlow
      have hlog : logEvent s (.pin e) w = w := by
        rw [logEvent, hinput]
        exact BusLog.next_of_still (by rw [DomainPair.rises, hstill]; rfl)
          (by rw [DomainPair.falls, hstill]; rfl) _ _ _
      rw [hlog] at hdevice ⊢
      rw [hm]
      exact ⟨hdevice, h.rstn, h.cs, hlow, h.si, h.out, h.idle, h.busy⟩

/-- **Step lemma.** -/
theorem step (h : Coupled s w m) (e : PinEvent) (hstd : Standard m e) :
    Coupled (FlashEmu.step 0xc22539 s (.pin e)) (logEvent s (.pin e) w) (m.step e) := by
  match e with
  | .lines csn rstn si =>
    obtain rfl : rstn = true := hstd
    exact h.lines csn si
  | .sclk level => exact h.clock level hstd

/-- **Run lemma.** -/
theorem run (sclk si : Bool) {es : List PinEvent}
    (hstd : Along MX25U25635F.step Standard (boot sclk si) es) :
    let s := StepMachine.run (FlashEmu.step 0xc22539) (FlashEmu.boot 0xc22539 true sclk si)
      (es.map .pin)
    let w := busLog 0xc22539 (FlashEmu.boot 0xc22539 true sclk si) (es.map .pin)
    Coupled s w (StepMachine.run MX25U25635F.step (boot sclk si) es) := by
  induction es using List.reverseRecOn with
  | nil =>
    have hinv := @Inv.boot 0xc22539 true sclk si
    exact
      { device := DeviceInv.of_deselected hinv rfl rfl
        rstn := rfl, cs := rfl, sclk := rfl, si := rfl, out := rfl
        idle := fun _ => ⟨rfl, rfl, ⟨rfl, rfl, rfl, rfl⟩, rfl⟩
        busy := fun hcsn => (Bool.false_ne_true hcsn.symm).elim }
  | append_singleton es e ih =>
    obtain ⟨hinit, hlast⟩ := along_concat.mp hstd
    simp only [List.map_append, List.map_cons, List.map_nil, run_concat, busLog, record_concat]
    exact (ih hinit).step e hlast

/-- Both outputs, in terms of the bits before the last falling edge. -/
theorem so_eq (h : Coupled s w m) :
    let bits := w.bits.take (w.fallen.getD 0)
    m.so = answer bits ∧ s.so = respond 0xc22539 initMem bits := by
  refine ⟨?_, ?_⟩
  · cases hcsn : s.csn with
    | true =>
      rw [h.log_eq hcsn, so, (h.idle hcsn).soOutEn]
      rfl
    | false =>
      refine (h.busy hcsn).stage.so_eq h.out ?_
      cases hfallen : w.fallen with
      | none => exact Nat.zero_le _
      | some f =>
        rw [BusLog.length_bits]
        exact h.tracks.fallen_le hfallen
  · rw [h.device.so_eq]
    cases w.fallen <;> rfl

end Coupled

/-- **FlashEmu stands in for the vendor's model.** On the same pins, in every run of
identifications, reads and meaningless commands, each shorter than `2 ^ 32` clock edges and broken
off anywhere, the two outputs are equal at every moment but for the data bits of a read, and for
these exactly where the emulator mirrors the model's array. -/
theorem so_eq_iff (sclk si : Bool) (es : List PinEvent)
    (hstd : Along step Standard (boot sclk si) es) :
    let m := run step (boot sclk si) es
    let s := run (FlashEmu.step 0xc22539) (FlashEmu.boot 0xc22539 true sclk si) (es.map .pin)
    let w := busLog 0xc22539 (FlashEmu.boot 0xc22539 true sclk si) (es.map .pin)
    m.so = s.so.map some ↔
      ∀ f, w.fallen = some f → 32 ≤ f → Front.opcode w.bits = cmdRead →
        Mirrored (byteAddress w.bits f) ((f - 32) % 8) := by
  intro m s w
  have hcoupled : Coupled s w m := Coupled.run sclk si hstd
  obtain ⟨hm, hs⟩ := hcoupled.so_eq
  cases hfallen : w.fallen with
  | none =>
    rw [hm, hs, hfallen]
    exact iff_of_true rfl fun f hf => by cases hf
  | some f =>
    have hf : f ≤ w.bits.length := by
      rw [BusLog.length_bits]
      exact hcoupled.tracks.fallen_le hfallen
    have hlen : (w.bits.take f).length = f := by rw [List.length_take, Nat.min_eq_left hf]
    have hq : 8 ≤ (w.bits.take f).length → Front.opcode (w.bits.take f) ≠ cmdQread := by
      intro h8
      rw [hlen] at h8
      rw [Front.opcode_take h8]
      refine (hcoupled.busy ?_).stage.opcode_ne (h8.trans hf)
      -- an empty log has no falling edge
      by_contra hcsn
      rw [hcoupled.log_eq (by simpa using hcsn)] at hfallen
      cases hfallen
    rw [hm, hs, hfallen, Option.getD_some, answer_eq_iff hq, hlen]
    constructor
    · rintro h _ ⟨⟩ h32 hop
      have hmirrored := h h32 ((Front.opcode_take (by omega)).trans hop)
      rwa [byteAddress, Front.address_take h32] at hmirrored
    · intro h h32 hop
      have hmirrored := h f rfl h32 ((Front.opcode_take (by omega)).symm.trans hop)
      rwa [byteAddress, Front.address_take h32]

/-- An identification broken off in its ninth bit, then the first data bit of a read at `0x010000`,
whose highest bytes do not show in bit 7: both drive it, and to the same level. -/
theorem so_eq_iff_broken_off :
    let clocked (bits : List Bool) : List PinEvent :=
      bits.flatMap fun b => [.lines false true b, .sclk true, .sclk false]
    let es := clocked ((List.range 9).map fun i => 0 == i || 3 ≤ i) ++ [.lines true true false] ++
      clocked ((List.range 32).map fun i => i == 6 || i == 7 || i == 15)
    let m := run step (boot false false) es
    let s := run (FlashEmu.step 0xc22539) (FlashEmu.boot 0xc22539 true false false) (es.map .pin)
    s.so.isSome = true ∧ m.so = s.so.map some := by
  intro clocked es m s
  have hiff := so_eq_iff false false es (by decide +kernel)
  have hfallen : (busLog 0xc22539 (FlashEmu.boot 0xc22539 true false false)
      (es.map .pin)).fallen = some 32 := by decide +kernel
  refine ⟨by decide +kernel, hiff.mpr ?_⟩
  intro f hf _ _
  obtain rfl : 32 = f := Option.some.inj (hfallen.symm.trans hf)
  decide +kernel

end MX25U25635F

end LiteSpiH4x
