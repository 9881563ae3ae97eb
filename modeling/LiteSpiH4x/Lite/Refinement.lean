import LiteSpiH4x.Emu.FlashEmu
import LiteSpiH4x.Lite.FlashEmuLite

/-! # The two command front ends on one bus

FlashEmu clocks its state machine with `sclk`, FlashEmuLite with `sclk & ~csn`. In mode 0 the two
clocks have the same edges while `csn` is low. In mode 3, `csn` falls while `sclk` is high and the
gated clock rises with it: FlashEmuLite spends its reset edge on a bit that is none, and is one
bit ahead for the rest of the transaction.

* **`Coupled`** — the simulation relation: FlashEmuLite has seen FlashEmu's bits, after one more
  if the transaction started with `sclk` high.
* **`agree_iff`** — the two agree at every rising edge exactly if every transaction that has one
  started with `sclk` low. -/

namespace LiteSpiH4x

open Digital ReadPort StepMachine

/-- Without the quad opcode the two modules decode alike. -/
theorem Front.decode_quad {idcode : BitVec 24} {bits : List Bool}
    (h : 8 ≤ bits.length → Front.opcode bits ≠ cmdQread) :
    Front.decode true idcode bits = Front.decode false idcode bits := by
  unfold Front.decode
  by_cases h8 : bits.length < 8
  · rw [if_pos h8, if_pos h8]
  · have hread : Front.IsRead true (Front.opcode bits) ↔
        Front.IsRead false (Front.opcode bits) := by
      simp only [Front.IsRead, h (not_lt.mp h8), and_false]
    rw [if_neg h8, if_neg h8, if_congr hread rfl rfl]

namespace Refinement

variable {cfg : LiteConfig}

/-- The two emulators on one bus, with what the bus has seen: both logs, and whether `sclk` was
high when `csn` last fell. -/
structure Bus (cfg : LiteConfig) where
  emu : FlashEmu.State
  lite : FlashEmuLite.State cfg
  emuLog : BusLog
  liteLog : BusLog
  startedHigh : Bool

/-- An event on the bus, or one of either module's other side: the selection and the loader of
FlashEmu, and the system clock of FlashEmuLite. -/
inductive Event
  | lines (csn si : Bool)
  | sclk (level : Bool)
  | emuSel (level : Bool)
  | emuSys (p : FakeMemoryPort)
  | liteSys (c : Cycle)
  deriving DecidableEq, Repr

/-- What FlashEmu gets of an event; its `rstn` is high. -/
def Event.forEmu : Event → Option FlashEmu.Event
  | .lines csn si => some (.pin (.lines csn true si))
  | .sclk level => some (.pin (.sclk level))
  | .emuSel level => some (.sel level)
  | .emuSys p => some (.sys p)
  | .liteSys _ => none

/-- What FlashEmuLite gets of an event. -/
def Event.forLite : Event → Option FlashEmuLite.Event
  | .lines csn si => some (.lines csn si)
  | .sclk level => some (.sclk level)
  | .liteSys c => some (.sys c)
  | _ => none

/-- Whether `sclk` was high when `csn` last fell, after an event. -/
def startedHighNext (x : Bus cfg) : Event → Bool
  | .lines csn _ => !csn && (if x.lite.csn then x.lite.sclk else x.startedHigh)
  | _ => x.startedHigh

/-- One event. -/
def step (idcode : BitVec 24) (mem : cfg.Addr → cfg.Word) (x : Bus cfg) (e : Event) : Bus cfg where
  emu := e.forEmu.elim x.emu (FlashEmu.step idcode x.emu)
  lite := e.forLite.elim x.lite (FlashEmuLite.step idcode mem x.lite)
  emuLog := e.forEmu.elim x.emuLog fun e => FlashEmu.logEvent x.emu e x.emuLog
  liteLog := e.forLite.elim x.liteLog fun e => FlashEmuLite.logEvent x.lite e x.liteLog
  startedHigh := startedHighNext x e

/-- Both at power-on, with `csn` high. -/
def boot (cfg : LiteConfig) (idcode : BitVec 24) (sclk si : Bool) : Bus cfg where
  emu := FlashEmu.boot idcode true sclk si
  lite := FlashEmuLite.boot cfg idcode sclk si
  emuLog := {}
  liteLog := {}
  startedHigh := false

/-- The two state machines are in the same state with equal `cmd`, `cmd_bit_cnt`, `addr`,
`addr_cnt`, `dr_bit_cnt` and `idcode`. -/
def Same (x : Bus cfg) : Prop := x.emu.regs.toCmdRegs = x.lite.regs.toCmdRegs

instance (x : Bus cfg) : Decidable (Same x) := inferInstanceAs (Decidable (_ = _))

/-- The event is a rising edge of `sclk` with `csn` low. -/
def Rises (x : Bus cfg) (e : Event) : Prop :=
  e = .sclk true ∧ x.lite.sclk = false ∧ x.lite.csn = false

instance (x : Bus cfg) (e : Event) : Decidable (Rises x e) := inferInstanceAs (Decidable (_ ∧ _))

/-- A rising edge does not start a transaction. -/
theorem Rises.startedHigh {x : Bus cfg} {e : Event} (h : Rises x e) {idcode : BitVec 24}
    {mem : cfg.Addr → cfg.Word} : (step idcode mem x e).startedHigh = x.startedHigh := by
  rw [h.1]
  rfl

/-- After a rising edge of `sclk` with `csn` low the two are the same. -/
def AgreeAtRise (idcode : BitVec 24) (mem : cfg.Addr → cfg.Word) (x : Bus cfg) (e : Event) : Prop :=
  Rises x e → Same (step idcode mem x e)

instance (idcode : BitVec 24) (mem : cfg.Addr → cfg.Word) (x : Bus cfg) (e : Event) :
    Decidable (AgreeAtRise idcode mem x e) := inferInstanceAs (Decidable (_ → _))

/-- A transaction that gets a rising edge of `sclk` started with `sclk` low. -/
def StartedLow (x : Bus cfg) (e : Event) : Prop := Rises x e → x.startedHigh = false

instance (x : Bus cfg) (e : Event) : Decidable (StartedLow x e) :=
  inferInstanceAs (Decidable (_ → _))

/-- The opcode is not the quad read that only FlashEmu knows. -/
def NoQread (idcode : BitVec 24) (mem : cfg.Addr → cfg.Word) (x : Bus cfg) (e : Event) : Prop :=
  let w := (step idcode mem x e).emuLog
  8 ≤ w.bits.length → Front.opcode w.bits ≠ 0x6b#8

instance (idcode : BitVec 24) (mem : cfg.Addr → cfg.Word) (x : Bus cfg) (e : Event) :
    Decidable (NoQread idcode mem x e) := inferInstanceAs (Decidable (_ → _))

/-- The simulation relation. -/
structure Coupled (idcode : BitVec 24) (x : Bus cfg) : Prop where
  emu : FlashEmu.Inv idcode x.emu x.emuLog
  lite : FlashEmuLite.Inv idcode x.lite x.liteLog
  csn : x.emu.csn = x.lite.csn
  rstn : x.emu.rstn = true
  si : x.emu.si = x.lite.si
  sclk : x.emu.dom.clk = x.lite.sclk
  idle : x.lite.csn = true → x.startedHigh = false
  /-- A transaction started with `sclk` high has an extra bit in front in FlashEmuLite. -/
  bits : ∃ extra : List Bool, x.liteLog.bits = extra ++ x.emuLog.bits ∧
    extra.length = if x.startedHigh then 1 else 0

namespace Coupled

variable {idcode : BitVec 24} {mem : cfg.Addr → cfg.Word} {x : Bus cfg}

/-- At power-on. -/
theorem boot (sclk si : Bool) : Coupled idcode (Refinement.boot cfg idcode sclk si) where
  emu := .boot true sclk si
  lite := .boot sclk si
  csn := rfl
  rstn := rfl
  si := rfl
  sclk := rfl
  idle := fun _ => rfl
  bits := ⟨[], rfl, rfl⟩

/-- The bits after a change of the level pins. -/
theorem bits_lines (h : Coupled idcode x) (csn si : Bool) :
    ∃ extra : List Bool, (step idcode mem x (.lines csn si)).liteLog.bits =
        extra ++ (step idcode mem x (.lines csn si)).emuLog.bits ∧
      extra.length = if startedHighNext x (.lines csn si) then 1 else 0 := by
  cases csn with
  | true => exact ⟨[], rfl, rfl⟩
  | false =>
    -- `sclk` stands still, so FlashEmu sees no edge
    have hemu : (step idcode mem x (.lines false si)).emuLog = x.emuLog :=
      BusLog.next_of_still (Bool.not_and_self _) (Bool.and_not_self _) _ _ _
    have hclk := h.lite.clk
    rw [hemu]
    cases hcsn : x.lite.csn with
    | false =>
      rw [hcsn, Bool.not_false, Bool.and_true] at hclk
      have hlite : (step idcode mem x (.lines false si)).liteLog = x.liteLog := by
        refine BusLog.next_of_still ?_ ?_ _ _ _
        · rw [DomainPair.rises, hclk, Bool.not_false, Bool.and_true]; exact Bool.not_and_self _
        · rw [DomainPair.falls, hclk, Bool.not_false, Bool.and_true]; exact Bool.and_not_self _
      rw [hlite]
      simpa only [startedHighNext, hcsn, Bool.not_false, Bool.true_and, Bool.false_eq_true,
        if_false] using h.bits
    | true =>
      -- the gated clock was low, and takes the level of `sclk`
      rw [hcsn, Bool.not_true, Bool.and_false] at hclk
      have hempty : x.liteLog = {} := h.lite.tracks.held hcsn
      have hempty' : x.emuLog = {} := by
        refine h.emu.tracks.held ?_
        rw [FlashEmu.resetInput, h.csn, hcsn, Bool.or_true]
      rw [hempty']
      cases hsclk : x.lite.sclk with
      | false =>
        refine ⟨[], ?_, ?_⟩
        · rw [step, hempty]
          refine (congrArg BusLog.bits (BusLog.next_of_still ?_ ?_ _ _ _)).trans rfl
          · rw [DomainPair.rises, hclk, hsclk]; rfl
          · rw [DomainPair.falls, hclk, hsclk]; rfl
        · rw [startedHighNext, hcsn, hsclk]; rfl
      | true =>
        refine ⟨[si], ?_, ?_⟩
        · rw [step, hempty]
          refine (BusLog.bits_next_of_rises ?_ _ _ _).trans rfl
          rw [DomainPair.rises, hclk, hsclk]; rfl
        · rw [startedHighNext, hcsn, hsclk]; rfl

/-- The bits after a change of `sclk`. -/
theorem bits_sclk (h : Coupled idcode x) (level : Bool) :
    ∃ extra : List Bool, (step idcode mem x (.sclk level)).liteLog.bits =
        extra ++ (step idcode mem x (.sclk level)).emuLog.bits ∧
      extra.length = if x.startedHigh then 1 else 0 := by
  have hclk := h.lite.clk
  cases hcsn : x.lite.csn with
  | true =>
    refine ⟨[], ?_, by rw [h.idle hcsn]; rfl⟩
    have hemu : (step idcode mem x (.sclk level)).emuLog = {} := by
      change x.emuLog.next _ level (FlashEmu.resetInput x.emu.csn x.emu.rstn) _ _ = _
      rw [FlashEmu.resetInput, h.csn, hcsn, Bool.or_true, BusLog.next_of_input]
    have hlite : (step idcode mem x (.sclk level)).liteLog = {} := by
      change x.liteLog.next _ _ x.lite.csn _ _ = _
      rw [hcsn, BusLog.next_of_input]
    rw [hemu, hlite]
    rfl
  | false =>
    rw [hcsn, Bool.not_false, Bool.and_true, ← h.sclk] at hclk
    have hinput : FlashEmu.resetInput x.emu.csn x.emu.rstn = false := by
      rw [FlashEmu.resetInput, h.csn, hcsn, h.rstn]; rfl
    have hemu : (step idcode mem x (.sclk level)).emuLog =
        x.emuLog.next x.emu.dom level false x.emu.si x.emu.esoDelayed := by
      rw [← hinput]; rfl
    have hlite : (step idcode mem x (.sclk level)).liteLog =
        x.liteLog.next x.emu.dom level false x.emu.si x.lite.esoDelayed := by
      change x.liteLog.next x.lite.dom (level && !x.lite.csn) x.lite.csn x.lite.si _ = _
      rw [hcsn, Bool.not_false, Bool.and_true, BusLog.next_congr hclk, h.si]
    obtain ⟨extra, hbits, hlen⟩ := h.bits
    refine ⟨extra, ?_, hlen⟩
    rw [hemu, hlite]
    cases hr : x.emu.dom.rises level with
    | true =>
      rw [BusLog.bits_next_of_rises hr, BusLog.bits_next_of_rises hr, hbits, List.append_assoc]
    | false => rw [BusLog.bits_next_of_not_rises hr, BusLog.bits_next_of_not_rises hr, hbits]

/-- **Step lemma.** Every event keeps the two coupled. -/
theorem step (h : Coupled idcode x) (e : Event) :
    Coupled idcode (Refinement.step idcode mem x e) := by
  have hlite : ∀ e, FlashEmuLite.Inv idcode (FlashEmuLite.step idcode mem x.lite e)
      (FlashEmuLite.logEvent x.lite e x.liteLog) := fun e => h.lite.step e
  match e with
  | .lines csn si =>
    refine ⟨h.emu.step (.pin (.lines csn true si)), hlite (.lines csn si), rfl, rfl, rfl,
      h.sclk, ?_, h.bits_lines csn si⟩
    intro hcsn
    have hcsn' : csn = true := hcsn
    rw [Refinement.step, startedHighNext, hcsn']
    rfl
  | .sclk level =>
    exact ⟨h.emu.step (.pin (.sclk level)), hlite (.sclk level), h.csn, h.rstn, h.si, rfl,
      h.idle, h.bits_sclk level⟩
  | .emuSel level =>
    exact ⟨h.emu.step (.sel level), h.lite, h.csn, h.rstn, h.si, h.sclk, h.idle, h.bits⟩
  | .emuSys p =>
    exact ⟨h.emu.step (.sys p), h.lite, h.csn, h.rstn, h.si, h.sclk, h.idle, h.bits⟩
  | .liteSys c =>
    exact ⟨h.emu, hlite (.sys c), h.csn, h.rstn, h.si, h.sclk, h.idle, h.bits⟩

/-- After a rising edge with `csn` low both logs have its bit, and it is FlashEmu's first if its
log was empty. -/
theorem rises (h : Coupled idcode x) {e : Event} (he : Rises x e) :
    (Refinement.step idcode mem x e).emuLog.bits = x.emuLog.bits ++ [x.emu.si] := by
  obtain ⟨rfl, hsclk, hcsn⟩ := he
  change (x.emuLog.next _ true (FlashEmu.resetInput x.emu.csn x.emu.rstn) _ _).bits = _
  rw [FlashEmu.resetInput, h.csn, hcsn, h.rstn]
  exact BusLog.bits_next_of_rises (by rw [DomainPair.rises, h.sclk, hsclk]; rfl) _ _ _

/-- Only a rising edge with `csn` low adds a bit to FlashEmu's log. -/
theorem bits_of_not_rises (h : Coupled idcode x) {e : Event} (he : ¬ Rises x e)
    (hnil : x.emuLog.bits = []) : (Refinement.step idcode mem x e).emuLog.bits = [] := by
  match e with
  | .lines csn si =>
    change (x.emuLog.next x.emu.dom x.emu.dom.clk _ _ _).bits = []
    cases FlashEmu.resetInput csn true with
    | true => rfl
    | false => rw [BusLog.bits_next_of_not_rises (Bool.not_and_self _), hnil]
  | .sclk level =>
    change (x.emuLog.next x.emu.dom level (FlashEmu.resetInput x.emu.csn x.emu.rstn) _ _).bits = []
    cases hcsn : x.lite.csn with
    | true => rw [FlashEmu.resetInput, h.csn, hcsn, Bool.or_true]; rfl
    | false =>
      have hrise : x.emu.dom.rises level = false := by
        rw [Bool.eq_false_iff, Ne, DomainPair.rises_iff]
        rintro ⟨hclk, rfl⟩
        exact he ⟨rfl, h.sclk ▸ hclk, hcsn⟩
      rw [FlashEmu.resetInput, h.csn, hcsn, h.rstn]
      exact (BusLog.bits_next_of_not_rises hrise _ _ _).trans hnil
  | .emuSel level => exact hnil
  | .emuSys p => exact hnil
  | .liteSys c => exact hnil

/-- If a transaction has started with `sclk` high and has no bit yet, it had none before. -/
theorem bits_eq_nil_of_startedHigh (h : Coupled idcode x) {e : Event}
    (hnil : x.startedHigh = true → x.emuLog.bits = [])
    (hhigh : (Refinement.step idcode mem x e).startedHigh = true) : x.emuLog.bits = [] := by
  match e with
  | .lines csn si =>
    cases hcsn : x.lite.csn with
    | true =>
      have hlog : x.emuLog = {} := h.emu.tracks.held (by
        rw [FlashEmu.resetInput, h.csn, hcsn, Bool.or_true])
      rw [hlog]
      rfl
    | false =>
      rw [Refinement.step, startedHighNext, hcsn, Bool.and_eq_true] at hhigh
      exact hnil hhigh.2
  | .sclk level => exact hnil hhigh
  | .emuSel level => exact hnil hhigh
  | .emuSys p => exact hnil hhigh
  | .liteSys c => exact hnil hhigh

/-- **Same bits, same registers**, but for the quad opcode. -/
theorem same (h : Coupled idcode x) (hne : x.emuLog.rises ≠ []) (hlow : x.startedHigh = false)
    (hq : 8 ≤ x.emuLog.bits.length → Front.opcode x.emuLog.bits ≠ cmdQread) : Same x := by
  obtain ⟨extra, hbits, hlen⟩ := h.bits
  -- no extra bit, so both have decoded the same list
  rw [hlow] at hlen
  rw [List.length_eq_zero_iff.mp hlen, List.nil_append] at hbits
  have hne' : x.liteLog.rises ≠ [] := by
    rwa [Ne, ← BusLog.bits_eq_nil, hbits, BusLog.bits_eq_nil]
  have hemu := h.emu.front hne
  have hlite := h.lite.front hne'
  rw [hbits, ← Front.decode_quad hq, ← hemu] at hlite
  exact congrArg (fun f => f.toCmdRegs) hlite.symm

/-- **One bit ahead.** After the first rising edge of a transaction that started with `sclk` high
the two have counted different numbers of opcode bits. -/
theorem not_same (h : Coupled idcode x) (hone : x.emuLog.bits.length = 1)
    (hhigh : x.startedHigh = true) : ¬ Same x := by
  obtain ⟨extra, hbits, hlen⟩ := h.bits
  rw [hhigh, if_pos rfl] at hlen
  have htwo : x.liteLog.bits.length = 2 := by rw [hbits, List.length_append, hlen, hone]
  have hne : x.emuLog.rises ≠ [] := BusLog.rises_ne_nil_of_pos (by omega)
  have hne' : x.liteLog.rises ≠ [] := BusLog.rises_ne_nil_of_pos (by omega)
  have hemu := congrArg (fun f => f.cmdBitCnt) (h.emu.front hne)
  have hlite := congrArg (fun f => f.cmdBitCnt) (h.lite.front hne')
  rw [Front.decode_header (by omega), hone] at hemu
  rw [Front.decode_header (by omega), htwo] at hlite
  intro hsame
  have hcnt : x.emu.regs.cmdBitCnt = x.lite.regs.cmdBitCnt := congrArg (fun r => r.cmdBitCnt) hsame
  -- `cmd_bit_cnt` counts the bits of the opcode, and the two lists differ in length
  have hlit : BitVec.ofNat 3 1 = BitVec.ofNat 3 2 := (hemu.symm.trans hcnt).trans hlite
  exact absurd hlit (by decide)

/-- The first rising edge of a transaction that started with `sclk` high sets the two apart. -/
theorem not_agree (h : Coupled idcode x) {e : Event} (he : Rises x e)
    (hnil : x.emuLog.bits = []) (hhigh : x.startedHigh = true) :
    ¬ Same (Refinement.step idcode mem x e) := by
  refine (h.step e).not_same ?_ (he.startedHigh.trans hhigh)
  rw [h.rises he, hnil]
  rfl

end Coupled

/-- **When the front ends agree.** Feed both modules the same events on `csn`, `sclk` and `si`,
with no quad-read opcode. They are the same after every rising edge of `sclk` with `csn` low,
exactly if every transaction that gets such an edge started with `sclk` low. -/
theorem agree_iff (cfg : LiteConfig) (idcode : BitVec 24) (mem : cfg.Addr → cfg.Word)
    (sclk si : Bool) (es : List Event)
    (hq : Along (step idcode mem) (NoQread idcode mem) (boot cfg idcode sclk si) es) :
    Along (step idcode mem) (AgreeAtRise idcode mem) (boot cfg idcode sclk si) es ↔
      Along (step idcode mem) StartedLow (boot cfg idcode sclk si) es := by
  have hstart : Coupled idcode (boot cfg idcode sclk si) := .boot sclk si
  constructor
  · intro hagree
    refine hagree.imp
      (P := fun x => Coupled idcode x ∧ (x.startedHigh = true → x.emuLog.bits = [])) ?_ ?_
      ⟨hstart, fun _ => rfl⟩
    -- agreement rules out every rising edge of a transaction that started high
    · rintro x e hagree ⟨h, hnil⟩
      refine ⟨h.step e, ?_⟩
      intro hhigh
      by_cases he : Rises x e
      · rw [he.startedHigh] at hhigh
        exact absurd (hagree he) (h.not_agree he (hnil hhigh) hhigh)
      · exact h.bits_of_not_rises he (h.bits_eq_nil_of_startedHigh hnil hhigh)
    · rintro x e ⟨h, hnil⟩ hagree he
      rw [← Bool.not_eq_true]
      intro hhigh
      exact h.not_agree he (hnil hhigh) hhigh (hagree he)
  · intro hlow
    refine (hq.and hlow).imp (P := Coupled idcode) (fun x e _ h => h.step e) ?_ hstart
    rintro x e h ⟨hq, hlow⟩ he
    refine (h.step e).same ?_ ?_ hq
    · refine BusLog.rises_ne_nil_of_pos ?_
      rw [h.rises he, List.length_append, List.length_singleton]
      exact Nat.succ_pos _
    · rw [he.startedHigh]
      exact hlow he

/-- In mode 0, the opcode `0xeb` broken off after its last bit, then an identification up to its
second data bit: the two agree all along, and both are in the identification. -/
theorem agree_iff_mode_zero :
    let clocked (bits : List Bool) : List Event :=
      bits.flatMap fun b => [.lines false b, .sclk true, .sclk false]
    let es := clocked [true, true, true, false, true, false, true, true] ++ [.lines true false] ++
      clocked [true, false, false, true, true, true, true, true, false, false]
    let x := run (step 0x20ba18#24 fun _ => 0) (boot LiteConfig.sixBits 0x20ba18#24 false false) es
    Along (step 0x20ba18#24 fun _ => 0) (AgreeAtRise 0x20ba18#24 fun _ => 0)
        (boot LiteConfig.sixBits 0x20ba18#24 false false) es ∧
      Front.opcode x.emuLog.bits = cmdRdid ∧ x.emu.regs.state = .rdid := by
  intro clocked es x
  have hiff := agree_iff LiteConfig.sixBits 0x20ba18#24 (fun _ => 0) false false es
    (by decide +kernel)
  exact ⟨hiff.mpr (by decide +kernel), by decide +kernel, by decide +kernel⟩

/-- In mode 3 the first clock sets the two apart. -/
theorem disagree_mode_three :
    let es : List Event := [.lines false true, .sclk false, .sclk true]
    Along (step 0x20ba18#24 fun _ => 0) (NoQread 0x20ba18#24 fun _ => 0)
        (boot LiteConfig.sixBits 0x20ba18#24 true false) es ∧
      ¬ Along (step 0x20ba18#24 fun _ => 0) (AgreeAtRise 0x20ba18#24 fun _ => 0)
        (boot LiteConfig.sixBits 0x20ba18#24 true false) es := by
  decide

end Refinement

end LiteSpiH4x
