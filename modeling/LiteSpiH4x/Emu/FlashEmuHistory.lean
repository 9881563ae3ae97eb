import LiteSpiH4x.Emu.FlashEmu

/-! # History independence of FlashEmu

Registers are reset by clock edges, so between transactions the state machine, `qmode`, the
rotated `idcode`, the sampled memory address and the output registers all keep what the last
transaction left. `Agree` relates two emulators that differ only in such leftovers, hidden behind
a reset that is still up; pin events keep it, and agreeing emulators show the same output. -/

namespace LiteSpiH4x

open Digital StepMachine

namespace FlashEmu

/-- What is seen of the output pin: the enable, and the level whenever it is driven. -/
def shown (s : State) : Bool × Option Bool :=
  (s.esoTsOe, if s.esoTsOe then some s.esoTsO else none)

/-- Two emulators that agree but for registers whose reset is still to come. -/
structure Agree (s t : State) : Prop where
  csn : s.csn = t.csn
  rstn : s.rstn = t.rstn
  si : s.si = t.si
  dom : s.dom = t.dom
  selLeft : s.flashMem.sel = false
  selRight : t.flashMem.sel = false
  mem : s.flashMem.mem = t.flashMem.mem
  regs : s.dom.rst = false → s.regs = t.regs
  /-- The address sampled at the reset edge is a leftover, but it is replaced at the next edge,
  long before a state reads the memory. -/
  memadr : s.dom.rst = false → s.regs.state ≠ .getCmd →
    s.flashMem.memadr = t.flashMem.memadr
  outputs : s.dom.rstInv = false →
    s.esoDelayed = t.esoDelayed ∧ s.esoOeDelayed = t.esoOeDelayed
  /-- Once the inverse domain is out of reset, the direct one has left it at the latest rising
  edge. -/
  order : s.dom.rstInv = false → s.dom.clk = true → s.dom.rst = false

/-- In `get_cmd` the clock edge and the output do not look at the memory. -/
theorem Regs.next_eq_of_getCmd {r : Regs} (h : r.state = .getCmd) (esi : Bool)
    (d d' : BitVec 8) : r.next esi d = r.next esi d' ∧ r.eso d = r.eso d' := by
  simp only [Regs.next, Regs.eso, h, and_self]

namespace Agree

variable {idcode : BitVec 24} {s t : State}

/-- Out of reset, agreeing emulators make the same step on the same bit and offer the same
output. -/
theorem next_eq (h : Agree s t) (hrst : s.dom.rst = false) (esi : Bool) :
    s.regs.next esi s.flashMem.datR = t.regs.next esi t.flashMem.datR ∧
      s.regs.eso s.flashMem.datR = t.regs.eso t.flashMem.datR := by
  rw [← h.regs hrst]
  -- `get_cmd` is the one state that may see two different memory outputs
  by_cases hst : s.regs.state = .getCmd
  · exact Regs.next_eq_of_getCmd hst esi _ _
  · have hdat : s.flashMem.datR = t.flashMem.datR := by
      rw [FlashEmuMem.datR, FlashEmuMem.datR, h.mem, h.memadr hrst hst]
    rw [hdat]
    exact ⟨rfl, rfl⟩

/-- A rising edge of the clock. -/
theorem pins_of_rises (h : Agree s t) {sclk : Bool} (hr : s.dom.rises sclk = true)
    (csn rstn si : Bool) :
    Agree (s.pins idcode csn rstn sclk si) (t.pins idcode csn rstn sclk si) := by
  rw [State.pins_of_rises hr, State.pins_of_rises (s := t) (h.dom ▸ hr), ← h.dom]
  refine
    { csn := rfl, rstn := rfl, si := rfl, dom := rfl
      selLeft := (FlashEmuMem.sel_edge _ _ _ _).trans h.selLeft
      selRight := (FlashEmuMem.sel_edge _ _ _ _).trans h.selRight
      mem := ?_, regs := ?_, memadr := ?_, outputs := ?_
      order := fun hinv _ => (Bool.or_eq_false_iff.mp hinv).2 }
  · rw [State.fmp, State.fmp, FlashEmuMem.mem_edge_spi, FlashEmuMem.mem_edge_spi, h.mem]
  · intro _
    by_cases hnow : s.dom.rstNow (resetInput csn rstn) = true
    · rw [if_pos hnow, if_pos hnow]
    · rw [if_neg hnow, if_neg hnow]
      rw [DomainPair.rstNow, Bool.or_eq_true, not_or, Bool.not_eq_true] at hnow
      exact (h.next_eq hnow.1 si).1
  · -- a non-reset edge samples the same address in both, as the registers agree
    intro _ hst
    by_cases hnow : s.dom.rstNow (resetInput csn rstn) = true
    · rw [if_pos hnow] at hst
      exact absurd rfl hst
    · rw [DomainPair.rstNow, Bool.or_eq_true, not_or, Bool.not_eq_true] at hnow
      rw [FlashEmuMem.memadr_edge_spi h.selLeft, FlashEmuMem.memadr_edge_spi h.selRight,
        State.fmp, State.fmp, h.regs hnow.1]
  · intro hinv
    exact h.outputs (Bool.or_eq_false_iff.mp hinv).1

/-- A falling edge of the clock. -/
theorem pins_of_falls (h : Agree s t) {sclk : Bool} (hf : s.dom.falls sclk = true)
    (csn rstn si : Bool) :
    Agree (s.pins idcode csn rstn sclk si) (t.pins idcode csn rstn sclk si) := by
  rw [State.pins_of_falls hf, State.pins_of_falls (s := t) (h.dom ▸ hf), ← h.dom]
  refine
    { csn := rfl, rstn := rfl, si := rfl, dom := rfl
      selLeft := h.selLeft, selRight := h.selRight, mem := h.mem
      regs := fun hrst => h.regs (Bool.or_eq_false_iff.mp hrst).1
      memadr := fun hrst => h.memadr (Bool.or_eq_false_iff.mp hrst).1
      outputs := fun _ => ?_
      order := fun _ hclk => (Bool.false_ne_true hclk).elim }
  by_cases hnow : s.dom.rstInvNow (resetInput csn rstn) = true
  · exact ⟨by simp only [hnow, if_true], by simp only [hnow, if_true]⟩
  · have hinv : s.dom.rstInv = false := by
      rw [DomainPair.rstInvNow, Bool.or_eq_true, not_or, Bool.not_eq_true] at hnow
      exact hnow.1
    have hlive := h.order hinv (DomainPair.falls_iff.mp hf).1
    refine ⟨?_, ?_⟩
    · simp only [if_neg hnow, (h.next_eq hlive si).2]
    · simp only [if_neg hnow, h.regs hlive]

/-- A change of the pins that leaves the clock where it is. -/
theorem pins_of_still (h : Agree s t) {sclk : Bool} (hr : s.dom.rises sclk = false)
    (hf : s.dom.falls sclk = false) (csn rstn si : Bool) :
    Agree (s.pins idcode csn rstn sclk si) (t.pins idcode csn rstn sclk si) := by
  rw [State.pins_of_still hr hf, State.pins_of_still (s := t) (h.dom ▸ hr) (h.dom ▸ hf), ← h.dom]
  refine
    { csn := rfl, rstn := rfl, si := rfl, dom := rfl
      selLeft := h.selLeft, selRight := h.selRight, mem := h.mem
      regs := fun hrst => h.regs (Bool.or_eq_false_iff.mp hrst).1
      memadr := fun hrst => h.memadr (Bool.or_eq_false_iff.mp hrst).1
      outputs := fun hinv => h.outputs (Bool.or_eq_false_iff.mp hinv).1
      order := ?_ }
  intro hinv hclk
  obtain ⟨hold, hin⟩ := Bool.or_eq_false_iff.mp hinv
  exact Bool.or_eq_false_iff.mpr ⟨h.order hold hclk, hin⟩

/-- **Step lemma.** A change of the pins keeps agreeing emulators in agreement. -/
theorem pins (h : Agree s t) (csn rstn sclk si : Bool) :
    Agree (s.pins idcode csn rstn sclk si) (t.pins idcode csn rstn sclk si) := by
  cases hr : s.dom.rises sclk with
  | true => exact h.pins_of_rises hr csn rstn si
  | false =>
    cases hf : s.dom.falls sclk with
    | true => exact h.pins_of_falls hf csn rstn si
    | false => exact h.pins_of_still hr hf csn rstn si

/-- A pin event keeps agreeing emulators in agreement. -/
theorem step (h : Agree s t) (e : PinEvent) :
    Agree (FlashEmu.step idcode s (.pin e)) (FlashEmu.step idcode t (.pin e)) := by
  cases e with
  | lines csn rstn si =>
    have hstep : Agree (s.pins idcode csn rstn s.dom.clk si) _ := h.pins csn rstn s.dom.clk si
    rwa [FlashEmu.step, FlashEmu.step, ← h.dom]
  | sclk level =>
    have hstep : Agree (s.pins idcode s.csn s.rstn level s.si) _ := h.pins s.csn s.rstn level s.si
    rwa [FlashEmu.step, FlashEmu.step, ← h.csn, ← h.rstn, ← h.si]

/-- Agreeing emulators show the same output. -/
theorem shown_eq (h : Agree s t) : shown s = shown t := by
  rw [shown, shown, State.esoTsOe, State.esoTsOe, State.esoTsO, State.esoTsO, ← h.dom]
  cases hinv : s.dom.rstInv with
  | true => simp only [Bool.not_true, Bool.and_false, Bool.false_eq_true, if_false]
  | false =>
    obtain ⟨ho, he⟩ := h.outputs hinv
    rw [ho, he]

end Agree

/-- While `csn` is high both resets are up. -/
theorem Inv.held {idcode : BitVec 24} {s : State} {w : BusLog} (h : Inv idcode s w)
    (hcsn : s.csn = true) : s.dom = ⟨s.dom.clk, true, true⟩ := by
  have hlog : w = {} := h.tracks.held (by rw [resetInput, hcsn, Bool.or_true])
  have hrst : s.dom.rst = true := by rw [h.tracks.rst, hlog]; rfl
  have hinv : s.dom.rstInv = true := by rw [h.tracks.rstInv, hlog]; rfl
  calc s.dom = ⟨s.dom.clk, s.dom.rst, s.dom.rstInv⟩ := rfl
    _ = ⟨s.dom.clk, true, true⟩ := by rw [hrst, hinv]

/-- The fall of `csn` brings two deselected emulators into agreement, whatever each has left in
its registers. -/
theorem Agree.of_select {idcode : BitVec 24} {s t : State} {clk : Bool}
    (hs : s.dom = ⟨clk, true, true⟩) (ht : t.dom = ⟨clk, true, true⟩)
    (hsel : s.flashMem.sel = false) (hsel' : t.flashMem.sel = false)
    (hmem : s.flashMem.mem = t.flashMem.mem) (rstn si : Bool) :
    Agree (FlashEmu.step idcode s (.pin (.lines false rstn si)))
      (FlashEmu.step idcode t (.pin (.lines false rstn si))) := by
  have still : ∀ {u : State}, u.dom = ⟨clk, true, true⟩ →
      FlashEmu.step idcode u (.pin (.lines false rstn si)) =
        { u with csn := false, rstn := rstn, si := si, dom := ⟨clk, true, true⟩ } := by
    intro u hu
    have hr : u.dom.rises u.dom.clk = false := by
      rw [DomainPair.rises]; exact Bool.not_and_self _
    have hf : u.dom.falls u.dom.clk = false := by
      rw [DomainPair.falls]; exact Bool.and_not_self _
    rw [FlashEmu.step, State.pins_of_still hr hf, hu]
    rfl
  -- whatever the registers hold is behind the two resets, which are up
  rw [still hs, still ht]
  exact
    { csn := rfl, rstn := rfl, si := rfl, dom := rfl, selLeft := hsel, selRight := hsel'
      mem := hmem
      regs := fun h => (Bool.false_ne_true h.symm).elim
      memadr := fun h => (Bool.false_ne_true h.symm).elim
      outputs := fun h => (Bool.false_ne_true h.symm).elim
      order := fun h => (Bool.false_ne_true h.symm).elim }

/-- **History independence.** Two runs from power-on that both end with `csn` high, with the
clock at the same level, with the SPI side selected and with the same memory contents show the
same output after every event of a common continuation of the pins that begins with `csn`
falling. -/
theorem shown_trace_eq (idcode : BitVec 24) (rstn sclk si rstn' sclk' si' : Bool)
    (hist hist' : List Event)
    (hcsn : (run (step idcode) (boot idcode rstn sclk si) hist).csn = true)
    (hcsn' : (run (step idcode) (boot idcode rstn' sclk' si') hist').csn = true)
    (hclk : (run (step idcode) (boot idcode rstn sclk si) hist).dom.clk =
      (run (step idcode) (boot idcode rstn' sclk' si') hist').dom.clk)
    (hsel : (run (step idcode) (boot idcode rstn sclk si) hist).flashMem.sel = false)
    (hsel' : (run (step idcode) (boot idcode rstn' sclk' si') hist').flashMem.sel = false)
    (hmem : (run (step idcode) (boot idcode rstn sclk si) hist).flashMem.mem =
      (run (step idcode) (boot idcode rstn' sclk' si') hist').flashMem.mem)
    (rstn₀ si₀ : Bool) (cont : List PinEvent) :
    trace (fun s e => step idcode s (.pin e)) shown
        (run (step idcode) (boot idcode rstn sclk si) hist) (.lines false rstn₀ si₀ :: cont) =
      trace (fun s e => step idcode s (.pin e)) shown
        (run (step idcode) (boot idcode rstn' sclk' si') hist')
        (.lines false rstn₀ si₀ :: cont) := by
  have hs := (@Inv.run idcode rstn sclk si hist).held hcsn
  have ht := (@Inv.run idcode rstn' sclk' si' hist').held hcsn'
  rw [← hclk] at ht
  have hagree := @Agree.of_select idcode _ _ _ hs ht hsel hsel' hmem rstn₀ si₀
  -- the fall of `csn` is the first event; the bisimulation runs from there
  rw [trace, trace, hagree.shown_eq]
  exact congrArg _ (trace_eq_of_bisim (fun _ _ e h => h.step e) (fun _ _ h => h.shown_eq)
    hagree cont)

/-- An `RDID` cut off in the middle of its answer leaves the identifier rotated and the FSM in
`rdid`; a second `RDID` is answered as if it were the first. -/
theorem shown_trace_eq_aborted :
    let rdid := (List.range 8).map fun i => i = 0 || 3 ≤ i
    let clocks := fun bits : List Bool => bits.flatMap fun b =>
      [PinEvent.lines false true b, .sclk true, .sclk false]
    let hist := (clocks (rdid ++ List.replicate 5 true)).map Event.pin ++
      [.pin (.lines true true false)]
    let cont := PinEvent.lines false true true :: clocks (rdid ++ List.replicate 8 false)
    let s := run (step 0x20ba18#24) (boot 0x20ba18#24 true false false) hist
    let t := run (step 0x20ba18#24) (boot 0x20ba18#24 true false false) []
    s.regs.idcode ≠ t.regs.idcode ∧ s.regs.state ≠ t.regs.state ∧
      (true, some true) ∈ trace (fun s e => step 0x20ba18#24 s (.pin e)) shown s cont ∧
      trace (fun s e => step 0x20ba18#24 s (.pin e)) shown s cont =
        trace (fun s e => step 0x20ba18#24 s (.pin e)) shown t cont := by
  intro rdid clocks hist cont s t
  exact ⟨by decide +kernel, by decide +kernel, by decide +kernel,
    shown_trace_eq 0x20ba18#24 true false false true false false hist [] (by decide +kernel) rfl
      (by decide +kernel) (by decide +kernel) rfl rfl true true _⟩

end FlashEmu

end LiteSpiH4x
