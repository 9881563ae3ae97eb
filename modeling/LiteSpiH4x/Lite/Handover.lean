import LiteSpiH4x.Lite.FlashEmuLite

/-! # Handing the prefetch address over to the system clock

`partial_addr` reaches the prefetcher on plain wires, its validity two flip-flops late. The
address is safe for as long as it outlives its validity, and it does within a transaction; but the
first edge of the next transaction clears it, however recently a valid one was seen.

* **`Trail`** — ghost state: for every validity on its way, the leading address bits of the read
  that raised it, and the number of system clock edges since the last reset edge.
* **`Captures`** — what the prefetcher should capture.
* **`InPlace`** — the windows whose word address does not suffer from the prefetcher's counting in
  words of 128 bits, whatever the port's width.
* **`handover`** — the prefetcher captures what it should in every run in which it sees no validity
  older than the last reset edge, and only such windows. -/

namespace LiteSpiH4x

open Digital ReadPort StepMachine

namespace FlashEmuLite

variable {cfg : LiteConfig}

/-- What has become of the validities raised. -/
structure Trail (cfg : LiteConfig) where
  /-- The bus log. -/
  log : BusLog := {}
  /-- Leading bits of the read that last raised `paddr_valid`. -/
  raised : BitVec (24 - cfg.prefetchBits) := 0
  /-- Leading bits of the read whose `paddr_valid` the first flip-flop has sampled. -/
  ofMeta : BitVec (24 - cfg.prefetchBits) := 0
  /-- Leading bits of the read whose `paddr_valid` the second flip-flop shows. -/
  ofSys : BitVec (24 - cfg.prefetchBits) := 0
  /-- System clock edges since the last reset edge of `cd_spi`. -/
  since : ℕ := 0

namespace Trail

/-- A change of the pins: the read is remembered when its last leading bit comes in. -/
def pins (t : Trail cfg) (s : State cfg) (csn sclk si : Bool) : Trail cfg :=
  let log := t.log.next s.dom (sclk && !csn) csn si s.esoDelayed
  { t with
    log := log
    raised :=
      if Front.opcode log.bits = cmdRead ∧ log.bits.length = 32 - cfg.prefetchBits then
        lead cfg log.bits
      else t.raised
    since := if s.dom.rises (sclk && !csn) && s.dom.rstNow csn then 0 else t.since }

/-- One event. -/
def next (s : State cfg) (e : Event) (t : Trail cfg) : Trail cfg :=
  match e with
  | .lines csn si => t.pins s csn s.sclk si
  | .sclk level => t.pins s s.csn level s.si
  | .sys _ => { t with ofMeta := t.raised, ofSys := t.ofMeta, since := t.since + 1 }

end Trail

/-- A system clock edge finds the prefetcher in `IDLE` and `paddr_valid_sys` up. -/
def SeesValid (s : State cfg) : Event → Prop
  | .sys _ => s.flashMem.state = .idle ∧ s.paddrValidSys = true
  | _ => False

instance (s : State cfg) (e : Event) : Decidable (SeesValid s e) := by
  unfold SeesValid
  split <;> infer_instance

/-- The address captured is the port word of the leading bits of the read that raised the
validity seen. -/
def Captures (idcode : BitVec 24) (mem : cfg.Addr → cfg.Word) (x : State cfg × Trail cfg)
    (e : Event) : Prop :=
  SeesValid x.1 e →
    (step idcode mem x.1 e).flashMem.readAddr = portWord cfg (windowAddr cfg x.2.ofSys)

instance (idcode : BitVec 24) (mem : cfg.Addr → cfg.Word) (x : State cfg × Trail cfg)
    (e : Event) : Decidable (Captures idcode mem x e) := inferInstanceAs (Decidable (_ → _))

/-- The port has words of 128 bits, or no address bit is misplaced by `paddr[4:]`: each that the
port's address has room for is the same as the one it should be. -/
def InPlace (cfg : LiteConfig) (lead : BitVec (24 - cfg.prefetchBits)) : Prop :=
  cfg.k = 4 ∨ ∀ i < cfg.addressWidth,
    (windowAddr cfg lead).getLsbD (4 + i) = (windowAddr cfg lead).getLsbD (cfg.k + i)

instance (cfg : LiteConfig) (lead : BitVec (24 - cfg.prefetchBits)) :
    Decidable (InPlace cfg lead) := inferInstanceAs (Decidable (_ ∨ _))

/-- The word address of such a window is that of the port, and of no other. -/
theorem wordAddr_eq_portWord_iff (lead : BitVec (24 - cfg.prefetchBits)) :
    FlashEmuDRAMLite.wordAddr cfg.toDramConfig (windowAddr cfg lead) =
      portWord cfg (windowAddr cfg lead) ↔ InPlace cfg lead := by
  rw [FlashEmuDRAMLite.wordAddr, portWord, InPlace]
  constructor
  · intro heq
    right
    intro i hi
    have hbit := congrArg (fun v => v.getLsbD i) heq
    simpa only [BitVec.getLsbD_setWidth, BitVec.getLsbD_ushiftRight, hi, decide_true,
      Bool.true_and] using hbit
  · rintro (hk | hbits)
    · rw [hk]
    · apply BitVec.eq_of_getLsbD_eq
      intro i hi
      simpa only [BitVec.getLsbD_setWidth, BitVec.getLsbD_ushiftRight, hi, decide_true,
        Bool.true_and] using hbits i hi

/-- A window starts at a multiple of its size. -/
theorem getLsbD_windowAddr_low (lead : BitVec (24 - cfg.prefetchBits)) {m : ℕ}
    (hm : m < cfg.prefetchBits) : (windowAddr cfg lead).getLsbD m = false := by
  rw [windowAddr, BitVec.getLsbD_shiftLeft]
  simp [hm]

/-- The bits of a window in place repeat at the distance by which `paddr[4:]` is off. At a port that
covers the flash they repeat to one of its ends, beyond which there are zeros. -/
theorem getLsbD_windowAddr_of_covers (hk : cfg.k ≠ 4) (hcover : 24 ≤ cfg.addressWidth + cfg.k)
    {lead : BitVec (24 - cfg.prefetchBits)} (hbits : ∀ i < cfg.addressWidth,
      (windowAddr cfg lead).getLsbD (4 + i) = (windowAddr cfg lead).getLsbD (cfg.k + i)) (m : ℕ) :
    (windowAddr cfg lead).getLsbD m = false := by
  have hle := cfg.le
  -- the distance to the end that the bits run to: the low one for wide words, else the high one
  induction hd : (if 4 < cfg.k then m else 24 - m) using Nat.strong_induction_on generalizing m with
  | _ d ih =>
    rcases Nat.lt_or_ge m cfg.prefetchBits with hlow | hhigh
    · exact getLsbD_windowAddr_low lead hlow
    · rcases Nat.lt_or_ge m 24 with hin | hout
      · have hstep := hbits (m - cfg.k) (by omega)
        rw [Nat.add_sub_cancel' (hle.trans hhigh)] at hstep
        rw [← hstep]
        refine ih _ ?_ (4 + (m - cfg.k)) rfl
        rw [← hd]
        split <;> omega
      · exact BitVec.getLsbD_of_ge _ _ hout

/-- **At a port that covers the flash**, with words of another size than 128 bits, only the first
window is in place. -/
theorem inPlace_iff_of_covers (hcover : 24 ≤ cfg.addressWidth + cfg.k)
    (lead : BitVec (24 - cfg.prefetchBits)) : InPlace cfg lead ↔ cfg.k = 4 ∨ lead = 0 := by
  have hlt := cfg.lt
  constructor
  · rintro (hk | hbits)
    · exact Or.inl hk
    · by_cases hk : cfg.k = 4
      · exact Or.inl hk
      · right
        apply BitVec.eq_of_getLsbD_eq
        intro i hi
        -- bit `i` of the leading bits is bit `prefetch_bits + i` of the window's address
        have hbit := getLsbD_windowAddr_of_covers hk hcover hbits (cfg.prefetchBits + i)
        rw [windowAddr, BitVec.getLsbD_shiftLeft, BitVec.getLsbD_setWidth,
          Nat.add_sub_cancel_left] at hbit
        simpa [show cfg.prefetchBits + i < 24 by omega, show i < 24 by omega] using hbit
  · rintro (hk | rfl)
    · exact Or.inl hk
    · right
      intro i _
      simp [windowAddr]

/-- A validity seen was sampled after the last reset edge, two system clock edges having passed
since, and its window is in place. -/
def Fresh (x : State cfg × Trail cfg) (e : Event) : Prop :=
  SeesValid x.1 e → 2 ≤ x.2.since ∧ InPlace cfg x.2.ofSys

instance (x : State cfg × Trail cfg) (e : Event) : Decidable (Fresh x e) :=
  inferInstanceAs (Decidable (_ → _))

/-- What holds between the emulator and the trail after every run. -/
structure Trailed (idcode : BitVec 24) (s : State cfg) (t : Trail cfg) : Prop where
  base : Inv idcode s t.log
  /-- While `paddr_valid` is up, `partial_addr` is that of the read that raised it. -/
  raised : s.regs.paddrValid = true → s.regs.paddr = t.raised
  /-- A validity sampled since the reset edge stands for an address that will not change. -/
  ofMeta : 1 ≤ t.since → s.paddrValidMeta = true →
    s.regs.paddr = t.ofMeta ∧ (t.log.rises ≠ [] → LeadIn cfg t.log.bits)
  ofSys : 2 ≤ t.since → s.paddrValidSys = true →
    s.regs.paddr = t.ofSys ∧ (t.log.rises ≠ [] → LeadIn cfg t.log.bits)

namespace Trailed

variable {idcode : BitVec 24} {mem : cfg.Addr → cfg.Word} {s : State cfg} {t : Trail cfg}

/-- At power-on. -/
theorem boot (sclk si : Bool) : Trailed idcode (FlashEmuLite.boot cfg idcode sclk si) {} where
  base := Inv.boot sclk si
  raised := fun h => absurd h Bool.false_ne_true
  ofMeta := fun _ h => absurd h Bool.false_ne_true
  ofSys := fun _ h => absurd h Bool.false_ne_true

/-- The read that has just completed its leading bits has them in `partial_addr`. -/
theorem paddr_of_valid (h : Inv idcode s t.log) (hne : t.log.rises ≠ [])
    (hv : s.regs.paddrValid = true) :
    (Front.opcode t.log.bits = cmdRead ∧ t.log.bits.length = 32 - cfg.prefetchBits) ∧
      s.regs.paddr = lead cfg t.log.bits := by
  have hin := (paddrValid_iff (h.front hne)).mp hv
  refine ⟨hin, ?_⟩
  rw [h.paddr hne, paddrAfter, if_pos ⟨hin.1, hin.2.ge⟩]

/-- A change of the pins without a rising edge of the gated clock. -/
theorem pins_of_not_rises (h : Trailed idcode s t) {csn sclk : Bool}
    (hr : s.dom.rises (sclk && !csn) = false) (si : Bool) :
    Trailed idcode (s.pins idcode csn sclk si) (t.pins s csn sclk si) := by
  have hbase := h.base.pins csn sclk si
  have hregs : (s.pins idcode csn sclk si).regs = s.regs := by
    simp only [State.pins, hr, Bool.false_eq_true, if_false]
  have hsince : (t.pins s csn sclk si).since = t.since := by
    simp only [Trail.pins, hr, Bool.false_and, Bool.false_eq_true, if_false]
  -- the log is cleared or keeps its bits
  have hlog : (t.pins s csn sclk si).log.rises ≠ [] →
      (t.pins s csn sclk si).log.bits = t.log.bits ∧ t.log.rises ≠ [] := by
    intro hne
    have hbits : (t.pins s csn sclk si).log.bits = t.log.bits := by
      cases csn with
      | true => exact absurd rfl hne
      | false => exact BusLog.bits_next_of_not_rises hr _ _ _
    refine ⟨hbits, ?_⟩
    rwa [Ne, ← BusLog.bits_eq_nil, ← hbits, BusLog.bits_eq_nil]
  refine ⟨hbase, ?_, ?_, ?_⟩
  · intro hv
    rw [hregs] at hv ⊢
    by_cases hin : Front.opcode (t.pins s csn sclk si).log.bits = cmdRead ∧
        (t.pins s csn sclk si).log.bits.length = 32 - cfg.prefetchBits
    · have hlt := cfg.lt
      have hne : (t.pins s csn sclk si).log.rises ≠ [] := BusLog.rises_ne_nil_of_pos (by omega)
      have hraised : (t.pins s csn sclk si).raised = lead cfg (t.pins s csn sclk si).log.bits :=
        if_pos hin
      rw [hraised, (hlog hne).1, (paddr_of_valid h.base (hlog hne).2 hv).2]
    · have hraised : (t.pins s csn sclk si).raised = t.raised := if_neg hin
      rw [hraised, h.raised hv]
  · intro hs hv
    rw [hsince] at hs
    obtain ⟨hp, hin⟩ := h.ofMeta hs hv
    exact ⟨hregs ▸ hp, fun hne => by rw [(hlog hne).1]; exact hin (hlog hne).2⟩
  · intro hs hv
    rw [hsince] at hs
    obtain ⟨hp, hin⟩ := h.ofSys hs hv
    exact ⟨hregs ▸ hp, fun hne => by rw [(hlog hne).1]; exact hin (hlog hne).2⟩

/-- **A data edge** of the gated clock: what was sampled as valid stays, as the address register
is loaded once per transaction. -/
theorem pins_of_rises (h : Trailed idcode s t) {csn sclk : Bool}
    (hr : s.dom.rises (sclk && !csn) = true) (hrst : s.dom.rst = false) (si : Bool) :
    Trailed idcode (s.pins idcode csn sclk si) (t.pins s csn sclk si) := by
  have hbase := h.base.pins csn sclk si
  obtain rfl : csn = false := DomainPair.gate_of_rises hr
  have hne := h.base.tracks.rises_ne_nil hrst
  have hbits : (t.pins s false sclk si).log.bits = t.log.bits ++ [si] :=
    BusLog.bits_next_of_rises hr _ _ _
  have hne' : (t.pins s false sclk si).log.rises ≠ [] := BusLog.rises_next_ne_nil hr _ _ _
  have hsince : (t.pins s false sclk si).since = t.since := by
    simp only [Trail.pins, DomainPair.rstNow, hrst, Bool.or_false, Bool.and_false,
      Bool.false_eq_true, if_false]
  have hkeep : LeadIn cfg t.log.bits →
      (s.pins idcode false sclk si).regs.paddr = s.regs.paddr ∧
        LeadIn cfg (t.pins s false sclk si).log.bits := by
    intro hin
    have hin' : LeadIn cfg (t.pins s false sclk si).log.bits := by rw [hbits]; exact hin.append _
    refine ⟨?_, hin'⟩
    have hp : (s.pins idcode false sclk si).regs.paddr =
        paddrAfter cfg (t.pins s false sclk si).log.bits := hbase.paddr hne'
    rw [hp, h.base.paddr hne, paddrAfter, paddrAfter, if_pos hin, if_pos hin', hbits,
      lead_append hin.2]
  -- the edge may complete the leading bits; what was sampled before stays what it was
  refine ⟨hbase, ?_, ?_, ?_⟩
  · intro hv
    obtain ⟨hin, hp⟩ := paddr_of_valid hbase hne' hv
    rw [hp]
    exact (if_pos hin).symm
  · intro hs hv
    rw [hsince] at hs
    obtain ⟨hp, hin⟩ := h.ofMeta hs hv
    exact ⟨(hkeep (hin hne)).1.trans hp, fun _ => (hkeep (hin hne)).2⟩
  · intro hs hv
    rw [hsince] at hs
    obtain ⟨hp, hin⟩ := h.ofSys hs hv
    exact ⟨(hkeep (hin hne)).1.trans hp, fun _ => (hkeep (hin hne)).2⟩

/-- **The reset edge** makes every validity sampled before it stale. -/
theorem pins_of_reset (h : Trailed idcode s t) {csn sclk : Bool}
    (hr : s.dom.rises (sclk && !csn) = true) (hrst : s.dom.rst = true) (si : Bool) :
    Trailed idcode (s.pins idcode csn sclk si) (t.pins s csn sclk si) := by
  have hnow : s.dom.rstNow csn = true := by rw [DomainPair.rstNow, hrst, Bool.true_or]
  have hsince : (t.pins s csn sclk si).since = 0 := by
    simp only [Trail.pins, hr, hnow, Bool.and_self, if_true]
  have hregs : (s.pins idcode csn sclk si).regs = Regs.reset idcode si := by
    simp only [State.pins, hr, hnow, if_true]
  -- nothing is promised of a validity older than this edge
  refine ⟨h.base.pins csn sclk si, ?_, ?_, ?_⟩
  · intro hv
    rw [hregs] at hv
    exact absurd hv Bool.false_ne_true
  · intro hs
    rw [hsince] at hs
    omega
  · intro hs
    rw [hsince] at hs
    omega

/-- A change of the pins keeps the trail. -/
theorem pins (h : Trailed idcode s t) (csn sclk si : Bool) :
    Trailed idcode (s.pins idcode csn sclk si) (t.pins s csn sclk si) := by
  cases hr : s.dom.rises (sclk && !csn) with
  | false => exact h.pins_of_not_rises hr si
  | true =>
    cases hrst : s.dom.rst with
    | false => exact h.pins_of_rises hr hrst si
    | true => exact h.pins_of_reset hr hrst si

/-- **Step lemma.** Every event keeps the trail. -/
theorem step (h : Trailed idcode s t) (e : Event) :
    Trailed idcode (FlashEmuLite.step idcode mem s e) (t.next s e) := by
  match e with
  | .lines csn si => exact h.pins csn s.sclk si
  | .sclk level => exact h.pins s.csn level s.si
  | .sys c =>
    refine ⟨h.base.step (.sys c), h.raised, ?_, ?_⟩
    · intro _ hv
      refine ⟨h.raised hv, ?_⟩
      intro hne
      obtain ⟨⟨hop, hlen⟩, -⟩ := paddr_of_valid h.base hne hv
      exact ⟨hop, hlen.ge⟩
    · intro hs hv
      exact h.ofMeta (Nat.le_of_succ_le_succ hs) hv

/-- **The capture.** A validity sampled since the reset edge hands over the address that raised
it. -/
theorem captures (h : Trailed idcode s t) {e : Event} (hfresh : Fresh (s, t) e) :
    Captures idcode mem (s, t) e := by
  intro hsees
  obtain ⟨hsince, hplace⟩ := hfresh hsees
  have hword := (wordAddr_eq_portWord_iff t.ofSys).mpr hplace
  match e with
  | .sys c =>
    obtain ⟨hidle, hvalid⟩ := hsees
    rw [← hword, ← (h.ofSys hsince hvalid).1]
    have hvalid' : s.paddrValidSys = true := hvalid
    rw [FlashEmuLite.step, State.flashMem_sysEdge, hvalid',
      FlashEmuDRAMLite.readAddr_of_idle hidle]
    rfl

end Trailed

/-- **The handover.** In every run, from power-on, in which each validity that the prefetcher sees
in `IDLE` was sampled after the last reset edge and its window is in place, each address captured is
the port word of the leading address bits of the read that raised it. -/
theorem handover (cfg : LiteConfig) (idcode : BitVec 24) (mem : cfg.Addr → cfg.Word)
    (sclk si : Bool) (es : List Event)
    (hfresh : Along (watch (step idcode mem) Trail.next) Fresh
      (boot cfg idcode sclk si, {}) es) :
    Along (watch (step idcode mem) Trail.next) (Captures idcode mem)
      (boot cfg idcode sclk si, {}) es :=
  hfresh.imp (P := fun (x : State cfg × Trail cfg) => Trailed idcode x.1 x.2)
    (fun _ e _ h => h.step e) (fun _ _ h hf => h.captures hf) (Trailed.boot sclk si)

/-- A read of the upper half, three system clock edges after its leading bits are in. -/
theorem handover_in_time :
    let es := clockIn ((List.range 26).map fun i => i = 6 || i = 7 || i = 8) ++
      List.replicate 3 (.sys ⟨true, true⟩)
    Along (watch (step 0 fun _ => 0) Trail.next) (Captures 0 fun _ => 0)
      (boot LiteConfig.sixBits 0 false false, {}) es :=
  handover LiteConfig.sixBits 0 (fun _ => 0) false false _ (by decide +kernel)

/-- The same read is cut off there, and the next transaction's first clock comes before the third
system clock edge: the prefetcher sees the old validity and captures the cleared address. -/
theorem handover_cleared :
    let es := clockIn ((List.range 26).map fun i => i = 6 || i = 7 || i = 8) ++
      List.replicate 2 (.sys ⟨true, true⟩) ++
      [.lines true false, .lines false false, .sclk true, .sys ⟨true, true⟩]
    ¬ Along (watch (step 0 fun _ => 0) Trail.next) (Captures 0 fun _ => 0)
      (boot LiteConfig.sixBits 0 false false, {}) es := by
  decide +kernel

end FlashEmuLite

end LiteSpiH4x
