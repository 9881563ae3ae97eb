import LiteSpiH4x.Lite.Read
import LiteSpiH4x.Lite.Schedule

/-! # Reads in time

What a read sends depends on the two clocks and on the port only through the contents of the
prefetch registers when its bits are taken. This file closes the loop: assumptions on the clocks and
on the port alone, and what the host then gets.

* **`Brisk`** — the bit with which `paddr_valid` rises is short enough for it to be down again when
  the prefetcher is back in `IDLE`.
* **`Served`** / **`InTime`** — the transaction in progress, and a run.
* **`read_in_time`** — each bit of a read is that of the byte picked from its own window, a function
  of its address.
* **`read_in_time_last_word`** — in the last word of the window, it is that of the DRAM's byte. -/

namespace LiteSpiH4x

open Digital ReadPort StepMachine FlashEmuDRAMLite

namespace FlashEmuLite

variable {cfg : LiteConfig}

/-- At most `m` system clock edges come while a read has `32 - prefetch_bits` of its bits in. -/
def Brisk (m : ℕ) (x : State cfg × Timed) : Event → Prop
  | .sys _ => Front.opcode x.2.log.bits = cmdRead →
      x.2.log.bits.length = 32 - cfg.prefetchBits → x.2.now < x.2.rose + m
  | _ => True

instance (m : ℕ) (x : State cfg × Timed) (e : Event) : Decidable (Brisk m x e) :=
  match e with
  | .lines _ _ => isTrue trivial
  | .sclk _ => isTrue trivial
  | .sys _ => inferInstanceAs (Decidable (_ = _ → _ = _ → _ < _))

/-- The last beat ends a pass, and takes the prefetcher back to `IDLE`. -/
theorem Stage.quiet_sys {L : ℕ} {mem : cfg.Addr → cfg.Word} {s : State cfg} {g : Timed} {c : Cycle}
    (h : Stage L s g) (hnot : ¬ cfg.numPrefetchReads ≤ g.beats)
    (hall : cfg.numPrefetchReads ≤ (g.sys s c).beats) :
    s.flashMem.state ≠ .idle ∧ At (s.sysEdge mem c).flashMem .quiet := by
  have hpos := cfg.numPrefetchReads_pos
  cases h with
  | raised _ hat hbeats | sampled _ hat hbeats | seen _ hat hbeats =>
    rw [beats_sys_of_quiet hat rfl hbeats] at hall
    omega
  | launch b i _ hat hbeats =>
    rw [beats_sys_of_quiet hat rfl hbeats] at hall
    omega
  | land b _ hat _ _ _ =>
    obtain ⟨base, rfl⟩ : ∃ base, b = burst cfg.toDramConfig base := by
      cases hat with
      | land base j hj => exact ⟨base, rfl⟩
    cases hbeat : presented s.outstanding c with
    | none =>
      have hnone : (g.sys s c).beats = g.beats := by simp [Timed.sys, hbeat]
      omega
    | some a =>
      have htake : At (s.sysEdge mem c).flashMem
          (if g.beats + 1 = cfg.numPrefetchReads then .quiet
            else .land (burst cfg.toDramConfig base) (g.beats + 1)) := by
        rw [State.flashMem_sysEdge, hbeat, Option.map_some]
        exact hat.take _
      have hlast : g.beats + 1 = cfg.numPrefetchReads := by
        have htaken : (g.sys s c).beats ≤ g.beats + 1 := by
          simp only [Timed.sys]
          split <;> omega
        omega
      rw [if_pos hlast] at htake
      refine ⟨?_, htake⟩
      intro hidle
      cases hat.idle_iff.mp hidle
  | done hdone => exact absurd hdone hnot

/-- The registers with the window of a read in them, by its leading address bits. -/
def ownWindow (cfg : LiteConfig) (bits : List Bool) : Contents cfg.toDramConfig where
  last := some (wordAddr cfg.toDramConfig (windowAddr cfg (lead cfg bits)))

/-- More bits do not change the window. -/
theorem ownWindow_append {bits : List Bool} (hin : LeadIn cfg bits) (bs : List Bool) :
    ownWindow cfg (bits ++ bs) = ownWindow cfg bits := by
  rw [ownWindow, ownWindow, lead_append hin.2]

/-- The read whose leading bits are in has them on the prefetcher's input. -/
theorem Inv.paddrFw_eq {idcode : BitVec 24} {s : State cfg} {w : BusLog} (h : Inv idcode s w)
    (hin : LeadIn cfg w.bits) : s.regs.paddrFw = windowAddr cfg (lead cfg w.bits) := by
  have hlt := cfg.lt
  have hlen := hin.2
  have hne : w.rises ≠ [] := BusLog.rises_ne_nil_of_pos (by omega)
  rw [Regs.paddrFw, h.paddr hne, paddrAfter, if_pos hin, windowAddr]

/-- A read whose leading bits are in, served in time so far. -/
structure Served (L : ℕ) (s : State cfg) (t : Timed) (g : Course cfg) : Prop where
  /-- The validity has left the synchroniser before the pass ends. -/
  sampled : s.paddrValidMeta = true → t.now + 1 < t.rose + passTime cfg L
  seen : s.paddrValidSys = true → t.now < t.rose + passTime cfg L
  /-- So the prefetcher is idle after it. -/
  idle : cfg.numPrefetchReads ≤ t.beats → At s.flashMem .quiet
  /-- The pass is over the window of the read. -/
  window : ∀ base j, g.contents.pass = some (base, j) → (ownWindow cfg g.log.bits).last = some base
  contents : cfg.numPrefetchReads ≤ t.beats → g.contents = ownWindow cfg g.log.bits
  /-- Every data bit has been taken from it. -/
  taken : ∀ x ∈ g.seen.drop 32, x = (ownWindow cfg g.log.bits, ownWindow cfg g.log.bits)
  fallen : ∀ f, g.log.fallen = some f → 32 ≤ f → g.atFall = ownWindow cfg g.log.bits

/-- Once the address is in, all beats are there. -/
theorem OnSchedule.beats_of_header {idcode : BitVec 24} {r L : ℕ} {s : State cfg} {t : Timed}
    (h : OnSchedule idcode r L s t) (hsum : passTime cfg L ≤ r * cfg.prefetchBits)
    (harmed : t.armed = true) (hin : LeadIn cfg t.log.bits) (hlen : 32 ≤ t.log.bits.length) :
    cfg.numPrefetchReads ≤ t.beats := by
  have hlt := cfg.lt
  obtain ⟨u, -, hle, hgap⟩ := h.gap harmed hin
  refine (h.beats_iff harmed hin).mpr ?_
  calc t.rose + passTime cfg L ≤ t.rose + cfg.prefetchBits * r := by
        rw [mul_comm]
        exact Nat.add_le_add_left hsum _
    _ ≤ t.rose + (t.log.bits.length - (32 - cfg.prefetchBits)) * r :=
        Nat.add_le_add_left (Nat.mul_le_mul_right r (by omega)) _
    _ ≤ t.now := hgap.trans hle

namespace Served

variable {idcode : BitVec 24} {r L : ℕ} {mem : cfg.Addr → cfg.Word} {s : State cfg} {t : Timed}
  {g : Course cfg} {csn sclk si : Bool}

/-- **The last beat** leaves the window of the read in the registers, and nothing is launched after
it. -/
theorem contents_sys (h : Served L s t g) (hs : OnSchedule idcode r L s t)
    (hr : Reading idcode mem s g) (harmed : t.armed = true) (hin : LeadIn cfg t.log.bits)
    {c : Cycle} (hall : cfg.numPrefetchReads ≤ (t.sys s c).beats) :
    At (s.sysEdge mem c).flashMem .quiet ∧
      (g.next s (.sys c)).contents = ownWindow cfg g.log.bits := by
  by_cases hdone : cfg.numPrefetchReads ≤ t.beats
  · have hexact := hs.exact harmed hin hdone
    have hno : s.paddrValidSys = false := by
      rw [← Bool.not_eq_true]
      intro hsys
      have hseen := h.seen hsys
      omega
    refine ⟨Stage.at_wait (h.idle hdone) hno, ?_⟩
    rw [← h.contents hdone]
    exact Contents.next_of_wait _ ((h.idle hdone).idle_iff.mpr rfl) hno
  · obtain ⟨hbusy, hquiet⟩ := @Stage.quiet_sys _ _ mem _ _ c (hs.stage harmed hin) hdone hall
    refine ⟨hquiet, ?_⟩
    obtain ⟨⟨base, j⟩, hpass⟩ := Option.ne_none_iff_exists'.mp
      (fun hnone => hbusy (hr.shelved.pass_eq_none_iff.mp hnone))
    have hnext := @Shelved.next_of_busy _ mem _ (s.flashMem, s.outstanding) _ hbusy _ hpass
      ((s.regs.paddrFw, s.paddrValidSys), c)
    have hidle : (s.sysEdge mem c).flashMem.state = .idle := hquiet.idle_iff.mpr rfl
    refine (hnext.trans (if_pos hidle)).trans ?_
    rw [← h.window base j hpass, ownWindow]

/-- A system clock edge. -/
theorem sys (h : Served L s t g) (hs : OnSchedule idcode r L s t) (hr : Reading idcode mem s g)
    (hlog : g.log = t.log) (harmed : t.armed = true) (hin : LeadIn cfg t.log.bits) {c : Cycle}
    (hbrisk : s.regs.paddrValid = true → t.now < t.rose + (passTime cfg L - 2)) :
    Served L (s.sysEdge mem c) (t.sys s c) (g.next s (.sys c)) where
  sampled := by
    intro hmeta
    have hnow := hbrisk hmeta
    have hpass : 3 ≤ passTime cfg L := Nat.le_add_left _ _
    show t.now + 1 + 1 < t.rose + passTime cfg L
    omega
  seen := fun hsys => h.sampled hsys
  idle := fun hall => (h.contents_sys hs hr harmed hin hall).1
  window := by
    intro base j hpass
    rcases Contents.base_of_next hpass with ⟨i, hold⟩ | hnew
    · exact h.window base i hold
    · rw [hnew, hr.base.paddrFw_eq (hlog ▸ hin)]
      rfl
  contents := fun hall => (h.contents_sys hs hr harmed hin hall).2
  taken := h.taken
  fallen := h.fallen

/-- Once the header is in, the registers hold the window. -/
theorem contents_of_header (h : Served L s t g) (hs : OnSchedule idcode r L s t)
    (hlog : g.log = t.log) (hsum : passTime cfg L ≤ r * cfg.prefetchBits)
    (harmed : t.armed = true) (hin : LeadIn cfg t.log.bits) (hlen : 32 ≤ g.log.rises.length) :
    g.contents = ownWindow cfg g.log.bits :=
  h.contents (hs.beats_of_header hsum harmed hin
    (by rw [← hlog, BusLog.length_bits]; exact hlen))

/-- A change of the pins leaves the window that of the read. -/
theorem ownWindow_pins (hin : LeadIn cfg g.log.bits) :
    ownWindow cfg (g.pins s false sclk si).log.bits = ownWindow cfg g.log.bits := by
  cases hrise : s.dom.rises (sclk && !false) with
  | true =>
    rw [show (g.pins s false sclk si).log.bits = g.log.bits ++ [si] from
      BusLog.bits_next_of_rises hrise _ _ _]
    exact ownWindow_append hin [si]
  | false => exact congrArg (ownWindow cfg) (BusLog.bits_next_of_not_rises hrise _ _ _)

/-- A rising edge samples a data bit that was put out at a falling edge with the window in the
registers, and finds it there itself. -/
theorem taken_pins (h : Served L s t g) (hr : Reading idcode mem s g)
    (hready : 32 ≤ g.log.rises.length → g.contents = ownWindow cfg g.log.bits) :
    ∀ x ∈ (g.pins s false sclk si).seen.drop 32,
      x = (ownWindow cfg g.log.bits, ownWindow cfg g.log.bits) := by
  intro x hx
  cases hrise : s.dom.rises (sclk && !false) with
  | false =>
    simp only [Course.pins, hrise, Bool.false_eq_true, if_false] at hx
    exact h.taken x hx
  | true =>
    simp only [Course.pins, hrise, Bool.false_eq_true, if_false, if_true] at hx
    rcases Nat.lt_or_ge g.seen.length 32 with hshort | hlen
    · rw [List.drop_eq_nil_of_le (by simp; omega)] at hx
      exact absurd hx List.not_mem_nil
    · rw [List.drop_append_of_le_length hlen, List.mem_append, List.mem_singleton] at hx
      rcases hx with hx | rfl
      · exact h.taken x hx
      · -- the bit sampled by this edge is a data bit
        rw [hr.seen] at hlen
        have hfallen := hr.base.tracks.fallen_of_low (DomainPair.rises_iff.mp hrise).1 (by omega)
        rw [h.fallen _ hfallen hlen, hready hlen]

/-- A falling edge after the header finds the window in the registers. -/
theorem fallen_pins (h : Served L s t g)
    (hready : 32 ≤ g.log.rises.length → g.contents = ownWindow cfg g.log.bits) {f : ℕ}
    (hf : (g.pins s false sclk si).log.fallen = some f) (hlen : 32 ≤ f) :
    (g.pins s false sclk si).atFall = ownWindow cfg g.log.bits := by
  cases hfall : s.dom.falls (sclk && !false) with
  | false =>
    have hold : g.log.fallen = some f := by
      have hnext : (g.pins s false sclk si).log =
          g.log.next s.dom (sclk && !false) false si s.esoDelayed := rfl
      rw [hnext] at hf
      simp only [BusLog.next, hfall, Bool.false_eq_true, if_false] at hf
      split at hf <;> exact hf
    simp only [Course.pins, hfall, Bool.false_eq_true, if_false]
    exact h.fallen f hold hlen
  | true =>
    have hlog : (g.pins s false sclk si).log =
        { g.log with fallen := some g.log.rises.length } := BusLog.next_of_falls hfall _ _ _
    rw [hlog, Option.some.injEq] at hf
    simp only [Course.pins, hfall, if_true]
    exact hready (hf ▸ hlen)

/-- The pins change without raising `paddr_valid`. -/
theorem pins (h : Served L s t g) (hs : OnSchedule idcode r L s t) (hr : Reading idcode mem s g)
    (hlog : g.log = t.log) (hsum : passTime cfg L ≤ r * cfg.prefetchBits)
    (harmed : t.armed = true) (hin : LeadIn cfg t.log.bits)
    (hrose : (t.pins idcode s false sclk si).rose = t.rose)
    (hbeats : (t.pins idcode s false sclk si).beats = t.beats) :
    Served L (s.pins idcode false sclk si) (t.pins idcode s false sclk si)
      (g.pins s false sclk si) := by
  have hown : ownWindow cfg (g.pins s false sclk si).log.bits = ownWindow cfg g.log.bits :=
    ownWindow_pins (hlog ▸ hin)
  have hready := h.contents_of_header hs hlog hsum harmed hin
  refine ⟨?_, ?_, ?_, ?_, ?_, ?_, ?_⟩
  · rw [hrose]
    exact h.sampled
  · rw [hrose]
    exact h.seen
  · rw [hbeats]
    exact h.idle
  · rw [hown]
    exact h.window
  · rw [hbeats, hown]
    exact h.contents
  · rw [hown]
    exact h.taken_pins hr hready
  · rw [hown]
    intro f hf hlen
    exact h.fallen_pins hready hf hlen

end Served

/-- What holds after every run that meets the assumptions on the clocks and the port. -/
structure InTime (idcode : BitVec 24) (r L : ℕ) (mem : cfg.Addr → cfg.Word) (s : State cfg)
    (t : Timed) (g : Course cfg) : Prop where
  schedule : OnSchedule idcode r L s t
  reading : Reading idcode mem s g
  log : g.log = t.log
  served : t.armed = true → LeadIn cfg t.log.bits → Served L s t g

namespace InTime

variable {idcode : BitVec 24} {r L : ℕ} {mem : cfg.Addr → cfg.Word} {s : State cfg} {t : Timed}
  {g : Course cfg} {csn sclk si : Bool}

/-- **`paddr_valid` rises**: nothing is owed yet. -/
theorem served_up (h : InTime idcode r L mem s t g) (hlow : s.regs.paddrValid = false)
    (hup : (s.pins idcode csn sclk si).regs.paddrValid = true)
    (harmed : (t.pins idcode s csn sclk si).armed = true) :
    Served L (s.pins idcode csn sclk si) (t.pins idcode s csn sclk si) (g.pins s csn sclk si) := by
  have hone := cfg.one_le
  have hpos := cfg.numPrefetchReads_pos
  obtain ⟨hrose, hbeats, harm⟩ := @Timed.pins_of_up _ _ t _ _ _ _ hlow hup
  obtain ⟨-, hmeta, hsys⟩ := harm.mp harmed
  have hnow : (t.pins idcode s csn sclk si).now = t.now := rfl
  have hreading := h.reading.pins csn sclk si
  -- the header is not in yet
  have hshort : (g.pins s csn sclk si).log.rises.length < 32 := by
    rcases h.reading.base.paddrValid_pins hup with ⟨-, hold⟩ | ⟨-, -, -, hlen⟩
    · rw [hlow] at hold
      exact absurd hold Bool.false_ne_true
    · have hlen' : (g.pins s csn sclk si).log.bits.length = 32 - cfg.prefetchBits := hlen
      rw [BusLog.length_bits] at hlen'
      omega
  have hrest : (g.pins s csn sclk si).contents.pass = none :=
    hreading.shelved.pass_eq_none_iff.mpr (harm.mp harmed).1
  refine ⟨?_, ?_, ?_, ?_, ?_, ?_, ?_⟩
  · intro hm
    exact absurd (hmeta.symm.trans hm) Bool.false_ne_true
  · intro hv
    exact absurd (hsys.symm.trans hv) Bool.false_ne_true
  · intro hall
    omega
  · intro base j hpass
    exact absurd (hrest.symm.trans hpass) nofun
  · intro hall
    omega
  · intro x hx
    rw [List.drop_eq_nil_of_le (by rw [hreading.seen]; omega)] at hx
    exact absurd hx List.not_mem_nil
  · intro f hf hlen
    have hle := hreading.base.tracks.fallen_le hf
    omega

/-- A change of the pins. -/
theorem pins (h : InTime idcode r L mem s t g) (hr : 0 < r)
    (hsum : passTime cfg L ≤ r * cfg.prefetchBits)
    (hspaced : s.sclk = false → sclk = true → ∀ u, t.lastRise = some u → u + r ≤ t.now) :
    InTime idcode r L mem (s.pins idcode csn sclk si) (t.pins idcode s csn sclk si)
      (g.pins s csn sclk si) where
  schedule := h.schedule.pins hr hspaced
  reading := h.reading.pins csn sclk si
  log := congrArg (BusLog.next s.dom (sclk && !csn) csn si s.esoDelayed) h.log
  served := by
    intro harmed hin
    by_cases hup : s.regs.paddrValid = false ∧ (s.pins idcode csn sclk si).regs.paddrValid = true
    · exact h.served_up hup.1 hup.2 harmed
    · have hno : (!s.regs.paddrValid && (s.pins idcode csn sclk si).regs.paddrValid) = false := by
        rw [← Bool.not_eq_true, Bool.and_eq_true, Bool.not_eq_true']
        exact hup
      obtain ⟨hrose, hbeats, harm⟩ := @Timed.pins_of_not_up _ _ t _ _ _ _ hno
      have hold : LeadIn cfg t.log.bits := by
        by_contra hnot
        exact hup (OnTime.up_of_leadIn h.schedule.base hin hnot)
      obtain rfl : csn = false := (h.schedule.base.leadIn_pins hin).1
      rw [harm] at harmed
      exact (h.served harmed hold).pins h.schedule h.reading h.log hsum harmed hold hrose hbeats

/-- **Step lemma.** -/
theorem step (h : InTime idcode r L mem s t g) (hr : 0 < r)
    (hsum : passTime cfg L ≤ r * cfg.prefetchBits) {e : Event} (hspaced : Spaced r (s, t) e)
    (hok : Serves L (s, t) e) (hbrisk : Brisk (passTime cfg L - 2) (s, t) e) :
    InTime idcode r L mem (FlashEmuLite.step idcode mem s e) (t.next idcode s e) (g.next s e) := by
  match e with
  | .lines csn si =>
    refine h.pins hr hsum ?_
    intro hwas hnow
    rw [hwas] at hnow
    exact absurd hnow Bool.false_ne_true
  | .sclk level =>
    refine h.pins hr hsum ?_
    intro hwas hnow u hu
    have hgap := hspaced hnow hwas
    simpa only [hu] using hgap
  | .sys c =>
    refine ⟨h.schedule.sys hok, h.reading.sys c, h.log, fun harmed hin => ?_⟩
    refine (h.served harmed hin).sys h.schedule h.reading h.log harmed hin fun hv => ?_
    have hlead : 0 < t.log.bits.length :=
      (Nat.sub_pos_of_lt (cfg.lt.trans (by decide : 24 < 32))).trans_le hin.2
    have hne := BusLog.rises_ne_nil_of_pos hlead
    obtain ⟨hop, hlen⟩ := (paddrValid_iff (h.schedule.base.front hne)).mp hv
    exact hbrisk hop hlen

/-- **Run lemma.** -/
theorem run (hr : 0 < r) (hsum : passTime cfg L ≤ r * cfg.prefetchBits) {es : List Event}
    (htimed : Along (watch (FlashEmuLite.step idcode mem) (Timed.next idcode))
      (fun x e => Spaced r x e ∧ Serves L x e ∧ Brisk (passTime cfg L - 2) x e)
      (FlashEmuLite.boot cfg idcode sclk si, {}) es) :
    let x := StepMachine.run (watch (FlashEmuLite.step idcode mem) (Timed.next idcode))
      (FlashEmuLite.boot cfg idcode sclk si, {}) es
    InTime idcode r L mem x.1 x.2
      (course idcode mem (FlashEmuLite.boot cfg idcode sclk si) es) := by
  induction es using List.reverseRecOn with
  | nil =>
    exact ⟨OnSchedule.boot sclk si, Reading.boot sclk si, rfl,
      fun ha => absurd ha Bool.false_ne_true⟩
  | append_singleton es e ih =>
    obtain ⟨hinit, hspaced, hok, hbrisk⟩ := along_concat.mp htimed
    have hfst : (StepMachine.run (watch (FlashEmuLite.step idcode mem) (Timed.next idcode))
        (FlashEmuLite.boot cfg idcode sclk si, {}) es).1 =
        StepMachine.run (FlashEmuLite.step idcode mem) (FlashEmuLite.boot cfg idcode sclk si) es :=
      run_watch_fst _ _ _ _
    rw [run_concat, course, record_concat, ← course, ← hfst]
    exact (ih hinit).step hr hsum hspaced hok hbrisk

/-- A data bit that has been sampled is that of the byte picked from the read's own window. -/
theorem bit_eq (h : InTime idcode r L mem s t g) (harmed : t.armed = true)
    (hop : Front.opcode t.log.bits = cmdRead) {i : ℕ} (hi : 32 + i < t.log.rises.length) :
    t.log.rises[32 + i].2 = pickedBit mem (Front.address t.log.bits) false i := by
  have hin : LeadIn cfg t.log.bits := ⟨hop, by rw [BusLog.length_bits]; omega⟩
  have hserved := h.served harmed hin
  have hlen : 32 ≤ t.log.bits.length := by
    rw [BusLog.length_bits]
    omega
  obtain ⟨hschedule, hreading, hlog, -⟩ := h
  rw [← hlog] at hop hin hlen
  have hseen : ∀ u, 32 ≤ u → u < g.log.rises.length →
      g.seen.getD u ({}, {}) = (ownWindow cfg g.log.bits, ownWindow cfg g.log.bits) := by
    intro u hu hlt
    refine hserved.taken _ (List.mem_drop_iff_getElem.mpr ⟨u - 32, ?_, ?_⟩)
    · rw [hreading.seen]
      omega
    · rw [List.getD_eq_getElem _ _ (by rw [hreading.seen]; exact hlt)]
      simp only [show 32 + (u - 32) = u by omega]
  have hown : g.takenFrom i = { last := some (windowBase cfg (Front.address g.log.bits)) } := by
    rw [hlog] at hseen ⊢
    rw [Course.takenFrom, Course.atRise, hseen _ (by omega) (by omega),
      hseen _ (by omega) (by omega), ite_self, ownWindow, ← hlog, wordAddr_lead hlen]
  have hd := (hreading.delivering hlen hop).emits i (by rw [hlog]; exact hi)
  rw [hown, shownBit_own] at hd
  simp only [hlog] at hd
  exact hd

end InTime

/-- **Reads in time.** Let the bus be spaced at `r` system clock edges at least, and so brisk that
`paddr_valid` is down again in time; let the port serve each command after `L` cycles, and let a
pass fit into the intervals of the bits within the window. Then in every run, after whatever
transactions, each data bit of a read whose prefetch found everything at rest is that of the byte
picked: the read is a function of its address and of the DRAM, the same in every run. -/
theorem read_in_time (cfg : LiteConfig) (idcode : BitVec 24) (mem : cfg.Addr → cfg.Word)
    (sclk si : Bool) (r L : ℕ) (hr : 0 < r) (hsum : passTime cfg L ≤ r * cfg.prefetchBits)
    (es : List Event)
    (htimed : Along (watch (step idcode mem) (Timed.next idcode))
      (fun x e => Spaced r x e ∧ Serves L x e ∧ Brisk (passTime cfg L - 2) x e)
      (boot cfg idcode sclk si, {}) es) :
    let t := (run (watch (step idcode mem) (Timed.next idcode)) (boot cfg idcode sclk si, {}) es).2
    t.armed = true → Front.opcode t.log.bits = cmdRead →
      ∀ i (h : 32 + i < t.log.rises.length),
        t.log.rises[32 + i].2 = pickedBit mem (Front.address t.log.bits) false i :=
  fun harmed hop _ hi => (InTime.run hr hsum htimed).bit_eq harmed hop hi

/-- At the default window, four system clock edges to a bit and a latency of 11: a read of one byte
at `0x10`, whose beats come with edges 114 to 117. The byte picked is the first of the window. -/
theorem read_in_time_sixBits :
    let mem : LiteConfig.sixBits.Addr → LiteConfig.sixBits.Word :=
      fun a => if a = 0 then 0xa5 else 0
    let bits := (List.range 40).map fun i => i = 6 || i = 7 || i = 27
    let es := bits.zipIdx.flatMap fun (b, i) =>
      [Event.lines false b, .sclk true, .sclk false] ++
        (List.range 4).map fun j => .sys ⟨true, 114 ≤ 4 * i + j && 4 * i + j ≤ 117⟩
    let t := (run (watch (step 0 mem) (Timed.next 0))
      (boot LiteConfig.sixBits 0 false false, {}) es).2
    t.armed = true ∧ t.log.rises.length = 40 ∧ pickedByte mem 0x10 false 0x10 = 0xa5 ∧
      ∀ i (h : 32 + i < t.log.rises.length),
        t.log.rises[32 + i].2 = pickedBit mem 0x10 false i := by
  intro mem bits es t
  have harmed : t.armed = true := by decide +kernel
  have hop : Front.opcode t.log.bits = cmdRead := by decide +kernel
  have haddr : Front.address t.log.bits = 0x10 := by decide +kernel
  have hbits := read_in_time LiteConfig.sixBits 0 mem false false 4 11 (by decide) (by decide) es
    (by decide +kernel) harmed hop
  rw [← haddr]
  exact ⟨harmed, by decide +kernel, by decide +kernel, hbits⟩

/-- The bytes of the window, the registers and the values of `pfr_idx`, at a port of 128 bits, as
long as the field is wide enough for the registers. -/
theorem sizes_of_le (hk : cfg.k = 4) (hbits : cfg.prefetchBits ≤ 7) :
    (2 ^ cfg.prefetchBits, cfg.numPrefetchReads, 2 ^ pfrIdxWidth cfg) ∈
      [(16, 1, 4), (32, 2, 8), (64, 4, 8), (128, 8, 8)] := by
  have hle := cfg.le
  rw [cfg.numPrefetchReads_eq, hk, pfrIdxWidth]
  obtain hpb | hpb | hpb | hpb : cfg.prefetchBits = 4 ∨ cfg.prefetchBits = 5 ∨
      cfg.prefetchBits = 6 ∨ cfg.prefetchBits = 7 := by omega
  all_goals
    rw [hpb]
    decide

/-- **The last word of the window** is picked right: `pfr_idx` leads to the last register, and that
holds the last word. -/
theorem pickedByte_last_word (hk : cfg.k = 4) (hbits : cfg.prefetchBits ≤ 7)
    (mem : cfg.Addr → cfg.Word) (a : BitVec 24) {i : ℕ}
    (hin : a.toNat % 2 ^ cfg.prefetchBits + i < 2 ^ cfg.prefetchBits)
    (hlast : 2 ^ cfg.prefetchBits ≤ a.toNat % 2 ^ cfg.prefetchBits + i + 16) :
    pickedByte mem a false (a + BitVec.ofNat 24 i) = dramByte mem (a + BitVec.ofNat 24 i) := by
  have ha := a.isLt
  have hsizes := sizes_of_le hk hbits
  simp only [List.mem_cons, Prod.mk.injEq, List.not_mem_nil, or_false] at hsizes
  have hbyte : (a + BitVec.ofNat 24 i).toNat = a.toNat + i := by
    rw [BitVec.toNat_add, BitVec.toNat_ofNat]
    rcases hsizes with ⟨hp, -⟩ | ⟨hp, -⟩ | ⟨hp, -⟩ | ⟨hp, -⟩ <;> rw [hp] at hin <;> omega
  have hidx : (pfrIdx cfg (a + BitVec.ofNat 24 i)).toNat =
      (a.toNat + i) / 16 % 2 ^ pfrIdxWidth cfg := by
    rw [pfrIdx, BitVec.toNat_setWidth, BitVec.toNat_ushiftRight, Nat.shiftRight_eq_div_pow,
      byteIdxWidth, nbytesPerMt_eq, hk, bitsFor_two_pow_sub_one (by decide), hbyte]
  have hreg : min (pfrIdx cfg (a + BitVec.ofNat 24 i)).toNat (cfg.numPrefetchReads - 1) + 1 =
      cfg.numPrefetchReads := by
    rw [hidx]
    rcases hsizes with ⟨hp, hn, hw⟩ | ⟨hp, hn, hw⟩ | ⟨hp, hn, hw⟩ | ⟨hp, hn, hw⟩ <;>
      rw [hp] at hin hlast <;> rw [hn, hw] <;> omega
  have hword : windowBase cfg a + BitVec.ofNat _ (cfg.numPrefetchReads - 1) =
      portWord cfg (a + BitVec.ofNat 24 i) := by
    apply BitVec.eq_of_toNat_eq
    have hbase : (a.toNat / 2 ^ cfg.prefetchBits * 2 ^ cfg.prefetchBits % 2 ^ 24) / 16 +
        (cfg.numPrefetchReads - 1) = (a.toNat + i) / 16 := by
      rcases hsizes with ⟨hp, hn, -⟩ | ⟨hp, hn, -⟩ | ⟨hp, hn, -⟩ | ⟨hp, hn, -⟩ <;>
        rw [hp] at hin hlast <;> rw [hp, hn] <;> omega
    rw [windowBase, wordAddr, portWord, hk, BitVec.toNat_add, BitVec.toNat_setWidth,
      BitVec.toNat_ofNat, BitVec.toNat_setWidth, ← Nat.add_mod, BitVec.toNat_ushiftRight,
      BitVec.toNat_ushiftRight, BitVec.toNat_shiftLeft, BitVec.toNat_ushiftRight,
      Nat.shiftRight_eq_div_pow, Nat.shiftRight_eq_div_pow, Nat.shiftRight_eq_div_pow,
      Nat.shiftLeft_eq, hbyte, ← hbase]
  rw [pickedByte, byteOf_eq, dramByte, lineOf, if_pos hreg, if_neg Bool.false_ne_true, beat,
    Nat.eq_sub_of_add_eq hreg, hword]

/-- **Reads of the DRAM in time.** At a port of 128 bits, a window of at most 128 bytes, a bus of at
least `r` system clock edges to a bit, so brisk that `paddr_valid` is down again in time, and a port
of latency `L` fast enough for a pass to fit into the intervals of the bits within the window: in
every run, each byte that a read whose prefetch found everything at rest sends from the last word of
its window is that of the DRAM. -/
theorem read_in_time_last_word (cfg : LiteConfig) (hk : cfg.k = 4) (hbits : cfg.prefetchBits ≤ 7)
    (idcode : BitVec 24) (mem : cfg.Addr → cfg.Word) (sclk si : Bool) (r L : ℕ) (hr : 0 < r)
    (hsum : passTime cfg L ≤ r * cfg.prefetchBits) (es : List Event)
    (htimed : Along (watch (step idcode mem) (Timed.next idcode))
      (fun x e => Spaced r x e ∧ Serves L x e ∧ Brisk (passTime cfg L - 2) x e)
      (boot cfg idcode sclk si, {}) es) :
    let t := (run (watch (step idcode mem) (Timed.next idcode)) (boot cfg idcode sclk si, {}) es).2
    let a := Front.address t.log.bits
    t.armed = true → Front.opcode t.log.bits = cmdRead →
      ∀ i j (_ : j < 8) (h : 32 + (8 * i + j) < t.log.rises.length),
        a.toNat % 2 ^ cfg.prefetchBits + i < 2 ^ cfg.prefetchBits →
        2 ^ cfg.prefetchBits ≤ a.toNat % 2 ^ cfg.prefetchBits + i + 16 →
        t.log.rises[32 + (8 * i + j)].2 = (dramByte mem (a + BitVec.ofNat 24 i)).getMsbD j := by
  intro t a harmed hop i j hj hlen hin hlast
  have hbit := (InTime.run hr hsum htimed).bit_eq harmed hop hlen
  rw [hbit, pickedBit, byteAddr, show (8 * i + j) / 8 = i by omega,
    show (8 * i + j) % 8 = j by omega, pickedByte_last_word hk hbits mem _ hin hlast]

/-- At the default window, four system clock edges to a bit and a latency of 11: a read at `0x2f`
sends the first byte of the fourth word after one of the third. -/
theorem read_in_time_last_word_sixBits :
    let mem : LiteConfig.sixBits.Addr → LiteConfig.sixBits.Word :=
      fun a => if a = 3 then 0x5a else 0
    let bits := (List.range 48).map fun i => i = 6 || i = 7 || i = 26 || 28 ≤ i && i ≤ 31
    let es := bits.zipIdx.flatMap fun (b, i) =>
      [Event.lines false b, .sclk true, .sclk false] ++
        (List.range 4).map fun j => .sys ⟨true, 114 ≤ 4 * i + j && 4 * i + j ≤ 117⟩
    let t := (run (watch (step 0 mem) (Timed.next 0))
      (boot LiteConfig.sixBits 0 false false, {}) es).2
    t.log.rises.length = 48 ∧ ∀ j (_ : j < 8) (h : 32 + (8 * 1 + j) < t.log.rises.length),
      t.log.rises[32 + (8 * 1 + j)].2 = (0x5a#8).getMsbD j := by
  intro mem bits es t
  have haddr : Front.address t.log.bits = 0x2f := by decide +kernel
  have hsent : dramByte mem (0x2f + BitVec.ofNat 24 1) = 0x5a := by decide +kernel
  refine ⟨by decide +kernel, ?_⟩
  intro j hj h
  have hbit := read_in_time_last_word LiteConfig.sixBits rfl (by decide) 0 mem false false 4 11
    (by decide) (by decide) es (by decide +kernel) (by decide +kernel) (by decide +kernel) 1 j hj h
    (by rw [haddr]; decide) (by rw [haddr]; decide)
  rwa [haddr, hsent] at hbit

end FlashEmuLite

end LiteSpiH4x
