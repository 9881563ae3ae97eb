import LiteSpiH4x.Lite.Handover

/-! # How often a read launches the prefetcher

The prefetcher launches on the level of `paddr_valid_sys`, not on its rise. The validity stays up
for as long as the host leaves `sclk` alone, and with `csn` high until the next transaction; a
prefetcher that is through with its pass by then launches again for the same read.

* **`Tally`** — ghost state, told from the bus alone: the reads whose leading bits have come in, the
  launches, and for every sample in the synchroniser the number of the read it was taken in, if it
  was taken in one with its leading bits in and no more.
* **`Settled`** — the last beat of a pass finds no validity left of the read it was launched for.
* **`Released`** — the first system clock edge with `csn` high, and the end of a pass with `csn`
  high, find no validity on its way to an idle prefetcher.
* **`launches_le`** — every launch is for a sample taken in such a read; there is at most one launch
  for each in runs of the first kind, and none with `csn` high in runs of the second. -/

namespace LiteSpiH4x

open Digital ReadPort StepMachine

namespace FlashEmuLite

variable {cfg : LiteConfig}

/-- The event launches a pass: a transition from `IDLE` to `RD_LAUNCH`. -/
def Launches (idcode : BitVec 24) (mem : cfg.Addr → cfg.Word) (s : State cfg) (e : Event) : Prop :=
  s.flashMem.state = .idle ∧ (step idcode mem s e).flashMem.state = .rdLaunch

instance (idcode : BitVec 24) (mem : cfg.Addr → cfg.Word) (s : State cfg) (e : Event) :
    Decidable (Launches idcode mem s e) := inferInstanceAs (Decidable (_ ∧ _))

/-- A pass is launched where a system clock edge sees a valid address in `IDLE`. -/
theorem launches_iff {idcode : BitVec 24} {mem : cfg.Addr → cfg.Word} {s : State cfg} {e : Event} :
    Launches idcode mem s e ↔ SeesValid s e := by
  unfold Launches
  match e with
  | .lines csn si =>
    refine ⟨?_, False.elim⟩
    rintro ⟨hidle, hlaunch⟩
    rw [show (step idcode mem s (.lines csn si)).flashMem = s.flashMem from rfl, hidle] at hlaunch
    cases hlaunch
  | .sclk level =>
    refine ⟨?_, False.elim⟩
    rintro ⟨hidle, hlaunch⟩
    rw [show (step idcode mem s (.sclk level)).flashMem = s.flashMem from rfl, hidle] at hlaunch
    cases hlaunch
  | .sys c =>
    refine and_congr_right ?_
    intro hidle
    rw [step, State.flashMem_sysEdge]
    simp only [FlashEmuDRAMLite.next, hidle]
    cases s.paddrValidSys <;> simp

/-! ## Counting reads and launches -/

/-- The reads and launches of a run. -/
structure Tally where
  /-- The bus log. -/
  log : BusLog := {}
  /-- The bits since the last reset edge of `cd_spi`. They stay when `csn` goes up. -/
  last : List Bool := []
  /-- Reads whose leading address bits have come in. -/
  reads : ℕ := 0
  /-- Passes launched. -/
  launches : ℕ := 0
  /-- Number of the read that the first flip-flop's sample was taken in, if the leading bits of a
  read were in and no more. -/
  ofMeta : Option ℕ := none
  /-- The same for the sample in the second flip-flop. -/
  ofSys : Option ℕ := none
  /-- Number of the read the last pass was launched for. -/
  ofPass : ℕ := 0
  /-- `csn` has gone up since the last system clock edge. -/
  parted : Bool := false

namespace Tally

/-- A change of the pins: the rising edge that takes in the last leading bit of a read counts. -/
def pins (t : Tally) (s : State cfg) (csn sclk si : Bool) : Tally :=
  let log := t.log.next s.dom (sclk && !csn) csn si s.esoDelayed
  { t with
    log := log
    last := if s.dom.rises (sclk && !csn) then log.bits else t.last
    reads :=
      if s.dom.rises (sclk && !csn) = true ∧
          Front.opcode log.bits = cmdRead ∧ log.bits.length = 32 - cfg.prefetchBits then
        t.reads + 1
      else t.reads
    parted := !s.csn && csn || t.parted }

/-- One event. -/
def next (idcode : BitVec 24) (mem : cfg.Addr → cfg.Word) (s : State cfg) (e : Event) (t : Tally) :
    Tally :=
  match e with
  | .lines csn si => t.pins s csn s.sclk si
  | .sclk level => t.pins s s.csn level s.si
  | .sys c =>
    { t with
      launches := if Launches idcode mem s (.sys c) then t.launches + 1 else t.launches
      ofMeta :=
        if Front.opcode t.last = cmdRead ∧ t.last.length = 32 - cfg.prefetchBits then some t.reads
        else none
      ofSys := t.ofMeta
      ofPass := if Launches idcode mem s (.sys c) then t.ofSys.getD 0 else t.ofPass
      parted := false }

end Tally

/-- The last beat of a pass finds no validity left of the read that the pass was launched for:
neither on the wire nor in the first flip-flop. -/
def Settled (x : State cfg × Tally) : Event → Prop
  | .sys c =>
    x.1.flashMem.state = .rdLand ∧ x.1.flashMem.rdCnt = 0 ∧
        (presented x.1.outstanding c).isSome = true →
      (x.1.regs.paddrValid = true → x.2.reads ≠ x.2.ofPass) ∧
        (x.1.paddrValidMeta = true → x.2.ofMeta ≠ some x.2.ofPass)
  | _ => True

instance (x : State cfg × Tally) (e : Event) : Decidable (Settled x e) :=
  match e with
  | .lines _ _ => isTrue trivial
  | .sclk _ => isTrue trivial
  | .sys _ => inferInstanceAs (Decidable (_ → _))

/-- A system clock edge with `csn` high finds no validity on its way if it is the first since `csn`
went up and the prefetcher is idle, or if it takes the last beat of a pass. -/
def Released (x : State cfg × Tally) : Event → Prop
  | .sys c => x.1.csn = true →
    (x.2.parted = true → x.1.flashMem.state = .idle →
      x.1.regs.paddrValid = false ∧ x.1.paddrValidMeta = false ∧ x.1.paddrValidSys = false) ∧
    (x.1.flashMem.state = .rdLand ∧ x.1.flashMem.rdCnt = 0 ∧
        (presented x.1.outstanding c).isSome = true →
      x.1.regs.paddrValid = false ∧ x.1.paddrValidMeta = false)
  | _ => True

instance (x : State cfg × Tally) (e : Event) : Decidable (Released x e) :=
  match e with
  | .lines _ _ => isTrue trivial
  | .sclk _ => isTrue trivial
  | .sys _ => inferInstanceAs (Decidable (_ → _))

/-! ## Every launch is for a read -/

/-- What holds between the emulator and the tally after every run. -/
structure Tallied (idcode : BitVec 24) (s : State cfg) (t : Tally) : Prop where
  base : Inv idcode s t.log
  last : t.log.rises ≠ [] → t.log.bits = t.last
  /-- The validity is up while the last bits are the leading ones of a read. -/
  valid : s.regs.paddrValid = true ↔
    Front.opcode t.last = cmdRead ∧ t.last.length = 32 - cfg.prefetchBits
  raised : s.regs.paddrValid = true → 1 ≤ t.reads
  /-- Validities are passed on in the order of their reads. -/
  pass_le : t.ofPass ≤ t.reads
  meta_le : ∀ m ∈ t.ofMeta, 1 ≤ m ∧ t.ofPass ≤ m ∧ m ≤ t.reads
  sys_le : ∀ k ∈ t.ofSys, 1 ≤ k ∧ k ≤ t.reads ∧ ∀ m ∈ t.ofMeta, k ≤ m
  ofMeta : s.paddrValidMeta = t.ofMeta.isSome
  ofSys : s.paddrValidSys = t.ofSys.isSome

namespace Tallied

variable {idcode : BitVec 24} {mem : cfg.Addr → cfg.Word} {s : State cfg} {t : Tally}

/-- At power-on. -/
theorem boot (sclk si : Bool) : Tallied idcode (FlashEmuLite.boot cfg idcode sclk si) {} where
  base := Inv.boot sclk si
  last := fun h => absurd rfl h
  valid := by
    have hlt := cfg.lt
    refine ⟨fun h => absurd h Bool.false_ne_true, ?_⟩
    rintro ⟨-, hlen⟩
    rw [List.length_nil] at hlen
    omega
  raised := fun h => absurd h Bool.false_ne_true
  pass_le := le_rfl
  meta_le := fun _ h => absurd h nofun
  sys_le := fun _ h => absurd h nofun
  ofMeta := rfl
  ofSys := rfl

/-- Reads are not uncounted. -/
theorem reads_le_pins (t : Tally) (s : State cfg) (csn sclk si : Bool) :
    t.reads ≤ (t.pins s csn sclk si).reads := by
  unfold Tally.pins
  dsimp only
  split <;> omega

/-- A validity up after a change of the pins was up before, or is that of a read just counted. -/
theorem reads_pins (h : Inv idcode s t.log) {csn sclk si : Bool}
    (hv : (s.pins idcode csn sclk si).regs.paddrValid = true) :
    s.regs.paddrValid = true ∨ (t.pins s csn sclk si).reads = t.reads + 1 := by
  rcases h.paddrValid_pins hv with ⟨-, hold⟩ | ⟨hr, -, hop, hlen⟩
  · exact Or.inl hold
  · exact Or.inr (if_pos ⟨hr, hop, hlen⟩)

/-- The last bits, and with them the validity, change at a rising edge only. -/
theorem last_pins (h : Tallied idcode s t) (csn sclk si : Bool) :
    ((t.pins s csn sclk si).log.rises ≠ [] →
        (t.pins s csn sclk si).log.bits = (t.pins s csn sclk si).last) ∧
      ((s.pins idcode csn sclk si).regs.paddrValid = true ↔
        Front.opcode (t.pins s csn sclk si).last = cmdRead ∧
          (t.pins s csn sclk si).last.length = 32 - cfg.prefetchBits) := by
  have hbase := h.base.pins csn sclk si
  cases hr : s.dom.rises (sclk && !csn) with
  | true =>
    have hlast : (t.pins s csn sclk si).last = (t.pins s csn sclk si).log.bits := if_pos hr
    obtain rfl : csn = false := DomainPair.gate_of_rises hr
    have hne := BusLog.rises_next_ne_nil hr si s.esoDelayed t.log
    rw [hlast]
    exact ⟨fun _ => rfl, paddrValid_iff (hbase.front hne)⟩
  | false =>
    have hlast : (t.pins s csn sclk si).last = t.last := by
      simp only [Tally.pins, hr, Bool.false_eq_true, if_false]
    have hregs : (s.pins idcode csn sclk si).regs = s.regs := by
      simp only [State.pins, hr, Bool.false_eq_true, if_false]
    rw [hlast, hregs]
    refine ⟨?_, h.valid⟩
    intro hne
    -- the log is cleared or keeps its bits
    cases csn with
    | true => exact absurd rfl hne
    | false =>
      have hbits : (t.pins s false sclk si).log.bits = t.log.bits :=
        BusLog.bits_next_of_not_rises hr _ _ _
      rw [hbits]
      refine h.last ?_
      rwa [Ne, ← BusLog.bits_eq_nil, ← hbits, BusLog.bits_eq_nil]

/-- A change of the pins keeps the tally. -/
theorem pins (h : Tallied idcode s t) (csn sclk si : Bool) :
    Tallied idcode (s.pins idcode csn sclk si) (t.pins s csn sclk si) where
  base := h.base.pins csn sclk si
  last := (h.last_pins csn sclk si).1
  valid := (h.last_pins csn sclk si).2
  raised := by
    intro hv
    rcases reads_pins h.base hv with hold | hnew
    · exact (h.raised hold).trans (reads_le_pins t s csn sclk si)
    · rw [hnew]
      exact Nat.le_add_left 1 _
  pass_le := h.pass_le.trans (reads_le_pins t s csn sclk si)
  meta_le := by
    intro m hm
    obtain ⟨hpos, hpass, hle⟩ := h.meta_le m hm
    exact ⟨hpos, hpass, hle.trans (reads_le_pins t s csn sclk si)⟩
  sys_le := by
    intro k hk
    obtain ⟨hpos, hle, hmeta⟩ := h.sys_le k hk
    exact ⟨hpos, hle.trans (reads_le_pins t s csn sclk si), hmeta⟩
  ofMeta := h.ofMeta
  ofSys := h.ofSys

/-- The read that the first flip-flop samples in is the last one counted. -/
theorem ofMeta_sys (h : Tallied idcode s t) {c : Cycle} {m : ℕ}
    (hm : m ∈ (t.next idcode mem s (.sys c)).ofMeta) : m = t.reads ∧ 1 ≤ t.reads := by
  simp only [Tally.next] at hm
  split at hm
  · rename_i hlead
    exact ⟨(Option.mem_some_iff.mp hm).symm, h.raised (h.valid.mpr hlead)⟩
  · exact absurd hm nofun

/-- A pass is launched for a read that has been counted. -/
theorem ofPass_sys_le (h : Tallied idcode s t) {c : Cycle} :
    (t.next idcode mem s (.sys c)).ofPass ≤ t.reads := by
  simp only [Tally.next]
  split
  · cases hk : t.ofSys with
    | none => exact Nat.zero_le _
    | some k => exact (h.sys_le k hk).2.1
  · exact h.pass_le

/-- A system clock edge moves the samples on. -/
theorem sys (h : Tallied idcode s t) (c : Cycle) :
    Tallied idcode (s.sysEdge mem c) (t.next idcode mem s (.sys c)) where
  base := h.base.step (.sys c)
  last := h.last
  valid := h.valid
  raised := h.raised
  pass_le := h.ofPass_sys_le
  meta_le := by
    intro m hm
    obtain ⟨rfl, hpos⟩ := h.ofMeta_sys hm
    exact ⟨hpos, h.ofPass_sys_le, le_rfl⟩
  sys_le := by
    intro k hk
    obtain ⟨hpos, -, hle⟩ := h.meta_le k hk
    refine ⟨hpos, hle, ?_⟩
    intro m hm
    rw [(h.ofMeta_sys hm).1]
    exact hle
  ofMeta := by
    show s.regs.paddrValid = _
    simp only [Tally.next]
    by_cases hlead : Front.opcode t.last = cmdRead ∧ t.last.length = 32 - cfg.prefetchBits
    · rw [if_pos hlead, h.valid.mpr hlead, Option.isSome_some]
    · rw [if_neg hlead, Option.isSome_none, ← Bool.not_eq_true, h.valid]
      exact hlead
  ofSys := h.ofMeta

/-- **Step lemma.** Every event keeps the tally. -/
theorem step (h : Tallied idcode s t) (e : Event) :
    Tallied idcode (FlashEmuLite.step idcode mem s e) (t.next idcode mem s e) := by
  match e with
  | .lines csn si => exact h.pins csn s.sclk si
  | .sclk level => exact h.pins s.csn level s.si
  | .sys c => exact h.sys c

/-- **The sample seen** by a launch was taken in a read with its leading bits in. -/
theorem launch_for (h : Tallied idcode s t) {e : Event} (hlaunch : Launches idcode mem s e) :
    ∃ k, t.ofSys = some k ∧ 1 ≤ k ∧ k ≤ t.reads := by
  have hsees := launches_iff.mp hlaunch
  match e with
  | .sys c =>
    have hvalid : s.paddrValidSys = true := hsees.2
    obtain ⟨k, hk⟩ := Option.isSome_iff_exists.mp (h.ofSys ▸ hvalid)
    obtain ⟨hpos, hle, -⟩ := h.sys_le k hk
    exact ⟨k, hk, hpos, hle⟩

end Tallied

/-! ## One launch for a read -/

/-- What holds after every run that meets `Settled`. -/
structure Spent (s : State cfg) (t : Tally) : Prop where
  launches : t.launches ≤ t.ofPass
  /-- Any validity that an idle prefetcher may still see is of a later read than its last pass. -/
  fresh : s.flashMem.state = .idle →
    (s.regs.paddrValid = true → t.ofPass < t.reads) ∧
      (∀ m ∈ t.ofMeta, t.ofPass < m) ∧ ∀ k ∈ t.ofSys, t.ofPass < k

namespace Spent

variable {idcode : BitVec 24} {mem : cfg.Addr → cfg.Word} {s : State cfg} {t : Tally}

/-- At power-on. -/
theorem boot (sclk si : Bool) : Spent (FlashEmuLite.boot cfg idcode sclk si) {} where
  launches := le_rfl
  fresh := fun _ => ⟨fun h => absurd h Bool.false_ne_true, nofun, nofun⟩

/-- A change of the pins. -/
theorem pins (h : Spent s t) (ht : Tallied idcode s t) (csn sclk si : Bool) :
    Spent (s.pins idcode csn sclk si) (t.pins s csn sclk si) where
  launches := h.launches
  fresh := by
    intro hidle
    obtain ⟨hraised, hmeta, hsys⟩ := h.fresh hidle
    refine ⟨?_, hmeta, hsys⟩
    intro hv
    rcases Tallied.reads_pins ht.base hv with hold | hnew
    · exact lt_of_lt_of_le (hraised hold) (Tallied.reads_le_pins t s csn sclk si)
    · rw [hnew]
      exact Nat.lt_succ_of_le ht.pass_le

/-- A system clock edge. -/
theorem sys (h : Spent s t) (ht : Tallied idcode s t) {c : Cycle} (hok : Settled (s, t) (.sys c)) :
    Spent (s.sysEdge mem c) (t.next idcode mem s (.sys c)) := by
  by_cases hlaunch : Launches idcode mem s (.sys c)
  · -- the launch is for a later read than the last one
    obtain ⟨k, hk, -⟩ := ht.launch_for hlaunch
    have hnew := (h.fresh hlaunch.1).2.2 k hk
    have hold := h.launches
    refine ⟨?_, ?_⟩
    · simp only [Tally.next, if_pos hlaunch, hk, Option.getD_some]
      omega
    · intro hidle'
      have hstate : (s.sysEdge mem c).flashMem.state = .rdLaunch := hlaunch.2
      rw [hstate] at hidle'
      cases hidle'
  · have hpass : (t.next idcode mem s (.sys c)).ofPass = t.ofPass := if_neg hlaunch
    have hcount : (t.next idcode mem s (.sys c)).launches = t.launches := if_neg hlaunch
    refine ⟨by rw [hcount, hpass]; exact h.launches, ?_⟩
    intro hidle
    rw [hpass]
    -- what is on its way is of a later read
    obtain ⟨hreads, hmeta⟩ : (s.regs.paddrValid = true → t.ofPass < t.reads) ∧
        ∀ m ∈ t.ofMeta, t.ofPass < m := by
      rw [State.flashMem_sysEdge] at hidle
      rcases FlashEmuDRAMLite.state_next_idle hidle with ⟨hwas, -⟩ | ⟨hland, hlast, hbeat⟩
      · obtain ⟨hraised, hmeta, -⟩ := h.fresh hwas
        exact ⟨hraised, hmeta⟩
      · rw [Option.isSome_map] at hbeat
        obtain ⟨hraised, hmeta⟩ := hok ⟨hland, hlast, hbeat⟩
        refine ⟨fun hv => lt_of_le_of_ne ht.pass_le (hraised hv).symm, ?_⟩
        intro m hm
        have hup : s.paddrValidMeta = true := by rw [ht.ofMeta, Option.isSome_of_mem hm]
        refine lt_of_le_of_ne (ht.meta_le m hm).2.1 ?_
        rintro rfl
        exact hmeta hup hm
    refine ⟨hreads, ?_, hmeta⟩
    intro m hm
    obtain ⟨rfl, -⟩ := ht.ofMeta_sys hm
    refine hreads (ht.valid.mpr ?_)
    by_contra hnot
    simp only [Tally.next, if_neg hnot] at hm
    exact absurd hm nofun

/-- **Step lemma.** Every event that meets `Settled` keeps the launches apart. -/
theorem step (h : Spent s t) (ht : Tallied idcode s t) {e : Event} (hok : Settled (s, t) e) :
    Spent (FlashEmuLite.step idcode mem s e) (t.next idcode mem s e) := by
  match e with
  | .lines csn si => exact h.pins ht csn s.sclk si
  | .sclk level => exact h.pins ht s.csn level s.si
  | .sys c => exact h.sys ht hok

end Spent

/-! ## No launch with `csn` high -/

/-- Once the system clock has had an edge with `csn` high, an idle prefetcher has no validity on its
way. -/
structure Silent (idcode : BitVec 24) (s : State cfg) (t : Tally) : Prop where
  base : Inv idcode s t.log
  none : s.csn = true → t.parted = false → s.flashMem.state = .idle →
    s.regs.paddrValid = false ∧ s.paddrValidMeta = false ∧ s.paddrValidSys = false

namespace Silent

variable {idcode : BitVec 24} {mem : cfg.Addr → cfg.Word} {s : State cfg} {t : Tally}

/-- With `csn` high no validity comes up. -/
theorem paddrValid_pins (h : Inv idcode s t.log) {sclk si : Bool}
    (hv : s.regs.paddrValid = false) : (s.pins idcode true sclk si).regs.paddrValid = false := by
  by_contra hup
  rcases h.paddrValid_pins (Bool.not_eq_false _ ▸ hup) with ⟨-, hold⟩ | ⟨hr, -⟩
  · rw [hv] at hold
    exact Bool.false_ne_true hold
  · exact absurd (DomainPair.gate_of_rises hr).symm Bool.false_ne_true

/-- **A change of the pins**: `csn` was high before, or goes up and is owed its first edge. -/
theorem pins (h : Silent idcode s t) (csn sclk si : Bool) :
    Silent idcode (s.pins idcode csn sclk si) (t.pins s csn sclk si) where
  base := h.base.pins csn sclk si
  none := by
    rintro (rfl : csn = true) hparted hidle
    obtain ⟨hcsn, hold⟩ : s.csn = true ∧ t.parted = false := by
      simpa [Tally.pins] using hparted
    obtain ⟨hvalid, hrest⟩ := h.none hcsn hold hidle
    exact ⟨paddrValid_pins h.base hvalid, hrest⟩

/-- At a system clock edge with `csn` high, an idle prefetcher has no validity on its way. -/
theorem none_of_released (h : Silent idcode s t) {c : Cycle} (hok : Released (s, t) (.sys c))
    (hcsn : s.csn = true) (hidle : s.flashMem.state = .idle) :
    s.regs.paddrValid = false ∧ s.paddrValidMeta = false ∧ s.paddrValidSys = false := by
  cases hparted : t.parted with
  | true => exact (hok hcsn).1 hparted hidle
  | false => exact h.none hcsn hparted hidle

/-- A system clock edge. -/
theorem sys (h : Silent idcode s t) {c : Cycle} (hok : Released (s, t) (.sys c)) :
    Silent idcode (s.sysEdge mem c) (t.next idcode mem s (.sys c)) where
  base := h.base.step (.sys c)
  none := by
    intro (hcsn : s.csn = true) _ hidle
    rw [State.flashMem_sysEdge] at hidle
    have hclear : s.regs.paddrValid = false ∧ s.paddrValidMeta = false := by
      rcases FlashEmuDRAMLite.state_next_idle hidle with ⟨hwas, -⟩ | ⟨hland, hlast, hbeat⟩
      · obtain ⟨hvalid, hmeta, -⟩ := h.none_of_released hok hcsn hwas
        exact ⟨hvalid, hmeta⟩
      · rw [Option.isSome_map] at hbeat
        exact (hok hcsn).2 ⟨hland, hlast, hbeat⟩
    exact ⟨hclear.1, hclear⟩

/-- **Step lemma.** Every event that meets `Released` keeps the silence. -/
theorem step (h : Silent idcode s t) {e : Event} (hok : Released (s, t) e) :
    Silent idcode (FlashEmuLite.step idcode mem s e) (t.next idcode mem s e) := by
  match e with
  | .lines csn si => exact h.pins csn s.sclk si
  | .sclk level => exact h.pins s.csn level s.si
  | .sys c => exact h.sys hok

end Silent

/-! ## The launches of a run -/

/-- The emulator with its tally. -/
abbrev tallied (idcode : BitVec 24) (mem : cfg.Addr → cfg.Word) :
    State cfg × Tally → Event → State cfg × Tally :=
  watch (step idcode mem) (Tally.next idcode mem)

/-- **Launches and reads.** In every run from power-on each launch is for a sample that was taken in
a read, when its leading address bits were in and no more: in no other command, and in no read
broken off before. In runs in which the last beat of every pass finds no validity left of the read
that the pass was launched for, there are at most as many launches as such reads. In runs in which
an idle prefetcher has no validity on its way to it at the first system clock edge with `csn` high,
nor at the end of a pass with `csn` high, nothing is launched with `csn` high. -/
theorem launches_le (cfg : LiteConfig) (idcode : BitVec 24) (mem : cfg.Addr → cfg.Word)
    (sclk si : Bool) (es : List Event) :
    Along (tallied idcode mem)
        (fun x e => Launches idcode mem x.1 e → ∃ k, x.2.ofSys = some k ∧ 1 ≤ k ∧ k ≤ x.2.reads)
        (boot cfg idcode sclk si, {}) es ∧
      (Along (tallied idcode mem) Settled (boot cfg idcode sclk si, {}) es →
        (run (tallied idcode mem) (boot cfg idcode sclk si, {}) es).2.launches ≤
          (run (tallied idcode mem) (boot cfg idcode sclk si, {}) es).2.reads) ∧
      (Along (tallied idcode mem) Released (boot cfg idcode sclk si, {}) es →
        Along (tallied idcode mem) (fun x e => Launches idcode mem x.1 e → x.1.csn = false)
          (boot cfg idcode sclk si, {}) es) := by
  refine ⟨?_, ?_, ?_⟩
  · refine (along_of_forall fun _ _ => trivial : Along _ (fun _ _ => True) _ es).imp
      (P := fun (x : State cfg × Tally) => Tallied idcode x.1 x.2) (fun _ e _ h => h.step e) ?_
      (Tallied.boot sclk si)
    intro x e h _ hlaunch
    exact h.launch_for hlaunch
  · intro hsettled
    have hboth := run_invariant_of_along
      (P := fun (x : State cfg × Tally) => Tallied idcode x.1 x.2 ∧ Spent x.1 x.2)
      (fun x e hok h => ⟨h.1.step e, h.2.step h.1 hok⟩)
      ⟨Tallied.boot sclk si, Spent.boot sclk si⟩ hsettled
    exact hboth.2.launches.trans hboth.1.pass_le
  · intro hreleased
    refine hreleased.imp (P := fun (x : State cfg × Tally) => Silent idcode x.1 x.2)
      (fun _ _ hok h => h.step hok) ?_
      ⟨Inv.boot sclk si, fun _ _ _ => ⟨rfl, rfl, rfl⟩⟩
    intro x e h hok hlaunch
    have hsees := launches_iff.mp hlaunch
    match e with
    | .sys c =>
      rw [← Bool.not_eq_true]
      intro hcsn
      have hlow := (h.none_of_released hok hcsn hsees.1).2.2
      rw [hsees.2] at hlow
      exact Bool.false_ne_true hlow.symm

/-- The leading bits of a read at `prefetch_bits = 6`, three system clock edges, which launch its
pass, a further address bit, and the pass; then `csn` goes up and the system clock runs on. -/
theorem launches_le_once :
    let es := clockIn ((List.range 26).map fun i => i = 6 || i = 7) ++
      List.replicate 3 (.sys ⟨true, true⟩) ++ clockIn [false] ++
      List.replicate 9 (.sys ⟨true, true⟩) ++ .lines true false ::
      List.replicate 3 (.sys ⟨true, true⟩)
    (run (tallied 0 fun _ => 0) (boot LiteConfig.sixBits 0 false false, {}) es).2.launches ≤
        (run (tallied 0 fun _ => 0) (boot LiteConfig.sixBits 0 false false, {}) es).2.reads ∧
      Along (tallied 0 fun _ => 0) (fun x e => Launches 0 (fun _ => 0) x.1 e → x.1.csn = false)
        (boot LiteConfig.sixBits 0 false false, {}) es := by
  intro es
  have hall := launches_le LiteConfig.sixBits 0 (fun _ => 0) false false es
  exact ⟨hall.2.1 (by decide +kernel), hall.2.2 (by decide +kernel)⟩

/-- The same read, aborted after its leading bits. With `csn` high it launches a pass, and when
that is over another one. -/
theorem launches_twice :
    let es := clockIn ((List.range 26).map fun i => i = 6 || i = 7) ++
      .lines true false :: List.replicate 12 (.sys ⟨true, true⟩)
    ¬ (run (tallied 0 fun _ => 0) (boot LiteConfig.sixBits 0 false false, {}) es).2.launches ≤
      (run (tallied 0 fun _ => 0) (boot LiteConfig.sixBits 0 false false, {}) es).2.reads := by
  decide +kernel

end FlashEmuLite

end LiteSpiH4x
