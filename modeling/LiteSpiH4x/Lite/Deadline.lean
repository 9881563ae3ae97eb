import LiteSpiH4x.Lite.Launches

/-! # The prefetch deadline

From the edge that takes in the last leading address bit, the prefetcher has the remaining
`prefetch_bits` bits of the address to fill its registers. The validity takes two system clock
edges through the synchroniser and a third out of `IDLE`; then the port accepts a command an edge,
and answers each of them a constant latency later.

* **`Timed`** — ghost state: the system clock edges so far, and when commands were accepted,
  `sclk` last rose, and `paddr_valid` last rose.
* **`Spaced`** / **`Answers`** — the assumptions on the two clocks and on the port.
* **`Stage`** — how far the prefetch has come, as a function of the time since `paddr_valid` rose.
* **`prefetch_deadline`** — if the budget of `prefetch_bits` intervals covers the three edges, the
  latency and the reads, all beats are there before the read delivers data. -/

namespace LiteSpiH4x

open Digital ReadPort StepMachine FlashEmuDRAMLite

namespace FlashEmuLite

variable {cfg : LiteConfig}

/-! ## Time -/

/-- The times of a run, counted in system clock edges. -/
structure Timed where
  /-- The bus log. -/
  log : BusLog := {}
  /-- System clock edges so far. -/
  now : ℕ := 0
  /-- When `sclk` last rose, if it has. -/
  lastRise : Option ℕ := none
  /-- When the commands that are outstanding were accepted, the oldest first. -/
  stamps : List ℕ := []
  /-- When `paddr_valid` last rose. -/
  rose : ℕ := 0
  /-- It found the prefetcher in `IDLE` and both flip-flops low. -/
  armed : Bool := false
  /-- Beats accepted since. -/
  beats : ℕ := 0

namespace Timed

/-- A change of the pins. -/
def pins (idcode : BitVec 24) (g : Timed) (s : State cfg) (csn sclk si : Bool) : Timed :=
  let up := !s.regs.paddrValid && (s.pins idcode csn sclk si).regs.paddrValid
  { g with
    log := g.log.next s.dom (sclk && !csn) csn si s.esoDelayed
    lastRise := if !s.sclk && sclk then some g.now else g.lastRise
    rose := if up then g.now else g.rose
    armed :=
      if up then
        decide (s.flashMem.state = .idle) && !s.paddrValidMeta && !s.paddrValidSys
      else g.armed
    beats := if up then 0 else g.beats }

/-- A system clock edge. -/
def sys (g : Timed) (s : State cfg) (c : Cycle) : Timed :=
  let taken := s.flashMem.rdataReady && (presented s.outstanding c).isSome
  { g with
    now := g.now + 1
    stamps := (if taken then g.stamps.tail else g.stamps) ++
      (if c.ready then s.flashMem.cmd.toList.map fun _ => g.now else [])
    beats := if taken then g.beats + 1 else g.beats }

/-- One event. -/
def next (idcode : BitVec 24) (s : State cfg) (e : Event) (g : Timed) : Timed :=
  match e with
  | .lines csn si => g.pins idcode s csn s.sclk si
  | .sclk level => g.pins idcode s s.csn level s.si
  | .sys c => g.sys s c

section

variable {idcode : BitVec 24} {g : Timed} {s : State cfg} {csn sclk si : Bool}

/-- A rise of `paddr_valid` starts the count. -/
theorem pins_of_up (hlow : s.regs.paddrValid = false)
    (hup : (s.pins idcode csn sclk si).regs.paddrValid = true) :
    (g.pins idcode s csn sclk si).rose = g.now ∧ (g.pins idcode s csn sclk si).beats = 0 ∧
      ((g.pins idcode s csn sclk si).armed = true ↔
        s.flashMem.state = .idle ∧ s.paddrValidMeta = false ∧ s.paddrValidSys = false) := by
  simp only [pins, hlow, hup, Bool.not_false, Bool.and_self, if_true, true_and, Bool.and_eq_true,
    Bool.not_eq_true', decide_eq_true_eq, and_assoc]

/-- Any other change of the pins leaves it alone. -/
theorem pins_of_not_up
    (hno : (!s.regs.paddrValid && (s.pins idcode csn sclk si).regs.paddrValid) = false) :
    (g.pins idcode s csn sclk si).rose = g.rose ∧
      (g.pins idcode s csn sclk si).beats = g.beats ∧
      (g.pins idcode s csn sclk si).armed = g.armed := by
  simp only [pins, hno, Bool.false_eq_true, if_false, and_self]

/-- A rise of `sclk` is noted. -/
theorem lastRise_of_rise (hwas : s.sclk = false) (hnow : sclk = true) :
    (g.pins idcode s csn sclk si).lastRise = some g.now := by
  simp only [pins, hwas, hnow, Bool.not_false, Bool.and_self, if_true]

end

end Timed

/-- Between two rising edges of `sclk` there are at least `r` system clock edges. -/
def Spaced (r : ℕ) (x : State cfg × Timed) : Event → Prop
  | .sclk level =>
    level = true → x.1.sclk = false →
      match x.2.lastRise with
      | some t => t + r ≤ x.2.now
      | none => True
  | _ => True

instance (r : ℕ) (x : State cfg × Timed) (e : Event) : Decidable (Spaced r x e) := by
  unfold Spaced
  split
  · have : Decidable (match x.2.lastRise with
        | some t => t + r ≤ x.2.now
        | none => True) := by
      split <;> infer_instance
    infer_instance
  · infer_instance

/-- The port is ready for a command in every cycle, and has the beat of a command valid `L`
cycles after it accepted the command, and then only. -/
def Answers (L : ℕ) (x : State cfg × Timed) : Event → Prop
  | .sys c => c.ready = true ∧ (c.valid = true ↔ x.2.stamps.head?.map (· + L) = some x.2.now)
  | _ => True

instance (L : ℕ) (x : State cfg × Timed) (e : Event) : Decidable (Answers L x e) :=
  match e with
  | .lines _ _ => isTrue trivial
  | .sclk _ => isTrue trivial
  | .sys _ => inferInstanceAs (Decidable (_ ∧ _))

/-- The event takes the command state machine to `read_get_data`. -/
def EntersData (idcode : BitVec 24) (mem : cfg.Addr → cfg.Word) (s : State cfg) (e : Event) :
    Prop := s.regs.state ≠ .readGetData ∧ (step idcode mem s e).regs.state = .readGetData

instance (idcode : BitVec 24) (mem : cfg.Addr → cfg.Word) (s : State cfg) (e : Event) :
    Decidable (EntersData idcode mem s e) := inferInstanceAs (Decidable (_ ∧ _))

/-! ## The leading bits of the transaction in progress -/

namespace Inv

variable {idcode : BitVec 24} {s : State cfg} {w : BusLog} {csn sclk si : Bool}

/-- A rising edge of the gated clock that is not the reset edge is one of `sclk`. -/
theorem sclk_of_rises (h : Inv idcode s w) (hr : s.dom.rises (sclk && !csn) = true)
    (hrst : s.dom.rst = false) : csn = false ∧ s.sclk = false ∧ sclk = true := by
  obtain ⟨hlow, hhigh⟩ := DomainPair.rises_iff.mp hr
  rw [Bool.and_eq_true, Bool.not_eq_true'] at hhigh
  have hcsn : s.csn = false := by
    rw [← Bool.not_eq_true]
    intro hheld
    exact h.tracks.rises_ne_nil hrst (by rw [h.tracks.held hheld])
  rw [h.clk, hcsn, Bool.not_false, Bool.and_true] at hlow
  exact ⟨hhigh.2, hlow, hhigh.1⟩

/-- **The transaction goes on.** If the leading bits are in after a change of the pins, `csn` is
low, and the log has grown by the line in, or not at all. -/
theorem leadIn_pins (h : Inv idcode s w)
    (hin : LeadIn cfg (w.next s.dom (sclk && !csn) csn si s.esoDelayed).bits) :
    csn = false ∧
      (s.dom.rises (sclk && !csn) = false ∧
          (w.next s.dom (sclk && !csn) csn si s.esoDelayed).bits = w.bits ∨
        s.dom.rises (sclk && !csn) = true ∧ s.dom.rst = false ∧
          (w.next s.dom (sclk && !csn) csn si s.esoDelayed).bits = w.bits ++ [si]) := by
  have hlt := cfg.lt
  have hlen := hin.2
  cases csn with
  | true =>
    simp only [BusLog.next_of_input, BusLog.bits, List.map_nil, List.length_nil] at hlen
    omega
  | false =>
    refine ⟨rfl, ?_⟩
    cases hr : s.dom.rises (sclk && !false) with
    | false => exact Or.inl ⟨rfl, BusLog.bits_next_of_not_rises hr _ _ _⟩
    | true =>
      have hbits := BusLog.bits_next_of_rises hr si s.esoDelayed w
      refine Or.inr ⟨rfl, ?_, hbits⟩
      rw [← Bool.not_eq_true]
      intro hrst
      -- the reset edge takes in the first bit
      have hnil : w.rises = [] := List.isEmpty_iff.mp (h.tracks.rst ▸ hrst)
      rw [hbits, (BusLog.bits_eq_nil w).mpr hnil] at hlen
      simp only [List.nil_append, List.length_singleton] at hlen
      omega

end Inv

/-! ## How far the prefetch has come -/

/-- When a port that is always ready accepts the `n` reads of a pass, if `paddr_valid` rose at
`rose`: the synchroniser takes two edges and `IDLE` the third. -/
def launchTimes (n rose : ℕ) : Burst ℕ where
  addr := fun i => rose + 3 + i
  count := n

/-- How far the prefetch has come, by the time since `paddr_valid` rose. -/
inductive Stage (L : ℕ) (s : State cfg) (g : Timed) : Prop
  | raised (hnow : g.now = g.rose) (hat : At s.flashMem .quiet) (hbeats : g.beats = 0)
      (hvalid : s.regs.paddrValid = true) (hmeta : s.paddrValidMeta = false)
      (hsys : s.paddrValidSys = false)
  | sampled (hnow : g.now = g.rose + 1) (hat : At s.flashMem .quiet) (hbeats : g.beats = 0)
      (hmeta : s.paddrValidMeta = true) (hsys : s.paddrValidSys = false)
  | seen (hnow : g.now = g.rose + 2) (hat : At s.flashMem .quiet) (hbeats : g.beats = 0)
      (hsys : s.paddrValidSys = true)
  | launch (b : Burst cfg.Addr) (i : ℕ) (hnow : g.now = g.rose + 3 + i)
      (hat : At s.flashMem (.launch b i)) (hbeats : g.beats = 0)
      (hq : s.outstanding = Phase.outstanding (.launch b i))
      (hstamps : g.stamps =
        Phase.outstanding (.launch (launchTimes cfg.numPrefetchReads g.rose) i))
  | land (b : Burst cfg.Addr) (hnow : g.rose + 3 + cfg.numPrefetchReads ≤ g.now)
      (hat : At s.flashMem (.land b g.beats)) (hbeats : g.beats = g.now - (g.rose + 3 + L))
      (hq : s.outstanding = Phase.outstanding (.land b g.beats))
      (hstamps : g.stamps =
        Phase.outstanding (.land (launchTimes cfg.numPrefetchReads g.rose) g.beats))
  | done (h : cfg.numPrefetchReads ≤ g.beats)

namespace Stage

variable {L : ℕ} {mem : cfg.Addr → cfg.Word} {s : State cfg} {g : Timed} {c : Cycle}

/-- While nothing is listened for no beat is taken. -/
theorem beats_of_not_listening {φ : Phase cfg.Addr} (hat : At s.flashMem φ)
    (hφ : φ.listens = false) : (g.sys s c).beats = g.beats ∧ (g.sys s c).stamps =
      g.stamps ++ (if c.ready then s.flashMem.cmd.toList.map fun _ => g.now else []) := by
  have hready : s.flashMem.rdataReady = false := ((refines cfg.toDramConfig).ready hat).trans hφ
  simp only [Timed.sys, hready, Bool.false_and, Bool.false_eq_true, if_false, and_self]

/-- An idle prefetcher that sees no valid address waits. -/
theorem at_wait (hat : At s.flashMem .quiet) (hsys : s.paddrValidSys = false) :
    At (s.sysEdge mem c).flashMem .quiet := by
  rw [State.flashMem_sysEdge, hsys]
  exact hat.wait

/-- The commands outstanding follow the phase. -/
theorem outstanding_sys {φ φ' : Phase cfg.Addr} (hat : At s.flashMem φ)
    (hq : s.outstanding = φ.outstanding)
    (hstep : Phase.Step φ c.ready (presented s.outstanding c).isSome φ') :
    (s.sysEdge mem c).outstanding = φ'.outstanding := by
  rw [State.outstanding_sysEdge, hq]
  rw [hq] at hstep
  exact (refines cfg.toDramConfig).heldStep_snd hat hat.proper hstep

/-- An idle prefetcher that sees a valid address starts a pass. -/
theorem sys_seen (hnow : g.now = g.rose + 2) (hat : At s.flashMem .quiet) (hbeats : g.beats = 0)
    (hsys : s.paddrValidSys = true) (hq : s.outstanding = []) (hstamps : g.stamps = []) :
    Stage L (s.sysEdge mem c) (g.sys s c) := by
  obtain ⟨hbeats', hstamps'⟩ := @beats_of_not_listening _ _ g c _ hat rfl
  have hcmd : s.flashMem.cmd = none := (refines cfg.toDramConfig).cmd hat
  refine .launch (burst cfg.toDramConfig (wordAddr cfg.toDramConfig s.regs.paddrFw)) 0
    (congrArg (· + 1) hnow) ?_ (hbeats'.trans hbeats) ?_ ?_
  · rw [State.flashMem_sysEdge, hsys]
    exact hat.start
  · exact outstanding_sys hat hq (.start cfg.numPrefetchReads_pos)
  · rw [hstamps', hstamps, hcmd]
    simp [Phase.outstanding]

/-- A port that is always ready accepts a command with every edge. -/
theorem sys_launch (hL : cfg.numPrefetchReads ≤ L) {b : Burst cfg.Addr} {i : ℕ}
    (hnow : g.now = g.rose + 3 + i) (hat : At s.flashMem (.launch b i)) (hbeats : g.beats = 0)
    (hq : s.outstanding = Phase.outstanding (.launch b i))
    (hstamps : g.stamps = Phase.outstanding (.launch (launchTimes cfg.numPrefetchReads g.rose) i))
    (hready : c.ready = true) : Stage L (s.sysEdge mem c) (g.sys s c) := by
  obtain ⟨hbeats', hstamps'⟩ := @beats_of_not_listening _ _ g c _ hat rfl
  have hcmd : s.flashMem.cmd = some (b.addr i) := (refines cfg.toDramConfig).cmd hat
  have hmore : g.stamps ++ [g.now] = Phase.outstanding
      (.launch (launchTimes cfg.numPrefetchReads g.rose) (i + 1)) := by
    simp only [hstamps, hnow, Phase.outstanding, List.range_succ, List.map_append, List.map_cons,
      List.map_nil, launchTimes]
  have hnew : (g.sys s c).stamps = Phase.outstanding
      (.launch (launchTimes cfg.numPrefetchReads g.rose) (i + 1)) := by
    rw [hstamps', hready, hcmd, ← hmore]
    rfl
  have hissue : At (s.sysEdge mem c).flashMem
      (if i + 1 = cfg.numPrefetchReads then .land b 0 else .launch b (i + 1)) := by
    rw [State.flashMem_sysEdge, hready]
    exact hat.issue
  have hnow' : (g.sys s c).now = g.rose + 3 + (i + 1) := congrArg (· + 1) hnow
  have hcount := hat.proper
  obtain ⟨base, rfl⟩ : ∃ base, b = burst cfg.toDramConfig base := by
    cases hat with
    | launch base i hi => exact ⟨base, rfl⟩
  by_cases hlast : i + 1 = cfg.numPrefetchReads
  · rw [if_pos hlast] at hissue
    have hzero : (g.sys s c).beats = 0 := hbeats'.trans hbeats
    refine .land _ ?_ (by rw [hzero]; exact hissue) ?_ ?_ ?_
    · rw [hnow', hlast]
      exact le_rfl
    · rw [hzero, hnow', hlast]
      exact (Nat.sub_eq_zero_of_le (by show g.rose + 3 + _ ≤ g.rose + 3 + L; omega)).symm
    · rw [hzero]
      exact outstanding_sys hat hq (by rw [hready]; exact .issueLast hlast)
    · rw [hnew, hzero, hlast]
      rfl
  · rw [if_neg hlast] at hissue
    refine .launch _ (i + 1) hnow' hissue (hbeats'.trans hbeats) ?_ hnew
    exact outstanding_sys hat hq
      (by rw [hready]; exact .issue (Nat.lt_of_le_of_ne hcount hlast))

/-- While the prefetcher listens, a beat comes `L` edges after its command was accepted. -/
theorem sys_land {b : Burst cfg.Addr} (hnow : g.rose + 3 + cfg.numPrefetchReads ≤ g.now)
    (hat : At s.flashMem (.land b g.beats)) (hbeats : g.beats = g.now - (g.rose + 3 + L))
    (hq : s.outstanding = Phase.outstanding (.land b g.beats))
    (hstamps : g.stamps =
      Phase.outstanding (.land (launchTimes cfg.numPrefetchReads g.rose) g.beats))
    (hvalid : c.valid = true ↔ g.stamps.head?.map (· + L) = some g.now) :
    Stage L (s.sysEdge mem c) (g.sys s c) := by
  obtain ⟨base, rfl⟩ : ∃ base, b = burst cfg.toDramConfig base := by
    cases hat with
    | land base j hj => exact ⟨base, rfl⟩
  have hcount : g.beats < cfg.numPrefetchReads := hat.proper
  have hcmd : s.flashMem.cmd = none := (refines cfg.toDramConfig).cmd hat
  have hlistens : s.flashMem.rdataReady = true := (refines cfg.toDramConfig).ready hat
  have hbeat := Master.presented_land hat.proper c
  rw [← hq] at hbeat
  -- the head of the time stamps is that of the next beat
  have hhead : g.stamps.head? = some (g.rose + 3 + g.beats) := by
    rw [hstamps]
    exact Phase.head?_outstanding hcount
  have hdue : c.valid = true ↔ g.rose + 3 + L ≤ g.now := by
    rw [hvalid, hhead, Option.map_some, Option.some.injEq]
    omega
  have hnow' : (g.sys s c).now = g.now + 1 := rfl
  have hrose' : (g.sys s c).rose = g.rose := rfl
  cases hv : c.valid with
  | false =>
    rw [hv, if_neg Bool.false_ne_true] at hbeat
    have hearly : ¬ g.rose + 3 + L ≤ g.now := by
      rw [← hdue, hv]
      exact Bool.false_ne_true
    have hsame : (g.sys s c).beats = g.beats ∧ (g.sys s c).stamps = g.stamps := by
      simp [Timed.sys, hbeat, hcmd]
    refine .land (burst cfg.toDramConfig base) ?_ ?_ ?_ ?_ ?_
    · omega
    · rw [hsame.1, State.flashMem_sysEdge, hbeat, Option.map_none, hat.next_await]
      exact hat
    · rw [hsame.1]
      omega
    · rw [hsame.1]
      exact outstanding_sys hat hq (by rw [hbeat]; exact .await)
    · rw [hsame.1, hsame.2]
      exact hstamps
  | true =>
    rw [hv, if_pos rfl] at hbeat
    have hlate := hdue.mp hv
    have htaken : (g.sys s c).beats = g.beats + 1 ∧ (g.sys s c).stamps = g.stamps.tail := by
      simp [Timed.sys, hbeat, hcmd, hlistens]
    by_cases hlast : g.beats + 1 = cfg.numPrefetchReads
    · exact .done (by rw [htaken.1, hlast])
    · have htake : At (s.sysEdge mem c).flashMem
          (if g.beats + 1 = cfg.numPrefetchReads then .quiet
            else .land (burst cfg.toDramConfig base) (g.beats + 1)) := by
        rw [State.flashMem_sysEdge, hbeat, Option.map_some]
        exact hat.take _
      rw [if_neg hlast] at htake
      refine .land (burst cfg.toDramConfig base) ?_ ?_ ?_ ?_ ?_
      · omega
      · rw [htaken.1]
        exact htake
      · rw [htaken.1]
        omega
      · rw [htaken.1]
        exact outstanding_sys hat hq
          (by rw [hbeat]; exact .take (Nat.lt_of_le_of_ne hcount hlast))
      · rw [htaken.1, htaken.2, hstamps, hrose']
        simp only [Phase.outstanding, List.map_drop, List.tail_drop]

/-- **Step lemma.** A system clock edge takes the prefetch on. -/
theorem sys (hL : cfg.numPrefetchReads ≤ L) (h : Stage L s g)
    (hquiet : At s.flashMem .quiet → s.outstanding = [] ∧ g.stamps = [])
    (hok : Answers L (s, g) (.sys c)) : Stage L (s.sysEdge mem c) (g.sys s c) := by
  cases h with
  | raised hnow hat hbeats hvalid hmeta hsys =>
    exact .sampled (congrArg (· + 1) hnow) (at_wait hat hsys)
      ((beats_of_not_listening hat rfl).1.trans hbeats) hvalid hmeta
  | sampled hnow hat hbeats hmeta hsys =>
    exact .seen (congrArg (· + 1) hnow) (at_wait hat hsys)
      ((beats_of_not_listening hat rfl).1.trans hbeats) hmeta
  | seen hnow hat hbeats hsys =>
    exact sys_seen hnow hat hbeats hsys (hquiet hat).1 (hquiet hat).2
  | launch b i hnow hat hbeats hq hstamps =>
    exact sys_launch hL hnow hat hbeats hq hstamps hok.1
  | land b hnow hat hbeats hq hstamps => exact sys_land hnow hat hbeats hq hstamps hok.2
  | done h =>
    refine .done (h.trans ?_)
    simp only [Timed.sys]
    split
    · exact Nat.le_succ _
    · exact le_rfl

/-- The pins do not touch what the prefetch consists of, once its validity is sampled. -/
theorem pins (h : Stage L s g) {s' : State cfg} {g' : Timed} (hmem : s'.flashMem = s.flashMem)
    (hmeta : s'.paddrValidMeta = s.paddrValidMeta) (hsys : s'.paddrValidSys = s.paddrValidSys)
    (hq : s'.outstanding = s.outstanding) (hnow : g'.now = g.now) (hstamps : g'.stamps = g.stamps)
    (hrose : g'.rose = g.rose) (hbeats : g'.beats = g.beats)
    (hvalid : g.now = g.rose → s'.regs.paddrValid = s.regs.paddrValid) : Stage L s' g' := by
  cases h with
  | raised hnow' hat hbeats' hvalid' hmeta' hsys' =>
    exact .raised (by rw [hnow, hrose, hnow']) (hmem ▸ hat) (hbeats.trans hbeats')
      ((hvalid hnow').trans hvalid') (hmeta.trans hmeta') (hsys.trans hsys')
  | sampled hnow' hat hbeats' hmeta' hsys' =>
    exact .sampled (by rw [hnow, hrose, hnow']) (hmem ▸ hat) (hbeats.trans hbeats')
      (hmeta.trans hmeta') (hsys.trans hsys')
  | seen hnow' hat hbeats' hsys' =>
    exact .seen (by rw [hnow, hrose, hnow']) (hmem ▸ hat) (hbeats.trans hbeats')
      (hsys.trans hsys')
  | launch b i hnow' hat hbeats' hq' hstamps' =>
    exact .launch b i (by rw [hnow, hrose, hnow']) (hmem ▸ hat) (hbeats.trans hbeats')
      (hq.trans hq') (by rw [hstamps, hrose, hstamps'])
  | land b hnow' hat hbeats' hq' hstamps' =>
    exact .land b (by rw [hnow, hrose]; exact hnow') (by rw [hmem, hbeats]; exact hat)
      (by rw [hbeats, hnow, hrose]; exact hbeats') (by rw [hq, hbeats]; exact hq')
      (by rw [hstamps, hbeats, hrose]; exact hstamps')
  | done h => exact .done (hbeats ▸ h)

/-- **In time.** With three edges, the latency and the reads gone by, all beats are there. -/
theorem beats_of_late (h : Stage L s g)
    (hlate : g.rose + (cfg.numPrefetchReads + L + 3) ≤ g.now) :
    cfg.numPrefetchReads ≤ g.beats := by
  have hpos := cfg.numPrefetchReads_pos
  cases h with
  | raised hnow => omega
  | sampled hnow => omega
  | seen hnow => omega
  | launch b i hnow hat =>
    have hi : i < b.count := hat.proper
    have hcount : b.count = cfg.numPrefetchReads := by
      cases hat with
      | launch base i hi => rfl
    omega
  | land b hnow hat hbeats => omega
  | done h => exact h

end Stage

/-! ## The deadline -/

/-- What holds after every run that meets the assumptions on the clocks and the port. -/
structure OnTime (idcode : BitVec 24) (r L : ℕ) (s : State cfg) (g : Timed) : Prop where
  base : Inv idcode s g.log
  phase : ∃ φ, At s.flashMem φ ∧ s.outstanding = φ.outstanding
  stamps : g.stamps.length = s.outstanding.length
  /-- `sclk` has risen `r` edges apart since `paddr_valid` rose. -/
  gap : g.armed = true → LeadIn cfg g.log.bits → g.log.bits.length ≤ 32 →
    ∃ t, g.lastRise = some t ∧ t ≤ g.now ∧
      g.rose + (g.log.bits.length - (32 - cfg.prefetchBits)) * r ≤ t
  stage : g.armed = true → LeadIn cfg g.log.bits → g.log.bits.length < 32 → Stage L s g

namespace OnTime

variable {idcode : BitVec 24} {r L : ℕ} {mem : cfg.Addr → cfg.Word} {s : State cfg} {g : Timed}
  {csn sclk si : Bool}

/-- At power-on. -/
theorem boot (sclk si : Bool) : OnTime idcode r L (FlashEmuLite.boot cfg idcode sclk si) {} where
  base := Inv.boot sclk si
  phase := ⟨.quiet, .idle rfl, rfl⟩
  stamps := rfl
  gap := fun h => absurd h Bool.false_ne_true
  stage := fun h => absurd h Bool.false_ne_true

/-- Idle, the prefetcher has nothing outstanding. -/
theorem quiet (h : OnTime idcode r L s g) (hat : At s.flashMem .quiet) :
    s.outstanding = [] ∧ g.stamps = [] := by
  obtain ⟨φ, hφ, hq⟩ := h.phase
  obtain rfl : φ = .quiet := hφ.idle_iff.mp (hat.idle_iff.mpr rfl)
  have hlen := h.stamps
  rw [hq] at hlen
  exact ⟨hq, List.length_eq_zero_iff.mp hlen⟩

/-- The edge that takes in the last leading bit raises `paddr_valid`. -/
theorem up_of_leadIn (h : Inv idcode s g.log)
    (hin : LeadIn cfg (g.pins idcode s csn sclk si).log.bits)
    (hnot : ¬ LeadIn cfg g.log.bits) :
    s.regs.paddrValid = false ∧ (s.pins idcode csn sclk si).regs.paddrValid = true := by
  have hlt := cfg.lt
  obtain ⟨rfl, ⟨-, hbits⟩ | ⟨hr, hrst, hbits⟩⟩ := h.leadIn_pins hin
  · have hin' : LeadIn cfg g.log.bits := hbits ▸ hin
    exact absurd hin' hnot
  · have hlen : (g.pins idcode s false sclk si).log.bits.length = g.log.bits.length + 1 := by
      rw [show (g.pins idcode s false sclk si).log.bits = _ from hbits, List.length_append,
        List.length_singleton]
    have hlead := hin.2
    have hop : Front.opcode g.log.bits = cmdRead := by
      rw [← hin.1, show (g.pins idcode s false sclk si).log.bits = _ from hbits,
        Front.opcode_append (by omega)]
    have hlast : g.log.bits.length + 1 = 32 - cfg.prefetchBits := by
      have hshort : ¬ 32 - cfg.prefetchBits ≤ g.log.bits.length := fun hle => hnot ⟨hop, hle⟩
      omega
    refine ⟨?_, ?_⟩
    · rw [← Bool.not_eq_true, paddrValid_iff (h.front (h.tracks.rises_ne_nil hrst))]
      rintro ⟨-, hlen'⟩
      omega
    · refine (paddrValid_iff ((h.pins false sclk si).front ?_)).mpr ⟨hin.1, hlen.trans hlast⟩
      exact BusLog.rises_ne_nil_of_pos (Nat.lt_of_lt_of_eq (Nat.succ_pos _) hlen.symm)

/-- A change of the pins in a transaction whose leading bits are in: either nothing has happened
to it, or `sclk` has risen and there is one more bit. -/
theorem leadIn_cases (h : Inv idcode s g.log)
    (hin : LeadIn cfg (g.pins idcode s csn sclk si).log.bits) :
    ((g.pins idcode s csn sclk si).log.bits = g.log.bits ∧
        (g.pins idcode s csn sclk si).lastRise = g.lastRise ∧
        (s.pins idcode csn sclk si).regs.paddrValid = s.regs.paddrValid) ∨
      (s.sclk = false ∧ sclk = true ∧
        (g.pins idcode s csn sclk si).log.bits.length = g.log.bits.length + 1) := by
  obtain ⟨rfl, ⟨hr, hbits⟩ | ⟨hr, hrst, hbits⟩⟩ := h.leadIn_pins hin
  · refine Or.inl ⟨hbits, ?_, ?_⟩
    -- without an edge of the gated clock there was none of `sclk`
    · have hsclk : (!s.sclk && sclk) = false := by
        rw [← Bool.not_eq_true, Bool.and_eq_true, Bool.not_eq_true']
        rintro ⟨hwas, rfl⟩
        have hclk : s.dom.clk = false := by rw [h.clk, hwas, Bool.false_and]
        have hrises : s.dom.rises (true && !false) = true := DomainPair.rises_iff.mpr ⟨hclk, rfl⟩
        rw [hr] at hrises
        exact Bool.false_ne_true hrises
      simp only [Timed.pins, hsclk, Bool.false_eq_true, if_false]
    · simp only [State.pins, hr, Bool.false_eq_true, if_false]
  · obtain ⟨-, hwas, hnow⟩ := h.sclk_of_rises hr hrst
    refine Or.inr ⟨hwas, hnow, ?_⟩
    rw [show (g.pins idcode s false sclk si).log.bits = _ from hbits, List.length_append,
      List.length_singleton]

/-- **`paddr_valid` rises.** -/
theorem pins_up (h : OnTime idcode r L s g) (hlow : s.regs.paddrValid = false)
    (hup : (s.pins idcode csn sclk si).regs.paddrValid = true) :
    OnTime idcode r L (s.pins idcode csn sclk si) (g.pins idcode s csn sclk si) := by
  obtain ⟨-, hop, hlen⟩ : (g.log.next s.dom (sclk && !csn) csn si s.esoDelayed).rises ≠ [] ∧ _ := by
    rcases h.base.paddrValid_pins hup with ⟨-, hold⟩ | ⟨-, hnew⟩
    · rw [hlow] at hold
      exact absurd hold Bool.false_ne_true
    · exact hnew
  obtain ⟨hwas, hsclk⟩ : s.sclk = false ∧ sclk = true := by
    rcases leadIn_cases h.base ⟨hop, hlen.ge⟩ with ⟨-, -, hsame⟩ | ⟨hwas, hsclk, -⟩
    · rw [hlow, hup] at hsame
      exact absurd hsame.symm Bool.false_ne_true
    · exact ⟨hwas, hsclk⟩
  obtain ⟨hrose, hbeats, harmed⟩ := @Timed.pins_of_up _ _ g _ _ _ _ hlow hup
  refine ⟨h.base.pins csn sclk si, h.phase, h.stamps, ?_, ?_⟩
  · intro _ _ _
    refine ⟨g.now, Timed.lastRise_of_rise hwas hsclk, le_rfl, ?_⟩
    rw [show (g.pins idcode s csn sclk si).log.bits.length = _ from hlen, Nat.sub_self, zero_mul,
      add_zero, hrose]
  · intro ha _ _
    obtain ⟨hidle, hmeta, hsys⟩ := harmed.mp ha
    exact .raised hrose.symm (.idle hidle) hbeats hup hmeta hsys

/-- **A data edge** before the end of the address comes `r` edges after the one before. -/
theorem gap_next (h : OnTime idcode r L s g) (harmed : g.armed = true)
    (hin : LeadIn cfg g.log.bits) (hlen : g.log.bits.length < 32)
    (hspaced : ∀ t, g.lastRise = some t → t + r ≤ g.now) :
    g.rose + (g.log.bits.length + 1 - (32 - cfg.prefetchBits)) * r ≤ g.now := by
  obtain ⟨t, ht, -, hgap⟩ := h.gap harmed hin (Nat.le_of_lt hlen)
  have hnow := hspaced t ht
  rw [Nat.sub_add_comm hin.2, Nat.succ_mul]
  omega

/-- The pins change without raising `paddr_valid`. -/
theorem pins_of_not_up (h : OnTime idcode r L s g) (hr : 0 < r)
    (hspaced : s.sclk = false → sclk = true → ∀ t, g.lastRise = some t → t + r ≤ g.now)
    (hno : (!s.regs.paddrValid && (s.pins idcode csn sclk si).regs.paddrValid) = false) :
    OnTime idcode r L (s.pins idcode csn sclk si) (g.pins idcode s csn sclk si) := by
  obtain ⟨hrose, hbeats, harmed⟩ := @Timed.pins_of_not_up _ _ g _ _ _ _ hno
  have hold : LeadIn cfg (g.pins idcode s csn sclk si).log.bits → LeadIn cfg g.log.bits := by
    intro hin
    by_contra hnot
    obtain ⟨hlow, hup⟩ := up_of_leadIn h.base hin hnot
    rw [hlow, hup] at hno
    exact Bool.false_ne_true hno.symm
  refine ⟨h.base.pins csn sclk si, h.phase, h.stamps, ?_, ?_⟩
  · intro ha hin hlen
    rw [harmed] at ha
    rw [hrose]
    rcases leadIn_cases h.base hin with ⟨hbits, hlast, -⟩ | ⟨hwas, hnow, hmore⟩
    · rw [hbits] at hlen ⊢
      rw [hlast]
      exact h.gap ha (hold hin) hlen
    · refine ⟨g.now, Timed.lastRise_of_rise hwas hnow, le_rfl, ?_⟩
      rw [hmore]
      exact h.gap_next ha (hold hin) (by omega) (hspaced hwas hnow)
  · intro ha hin hlen
    rw [harmed] at ha
    rcases leadIn_cases h.base hin with ⟨hbits, -, hsame⟩ | ⟨hwas, hnow, hmore⟩
    · rw [hbits] at hlen
      exact (h.stage ha (hold hin) hlen).pins rfl rfl rfl rfl rfl rfl hrose hbeats fun _ => hsame
    · refine (h.stage ha (hold hin) (by omega)).pins rfl rfl rfl rfl rfl rfl hrose hbeats ?_
      -- the validity has been sampled by now
      intro hfirst
      have hgap := h.gap_next ha (hold hin) (by omega) (hspaced hwas hnow)
      rw [Nat.sub_add_comm (hold hin).2, Nat.succ_mul] at hgap
      omega

/-- A change of the pins keeps to the time. -/
theorem pins (h : OnTime idcode r L s g) (hr : 0 < r)
    (hspaced : s.sclk = false → sclk = true → ∀ t, g.lastRise = some t → t + r ≤ g.now) :
    OnTime idcode r L (s.pins idcode csn sclk si) (g.pins idcode s csn sclk si) := by
  by_cases hno : (!s.regs.paddrValid && (s.pins idcode csn sclk si).regs.paddrValid) = false
  · exact h.pins_of_not_up hr hspaced hno
  · rw [Bool.not_eq_false, Bool.and_eq_true, Bool.not_eq_true'] at hno
    exact h.pins_up hno.1 hno.2

/-- A system clock edge keeps to the time. -/
theorem sys (h : OnTime idcode r L s g) (hL : cfg.numPrefetchReads ≤ L) {c : Cycle}
    (hok : Answers L (s, g) (.sys c)) : OnTime idcode r L (s.sysEdge mem c) (g.sys s c) := by
  obtain ⟨φ, hat, hq⟩ := h.phase
  obtain ⟨φ', hstep, hat'⟩ := (refines cfg.toDramConfig).next (s.regs.paddrFw, s.paddrValidSys)
    c.ready ((presented s.outstanding c).map mem) hat trivial
  rw [Option.isSome_map] at hstep
  have hbase : Inv idcode (s.sysEdge mem c) g.log := h.base.step (.sys c)
  refine ⟨hbase, ⟨φ', ?_, Stage.outstanding_sys hat hq hstep⟩, ?_, ?_, ?_⟩
  · rw [State.flashMem_sysEdge]
    exact hat'
  · -- a command is outstanding for every stamp
    rw [Stage.outstanding_sys hat hq hstep, hstep.outstanding hat.proper]
    have hcmd : s.flashMem.cmd = φ.cmd := (refines cfg.toDramConfig).cmd hat
    have hready : s.flashMem.rdataReady = φ.listens := (refines cfg.toDramConfig).ready hat
    simp only [Timed.sys, hcmd, hready, ← hq, List.length_append, apply_ite List.length,
      List.length_tail, List.length_map, List.length_nil, h.stamps]
  · intro ha hin hlen
    obtain ⟨t, ht, hle, hgap⟩ := h.gap ha hin hlen
    exact ⟨t, ht, Nat.le_succ_of_le hle, hgap⟩
  · intro ha hin hlen
    exact (h.stage ha hin hlen).sys hL h.quiet hok

/-- **Step lemma.** Every event that meets the assumptions keeps to the time. -/
theorem step (h : OnTime idcode r L s g) (hr : 0 < r) (hL : cfg.numPrefetchReads ≤ L) {e : Event}
    (hspaced : Spaced r (s, g) e) (hok : Answers L (s, g) e) :
    OnTime idcode r L (FlashEmuLite.step idcode mem s e) (g.next idcode s e) := by
  match e with
  | .lines csn si =>
    refine h.pins hr ?_
    intro hwas hnow
    rw [hwas] at hnow
    exact absurd hnow Bool.false_ne_true
  | .sclk level =>
    refine h.pins hr ?_
    intro hwas hnow t ht
    have hgap := hspaced hnow hwas
    simpa only [ht] using hgap
  | .sys c => exact h.sys hL hok

/-- The edge that enters `read_get_data` takes in the last address bit of a read. -/
theorem data_of_enters (h : Inv idcode s g.log)
    (hdata : (s.pins idcode csn sclk si).regs.state = .readGetData)
    (hnot : s.regs.state ≠ .readGetData) :
    s.sclk = false ∧ sclk = true ∧ LeadIn cfg g.log.bits ∧ g.log.bits.length = 31 := by
  have hlt := cfg.lt
  have hone := cfg.one_le
  have hr : s.dom.rises (sclk && !csn) = true := by
    rw [← Bool.not_eq_false]
    intro hno
    simp only [State.pins, hno, Bool.false_eq_true, if_false] at hdata
    exact hnot hdata
  obtain rfl : csn = false := DomainPair.gate_of_rises hr
  have hbits := BusLog.bits_next_of_rises hr si s.esoDelayed g.log
  have hne := BusLog.rises_next_ne_nil hr si s.esoDelayed g.log
  have hnew := (state_data_iff ((h.pins false sclk si).front hne)).mp hdata
  have hin : LeadIn cfg (g.log.next s.dom (sclk && !false) false si s.esoDelayed).bits :=
    ⟨hnew.2, by omega⟩
  obtain ⟨-, ⟨hno, -⟩ | ⟨-, hrst, -⟩⟩ := h.leadIn_pins hin
  · rw [hr] at hno
    exact absurd hno.symm Bool.false_ne_true
  obtain ⟨-, hwas, hnow⟩ := h.sclk_of_rises hr hrst
  rw [hbits, List.length_append, List.length_singleton] at hnew
  have hop : Front.opcode g.log.bits = cmdRead := by
    rw [← hnew.2, Front.opcode_append (by omega)]
  have hold : ¬ 32 ≤ g.log.bits.length := by
    intro hlen
    exact hnot ((state_data_iff (h.front (h.tracks.rises_ne_nil hrst))).mpr ⟨hlen, hop⟩)
  exact ⟨hwas, hnow, ⟨hop, by omega⟩, by omega⟩

/-- **The deadline** is met by the edge that enters `read_get_data`. -/
theorem beats_of_enters (h : OnTime idcode r L s g)
    (hsum : cfg.numPrefetchReads + L + 3 ≤ r * cfg.prefetchBits) {e : Event}
    (hspaced : Spaced r (s, g) e) (henters : EntersData idcode mem s e)
    (harmed : g.armed = true) : cfg.numPrefetchReads ≤ g.beats := by
  obtain ⟨hnot, hdata⟩ := henters
  have hone := cfg.one_le
  have hlt := cfg.lt
  match e with
  | .lines csn si =>
    obtain ⟨hwas, hnow, -⟩ := data_of_enters h.base hdata hnot
    rw [hwas] at hnow
    exact absurd hnow Bool.false_ne_true
  | .sclk level =>
    obtain ⟨hwas, hnow, hin, hlen⟩ := data_of_enters h.base hdata hnot
    refine (h.stage harmed hin (by omega)).beats_of_late ?_
    have hgap := h.gap_next harmed hin (by omega) (by
      intro t ht
      have hgap := hspaced hnow hwas
      simpa only [ht] using hgap)
    have hbits : g.log.bits.length + 1 - (32 - cfg.prefetchBits) = cfg.prefetchBits := by omega
    rw [hbits, mul_comm] at hgap
    omega
  | .sys c => exact absurd hdata hnot

end OnTime

/-- **The prefetch deadline.** Let sys clock edges be at least `r` to an interval between rising
edges of `sclk`, and let the port take a command in every cycle and answer it `L ≥ n` cycles later,
with `n + L + 3 ≤ r * prefetch_bits` for a pass of `n` reads. If `paddr_valid` rose with the
prefetcher in `IDLE` and both flip-flops low, all `n` beats have been accepted when the read starts
to deliver data, in every run and however the two clocks are interleaved. -/
theorem prefetch_deadline (cfg : LiteConfig) (idcode : BitVec 24) (mem : cfg.Addr → cfg.Word)
    (sclk si : Bool) (r L : ℕ) (hL : cfg.numPrefetchReads ≤ L)
    (hsum : cfg.numPrefetchReads + L + 3 ≤ r * cfg.prefetchBits) (es : List Event)
    (htimed : Along (watch (step idcode mem) (Timed.next idcode))
      (fun x e => Spaced r x e ∧ Answers L x e) (boot cfg idcode sclk si, {}) es) :
    Along (watch (step idcode mem) (Timed.next idcode))
      (fun x e => EntersData idcode mem x.1 e → x.2.armed = true →
        cfg.numPrefetchReads ≤ x.2.beats) (boot cfg idcode sclk si, {}) es := by
  have hr : 0 < r := by
    rw [Nat.pos_iff_ne_zero]
    rintro rfl
    omega
  exact htimed.imp (P := fun (x : State cfg × Timed) => OnTime idcode r L x.1 x.2)
    (fun _ _ hok h => h.step hr hL hok.1 hok.2)
    (fun _ e h hok henters harmed => h.beats_of_enters hsum (e := e) hok.1 henters harmed)
    (OnTime.boot sclk si)

/-- A read at `prefetch_bits = 6`: four reads and a latency of four fit into six intervals of two
edges. The beats come with edges 57 to 60. -/
theorem prefetch_deadline_sixBits :
    let bits := (List.range 31).map fun i => i = 6 || i = 7
    let early := bits.zipIdx.flatMap fun (b, i) =>
      [Event.lines false b, .sclk true, .sclk false,
        .sys ⟨true, 57 ≤ 2 * i && 2 * i ≤ 60⟩, .sys ⟨true, 57 ≤ 2 * i + 1 && 2 * i + 1 ≤ 60⟩]
    let x := run (watch (step 0 fun _ => 0) (Timed.next 0))
      (boot LiteConfig.sixBits 0 false false, {}) early
    EntersData 0 (fun _ => 0) x.1 (.sclk true) ∧ x.2.armed = true ∧
      LiteConfig.sixBits.numPrefetchReads ≤ x.2.beats := by
  intro bits early x
  have hall := prefetch_deadline LiteConfig.sixBits 0 (fun _ => 0) false false 2 4 (by decide)
    (by decide) (early ++ [.sclk true]) (by decide +kernel)
  have henters : EntersData 0 (fun _ => 0) x.1 (.sclk true) := by decide +kernel
  have harmed : x.2.armed = true := by decide +kernel
  exact ⟨henters, harmed, (along_concat.mp hall).2 henters harmed⟩

end FlashEmuLite

end LiteSpiH4x
