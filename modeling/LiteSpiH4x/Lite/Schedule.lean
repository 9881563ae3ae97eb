import LiteSpiH4x.Lite.Deadline
import Mathlib.Algebra.Order.Floor.Ring
import Mathlib.Data.Rat.Floor
import Mathlib.Tactic.NormNum

/-! # The time a prefetch takes

At a port that is always ready and has each beat valid from a constant latency on, until it is
taken, a prefetch takes a number of system clock edges that depends on nothing but the number of
its reads and the latency. This makes the deadline exact, and can be held against the budget of
`calc.py`.

* **`Serves`** / **`Paced`** — the port, and a bus whose clock rises at a constant distance.
* **`OnSchedule`** — what holds along a run: the prefetch is where the time says.
* **`prefetch_time`** — when all beats are there.
* **`deadline_iff`** — when they are there in time; **`deadline_iff_slack`** — the same in terms of
  the slack that `calc.py` prints. -/

namespace LiteSpiH4x

open Digital ReadPort StepMachine FlashEmuDRAMLite

namespace FlashEmuLite

variable {cfg : LiteConfig}

/-- The port is ready for a command in every cycle, and has the beat of a command valid from `L`
cycles after it accepted the command, until the beat is taken. -/
def Serves (L : ℕ) (x : State cfg × Timed) : Event → Prop
  | .sys c => c.ready = true ∧ (c.valid = true ↔ ∃ t ∈ x.2.stamps.head?, t + L ≤ x.2.now)
  | _ => True

instance (L : ℕ) (x : State cfg × Timed) (e : Event) : Decidable (Serves L x e) :=
  match e with
  | .lines _ _ => isTrue trivial
  | .sclk _ => isTrue trivial
  | .sys _ => inferInstanceAs (Decidable (_ ∧ (_ ↔ _)))

/-- The rising edges of `sclk` are `r` system clock edges apart. -/
def Paced (r : ℕ) (x : State cfg × Timed) : Event → Prop
  | .sclk level =>
    level = true → x.1.sclk = false → ∀ t ∈ x.2.lastRise, t + r = x.2.now
  | _ => True

instance (r : ℕ) (x : State cfg × Timed) (e : Event) : Decidable (Paced r x e) :=
  match e with
  | .lines _ _ => isTrue trivial
  | .sclk _ => inferInstanceAs (Decidable (_ → _ → ∀ t ∈ _, _))
  | .sys _ => isTrue trivial

/-- The system clock edges from the rise of `paddr_valid` to the last beat of a prefetch at latency
`L`: two through the synchroniser, one out of `IDLE`, one for each command, and one for each beat
once the first of them is there and the prefetcher listens. -/
def passTime (cfg : LiteConfig) (L : ℕ) : ℕ :=
  cfg.numPrefetchReads + max cfg.numPrefetchReads L + 3

/-! ## The prefetch along a system clock edge -/

namespace Stage

variable {L : ℕ} {mem : cfg.Addr → cfg.Word} {s : State cfg} {g : Timed} {c : Cycle}

/-- While the prefetcher listens, the beat that is next is valid when it should be taken: the port
is not ahead of a prefetcher that still launches, and not behind one that listens. -/
theorem due_iff {b : Burst cfg.Addr} (hnow : g.rose + 3 + cfg.numPrefetchReads ≤ g.now)
    (hat : At s.flashMem (.land b g.beats))
    (hbeats : g.beats = g.now - (g.rose + 3 + max cfg.numPrefetchReads L))
    (hstamps : g.stamps =
      Phase.outstanding (.land (launchTimes cfg.numPrefetchReads g.rose) g.beats)) :
    (∃ t ∈ g.stamps.head?, t + L ≤ g.now) ↔
      g.stamps.head?.map (· + max cfg.numPrefetchReads L) = some g.now := by
  have hcount : g.beats < cfg.numPrefetchReads := by
    cases hat with
    | land base j hj => exact hj
  have hhead : g.stamps.head? = some (g.rose + 3 + g.beats) := by
    rw [hstamps]
    exact Phase.head?_outstanding hcount
  rw [hhead, Option.map_some, Option.some.injEq]
  simp only [Option.mem_some_iff, exists_eq_left']
  omega

/-- Before the prefetcher listens, and when it has all beats, none is taken. -/
theorem beats_sys_of_quiet {φ : Phase cfg.Addr} (hat : At s.flashMem φ) (hφ : φ.listens = false)
    (hbeats : g.beats = 0) : (g.sys s c).beats = 0 :=
  (beats_of_not_listening hat hφ).1.trans hbeats

/-- **Not early.** If the beats of a pass were all there only in time, they are after an edge. -/
theorem passTime_sys (h : Stage (max cfg.numPrefetchReads L) s g)
    (hexact : cfg.numPrefetchReads ≤ g.beats → g.rose + passTime cfg L ≤ g.now)
    (hok : Serves L (s, g) (.sys c)) (hall : cfg.numPrefetchReads ≤ (g.sys s c).beats) :
    (g.sys s c).rose + passTime cfg L ≤ (g.sys s c).now := by
  have hpos := cfg.numPrefetchReads_pos
  have hnow : (g.sys s c).now = g.now + 1 := rfl
  have hrose : (g.sys s c).rose = g.rose := rfl
  rw [hnow, hrose]
  cases h with
  | raised _ hat hbeats | sampled _ hat hbeats | seen _ hat hbeats =>
    rw [beats_sys_of_quiet hat rfl hbeats] at hall
    omega
  | launch b i _ hat hbeats =>
    rw [beats_sys_of_quiet hat rfl hbeats] at hall
    omega
  | land b hlate hat hbeats hq hstamps =>
    have hcount : g.beats < cfg.numPrefetchReads := by
      cases hat with
      | land base j hj => exact hj
    have hdue : c.valid = true ↔
        g.stamps.head?.map (· + max cfg.numPrefetchReads L) = some g.now :=
      hok.2.trans (due_iff hlate hat hbeats hstamps)
    have hbeat := Master.presented_land hat.proper c
    rw [← hq] at hbeat
    have hhead : g.stamps.head? = some (g.rose + 3 + g.beats) := by
      rw [hstamps]
      exact Phase.head?_outstanding hcount
    rw [hhead, Option.map_some, Option.some.injEq] at hdue
    -- an edge that takes no beat does not complete them
    by_cases hv : c.valid = true
    · have htime := hdue.mp hv
      have htaken : (g.sys s c).beats ≤ g.beats + 1 := by
        simp only [Timed.sys]
        split <;> omega
      rw [passTime]
      omega
    · have hnone : (g.sys s c).beats = g.beats := by
        rw [if_neg hv] at hbeat
        simp [Timed.sys, hbeat]
      omega
  | done hdone =>
    have htime := hexact hdone
    omega

/-- **On time.** An edge takes the prefetch on, if the port serves it. -/
theorem sys_serves (h : Stage (max cfg.numPrefetchReads L) s g)
    (hquiet : At s.flashMem .quiet → s.outstanding = [] ∧ g.stamps = [])
    (hok : Serves L (s, g) (.sys c)) :
    Stage (max cfg.numPrefetchReads L) (s.sysEdge mem c) (g.sys s c) := by
  cases h with
  | raised hnow hat hbeats hvalid hmeta hsys =>
    exact .sampled (congrArg (· + 1) hnow) (at_wait hat hsys)
      (beats_sys_of_quiet hat rfl hbeats) hvalid hmeta
  | sampled hnow hat hbeats hmeta hsys =>
    exact .seen (congrArg (· + 1) hnow) (at_wait hat hsys)
      (beats_sys_of_quiet hat rfl hbeats) hmeta
  | seen hnow hat hbeats hsys =>
    exact sys_seen hnow hat hbeats hsys (hquiet hat).1 (hquiet hat).2
  | launch b i hnow hat hbeats hq hstamps =>
    exact sys_launch (le_max_left _ _) hnow hat hbeats hq hstamps hok.1
  | land b hnow hat hbeats hq hstamps =>
    exact sys_land hnow hat hbeats hq hstamps
      (hok.2.trans (due_iff hnow hat hbeats hstamps))
  | done hdone =>
    refine .done (hdone.trans ?_)
    simp only [Timed.sys]
    split
    · exact Nat.le_succ _
    · exact le_rfl

end Stage

/-! ## Along a run -/

/-- What holds after every run that meets the assumptions on the clocks and the port. -/
structure OnSchedule (idcode : BitVec 24) (r L : ℕ) (s : State cfg) (g : Timed) : Prop where
  base : Inv idcode s g.log
  phase : ∃ φ, At s.flashMem φ ∧ s.outstanding = φ.outstanding
  stamps : g.stamps.length = s.outstanding.length
  /-- `sclk` has risen `r` edges apart since `paddr_valid` rose. -/
  gap : g.armed = true → LeadIn cfg g.log.bits → ∃ t, g.lastRise = some t ∧ t ≤ g.now ∧
    g.rose + (g.log.bits.length - (32 - cfg.prefetchBits)) * r ≤ t
  stage : g.armed = true → LeadIn cfg g.log.bits → Stage (max cfg.numPrefetchReads L) s g
  exact : g.armed = true → LeadIn cfg g.log.bits →
    cfg.numPrefetchReads ≤ g.beats → g.rose + passTime cfg L ≤ g.now

namespace OnSchedule

variable {idcode : BitVec 24} {r L : ℕ} {mem : cfg.Addr → cfg.Word} {s : State cfg} {g : Timed}
  {csn sclk si : Bool}

/-- At power-on. -/
theorem boot (sclk si : Bool) :
    OnSchedule idcode r L (FlashEmuLite.boot cfg idcode sclk si) {} where
  base := Inv.boot sclk si
  phase := ⟨.quiet, .idle rfl, rfl⟩
  stamps := rfl
  gap := fun h => absurd h Bool.false_ne_true
  stage := fun h => absurd h Bool.false_ne_true
  exact := fun h => absurd h Bool.false_ne_true

/-- Idle, the prefetcher has nothing outstanding. -/
theorem quiet (h : OnSchedule idcode r L s g) (hat : At s.flashMem .quiet) :
    s.outstanding = [] ∧ g.stamps = [] := by
  obtain ⟨φ, hφ, hq⟩ := h.phase
  obtain rfl : φ = .quiet := hφ.idle_iff.mp (hat.idle_iff.mpr rfl)
  have hlen := h.stamps
  rw [hq] at hlen
  exact ⟨hq, List.length_eq_zero_iff.mp hlen⟩

/-- **All beats are there** from the time a pass takes on, and not before. -/
theorem beats_iff (h : OnSchedule idcode r L s g) (harmed : g.armed = true)
    (hin : LeadIn cfg g.log.bits) :
    cfg.numPrefetchReads ≤ g.beats ↔ g.rose + passTime cfg L ≤ g.now :=
  ⟨h.exact harmed hin, fun hlate => (h.stage harmed hin).beats_of_late hlate⟩

/-- **`paddr_valid` rises.** -/
theorem pins_up (h : OnSchedule idcode r L s g) (hlow : s.regs.paddrValid = false)
    (hup : (s.pins idcode csn sclk si).regs.paddrValid = true) :
    OnSchedule idcode r L (s.pins idcode csn sclk si) (g.pins idcode s csn sclk si) := by
  have hpos := cfg.numPrefetchReads_pos
  obtain ⟨-, hop, hlen⟩ : (g.log.next s.dom (sclk && !csn) csn si s.esoDelayed).rises ≠ [] ∧ _ := by
    rcases h.base.paddrValid_pins hup with ⟨-, hold⟩ | ⟨-, hnew⟩
    · rw [hlow] at hold
      exact absurd hold Bool.false_ne_true
    · exact hnew
  obtain ⟨hwas, hsclk⟩ : s.sclk = false ∧ sclk = true := by
    rcases OnTime.leadIn_cases h.base ⟨hop, hlen.ge⟩ with ⟨-, -, hsame⟩ | ⟨hwas, hsclk, -⟩
    · rw [hlow, hup] at hsame
      exact absurd hsame.symm Bool.false_ne_true
    · exact ⟨hwas, hsclk⟩
  obtain ⟨hrose, hbeats, harmed⟩ := @Timed.pins_of_up _ _ g _ _ _ _ hlow hup
  refine ⟨h.base.pins csn sclk si, h.phase, h.stamps, ?_, ?_, ?_⟩
  · intro _ _
    refine ⟨g.now, Timed.lastRise_of_rise hwas hsclk, le_rfl, ?_⟩
    rw [show (g.pins idcode s csn sclk si).log.bits.length = _ from hlen, Nat.sub_self, zero_mul,
      add_zero, hrose]
  · intro ha _
    obtain ⟨hidle, hmeta, hsys⟩ := harmed.mp ha
    exact .raised hrose.symm (.idle hidle) hbeats hup hmeta hsys
  · intro _ _ hall
    omega

/-- **A data edge** comes `r` edges after the one before. -/
theorem gap_next (h : OnSchedule idcode r L s g) (harmed : g.armed = true)
    (hin : LeadIn cfg g.log.bits) (hspaced : ∀ t, g.lastRise = some t → t + r ≤ g.now) :
    g.rose + (g.log.bits.length + 1 - (32 - cfg.prefetchBits)) * r ≤ g.now := by
  obtain ⟨t, ht, -, hgap⟩ := h.gap harmed hin
  have hnow := hspaced t ht
  rw [Nat.sub_add_comm hin.2, Nat.succ_mul]
  omega

/-- The pins change without raising `paddr_valid`. -/
theorem pins_of_not_up (h : OnSchedule idcode r L s g) (hr : 0 < r)
    (hspaced : s.sclk = false → sclk = true → ∀ t, g.lastRise = some t → t + r ≤ g.now)
    (hno : (!s.regs.paddrValid && (s.pins idcode csn sclk si).regs.paddrValid) = false) :
    OnSchedule idcode r L (s.pins idcode csn sclk si) (g.pins idcode s csn sclk si) := by
  obtain ⟨hrose, hbeats, harmed⟩ := @Timed.pins_of_not_up _ _ g _ _ _ _ hno
  have hnow : (g.pins idcode s csn sclk si).now = g.now := rfl
  have hold : LeadIn cfg (g.pins idcode s csn sclk si).log.bits → LeadIn cfg g.log.bits := by
    intro hin
    by_contra hnot
    obtain ⟨hlow, hup⟩ := OnTime.up_of_leadIn h.base hin hnot
    rw [hlow, hup] at hno
    exact Bool.false_ne_true hno.symm
  refine ⟨h.base.pins csn sclk si, h.phase, h.stamps, ?_, ?_, ?_⟩
  · intro ha hin
    rw [harmed] at ha
    rw [hrose]
    rcases OnTime.leadIn_cases h.base hin with ⟨hbits, hlast, -⟩ | ⟨hwas, hrise, hmore⟩
    · rw [hbits, hlast]
      exact h.gap ha (hold hin)
    · refine ⟨g.now, Timed.lastRise_of_rise hwas hrise, le_rfl, ?_⟩
      rw [hmore]
      exact h.gap_next ha (hold hin) (hspaced hwas hrise)
  · intro ha hin
    rw [harmed] at ha
    refine (h.stage ha (hold hin)).pins rfl rfl rfl rfl rfl rfl hrose hbeats ?_
    intro hfirst
    rcases OnTime.leadIn_cases h.base hin with ⟨-, -, hsame⟩ | ⟨hwas, hrise, -⟩
    · exact hsame
    · -- by the next rising edge the validity has been sampled
      have hgap := h.gap_next ha (hold hin) (hspaced hwas hrise)
      rw [Nat.sub_add_comm (hold hin).2, Nat.succ_mul] at hgap
      omega
  · intro ha hin hall
    rw [harmed] at ha
    rw [hbeats] at hall
    rw [hrose, hnow]
    exact h.exact ha (hold hin) hall

/-- A change of the pins keeps to the schedule. -/
theorem pins (h : OnSchedule idcode r L s g) (hr : 0 < r)
    (hspaced : s.sclk = false → sclk = true → ∀ t, g.lastRise = some t → t + r ≤ g.now) :
    OnSchedule idcode r L (s.pins idcode csn sclk si) (g.pins idcode s csn sclk si) := by
  by_cases hno : (!s.regs.paddrValid && (s.pins idcode csn sclk si).regs.paddrValid) = false
  · exact h.pins_of_not_up hr hspaced hno
  · rw [Bool.not_eq_false, Bool.and_eq_true, Bool.not_eq_true'] at hno
    exact h.pins_up hno.1 hno.2

/-- A system clock edge keeps to the schedule. -/
theorem sys (h : OnSchedule idcode r L s g) {c : Cycle} (hok : Serves L (s, g) (.sys c)) :
    OnSchedule idcode r L (s.sysEdge mem c) (g.sys s c) := by
  obtain ⟨φ, hat, hq⟩ := h.phase
  obtain ⟨φ', hstep, hat'⟩ := (refines cfg.toDramConfig).next (s.regs.paddrFw, s.paddrValidSys)
    c.ready ((presented s.outstanding c).map mem) hat trivial
  rw [Option.isSome_map] at hstep
  have hbase : Inv idcode (s.sysEdge mem c) g.log := h.base.step (.sys c)
  refine ⟨hbase, ⟨φ', ?_, Stage.outstanding_sys hat hq hstep⟩, ?_, ?_, ?_, ?_⟩
  · rw [State.flashMem_sysEdge]
    exact hat'
  · -- a command is outstanding for every stamp
    rw [Stage.outstanding_sys hat hq hstep, hstep.outstanding hat.proper]
    have hcmd : s.flashMem.cmd = φ.cmd := (refines cfg.toDramConfig).cmd hat
    have hready : s.flashMem.rdataReady = φ.listens := (refines cfg.toDramConfig).ready hat
    simp only [Timed.sys, hcmd, hready, ← hq, List.length_append, apply_ite List.length,
      List.length_tail, List.length_map, List.length_nil, h.stamps]
  · intro ha hin
    obtain ⟨t, ht, hle, hgap⟩ := h.gap ha hin
    exact ⟨t, ht, Nat.le_succ_of_le hle, hgap⟩
  · intro ha hin
    exact (h.stage ha hin).sys_serves h.quiet hok
  · intro ha hin hall
    exact (h.stage ha hin).passTime_sys (h.exact ha hin) hok hall

/-- **Step lemma.** Every event that meets the assumptions keeps to the schedule. -/
theorem step (h : OnSchedule idcode r L s g) (hr : 0 < r) {e : Event}
    (hspaced : Spaced r (s, g) e) (hok : Serves L (s, g) e) :
    OnSchedule idcode r L (FlashEmuLite.step idcode mem s e) (g.next idcode s e) := by
  match e with
  | .lines csn si =>
    refine h.pins hr ?_
    intro hwas hnow
    rw [hwas] at hnow
    exact absurd hnow Bool.false_ne_true
  | .sclk level =>
    refine h.pins hr ?_
    intro hwas hnow t ht
    have hgap := hspaced hnow hwas
    simpa only [ht] using hgap
  | .sys c => exact h.sys hok

/-- **Run lemma.** -/
theorem run (hr : 0 < r) {es : List Event}
    (htimed : Along (watch (FlashEmuLite.step idcode mem) (Timed.next idcode))
      (fun x e => Spaced r x e ∧ Serves L x e) (FlashEmuLite.boot cfg idcode sclk si, {}) es) :
    let x := StepMachine.run (watch (FlashEmuLite.step idcode mem) (Timed.next idcode))
      (FlashEmuLite.boot cfg idcode sclk si, {}) es
    OnSchedule idcode r L x.1 x.2 :=
  run_invariant_of_along (P := fun (x : State cfg × Timed) => OnSchedule idcode r L x.1 x.2)
    (fun _ _ hok h => h.step hr hok.1 hok.2) (boot sclk si) htimed

end OnSchedule

/-- **The time a prefetch takes.** In every run with at least one system clock edge between rising
edges of `sclk` and a port that serves each command after `L` cycles: from the rise of `paddr_valid`
to the end of the transaction, whatever the two clocks do, all beats are there exactly if as many
system clock edges as a pass takes have gone by. -/
theorem prefetch_time (cfg : LiteConfig) (idcode : BitVec 24) (mem : cfg.Addr → cfg.Word)
    (sclk si : Bool) (r L : ℕ) (hr : 0 < r) (es : List Event)
    (htimed : Along (watch (step idcode mem) (Timed.next idcode))
      (fun x e => Spaced r x e ∧ Serves L x e) (boot cfg idcode sclk si, {}) es) :
    let x := run (watch (step idcode mem) (Timed.next idcode)) (boot cfg idcode sclk si, {}) es
    x.2.armed = true → LeadIn cfg x.2.log.bits →
      (cfg.numPrefetchReads ≤ x.2.beats ↔ x.2.rose + passTime cfg L ≤ x.2.now) :=
  fun harmed hin => (OnSchedule.run hr htimed).beats_iff harmed hin

/-- Two system clock edges to a bit, and a latency of one: the four reads go out before the first
beat is taken, and when the header is in but for its last bit, all beats are there. -/
theorem prefetch_time_sixBits :
    let bits := (List.range 31).map fun i => i = 6 || i = 7
    let early := bits.zipIdx.flatMap fun (b, i) =>
      [Event.lines false b, .sclk true, .sclk false,
        .sys ⟨true, 54 ≤ 2 * i && 2 * i ≤ 60⟩, .sys ⟨true, 54 ≤ 2 * i + 1 && 2 * i + 1 ≤ 60⟩]
    let x := run (watch (step 0 fun _ => 0) (Timed.next 0))
      (boot LiteConfig.sixBits 0 false false, {}) early
    x.2.armed = true ∧ x.2.rose + passTime LiteConfig.sixBits 1 ≤ x.2.now ∧
      LiteConfig.sixBits.numPrefetchReads ≤ x.2.beats := by
  intro bits early x
  have harmed : x.2.armed = true := by decide +kernel
  have hin : LeadIn LiteConfig.sixBits x.2.log.bits := by decide +kernel
  have htime : x.2.rose + passTime LiteConfig.sixBits 1 ≤ x.2.now := by decide +kernel
  exact ⟨harmed, htime, (prefetch_time LiteConfig.sixBits 0 (fun _ => 0) false false 2 1 (by decide)
    early (by decide +kernel) harmed hin).mpr htime⟩

/-! ## The deadline, exactly -/

/-- An even pace keeps the distance. -/
theorem Paced.spaced {r : ℕ} {x : State cfg × Timed} {e : Event} (h : Paced r x e) :
    Spaced r x e := by
  match e with
  | .lines _ _ => trivial
  | .sys _ => trivial
  | .sclk level =>
    intro hnow hwas
    cases hlast : x.2.lastRise with
    | none => trivial
    | some t => exact (h hnow hwas t hlast).le

/-- On an even pace, the last rise of `sclk` is as many intervals behind that of `paddr_valid` as
bits have come in since. -/
structure OnPace (idcode : BitVec 24) (r : ℕ) (s : State cfg) (g : Timed) : Prop where
  base : Inv idcode s g.log
  pace : g.armed = true → LeadIn cfg g.log.bits → g.lastRise =
    some (g.rose + (g.log.bits.length - (32 - cfg.prefetchBits)) * r)

namespace OnPace

variable {idcode : BitVec 24} {r : ℕ} {mem : cfg.Addr → cfg.Word} {s : State cfg} {g : Timed}
  {csn sclk si : Bool}

/-- The edge of the next bit. -/
theorem next_rise (h : OnPace idcode r s g) (harmed : g.armed = true)
    (hin : LeadIn cfg g.log.bits) (hpaced : ∀ t ∈ g.lastRise, t + r = g.now) :
    g.now = g.rose + (g.log.bits.length + 1 - (32 - cfg.prefetchBits)) * r := by
  have hnow := hpaced _ (h.pace harmed hin)
  rw [Nat.sub_add_comm hin.2, Nat.succ_mul, ← hnow, Nat.add_assoc]

/-- A change of the pins keeps the pace. -/
theorem pins (h : OnPace idcode r s g)
    (hpaced : s.sclk = false → sclk = true → ∀ t ∈ g.lastRise, t + r = g.now) :
    OnPace idcode r (s.pins idcode csn sclk si) (g.pins idcode s csn sclk si) := by
  refine ⟨h.base.pins csn sclk si, fun ha hin => ?_⟩
  have hcases := OnTime.leadIn_cases h.base hin
  by_cases hup : s.regs.paddrValid = false ∧ (s.pins idcode csn sclk si).regs.paddrValid = true
  · -- `paddr_valid` rises with `sclk`
    obtain ⟨hrose, -, -⟩ := @Timed.pins_of_up _ _ g _ _ _ _ hup.1 hup.2
    rcases hcases with ⟨-, -, hsame⟩ | ⟨hwas, hrise, -⟩
    · rw [hup.1, hup.2] at hsame
      exact absurd hsame.symm Bool.false_ne_true
    · have hlen : (g.pins idcode s csn sclk si).log.bits.length = 32 - cfg.prefetchBits := by
        rcases h.base.paddrValid_pins hup.2 with ⟨-, hold⟩ | ⟨-, -, -, hlen⟩
        · rw [hup.1] at hold
          exact absurd hold Bool.false_ne_true
        · exact hlen
      rw [Timed.lastRise_of_rise hwas hrise, hrose, hlen, Nat.sub_self, zero_mul, add_zero]
  · have hno : (!s.regs.paddrValid && (s.pins idcode csn sclk si).regs.paddrValid) = false := by
      rw [← Bool.not_eq_true, Bool.and_eq_true, Bool.not_eq_true']
      exact hup
    obtain ⟨hrose, -, harmed⟩ := @Timed.pins_of_not_up _ _ g _ _ _ _ hno
    have hold : LeadIn cfg g.log.bits := by
      by_contra hnot
      exact hup (OnTime.up_of_leadIn h.base hin hnot)
    rw [harmed] at ha
    rw [hrose]
    rcases hcases with ⟨hbits, hlast, -⟩ | ⟨hwas, hrise, hmore⟩
    · rw [hbits, hlast]
      exact h.pace ha hold
    · rw [Timed.lastRise_of_rise hwas hrise, hmore]
      exact congrArg some (h.next_rise ha hold (hpaced hwas hrise))

/-- **Step lemma.** -/
theorem step (h : OnPace idcode r s g) {e : Event} (hpaced : Paced r (s, g) e) :
    OnPace idcode r (FlashEmuLite.step idcode mem s e) (g.next idcode s e) := by
  match e with
  | .lines csn si =>
    refine h.pins fun hwas hnow => ?_
    rw [hwas] at hnow
    exact absurd hnow Bool.false_ne_true
  | .sclk level => exact h.pins fun hwas hnow => hpaced hnow hwas
  | .sys c => exact ⟨h.base.step (.sys c), h.pace⟩

end OnPace

/-- At the edge that enters `read_get_data`, on an even pace, all beats are there exactly if a pass
fits into the intervals of the bits within the window. -/
theorem beats_iff_of_enters {idcode : BitVec 24} {r L : ℕ} {mem : cfg.Addr → cfg.Word}
    {s : State cfg} {g : Timed} {e : Event} (h : OnSchedule idcode r L s g)
    (hpace : OnPace idcode r s g) (hpaced : Paced r (s, g) e)
    (henters : EntersData idcode mem s e) (harmed : g.armed = true) :
    cfg.numPrefetchReads ≤ g.beats ↔ passTime cfg L ≤ r * cfg.prefetchBits := by
  obtain ⟨hnot, hdata⟩ := henters
  have hlt := cfg.lt
  match e with
  | .lines csn si =>
    obtain ⟨hwas, hnow, -⟩ := OnTime.data_of_enters h.base hdata hnot
    rw [hwas] at hnow
    exact absurd hnow Bool.false_ne_true
  | .sys c => exact absurd hdata hnot
  | .sclk level =>
    obtain ⟨hwas, hnow, hin, hlen⟩ := OnTime.data_of_enters h.base hdata hnot
    have htime := hpace.next_rise harmed hin (hpaced hnow hwas)
    have hbits : g.log.bits.length + 1 - (32 - cfg.prefetchBits) = cfg.prefetchBits := by omega
    rw [h.beats_iff harmed hin, htime, hbits, mul_comm cfg.prefetchBits]
    omega

/-- Whether all beats are there in time, along a run on an even pace. -/
theorem along_beats_iff {cfg : LiteConfig} {idcode : BitVec 24} {mem : cfg.Addr → cfg.Word}
    {sclk si : Bool} {r L : ℕ} (hr : 0 < r) {es : List Event}
    (htimed : Along (watch (step idcode mem) (Timed.next idcode))
      (fun x e => Paced r x e ∧ Serves L x e) (boot cfg idcode sclk si, {}) es) :
    Along (watch (step idcode mem) (Timed.next idcode))
      (fun x e => EntersData idcode mem x.1 e → x.2.armed = true →
        (cfg.numPrefetchReads ≤ x.2.beats ↔ passTime cfg L ≤ r * cfg.prefetchBits))
      (boot cfg idcode sclk si, {}) es :=
  htimed.imp
    (P := fun (x : State cfg × Timed) => OnSchedule idcode r L x.1 x.2 ∧ OnPace idcode r x.1 x.2)
    (fun _ e hok h => ⟨h.1.step hr hok.1.spaced hok.2, h.2.step (e := e) hok.1⟩)
    (fun _ e h hok henters harmed => beats_iff_of_enters (e := e) h.1 h.2 hok.1 henters harmed)
    ⟨OnSchedule.boot sclk si, Inv.boot sclk si, fun ha => absurd ha Bool.false_ne_true⟩

/-- **The deadline, exactly.** On an even pace of `r` system clock edges to a bit, at a port that
serves each command after `L` cycles, all beats are there when the read starts to deliver data
exactly if `n + max n L + 3 ≤ r * prefetch_bits` for a pass of `n` reads: in every run it is met, or
in every run it is missed. -/
theorem deadline_iff (cfg : LiteConfig) (idcode : BitVec 24) (mem : cfg.Addr → cfg.Word)
    (sclk si : Bool) (r L : ℕ) (hr : 0 < r) (es : List Event)
    (htimed : Along (watch (step idcode mem) (Timed.next idcode))
      (fun x e => Paced r x e ∧ Serves L x e) (boot cfg idcode sclk si, {}) es) :
    Along (watch (step idcode mem) (Timed.next idcode))
      (fun x e => EntersData idcode mem x.1 e → x.2.armed = true →
        (cfg.numPrefetchReads ≤ x.2.beats ↔ passTime cfg L ≤ r * cfg.prefetchBits))
      (boot cfg idcode sclk si, {}) es :=
  along_beats_iff hr htimed

/-- One system clock edge to a bit is too few for four reads and a latency of four: when the read
starts to deliver data, the beats are not there. -/
theorem deadline_iff_missed :
    let bits := (List.range 31).map fun i => i = 6 || i = 7
    let early := bits.flatMap fun b =>
      [Event.lines false b, .sclk true, .sclk false, .sys ⟨true, false⟩]
    let x := run (watch (step 0 fun _ => 0) (Timed.next 0))
      (boot LiteConfig.sixBits 0 false false, {}) early
    EntersData 0 (fun _ => 0) x.1 (.sclk true) ∧ x.2.armed = true ∧
      ¬ LiteConfig.sixBits.numPrefetchReads ≤ x.2.beats := by
  intro bits early x
  have hall := deadline_iff LiteConfig.sixBits 0 (fun _ => 0) false false 1 4 (by decide)
    (early ++ [.sclk true]) (by decide +kernel)
  have henters : EntersData 0 (fun _ => 0) x.1 (.sclk true) := by decide +kernel
  have harmed : x.2.armed = true := by decide +kernel
  have hlong : ¬ passTime LiteConfig.sixBits 4 ≤ 1 * LiteConfig.sixBits.prefetchBits := by decide
  exact ⟨henters, harmed, ((along_concat.mp hall).2 henters harmed).not.mpr hlong⟩

end FlashEmuLite

/-! ## The budget of `calc.py` -/

namespace Calc

/-- `dfi_latency` -/
def dfiLatency : ℤ := 11

/-- `clk_ratio` -/
def clkRatio : ℤ := 4

/-- `word_width` -/
def wordWidth : ℤ := 16

/-- `sys_clk_for_read_n` -/
def sysClkForReadN (n : ℤ) : ℤ := dfiLatency + n

/-- `sys_clk_to_read_n` -/
def sysClkToReadN (n : ℤ) : ℤ := n - dfiLatency

/-- `num_guesses` for `i` bits of the address to come -/
def numGuesses (i : ℕ) : ℤ := 2 ^ i

/-- `sys_clks`, with `spi_clks = i` -/
def sysClks (i : ℕ) : ℤ := clkRatio * i

/-- `n_reads` -/
def nReads (i : ℕ) : ℤ := sysClkToReadN (sysClks i) + 1

/-- `num_bytes` -/
def numBytes (i : ℕ) : ℤ := wordWidth * nReads i

/-- `n_reads_to_get_guesses` -/
def nReadsToGetGuesses (i : ℕ) : ℤ := ⌈(numGuesses i / wordWidth : ℚ)⌉

/-- `sys_clks_to_get_guesses` -/
def sysClksToGetGuesses (i : ℕ) : ℤ := sysClkForReadN (nReadsToGetGuesses i - 1)

/-- `slack_sys_clks` -/
def slackSysClks (i : ℕ) : ℤ := sysClks i - sysClksToGetGuesses i

/-- **The two budgets agree**: there is slack exactly if the bytes read ahead cover the guesses. -/
theorem slackSysClks_nonneg_iff (i : ℕ) : 0 ≤ slackSysClks i ↔ numGuesses i ≤ numBytes i := by
  have hslack : slackSysClks i = nReads i - nReadsToGetGuesses i := by
    rw [slackSysClks, sysClksToGetGuesses, sysClkForReadN, nReads, sysClkToReadN]
    ring
  have hwidth : (0 : ℚ) < wordWidth := by norm_num [wordWidth]
  calc 0 ≤ slackSysClks i ↔ nReadsToGetGuesses i ≤ nReads i := by rw [hslack, sub_nonneg]
    _ ↔ (numGuesses i : ℚ) ≤ nReads i * wordWidth := by
        rw [nReadsToGetGuesses, Int.ceil_le, div_le_iff₀ hwidth]
    _ ↔ numGuesses i ≤ numBytes i := by
        rw [numBytes, mul_comm wordWidth]
        exact_mod_cast Iff.rfl

/-- The reads budgeted for are those of a prefetch of `i` bits over a 128-bit port. -/
theorem nReadsToGetGuesses_eq {i : ℕ} (hi : 4 ≤ i) : nReadsToGetGuesses i = 2 ^ (i - 4) := by
  have hpow : (numGuesses i / wordWidth : ℚ) = ((2 ^ (i - 4) : ℤ) : ℚ) := by
    have hsplit : (2 : ℚ) ^ i = 2 ^ (i - 4) * 2 ^ 4 := by
      rw [← pow_add, Nat.sub_add_cancel hi]
    rw [numGuesses, wordWidth]
    push_cast
    rw [hsplit]
    norm_num
  rw [nReadsToGetGuesses, hpow, Int.ceil_intCast]

end Calc

namespace FlashEmuLite

/-- A pass fits if the slack covers what the budget leaves out: the synchroniser and the way out of
`IDLE`, and the reads that come in late because the prefetcher launches the rest first. -/
theorem passTime_le_iff {cfg : LiteConfig} (hk : cfg.k = 4) :
    passTime cfg 11 ≤ 4 * cfg.prefetchBits ↔
      max 0 (Calc.nReadsToGetGuesses cfg.prefetchBits - Calc.dfiLatency) + 4 ≤
        Calc.slackSysClks cfg.prefetchBits := by
  have hle : 4 ≤ cfg.prefetchBits := hk ▸ cfg.le
  have hreads : Calc.nReadsToGetGuesses cfg.prefetchBits = (cfg.numPrefetchReads : ℤ) := by
    rw [Calc.nReadsToGetGuesses_eq hle, DramConfig.numPrefetchReads_eq, hk]
    push_cast
    rfl
  rw [Calc.slackSysClks, Calc.sysClksToGetGuesses, Calc.sysClkForReadN, Calc.sysClks, hreads,
    Calc.dfiLatency, Calc.clkRatio, passTime]
  omega

/-- **What `calc.py` leaves out.** At its clock ratio and latency, over a 128-bit port and on an
even pace, all beats of a prefetch are there when the read starts to deliver data exactly if the
slack it prints for `prefetch_bits` bits is at least 4, and more than that by each read beyond the
latency. -/
theorem deadline_iff_slack (cfg : LiteConfig) (hk : cfg.k = 4) (idcode : BitVec 24)
    (mem : cfg.Addr → cfg.Word) (sclk si : Bool) (es : List Event)
    (htimed : Along (watch (step idcode mem) (Timed.next idcode))
      (fun x e => Paced 4 x e ∧ Serves 11 x e) (boot cfg idcode sclk si, {}) es) :
    Along (watch (step idcode mem) (Timed.next idcode))
      (fun x e => EntersData idcode mem x.1 e → x.2.armed = true →
        (cfg.numPrefetchReads ≤ x.2.beats ↔
          max 0 (Calc.nReadsToGetGuesses cfg.prefetchBits - Calc.dfiLatency) + 4 ≤
            Calc.slackSysClks cfg.prefetchBits))
      (boot cfg idcode sclk si, {}) es := by
  rw [← passTime_le_iff hk]
  exact along_beats_iff (by decide) htimed

/-- At `prefetch_bits = 6` the slack is 10, which is enough: the beats of four reads come with edges
114 to 117 of the 124 before the read starts to deliver data. -/
theorem deadline_iff_slack_sixBits :
    let bits := (List.range 31).map fun i => i = 6 || i = 7
    let early := bits.zipIdx.flatMap fun (b, i) =>
      [Event.lines false b, .sclk true, .sclk false] ++
        (List.range 4).map fun j => .sys ⟨true, 114 ≤ 4 * i + j && 4 * i + j ≤ 117⟩
    let x := run (watch (step 0 fun _ => 0) (Timed.next 0))
      (boot LiteConfig.sixBits 0 false false, {}) early
    EntersData 0 (fun _ => 0) x.1 (.sclk true) ∧ x.2.armed = true ∧ Calc.slackSysClks 6 = 10 ∧
      LiteConfig.sixBits.numPrefetchReads ≤ x.2.beats := by
  intro bits early x
  have hall := deadline_iff_slack LiteConfig.sixBits rfl 0 (fun _ => 0) false false
    (early ++ [.sclk true]) (by decide +kernel)
  have henters : EntersData 0 (fun _ => 0) x.1 (.sclk true) := by decide +kernel
  have harmed : x.2.armed = true := by decide +kernel
  have hreads : Calc.nReadsToGetGuesses 6 = 4 := Calc.nReadsToGetGuesses_eq (by decide)
  have hslack : Calc.slackSysClks 6 = 10 := by
    rw [Calc.slackSysClks, Calc.sysClksToGetGuesses, hreads]
    rfl
  refine ⟨henters, harmed, hslack, ((along_concat.mp hall).2 henters harmed).mpr ?_⟩
  rw [show LiteConfig.sixBits.prefetchBits = 6 from rfl, hreads, hslack]
  decide

end FlashEmuLite

end LiteSpiH4x
