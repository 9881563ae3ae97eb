import LiteSpiH4x.Dram.FlashEmuDRAMLite
import LiteSpiH4x.StepMachine.Run

/-! # What a prefetch pass leaves in its registers

`RD_LAND` writes `pf_regs[num_prefetch_reads - rd_cnt]`. The counter runs from
`num_prefetch_reads - 1` down, so beat `j` goes to register `j + 1`, and the last beat, whose
index is out of range, to the last register once more.

* **`landed`** — the registers after some beats, `landed_apply` its closed form.
* **`Filling`** — the invariant of a pass at a port that holds its beats.
* **`fill_iff`** — the registers hold the window exactly if there is one register, or register 0
  held its word before and the words in between repeat. -/

namespace LiteSpiH4x

open Digital ReadPort StepMachine

namespace FlashEmuDRAMLite

/-- An array of `n` registers after beats `0, …, j - 1` have landed one register too high. -/
def landed {n : ℕ} [NeZero n] {D : Type*} (pf : Fin n → D) (beat : ℕ → D) : ℕ → Fin n → D
  | 0 => pf
  | j + 1 => Function.update (landed pf beat j) (clampIndex n (j + 1)) (beat j)

/-- **Where the beats end up.** An inner register `i ≥ 1` gets beat `i - 1`; the last register
gets the last two beats, one after the other; register 0 gets none, unless it is the only one. -/
theorem landed_apply {n : ℕ} [NeZero n] {D : Type*} (pf : Fin n → D) (beat : ℕ → D) {j : ℕ}
    (hj : j ≤ n) (i : Fin n) :
    landed pf beat j i =
      if (i : ℕ) + 1 < n then (if 1 ≤ (i : ℕ) ∧ (i : ℕ) ≤ j then beat (i - 1) else pf i)
      else (if 1 ≤ j ∧ n ≤ j + 1 then beat (j - 1) else pf i) := by
  have hi := i.isLt
  induction j with
  | zero =>
    rw [landed]
    split
    · rw [if_neg (by omega)]
    · rw [if_neg (by omega)]
  | succ j ih =>
    have hclamp : i = clampIndex n (j + 1) ↔ (i : ℕ) = min (j + 1) (n - 1) := by
      rw [Fin.ext_iff, val_clampIndex]
    -- beat `j` overwrites register `min (j + 1) (n - 1)` and leaves the others
    rw [landed, Function.update_apply, ih (by omega), Nat.add_sub_cancel]
    grind

/-- **The registers after a whole pass.** -/
theorem landed_all {n : ℕ} [NeZero n] {D : Type*} (pf : Fin n → D) (beat : ℕ → D) (i : Fin n) :
    landed pf beat n i =
      if (i : ℕ) + 1 = n then beat i else if (i : ℕ) = 0 then pf i else beat (i - 1) := by
  have hi := i.isLt
  rw [landed_apply pf beat le_rfl i]
  grind

/-- Register `i` ends up with beat `i`, for every `i`, only where the off-by-one cannot be seen. -/
theorem landed_all_eq_iff {n : ℕ} [NeZero n] {D : Type*} (pf : Fin n → D) (beat : ℕ → D) :
    (∀ i : Fin n, landed pf beat n i = beat i) ↔
      n = 1 ∨ (pf 0 = beat 0 ∧ ∀ i, 1 ≤ i → i + 1 < n → beat (i - 1) = beat i) := by
  have hn : 0 < n := NeZero.pos n
  constructor
  · intro h
    rcases Nat.lt_or_ge 1 n with hlt | hle
    -- register 0 is never written, and register `i` shows beat `i - 1`
    · refine Or.inr ⟨?_, ?_⟩
      · have h0 := h 0
        rwa [landed_all, Fin.val_zero, if_neg (by omega), if_pos rfl] at h0
      · intro i h1 hi
        have hi' := h ⟨i, by omega⟩
        rwa [landed_all, if_neg (by simp only; omega), if_neg (by simp only; omega)] at hi'
    · exact Or.inl (by omega)
  · rintro (h1 | ⟨h0, hrep⟩) i
    · rw [landed_all, if_pos (by omega)]
    · have hi := i.isLt
      rw [landed_all]
      split
      · rfl
      · split
        · rename_i hlast hzero
          have hi0 : i = 0 := Fin.ext hzero
          rw [hi0, h0, Fin.val_zero]
        · exact hrep i (by omega) (by omega)

variable {cfg : DramConfig}

/-- The word that beat `j` of a pass at `base` carries. -/
def beat (mem : cfg.Addr → cfg.Word) (base : cfg.Addr) (j : ℕ) : cfg.Word :=
  mem (base + BitVec.ofNat _ j)

/-- A cycle in which a beat is presented and taken. -/
def lands (x : FlashEmuDRAMLite cfg × List cfg.Addr) (c : Cycle) : Bool :=
  x.1.rdataReady && (presented x.2 c).isSome

/-- The prefetcher and its port during a pass at `base` that found `pf` in the registers, by the
number of beats landed, and after it. -/
inductive Filling (mem : cfg.Addr → cfg.Word) (pf : Fin cfg.numPrefetchReads → cfg.Word)
    (base : cfg.Addr) : ℕ → FlashEmuDRAMLite cfg × List cfg.Addr → Prop
  | launch {s : FlashEmuDRAMLite cfg} {i : ℕ} (h : At s (.launch (burst cfg base) i))
      (hpf : s.pfRegs = pf) :
      Filling mem pf base 0 (s, Phase.outstanding (.launch (burst cfg base) i))
  | land {s : FlashEmuDRAMLite cfg} {j : ℕ} (h : At s (.land (burst cfg base) j))
      (hpf : s.pfRegs = landed pf (beat mem base) j) :
      Filling mem pf base j (s, Phase.outstanding (.land (burst cfg base) j))
  | done {s : FlashEmuDRAMLite cfg} (h : At s .quiet)
      (hpf : s.pfRegs = landed pf (beat mem base) cfg.numPrefetchReads) :
      Filling mem pf base cfg.numPrefetchReads (s, [])

/-- An idle prefetcher with nothing outstanding stays so while no address is valid. -/
theorem heldStep_wait {s : FlashEmuDRAMLite cfg} (hs : s.state = .idle)
    {mem : cfg.Addr → cfg.Word} {paddr : BitVec 24} {c : Cycle} :
    (master cfg).heldStep mem (s, []) ((paddr, false), c) =
      (s.next paddr false c.ready none, []) := by
  simp [Master.heldStep, Master.accepted, master, rdataReady, cmd, hs]

namespace Filling

variable {mem : cfg.Addr → cfg.Word} {pf : Fin cfg.numPrefetchReads → cfg.Word} {base : cfg.Addr}
  {j : ℕ} {x : FlashEmuDRAMLite cfg × List cfg.Addr}

/-- In a cycle that leads from phase `φ` to phase `φ'`, the port's commands follow. -/
private theorem heldStep_eq {s : FlashEmuDRAMLite cfg} {φ φ' : Phase cfg.Addr} (h : At s φ)
    (e : (BitVec 24 × Bool) × Cycle)
    (hstep : Phase.Step φ e.2.ready (presented φ.outstanding e.2).isSome φ') :
    (master cfg).heldStep mem (s, φ.outstanding) e =
      (s.next e.1.1 e.1.2 e.2.ready ((presented φ.outstanding e.2).map mem), φ'.outstanding) :=
  Prod.ext rfl ((refines cfg).heldStep_snd h h.proper hstep)

/-- A pass has started: nothing was outstanding, and the registers are as they were. -/
theorem start {s : FlashEmuDRAMLite cfg} (h : At s .quiet) (paddr : BitVec 24) (c : Cycle) :
    Filling mem s.pfRegs (wordAddr cfg paddr) 0
      ((master cfg).heldStep mem (s, []) ((paddr, true), c)) := by
  have hstep := @heldStep_eq _ mem _ _ _ h ((paddr, true), c)
    (.start (b := burst cfg (wordAddr cfg paddr)) cfg.numPrefetchReads_pos)
  rw [Phase.outstanding] at hstep
  rw [hstep]
  refine .launch h.start ?_
  cases h with
  | idle hs => simp only [next, hs]

/-- A cycle of the launch lands nothing. -/
theorem step_launch {s : FlashEmuDRAMLite cfg} {i : ℕ} (h : At s (.launch (burst cfg base) i))
    (hpf : s.pfRegs = pf) (e : (BitVec 24 × Bool) × Cycle) :
    Filling mem pf base 0 ((master cfg).heldStep mem
      (s, Phase.outstanding (.launch (burst cfg base) i)) e) := by
  obtain ⟨⟨paddr, paddrValid⟩, ⟨ready, valid⟩⟩ := e
  have hi : i < cfg.numPrefetchReads := h.proper
  have hkeep : ∀ rdata, (s.next paddr paddrValid ready rdata).pfRegs = pf := by
    intro rdata
    rw [← hpf, h.pfRegs_launch]
  cases ready with
  | false =>
    rw [heldStep_eq h _ .stall]
    refine .launch ?_ (hkeep _)
    rw [h.next_stall]
    exact h
  | true =>
    have hissue : At (s.next paddr paddrValid true ((presented
        (Phase.outstanding (.launch (burst cfg base) i)) ⟨true, valid⟩).map mem)) _ := h.issue
    by_cases hlast : i + 1 = cfg.numPrefetchReads
    · rw [if_pos hlast] at hissue
      rw [heldStep_eq h _ (.issueLast hlast)]
      exact .land hissue (hkeep _)
    · rw [if_neg hlast] at hissue
      rw [heldStep_eq h _ (.issue (Nat.lt_of_le_of_ne hi hlast))]
      exact .launch hissue (hkeep _)

/-- A cycle of the landing. -/
theorem step_land {s : FlashEmuDRAMLite cfg} (h : At s (.land (burst cfg base) j))
    (hpf : s.pfRegs = landed pf (beat mem base) j) (e : (BitVec 24 × Bool) × Cycle) :
    Filling mem pf base
      (j + (lands (s, Phase.outstanding (.land (burst cfg base) j)) e.2).toNat)
      ((master cfg).heldStep mem (s, Phase.outstanding (.land (burst cfg base) j)) e) := by
  obtain ⟨⟨paddr, paddrValid⟩, ⟨ready, valid⟩⟩ := e
  have hj : j < cfg.numPrefetchReads := h.proper
  have hlistens : s.rdataReady = true := (refines cfg).ready h
  have hbeat := Master.presented_land (b := burst cfg base) hj ⟨ready, valid⟩
  cases valid with
  | false =>
    have hnone : presented (Phase.outstanding (.land (burst cfg base) j)) ⟨ready, false⟩ = none :=
      hbeat
    rw [heldStep_eq h _ (by rw [hnone]; exact .await), lands, hnone, Option.map_none, h.next_await,
      Option.isSome_none, Bool.and_false, Bool.toNat_false, Nat.add_zero]
    exact .land h hpf
  | true =>
    have hsome : presented (Phase.outstanding (.land (burst cfg base) j)) ⟨ready, true⟩ =
        some (base + BitVec.ofNat _ j) := hbeat
    have htake : At (s.next paddr paddrValid ready (some (mem (base + BitVec.ofNat _ j)))) _ :=
      h.take _
    have hlanded : (s.next paddr paddrValid ready (some (mem (base + BitVec.ofNat _ j)))).pfRegs =
        landed pf (beat mem base) (j + 1) := by
      rw [h.pfRegs_take, hpf, landed, beat]
    rw [lands, hlistens, hsome, Option.isSome_some, Bool.and_self, Bool.toNat_true]
    by_cases hlast : j + 1 = cfg.numPrefetchReads
    · rw [if_pos hlast] at htake
      rw [heldStep_eq h _ (by rw [hsome]; exact .takeLast hlast), hsome, hlast]
      exact .done htake (hlanded.trans (congrArg (landed pf (beat mem base)) hlast))
    · rw [if_neg hlast] at htake
      rw [heldStep_eq h _ (by rw [hsome]; exact .take (Nat.lt_of_le_of_ne hj hlast)), hsome]
      exact .land htake hlanded

/-- **Step lemma.** A cycle of a pass in progress. -/
theorem step (h : Filling mem pf base j x) (hbusy : x.1.state ≠ .idle)
    (e : (BitVec 24 × Bool) × Cycle) :
    Filling mem pf base (j + (lands x e.2).toNat) ((master cfg).heldStep mem x e) := by
  cases h with
  | @launch s i h hpf =>
    have hdeaf : s.rdataReady = false := (refines cfg).ready h
    rw [lands, hdeaf, Bool.false_and, Bool.toNat_false]
    exact step_launch h hpf e
  | land h hpf => exact step_land h hpf e
  | done h hpf =>
    cases h with
    | idle hs => exact absurd hs hbusy

/-- A pass in progress has beats to land, and the registers show those that have. -/
theorem pfRegs_of_busy (h : Filling mem pf base j x) (hbusy : x.1.state ≠ .idle) :
    j < cfg.numPrefetchReads ∧ x.1.pfRegs = landed pf (beat mem base) j := by
  cases h with
  | launch h hpf => exact ⟨cfg.numPrefetchReads_pos, hpf⟩
  | land h hpf => exact ⟨h.proper, hpf⟩
  | done h hpf =>
    cases h with
    | idle hs => exact absurd hs hbusy

/-- Idle again, the pass is done and nothing is outstanding. -/
theorem done_of_idle (h : Filling mem pf base j x) (hidle : x.1.state = .idle) :
    At x.1 .quiet ∧ x.2 = [] ∧
      x.1.pfRegs = landed pf (beat mem base) cfg.numPrefetchReads := by
  cases h with
  | launch h hpf => exact absurd (h.idle_iff.mp hidle) nofun
  | land h hpf => exact absurd (h.idle_iff.mp hidle) nofun
  | done h hpf => exact ⟨h, rfl, hpf⟩

end Filling

/-- **When the right registers are filled.** A pass that leaves `IDLE` with the window address
`paddr` and returns there leaves in register `i` the word at `(paddr >> 4) + i`, for every `i`,
exactly if there is but one register, or register 0 held its word before the pass and every inner
register's word equals the one before it. -/
theorem fill_iff (cfg : DramConfig) (mem : cfg.Addr → cfg.Word) (s : FlashEmuDRAMLite cfg)
    (hs : s.state = .idle) (paddr : BitVec 24) (c : Cycle)
    (es : List ((BitVec 24 × Bool) × Cycle))
    (hbusy : Along ((master cfg).heldStep mem) (fun x _ => x.1.state ≠ .idle)
      ((master cfg).heldStep mem (s, []) ((paddr, true), c)) es)
    (hdone : (run ((master cfg).heldStep mem) (s, [])
      (((paddr, true), c) :: es)).1.state = .idle) :
    (∀ i : Fin cfg.numPrefetchReads,
        (run ((master cfg).heldStep mem) (s, []) (((paddr, true), c) :: es)).1.pfRegs i =
          mem (wordAddr cfg paddr + BitVec.ofNat _ i)) ↔
      cfg.numPrefetchReads = 1 ∨
        (s.pfRegs 0 = mem (wordAddr cfg paddr) ∧
          ∀ i, 1 ≤ i → i + 1 < cfg.numPrefetchReads →
            mem (wordAddr cfg paddr + BitVec.ofNat _ (i - 1)) =
              mem (wordAddr cfg paddr + BitVec.ofNat _ i)) := by
  obtain ⟨j, hrun⟩ : ∃ j, Filling mem s.pfRegs (wordAddr cfg paddr) j
      (run ((master cfg).heldStep mem) (s, []) (((paddr, true), c) :: es)) :=
    run_invariant_of_along (P := fun x => ∃ j, Filling mem s.pfRegs (wordAddr cfg paddr) j x)
      (fun _ e hb ⟨_, h⟩ => ⟨_, h.step hb e⟩) ⟨0, Filling.start (.idle hs) paddr c⟩ hbusy
  -- the pass in progress is `Filling` to its end, and idle again it is done
  have hiff := landed_all_eq_iff s.pfRegs (beat mem (wordAddr cfg paddr))
  rw [(hrun.done_of_idle hdone).2.2]
  simpa only [beat, BitVec.add_zero] using hiff

/-- A pass of two reads at a port that is always ready, over words equal to their addresses 4 and 5.
Register 0 held the first of them, so both registers are right. -/
theorem fill_iff_two_reads :
    let cfg : DramConfig := ⟨4, 5, 20, by decide⟩
    let s : FlashEmuDRAMLite cfg := { boot cfg with pfRegs := fun i => if i = 0 then 4 else 0 }
    let es : List ((BitVec 24 × Bool) × Cycle) := List.replicate 4 ((0, false), ⟨true, true⟩)
    let x := run ((master cfg).heldStep fun a => a.setWidth _) (s, [])
      (((0x40, true), ⟨true, true⟩) :: es)
    x.1.state = .idle ∧ ∀ i : Fin cfg.numPrefetchReads,
      x.1.pfRegs i = (wordAddr cfg 0x40 + BitVec.ofNat _ i).setWidth _ := by
  intro cfg s es x
  have hdone : x.1.state = .idle := by decide
  refine ⟨hdone, (fill_iff cfg (fun a => a.setWidth _) s rfl 0x40 ⟨true, true⟩ es
    (by decide) hdone).mpr (Or.inr ⟨by decide, ?_⟩)⟩
  -- of two registers none is an inner one
  intro i h1 hi
  rw [show cfg.numPrefetchReads = 2 by decide] at hi
  omega

/-- A window of four words, each equal to its address, read into cleared registers: register 0 is
left out, and register 1 holds the first word. -/
theorem fill_four_reads :
    let cfg : DramConfig := ⟨4, 6, 20, by decide⟩
    let es : List ((BitVec 24 × Bool) × Cycle) := List.replicate 8 ((0, false), ⟨true, true⟩)
    let x := run ((master cfg).heldStep fun a => a.setWidth _) (boot cfg, [])
      (((0x40, true), ⟨true, true⟩) :: es)
    x.1.state = .idle ∧
      ¬ ∀ i : Fin cfg.numPrefetchReads,
        x.1.pfRegs i = (wordAddr cfg 0x40 + BitVec.ofNat _ i).setWidth _ := by
  intro cfg es x
  refine ⟨by decide, ?_⟩
  intro h
  have h1 : x.1.pfRegs 1 = (4 : cfg.Word) := by decide
  have h1' := h 1
  rw [h1] at h1'
  exact absurd h1' (by decide)

end FlashEmuDRAMLite

end LiteSpiH4x
