import LiteSpiH4x.Dram.FlashEmuDRAM
import LiteSpiH4x.Dram.FlashEmuDRAMLite
import LiteSpiH4x.ReadPort.Journal
import LiteSpiH4x.ReadPort.Recovery

/-! # The passes of the two readers

At a port that holds its beats, neither reader skips or repeats a read, whatever the port's
schedule and however many passes it makes. The prefetcher uses one counter in three roles, the
host-programmed reader its own CSRs as counters; both find them as they should be at the start of
every pass.

* **`FlashEmuDRAMLite.prefetch_passes`** — every pass of the prefetcher, and what it finds in
  `IDLE`.
* **`FlashEmuDRAM.fill_passes`** — every pass of the host-programmed reader while the trigger is
  held.
* **`prefetch_ends`** / **`fill_ends`** — and every pass ends, at a port that goes on accepting
  commands and answering them. -/

namespace LiteSpiH4x

open ReadPort StepMachine Master

namespace FlashEmuDRAMLite

variable {cfg : DramConfig}

/-- A pass is over the words from the one of the window address captured. -/
def Opens (cfg : DramConfig) (i : BitVec 24 × Bool) (b : Burst cfg.Addr) : Prop :=
  i.2 = true ∧ b = burst cfg (wordAddr cfg i.1)

/-- The prefetcher runs in passes. -/
theorem runs (cfg : DramConfig) (mem : cfg.Addr → cfg.Word) :
    (master cfg).Runs mem (fun _ _ _ _ => True) At (Opens cfg) (fun _ s => s.state = .idle) where
  refines := refines cfg
  opens := by
    rintro s ⟨paddr, paddrValid⟩ cmdReady rdata b hs - hlaunch
    have hidle := hs.idle_iff.mpr rfl
    cases paddrValid with
    | false =>
      have hwait := (hs.wait : At (s.next paddr false cmdReady rdata) .quiet).idle_iff.mpr rfl
      exact absurd (hlaunch.idle_iff.mp hwait) nofun
    | true =>
      refine ⟨rfl, ?_⟩
      have haddr := readAddr_of_idle hidle paddr cmdReady rdata
      cases hlaunch with
      | launch base i hi hs' hcnt hbase =>
        have hbase' : wordAddr cfg paddr = base := by
          rw [← haddr]
          exact hbase.trans (BitVec.add_zero base)
        rw [hbase']
  done := fun _ _ _ h => h.idle_iff.mpr rfl
  keeps := by
    rintro s ⟨paddr, paddrValid⟩ cmdReady rdata b hs - hquiet
    have hidle := hquiet.idle_iff.mpr rfl
    cases hs with
    | launch base i hi hs hcnt haddr =>
      simp only [master, next, hs] at hidle
      split at hidle
      · split at hidle <;> cases hidle
      · rw [hs] at hidle
        cases hidle

/-- In `IDLE` with a valid address, the counter is at its start and the launch begins. -/
theorem next_of_idle {s : FlashEmuDRAMLite cfg} (hs : s.state = .idle) (paddr : BitVec 24)
    (cmdReady : Bool) (rdata : Option cfg.Word) :
    (s.next paddr true cmdReady rdata).state = .rdLaunch ∧
      (s.next paddr true cmdReady rdata).rdCnt.toNat = cfg.numPrefetchReads - 1 := by
  refine ⟨?_, ?_⟩
  · simp only [next, hs, if_true]
  · have hcnt : (s.next paddr true cmdReady rdata).rdCnt = rdCntAt cfg 0 := by
      simp only [next, hs, rdCntReset, rdCntAt, Nat.sub_zero]
    rw [hcnt, toNat_rdCntAt, Nat.sub_zero]

/-- **The passes of the prefetcher.** After every run from power-on: every pass that has ended had
its commands accepted for the `num_prefetch_reads` words from the one of the address captured on
leaving `IDLE`, in order, and took exactly their beats; a pass in `RD_LAUNCH` has had the first of
them accepted and taken nothing, a pass in `RD_LAND` has had all of them accepted and taken the
first of their beats; and in `IDLE` nothing is outstanding, and the next pass starts with the
counter at `num_prefetch_reads - 1`. -/
theorem prefetch_passes (cfg : DramConfig) (mem : cfg.Addr → cfg.Word)
    (es : List ((BitVec 24 × Bool) × Cycle)) :
    let x := run ((master cfg).journalHeld mem) ((boot cfg, []), {}) es
    let words := fun (paddr : BitVec 24) (i : ℕ) =>
      (List.range i).map fun t => wordAddr cfg paddr + BitVec.ofNat cfg.addressWidth t
    (∀ p ∈ x.2.closed, ∃ paddr, p.input = some (paddr, true) ∧
      p.book.issued = words paddr cfg.numPrefetchReads ∧
      p.book.taken = words paddr cfg.numPrefetchReads) ∧
    (x.1.1.state = .rdLaunch → ∃ paddr, ∃ i < cfg.numPrefetchReads,
      x.2.input = some (paddr, true) ∧ x.2.book.issued = words paddr i ∧ x.2.book.taken = []) ∧
    (x.1.1.state = .rdLand → ∃ paddr, ∃ j < cfg.numPrefetchReads,
      x.2.input = some (paddr, true) ∧ x.2.book.issued = words paddr cfg.numPrefetchReads ∧
        x.2.book.taken = words paddr j) ∧
    (x.1.1.state = .idle → x.1.2 = [] ∧ ∀ paddr cmdReady rdata,
      (x.1.1.next paddr true cmdReady rdata).state = .rdLaunch ∧
        (x.1.1.next paddr true cmdReady rdata).rdCnt.toNat = cfg.numPrefetchReads - 1) := by
  intro x words
  have hkept : Journal.Kept At (Opens cfg) (fun _ s => s.state = .idle) x :=
    (runs cfg mem).kept_run (.idle rfl) (along_of_forall fun _ _ => trivial)
  obtain ⟨hclosed, φ, hR, hφ, hq, hg⟩ := hkept
  refine ⟨?_, ?_, ?_, ?_⟩
  · intro p hp
    obtain ⟨⟨paddr, paddrValid⟩, b, hinput, ⟨hvalid, rfl⟩, ⟨hissued, htaken⟩, -⟩ := hclosed p hp
    obtain rfl : paddrValid = true := hvalid
    exact ⟨paddr, hinput, hissued, htaken⟩
  · intro hstate
    obtain ⟨b, i, rfl⟩ := hR.launch_of_state hstate
    obtain ⟨⟨⟨paddr, paddrValid⟩, hinput, hvalid, rfl⟩, hissued, htaken⟩ := hg
    obtain rfl : paddrValid = true := hvalid
    exact ⟨paddr, i, hφ, hinput, hissued, htaken⟩
  · intro hstate
    obtain ⟨b, j, rfl⟩ := hR.land_of_state hstate
    obtain ⟨⟨⟨paddr, paddrValid⟩, hinput, hvalid, rfl⟩, hissued, htaken⟩ := hg
    obtain rfl : paddrValid = true := hvalid
    exact ⟨paddr, j, hφ, hinput, hissued, htaken⟩
  · intro hidle
    obtain rfl : φ = .quiet := hR.idle_iff.mp hidle
    exact ⟨hq, fun paddr cmdReady rdata => next_of_idle hidle paddr cmdReady rdata⟩

/-- Two words from the one of address `0x40`, at a port that is always ready and answers at once;
then a second pass, up to its first beat. -/
theorem prefetch_passes_two :
    let cfg : DramConfig := ⟨4, 5, 20, by decide⟩
    let x := run ((master cfg).journalHeld fun a => a.setWidth _) ((boot cfg, []), {})
      (List.replicate 9 ((0x40, true), ⟨true, true⟩))
    x.2.closed.length = 1 ∧ (∀ p ∈ x.2.closed, p.book.issued = [4, 5] ∧ p.book.taken = [4, 5]) ∧
      ∃ paddr, ∃ j < 2, x.2.input = some (paddr, true) ∧
        x.2.book.taken = (List.range j).map fun t => wordAddr cfg paddr + BitVec.ofNat 20 t := by
  intro cfg x
  have hall := prefetch_passes cfg (fun a => a.setWidth _)
    (List.replicate 9 ((0x40, true), ⟨true, true⟩))
  have hinput : ∀ p ∈ x.2.closed, p.input = some (0x40, true) := by decide
  refine ⟨by decide, ?_, ?_⟩
  · intro p hp
    obtain ⟨paddr, hstart, hissued, htaken⟩ := hall.1 p hp
    rw [hinput p hp, Option.some.injEq, Prod.mk.injEq] at hstart
    rw [hissued, htaken, ← hstart.1]
    decide
  · obtain ⟨paddr, j, hj, hstart, -, htaken⟩ := hall.2.2.1 (by decide)
    exact ⟨paddr, j, lt_of_lt_of_eq hj (by decide), hstart, htaken⟩

/-- Between passes the prefetcher is in `IDLE`. -/
theorem atRest_iff_idle (s : FlashEmuDRAMLite cfg) : (master cfg).AtRest s ↔ s.state = .idle := by
  rw [Master.AtRest]
  cases hs : s.state <;> simp [master, cmd, rdataReady, hs]

/-- **Every pass of the prefetcher ends**, by the time the port has been ready for a command and had
a beat valid in as many cycles as the pass has commands and beats. -/
theorem prefetch_ends (cfg : DramConfig) (mem : cfg.Addr → cfg.Word)
    (es fs : List ((BitVec 24 × Bool) × Cycle))
    (hmany : 2 * cfg.numPrefetchReads ≤ fs.countP fun e => e.2.generous) :
    ∃ k ≤ fs.length,
      (run ((master cfg).heldStep mem) (boot cfg, []) (es ++ fs.take k)).1.state = .idle := by
  have hkept : Journal.Kept At (Opens cfg) (fun _ s => s.state = .idle)
      (run ((master cfg).journalHeld mem) ((boot cfg, []), {}) es) :=
    (runs cfg mem).kept_run (.idle rfl) (along_of_forall fun _ _ => trivial)
  obtain ⟨-, φ, hR, hφ, hq, -⟩ := hkept
  rw [Master.journalHeld, run_watch_fst] at hR hq
  have hleft : φ.remaining ≤ 2 * cfg.numPrefetchReads := by
    cases hR <;> simp only [Phase.remaining, burst] <;> omega
  obtain ⟨k, hk, hrest⟩ := (refines cfg).ends hR hφ
    (@along_of_forall _ _ ((master cfg).heldStep mem) _ (fun _ _ => trivial) _ _)
    (hleft.trans hmany)
  refine ⟨k, hk, ?_⟩
  rw [run_append, ← atRest_iff_idle]
  rwa [← hq] at hrest

end FlashEmuDRAMLite

namespace FlashEmuDRAM

variable {aw dw : ℕ}

/-- What a complete pass leaves behind: the last word read, and the CSRs as they were. -/
def Restored (mem : BitVec aw → BitVec dw) (N : BitVec 8) (A : BitVec aw)
    (s : FlashEmuDRAM aw dw) : Prop :=
  s.state = .reset ∧ s.rdCnt = N ∧ s.fillAddr = A ∧
    s.readbackWord = mem (A + BitVec.ofNat aw N.toNat)

/-- With the trigger held, the reader runs in passes over the host's words. -/
theorem runs (mem : BitVec aw → BitVec dw) (N : BitVec 8) (A : BitVec aw) :
    (master aw dw).Runs mem (fun _ trigger _ _ => trigger = true) (At N A)
      (fun _ b => b = burst N A) (fun _ s => Restored mem N A s) where
  refines := (refines dw N A).weaken fun _ _ _ _ h => Or.inl h
  opens := by
    intro s trigger cmdReady rdata b hs hok hlaunch
    cases hlaunch with
    | launch i hi hs' => rfl
  done := by
    intro s trigger cmdReady b j hs hlast hok hquiet
    obtain ⟨hcnt, haddr⟩ := hquiet.csrs
    cases hs with
    | land j hj hs hcnt' hrdc hfa =>
      obtain rfl : trigger = true := hok
      obtain rfl : j = N.toNat := Nat.succ_injective hlast
      have hzero : s.rdCnt = 0 := by
        rw [hcnt', Nat.sub_self]
        rfl
      refine ⟨?_, hcnt, haddr, ?_⟩
      · simp only [master, next, if_true, act, hs, hzero]
      · simp only [master, next, if_true, act, hs, burst]
  keeps := by
    intro s trigger cmdReady rdata b hs hok hquiet
    obtain rfl : trigger = true := hok
    cases hs with
    | launch i hi hs =>
      have hstate : ((master aw dw).next s true cmdReady rdata).state = .rdLaunch ∨
          ((master aw dw).next s true cmdReady rdata).state = .rdLand := by
        simp only [master, next, if_true, act, hs]
        split
        · split
          · exact Or.inr rfl
          · exact Or.inl rfl
        · exact Or.inl hs
      cases hquiet with
      | rest hq => rcases hq with hq | ⟨i, hq⟩ | hq <;> simp [hq] at hstate
      | delay i hq => simp [hq] at hstate

/-- With the trigger held, every cycle of a run meets what a held trigger is enough for. -/
theorem along_held {τ : Type*} {step : τ → Bool × Cycle → τ} {C : τ → Bool × Cycle → Prop}
    (hC : ∀ x c, C x (true, c)) {x : τ} (cs : List Cycle) :
    Along step C x (cs.map fun c => (true, c)) := by
  refine along_of_mem ?_
  intro e he y
  obtain ⟨c, -, rfl⟩ := List.mem_map.mp he
  exact hC y c

/-- **The passes of the host-programmed reader.** With the trigger held from `RESET`, after every
schedule of the port: every pass that has ended had its commands accepted for the `N + 1` words
from `A`, in order, took exactly their beats, and left the last word read back and the CSRs as the
host programmed them; a pass in `RD_LAUNCH` has had the first of them accepted and taken nothing,
and a pass in `RD_LAND` has had all of them accepted and taken the first of their beats. -/
theorem fill_passes (mem : BitVec aw → BitVec dw) (s : FlashEmuDRAM aw dw)
    (hs : s.state = .reset) (cs : List Cycle) :
    let x := run ((master aw dw).journalHeld mem) ((s, []), {}) (cs.map fun c => (true, c))
    let words := fun i : ℕ => (List.range i).map fun t => s.fillAddr + BitVec.ofNat aw t
    (∀ p ∈ x.2.closed,
      p.book.issued = words (s.rdCnt.toNat + 1) ∧ p.book.taken = words (s.rdCnt.toNat + 1) ∧
        p.after.readbackWord = mem (s.fillAddr + BitVec.ofNat aw s.rdCnt.toNat) ∧
        p.after.state = .reset ∧ p.after.rdCnt = s.rdCnt ∧ p.after.fillAddr = s.fillAddr) ∧
    (x.1.1.state = .rdLaunch → ∃ i < s.rdCnt.toNat + 1,
      x.2.book.issued = words i ∧ x.2.book.taken = []) ∧
    (x.1.1.state = .rdLand → ∃ j < s.rdCnt.toNat + 1,
      x.2.book.issued = words (s.rdCnt.toNat + 1) ∧ x.2.book.taken = words j) := by
  intro x words
  obtain ⟨hclosed, φ, hR, hφ, -, hg⟩ := (runs mem s.rdCnt s.fillAddr).kept_run
    (.rest (Or.inl hs) rfl rfl) (along_held (fun _ _ => rfl) cs)
  refine ⟨?_, ?_, ?_⟩
  · intro p hp
    obtain ⟨-, b, -, rfl, ⟨hissued, htaken⟩, hstate, hcnt, haddr, hword⟩ := hclosed p hp
    exact ⟨hissued, htaken, hword, hstate, hcnt, haddr⟩
  · intro hstate
    obtain ⟨b, i, rfl⟩ := hR.launch_of_state hstate
    obtain ⟨⟨-, -, rfl⟩, hissued, htaken⟩ := hg
    exact ⟨i, hφ, hissued, htaken⟩
  · intro hstate
    obtain ⟨b, j, rfl⟩ := hR.land_of_state hstate
    obtain ⟨⟨-, -, rfl⟩, hissued, htaken⟩ := hg
    exact ⟨j, hφ, hissued, htaken⟩

/-- Two words from address 3, at a port that is always ready and answers at once. -/
theorem fill_passes_two :
    let mem : BitVec 4 → BitVec 8 := fun a => a.setWidth 8
    let cs := List.replicate 36 ⟨true, true⟩
    let x := run ((master 4 8).journalHeld mem) ((programmed 8 1 3, []), {})
      (cs.map fun c => (true, c))
    x.2.closed.length = 1 ∧
      ∀ p ∈ x.2.closed, p.book.issued = [3, 4] ∧ p.after.readbackWord = 4 := by
  intro mem cs x
  refine ⟨by decide +kernel, ?_⟩
  intro p hp
  obtain ⟨hissued, -, hword, -⟩ := (fill_passes mem (programmed 8 1 3) rfl cs).1 p hp
  exact ⟨hissued, hword⟩

/-- Between passes the reader is neither in `RD_LAUNCH` nor in `RD_LAND`. -/
theorem atRest_iff_ne (s : FlashEmuDRAM aw dw) :
    (master aw dw).AtRest s ↔ s.state ≠ .rdLaunch ∧ s.state ≠ .rdLand := by
  rw [Master.AtRest]
  cases hs : s.state <;> simp [master, cmd, rdataReady, hs]

/-- **Every pass of the host-programmed reader ends**, with the trigger held, by the time the port
has been ready for a command and had a beat valid in as many cycles as the pass has commands and
beats. -/
theorem fill_ends (mem : BitVec aw → BitVec dw) (s : FlashEmuDRAM aw dw) (hs : s.state = .reset)
    (cs fs : List Cycle) (hmany : 2 * (s.rdCnt.toNat + 1) ≤ fs.countP Cycle.generous) :
    ∃ k ≤ fs.length,
      let x := run ((master aw dw).heldStep mem) (s, []) ((cs ++ fs.take k).map fun c => (true, c))
      x.1.state ≠ .rdLaunch ∧ x.1.state ≠ .rdLand := by
  obtain ⟨-, φ, hR, hφ, hq, -⟩ := (runs mem s.rdCnt s.fillAddr).kept_run
    (.rest (Or.inl hs) rfl rfl) (along_held (fun _ _ => rfl) cs)
  rw [Master.journalHeld, run_watch_fst] at hR hq
  have hleft : φ.remaining ≤ 2 * (s.rdCnt.toNat + 1) := by
    cases hR <;> simp only [Phase.remaining, burst] <;> omega
  obtain ⟨k, hk, hrest⟩ := (runs mem s.rdCnt s.fillAddr).refines.ends hR hφ
    (@along_held _ ((master aw dw).heldStep mem) _ (fun _ _ => rfl) _ fs)
    (by rw [List.countP_map]; exact hleft.trans hmany)
  refine ⟨k, by rwa [List.length_map] at hk, ?_⟩
  rw [List.map_append, run_append, List.map_take]
  rwa [← hq, atRest_iff_ne] at hrest

end FlashEmuDRAM

end LiteSpiH4x
