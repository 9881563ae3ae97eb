import LiteSpiH4x.Dram.FlashEmuDRAM
import LiteSpiH4x.Dram.FlashEmuDRAMLite
import LiteSpiH4x.ReadPort.Ledger

/-! # Beats that come while commands are still being launched

Both engines drive `rdata.ready` in `RD_LAND` only, so a beat that arrives during `RD_LAUNCH` is
lost at a port that does not hold it. Each engine is a sequence of bursts, and the rule for bursts
says when that happens.

* **`Engine`** — either engine, with its parameters.
* **`Engine.refines`** — what the two have in common.
* **`lossless_iff`** — for every schedule, no beat is lost and the pass accounts for all of its
  beats exactly if no beat comes before the port has accepted the pass's last command. -/

namespace LiteSpiH4x

open ReadPort StepMachine

/-- The two DRAM engines: the prefetcher, and the reader with `N` in `rd_cnt` and `A` in
`fill_addr`. -/
inductive Engine
  | prefetcher (cfg : DramConfig)
  | reader (aw dw : ℕ) (N : BitVec 8) (A : BitVec aw)

namespace Engine

/-- The registers. -/
abbrev State : Engine → Type
  | prefetcher cfg => FlashEmuDRAMLite cfg
  | reader aw dw _ _ => FlashEmuDRAM aw dw

/-- The inputs besides the port: window address and validity, or the combined trigger. -/
abbrev Input : Engine → Type
  | prefetcher _ => BitVec 24 × Bool
  | reader _ _ _ _ => Bool

/-- An address of the port. -/
abbrev Addr : Engine → Type
  | prefetcher cfg => cfg.Addr
  | reader aw _ _ _ => BitVec aw

/-- A word of the port. -/
abbrev Word : Engine → Type
  | prefetcher cfg => cfg.Word
  | reader _ dw _ _ => BitVec dw

/-- The engine as a master of its port. -/
def master : (e : Engine) → Master e.State e.Input e.Addr e.Word
  | prefetcher cfg => FlashEmuDRAMLite.master cfg
  | reader aw dw _ _ => FlashEmuDRAM.master aw dw

/-- The registers at power-on, or before the first trigger. -/
def start : (e : Engine) → e.State
  | prefetcher cfg => FlashEmuDRAMLite.boot cfg
  | reader _ dw N A => FlashEmuDRAM.programmed dw N A

/-- The number of reads in a pass. -/
def reads : Engine → ℕ
  | prefetcher cfg => cfg.numPrefetchReads
  | reader _ _ N _ => N.toNat + 1

/-- A cycle that leaves the pass alone: any for the prefetcher, and for the reader one in which the
trigger is up, or goes down without a trace. -/
def Uninterrupted : (e : Engine) → e.State → e.Input → Bool → Option e.Word → Prop
  | prefetcher _ => fun _ _ _ _ => True
  | reader _ _ _ _ => FlashEmuDRAM.Harmless

instance (e : Engine) (s : e.State) (i : e.Input) (cmdReady : Bool) (rdata : Option e.Word) :
    Decidable (e.Uninterrupted s i cmdReady rdata) :=
  match e with
  | prefetcher _ => isTrue trivial
  | reader _ _ _ _ => inferInstanceAs (Decidable (FlashEmuDRAM.Harmless _ _ _ _))

/-- The registers at a phase of a pass. -/
def At : (e : Engine) → e.State → Phase e.Addr → Prop
  | prefetcher _ => FlashEmuDRAMLite.At
  | reader _ _ N A => FlashEmuDRAM.At N A

/-- **Every uninterrupted run is a sequence of bursts**, of either engine. -/
theorem refines : (e : Engine) → e.master.Refines e.Uninterrupted e.At
  | prefetcher cfg => FlashEmuDRAMLite.refines cfg
  | reader _ dw N A => FlashEmuDRAM.refines dw N A

/-- At the start no pass is in progress. -/
theorem at_start : (e : Engine) → e.At e.start .quiet
  | prefetcher _ => .idle rfl
  | reader _ _ _ _ => .rest (Or.inl rfl) rfl rfl

/-- A pass makes as many reads as the engine was told to. -/
theorem count_eq (e : Engine) {s : e.State} {b : Burst e.Addr} {i : ℕ}
    (h : e.At s (.launch b i) ∨ e.At s (.land b i)) : b.count = e.reads := by
  match e with
  | prefetcher cfg => rcases h with h | h <;> cases h <;> rfl
  | reader aw dw N A =>
    rcases h with h | h
    · exact FlashEmuDRAM.At.count_eq h (Or.inl rfl)
    · exact FlashEmuDRAM.At.count_eq h (Or.inr rfl)

end Engine

/-- **When no beat is lost.** At a port that presents each beat for one cycle, in every run of
either engine that no release of the trigger interrupts in mid-pass, every presented beat is taken
and the beats taken and outstanding are those of the commands accepted, exactly if each beat comes
when the port has accepted all commands of its pass: `num_prefetch_reads` of them, or
`rd_cnt + 1`. -/
theorem lossless_iff (e : Engine) (mem : e.Addr → e.Word) (es : List (e.Input × Cycle))
    (hok : Along (e.master.bookedLossy mem) (Master.Meets mem e.Uninterrupted)
      ((e.start, []), {}) es) :
    (Along (e.master.bookedLossy mem) e.master.TakesBeat ((e.start, []), {}) es ∧
        Master.Complete (run (e.master.bookedLossy mem) ((e.start, []), {}) es)) ↔
      Along (e.master.bookedLossy mem) (Master.BeatAfterLaunch e.reads) ((e.start, []), {}) es :=
  e.refines.along_takesBeat_iff e.count_eq e.at_start hok

/-- A pass of two reads with the second beat waiting for the second command: nothing is lost. -/
theorem lossless_iff_late :
    let m := FlashEmuDRAM.master 20 8
    let x := ((FlashEmuDRAM.programmed 8 1 0x10, []), {})
    let es := List.replicate 34 (true, (⟨true, false⟩ : Cycle)) ++ [(true, ⟨true, true⟩)]
    Along (m.bookedLossy fun _ => 0) m.TakesBeat x es ∧
      Master.Complete (run (m.bookedLossy fun _ => 0) x es) :=
  (lossless_iff (.reader 20 8 1 0x10) (fun _ => 0) _ (by decide)).mpr (by decide)

/-- Beats that follow their commands by one cycle, as they may: the prefetcher with four registers
loses its first beat to the second command, and so does the reader with `rd_cnt = 1`. -/
theorem beat_lost :
    (let m := FlashEmuDRAMLite.master ⟨4, 6, 20, by decide⟩
      let x := ((FlashEmuDRAMLite.boot _, []), {})
      ¬ Along (m.bookedLossy fun _ => 0) m.TakesBeat x
        [((0x40, true), ⟨true, true⟩), ((0x40, true), ⟨true, true⟩),
          ((0x40, true), ⟨true, true⟩)]) ∧
    (let m := FlashEmuDRAM.master 20 8
      let x := ((FlashEmuDRAM.programmed 8 1 0x10, []), {})
      ¬ Along (m.bookedLossy fun _ => 0) m.TakesBeat x
        (List.replicate 34 (true, ⟨true, true⟩))) := by
  decide

end LiteSpiH4x
