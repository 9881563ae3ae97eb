import LiteSpiH4x.Dram.BeatLoss
import LiteSpiH4x.Dram.Passes

/-! # What a lost beat costs

Neither engine has a time-out: it leaves `RD_LAND` when it has taken as many beats as it launched
commands. So a beat lost to the launch is not the loss of one word, but of the engine.

* **`Engine.Resting`** — the engine is through with its pass.
* **`back_to_rest_iff`** — for every schedule, there is a way back to rest exactly if no beat was
  lost. -/

namespace LiteSpiH4x

open ReadPort StepMachine

namespace Engine

/-- No pass is in progress: the prefetcher is in `IDLE`, the reader neither in `RD_LAUNCH` nor in
`RD_LAND`. -/
def Resting : (e : Engine) → e.State → Prop
  | prefetcher _ => fun s => s.state = .idle
  | reader _ _ _ _ => fun s => s.state ≠ .rdLaunch ∧ s.state ≠ .rdLand

/-- A resting engine neither drives a command nor listens for data. -/
theorem atRest_iff (e : Engine) (s : e.State) : e.master.AtRest s ↔ e.Resting s :=
  match e with
  | prefetcher _ => FlashEmuDRAMLite.atRest_iff_idle s
  | reader _ _ _ _ => FlashEmuDRAM.atRest_iff_ne s

/-- An input under which no cycle disturbs a pass. -/
def calm : (e : Engine) → e.Input
  | prefetcher _ => (0, false)
  | reader _ _ _ _ => true

/-- Nor does it, whatever the port does. -/
theorem uninterrupted_calm (e : Engine) (s : e.State) (cmdReady : Bool) (rdata : Option e.Word) :
    e.Uninterrupted s e.calm cmdReady rdata :=
  match e with
  | prefetcher _ => trivial
  | reader _ _ _ _ => Or.inl rfl

end Engine

/-- **What a lost beat costs.** At a port that presents each beat for one cycle, after any run of
either engine that no release of the trigger interrupts in mid-pass: some such continuation takes
the engine out of the pass exactly if every beat presented in the run was taken. So one beat lost,
the prefetcher never launches a pass again, whatever addresses come in and whatever the port
does. -/
theorem back_to_rest_iff (e : Engine) (mem : e.Addr → e.Word) (es : List (e.Input × Cycle))
    (hok : Along (e.master.bookedLossy mem) (Master.Meets mem e.Uninterrupted)
      ((e.start, []), {}) es) :
    (∃ fs, Along (e.master.bookedLossy mem) (Master.Meets mem e.Uninterrupted)
          ((e.start, []), {}) (es ++ fs) ∧
        e.Resting (run (e.master.bookedLossy mem) ((e.start, []), {}) (es ++ fs)).1.1) ↔
      Along (e.master.bookedLossy mem) e.master.TakesBeat ((e.start, []), {}) es := by
  rw [← e.refines.atRest_iff e.calm e.uninterrupted_calm e.at_start hok]
  exact exists_congr fun fs => and_congr_right fun _ => (e.atRest_iff _).symm

/-- A beat that follows its command by one cycle, as it may, costs the reader with `rd_cnt = 1` the
pass: no harmless release and no schedule of the port gets it out. -/
theorem back_to_rest_iff_lost :
    let m := FlashEmuDRAM.master 20 8
    let x := ((FlashEmuDRAM.programmed 8 1 0x10, []), {})
    let es := List.replicate 34 (true, (⟨true, true⟩ : Cycle))
    ¬ ∃ fs, Along (m.bookedLossy fun _ => 0)
        (Master.Meets (fun _ => 0) FlashEmuDRAM.Harmless) x (es ++ fs) ∧
      (run (m.bookedLossy fun _ => 0) x (es ++ fs)).1.1.state ≠ .rdLaunch ∧
      (run (m.bookedLossy fun _ => 0) x (es ++ fs)).1.1.state ≠ .rdLand := by
  intro m x es hrest
  have hlost : ¬ Along (m.bookedLossy fun _ => 0) m.TakesBeat x es := by decide
  exact hlost ((back_to_rest_iff (.reader 20 8 1 0x10) (fun _ => 0) es (by decide)).mp hrest)

end LiteSpiH4x
