import LiteSpiH4x.Dram.PrefetchFill
import LiteSpiH4x.Lite.FlashEmuLite

/-! # What the prefetch registers show to the SPI side

The registers of a prefetcher that has come up from reset hold what its passes have landed in them,
and nothing else: the words of the last pass that ended, overwritten in part by those of a pass in
progress. Which windows these are depends on what was on the address wires when the prefetcher left
`IDLE`, and on nothing that happens on the bus afterwards.

* **`lineOf`** — the word a register shows once its window has been read; register 0 of two or more
  is never written and still holds its reset value.
* **`Contents`** — ghost state: the window of the last pass, and the pass in progress.
* **`Contents.word`** — the word in each register, in closed form.
* **`Shelved`** — the invariant that the registers show just that. -/

namespace LiteSpiH4x

open Digital ReadPort StepMachine

namespace FlashEmuDRAMLite

variable {cfg : DramConfig} {mem : cfg.Addr → cfg.Word} {base : cfg.Addr}

/-- The word in register `r` once the window at `base` has been read: beat `r - 1`, and in the
last register the last beat, or the one before it if the window is being read again and that beat
has just landed. Register 0 of two or more keeps its reset value. -/
def lineOf (mem : cfg.Addr → cfg.Word) (base : cfg.Addr) (torn : Bool) (r : ℕ) : cfg.Word :=
  if r + 1 = cfg.numPrefetchReads then
    (if torn then beat mem base (r - 1) else beat mem base r)
  else if r = 0 then 0 else beat mem base (r - 1)

/-- The passes whose words the prefetch registers hold. -/
structure Contents (cfg : DramConfig) where
  /-- The word address of the window of the last pass that has ended. -/
  last : Option cfg.Addr := none
  /-- The window of the pass in progress, and how many of its beats have landed. -/
  pass : Option (cfg.Addr × ℕ) := none
  deriving DecidableEq

namespace Contents

/-- The word that the passes that have ended left in register `r`. -/
def lastWord (mem : cfg.Addr → cfg.Word) (h : Contents cfg) (r : ℕ) : cfg.Word :=
  match h.last with
  | none => 0
  | some base => lineOf mem base false r

/-- **The word in register `r`.** A pass in progress has landed beat `r - 1` there, if it has come
so far; else the word is the one it found. -/
def word (mem : cfg.Addr → cfg.Word) (h : Contents cfg) (r : ℕ) : cfg.Word :=
  match h.pass with
  | none => h.lastWord mem r
  | some (base, j) => if 1 ≤ r ∧ r ≤ j then beat mem base (r - 1) else h.lastWord mem r

/-- A system clock edge of the prefetcher and its port. -/
def next (x : FlashEmuDRAMLite cfg × List cfg.Addr) (e : (BitVec 24 × Bool) × Cycle)
    (h : Contents cfg) : Contents cfg :=
  match x.1.state with
  | .idle => if e.1.2 then { h with pass := some (wordAddr cfg e.1.1, 0) } else h
  | .rdLaunch => h
  | .rdLand =>
    match h.pass with
    | none => h
    | some (base, j) =>
      if lands x e.2 then
        if x.1.rdCnt = 0 then { last := some base } else { h with pass := some (base, j + 1) }
      else h

/-- Once a pass has ended, the registers show its window. -/
theorem lastWord_of_last {h : Contents cfg} (hlast : h.last = some base) (r : ℕ) :
    h.lastWord mem r = lineOf mem base false r := by
  simp only [lastWord, hlast]

/-- Between passes. -/
theorem word_of_rest {h : Contents cfg} (hpass : h.pass = none) (r : ℕ) :
    h.word mem r = h.lastWord mem r := by
  simp only [word, hpass]

/-- During a pass. -/
theorem word_of_pass {h : Contents cfg} {j : ℕ} (hpass : h.pass = some (base, j)) (r : ℕ) :
    h.word mem r = if 1 ≤ r ∧ r ≤ j then beat mem base (r - 1) else h.lastWord mem r := by
  simp only [word, hpass]

/-- Without a valid address nothing starts. -/
theorem next_of_wait {x : FlashEmuDRAMLite cfg × List cfg.Addr} {e : (BitVec 24 × Bool) × Cycle}
    (h : Contents cfg) (hidle : x.1.state = .idle) (hno : e.1.2 = false) : h.next x e = h := by
  simp only [next, hidle, hno, Bool.false_eq_true, if_false]

/-- A pass after an edge was in progress before, or is over the window on the address wires. -/
theorem base_of_next {x : FlashEmuDRAMLite cfg × List cfg.Addr} {e : (BitVec 24 × Bool) × Cycle}
    {h : Contents cfg} {j : ℕ} (hpass : (h.next x e).pass = some (base, j)) :
    (∃ i, h.pass = some (base, i)) ∨ base = wordAddr cfg e.1.1 := by
  revert hpass
  fun_cases next x e h <;> grind

/-- A further pass over the window that was read last shows in its last beat but one only. -/
theorem word_again {j : ℕ} (hj : j < cfg.numPrefetchReads) (r : ℕ) :
    word mem ⟨some base, some (base, j)⟩ r =
      lineOf mem base (decide (j + 1 = cfg.numPrefetchReads ∧ 2 ≤ cfg.numPrefetchReads)) r := by
  rw [word_of_pass rfl, lastWord_of_last rfl, lineOf, lineOf]
  by_cases hlast : r + 1 = cfg.numPrefetchReads
  · rw [if_pos hlast, if_pos hlast, if_neg Bool.false_ne_true]
    -- the last register: it has just got the last beat but one, or still shows the last
    by_cases htorn : j + 1 = cfg.numPrefetchReads ∧ 2 ≤ cfg.numPrefetchReads
    · rw [if_pos (by omega), if_pos (decide_eq_true htorn)]
    · rw [if_neg (by omega), if_neg (by simpa using htorn)]
  · rw [if_neg hlast, if_neg hlast]
    by_cases hzero : r = 0
    · rw [if_neg (by omega)]
    · rw [if_neg hzero, ite_self]

/-- The registers that a pass finds. -/
def before (mem : cfg.Addr → cfg.Word) (h : Contents cfg) : Fin cfg.numPrefetchReads → cfg.Word :=
  fun i => h.lastWord mem i

/-- Register 0 of two or more is never written. -/
theorem lastWord_zero (h : Contents cfg) (h2 : 2 ≤ cfg.numPrefetchReads) :
    h.lastWord mem 0 = 0 := by
  cases hlast : h.last with
  | none => simp only [lastWord, hlast]
  | some base => rw [lastWord_of_last hlast, lineOf, if_neg (by omega), if_pos rfl]

/-- In the middle of a pass. -/
theorem landed_before (h : Contents cfg) {j : ℕ} (hj : j < cfg.numPrefetchReads)
    (hpass : h.pass = some (base, j)) (i : Fin cfg.numPrefetchReads) :
    landed (h.before mem) (beat mem base) j i = h.word mem i := by
  have hi := i.isLt
  rw [landed_apply _ _ hj.le i, word_of_pass hpass, before]
  by_cases hlast : (i : ℕ) + 1 < cfg.numPrefetchReads
  · rw [if_pos hlast]
  · rw [if_neg hlast]
    -- the last register has got the last beat but one, and nothing else so far
    by_cases hlate : 1 ≤ j ∧ cfg.numPrefetchReads ≤ j + 1
    · have hij : (i : ℕ) = j := by omega
      rw [if_pos hlate, if_pos (by omega), hij]
    · rw [if_neg hlate, if_neg (by omega)]

/-- A whole pass leaves nothing of what it found. -/
theorem landed_all_before (h : Contents cfg) :
    landed (h.before mem) (beat mem base) cfg.numPrefetchReads =
      before mem { last := some base } := by
  funext i
  have hi := i.isLt
  rw [landed_all, before, before, @lastWord_of_last _ _ base { last := some base } rfl, lineOf]
  by_cases hlast : (i : ℕ) + 1 = cfg.numPrefetchReads
  · rw [if_pos hlast, if_pos hlast, if_neg Bool.false_ne_true]
  · rw [if_neg hlast, if_neg hlast]
    by_cases hzero : (i : ℕ) = 0
    · rw [if_pos hzero, if_pos hzero, hzero, h.lastWord_zero (by omega)]
    · rw [if_neg hzero, if_neg hzero]

end Contents

/-- The registers hold what the passes have landed. -/
inductive Shelved (mem : cfg.Addr → cfg.Word) (x : FlashEmuDRAMLite cfg × List cfg.Addr)
    (h : Contents cfg) : Prop
  | rest (hat : At x.1 .quiet) (hq : x.2 = []) (hpass : h.pass = none)
      (hpf : x.1.pfRegs = h.before mem)
  | busy {base : cfg.Addr} {j : ℕ} (hfill : Filling mem (h.before mem) base j x)
      (hbusy : x.1.state ≠ .idle) (hpass : h.pass = some (base, j))

namespace Shelved

variable {x : FlashEmuDRAMLite cfg × List cfg.Addr} {h : Contents cfg}

/-- At power-on. -/
theorem boot : Shelved mem (FlashEmuDRAMLite.boot cfg, []) {} :=
  .rest (.idle rfl) rfl rfl rfl

/-- **What the registers show.** -/
theorem pfRegs_eq (hs : Shelved mem x h) (i : Fin cfg.numPrefetchReads) :
    x.1.pfRegs i = h.word mem i := by
  cases hs with
  | rest hat hq hpass hpf => rw [hpf, Contents.before, Contents.word_of_rest hpass]
  | busy hfill hbusy hpass =>
    obtain ⟨hj, hpf⟩ := hfill.pfRegs_of_busy hbusy
    rw [hpf, h.landed_before hj hpass]

/-- A pass is in progress exactly outside `IDLE`. -/
theorem pass_eq_none_iff (hs : Shelved mem x h) : h.pass = none ↔ x.1.state = .idle := by
  cases hs with
  | rest hat hq hpass hpf => exact ⟨fun _ => hat.idle_iff.mpr rfl, fun _ => hpass⟩
  | busy hfill hbusy hpass =>
    rw [hpass]
    exact ⟨nofun, fun hidle => absurd hidle hbusy⟩

/-- An edge in `IDLE` starts a pass over the window on the address wires if it is valid, and leaves
everything as it is if it is not. -/
theorem step_idle (hs : Shelved mem x h) (hidle : x.1.state = .idle)
    (e : (BitVec 24 × Bool) × Cycle) :
    Shelved mem ((master cfg).heldStep mem x e) (h.next x e) := by
  obtain ⟨⟨paddr, paddrValid⟩, c⟩ := e
  cases hs with
  | busy hfill hbusy => exact absurd hidle hbusy
  | rest hat hq hpass hpf =>
    obtain ⟨s, q⟩ := x
    obtain rfl : q = [] := hq
    have hstate : s.state = .idle := hidle
    cases paddrValid with
    | true =>
      have hnext : h.next (s, []) ((paddr, true), c) =
          { h with pass := some (wordAddr cfg paddr, 0) } := by
        simp only [Contents.next, hstate, if_true]
      have hstart := @Filling.start _ mem _ hat paddr c
      rw [hpf] at hstart
      have hlaunch : ((master cfg).heldStep mem (s, []) ((paddr, true), c)).1.state ≠ .idle := by
        intro hstill
        rcases state_next_idle hstill with ⟨-, hno⟩ | ⟨hland, -⟩
        · cases hno
        · cases hstate.symm.trans hland
      rw [hnext]
      exact .busy hstart hlaunch rfl
    | false =>
      have hnext : h.next (s, []) ((paddr, false), c) = h := by
        simp only [Contents.next, hstate, Bool.false_eq_true, if_false]
      rw [hnext, heldStep_wait hstate]
      have hwait : At (s.next paddr false c.ready none) .quiet := At.wait hat
      refine .rest hwait rfl hpass ?_
      simpa only [FlashEmuDRAMLite.next, hstate] using hpf

/-- **An edge of a pass** lands a beat or none, and the last one ends the pass. -/
theorem next_of_busy (hbusy : x.1.state ≠ .idle) {j : ℕ} (hpass : h.pass = some (base, j))
    (e : (BitVec 24 × Bool) × Cycle) :
    h.next x e = if ((master cfg).heldStep mem x e).1.state = .idle then { last := some base }
      else { h with pass := some (base, j + (lands x e.2).toNat) } := by
  obtain ⟨s, q⟩ := x
  obtain ⟨⟨paddr, paddrValid⟩, c⟩ := e
  have hstep : ((master cfg).heldStep mem (s, q) ((paddr, paddrValid), c)).1 =
      s.next paddr paddrValid c.ready ((presented q c).map mem) := rfl
  have hkeep : { h with pass := some (base, j) } = h := by rw [← hpass]
  rw [hstep, Contents.next]
  cases hs : s.state with
  | idle => exact absurd hs hbusy
  | rdLaunch =>
    have hdeaf : lands (s, q) c = false := by simp only [lands, rdataReady, hs, Bool.false_and]
    have hstill : (s.next paddr paddrValid c.ready ((presented q c).map mem)).state ≠ .idle := by
      intro hidle
      rcases state_next_idle hidle with ⟨hwas, -⟩ | ⟨hland, -⟩
      · exact hbusy hwas
      · cases hs.symm.trans hland
    rw [if_neg hstill, hdeaf, Bool.toNat_false, Nat.add_zero, hkeep]
  | rdLand =>
    simp only [hpass, lands, rdataReady, hs, Bool.true_and]
    cases hbeat : presented q c with
    | none =>
      have hwait : (s.next paddr paddrValid c.ready none).state = .rdLand := by
        simp only [FlashEmuDRAMLite.next, hs]
      simp [hwait, hkeep]
    | some a =>
      have htake : (s.next paddr paddrValid c.ready (some (mem a))).state =
          if s.rdCnt = 0 then .idle else .rdLand := by
        simp only [FlashEmuDRAMLite.next, hs]
      by_cases hlast : s.rdCnt = 0 <;> simp [htake, hlast]

/-- An edge of a pass. -/
theorem step_busy (hs : Shelved mem x h) (hbusy : x.1.state ≠ .idle)
    (e : (BitVec 24 × Bool) × Cycle) :
    Shelved mem ((master cfg).heldStep mem x e) (h.next x e) := by
  cases hs with
  | rest hat => exact absurd (hat.idle_iff.mpr rfl) hbusy
  | busy hfill _ hpass =>
    have hnext := @next_of_busy _ mem _ _ _ hbusy _ hpass e
    have hfill' := hfill.step hbusy e
    by_cases hidle : ((master cfg).heldStep mem x e).1.state = .idle
    · rw [hnext, if_pos hidle]
      obtain ⟨hat, hq, hpf⟩ := hfill'.done_of_idle hidle
      exact .rest hat hq rfl (hpf.trans h.landed_all_before)
    · rw [hnext, if_neg hidle]
      exact .busy hfill' hidle rfl

/-- **Step lemma.** A system clock edge. -/
theorem step (hs : Shelved mem x h) (e : (BitVec 24 × Bool) × Cycle) :
    Shelved mem ((master cfg).heldStep mem x e) (h.next x e) := by
  by_cases hidle : x.1.state = .idle
  · exact hs.step_idle hidle e
  · exact hs.step_busy hidle e

end Shelved

end FlashEmuDRAMLite

end LiteSpiH4x
