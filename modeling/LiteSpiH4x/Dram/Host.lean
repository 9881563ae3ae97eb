import LiteSpiH4x.Dram.Interrupt

/-! # The host of FlashEmuDRAM

`dram_cli.py` uses the reader over the system bus: it writes a start address, a read count and a
word that no read returns, raises `go` and takes it down again, and reads the word back. All the
while the reader counts in the same CSRs. To a host that keeps out of passes it is a file of three
registers in which a whole pass is one step.

* **`Hosted`** / **`Hosted.step`** — the reader, its trigger, its port and its host.
* **`File`** / **`File.next`** — the register file.
* **`Orderly`** — what the host keeps to; **`Agrees`** — what then holds between the two.
* **`host_session`** — in every orderly session the host reads what the file holds, and between
  passes the CSRs and the reads made are those of the file. -/

namespace LiteSpiH4x

open ReadPort StepMachine

namespace FlashEmuDRAM

variable {aw dw : ℕ}

/-! ## The reader and its host -/

/-- What the host does to the CSRs in a cycle. A write takes effect with the cycle's edge. -/
inductive Access (aw dw : ℕ)
  | none
  /-- `flash_dram_fill_addr.write` -/
  | fillAddr (a : BitVec aw)
  /-- `flash_dram_rd_cnt.write` -/
  | rdCnt (n : BitVec 8)
  /-- `flash_dram_readback_word.write` -/
  | readbackWord (w : BitVec dw)
  /-- `flash_dram_go.write` -/
  | go (level : Bool)
  /-- `flash_dram_readback_word.read` -/
  | read
  deriving DecidableEq, Repr

/-- What comes with a system clock edge. -/
structure Tick (aw dw : ℕ) where
  /-- `trigger` -/
  trigger : Bool
  host : Access aw dw
  port : Cycle
  deriving DecidableEq, Repr

/-- The reader in its system. -/
structure Hosted (aw dw : ℕ) where
  reader : FlashEmuDRAM aw dw
  /-- `go.storage` -/
  go : Bool
  /-- The commands accepted whose beats have not been taken. -/
  outstanding : List (BitVec aw)
  /-- All commands accepted so far, the oldest first. -/
  issued : List (BitVec aw)
  /-- What the host has read so far. -/
  answers : List (BitVec dw)
  deriving DecidableEq, Repr

/-- A write to the reader's CSRs. -/
def Access.write (a : Access aw dw) (s : FlashEmuDRAM aw dw) : FlashEmuDRAM aw dw :=
  match a with
  | .fillAddr a => { s with fillAddr := a }
  | .rdCnt n => { s with rdCnt := n }
  | .readbackWord w => { s with readbackWord := w }
  | _ => s

namespace Hosted

/-- The reader in `RESET`, with whatever is in its CSRs. -/
def start (fillAddr : BitVec aw) (rdCnt : BitVec 8) (readbackWord : BitVec dw) (go : Bool) :
    Hosted aw dw where
  reader := { programmed dw rdCnt fillAddr with readbackWord := readbackWord }
  go := go
  outstanding := []
  issued := []
  answers := []

/-- `combo_trigger` -/
def comboTrigger (s : Hosted aw dw) (trigger : Bool) : Bool := trigger || s.go

/-- The data presented. -/
def rdata (mem : BitVec aw → BitVec dw) (s : Hosted aw dw) (c : Cycle) : Option (BitVec dw) :=
  (presented s.outstanding c).map mem

/-- A system clock edge, at a port that holds its beats. -/
def step (mem : BitVec aw → BitVec dw) (s : Hosted aw dw) (t : Tick aw dw) : Hosted aw dw :=
  let x := (master aw dw).heldStep mem (s.reader, s.outstanding) (s.comboTrigger t.trigger, t.port)
  { reader := t.host.write x.1
    go := match t.host with
      | .go level => level
      | _ => s.go
    outstanding := x.2
    issued := s.issued ++ (master aw dw).accepted s.reader t.port
    answers := match t.host with
      | .read => s.answers ++ [s.reader.readbackWord]
      | _ => s.answers }

/-- The edge takes the last beat of a pass. -/
def Completes (s : Hosted aw dw) (t : Tick aw dw) : Prop :=
  s.reader.state = .rdLand ∧ s.reader.rdCnt = 0 ∧ (presented s.outstanding t.port).isSome = true

instance (s : Hosted aw dw) (t : Tick aw dw) : Decidable (s.Completes t) :=
  inferInstanceAs (Decidable (_ ∧ _ ∧ _))

end Hosted

/-! ## The register file -/

/-- What the host works with: three registers, the reads made of the DRAM, and what it has read. -/
structure File (aw dw : ℕ) where
  fillAddr : BitVec aw
  rdCnt : BitVec 8
  readbackWord : BitVec dw
  /-- The addresses of all reads, the oldest first. -/
  reads : List (BitVec aw) := []
  answers : List (BitVec dw) := []
  deriving DecidableEq, Repr

namespace File

/-- A pass: `rd_cnt + 1` words from `fill_addr` are read, and the last of them is kept. -/
def pass (mem : BitVec aw → BitVec dw) (f : File aw dw) : File aw dw :=
  { f with
    reads := f.reads ++ (List.range (f.rdCnt.toNat + 1)).map fun i => f.fillAddr + BitVec.ofNat aw i
    readbackWord := mem (f.fillAddr + BitVec.ofNat aw f.rdCnt.toNat) }

/-- An access of the host. -/
def access (f : File aw dw) : Access aw dw → File aw dw
  | .fillAddr a => { f with fillAddr := a }
  | .rdCnt n => { f with rdCnt := n }
  | .readbackWord w => { f with readbackWord := w }
  | .read => { f with answers := f.answers ++ [f.readbackWord] }
  | _ => f

/-- The file beside the reader: it makes a pass when the reader takes the last beat of one. -/
def next (mem : BitVec aw → BitVec dw) (s : Hosted aw dw) (t : Tick aw dw) (f : File aw dw) :
    File aw dw :=
  (if s.Completes t then f.pass mem else f).access t.host

end File

/-! ## Orderly sessions -/

/-- The counters may be written: the FSM has not sampled them yet, or is reset by this edge, and
does not write them itself. -/
def Programmable (s : FlashEmuDRAM aw dw) (comboTrigger : Bool) : Prop :=
  match s.state with
  | .reset | .resetDelay _ => True
  | .idle | .idleDelay _ => comboTrigger = false
  | .rdLaunch | .rdLand => False

instance (s : FlashEmuDRAM aw dw) (comboTrigger : Bool) :
    Decidable (Programmable s comboTrigger) := by
  unfold Programmable
  split <;> infer_instance

/-- The host programs the counters between passes and keeps away from the word while beats come
in, and the trigger goes down only where that does no harm. -/
def Orderly (mem : BitVec aw → BitVec dw) (x : Hosted aw dw × File aw dw) (t : Tick aw dw) : Prop :=
  Harmless x.1.reader (x.1.comboTrigger t.trigger) t.port.ready (x.1.rdata mem t.port) ∧
    match t.host with
    | .fillAddr _ | .rdCnt _ => Programmable x.1.reader (x.1.comboTrigger t.trigger)
    | .readbackWord _ | .read => x.1.reader.state ≠ .rdLand
    | _ => True

instance (mem : BitVec aw → BitVec dw) (x : Hosted aw dw × File aw dw) (t : Tick aw dw) :
    Decidable (Orderly mem x t) := by
  unfold Orderly
  refine @instDecidableAnd _ _ inferInstance ?_
  split <;> infer_instance

/-! ## Along a session -/

variable {N : BitVec 8} {A : BitVec aw} {s : FlashEmuDRAM aw dw} {φ φ' : Phase (BitVec aw)}

/-- Only `RD_LAND` writes the word. -/
theorem readbackWord_next (s : FlashEmuDRAM aw dw) (comboTrigger cmdReady : Bool)
    (rdata : Option (BitVec dw)) :
    (s.next comboTrigger cmdReady rdata).readbackWord =
      if s.state = .rdLand then rdata.getD s.readbackWord else s.readbackWord := by
  have hact : (s.act cmdReady rdata).readbackWord =
      if s.state = .rdLand then rdata.getD s.readbackWord else s.readbackWord := by
    unfold act
    cases hs : s.state with
    | rdLaunch => cases cmdReady <;> simp
    | rdLand => cases rdata <;> simp
    | _ => simp
  rw [next]
  split <;> exact hact

/-- A pass takes its last beat in `RD_LAND` with the counter at zero. -/
theorem At.finished (h : At N A s φ) (beat : Bool) : φ.finished beat =
    if s.state = .rdLand ∧ s.rdCnt = 0 ∧ beat = true then
      (List.range (N.toNat + 1)).map fun i => A + BitVec.ofNat aw i
    else [] := by
  cases h with
  | rest hs => rcases hs with hs | ⟨i, hs⟩ | hs <;> simp [Phase.finished, hs]
  | delay i hs => simp [Phase.finished, hs]
  | launch i hi hs => simp [Phase.finished, hs]
  | land j hj hs hcnt =>
    have hlast : s.rdCnt = 0 ↔ j + 1 = (burst N A).count := by
      rw [hcnt]
      exact rdCnt_eq_zero hj
    simp only [Phase.finished, hs, hlast, true_and, and_comm (a := beat = true)]
    rfl

/-- Where the counters may be written, the edge leaves the FSM before it samples them. -/
theorem Programmable.next {comboTrigger : Bool} (hp : Programmable s comboTrigger)
    (cmdReady : Bool) (rdata : Option (BitVec dw)) :
    (s.next comboTrigger cmdReady rdata).state = .reset ∨
      (∃ i, (s.next comboTrigger cmdReady rdata).state = .resetDelay i) ∨
      (s.next comboTrigger cmdReady rdata).state = .idle := by
  cases comboTrigger with
  | false => exact Or.inl rfl
  | true =>
    simp only [FlashEmuDRAM.next, if_true, act]
    cases hs : s.state with
    | reset => exact Or.inr (Or.inl ⟨0, rfl⟩)
    | resetDelay i =>
      simp only [delayedEnter]
      split
      · exact Or.inr (Or.inl ⟨_, rfl⟩)
      · exact Or.inr (Or.inr rfl)
    | idle | idleDelay i | rdLaunch | rdLand =>
      rw [Programmable, hs] at hp
      exact absurd hp (by simp)

/-- The word is not a register of the passes. -/
theorem At.readbackWord (h : At N A s φ) (w : BitVec dw) :
    At N A { s with readbackWord := w } φ := by
  cases h with
  | rest hs hcnt haddr => exact .rest hs hcnt haddr
  | delay i hs hcnt haddr hrdc hfa => exact .delay i hs hcnt haddr hrdc hfa
  | launch i hi hs hcnt haddr hrdc hfa => exact .launch i hi hs hcnt haddr hrdc hfa
  | land j hj hs hcnt hrdc hfa => exact .land j hj hs hcnt hrdc hfa

/-- What holds between the reader, with its commands outstanding and issued, and the file. -/
structure Agrees (s : FlashEmuDRAM aw dw) (outstanding issued : List (BitVec aw))
    (f : File aw dw) : Prop where
  phase : ∃ φ, At f.rdCnt f.fillAddr s φ ∧ φ.Proper ∧ outstanding = φ.outstanding ∧
    issued = f.reads ++ φ.issued
  /-- Beats of a pass in progress are not the file's yet. -/
  word : s.state ≠ .rdLand → s.readbackWord = f.readbackWord

namespace Agrees

variable {mem : BitVec aw → BitVec dw} {x : Hosted aw dw} {f : File aw dw} {t : Tick aw dw}

/-- A pass that leaves `RD_LAND` has taken its last beat, the word at `fill_addr + rd_cnt`. -/
theorem last_beat (h : At N A x.reader φ) (hproper : φ.Proper) (hq : x.outstanding = φ.outstanding)
    (hstep : φ.Step t.port.ready (presented φ.outstanding t.port).isSome φ')
    (hland : x.reader.state = .rdLand) {s' : FlashEmuDRAM aw dw} (h' : At N A s' φ')
    (hleft : s'.state ≠ .rdLand) :
    x.Completes t ∧ x.rdata mem t.port = some (mem (A + BitVec.ofNat aw N.toNat)) := by
  cases h with
  | rest hs => rcases hs with hs | ⟨i, hs⟩ | hs <;> simp [hs] at hland
  | delay i hs | launch i hi hs => simp [hs] at hland
  | land j hj hs hcnt =>
    generalize hbeat : (presented (Phase.land (burst N A) j).outstanding t.port).isSome = beat
      at hstep
    generalize t.port.ready = taken at hstep
    cases hstep with
    | await =>
      cases h' with
      | land _ _ hs' => exact absurd hs' hleft
    | take hlt =>
      cases h' with
      | land _ _ hs' => exact absurd hs' hleft
    | takeLast hlast =>
      obtain rfl : j = N.toNat := Nat.succ.inj hlast
      refine ⟨⟨hs, ?_, by rw [hq, hbeat]⟩, ?_⟩
      · rw [hcnt, Nat.sub_self]
        rfl
      · rw [Master.presented_land hproper] at hbeat
        rw [Hosted.rdata, hq, Master.presented_land hproper]
        cases hvalid : t.port.valid with
        | false => rw [hvalid] at hbeat; cases hbeat
        | true => rfl

/-- **The edge of the reader**: a step of a pass, or the pass of the file. -/
theorem edge (h : Agrees x.reader x.outstanding x.issued f)
    (hok : Harmless x.reader (x.comboTrigger t.trigger) t.port.ready (x.rdata mem t.port)) :
    let y := (master aw dw).heldStep mem (x.reader, x.outstanding)
      (x.comboTrigger t.trigger, t.port)
    Agrees y.1 y.2 (x.issued ++ (master aw dw).accepted x.reader t.port)
      (if x.Completes t then f.pass mem else f) := by
  obtain ⟨φ, hat, hproper, hq, hissued⟩ := h.phase
  have href := refines dw f.rdCnt f.fillAddr
  obtain ⟨φ', hstep, hat'⟩ := href.next _ _ _ hat hok
  rw [Hosted.rdata, Option.isSome_map, hq] at hstep
  have hregs : (if x.Completes t then f.pass mem else f).rdCnt = f.rdCnt ∧
      (if x.Completes t then f.pass mem else f).fillAddr = f.fillAddr := by
    split <;> exact ⟨rfl, rfl⟩
  have hreads : (if x.Completes t then f.pass mem else f).reads =
      f.reads ++ φ.finished (presented φ.outstanding t.port).isSome := by
    rw [hat.finished, ← hq]
    split
    · rename_i hlast
      exact congrArg (f.reads ++ ·) (if_pos hlast).symm
    · rename_i hlast
      exact ((congrArg (f.reads ++ ·) (if_neg hlast)).trans (List.append_nil _)).symm
  refine ⟨⟨φ', ?_, hstep.proper hproper, ?_, ?_⟩, ?_⟩
  · rw [hregs.1, hregs.2]
    exact hat'
  · rw [hq]
    exact href.heldStep_snd hat hproper hstep
  · rw [hreads, List.append_assoc, ← hstep.issued, ← List.append_assoc, ← hissued,
      Master.accepted, href.cmd hat]
  · intro hleft
    have hword : (x.reader.next (x.comboTrigger t.trigger) t.port.ready
        (x.rdata mem t.port)).readbackWord = _ := readbackWord_next _ _ _ _
    refine hword.trans ?_
    by_cases hland : x.reader.state = .rdLand
    · obtain ⟨hlast, hdata⟩ := last_beat hat hproper hq hstep hland hat' hleft
      rw [if_pos hland, hdata, if_pos hlast]
      rfl
    · rw [if_neg hland, h.word hland, if_neg fun hlast => hland hlast.1]

/-- **An access of the host.** -/
theorem access {s : FlashEmuDRAM aw dw} {q issued : List (BitVec aw)} (h : Agrees s q issued f)
    (a : Access aw dw)
    (hquiet : (∃ v, a = .fillAddr v) ∨ (∃ n, a = .rdCnt n) →
      s.state = .reset ∨ (∃ i, s.state = .resetDelay i) ∨ s.state = .idle) :
    Agrees (a.write s) q issued (f.access a) := by
  obtain ⟨φ, hat, hproper, hq, hissued⟩ := h.phase
  -- at rest the FSM has no copy of the counters
  have hrest : s.state = .reset ∨ (∃ i, s.state = .resetDelay i) ∨ s.state = .idle →
      φ = .quiet ∧ s.rdCnt = f.rdCnt ∧ s.fillAddr = f.fillAddr := by
    intro hs
    cases hat with
    | rest _ hcnt haddr => exact ⟨rfl, hcnt, haddr⟩
    | delay i hs' | launch i hi hs' | land j hj hs' => simp [hs'] at hs
  cases a with
  | none | go level => exact ⟨⟨φ, hat, hproper, hq, hissued⟩, h.word⟩
  | read => exact ⟨⟨φ, hat, hproper, hq, hissued⟩, h.word⟩
  | readbackWord w => exact ⟨⟨φ, hat.readbackWord w, hproper, hq, hissued⟩, fun _ => rfl⟩
  | fillAddr v =>
    have hs := hquiet (Or.inl ⟨v, rfl⟩)
    obtain ⟨rfl, hcnt, -⟩ := hrest hs
    exact ⟨⟨.quiet, .rest hs hcnt rfl, trivial, hq, hissued⟩, h.word⟩
  | rdCnt n =>
    have hs := hquiet (Or.inr ⟨n, rfl⟩)
    obtain ⟨rfl, -, haddr⟩ := hrest hs
    exact ⟨⟨.quiet, .rest hs rfl haddr, trivial, hq, hissued⟩, h.word⟩

end Agrees

/-- Outside `RD_LAND` the host reads what the file holds. -/
theorem File.answers_next {mem : BitVec aw → BitVec dw} {x : Hosted aw dw} {f : File aw dw}
    {t : Tick aw dw} (h : Agrees x.reader x.outstanding x.issued f)
    (hanswers : x.answers = f.answers) (hok : Orderly mem (x, f) t) :
    (x.step mem t).answers = (f.next mem x t).answers := by
  have hsame : (if x.Completes t then f.pass mem else f).answers = f.answers := by
    split <;> rfl
  have hhost := hok.2
  rw [File.next, Hosted.step]
  cases ht : t.host with
  | read =>
    rw [ht] at hhost
    have hgoing : ¬ x.Completes t := fun hlast => hhost hlast.1
    simp only [if_neg hgoing, File.access, h.word hhost, hanswers]
  | _ => exact hanswers.trans hsame.symm

/-- **Step lemma.** An orderly cycle keeps the reader and the file in agreement. -/
theorem File.agrees_next {mem : BitVec aw → BitVec dw} {x : Hosted aw dw} {f : File aw dw}
    {t : Tick aw dw} (h : Agrees x.reader x.outstanding x.issued f) (hok : Orderly mem (x, f) t) :
    Agrees (x.step mem t).reader (x.step mem t).outstanding (x.step mem t).issued
      (f.next mem x t) := by
  refine (h.edge hok.1).access t.host ?_
  have hhost := hok.2
  rintro (⟨v, hv⟩ | ⟨n, hn⟩)
  · rw [hv] at hhost
    exact Programmable.next hhost _ _
  · rw [hn] at hhost
    exact Programmable.next hhost _ _

/-- **Passes are atomic to the host.** Start the reader in `RESET` with whatever is in its CSRs. In
every session in which the host programs the counters between passes only and keeps away from the
word while beats come in, and the trigger goes down only where that does no harm, at a port that
holds its beats: the host reads what it would from a register file in which a pass is one step, and
whenever no pass is in progress the CSRs are those of the file, nothing is outstanding, and the port
has accepted exactly the reads of the file's passes. -/
theorem host_session (mem : BitVec aw → BitVec dw) (fillAddr : BitVec aw) (rdCnt : BitVec 8)
    (readbackWord : BitVec dw) (go : Bool) (ts : List (Tick aw dw))
    (hok : Along (watch (Hosted.step mem) (File.next mem)) (Orderly mem)
      (Hosted.start fillAddr rdCnt readbackWord go, ⟨fillAddr, rdCnt, readbackWord, [], []⟩) ts) :
    let x := run (watch (Hosted.step mem) (File.next mem))
      (Hosted.start fillAddr rdCnt readbackWord go, ⟨fillAddr, rdCnt, readbackWord, [], []⟩) ts
    x.1.answers = x.2.answers ∧
      (x.1.reader.state ≠ .rdLaunch → x.1.reader.state ≠ .rdLand →
        x.1.reader.fillAddr = x.2.fillAddr ∧ x.1.reader.rdCnt = x.2.rdCnt ∧
          x.1.reader.readbackWord = x.2.readbackWord ∧ x.1.outstanding = [] ∧
          x.1.issued = x.2.reads) := by
  intro x
  have h : Agrees x.1.reader x.1.outstanding x.1.issued x.2 ∧ x.1.answers = x.2.answers := by
    refine run_invariant_of_along (P := fun (x : Hosted aw dw × File aw dw) =>
      Agrees x.1.reader x.1.outstanding x.1.issued x.2 ∧ x.1.answers = x.2.answers)
      (fun x t hok h => ⟨File.agrees_next h.1 hok, File.answers_next h.1 h.2 hok⟩) ?_ hok
    exact ⟨⟨⟨.quiet, .rest (Or.inl rfl) rfl rfl, trivial, rfl, rfl⟩, fun _ => rfl⟩, rfl⟩
  obtain ⟨⟨⟨φ, hat, -, hq, hissued⟩, hword⟩, hanswers⟩ := h
  refine ⟨hanswers, fun hlaunch hland => ?_⟩
  have hquiet : φ = .quiet := by
    cases hat with
    | rest hs | delay i hs => rfl
    | launch i hi hs => exact absurd hs hlaunch
    | land j hj hs => exact absurd hs hland
  subst hquiet
  rw [Phase.issued, List.append_nil] at hissued
  exact ⟨hat.csrs.2, hat.csrs.1, hword hland, hq, hissued⟩

/-- `dram_cli.py` twice over, with `go` up for one pass each time: four words from `0xaaa`, then
two from `0x123`. -/
theorem host_session_twice :
    let mem : BitVec 24 → BitVec 128 := fun a => a.setWidth 128
    let host := fun a : Access 24 128 => (⟨false, a, ⟨false, false⟩⟩ : Tick 24 128)
    let job := fun (fillAddr : BitVec 24) (rdCnt : BitVec 8) (n : ℕ) =>
      [host (.fillAddr fillAddr), host (.rdCnt rdCnt), host (.readbackWord (BitVec.allOnes 128)),
        host .read, host (.go true)] ++
        List.replicate n ⟨false, .none, ⟨true, true⟩⟩ ++ [host (.go false), host .read]
    let x := run (watch (Hosted.step mem) (File.next mem))
      (Hosted.start 0 0 0 false, ⟨0, 0, 0, [], []⟩) (job 0xaaa 3 40 ++ job 0x123 1 36)
    x.1.answers = [BitVec.allOnes 128, 0xaad, BitVec.allOnes 128, 0x124] ∧
      x.1.issued = [0xaaa, 0xaab, 0xaac, 0xaad, 0x123, 0x124] := by
  intro mem host job x
  obtain ⟨hanswers, hrest⟩ := host_session mem 0 0 0 false (job 0xaaa 3 40 ++ job 0x123 1 36)
    (by decide +kernel)
  have hquiet := hrest (by decide +kernel) (by decide +kernel)
  refine ⟨hanswers.trans ?_, hquiet.2.2.2.2.trans ?_⟩
  · decide +kernel
  · decide +kernel

end FlashEmuDRAM

end LiteSpiH4x
