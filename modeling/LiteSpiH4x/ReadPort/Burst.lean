import LiteSpiH4x.ReadPort.Master
import Mathlib.Data.List.Range

/-! # Bursts: launch all commands, then land all beats

The abstract behaviour of a read master that works in passes: a pass drives the commands of a
`Burst` one after the other and listens for data only when the last of them is accepted.

* **`Phase.Step`** — what a cycle can do to a pass, from what the port did in it.
* **`Master.Refines`** — a master whose every edge is such a step, under a side condition on the
  inputs.
* **`Refines.heldStep_snd`** — at a port that holds its beats, the commands outstanding are those
  of the burst not yet answered, so nothing is outstanding between passes. -/

namespace ReadPort

variable {σ ι A D : Type*}

/-- The reads of one pass. -/
structure Burst (A : Type*) where
  /-- Address of each read. -/
  addr : ℕ → A
  /-- Number of reads. -/
  count : ℕ

/-- Where a pass is. -/
inductive Phase (A : Type*)
  | quiet
  /-- `i` commands have been accepted. -/
  | launch (b : Burst A) (i : ℕ)
  /-- All commands have been accepted, and `j` beats taken. -/
  | land (b : Burst A) (j : ℕ)

namespace Phase

/-- The command driven. -/
def cmd : Phase A → Option A
  | launch b i => some (b.addr i)
  | _ => none

/-- Whether data is listened for. -/
def listens : Phase A → Bool
  | land _ _ => true
  | _ => false

/-- The commands accepted whose beats have not been taken. -/
def outstanding : Phase A → List A
  | quiet => []
  | launch b i => (List.range i).map b.addr
  | land b j => ((List.range b.count).drop j).map b.addr

/-- The commands of the pass that have been accepted. -/
def issued : Phase A → List A
  | quiet => []
  | launch b i => (List.range i).map b.addr
  | land b _ => (List.range b.count).map b.addr

/-- The commands of the pass that ends with a beat, if it does. -/
def finished (beat : Bool) : Phase A → List A
  | land b j => if beat = true ∧ j + 1 = b.count then (List.range b.count).map b.addr else []
  | _ => []

/-- A pass has commands left to launch, or beats left to take. -/
def Proper : Phase A → Prop
  | quiet => True
  | launch b i => i < b.count
  | land b j => j < b.count

/-- **One cycle of a pass**, given whether the port took the command driven in it and whether it
presented a beat. A pass may still be given up while none of its commands is accepted. -/
inductive Step : Phase A → Bool → Bool → Phase A → Prop
  | wait {taken beat} : Step quiet taken beat quiet
  | start {b taken beat} (h : 0 < b.count) : Step quiet taken beat (launch b 0)
  | stall {b i beat} : Step (launch b i) false beat (launch b i)
  | giveUp {b beat} : Step (launch b 0) false beat quiet
  | issue {b i beat} (h : i + 1 < b.count) : Step (launch b i) true beat (launch b (i + 1))
  | issueLast {b i beat} (h : i + 1 = b.count) : Step (launch b i) true beat (land b 0)
  | await {b j taken} : Step (land b j) taken false (land b j)
  | take {b j taken} (h : j + 1 < b.count) : Step (land b j) taken true (land b (j + 1))
  | takeLast {b j taken} (h : j + 1 = b.count) : Step (land b j) taken true quiet

variable {φ φ' : Phase A} {taken beat : Bool}

/-- A step leaves a proper phase. -/
theorem Step.proper (h : Step φ taken beat φ') (hφ : φ.Proper) : φ'.Proper := by
  cases h with
  | wait => trivial
  | start h => exact h
  | stall => exact hφ
  | giveUp => trivial
  | issue h => exact h
  | issueLast h => exact Nat.lt_of_lt_of_eq (Nat.succ_pos _) h
  | await => exact hφ
  | take h => exact h
  | takeLast h => trivial

/-- The beat due while a pass lands is that of its next read. -/
theorem head?_outstanding {b : Burst A} {j : ℕ} (hj : j < b.count) :
    (land b j).outstanding.head? = some (b.addr j) := by
  have hlen : j < (List.range b.count).length := by rwa [List.length_range]
  rw [outstanding, List.drop_eq_getElem_cons hlen, List.map_cons, List.head?_cons,
    List.getElem_range]

/-- **Outstanding commands.** A step adds the command it had accepted and removes the one whose
beat it took. -/
theorem Step.outstanding (h : Step φ taken beat φ') (hφ : φ.Proper) :
    φ'.outstanding =
      (if φ.listens && beat then φ.outstanding.tail else φ.outstanding) ++
        (if taken then φ.cmd.toList else []) := by
  cases h with
  | wait | start _ | stall | giveUp => simp [Phase.outstanding, listens, cmd]
  | issue h => simp [Phase.outstanding, listens, cmd, List.range_succ]
  | issueLast h => simp [Phase.outstanding, listens, cmd, ← h, List.range_succ]
  | await => simp [Phase.outstanding, listens, cmd]
  | take h => simp [Phase.outstanding, listens, cmd]
  | takeLast h => simp [Phase.outstanding, listens, cmd, h]

/-- **Accepted commands.** A step adds the command it had accepted, and they are those of the pass
in progress and of the one that has just ended. -/
theorem Step.issued (h : Step φ taken beat φ') :
    φ.issued ++ (if taken then φ.cmd.toList else []) = φ.finished beat ++ φ'.issued := by
  cases h with
  | wait | start _ | stall | giveUp => simp [Phase.issued, finished, cmd]
  | issue h => simp [Phase.issued, finished, cmd, List.range_succ]
  | issueLast h => simp [Phase.issued, finished, cmd, ← h, List.range_succ]
  | await => simp [Phase.issued, finished, cmd]
  | take h => simp [Phase.issued, finished, cmd, h.ne]
  | takeLast h => simp [Phase.issued, finished, cmd, h]

end Phase

namespace Master

variable (m : Master σ ι A D)

/-- Under the side condition `ok` on state, inputs, readiness and beat, every edge of the master
is a step of a pass. -/
structure Refines (ok : σ → ι → Bool → Option D → Prop) (R : σ → Phase A → Prop) : Prop where
  cmd : ∀ {s φ}, R s φ → m.cmd s = φ.cmd
  ready : ∀ {s φ}, R s φ → m.ready s = φ.listens
  next : ∀ {s φ} (i : ι) (taken : Bool) (d : Option D), R s φ → ok s i taken d →
    ∃ φ', Phase.Step φ taken d.isSome φ' ∧ R (m.next s i taken d) φ'

variable {m} {mem : A → D} {ok : σ → ι → Bool → Option D → Prop} {R : σ → Phase A → Prop}

/-- A stronger side condition will do. -/
theorem Refines.weaken (h : m.Refines ok R) {ok' : σ → ι → Bool → Option D → Prop}
    (himp : ∀ s i taken d, ok' s i taken d → ok s i taken d) : m.Refines ok' R where
  cmd := h.cmd
  ready := h.ready
  next := fun i taken d hR hok => h.next i taken d hR (himp _ i taken d hok)

/-- **At a port that holds its beats** the commands outstanding are those of the phase. -/
theorem Refines.heldStep_snd (h : m.Refines ok R) {s : σ} {φ φ' : Phase A} (hR : R s φ)
    (hφ : φ.Proper) {e : ι × Cycle}
    (hstep : Phase.Step φ e.2.ready (presented φ.outstanding e.2).isSome φ') :
    (m.heldStep mem (s, φ.outstanding) e).2 = φ'.outstanding := by
  -- `valid` without an outstanding command presents nothing and removes nothing
  have htail : (if φ.listens && e.2.valid then φ.outstanding.tail else φ.outstanding) =
      if φ.listens && (presented φ.outstanding e.2).isSome then φ.outstanding.tail
      else φ.outstanding := by
    rw [isSome_presented]
    cases φ.listens <;> cases e.2.valid <;> cases φ.outstanding <;> rfl
  rw [heldStep, accepted, h.cmd hR, h.ready hR, hstep.outstanding hφ, htail]

/-- While a pass lands, the beat presented is the word its next read asked for. -/
theorem presented_land {b : Burst A} {j : ℕ} (hj : j < b.count) (c : Cycle) :
    presented (Phase.land b j).outstanding c = if c.valid then some (b.addr j) else none := by
  rw [presented, Phase.head?_outstanding hj]

end Master

end ReadPort
