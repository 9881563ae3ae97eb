import Mathlib.Data.List.Basic
import Mathlib.Data.Option.Basic

/-! # Read masters and the ports they talk to

A read port takes addresses on a command channel and returns one beat per accepted command, in
order and at least one cycle later. What a master drives is a function of its state, so a master
and a port form a machine that a schedule of `Cycle`s drives.

* **`Master`** — a master: command, readiness for data, and its clock edge.
* **`Master.heldStep`** — the port keeps a beat until the master takes it.
* **`Master.lossyStep`** — the port presents a beat for one cycle only. -/

namespace ReadPort

variable {σ ι A D : Type*}

/-- What a port does in one clock cycle. -/
structure Cycle where
  /-- A command driven in this cycle is accepted. -/
  ready : Bool
  /-- The oldest outstanding beat, if there is one, is presented. -/
  valid : Bool
  deriving DecidableEq, Repr

/-- A read master with states `σ`, inputs `ι` besides the port, addresses `A` and data `D`. -/
structure Master (σ ι A D : Type*) where
  /-- The command driven, if any. -/
  cmd : σ → Option A
  /-- Whether a presented beat is taken. -/
  ready : σ → Bool
  /-- The clock edge: inputs, whether the port was ready for a command, and the beat presented. -/
  next : σ → ι → Bool → Option D → σ

/-- The address whose beat is presented when the commands in `q` are outstanding. -/
def presented (q : List A) (c : Cycle) : Option A := if c.valid then q.head? else none

@[simp] theorem presented_nil (c : Cycle) : presented ([] : List A) c = none := by
  unfold presented
  split <;> rfl

/-- A beat is presented if the port wants to and a command is outstanding. -/
theorem isSome_presented (q : List A) (c : Cycle) :
    (presented q c).isSome = (c.valid && !q.isEmpty) := by
  unfold presented
  cases c.valid <;> cases q <;> rfl

/-- Nothing is presented unless something is outstanding. -/
theorem ne_nil_of_presented {q : List A} {c : Cycle} (h : (presented q c).isSome = true) :
    q ≠ [] := by
  rintro rfl
  rw [presented_nil] at h
  exact absurd h Bool.false_ne_true

namespace Master

variable (m : Master σ ι A D) (mem : A → D)

/-- The command accepted in a cycle, as a list of at most one address. -/
def accepted (s : σ) (c : Cycle) : List A := if c.ready then (m.cmd s).toList else []

/-- A master at a port that holds each beat until it is taken. The second component lists the
addresses of the accepted commands whose beats are still to be taken. -/
def heldStep (x : σ × List A) (e : ι × Cycle) : σ × List A :=
  (m.next x.1 e.1 e.2.ready ((presented x.2 e.2).map mem),
    (if m.ready x.1 && e.2.valid then x.2.tail else x.2) ++ m.accepted x.1 e.2)

/-- A master at a port that presents each beat for one cycle, taken or not. The second component
lists the addresses of the accepted commands whose beats are still to be presented. -/
def lossyStep (x : σ × List A) (e : ι × Cycle) : σ × List A :=
  (m.next x.1 e.1 e.2.ready ((presented x.2 e.2).map mem),
    (if e.2.valid then x.2.tail else x.2) ++ m.accepted x.1 e.2)

end Master

end ReadPort
