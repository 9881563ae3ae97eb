import LiteSpiH4x.ReadPort.Ledger

/-! # The journal of a run's passes

A `Journal` keeps, next to the books of the pass in progress, those of every pass that has ended,
each with the inputs it was started under and the state it left behind.

* **`Master.journal`** — the monitor.
* **`Journal.Kept`** — every pass closed had all its commands accepted and took all their beats,
  in order, and the pass in progress has done so as far as it has come.
* **`Refines.kept_run`** — so it is along every run of a master that never gives a pass up, at a
  port that holds its beats. -/

namespace ReadPort

open StepMachine

variable {σ ι A D : Type*}

/-- A pass that has ended. -/
structure Entry (σ ι A : Type*) where
  /-- The inputs of the edge that started it. -/
  input : Option ι
  /-- Its books. -/
  book : Ledger A
  /-- The state it left behind. -/
  after : σ

/-- The passes of a run. -/
structure Journal (σ ι A : Type*) where
  /-- The passes that have ended, the oldest first. -/
  closed : List (Entry σ ι A) := []
  /-- The inputs of the last edge between passes. -/
  input : Option ι := none
  /-- The books of the pass in progress. -/
  book : Ledger A := {}

/-- The commands of a burst. -/
def Burst.addrs (b : Burst A) (i : ℕ) : List A := (List.range i).map b.addr

/-- One more command. -/
theorem Burst.addrs_succ (b : Burst A) (i : ℕ) : b.addrs (i + 1) = b.addrs i ++ [b.addr i] := by
  rw [addrs, List.range_succ, List.map_append]
  rfl

/-- The books of a pass in progress are those of a burst: `i` of its commands have been accepted
and `j` of their beats taken, each time the first ones, in order. -/
def Ledger.Of (l : Ledger A) (b : Burst A) (i j : ℕ) : Prop :=
  l.issued = b.addrs i ∧ l.taken = b.addrs j

namespace Master

variable (m : Master σ ι A D) (mem : A → D)

/-- A pass is in progress. -/
def busy (s : σ) : Bool := (m.cmd s).isSome || m.ready s

/-- Keep the journal: between passes the inputs are noted, during one the books are kept, and the
edge that ends it closes them. -/
def journal (x : σ × List A) (e : ι × Cycle) (j : Journal σ ι A) : Journal σ ι A :=
  let s' := (m.heldStep mem x e).1
  let book := m.ledger x e j.book
  { closed :=
      if m.busy x.1 && !m.busy s' then j.closed ++ [⟨j.input, book, s'⟩] else j.closed
    input := if m.busy x.1 then j.input else some e.1
    book := book }

/-- A master at a port that holds its beats, with the journal of its passes. -/
def journalHeld : (σ × List A) × Journal σ ι A → ι × Cycle → (σ × List A) × Journal σ ι A :=
  watch (m.heldStep mem) (m.journal mem)

/-- The side condition of `Refines` at a cycle of the closed loop with its journal. -/
def Obeys (ok : σ → ι → Bool → Option D → Prop) (x : (σ × List A) × Journal σ ι A)
    (e : ι × Cycle) : Prop := ok x.1.1 e.1 e.2.ready ((presented x.1.2 e.2).map mem)

/-- What is known of a master beyond its steps being those of passes: under which inputs a pass
over a burst starts, what it leaves behind, and that it is not given up. -/
structure Runs (mem : A → D) (ok : σ → ι → Bool → Option D → Prop) (R : σ → Phase A → Prop)
    (Opens : ι → Burst A → Prop) (Done : Burst A → σ → Prop) : Prop where
  refines : m.Refines ok R
  opens : ∀ {s i taken d b}, R s .quiet → ok s i taken d → R (m.next s i taken d) (.launch b 0) →
    Opens i b
  done : ∀ {s i taken b j}, R s (.land b j) → j + 1 = b.count →
    ok s i taken (some (mem (b.addr j))) → R (m.next s i taken (some (mem (b.addr j)))) .quiet →
    Done b (m.next s i taken (some (mem (b.addr j))))
  keeps : ∀ {s i taken d b}, R s (.launch b 0) → ok s i taken d →
    ¬ R (m.next s i taken d) .quiet

end Master

namespace Journal

/-- A pass that ended did what it should. -/
def Right (Opens : ι → Burst A → Prop) (Done : Burst A → σ → Prop) (p : Entry σ ι A) : Prop :=
  ∃ i b, p.input = some i ∧ Opens i b ∧ p.book.Of b b.count b.count ∧ Done b p.after

/-- The pass in progress has done what it should so far. -/
def Going (Opens : ι → Burst A → Prop) (input : Option ι) (l : Ledger A) : Phase A → Prop
  | .quiet => True
  | .launch b i => (∃ inp, input = some inp ∧ Opens inp b) ∧ l.Of b i 0
  | .land b j => (∃ inp, input = some inp ∧ Opens inp b) ∧ l.Of b b.count j

/-- The journal is right: of every pass that ended and of the one in progress. -/
def Kept (R : σ → Phase A → Prop) (Opens : ι → Burst A → Prop) (Done : Burst A → σ → Prop)
    (x : (σ × List A) × Journal σ ι A) : Prop :=
  (∀ p ∈ x.2.closed, Right Opens Done p) ∧
    ∃ φ, R x.1.1 φ ∧ φ.Proper ∧ x.1.2 = φ.outstanding ∧ Going Opens x.2.input x.2.book φ

end Journal

namespace Master.Runs

variable {m : Master σ ι A D} {mem : A → D} {ok : σ → ι → Bool → Option D → Prop}
  {R : σ → Phase A → Prop} {Opens : ι → Burst A → Prop} {Done : Burst A → σ → Prop}

/-- A pass is in progress in every phase but the quiet one. -/
theorem busy_eq (h : m.Runs mem ok R Opens Done) {s : σ} {φ : Phase A} (hR : R s φ) :
    m.busy s = true ↔ φ ≠ .quiet := by
  rw [Master.busy, h.refines.cmd hR, h.refines.ready hR]
  cases φ <;> simp [Phase.cmd, Phase.listens]

/-- The books in the phase they are kept in. -/
theorem ledger_eq (h : m.Runs mem ok R Opens Done) {s : σ} {φ : Phase A} (hR : R s φ) (q : List A)
    (e : ι × Cycle) (l : Ledger A) :
    m.ledger (s, q) e l = l.next φ.cmd φ.listens q e.2 := by
  rw [Master.ledger, h.refines.cmd hR, h.refines.ready hR]

/-- A beat presented while a pass lands is that of its next read. -/
theorem presented_of_isSome {b : Burst A} {j : ℕ} (hj : j < b.count) {c : Cycle}
    (h : (presented (Phase.land b j).outstanding c).isSome = true) :
    presented (Phase.land b j).outstanding c = some (b.addr j) := by
  rw [presented_land hj] at h ⊢
  split at h
  · rw [if_pos ‹_›]
  · cases h

/-- **The pass in progress**, a cycle on. -/
theorem going_step (h : m.Runs mem ok R Opens Done) {s : σ} {φ φ' : Phase A} {e : ι × Cycle}
    {input : Option ι} {l : Ledger A} (hR : R s φ)
    (hok : ok s e.1 e.2.ready ((presented φ.outstanding e.2).map mem))
    (hR' : R (m.next s e.1 e.2.ready ((presented φ.outstanding e.2).map mem)) φ')
    (hφ : φ.Proper) (hstep : Phase.Step φ e.2.ready (presented φ.outstanding e.2).isSome φ')
    (hg : Journal.Going Opens input l φ) :
    Journal.Going Opens (if m.busy s then input else some e.1)
      (l.next φ.cmd φ.listens φ.outstanding e.2) φ' := by
  have hbusy := h.busy_eq hR
  have hkeep : φ ≠ .quiet → (if m.busy s then input else some e.1) = input :=
    fun hne => if_pos (hbusy.mpr hne)
  -- whether the port was ready, and whether it presented a beat, decide the case
  generalize htaken : e.2.ready = taken at hstep hok hR'
  generalize hbeat : (presented φ.outstanding e.2).isSome = beat at hstep
  cases hstep with
  | wait => trivial
  | start hb =>
    rw [if_neg fun hf => hbusy.mp hf rfl]
    exact ⟨⟨_, rfl, h.opens hR hok hR'⟩, rfl, rfl⟩
  | stall =>
    rw [hkeep (by simp)]
    obtain ⟨hinput, hissued, htook⟩ := hg
    refine ⟨hinput, ?_, ?_⟩
    · simp [Ledger.next, Phase.cmd, Phase.listens, htaken, hissued]
    · simp [Ledger.next, Phase.cmd, Phase.listens, htook]
  | giveUp => exact absurd hR' (h.keeps hR hok)
  | issue hi =>
    rw [hkeep (by simp)]
    obtain ⟨hinput, hissued, htook⟩ := hg
    refine ⟨hinput, ?_, ?_⟩
    · simp [Ledger.next, Phase.cmd, Phase.listens, htaken, hissued, Burst.addrs_succ]
    · simp [Ledger.next, Phase.cmd, Phase.listens, htook]
  | issueLast hi =>
    rw [hkeep (by simp)]
    obtain ⟨hinput, hissued, htook⟩ := hg
    refine ⟨hinput, ?_, ?_⟩
    · simp [Ledger.next, Phase.cmd, Phase.listens, htaken, hissued, ← hi, Burst.addrs_succ]
    · simp [Ledger.next, Phase.cmd, Phase.listens, htook]
  | await =>
    rw [hkeep (by simp)]
    obtain ⟨hinput, hissued, htook⟩ := hg
    refine ⟨hinput, ?_, ?_⟩
    · simp [Ledger.next, Phase.cmd, Phase.listens, hissued]
    · simp [Ledger.next, Phase.cmd, Phase.listens, htook, Option.isSome_eq_false_iff] at hbeat ⊢
      exact hbeat
  | take hj =>
    rw [hkeep (by simp)]
    obtain ⟨hinput, hissued, htook⟩ := hg
    refine ⟨hinput, ?_, ?_⟩
    · simp [Ledger.next, Phase.cmd, Phase.listens, hissued]
    · simp [Ledger.next, Phase.cmd, Phase.listens, htook, presented_of_isSome hφ hbeat,
        Burst.addrs_succ]
  | takeLast hj => trivial

/-- **The pass that ends.** -/
theorem right_of_ended (h : m.Runs mem ok R Opens Done) {s : σ} {φ φ' : Phase A} {e : ι × Cycle}
    {input : Option ι} {l : Ledger A} (hR : R s φ)
    (hok : ok s e.1 e.2.ready ((presented φ.outstanding e.2).map mem))
    (hR' : R (m.next s e.1 e.2.ready ((presented φ.outstanding e.2).map mem)) φ')
    (hφ : φ.Proper) (hstep : Phase.Step φ e.2.ready (presented φ.outstanding e.2).isSome φ')
    (hg : Journal.Going Opens input l φ) (hbusy : φ ≠ .quiet) (hquiet : φ' = .quiet) :
    Journal.Right Opens Done ⟨input, l.next φ.cmd φ.listens φ.outstanding e.2,
      m.next s e.1 e.2.ready ((presented φ.outstanding e.2).map mem)⟩ := by
  subst hquiet
  generalize htaken : e.2.ready = taken at hstep hok hR'
  generalize hbeat : (presented φ.outstanding e.2).isSome = beat at hstep
  cases hstep with
  | wait => exact absurd rfl hbusy
  | giveUp => exact absurd hR' (h.keeps hR hok)
  | takeLast hj =>
    obtain ⟨⟨inp, hinput, hopens⟩, hissued, htook⟩ := hg
    have hpresented := presented_of_isSome hφ hbeat
    rw [hpresented] at hok hR'
    refine ⟨inp, _, hinput, hopens, ⟨?_, ?_⟩, ?_⟩
    · simp [Ledger.next, Phase.cmd, Phase.listens, hissued]
    · simp [Ledger.next, Phase.cmd, Phase.listens, htook, hpresented, ← hj, Burst.addrs_succ]
    · rw [hpresented]
      exact h.done hR hj hok hR'

/-- **Step lemma.** Every cycle at a port that holds its beats keeps the journal right. -/
theorem kept_step (h : m.Runs mem ok R Opens Done) (x : (σ × List A) × Journal σ ι A)
    (e : ι × Cycle) (hok : Obeys mem ok x e) (hx : Journal.Kept R Opens Done x) :
    Journal.Kept R Opens Done (m.journalHeld mem x e) := by
  obtain ⟨⟨s, q⟩, j⟩ := x
  obtain ⟨hclosed, φ, hR, hφ, hq, hg⟩ := hx
  obtain rfl : q = φ.outstanding := hq
  obtain ⟨φ', hstep, hR'⟩ :=
    h.refines.next e.1 e.2.ready ((presented φ.outstanding e.2).map mem) hR hok
  rw [Option.isSome_map] at hstep
  have hgoing := h.going_step hR hok hR' hφ hstep hg
  rw [← h.ledger_eq hR] at hgoing
  refine ⟨?_, φ', hR', hstep.proper hφ, h.refines.heldStep_snd hR hφ hstep, hgoing⟩
  -- a pass is closed by the edge that ends it
  intro p hp
  by_cases hends : (m.busy s && !m.busy (m.heldStep mem (s, φ.outstanding) e).1) = true
  · simp only [Master.journalHeld, watch, Master.journal, if_pos hends, List.mem_append,
      List.mem_singleton] at hp
    rcases hp with hp | rfl
    · exact hclosed p hp
    · rw [Bool.and_eq_true, Bool.not_eq_true', ← Bool.not_eq_true] at hends
      have hne := (h.busy_eq hR).mp hends.1
      have hquiet : φ' = .quiet := by
        by_contra hbusy
        exact hends.2 ((h.busy_eq hR').mpr hbusy)
      have hright := h.right_of_ended hR hok hR' hφ hstep hg hne hquiet
      rw [← h.ledger_eq hR] at hright
      exact hright
  · simp only [Master.journalHeld, watch, Master.journal, if_neg hends] at hp
    exact hclosed p hp

/-- **Run lemma.** From a state between passes, the journal is right after every run that meets
the side condition. -/
theorem kept_run (h : m.Runs mem ok R Opens Done) {s : σ} (hs : R s .quiet)
    {es : List (ι × Cycle)} (hok : Along (m.journalHeld mem) (Obeys mem ok) ((s, []), {}) es) :
    Journal.Kept R Opens Done (run (m.journalHeld mem) ((s, []), {}) es) := by
  refine run_invariant_of_along h.kept_step ⟨?_, .quiet, hs, trivial, rfl, trivial⟩ hok
  intro p hp
  exact absurd hp List.not_mem_nil

end Master.Runs

end ReadPort
