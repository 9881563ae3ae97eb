import LiteSpiH4x.ReadPort.Burst
import LiteSpiH4x.StepMachine.Run

/-! # The books of a pass

A `Ledger` lists the commands a pass has had accepted and the beats it has taken. It is opened
anew while the master neither drives a command nor listens for data, so after a pass it still
shows that pass.

* **`Refines.held_step`** — at a port that holds its beats the books follow the burst.
* **`Refines.along_takesBeat_iff`** — at a port that does not hold its beats, no beat is lost
  exactly if none comes before the pass has launched its last command. -/

namespace ReadPort

open StepMachine

variable {σ ι A D : Type*}

/-- The books of the pass in progress. -/
structure Ledger (A : Type*) where
  /-- Addresses of the commands accepted, oldest first. -/
  issued : List A := []
  /-- Addresses of the beats taken, oldest first. -/
  taken : List A := []
  deriving DecidableEq, Repr

/-- Book one cycle of a master that drives `cmd` and listens for data if `listens`, with the
commands `q` outstanding. -/
def Ledger.next (cmd : Option A) (listens : Bool) (q : List A) (c : Cycle) (l : Ledger A) :
    Ledger A :=
  -- between passes: a new page
  if cmd.isNone && !listens then {}
  else
    { issued := l.issued ++ (if c.ready then cmd.toList else [])
      taken := l.taken ++ (if listens then (presented q c).toList else []) }

namespace Phase

/-- The books of a pass in a phase. -/
def Booked (l : Ledger A) : Phase A → Prop
  | quiet => l.taken.length = l.issued.length
  | launch b i => i < b.count ∧ l.issued = (List.range i).map b.addr ∧ l.taken = []
  | land b j =>
    j < b.count ∧ l.issued = (List.range b.count).map b.addr ∧ l.taken.length = j

/-- How many beats may still come in a phase: none between passes. -/
def Owes (q : List A) : Phase A → Prop
  | quiet => q.length = 0
  | launch _ i => q.length ≤ i
  | land b j => j + q.length ≤ b.count

variable {φ φ' : Phase A} {q : List A} {l : Ledger A} {c : Cycle}

/-- **Step lemma.** The books stay right, whether or not beats are lost. -/
theorem Step.booked (h : Step φ c.ready (presented q c).isSome φ') (hb : φ.Booked l) :
    φ'.Booked (l.next φ.cmd φ.listens q c) := by
  have hlen : (presented q c).toList.length = if (presented q c).isSome then 1 else 0 := by
    cases presented q c <;> rfl
  rw [Ledger.next]
  -- only whether there was a beat, and how many the books got, matters from here on
  generalize (presented q c).toList = beats at hlen ⊢
  generalize (presented q c).isSome = beat at h hlen ⊢
  generalize c.ready = taken at h ⊢
  cases h with
  | wait => rfl
  | start h => exact ⟨h, rfl, rfl⟩
  | stall => simpa [Booked, cmd, listens] using hb
  | giveUp => simp_all [Booked, cmd, listens]
  | issue h => simp_all [Booked, cmd, listens, List.range_succ]
  | issueLast h => simp_all [Booked, cmd, listens, ← h, List.range_succ]
  | await => simp_all [Booked, cmd, listens]
  | take h => simp_all [Booked, cmd, listens]
  | takeLast h => simp_all [Booked, cmd, listens]

/-- The number of commands outstanding at a lossy port after a cycle. -/
theorem length_lossy (q : List A) (c : Cycle) (cmd : Option A) :
    ((if c.valid then q.tail else q) ++ (if c.ready then cmd.toList else [])).length =
      (if (presented q c).isSome then q.length - 1 else q.length) +
        (if c.ready then cmd.toList.length else 0) := by
  rw [List.length_append, isSome_presented]
  congr 1
  · cases c.valid <;> cases q <;> rfl
  · cases c.ready <;> rfl

/-- **Step lemma.** A lossy port never owes more beats than the pass still waits for. -/
theorem Step.owes (h : Step φ c.ready (presented q c).isSome φ') (hφ : φ.Proper)
    (ho : φ.Owes q) :
    φ'.Owes ((if c.valid then q.tail else q) ++ (if c.ready then φ.cmd.toList else [])) := by
  have hlen := length_lossy q c φ.cmd
  have hpos : (presented q c).isSome = true → 0 < q.length := by
    intro hbeat
    exact List.length_pos_of_ne_nil (ne_nil_of_presented hbeat)
  generalize (if c.valid then q.tail else q) ++ (if c.ready then φ.cmd.toList else []) = q'
    at hlen ⊢
  generalize (presented q c).isSome = beat at h hlen hpos
  generalize c.ready = taken at h hlen
  -- one inequality between lengths for each kind of step
  cases h <;> simp [Owes, Proper, cmd, -List.length_eq_zero_iff] at ho hφ hlen hpos ⊢
  all_goals grind

/-- Taking each beat that is presented, a pass loses none. -/
theorem Booked.taken_add_length (hq : φ = .quiet → q = [])
    (htakes : (presented q c).isSome = true → φ.listens = true)
    (hall : l.taken.length + q.length = l.issued.length) :
    (l.next φ.cmd φ.listens q c).taken.length +
        ((if c.valid then q.tail else q) ++ (if c.ready then φ.cmd.toList else [])).length =
      (l.next φ.cmd φ.listens q c).issued.length := by
  have hpos : (presented q c).isSome = true → 0 < q.length := by
    intro hbeat
    exact List.length_pos_of_ne_nil (ne_nil_of_presented hbeat)
  have hlen : (presented q c).toList.length = if (presented q c).isSome then 1 else 0 := by
    cases presented q c <;> rfl
  rw [length_lossy, Ledger.next]
  cases φ with
  | quiet => simp [hq rfl, cmd, listens]
  | launch b i =>
    simp [cmd, listens] at htakes ⊢
    grind
  | land b j =>
    simp [cmd, listens]
    grind

end Phase

namespace Master

variable (m : Master σ ι A D) (mem : A → D)

/-- The books kept of a master and a port. -/
def ledger (x : σ × List A) (e : ι × Cycle) (l : Ledger A) : Ledger A :=
  l.next (m.cmd x.1) (m.ready x.1) x.2 e.2

/-- A master at a port that holds its beats, with its books. -/
def bookedHeld : (σ × List A) × Ledger A → ι × Cycle → (σ × List A) × Ledger A :=
  watch (m.heldStep mem) m.ledger

/-- A master at a lossy port, with its books. -/
def bookedLossy : (σ × List A) × Ledger A → ι × Cycle → (σ × List A) × Ledger A :=
  watch (m.lossyStep mem) m.ledger

/-- The side condition of `Refines` at a cycle of the closed loop. -/
def Meets (ok : σ → ι → Bool → Option D → Prop) (x : (σ × List A) × Ledger A) (e : ι × Cycle) :
    Prop := ok x.1.1 e.1 e.2.ready ((presented x.1.2 e.2).map mem)

instance (ok : σ → ι → Bool → Option D → Prop) [∀ s i r d, Decidable (ok s i r d)]
    (x : (σ × List A) × Ledger A) (e : ι × Cycle) : Decidable (Meets mem ok x e) :=
  inferInstanceAs (Decidable (ok _ _ _ _))

/-- A beat presented in this cycle is taken. -/
def TakesBeat (x : (σ × List A) × Ledger A) (e : ι × Cycle) : Prop :=
  (presented x.1.2 e.2).isSome = true → m.ready x.1.1 = true

instance (x : (σ × List A) × Ledger A) (e : ι × Cycle) : Decidable (m.TakesBeat x e) :=
  inferInstanceAs (Decidable (_ = true → _ = true))

/-- A beat presented in this cycle comes when the pass has had all its `reads` commands
accepted. -/
def BeatAfterLaunch (reads : ℕ) (x : (σ × List A) × Ledger A) (e : ι × Cycle) : Prop :=
  (presented x.1.2 e.2).isSome = true → x.2.issued.length = reads

instance (reads : ℕ) (x : (σ × List A) × Ledger A) (e : ι × Cycle) :
    Decidable (BeatAfterLaunch reads x e) := inferInstanceAs (Decidable (_ = true → _ = _))

/-- The beats taken and those still to come are as many as the commands accepted. -/
def Complete (x : (σ × List A) × Ledger A) : Prop :=
  x.2.taken.length + x.1.2.length = x.2.issued.length

variable {m mem} {ok : σ → ι → Bool → Option D → Prop} {R : σ → Phase A → Prop}

namespace Refines

/-! ## At a port that holds its beats -/

/-- A master in some phase, its outstanding commands and its books as the phase has them. -/
def Held (R : σ → Phase A → Prop) (x : (σ × List A) × Ledger A) : Prop :=
  ∃ φ, R x.1.1 φ ∧ φ.Proper ∧ x.1.2 = φ.outstanding ∧ φ.Booked x.2

/-- **Step lemma.** Every cycle at a port that holds its beats follows the burst. -/
theorem held_step (h : m.Refines ok R) (x : (σ × List A) × Ledger A) (e : ι × Cycle)
    (hok : Meets mem ok x e) (hx : Held R x) : Held R (m.bookedHeld mem x e) := by
  obtain ⟨⟨s, q⟩, l⟩ := x
  obtain ⟨φ, hR, hφ, hq, hb⟩ := hx
  obtain ⟨φ', hstep, hR'⟩ := h.next e.1 e.2.ready ((presented q e.2).map mem) hR hok
  rw [Option.isSome_map] at hstep
  have hbooked := hstep.booked hb
  rw [← h.cmd hR, ← h.ready hR] at hbooked
  subst hq
  exact ⟨φ', hR', hstep.proper hφ, h.heldStep_snd hR hφ hstep, hbooked⟩

/-! ## At a lossy port -/

/-- A master in some phase, with books that are right. -/
def Tracked (R : σ → Phase A → Prop) (x : (σ × List A) × Ledger A) : Prop :=
  ∃ φ, R x.1.1 φ ∧ φ.Proper ∧ φ.Owes x.1.2 ∧ φ.Booked x.2

/-- **Step lemma.** Every cycle at a lossy port keeps the books right. -/
theorem tracked_step (h : m.Refines ok R) (x : (σ × List A) × Ledger A) (e : ι × Cycle)
    (hok : Meets mem ok x e) (hx : Tracked R x) : Tracked R (m.bookedLossy mem x e) := by
  obtain ⟨⟨s, q⟩, l⟩ := x
  obtain ⟨φ, hR, hφ, ho, hb⟩ := hx
  obtain ⟨φ', hstep, hR'⟩ := h.next e.1 e.2.ready ((presented q e.2).map mem) hR hok
  rw [Option.isSome_map] at hstep
  have howes := hstep.owes hφ ho
  have hbooked := hstep.booked hb
  rw [← h.cmd hR] at howes
  rw [← h.cmd hR, ← h.ready hR] at hbooked
  exact ⟨φ', hR', hstep.proper hφ, howes, hbooked⟩

/-- **When a beat is taken.** A presented beat is taken exactly if all commands are accepted. -/
theorem takesBeat_iff (h : m.Refines ok R) {reads : ℕ}
    (hreads : ∀ {s b i}, R s (.launch b i) ∨ R s (.land b i) → b.count = reads)
    (x : (σ × List A) × Ledger A) (hx : Tracked R x) (e : ι × Cycle) :
    m.TakesBeat x e ↔ BeatAfterLaunch reads x e := by
  obtain ⟨⟨s, q⟩, l⟩ := x
  obtain ⟨φ, hR, hφ, ho, hb⟩ := hx
  refine imp_congr_right ?_
  intro hbeat
  have hpos := List.length_pos_of_ne_nil (ne_nil_of_presented hbeat)
  rw [h.ready hR]
  cases φ with
  -- between passes nothing is outstanding, so no beat can come
  | quiet => exact absurd ho hpos.ne'
  | launch b i =>
    -- a beat during the launch finds the master deaf and the books incomplete
    have hne : l.issued.length ≠ reads := by
      rw [hb.2.1, List.length_map, List.length_range, ← hreads (Or.inl hR)]
      exact hb.1.ne
    exact ⟨fun hr => absurd hr Bool.false_ne_true, fun hc => absurd hc hne⟩
  | land b j =>
    refine ⟨?_, fun _ => rfl⟩
    intro _
    rw [hb.2.1, List.length_map, List.length_range, hreads (Or.inr hR)]

/-- Taking each beat keeps the pass complete. -/
theorem complete_step (h : m.Refines ok R) (x : (σ × List A) × Ledger A) (e : ι × Cycle)
    (htakes : m.TakesBeat x e) (hx : Tracked R x) (hc : Complete x) :
    Complete (m.bookedLossy mem x e) := by
  obtain ⟨⟨s, q⟩, l⟩ := x
  obtain ⟨φ, hR, hφ, ho, hb⟩ := hx
  rw [TakesBeat, h.ready hR] at htakes
  have hquiet : φ = .quiet → q = [] := by
    rintro rfl
    exact List.length_eq_zero_iff.mp ho
  have hnext := Phase.Booked.taken_add_length hquiet htakes hc
  rwa [← h.cmd hR, ← h.ready hR] at hnext

/-- **No beat is lost** in a run, and the pass it ends in is complete, exactly if every beat comes
after the pass has launched its last command. -/
theorem along_takesBeat_iff (h : m.Refines ok R) {reads : ℕ}
    (hreads : ∀ {s b i}, R s (.launch b i) ∨ R s (.land b i) → b.count = reads) {s : σ}
    (hs : R s .quiet) {es : List (ι × Cycle)}
    (hok : Along (m.bookedLossy mem) (Meets mem ok) ((s, []), {}) es) :
    (Along (m.bookedLossy mem) m.TakesBeat ((s, []), {}) es ∧
        Complete (run (m.bookedLossy mem) ((s, []), {}) es)) ↔
      Along (m.bookedLossy mem) (BeatAfterLaunch reads) ((s, []), {}) es := by
  have hstart : Tracked R ((s, []), ({} : Ledger A)) := ⟨.quiet, hs, trivial, rfl, rfl⟩
  have hkeep : ∀ (C : (σ × List A) × Ledger A → ι × Cycle → Prop) x e, Meets mem ok x e ∧ C x e →
      Tracked R x → Tracked R (m.bookedLossy mem x e) :=
    fun _ x e hc hx => h.tracked_step x e hc.1 hx
  constructor
  · rintro ⟨htakes, -⟩
    exact (hok.and htakes).imp (hkeep _)
      (fun x e hx hc => (h.takesBeat_iff hreads x hx e).mp hc.2) hstart
  · intro hlate
    have htakes : Along (m.bookedLossy mem) m.TakesBeat ((s, []), {}) es :=
      (hok.and hlate).imp (hkeep _)
        (fun x e hx hc => (h.takesBeat_iff hreads x hx e).mpr hc.2) hstart
    have hboth := run_invariant_of_along (P := fun x => Tracked R x ∧ Complete x)
      (fun x e hc hx => ⟨h.tracked_step x e hc.1 hx.1, h.complete_step x e hc.2 hx.1 hx.2⟩)
      ⟨hstart, rfl⟩ (hok.and htakes)
    exact ⟨htakes, hboth.2⟩

end Refines

end Master

end ReadPort
