import LiteSpiH4x.ReadPort.Ledger

/-! # Whether a pass can still end

A pass ends when it has taken a beat for each of its commands. A port that holds its beats brings
the end nearer with every cycle in which it is ready for a command and has a beat valid. At a lossy
port the beats still to come are those outstanding, so a pass that has lost one waits for ever.

* **`Refines.ends`** — at a port that holds its beats, every pass ends.
* **`Refines.not_complete_step`** — what is lost stays lost, whatever master and port do.
* **`Refines.finishes`** — a pass that has lost nothing ends, if the port does its part.
* **`Refines.atRest_iff`** — a run can be continued to a state between passes exactly if it has
  lost no beat. -/

namespace ReadPort

open StepMachine

variable {σ ι A D : Type*}

namespace Phase

variable {φ φ' : Phase A} {q : List A} {l : Ledger A} {c : Cycle}

/-- The accepted commands and taken beats that a pass is short of its end. -/
def remaining : Phase A → ℕ
  | quiet => 0
  | launch b i => b.count - i + b.count
  | land b j => b.count - j

/-- **The books of a cycle within a pass.** A command accepted is booked and outstanding, a beat
presented is no longer outstanding, and booked if the master listens. -/
theorem length_next (hφ : φ ≠ quiet) :
    ∃ n, (l.next φ.cmd φ.listens q c).issued.length = l.issued.length + n ∧
      (l.next φ.cmd φ.listens q c).taken.length +
          ((if c.valid then q.tail else q) ++ (if c.ready then φ.cmd.toList else [])).length +
          (if (presented q c).isSome && !φ.listens then 1 else 0) =
        l.taken.length + q.length + n := by
  have hpos : (presented q c).isSome = true → 0 < q.length := by
    intro hbeat
    exact List.length_pos_of_ne_nil (ne_nil_of_presented hbeat)
  have hlen : (presented q c).toList.length = if (presented q c).isSome then 1 else 0 := by
    cases presented q c <;> rfl
  rw [length_lossy, Ledger.next]
  refine ⟨if c.ready then φ.cmd.toList.length else 0, ?_, ?_⟩
  · cases φ with
    | quiet => exact absurd rfl hφ
    | launch b i => cases c.ready <;> simp [cmd, listens]
    | land b j => cases c.ready <;> simp [cmd, listens]
  · cases φ with
    | quiet => exact absurd rfl hφ
    | launch b i =>
      simp [cmd, listens]
      grind
    | land b j =>
      simp [cmd, listens]
      grind

/-- The books never show more beats than commands. -/
theorem Booked.length_le (hb : φ.Booked l) (ho : φ.Owes q) :
    l.taken.length + q.length ≤ l.issued.length := by
  cases φ with
  | quiet =>
    rw [Owes] at ho
    rw [Booked] at hb
    omega
  | launch b i =>
    obtain ⟨-, hissued, htaken⟩ := hb
    rw [hissued, htaken, List.length_map, List.length_range, List.length_nil, Nat.zero_add]
    exact ho
  | land b j =>
    obtain ⟨-, hissued, htaken⟩ := hb
    rw [hissued, htaken, List.length_map, List.length_range]
    exact ho

/-- A pass that listens and has lost nothing has a beat outstanding. -/
theorem Booked.ne_nil_of_listens (hb : φ.Booked l) (hl : φ.listens = true) (hφ : φ.Proper)
    (hall : l.taken.length + q.length = l.issued.length) : q ≠ [] := by
  cases φ with
  | quiet | launch b i => exact absurd hl Bool.false_ne_true
  | land b j =>
    obtain ⟨-, hissued, htaken⟩ := hb
    rw [hissued, htaken, List.length_map, List.length_range] at hall
    rw [Proper] at hφ
    exact List.ne_nil_of_length_pos (by omega)

/-- A cycle in which the port takes the command driven, or presents the beat listened for, brings
the end nearer. -/
theorem Step.remaining_lt {beat : Bool} (h : Step φ true beat φ') (hφ : φ.Proper)
    (hbusy : φ ≠ quiet) (hbeat : φ.listens = true → beat = true) :
    φ'.remaining < φ.remaining := by
  cases h with
  | wait | start => exact absurd rfl hbusy
  | issue h | issueLast h =>
    simp only [remaining, Proper] at hφ ⊢
    omega
  | await => exact absurd (hbeat rfl) Bool.false_ne_true
  | take h | takeLast h =>
    simp only [remaining, Proper] at hφ ⊢
    omega

/-- No cycle takes the end further away. -/
theorem Step.remaining_le {taken beat : Bool} (h : Step φ taken beat φ') (hφ : φ.Proper)
    (hbusy : φ ≠ quiet) : φ'.remaining ≤ φ.remaining := by
  cases h with
  | wait | start => exact absurd rfl hbusy
  | stall | await => exact le_rfl
  | giveUp => exact Nat.zero_le _
  | issue h | issueLast h | take h | takeLast h =>
    simp only [remaining, Proper] at hφ ⊢
    omega

/-- Only between passes nothing remains to be done. -/
theorem quiet_of_remaining (hφ : φ.Proper) (h : φ.remaining = 0) : φ = quiet := by
  cases φ with
  | quiet => rfl
  | launch b i | land b j =>
    simp only [remaining, Proper] at hφ h
    omega

end Phase

/-- A cycle in which the port is ready for a command and has a beat valid. -/
def Cycle.generous (c : Cycle) : Bool := c.ready && c.valid

namespace Master

variable (m : Master σ ι A D)

/-- The master is between passes: it neither drives a command nor listens for data. -/
def AtRest (s : σ) : Prop := m.cmd s = none ∧ m.ready s = false

variable {m} {mem : A → D} {ok : σ → ι → Bool → Option D → Prop} {R : σ → Phase A → Prop}

namespace Refines

/-- Between passes is the phase between passes. -/
theorem atRest_iff_quiet (h : m.Refines ok R) {s : σ} {φ : Phase A} (hR : R s φ) :
    m.AtRest s ↔ φ = .quiet := by
  rw [AtRest, h.cmd hR, h.ready hR]
  cases φ <;> simp [Phase.cmd, Phase.listens]

/-! ## At a port that holds its beats -/

/-- A generous cycle presents the beat listened for. -/
theorem isSome_presented_of_generous {φ : Phase A} (hφ : φ.Proper) {c : Cycle}
    (hc : c.generous = true) (hl : φ.listens = true) :
    (presented φ.outstanding c).isSome = true := by
  cases φ with
  | quiet | launch b i => exact absurd hl Bool.false_ne_true
  | land b j => rw [presented_land hφ, if_pos (Bool.and_eq_true_iff.mp hc).2, Option.isSome_some]

/-- **Every pass ends**, and does so by the time the port has had as many generous cycles as the
pass has commands and beats left. -/
theorem ends (h : m.Refines ok R) {s : σ} {φ : Phase A} (hR : R s φ) (hφ : φ.Proper)
    {es : List (ι × Cycle)}
    (hok : Along (m.heldStep mem)
      (fun x e => ok x.1 e.1 e.2.ready ((presented x.2 e.2).map mem)) (s, φ.outstanding) es)
    (hmany : φ.remaining ≤ es.countP fun e => e.2.generous) :
    ∃ k ≤ es.length, m.AtRest (run (m.heldStep mem) (s, φ.outstanding) (es.take k)).1 := by
  induction es generalizing s φ with
  | nil =>
    have hquiet := Phase.quiet_of_remaining hφ (Nat.le_zero.mp hmany)
    exact ⟨0, le_rfl, (h.atRest_iff_quiet hR).mpr hquiet⟩
  | cons e es ih =>
    by_cases hrest : m.AtRest s
    · exact ⟨0, Nat.zero_le _, hrest⟩
    have hbusy : φ ≠ .quiet := fun hq => hrest ((h.atRest_iff_quiet hR).mpr hq)
    obtain ⟨φ', hstep, hR'⟩ :=
      h.next e.1 e.2.ready ((presented φ.outstanding e.2).map mem) hR hok.1
    rw [Option.isSome_map] at hstep
    have hnext : m.heldStep mem (s, φ.outstanding) e =
        (m.next s e.1 e.2.ready ((presented φ.outstanding e.2).map mem), φ'.outstanding) :=
      Prod.ext rfl (h.heldStep_snd hR hφ hstep)
    -- a generous cycle brings the end nearer, and no other takes it away
    have hleft : φ'.remaining ≤ es.countP fun e => e.2.generous := by
      rw [List.countP_cons] at hmany
      cases hgen : e.2.generous with
      | false =>
        have hle := hstep.remaining_le hφ hbusy
        simp only [hgen, Bool.false_eq_true, if_false] at hmany
        omega
      | true =>
        have hbeat := isSome_presented_of_generous hφ hgen
        rw [(Bool.and_eq_true_iff.mp hgen).1] at hstep
        have hless := hstep.remaining_lt hφ hbusy hbeat
        simp only [hgen, if_true] at hmany
        omega
    have hok' := hok.2
    rw [hnext] at hok'
    obtain ⟨k, hk, hend⟩ := ih hR' (hstep.proper hφ) hok' hleft
    refine ⟨k + 1, Nat.succ_le_succ hk, ?_⟩
    rw [List.take_succ_cons, run_cons, hnext]
    exact hend

/-! ## At a lossy port -/

/-- Between passes nothing is missing. -/
theorem complete_of_atRest (h : m.Refines ok R) {x : (σ × List A) × Ledger A} (hx : Tracked R x)
    (hrest : m.AtRest x.1.1) : Complete x := by
  obtain ⟨φ, hR, -, ho, hb⟩ := hx
  obtain rfl : φ = .quiet := (h.atRest_iff_quiet hR).mp hrest
  have hq : x.1.2.length = 0 := ho
  have htaken : x.2.taken.length = x.2.issued.length := hb
  rw [Complete, hq, htaken, Nat.add_zero]

/-- What a cycle within a pass does to the books and to what is outstanding. -/
theorem length_bookedLossy (h : m.Refines ok R) (x : (σ × List A) × Ledger A) (e : ι × Cycle)
    {φ : Phase A} (hR : R x.1.1 φ) (hbusy : φ ≠ .quiet) :
    ∃ n, (m.bookedLossy mem x e).2.issued.length = x.2.issued.length + n ∧
      (m.bookedLossy mem x e).2.taken.length + (m.bookedLossy mem x e).1.2.length +
          (if (presented x.1.2 e.2).isSome && !m.ready x.1.1 then 1 else 0) =
        x.2.taken.length + x.1.2.length + n := by
  have hnext := @Phase.length_next _ φ x.1.2 x.2 e.2 hbusy
  rwa [← h.cmd hR, ← h.ready hR] at hnext

/-- **Step lemma.** What is lost stays lost. -/
theorem not_complete_step (h : m.Refines ok R) (x : (σ × List A) × Ledger A) (e : ι × Cycle)
    (hx : Tracked R x) (hlost : ¬ Complete x) : ¬ Complete (m.bookedLossy mem x e) := by
  have hbusy : ¬ m.AtRest x.1.1 := fun hrest => hlost (h.complete_of_atRest hx hrest)
  obtain ⟨φ, hR, -, ho, hb⟩ := hx
  rw [h.atRest_iff_quiet hR] at hbusy
  have hle := hb.length_le ho
  obtain ⟨n, hissued, htaken⟩ := @length_bookedLossy _ _ _ _ m mem _ _ h x e _ hR hbusy
  rw [Complete] at hlost ⊢
  omega

/-- **A beat that is not taken is lost.** -/
theorem not_complete_of_not_takesBeat (h : m.Refines ok R) (x : (σ × List A) × Ledger A)
    (e : ι × Cycle) (hx : Tracked R x) (hmiss : ¬ m.TakesBeat x e) :
    ¬ Complete (m.bookedLossy mem x e) := by
  obtain ⟨φ, hR, -, ho, hb⟩ := hx
  rw [TakesBeat, Classical.not_imp, Bool.not_eq_true] at hmiss
  obtain ⟨hbeat, hdeaf⟩ := hmiss
  have hbusy : φ ≠ .quiet := by
    rintro rfl
    exact absurd (List.length_eq_zero_iff.mp ho) (ne_nil_of_presented hbeat)
  have hle := hb.length_le ho
  obtain ⟨n, hissued, htaken⟩ := @length_bookedLossy _ _ _ _ m mem _ _ h x e _ hR hbusy
  rw [hbeat, hdeaf, Bool.not_false, Bool.and_self, if_pos rfl] at htaken
  rw [Complete]
  omega

/-- A cycle moves the phase on by a step, and the books with it. -/
theorem exists_step (h : m.Refines ok R) {x : (σ × List A) × Ledger A} {φ : Phase A}
    (hR : R x.1.1 φ) (hφ : φ.Proper) (ho : φ.Owes x.1.2) (hb : φ.Booked x.2) {e : ι × Cycle}
    (hok : Meets mem ok x e) :
    ∃ φ', Phase.Step φ e.2.ready (presented x.1.2 e.2).isSome φ' ∧
      R (m.bookedLossy mem x e).1.1 φ' ∧ φ'.Owes (m.bookedLossy mem x e).1.2 ∧
      φ'.Booked (m.bookedLossy mem x e).2 := by
  obtain ⟨φ', hstep, hR'⟩ := h.next e.1 e.2.ready ((presented x.1.2 e.2).map mem) hR hok
  rw [Option.isSome_map] at hstep
  have howes := hstep.owes hφ ho
  have hbooked := hstep.booked hb
  rw [← h.cmd hR] at howes
  rw [← h.cmd hR, ← h.ready hR] at hbooked
  exact ⟨φ', hstep, hR', howes, hbooked⟩

/-- **A pass that has lost nothing ends**, if the port takes its commands and presents its beats
when they are listened for. -/
theorem finishes (h : m.Refines ok R) (i : ι) (hi : ∀ s taken d, ok s i taken d)
    {x : (σ × List A) × Ledger A} (hx : Tracked R x) (hall : Complete x) :
    ∃ cs : List Cycle, m.AtRest (run (m.bookedLossy mem) x (cs.map fun c => (i, c))).1.1 := by
  obtain ⟨φ, hR, hφ, ho, hb⟩ := hx
  induction hn : φ.remaining using Nat.strong_induction_on generalizing x φ with
  | _ n ih =>
    by_cases hrest : m.AtRest x.1.1
    · exact ⟨[], hrest⟩
    have hbusy : φ ≠ .quiet := fun hq => hrest ((h.atRest_iff_quiet hR).mpr hq)
    let c : Cycle := ⟨true, φ.listens⟩
    have htakes : m.TakesBeat x (i, c) := by
      intro hbeat
      rw [isSome_presented] at hbeat
      rw [h.ready hR]
      exact (Bool.and_eq_true_iff.mp hbeat).1
    have hbeat : φ.listens = true → (presented x.1.2 c).isSome = true := by
      intro hl
      rw [isSome_presented, show c.valid = true from hl,
        List.isEmpty_eq_false_iff.mpr (hb.ne_nil_of_listens hl hφ hall)]
      rfl
    have hnext : Complete (m.bookedLossy mem x (i, c)) :=
      h.complete_step x (i, c) htakes ⟨φ, hR, hφ, ho, hb⟩ hall
    obtain ⟨φ', hstep, hR', ho', hb'⟩ :=
      @exists_step _ _ _ _ m mem _ _ h x φ hR hφ ho hb (i, c) (hi _ _ _)
    have hless : φ'.remaining < φ.remaining := hstep.remaining_lt hφ hbusy hbeat
    obtain ⟨cs, hcs⟩ :=
      ih φ'.remaining (hn ▸ hless) hnext φ' hR' (hstep.proper hφ) ho' hb' rfl
    exact ⟨c :: cs, hcs⟩

/-- Along a run that has lost a beat, every later state has. -/
theorem not_complete_run (h : m.Refines ok R) {x : (σ × List A) × Ledger A}
    {es : List (ι × Cycle)} (hok : Along (m.bookedLossy mem) (Meets mem ok) x es)
    (hx : Tracked R x) (hmiss : ¬ Complete x ∨ ¬ Along (m.bookedLossy mem) m.TakesBeat x es) :
    ¬ Complete (run (m.bookedLossy mem) x es) := by
  induction es generalizing x with
  | nil => exact hmiss.resolve_right (not_not_intro trivial)
  | cons e es ih =>
    refine ih hok.2 (h.tracked_step x e hok.1 hx) ?_
    rcases hmiss with hlost | hmiss
    · exact Or.inl (h.not_complete_step x e hx hlost)
    · rw [Along, not_and_or] at hmiss
      exact hmiss.imp_left (h.not_complete_of_not_takesBeat x e hx)

/-- **Recovery.** A run can be continued to a state between passes exactly if no beat was lost in
it. -/
theorem atRest_iff (h : m.Refines ok R) (i : ι) (hi : ∀ s taken d, ok s i taken d) {s : σ}
    (hs : R s .quiet) {es : List (ι × Cycle)}
    (hok : Along (m.bookedLossy mem) (Meets mem ok) ((s, []), {}) es) :
    (∃ es', Along (m.bookedLossy mem) (Meets mem ok) ((s, []), {}) (es ++ es') ∧
        m.AtRest (run (m.bookedLossy mem) ((s, []), {}) (es ++ es')).1.1) ↔
      Along (m.bookedLossy mem) m.TakesBeat ((s, []), {}) es := by
  have hstart : Tracked R ((s, []), ({} : Ledger A)) := ⟨.quiet, hs, trivial, rfl, rfl⟩
  have htracked : ∀ {es}, Along (m.bookedLossy mem) (Meets mem ok) ((s, []), {}) es →
      Tracked R (run (m.bookedLossy mem) ((s, []), {}) es) :=
    fun hes => run_invariant_of_along (fun x e hc hx => h.tracked_step x e hc hx) hstart hes
  constructor
  · rintro ⟨es', hall, hrest⟩
    have hcomplete := h.complete_of_atRest (htracked hall) hrest
    by_contra hmiss
    refine h.not_complete_run hall hstart (Or.inr fun hboth => hmiss ?_) hcomplete
    exact (along_append.mp hboth).1
  · intro htakes
    have hboth := run_invariant_of_along (P := fun x => Tracked R x ∧ Complete x)
      (fun x e hc hx => ⟨h.tracked_step x e hc.1 hx.1, h.complete_step x e hc.2 hx.1 hx.2⟩)
      ⟨hstart, rfl⟩ (hok.and htakes)
    obtain ⟨cs, hcs⟩ := h.finishes i hi hboth.1 hboth.2
    refine ⟨cs.map fun c => (i, c), along_append.mpr ⟨hok, ?_⟩, ?_⟩
    · refine along_of_mem ?_
      intro e he x
      obtain ⟨c, -, rfl⟩ := List.mem_map.mp he
      exact hi _ _ _
    · rwa [run_append]

end Refines

end Master

end ReadPort
