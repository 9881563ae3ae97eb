import LiteSpiH4x.StepMachine.Run

/-! # Programs of one party, interleaved with the events of others

A party drives a machine by a program, a list of its own events in a fixed order. Other parties
act in between, as often as they like. A triple `{P} prog {Q}` speaks about all these runs at once.

* **`Triple`** — every run whose own events are those of `prog` leads from `P` to `Q`.
* **`Stable`** — the others do not disturb `P`.
* **`Triple.skip`**, **`Triple.single`**, **`Triple.seq`**, **`Triple.weaken`**,
  **`Triple.forEach`** — the rules: nothing to do, one event, one program after another, other
  conditions, and a loop over a list with an invariant. -/

namespace StepMachine

variable {σ ε α : Type*} {step : σ → ε → σ} {own : ε → Bool} {P Q R : σ → Prop}

/-- Every run whose own events are those of `prog`, with any events of the others before, between
and after them, leads from `P` to `Q`. -/
def Triple (step : σ → ε → σ) (own : ε → Bool) (P : σ → Prop) (prog : List ε)
    (Q : σ → Prop) : Prop :=
  ∀ s es, P s → es.filter own = prog.filter own → Q (run step s es)

/-- The events of the others keep `P`. -/
def Stable (step : σ → ε → σ) (own : ε → Bool) (P : σ → Prop) : Prop :=
  ∀ s e, own e = false → P s → P (step s e)

/-- A run without own events keeps a stable condition. -/
theorem Stable.run (h : Stable step own P) {s : σ} (hs : P s) {es : List ε}
    (hes : es.filter own = []) : P (StepMachine.run step s es) := by
  refine run_invariant_of_mem (C := fun e => own e = false) (fun s e he hP => h s e he hP) hs es ?_
  intro e he
  exact Bool.eq_false_iff.mpr (List.filter_eq_nil_iff.mp hes e he)

/-- Two stable conditions are stable together. -/
theorem Stable.and (hP : Stable step own P) (hQ : Stable step own Q) :
    Stable step own fun s => P s ∧ Q s :=
  fun s e he hs => ⟨hP s e he hs.1, hQ s e he hs.2⟩

namespace Triple

/-- **Nothing to do**: the others alone keep a stable condition. -/
theorem skip (hP : Stable step own P) : Triple step own P [] P :=
  fun _ _ hs hes => hP.run hs hes

/-- **One event**: a program with a single own event, between conditions that the others keep. -/
theorem single (hP : Stable step own P) (hQ : Stable step own Q) {prog : List ε} {e : ε}
    (hprog : prog.filter own = [e]) (h : ∀ s, P s → Q (step s e)) : Triple step own P prog Q := by
  intro s es hs hes
  rw [hprog, List.filter_eq_cons_iff] at hes
  obtain ⟨before, after, rfl, hbefore, -, hafter⟩ := hes
  rw [run_append, run_cons]
  refine hQ.run (h _ (hP.run hs ?_)) hafter
  exact List.filter_eq_nil_iff.mpr hbefore

/-- The program that is that event alone. -/
theorem act (hP : Stable step own P) (hQ : Stable step own Q) {e : ε} (he : own e = true)
    (h : ∀ s, P s → Q (step s e)) : Triple step own P [e] Q :=
  single hP hQ (by rw [List.filter_cons_of_pos he, List.filter_nil]) h

/-- **One program after another.** -/
theorem seq {xs ys : List ε} (hxs : Triple step own P xs Q) (hys : Triple step own Q ys R) :
    Triple step own P (xs ++ ys) R := by
  intro s es hs hes
  rw [List.filter_append, List.filter_eq_append_iff] at hes
  obtain ⟨es₁, es₂, rfl, h₁, h₂⟩ := hes
  rw [run_append]
  exact hys _ _ (hxs _ _ hs h₁) h₂

/-- **Other conditions**: a stronger one before, a weaker one after. -/
theorem weaken {P' Q' : σ → Prop} {prog : List ε} (h : Triple step own P prog Q)
    (hP : ∀ s, P' s → P s) (hQ : ∀ s, Q s → Q' s) : Triple step own P' prog Q' :=
  fun s es hs hes => hQ _ (h s es (hP s hs) hes)

/-- **A loop over a list**, with an invariant that says what holds when the items of a prefix are
done. -/
theorem forEach {I : List α → σ → Prop} {body : α → List ε} (hI : ∀ done, Stable step own (I done))
    (xs : List α) (h : ∀ done, ∀ x ∈ xs, Triple step own (I done) (body x) (I (done ++ [x]))) :
    Triple step own (I []) (xs.flatMap body) (I xs) := by
  -- generalised to the items already done
  suffices hdone : ∀ done, Triple step own (I done) (xs.flatMap body) (I (done ++ xs)) from hdone []
  induction xs with
  | nil =>
    intro done
    rw [List.flatMap_nil, List.append_nil]
    exact skip (hI done)
  | cons x xs ih =>
    intro done
    rw [List.flatMap_cons, List.append_cons]
    exact (h done x List.mem_cons_self).seq
      (ih (fun done y hy => h done y (List.mem_cons_of_mem x hy)) (done ++ [x]))

end Triple

end StepMachine
