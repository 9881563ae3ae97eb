import Mathlib.Data.List.Induction

/-! # Runs of a deterministic step machine

A machine is a function `step : σ → ε → σ` from a state and an event to the next state; a run
is the fold of `step` over a list of events. This file collects the rules by which a property
of one step becomes a property of every run:

* **`run_invariant`** — a predicate kept by each step holds after every run.
* **`watch`** — a machine paired with a monitor that reads the machine but never steers it; the
  monitor carries the ghost state (a log, a counter) that a specification speaks about.
* **`Along`** — a condition met by every step of a run, and `run_invariant_of_along`, the
  invariant rule for such runs.
* **`trace_eq_of_bisim`** — two runs related by a step-closed relation show the same outputs. -/

namespace StepMachine

variable {σ ε μ τ α : Type*}

/-- The state a machine reaches from `s` by handling the events in order. -/
def run (step : σ → ε → σ) (s : σ) (es : List ε) : σ := es.foldl step s

@[simp] theorem run_nil (step : σ → ε → σ) (s : σ) : run step s [] = s := rfl

@[simp] theorem run_cons (step : σ → ε → σ) (s : σ) (e : ε) (es : List ε) :
    run step s (e :: es) = run step (step s e) es := rfl

/-- A run over a concatenation continues from where its first part stopped. -/
theorem run_append (step : σ → ε → σ) (s : σ) (xs ys : List ε) :
    run step s (xs ++ ys) = run step (run step s xs) ys := by
  simp only [run, List.foldl_append]

/-- The last event of a run acts on the state the earlier ones reached. -/
@[simp] theorem run_concat (step : σ → ε → σ) (s : σ) (es : List ε) (e : ε) :
    run step s (es ++ [e]) = step (run step s es) e := by
  simp only [run_append, run_cons, run_nil]

/-! ## Invariants -/

/-- **Run invariant.** A predicate that each step keeps holds after every run. -/
theorem run_invariant {step : σ → ε → σ} {P : σ → Prop} (hstep : ∀ s e, P s → P (step s e))
    {s : σ} (hs : P s) (es : List ε) : P (run step s es) := by
  induction es generalizing s with
  | nil => exact hs
  | cons e es ih => exact ih (hstep s e hs)

/-- Every step of the run from `s` meets `C`, a condition on the state before it and the event. -/
def Along (step : σ → ε → σ) (C : σ → ε → Prop) : σ → List ε → Prop
  | _, [] => True
  | s, e :: es => C s e ∧ Along step C (step s e) es

instance (step : σ → ε → σ) (C : σ → ε → Prop) [∀ s e, Decidable (C s e)] (s : σ)
    (es : List ε) : Decidable (Along step C s es) :=
  match es with
  | [] => isTrue trivial
  | e :: es =>
    have := instDecidableAlong step C (step s e) es
    inferInstanceAs (Decidable (C s e ∧ Along step C (step s e) es))

/-- The last step of a run is one more to be asked for. -/
@[simp] theorem along_concat {step : σ → ε → σ} {C : σ → ε → Prop} {s : σ} {es : List ε} {e : ε} :
    Along step C s (es ++ [e]) ↔ Along step C s es ∧ C (run step s es) e := by
  induction es generalizing s with
  | nil => simp only [List.nil_append, Along, run_nil, true_and, and_true]
  | cons e' es ih => simp only [List.cons_append, Along, run_cons, ih, and_assoc]

/-- A run over a concatenation meets what both its parts meet. -/
theorem along_append {step : σ → ε → σ} {C : σ → ε → Prop} {s : σ} {xs ys : List ε} :
    Along step C s (xs ++ ys) ↔ Along step C s xs ∧ Along step C (run step s xs) ys := by
  induction xs generalizing s with
  | nil => simp only [List.nil_append, Along, run_nil, true_and]
  | cons x xs ih => simp only [List.cons_append, Along, run_cons, ih, and_assoc]

/-- A condition that the events of a run always meet is met along it. -/
theorem along_of_mem {step : σ → ε → σ} {C : σ → ε → Prop} {s : σ} {es : List ε}
    (h : ∀ e ∈ es, ∀ s, C s e) : Along step C s es := by
  induction es generalizing s with
  | nil => trivial
  | cons e es ih =>
    exact ⟨h e List.mem_cons_self s, ih fun x hx => h x (List.mem_cons_of_mem e hx)⟩

/-- A condition that always holds is met along every run. -/
theorem along_of_forall {step : σ → ε → σ} {C : σ → ε → Prop} (h : ∀ s e, C s e) {s : σ}
    {es : List ε} : Along step C s es := along_of_mem fun e _ s => h s e

/-- Conditions met along a run are met together. -/
theorem Along.and {step : σ → ε → σ} {C D : σ → ε → Prop} {s : σ} {es : List ε}
    (hC : Along step C s es) (hD : Along step D s es) :
    Along step (fun s e => C s e ∧ D s e) s es := by
  induction es generalizing s with
  | nil => trivial
  | cons e es ih => exact ⟨⟨hC.1, hD.1⟩, ih hC.2 hD.2⟩

/-- **Run invariant under a side condition.** A predicate kept by the steps that meet `C` holds
after each run all of whose steps do. -/
theorem run_invariant_of_along {step : σ → ε → σ} {P : σ → Prop} {C : σ → ε → Prop}
    (hstep : ∀ s e, C s e → P s → P (step s e)) {s : σ} (hs : P s) {es : List ε}
    (hC : Along step C s es) : P (run step s es) := by
  induction es generalizing s with
  | nil => exact hs
  | cons e es ih => exact ih (hstep s e hC.1 hs) hC.2

/-- Along a run that keeps `P`, one condition may imply another where `P` holds. -/
theorem Along.imp {step : σ → ε → σ} {P : σ → Prop} {C C' : σ → ε → Prop}
    (hstep : ∀ s e, C s e → P s → P (step s e)) (himp : ∀ s e, P s → C s e → C' s e) {s : σ}
    (hs : P s) {es : List ε} (hC : Along step C s es) : Along step C' s es := by
  induction es generalizing s with
  | nil => trivial
  | cons e es ih => exact ⟨himp s e hs hC.1, ih (hstep s e hC.1 hs) hC.2⟩

/-- A run whose events all meet `C` keeps every predicate that the steps on such events keep. -/
theorem run_invariant_of_mem {step : σ → ε → σ} {P : σ → Prop} {C : ε → Prop}
    (hstep : ∀ s e, C e → P s → P (step s e)) {s : σ} (hs : P s) (es : List ε)
    (hC : ∀ e ∈ es, C e) : P (run step s es) := by
  induction es generalizing s with
  | nil => exact hs
  | cons e es ih =>
    exact ih (hstep s e (hC e List.mem_cons_self) hs) fun x hx => hC x (List.mem_cons_of_mem e hx)

/-! ## Monitors -/

/-- One step of a machine watched by a monitor. The monitor sees the state before the event and
the event itself, and has no influence on the machine. -/
def watch (step : σ → ε → σ) (mon : σ → ε → μ → μ) (x : σ × μ) (e : ε) : σ × μ :=
  (step x.1 e, mon x.1 e x.2)

/-- The machine of a watched run is the machine run alone. -/
@[simp] theorem run_watch_fst (step : σ → ε → σ) (mon : σ → ε → μ → μ) (x : σ × μ)
    (es : List ε) : (run (watch step mon) x es).1 = run step x.1 es := by
  induction es generalizing x with
  | nil => rfl
  | cons e es ih => exact ih (watch step mon x e)

/-- What a monitor that starts at `m` has recorded after a run from `s`. -/
def record (step : σ → ε → σ) (mon : σ → ε → μ → μ) (s : σ) (m : μ) (es : List ε) : μ :=
  (run (watch step mon) (s, m) es).2

@[simp] theorem record_nil (step : σ → ε → σ) (mon : σ → ε → μ → μ) (s : σ) (m : μ) :
    record step mon s m [] = m := rfl

/-- The last event of a run is recorded over the state and the record it finds. -/
@[simp] theorem record_concat (step : σ → ε → σ) (mon : σ → ε → μ → μ) (s : σ) (m : μ)
    (es : List ε) (e : ε) :
    record step mon s m (es ++ [e]) = mon (run step s es) e (record step mon s m es) := by
  simp only [record, run_concat, watch, run_watch_fst]

/-- A record over a concatenation continues from what its first part recorded. -/
theorem record_append (step : σ → ε → σ) (mon : σ → ε → μ → μ) (s : σ) (m : μ)
    (xs ys : List ε) :
    record step mon s m (xs ++ ys) =
      record step mon (run step s xs) (record step mon s m xs) ys := by
  induction ys using List.reverseRecOn with
  | nil => simp only [List.append_nil, record_nil]
  | append_singleton ys e ih =>
    rw [← List.append_assoc, record_concat, record_concat, run_append, ih]

/-- **Watched-run invariant.** A relation between machine and record that each step keeps holds
after every run. -/
theorem run_record_invariant {step : σ → ε → σ} {mon : σ → ε → μ → μ} {P : σ → μ → Prop}
    (hstep : ∀ s m e, P s m → P (step s e) (mon s e m)) {s : σ} {m : μ} (h : P s m)
    (es : List ε) : P (run step s es) (record step mon s m es) := by
  have hrun : P (run (watch step mon) (s, m) es).1 (run (watch step mon) (s, m) es).2 :=
    run_invariant (P := fun (x : σ × μ) => P x.1 x.2) (fun x e hx => hstep x.1 x.2 e hx) h es
  simpa only [run_watch_fst, record] using hrun

/-- The watched-run invariant for runs whose events all meet a side condition. -/
theorem run_record_invariant_of_mem {step : σ → ε → σ} {mon : σ → ε → μ → μ}
    {P : σ → μ → Prop} {C : ε → Prop}
    (hstep : ∀ s m e, C e → P s m → P (step s e) (mon s e m)) {s : σ} {m : μ} (h : P s m)
    (es : List ε) (hC : ∀ e ∈ es, C e) : P (run step s es) (record step mon s m es) := by
  have hrun : P (run (watch step mon) (s, m) es).1 (run (watch step mon) (s, m) es).2 :=
    run_invariant_of_mem (P := fun (x : σ × μ) => P x.1 x.2)
      (fun x e hc hx => hstep x.1 x.2 e hc hx) h es hC
  simpa only [run_watch_fst, record] using hrun

/-- The watched-run invariant under a side condition on the state before each step. -/
theorem run_record_invariant_of_along {step : σ → ε → σ} {mon : σ → ε → μ → μ}
    {P : σ → μ → Prop} {C : σ → ε → Prop}
    (hstep : ∀ s m e, C s e → P s m → P (step s e) (mon s e m)) {s : σ} {m : μ} (h : P s m)
    {es : List ε} (hC : Along step C s es) : P (run step s es) (record step mon s m es) := by
  induction es using List.reverseRecOn with
  | nil => exact h
  | append_singleton es e ih =>
    rw [along_concat] at hC
    rw [run_concat, record_concat]
    exact hstep _ _ e hC.2 (ih hC.1)

/-! ## Two runs side by side -/

/-- A relation between two machines that common events keep holds after every common run. -/
theorem run_bisim {step : σ → ε → σ} {step' : τ → ε → τ} {R : σ → τ → Prop}
    (hstep : ∀ s t e, R s t → R (step s e) (step' t e)) {s : σ} {t : τ} (h : R s t)
    (es : List ε) : R (run step s es) (run step' t es) := by
  induction es generalizing s t with
  | nil => exact h
  | cons e es ih => exact ih (hstep s t e h)

/-- Related machines are recorded alike, if the monitors cannot tell related states apart. -/
theorem record_eq_of_bisim {step : σ → ε → σ} {step' : τ → ε → τ} {mon : σ → ε → μ → μ}
    {mon' : τ → ε → μ → μ} {R : σ → τ → Prop}
    (hstep : ∀ s t e, R s t → R (step s e) (step' t e))
    (hmon : ∀ s t e m, R s t → mon s e m = mon' t e m) {s : σ} {t : τ} (h : R s t) (m : μ)
    (es : List ε) : record step mon s m es = record step' mon' t m es := by
  induction es using List.reverseRecOn with
  | nil => rfl
  | append_singleton es e ih =>
    rw [record_concat, record_concat, ih]
    exact hmon _ _ e _ (run_bisim hstep h es)

/-- The outputs a machine shows, one after each event. -/
def trace (step : σ → ε → σ) (out : σ → α) : σ → List ε → List α
  | _, [] => []
  | s, e :: es => out (step s e) :: trace step out (step s e) es

/-- **Bisimulation gives equal traces.** Two machines whose states stay related under common
events, with related states showing the same output, show the same trace. -/
theorem trace_eq_of_bisim {step : σ → ε → σ} {step' : τ → ε → τ} {out : σ → α} {out' : τ → α}
    {R : σ → τ → Prop} (hstep : ∀ s t e, R s t → R (step s e) (step' t e))
    (hout : ∀ s t, R s t → out s = out' t) {s : σ} {t : τ} (h : R s t) (es : List ε) :
    trace step out s es = trace step' out' t es := by
  induction es generalizing s t with
  | nil => rfl
  | cons e es ih =>
    have hnext := hstep s t e h
    rw [trace, trace, hout _ _ hnext, ih hnext]

end StepMachine
