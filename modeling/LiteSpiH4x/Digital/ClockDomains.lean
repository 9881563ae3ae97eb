import Mathlib.Data.List.Basic
import Mathlib.Order.Nat

/-! # Two clock domains on the edges of one clock, with a single-stage reset each

A serial peripheral runs a *direct* domain on the rising edges of its clock and an *inverse*
domain on the falling ones. Each domain has a reset that an input raises at once and that falls
right after the first edge of the domain's own clock with the input low; registers are reset
synchronously, by the edges at which the reset is still up. So the first edge after the input
falls is spent on the reset.

* **`DomainPair`** — the clock level and the two resets, with `drive` for a change of the inputs.
* **`BusLog`** — what a bus analyser records from one release of the reset to the next: the line
  in and out at each rising edge, and how many rising edges lay before the last falling one.
* **`Tracks`** — the resets read off the log: the direct reset is up exactly until the first
  rising edge is logged, the inverse one until the first falling edge.
* **`Tracks.register`** / **`Tracks.inverse_register`** — how a fact about the registers of either
  domain is carried along the log.
* **`BusLog.Shows`** — the line out meets a specification by the bits taken in before; its step
  lemma is `Tracks.shows`. -/

namespace Digital

/-- A clock and the resets of the domains on its rising (`rst`) and falling (`rstInv`) edges. -/
structure DomainPair where
  /-- Level of the direct domain's clock. -/
  clk : Bool
  /-- Reset of the direct domain. -/
  rst : Bool
  /-- Reset of the inverse domain. -/
  rstInv : Bool
  deriving DecidableEq, Repr

namespace DomainPair

/-- Moving the clock to `clk'` is a rising edge. -/
def rises (d : DomainPair) (clk' : Bool) : Bool := !d.clk && clk'

/-- Moving the clock to `clk'` is a falling edge, the rising edge of the inverse domain. -/
def falls (d : DomainPair) (clk' : Bool) : Bool := d.clk && !clk'

/-- The direct domain's reset at an edge that finds the reset input at `input`. -/
def rstNow (d : DomainPair) (input : Bool) : Bool := d.rst || input

/-- The inverse domain's reset at an edge that finds the reset input at `input`. -/
def rstInvNow (d : DomainPair) (input : Bool) : Bool := d.rstInv || input

/-- The clock moves to `clk'` and the reset input to `input`. A high input raises both resets at
once; an edge of a domain's own clock leaves its reset at the input's level. -/
def drive (d : DomainPair) (clk' input : Bool) : DomainPair where
  clk := clk'
  -- an edge of the domain's own clock samples the input; between edges it can only raise the reset
  rst := if d.rises clk' then input else d.rstNow input
  rstInv := if d.falls clk' then input else d.rstInvNow input

variable {d : DomainPair} {clk' : Bool}

/-- A rising edge starts from a low clock. -/
theorem rises_iff : d.rises clk' = true ↔ d.clk = false ∧ clk' = true := by
  simp only [rises, Bool.and_eq_true, Bool.not_eq_true']

/-- A gated clock rises only while its gate is open. -/
theorem gate_of_rises {gate : Bool} (h : d.rises (clk' && !gate) = true) : gate = false := by
  have hclk := (rises_iff.mp h).2
  rw [Bool.and_eq_true, Bool.not_eq_true'] at hclk
  exact hclk.2

/-- A falling edge starts from a high clock. -/
theorem falls_iff : d.falls clk' = true ↔ d.clk = true ∧ clk' = false := by
  simp only [falls, Bool.and_eq_true, Bool.not_eq_true']

/-- A rising edge is no falling edge. -/
theorem not_falls_of_rises (h : d.rises clk' = true) : d.falls clk' = false := by
  rw [falls, (rises_iff.mp h).1, Bool.false_and]

/-- A falling edge is no rising edge. -/
theorem not_rises_of_falls (h : d.falls clk' = true) : d.rises clk' = false := by
  rw [rises, (falls_iff.mp h).1, Bool.not_true, Bool.false_and]

/-- Without an edge the clock stays where it is. -/
theorem clk_eq_of_still (hr : d.rises clk' = false) (hf : d.falls clk' = false) :
    clk' = d.clk := by
  revert hr hf
  rw [rises, falls]
  cases d.clk <;> cases clk' <;> decide

/-- At a rising edge the direct reset falls to the input's level. -/
theorem drive_of_rises (h : d.rises clk' = true) (input : Bool) :
    d.drive clk' input = ⟨true, input, d.rstInv || input⟩ := by
  rw [drive, h, not_falls_of_rises h, (rises_iff.mp h).2]
  rfl

/-- At a falling edge the inverse reset falls to the input's level. -/
theorem drive_of_falls (h : d.falls clk' = true) (input : Bool) :
    d.drive clk' input = ⟨false, d.rst || input, input⟩ := by
  rw [drive, h, not_rises_of_falls h, (falls_iff.mp h).2]
  rfl

/-- Between edges the resets can only rise. -/
theorem drive_of_still (hr : d.rises clk' = false) (hf : d.falls clk' = false) (input : Bool) :
    d.drive clk' input = ⟨d.clk, d.rst || input, d.rstInv || input⟩ := by
  rw [drive, hr, hf, clk_eq_of_still hr hf]
  rfl

end DomainPair

/-- What is seen on the bus since the reset was last released. -/
structure BusLog where
  /-- The line in and the line out at each rising clock edge, oldest first. -/
  rises : List (Bool × Bool) := []
  /-- The number of rising edges before the last falling edge, if there was a falling edge. -/
  fallen : Option ℕ := none
  deriving DecidableEq, Repr

namespace BusLog

/-- The bits taken in at the rising edges. -/
def bits (w : BusLog) : List Bool := w.rises.map Prod.fst

/-- Log one change of the inputs: nothing is kept while the reset input is high. -/
def next (d : DomainPair) (clk' input din dout : Bool) (w : BusLog) : BusLog :=
  if input then {}
  else if d.rises clk' then { w with rises := w.rises ++ [(din, dout)] }
  else if d.falls clk' then { w with fallen := some w.rises.length }
  else w

/-- A falling edge has followed rising edge number `m`. -/
def FallAfter (w : BusLog) (m : ℕ) : Prop := ∃ f, w.fallen = some f ∧ m ≤ f

/-- The line out, as sampled at each rising edge, meets `Q` with the bits taken in before. -/
def Emits (Q : List Bool → Bool → Prop) (w : BusLog) : Prop :=
  ∀ i (h : i < w.rises.length), Q (w.bits.take i) w.rises[i].2

/-- The output register `o` and the line out logged so far meet `Q`. -/
structure Shows (Q : List Bool → Bool → Prop) (w : BusLog) (o : Bool) : Prop where
  /-- The register was loaded at the last falling edge. -/
  out : ∀ f, w.fallen = some f → Q (w.bits.take f) o
  /-- The rising edges have sampled it. -/
  emits : w.Emits Q

/-- Nothing is asked of the empty log. -/
theorem Shows.empty (Q : List Bool → Bool → Prop) (o : Bool) : Shows Q {} o where
  out := fun _ h => by cases h
  emits := fun _ h => absurd h (Nat.not_lt_zero _)

@[simp] theorem length_bits (w : BusLog) : w.bits.length = w.rises.length := by
  simp only [bits, List.length_map]

@[simp] theorem bits_eq_nil (w : BusLog) : w.bits = [] ↔ w.rises = [] := by
  simp only [bits, List.map_eq_nil_iff]

/-- A log with bits has rising edges. -/
theorem rises_ne_nil_of_pos {w : BusLog} (h : 0 < w.bits.length) : w.rises ≠ [] := by
  rw [length_bits] at h
  exact List.ne_nil_of_length_pos h

theorem next_of_input (d : DomainPair) (clk' din dout : Bool) (w : BusLog) :
    w.next d clk' true din dout = {} := rfl

theorem next_of_rises {d : DomainPair} {clk' : Bool} (h : d.rises clk' = true)
    (din dout : Bool) (w : BusLog) :
    w.next d clk' false din dout = { w with rises := w.rises ++ [(din, dout)] } := by
  simp only [next, h, Bool.false_eq_true, if_false, if_true]

theorem next_of_falls {d : DomainPair} {clk' : Bool} (h : d.falls clk' = true)
    (din dout : Bool) (w : BusLog) :
    w.next d clk' false din dout = { w with fallen := some w.rises.length } := by
  simp only [next, h, DomainPair.not_rises_of_falls h, Bool.false_eq_true, if_false, if_true]

theorem next_of_still {d : DomainPair} {clk' : Bool} (hr : d.rises clk' = false)
    (hf : d.falls clk' = false) (din dout : Bool) (w : BusLog) :
    w.next d clk' false din dout = w := by
  simp only [next, hr, hf, Bool.false_eq_true, if_false]

/-- The log looks at the clock only. -/
theorem next_congr {d d' : DomainPair} (h : d.clk = d'.clk) (clk' input din dout : Bool)
    (w : BusLog) : w.next d clk' input din dout = w.next d' clk' input din dout := by
  rw [next, next, DomainPair.rises, DomainPair.rises, DomainPair.falls, DomainPair.falls, h]

/-- A rising edge adds its bit. -/
theorem bits_next_of_rises {d : DomainPair} {clk' : Bool} (h : d.rises clk' = true)
    (din dout : Bool) (w : BusLog) :
    (w.next d clk' false din dout).bits = w.bits ++ [din] := by
  simp only [next_of_rises h, bits, List.map_append, List.map_cons, List.map_nil]

/-- After a rising edge there is one in the log. -/
theorem rises_next_ne_nil {d : DomainPair} {clk' : Bool} (h : d.rises clk' = true)
    (din dout : Bool) (w : BusLog) : (w.next d clk' false din dout).rises ≠ [] := by
  rw [next_of_rises h]
  exact List.append_ne_nil_of_right_ne_nil _ (List.cons_ne_nil _ _)

/-- Without a rising edge the bits stay. -/
theorem bits_next_of_not_rises {d : DomainPair} {clk' : Bool} (h : d.rises clk' = false)
    (din dout : Bool) (w : BusLog) : (w.next d clk' false din dout).bits = w.bits := by
  simp only [next, h, Bool.false_eq_true, if_false]
  split <;> rfl

end BusLog

/-- The state of the two domains agrees with the log: `rst` and `rstInv` are up until the first
edge of their own is logged, and rising and falling edges alternate. -/
structure Tracks (d : DomainPair) (input : Bool) (w : BusLog) : Prop where
  held : input = true → w = {}
  rst : d.rst = w.rises.isEmpty
  rstInv : d.rstInv = w.fallen.isNone
  low : d.clk = false → w.fallen.getD 0 = w.rises.length
  high : ∀ f, d.clk = true → w.fallen = some f → f + 1 = w.rises.length
  first : w.fallen = none → w.rises.length ≤ 1

namespace Tracks

open BusLog

variable {d : DomainPair} {input : Bool} {w : BusLog}

/-- While the reset input is high and both resets are up, the empty log tracks the domains. -/
theorem of_held (hrst : d.rst = true) (hinv : d.rstInv = true) : Tracks d input {} where
  held := fun _ => rfl
  rst := hrst
  rstInv := hinv
  low := fun _ => rfl
  high := fun _ _ h => by cases h
  first := fun _ => Nat.zero_le _

/-- **Step lemma.** A change of the clock and of the reset input keeps the log in step. -/
theorem next (h : Tracks d input w) (clk' input' din dout : Bool) :
    Tracks (d.drive clk' input') input' (w.next d clk' input' din dout) := by
  cases input' with
  | true =>
    refine of_held ?_ ?_ <;> simp [DomainPair.drive, DomainPair.rstNow, DomainPair.rstInvNow]
  | false =>
    obtain ⟨clk, rst, rstInv⟩ := d
    obtain ⟨-, hrst, hinv, hlow, hhigh, hfirst⟩ := h
    have hlive : ∀ {p : Prop}, false = true → p := fun h => absurd h (by decide)
    cases clk <;> cases clk'
    case false.false | true.true =>
      -- no edge: the log stays, and so do the resets
      refine ⟨hlive, ?_, ?_, hlow, hhigh, hfirst⟩ <;>
        simpa [DomainPair.drive, DomainPair.rises, DomainPair.falls, DomainPair.rstNow,
          DomainPair.rstInvNow, BusLog.next]
    case false.true =>
      -- the rising edge after a falling one, or the first edge from a low clock
      have hfallen : (w.next ⟨false, rst, rstInv⟩ true false din dout).fallen = w.fallen := rfl
      refine ⟨hlive, ?_, ?_, fun h => hlive h.symm, ?_, ?_⟩
      · simp [DomainPair.drive, DomainPair.rises, BusLog.next]
      · simpa [DomainPair.drive, DomainPair.rises, DomainPair.falls, DomainPair.rstInvNow,
          BusLog.next] using hinv
      · intro f _ hf
        have hlen : f = w.rises.length := by simpa [hfallen ▸ hf] using hlow rfl
        simp [DomainPair.rises, BusLog.next, hlen]
      · intro hf
        have hlen : 0 = w.rises.length := by simpa [hfallen ▸ hf] using hlow rfl
        simp [DomainPair.rises, BusLog.next, ← hlen]
    case true.false =>
      refine ⟨hlive, ?_, rfl, fun _ => rfl, fun _ h => hlive h, ?_⟩
      · simpa [DomainPair.drive, DomainPair.rises, DomainPair.falls, DomainPair.rstNow,
          BusLog.next] using hrst
      · intro hf
        simp [DomainPair.rises, DomainPair.falls, BusLog.next] at hf

/-- A released direct reset means that a rising edge has been logged. -/
theorem rises_ne_nil (h : Tracks d input w) (hrst : d.rst = false) : w.rises ≠ [] := by
  intro hnil
  rw [h.rst, hnil] at hrst
  exact absurd hrst (by decide)

/-- At a falling edge at which the inverse reset is down, a rising edge has been logged since
the previous falling one. -/
theorem rises_ne_nil_of_falls (h : Tracks d input w) {clk' : Bool} (hf : d.falls clk' = true)
    (hinv : d.rstInv = false) : w.rises ≠ [] := by
  have hclk : d.clk = true := (DomainPair.falls_iff.mp hf).1
  obtain ⟨f, hfallen⟩ : ∃ f, w.fallen = some f := by
    rw [h.rstInv] at hinv
    exact Option.isSome_iff_exists.mp (by cases hw : w.fallen <;> simp_all)
  have hlen := h.high f hclk hfallen
  intro hnil
  rw [hnil] at hlen
  exact absurd hlen (by simp)

/-- **Registers of the direct domain.** A fact `P bits r` about the bits logged and a register
holds along the log if the reset edge establishes it for the one bit it takes in and every later
rising edge carries it to one more bit. -/
theorem register {R : Type*} {P : List Bool → R → Prop} (h : Tracks d input w)
    {clk' input' din dout : Bool} {r rReset rNext : R} (hr : w.rises ≠ [] → P w.bits r)
    (hreset : P [din] rReset)
    (hnext : d.rises clk' = true → d.rst = false → w.rises ≠ [] → P w.bits r →
      P (w.bits ++ [din]) rNext) :
    (w.next d clk' input' din dout).rises ≠ [] →
      P (w.next d clk' input' din dout).bits
        (if d.rises clk' then (if d.rstNow input' then rReset else rNext) else r) := by
  cases input' with
  | true => intro hne; exact absurd rfl hne
  | false =>
    cases hrise : d.rises clk' with
    | false =>
      intro hne
      have hbits := BusLog.bits_next_of_not_rises hrise din dout w
      rw [hbits, if_neg (by decide)]
      refine hr fun hnil => hne ?_
      rw [← BusLog.bits_eq_nil, hbits, BusLog.bits_eq_nil, hnil]
    | true =>
      intro _
      rw [BusLog.bits_next_of_rises hrise, if_pos rfl, DomainPair.rstNow, Bool.or_false]
      cases hrst : d.rst with
      | true =>
        have hnil : w.rises = [] := List.isEmpty_iff.mp (h.rst ▸ hrst)
        rw [(BusLog.bits_eq_nil w).mpr hnil, if_pos rfl]
        exact hreset
      | false =>
        rw [if_neg (by decide)]
        have hne := h.rises_ne_nil hrst
        exact hnext hrise hrst hne (hr hne)

/-- A falling edge never lies behind more rising edges than are logged. -/
theorem fallen_le (h : Tracks d input w) {f : ℕ} (hf : w.fallen = some f) :
    f ≤ w.rises.length := by
  cases hclk : d.clk with
  | false =>
    have hlow := h.low hclk
    rw [hf, Option.getD_some] at hlow
    omega
  | true =>
    have hhigh := h.high f hclk hf
    omega

/-- While the clock is low, the last edge was a falling one. -/
theorem fallen_of_low (h : Tracks d input w) (hclk : d.clk = false) (hpos : 0 < w.rises.length) :
    w.fallen = some w.rises.length := by
  have hlow := h.low hclk
  cases hfallen : w.fallen with
  | none =>
    rw [hfallen, Option.getD_none] at hlow
    omega
  | some f =>
    rw [hfallen, Option.getD_some] at hlow
    rw [hlow]

/-- **Registers of the inverse domain.** A fact `Q bits q` about a register and the bits taken in
before the last falling edge holds along the log if the reset edge establishes it for at most one
bit and every later falling edge establishes it for the bits logged so far. -/
theorem inverse_register {R : Type*} {Q : List Bool → R → Prop} (h : Tracks d input w)
    {clk' input' din dout : Bool} {q qReset qNext : R}
    (hq : ∀ f, w.fallen = some f → Q (w.bits.take f) q)
    (hreset : ∀ bits : List Bool, bits.length ≤ 1 → Q bits qReset)
    (hnext : d.falls clk' = true → d.rstInv = false → w.rises ≠ [] → Q w.bits qNext) :
    ∀ f, (w.next d clk' input' din dout).fallen = some f →
      Q ((w.next d clk' input' din dout).bits.take f)
        (if d.falls clk' then (if d.rstInvNow input' then qReset else qNext) else q) := by
  cases input' with
  | true => intro f hf; cases hf
  | false =>
    intro f hf
    cases hfall : d.falls clk' with
    | false =>
      -- the falling edge is an older one, and the log has only grown since
      have hold : w.fallen = some f := by
        simp only [BusLog.next, hfall, Bool.false_eq_true, if_false] at hf
        split at hf <;> exact hf
      have htake : (w.next d clk' false din dout).bits.take f = w.bits.take f := by
        cases hr : d.rises clk' with
        | false => rw [BusLog.bits_next_of_not_rises hr]
        | true =>
          rw [BusLog.bits_next_of_rises hr, List.take_append_of_le_length]
          rw [BusLog.length_bits]
          exact h.fallen_le hold
      rw [if_neg (by decide), htake]
      exact hq f hold
    | true =>
      have hlog := BusLog.next_of_falls hfall din dout w
      rw [hlog, Option.some.injEq] at hf
      have htake : (w.next d clk' false din dout).bits.take f = w.bits := by
        rw [hlog, ← hf]
        exact List.take_of_length_le (BusLog.length_bits w).le
      rw [if_pos rfl, htake, DomainPair.rstInvNow, Bool.or_false]
      cases hinv : d.rstInv with
      | true =>
        rw [if_pos rfl]
        refine hreset _ ?_
        rw [BusLog.length_bits]
        refine h.first ?_
        rw [h.rstInv] at hinv
        exact Option.isNone_iff_eq_none.mp hinv
      | false =>
        rw [if_neg (by decide)]
        exact hnext hfall hinv (h.rises_ne_nil_of_falls hfall hinv)

/-- **The line out along the log.** If the output register meets `Q` with the bits taken in
before the last falling edge, each rising edge logs an output that meets `Q` with the bits before
it. Nothing may be asked of the first rising edge, which no falling edge need precede. -/
theorem emits {Q : List Bool → Bool → Prop} (h : Tracks d input w) {dout : Bool}
    (hq : ∀ f, w.fallen = some f → Q (w.bits.take f) dout) (hnil : ∀ q, Q [] q)
    (he : w.Emits Q) (clk' input' din : Bool) : (w.next d clk' input' din dout).Emits Q := by
  cases input' with
  | true => intro i hi; exact absurd hi (Nat.not_lt_zero i)
  | false =>
    cases hr : d.rises clk' with
    | false =>
      have hrises : (w.next d clk' false din dout).rises = w.rises := by
        simp only [BusLog.next, hr, Bool.false_eq_true, if_false]
        split <;> rfl
      intro i hi
      simp only [BusLog.bits_next_of_not_rises hr, hrises] at hi ⊢
      exact he i hi
    | true =>
      rw [BusLog.next_of_rises hr]
      intro i hi
      have hbits : BusLog.bits { w with rises := w.rises ++ [(din, dout)] } = w.bits ++ [din] := by
        simp only [BusLog.bits, List.map_append, List.map_cons, List.map_nil]
      rw [hbits]
      rcases Nat.lt_or_ge i w.rises.length with hlt | hge
      · rw [List.take_append_of_le_length (by rw [BusLog.length_bits]; omega)]
        simp only [List.getElem_append_left hlt]
        exact he i hlt
      · have hlast : i = w.rises.length := by
          simp only [List.length_append, List.length_singleton] at hi
          omega
        have hclk : d.clk = false := (DomainPair.rises_iff.mp hr).1
        subst hlast
        simp only [List.getElem_append_right le_rfl, Nat.sub_self, List.getElem_cons_zero]
        rw [List.take_append_of_le_length (BusLog.length_bits w).ge]
        rcases Nat.eq_zero_or_pos w.rises.length with hzero | hpos
        · rw [hzero, List.take_zero]
          exact hnil dout
        · exact hq _ (h.fallen_of_low hclk hpos)

/-- **Step lemma for the line out.** `Shows Q` survives every change of the inputs if `Q` asks
nothing of the first bit's time and each falling edge loads a value that meets it. -/
theorem shows {Q : List Bool → Bool → Prop} {o oReset oNext : Bool} (h : Tracks d input w)
    (hs : Shows Q w o) (hshort : ∀ bits q, bits.length ≤ 1 → Q bits q) {clk' : Bool}
    (hnext : d.falls clk' = true → d.rstInv = false → w.rises ≠ [] → Q w.bits oNext)
    (input' din : Bool) :
    Shows Q (w.next d clk' input' din o)
      (if d.falls clk' then (if d.rstInvNow input' then oReset else oNext) else o) where
  out := h.inverse_register hs.out (fun bits hb => hshort bits _ hb) hnext
  emits := h.emits hs.out (fun q => hshort [] q (Nat.zero_le 1)) hs.emits clk' input' din

end Tracks

end Digital
