import LiteSpiH4x.Digital.Width
import Mathlib.Logic.Function.Iterate

/-! # Tickers

A ticker counts clock edges from zero up to `max_cnt`, ticks, and starts over. Its counter is
declared by `max_cnt` as an exclusive bound but compared with it as an inclusive one, so a
`max_cnt` that is a power of two lies one past the largest value the counter can hold.

* **`TickerZeroToMax`**, **`BeatTickerZeroToMax`** — the registers, and their clock edges.
* **`after_of_lt`** / **`after_of_eq`** — the registers after `t` edges, where the counter reaches
  `max_cnt` and where it wraps before it.
* **`ticker_iff`** — up to an edge, tickers and beat keep their law exactly if no counter has had
  to reach a power of two. -/

namespace LiteSpiH4x

open Digital

/-- The registers of a ticker; `max_cnt` is at least one. -/
structure TickerZeroToMax (maxCnt : ℕ) where
  /-- `counter`, declared by the exclusive bound `max_cnt`. -/
  counter : BitVec (bitsFor (maxCnt - 1))
  /-- `tick` -/
  tick : Bool
  deriving DecidableEq, Repr

namespace TickerZeroToMax

variable {maxCnt : ℕ}

/-- The registers at reset. -/
def boot (maxCnt : ℕ) : TickerZeroToMax maxCnt where
  counter := 0
  tick := false

/-- A system clock edge. The comparison is one of values, whatever the widths. -/
def next (s : TickerZeroToMax maxCnt) : TickerZeroToMax maxCnt :=
  if s.counter.toNat = maxCnt then
    { tick := true
      counter := 0 }
  else
    { tick := false
      counter := s.counter + 1 }

/-- The registers `t` edges after reset. -/
def after (maxCnt t : ℕ) : TickerZeroToMax maxCnt := next^[t] (boot maxCnt)

/-- The last edge acts on what the earlier ones left. -/
theorem after_succ (maxCnt t : ℕ) : after maxCnt (t + 1) = (after maxCnt t).next :=
  Function.iterate_succ_apply' _ _ _

/-- What a ticker is for: after `t` edges it has counted `t` modulo `max_cnt + 1`, and it ticks
when that starts over. -/
structure Law (t : ℕ) (s : TickerZeroToMax maxCnt) : Prop where
  tick : s.tick = true ↔ 0 < t ∧ (maxCnt + 1) ∣ t
  counter : s.counter.toNat = t % (maxCnt + 1)

/-! ## The terminal value -/

/-- The terminal value is at most one past the largest value of the counter. -/
theorem le_two_pow (maxCnt : ℕ) : maxCnt ≤ 2 ^ bitsFor (maxCnt - 1) := by
  have h := lt_two_pow_bitsFor (maxCnt - 1)
  omega

/-- The terminal value does not fit exactly if it is a power of two, from two on. -/
theorem eq_two_pow_iff (maxCnt : ℕ) :
    maxCnt = 2 ^ bitsFor (maxCnt - 1) ↔ ∃ k, 1 ≤ k ∧ maxCnt = 2 ^ k := by
  constructor
  · intro h
    exact ⟨_, one_le_bitsFor _, h⟩
  · rintro ⟨k, hk, rfl⟩
    rw [bitsFor_two_pow_sub_one hk]

/-! ## The registers after `t` edges -/

/-- An edge below the terminal value counts. -/
theorem next_of_ne {s : TickerZeroToMax maxCnt} (h : s.counter.toNat ≠ maxCnt) :
    s.next = { tick := false, counter := s.counter + 1 } := if_neg h

/-- The edge at the terminal value starts over. -/
theorem next_of_eq {s : TickerZeroToMax maxCnt} (h : s.counter.toNat = maxCnt) :
    s.next = { tick := true, counter := 0 } := if_pos h

/-- A remainder below the last one counts with its number. -/
theorem succ_mod_of_ne {t n : ℕ} (h : t % (n + 1) ≠ n) : (t + 1) % (n + 1) = t % (n + 1) + 1 := by
  have hlt : t % (n + 1) < n + 1 := Nat.mod_lt t (Nat.succ_pos n)
  rw [← Nat.mod_add_mod]
  exact Nat.mod_eq_of_lt (by omega)

/-- **The law holds for ever** if the terminal value fits. -/
theorem after_of_lt (h : maxCnt < 2 ^ bitsFor (maxCnt - 1)) (t : ℕ) :
    Law t (after maxCnt t) := by
  induction t with
  | zero => exact ⟨by simp [after, boot], by simp [after, boot]⟩
  | succ t ih =>
    have hdvd : (maxCnt + 1) ∣ (t + 1) ↔ t % (maxCnt + 1) = maxCnt := by
      rw [Nat.dvd_iff_mod_eq_zero, Nat.succ_mod_succ_eq_zero_iff]
    rw [after_succ]
    by_cases hlast : t % (maxCnt + 1) = maxCnt
    · rw [next_of_eq (ih.counter.trans hlast)]
      refine ⟨by simp [hdvd, hlast], ?_⟩
      rw [Nat.succ_mod_succ_eq_zero_iff.mpr hlast]
      exact BitVec.toNat_zero
    · rw [next_of_ne fun hc => hlast (ih.counter ▸ hc)]
      refine ⟨by simp [hdvd, hlast], ?_⟩
      have hmod : t % (maxCnt + 1) < maxCnt + 1 := Nat.mod_lt t (Nat.succ_pos maxCnt)
      have hone : 1 < 2 ^ bitsFor (maxCnt - 1) :=
        Nat.one_lt_two_pow (Nat.ne_of_gt (one_le_bitsFor _))
      rw [BitVec.toNat_add, ih.counter, BitVec.ofNat_eq_ofNat, BitVec.toNat_ofNat,
        Nat.mod_eq_of_lt hone, succ_mod_of_ne hlast]
      exact Nat.mod_eq_of_lt (by omega)

/-- **The ticker never ticks** if the terminal value does not fit: the counter wraps before it. -/
theorem after_of_eq (h : maxCnt = 2 ^ bitsFor (maxCnt - 1)) (t : ℕ) :
    (after maxCnt t).tick = false ∧ (after maxCnt t).counter.toNat = t % maxCnt := by
  induction t with
  | zero => exact ⟨rfl, by simp [after, boot]⟩
  | succ t ih =>
    have hne : (after maxCnt t).counter.toNat ≠ maxCnt := by
      intro hc
      have hlt := (after maxCnt t).counter.isLt
      omega
    have hone : 1 < 2 ^ bitsFor (maxCnt - 1) := Nat.one_lt_two_pow (Nat.ne_of_gt (one_le_bitsFor _))
    rw [after_succ, next_of_ne hne]
    refine ⟨rfl, ?_⟩
    rw [BitVec.toNat_add, ih.2, BitVec.ofNat_eq_ofNat, BitVec.toNat_ofNat,
      Nat.mod_eq_of_lt hone, ← h, Nat.mod_add_mod]

/-- **When a ticker keeps its law.** Up to an edge it does, exactly if its terminal value fits or
has not been counted to. -/
theorem law_iff (maxCnt t : ℕ) :
    (∀ u ≤ t, Law u (after maxCnt u)) ↔ (∃ k, 1 ≤ k ∧ maxCnt = 2 ^ k) → t < maxCnt := by
  rw [← eq_two_pow_iff]
  rcases (le_two_pow maxCnt).lt_or_eq with hlt | heq
  · exact ⟨fun _ he => absurd he hlt.ne, fun _ u _ => after_of_lt hlt u⟩
  refine ⟨?_, ?_⟩
  · -- at the edge that should reach the terminal value the counter is back at zero
    intro hlaw _
    by_contra hge
    have hcount := (hlaw maxCnt (Nat.le_of_not_lt hge)).counter
    rw [(after_of_eq heq maxCnt).2, Nat.mod_self, Nat.mod_eq_of_lt (Nat.lt_succ_self _)] at hcount
    have hpos := Nat.two_pow_pos (bitsFor (maxCnt - 1))
    omega
  · intro h u hu
    obtain ⟨htick, hcount⟩ := after_of_eq heq u
    have hlt : u < maxCnt := lt_of_le_of_lt hu (h heq)
    refine ⟨?_, ?_⟩
    · rw [htick]
      refine ⟨fun hf => absurd hf Bool.false_ne_true, ?_⟩
      rintro ⟨hpos, hdvd⟩
      exact absurd (Nat.le_of_dvd hpos hdvd) (by omega)
    · rw [hcount, Nat.mod_eq_of_lt hlt, Nat.mod_eq_of_lt (Nat.lt_succ_of_lt hlt)]

end TickerZeroToMax

/-! ## The beat of two tickers -/

/-- Two tickers side by side. -/
structure BeatTickerZeroToMax (maxCntA maxCntB : ℕ) where
  /-- `ticker_a` -/
  tickerA : TickerZeroToMax maxCntA
  /-- `ticker_b` -/
  tickerB : TickerZeroToMax maxCntB
  deriving DecidableEq, Repr

namespace BeatTickerZeroToMax

variable {maxCntA maxCntB : ℕ}

/-- The registers at reset. -/
def boot (maxCntA maxCntB : ℕ) : BeatTickerZeroToMax maxCntA maxCntB where
  tickerA := .boot maxCntA
  tickerB := .boot maxCntB

/-- A system clock edge. -/
def next (s : BeatTickerZeroToMax maxCntA maxCntB) : BeatTickerZeroToMax maxCntA maxCntB where
  tickerA := s.tickerA.next
  tickerB := s.tickerB.next

/-- `tick`: both tickers tick. -/
def tick (s : BeatTickerZeroToMax maxCntA maxCntB) : Bool := s.tickerA.tick && s.tickerB.tick

/-- The registers `t` edges after reset. -/
def after (maxCntA maxCntB t : ℕ) : BeatTickerZeroToMax maxCntA maxCntB :=
  next^[t] (boot maxCntA maxCntB)

/-- The two tickers run side by side. -/
theorem after_eq (maxCntA maxCntB t : ℕ) :
    after maxCntA maxCntB t =
      { tickerA := TickerZeroToMax.after maxCntA t
        tickerB := TickerZeroToMax.after maxCntB t } := by
  induction t with
  | zero => rfl
  | succ t ih =>
    rw [after, Function.iterate_succ_apply', ← after, ih, TickerZeroToMax.after_succ,
      TickerZeroToMax.after_succ]
    rfl

/-- What the pair is for: each ticker keeps its law, and the beat is heard at the common multiples
of their periods. -/
structure Law (t : ℕ) (s : BeatTickerZeroToMax maxCntA maxCntB) : Prop where
  tickerA : s.tickerA.Law t
  tickerB : s.tickerB.Law t
  tick : s.tick = true ↔ 0 < t ∧ Nat.lcm (maxCntA + 1) (maxCntB + 1) ∣ t

/-- The law of the beat follows from those of the tickers. -/
theorem Law.of_tickers {t : ℕ} {s : BeatTickerZeroToMax maxCntA maxCntB}
    (ha : s.tickerA.Law t) (hb : s.tickerB.Law t) : Law t s := by
  refine ⟨ha, hb, ?_⟩
  rw [BeatTickerZeroToMax.tick, Bool.and_eq_true, ha.tick, hb.tick, Nat.lcm_dvd_iff]
  exact ⟨fun h => ⟨h.1.1, h.1.2, h.2.2⟩, fun h => ⟨⟨h.1, h.2.1⟩, h.1, h.2.2⟩⟩

/-- **When tickers and beat keep their law.** Up to an edge they do, exactly if neither terminal
value is a power of two, from two on, that has been counted to. -/
theorem ticker_iff (maxCntA maxCntB t : ℕ) :
    (∀ u ≤ t, Law u (after maxCntA maxCntB u)) ↔
      ((∃ k, 1 ≤ k ∧ maxCntA = 2 ^ k) → t < maxCntA) ∧
        ((∃ k, 1 ≤ k ∧ maxCntB = 2 ^ k) → t < maxCntB) := by
  rw [← TickerZeroToMax.law_iff, ← TickerZeroToMax.law_iff]
  constructor
  · intro h
    refine ⟨?_, ?_⟩
    · intro u hu
      have ha := (h u hu).tickerA
      rwa [after_eq] at ha
    · intro u hu
      have hb := (h u hu).tickerB
      rwa [after_eq] at hb
  · rintro ⟨ha, hb⟩ u hu
    rw [after_eq]
    exact .of_tickers (ha u hu) (hb u hu)

/-- Four does not fit the two bits that count below it: after four edges the counter is back at
zero. -/
theorem ticker_stuck : ¬ Law 4 (after 4 5 4) := by
  intro h
  exact absurd h.tickerA.counter (by decide)

end BeatTickerZeroToMax

end LiteSpiH4x
