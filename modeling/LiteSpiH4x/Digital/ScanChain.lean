import Mathlib.Data.List.GetD
import Mathlib.Data.List.Induction
import Mathlib.Order.Nat

/-! # Scan chains

A scan register captures a word and then, edge by edge, shifts it out of its lowest place while
the line in comes in at the top. What leaves is the captured word, lowest bit first, and then the
line in again, as many edges late as the register is wide.

* **`scanIn`** — the shift edge, and **`scanned`** the register after some of them.
* **`streamBit`** — the bits that leave, in order; `getLsbD_scanned` reads them off the register.
* **`Scan`** — what an analyser records of a scan, with **`Scan.Streams`** for a scan that reads
  the right bits and **`Scan.Lags`** for one in which every bit that comes straight after an edge
  that moved the register is the one shown before that edge.
* **`Scan.Lags.streams_iff`** — when such a scan reads the right bits nevertheless. -/

namespace Digital

variable {w : ℕ}

/-! ## Scan registers -/

/-- The shift edge: every bit moves down one place and `b` comes in at the top. -/
def scanIn (x : BitVec w) (b : Bool) : BitVec w := (BitVec.cons b x).extractLsb' 1 w

/-- The places of a register after a shift edge. -/
theorem getLsbD_scanIn (x : BitVec w) (b : Bool) {i : ℕ} (hi : i < w) :
    (scanIn x b).getLsbD i = if i + 1 = w then b else x.getLsbD (i + 1) := by
  rw [scanIn, BitVec.getLsbD_extractLsb', BitVec.getLsbD_cons, Nat.add_comm 1 i]
  simp only [hi, decide_true, Bool.true_and]

/-- A register that captured `x` and has shifted in `bits`. -/
def scanned (x : BitVec w) (bits : List Bool) : BitVec w := bits.foldl scanIn x

/-- The register just captured. -/
@[simp] theorem scanned_nil (x : BitVec w) : scanned x [] = x := rfl

/-- One more shift edge. -/
theorem scanned_concat (x : BitVec w) (bits : List Bool) (b : Bool) :
    scanned x (bits ++ [b]) = scanIn (scanned x bits) b := by
  rw [scanned, List.foldl_append]
  rfl

/-- Bit `i` of what leaves a register that captured `x` while `bits` come in. -/
def streamBit (x : BitVec w) (bits : List Bool) (i : ℕ) : Bool :=
  if i < w then x.getLsbD i else bits.getD (i - w) false

/-- Later bits in do not change what has to leave before them. -/
theorem streamBit_append (x : BitVec w) {bits : List Bool} {i : ℕ} (hi : i < w + bits.length)
    (bs : List Bool) : streamBit x (bits ++ bs) i = streamBit x bits i := by
  unfold streamBit
  split
  · rfl
  · rw [List.getD_append _ _ _ _ (by omega)]

/-- The bit just shifted in is the one to leave when the register has been shifted through. -/
theorem streamBit_concat (x : BitVec w) (bits : List Bool) (b : Bool) :
    streamBit x (bits ++ [b]) (w + bits.length) = b := by
  rw [streamBit, if_neg (by omega), Nat.add_sub_cancel_left,
    List.getD_append_right _ _ _ _ le_rfl, Nat.sub_self]
  rfl

/-- **What a scan register holds**: the next bits to leave. -/
theorem getLsbD_scanned (x : BitVec w) (bits : List Bool) {i : ℕ} (hi : i < w) :
    (scanned x bits).getLsbD i = streamBit x bits (bits.length + i) := by
  induction bits using List.reverseRecOn generalizing i with
  | nil => rw [scanned_nil, streamBit, List.length_nil, Nat.zero_add, if_pos hi]
  | append_singleton bits b ih =>
    rw [scanned_concat, getLsbD_scanIn _ _ hi, List.length_append, List.length_singleton]
    -- the highest place has the bit just taken in, every other one its upper neighbour
    split
    · rename_i hlast
      rw [show bits.length + 1 + i = w + bits.length by omega, streamBit_concat]
    · rw [ih (by omega), streamBit_append _ (by omega)]
      congr 1
      omega

/-- **Shifted through**, a register holds the last bits in, the latest at the top. -/
theorem getLsbD_scanned_of_le (x : BitVec w) {bits : List Bool} (h : w ≤ bits.length) {i : ℕ}
    (hi : i < w) :
    (scanned x bits).getLsbD i = bits.getD (bits.length - w + i) false := by
  rw [getLsbD_scanned x bits hi, streamBit, if_neg (by omega)]
  congr 1
  omega

/-! ## What an analyser records -/

/-- A shift edge of a scan. -/
structure ScanEdge where
  /-- The line in. -/
  tdi : Bool
  /-- The line out, just before the edge. -/
  tdo : Bool
  /-- The edge before it captured the register or shifted it. -/
  direct : Bool
  deriving DecidableEq, Repr

/-- A scan since its capture. -/
structure Scan where
  /-- The shift edges. -/
  edges : List ScanEdge
  /-- The last edge captured the register or shifted it. -/
  moved : Bool
  deriving DecidableEq, Repr

namespace Scan

/-- A capture opens a scan. -/
def capture : Scan where
  edges := []
  moved := true

/-- A shift edge. -/
def shift (s : Scan) (tdi tdo : Bool) : Scan where
  edges := s.edges ++ [⟨tdi, tdo, s.moved⟩]
  moved := true

/-- An edge that leaves the register alone. -/
def hold (s : Scan) : Scan := { s with moved := false }

/-- The bits taken in. -/
def tdi (s : Scan) : List Bool := s.edges.map ScanEdge.tdi

@[simp] theorem tdi_capture : capture.tdi = [] := rfl

@[simp] theorem tdi_hold (s : Scan) : s.hold.tdi = s.tdi := rfl

@[simp] theorem tdi_shift (s : Scan) (b q : Bool) : (s.shift b q).tdi = s.tdi ++ [b] := by
  rw [tdi, shift, List.map_append]
  rfl

@[simp] theorem length_tdi (s : Scan) : s.tdi.length = s.edges.length := List.length_map _

/-- Every shift edge of the scan meets `Q`, a condition on its number and the edge. -/
def Each (Q : ℕ → ScanEdge → Prop) (s : Scan) : Prop :=
  ∀ (i : ℕ) (hi : i < s.edges.length), Q i s.edges[i]

/-- An opened scan has no edges. -/
theorem each_capture (Q : ℕ → ScanEdge → Prop) : capture.Each Q :=
  fun i hi => absurd hi (Nat.not_lt_zero i)

/-- One more edge is one more to meet the condition. -/
theorem Each.shift {Q Q' : ℕ → ScanEdge → Prop} {s : Scan} (h : s.Each Q)
    (himp : ∀ i e, i < s.edges.length → Q i e → Q' i e) {b q : Bool}
    (hlast : Q' s.edges.length ⟨b, q, s.moved⟩) : (s.shift b q).Each Q' := by
  intro i hi
  simp only [Scan.shift, List.length_append, List.length_singleton] at hi
  by_cases hlt : i < s.edges.length
  · simp only [Scan.shift, List.getElem_append_left hlt]
    exact himp i _ hlt (h i hlt)
  · obtain rfl : i = s.edges.length := by omega
    simpa only [Scan.shift, List.getElem_append_right le_rfl, Nat.sub_self,
      List.getElem_cons_zero] using hlast

/-- The line out shows the captured word `x`, lowest bit first, and then the line in. -/
def Streams (x : BitVec w) (s : Scan) : Prop :=
  s.Each fun i e => e.tdo = streamBit x s.tdi i

/-- The bit before bit `i`; the register showed `old` before it captured `x`. -/
def bitBefore (old : Bool) (x : BitVec w) (s : Scan) (i : ℕ) : Bool :=
  if i = 0 then old else streamBit x s.tdi (i - 1)

/-- The line out lags one edge behind a moving register: straight after an edge that captured or
shifted it, it shows the bit from before that edge. -/
def Lags (old : Bool) (x : BitVec w) (s : Scan) : Prop :=
  s.Each fun i e => e.tdo = if e.direct then bitBefore old x s i else streamBit x s.tdi i

/-- Straight after an edge that moved the register comes a bit equal to the one before it. -/
def Even (old : Bool) (x : BitVec w) (s : Scan) : Prop :=
  s.Each fun i e => e.direct = true → streamBit x s.tdi i = bitBefore old x s i

/-- A shift edge that shows the next bit. -/
theorem Streams.shift {x : BitVec w} {s : Scan} (hw : 0 < w) (h : s.Streams x) (b : Bool)
    {q : Bool} (hq : q = (scanned x s.tdi).getLsbD 0) : (s.shift b q).Streams x := by
  refine Each.shift h ?_ ?_
  · intro i e hi he
    rw [he, tdi_shift, streamBit_append _ (by rw [length_tdi]; omega)]
  · change q = streamBit x (s.shift b q).tdi s.edges.length
    rw [hq, getLsbD_scanned _ _ hw, tdi_shift, streamBit_append _ (by rw [length_tdi]; omega),
      length_tdi, Nat.add_zero]

/-- The bits before those already scanned do not change. -/
theorem bitBefore_shift {old : Bool} {x : BitVec w} {s : Scan} (hw : 0 < w) {i : ℕ}
    (hi : i ≤ s.edges.length) (b q : Bool) :
    bitBefore old x (s.shift b q) i = bitBefore old x s i := by
  unfold bitBefore
  split
  · rfl
  · rw [tdi_shift, streamBit_append _ (by rw [length_tdi]; omega)]

/-- A shift edge that lags. -/
theorem Lags.shift {old : Bool} {x : BitVec w} {s : Scan} (hw : 0 < w) (h : s.Lags old x)
    (b : Bool) {q : Bool}
    (hq : q = if s.moved then bitBefore old x s s.edges.length
      else streamBit x s.tdi s.edges.length) : (s.shift b q).Lags old x := by
  have hbit : ∀ i ≤ s.edges.length,
      streamBit x (s.shift b q).tdi i = streamBit x s.tdi i := by
    intro i hi
    rw [tdi_shift, streamBit_append _ (by rw [length_tdi]; omega)]
  refine Each.shift h ?_ ?_
  · intro i e hi he
    rw [he, hbit i hi.le, bitBefore_shift hw hi.le]
  · rw [hbit _ le_rfl, bitBefore_shift hw le_rfl]
    exact hq

/-- **A lagging line reads the right bits** exactly if it is never asked for a change. -/
theorem Lags.streams_iff {old : Bool} {x : BitVec w} {s : Scan} (h : s.Lags old x) :
    s.Streams x ↔ s.Even old x := by
  refine forall₂_congr ?_
  intro i hi
  have hlag : s.edges[i].tdo =
      if s.edges[i].direct then bitBefore old x s i else streamBit x s.tdi i := h i hi
  change s.edges[i].tdo = streamBit x s.tdi i ↔
    (s.edges[i].direct = true → streamBit x s.tdi i = bitBefore old x s i)
  cases hdirect : s.edges[i].direct with
  | false =>
    rw [hdirect, if_neg Bool.false_ne_true] at hlag
    exact ⟨fun _ hf => absurd hf Bool.false_ne_true, fun _ => hlag⟩
  | true =>
    rw [hdirect, if_pos rfl] at hlag
    rw [hlag]
    exact ⟨fun heq _ => heq.symm, fun heq => (heq rfl).symm⟩

end Scan

end Digital
