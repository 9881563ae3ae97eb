import LiteSpiH4x.Bench.Drivers

/-! # Sessions of the bench

The tests of `emu_sim.py` are a session: resets, identification reads, reads over SPI, reads and
writes over the bus, and commands the emulator does not know, in any order. What each returns is
what a plain array of bytes returns.

* **`HostOp`** — the operations, each with the driver that performs it and with what it returns.
* **`exec`** — the same operations on an array of bytes.
* **`session_eq`** — every session, in every interleaving with the system clock, returns the same
  results as the array.
* **`write_then_read`** — what was written over the bus is read back, from either side. -/

namespace LiteSpiH4x

open Digital StepMachine FlashEmu

namespace EmuSim

/-! ## Operations and their results -/

/-- The operations of the tests. -/
inductive HostOp
  | resetFlash
  | readFlashId
  | readFlashSpi (addr sz : ℕ)
  | command (cmd length nbits : ℕ)
  | readFlashWb (addr sz : ℕ)
  | writeFlashWb (addr : ℕ) (buf : List (BitVec 8))
  deriving DecidableEq, Repr

/-- What an operation returns. -/
inductive HostResult
  | done
  | bits (seq : List Bool)
  | bytes (buf : List (BitVec 8))
  deriving DecidableEq, Repr

namespace HostOp

/-- The driver of an operation. -/
def driver (seq : BitSequence) (bus : CsrBus) : HostOp → List Event
  | .resetFlash => EmuSim.resetFlash
  | .readFlashId => EmuSim.readFlashId seq
  | .readFlashSpi addr sz => EmuSim.readFlashSpi seq addr sz
  | .command cmd length nbits => EmuSim.command seq cmd length nbits
  | .readFlashWb addr sz => EmuSim.readFlashWb bus addr sz
  | .writeFlashWb addr buf => EmuSim.writeFlashWb bus addr buf

/-- Operations as the tests may call them: the address of a read fits its 24 bits, a command fits
its length, and bus cycles stay inside the memory's region. -/
def Legal : HostOp → Prop
  | .readFlashSpi addr sz => addr < 2 ^ 24 ∧ 0 < sz
  | .command cmd length _ => cmd < 2 ^ length
  | .readFlashWb addr sz => addr + sz ≤ 0x100
  | .writeFlashWb addr buf => addr + buf.length ≤ 0x100
  | _ => True

instance (op : HostOp) : Decidable op.Legal :=
  match op with
  | .readFlashSpi addr sz => inferInstanceAs (Decidable (addr < 2 ^ 24 ∧ 0 < sz))
  | .command cmd length _ => inferInstanceAs (Decidable (cmd < 2 ^ length))
  | .readFlashWb addr sz => inferInstanceAs (Decidable (addr + sz ≤ 0x100))
  | .writeFlashWb addr buf => inferInstanceAs (Decidable (addr + buf.length ≤ 0x100))
  | .resetFlash | .readFlashId => .isTrue trivial

end HostOp

/-- The levels of the samples. Reading a floating line raises an exception. -/
def levels (so : List (Option Bool)) : Option (List Bool) := so.mapM id

/-- What an operation returns from what was sampled, `none` if it raised an exception. -/
def HostOp.result (seq : BitSequence) (b : Bench) (op : HostOp) : Option HostResult :=
  if b.ok then
    match op with
    | .readFlashId => (levels b.so).map .bits
    | .readFlashSpi _ _ => (levels b.so).map fun so => .bytes (seq.tobytes so)
    | .readFlashWb _ _ => some (.bytes b.datrd)
    | _ => some .done
  else none

/-- A session: each operation comes with the events of its driver and of the system clock in the
order in which they happened. -/
def session (seq : BitSequence) (idcode : BitVec 24) :
    State → List (HostOp × List Event) → List (Option HostResult)
  | _, [] => []
  | s, (op, es) :: ops =>
    let b := run (Bench.step idcode) (Bench.start s) es
    op.result seq b :: session seq idcode b.emu ops

/-- The events are those of the driver, with any edges of the system clock in between. -/
def Interleaves (seq : BitSequence) (bus : CsrBus) (x : HostOp × List Event) : Prop :=
  x.2.filter Event.own = (x.1.driver seq bus).filter Event.own

instance (seq : BitSequence) (bus : CsrBus) (x : HostOp × List Event) :
    Decidable (Interleaves seq bus x) := inferInstanceAs (Decidable (_ = _))

/-! ## The array of bytes -/

/-- The bytes from `addr` on, going round at the end. -/
def load (M : BitVec 8 → BitVec 8) (addr sz : ℕ) : List (BitVec 8) :=
  (List.range sz).map fun i => M (BitVec.ofNat 8 (addr + i))

/-- `buf` takes its place from `addr` on. -/
def store (M : BitVec 8 → BitVec 8) (addr : ℕ) (buf : List (BitVec 8)) : BitVec 8 → BitVec 8 :=
  fun a => if addr ≤ a.toNat then buf.getD (a.toNat - addr) (M a) else M a

/-- An operation on an array of bytes. -/
def exec (idcode : BitVec 24) (M : BitVec 8 → BitVec 8) :
    HostOp → (BitVec 8 → BitVec 8) × HostResult
  | .readFlashId => (M, .bits ((List.range 24).map idcode.getMsbD))
  | .readFlashSpi addr sz => (M, .bytes (load M addr sz))
  | .readFlashWb addr sz => (M, .bytes (load M addr sz))
  | .writeFlashWb addr buf => (store M addr buf, .done)
  | _ => (M, .done)

/-- The results of a session on an array of bytes. -/
def arraySession (idcode : BitVec 24) : (BitVec 8 → BitVec 8) → List HostOp → List HostResult
  | _, [] => []
  | M, op :: ops => (exec idcode M op).2 :: arraySession idcode (exec idcode M op).1 ops

/-! ## What the drivers sample -/

/-- Samples that are all driven have levels. -/
theorem levels_map_some (bits : List Bool) : levels (bits.map some) = some bits := by
  induction bits with
  | nil => rfl
  | cons b bits ih =>
    rw [levels] at ih ⊢
    rw [List.map_cons, List.mapM_cons, ih]
    rfl

/-- The bits of `n` bytes, one after the other. -/
theorem range_mul_eight {α : Type*} (g : ℕ → ℕ → α) (n : ℕ) :
    (List.range (n * 8)).map (fun i => g (i / 8) (i % 8)) =
      (List.range n).flatMap fun i => (List.range 8).map (g i) := by
  induction n with
  | zero => rfl
  | succ n ih =>
    rw [Nat.add_mul, Nat.one_mul, List.range_add, List.map_append, ih, @List.range_succ n,
      List.flatMap_append, List.map_map, List.flatMap_singleton]
    congr 1
    apply List.map_congr_left
    intro j hj
    have hj8 : j < 8 := List.mem_range.mp hj
    simp only [Function.comp_apply, show (n * 8 + j) / 8 = n by omega,
      show (n * 8 + j) % 8 = j by omega]

/-- Bytes sent bit by bit are packed again. -/
theorem tobytes_flatMap (seq : BitSequence) (bytes : List (BitVec 8)) :
    seq.tobytes (bytes.flatMap fun x => (List.range 8).map x.getMsbD) = bytes := by
  induction bytes with
  | nil => exact seq.tobytes_nil
  | cons x bytes ih =>
    rw [List.flatMap_cons, seq.tobytes_append _ _ (by simp), ih, ofBits_map_getMsbD]

variable {idcode : BitVec 24} {M : BitVec 8 → BitVec 8}

/-- An identification read returns the id code. -/
theorem answers_id (seq : BitSequence) :
    answers idcode M false (seq.ofInt 0x9f 8) (seq.zeros (3 * 8)) =
      ((List.range 24).map idcode.getMsbD).map some := by
  have hlen : (seq.ofInt 0x9f 8).length = 8 := seq.length_ofInt _ _ (by decide)
  have hval : msbVal (seq.ofInt 0x9f 8) = 0x9f := seq.msbVal_ofInt _ _ (by decide)
  rw [answers, if_neg Bool.false_ne_true, seq.zeros_eq _ (by decide), List.length_replicate,
    List.map_map]
  apply List.map_congr_left
  intro i hi
  have hi24 : i < 24 := List.mem_range.mp hi
  have hop : Front.opcode (seq.ofInt 0x9f 8 ++ (List.replicate (3 * 8) false).take i) =
      cmdRdid := by
    rw [Front.opcode_append (by omega), Front.opcode, List.take_of_length_le (by omega), ofBits,
      hval]
    rfl
  rw [respond_rdid (by simp; omega) hop, List.length_append, hlen, Nat.add_sub_cancel_left,
    List.length_take, List.length_replicate, Nat.min_eq_left (by omega), Nat.mod_eq_of_lt hi24]
  rfl

/-- A read returns the bytes from its address on. -/
theorem answers_read (seq : BitSequence) {addr sz : ℕ} (haddr : addr < 2 ^ 24) (hsz : 0 < sz) :
    answers idcode M false (seq.ofInt 0x03 8 ++ seq.ofInt addr 24) (seq.zeros (sz * 8)) =
      ((load M addr sz).flatMap fun x => (List.range 8).map x.getMsbD).map some := by
  have hlen : (seq.ofInt 0x03 8).length = 8 := seq.length_ofInt _ _ (by decide)
  have hval : msbVal (seq.ofInt 0x03 8) = 0x03 := seq.msbVal_ofInt _ _ (by decide)
  have hlen' : (seq.ofInt addr 24).length = 24 := seq.length_ofInt _ _ haddr
  have hval' : msbVal (seq.ofInt addr 24) = addr := seq.msbVal_ofInt _ _ haddr
  have hheader : (seq.ofInt 0x03 8 ++ seq.ofInt addr 24).length = 32 := by simp [hlen, hlen']
  have hop : Front.opcode (seq.ofInt 0x03 8 ++ seq.ofInt addr 24) = cmdRead := by
    rw [Front.opcode, List.take_left' hlen, ofBits, hval]
    rfl
  have hadr : (Front.address (seq.ofInt 0x03 8 ++ seq.ofInt addr 24)).toNat = addr := by
    rw [Front.address, List.drop_left' hlen, List.take_of_length_le (by omega), ofBits, hval',
      BitVec.toNat_ofNat, Nat.mod_eq_of_lt haddr]
  rw [load, List.flatMap_map,
    ← range_mul_eight fun i j => (M (BitVec.ofNat 8 (addr + i))).getMsbD j, answers,
    if_neg Bool.false_ne_true, seq.zeros_eq _ (by omega), List.length_replicate, List.map_map]
  apply List.map_congr_left
  intro i hi
  have hisz : i < sz * 8 := List.mem_range.mp hi
  rw [respond_read (by simp; omega) (by rw [Front.opcode_append (by omega), hop]),
    Front.address_append (by omega), hadr, List.length_append, hheader, Nat.add_sub_cancel_left,
    List.length_take, List.length_replicate, Nat.min_eq_left (by omega)]
  rfl

/-! ## One operation -/

/-- One more byte, one more write. -/
theorem store_concat {addr : ℕ} {buf : List (BitVec 8)} {x : BitVec 8}
    (h : addr + buf.length < 0x100) :
    store M addr (buf ++ [x]) =
      Function.update (store M addr buf) (BitVec.ofNat 8 (addr + buf.length)) x := by
  funext a
  by_cases ha : a = BitVec.ofNat 8 (addr + buf.length)
  · have hnat : a.toNat = addr + buf.length := by
      rw [ha, BitVec.toNat_ofNat, Nat.mod_eq_of_lt h]
    rw [ha, Function.update_self, ← ha, store, if_pos (by omega), hnat, Nat.add_sub_cancel_left]
    simp
  · have hnat : a.toNat ≠ addr + buf.length := by
      intro heq
      exact ha (by rw [← heq, BitVec.ofNat_toNat, BitVec.setWidth_eq])
    rw [Function.update_of_ne ha, store, store]
    split
    · simp only [List.getD_eq_getElem?_getD]
      rcases Nat.lt_or_ge (a.toNat - addr) buf.length with hlt | hge
      · rw [List.getElem?_append_left hlt]
      · rw [List.getElem?_eq_none (by simp; omega), List.getElem?_eq_none hge]
    · rfl

/-- The writes of a bus driver, one after the other, store its buffer. -/
theorem foldl_update_eq_store {addr : ℕ} {buf : List (BitVec 8)} (h : addr + buf.length ≤ 0x100) :
    buf.zipIdx.foldl (fun M x => Function.update M (BitVec.ofNat 8 (addr + x.2)) x.1) M =
      store M addr buf := by
  induction buf using List.reverseRecOn with
  | nil =>
    funext a
    simp [store]
  | append_singleton buf x ih =>
    rw [List.length_append, List.length_singleton] at h
    rw [List.zipIdx_append, List.foldl_append, ih (by omega), store_concat (by omega)]
    simp

/-- **One operation.** From a bench at rest with contents `M`, the driver leads to one at rest with
the contents the array has then, and returns what the array does. -/
theorem HostOp.triple (seq : BitSequence) (bus : CsrBus) (op : HostOp) (hop : op.Legal) :
    Triple (Bench.step idcode) Event.own (Rest idcode false true false M [] [])
      (op.driver seq bus) fun b =>
        (∃ so rd, Rest idcode false true false (exec idcode M op).1 so rd b) ∧
          op.result seq b = some (exec idcode M op).2 := by
  match op with
  | .resetFlash =>
    exact resetFlash_triple.weaken (fun _ h => h) fun b h => ⟨⟨_, _, h⟩, if_pos h.ok⟩
  | .readFlashId =>
    refine (txfr_triple (seq.ofInt 0x9f 8) (seq.zeros (3 * 8)) false).weaken (fun _ h => h)
      fun b h => ⟨⟨_, _, h⟩, ?_⟩
    simp only [HostOp.result, h.ok, if_true, h.so, answers_id, levels_map_some, Option.map_some]
    rfl
  | .readFlashSpi addr sz =>
    refine (txfr_triple (seq.ofInt 0x03 8 ++ seq.ofInt addr 24) (seq.zeros (sz * 8)) false).weaken
      (fun _ h => h) fun b h => ⟨⟨_, _, h⟩, ?_⟩
    simp only [HostOp.result, h.ok, if_true, h.so, answers_read seq hop.1 hop.2, levels_map_some,
      Option.map_some, tobytes_flatMap]
    rfl
  | .command cmd length nbits =>
    have hdone : ∀ b so, Rest idcode false true false M so [] b →
        (∃ so rd, Rest idcode false true false M so rd b) ∧
          HostOp.result seq b (.command cmd length nbits) = some .done :=
      fun b so h => ⟨⟨_, _, h⟩, if_pos h.ok⟩
    rcases Nat.eq_zero_or_pos nbits with rfl | hpos
    · refine (txfr_triple (seq.ofInt cmd length) [] true).weaken (fun _ h => h) fun b h => ?_
      exact hdone b _ h
    · have htxfr := @txfr_triple idcode M (seq.ofInt cmd length) (seq.zeros nbits) true
      rw [HostOp.driver, EmuSim.command, if_neg (by omega)]
      exact htxfr.weaken (fun _ h => h) fun b h => hdone b _ h
  | .readFlashWb addr sz =>
    refine (readFlashWb_triple bus hop).weaken (fun _ h => h) fun b h => ⟨⟨_, _, h⟩, ?_⟩
    simp only [HostOp.result, h.ok, if_true, h.datrd]
    rfl
  | .writeFlashWb addr buf =>
    refine (writeFlashWb_triple bus hop).weaken (fun _ h => h) fun b h => ?_
    rw [foldl_update_eq_store hop] at h
    exact ⟨⟨_, _, h⟩, if_pos h.ok⟩

/-! ## Whole sessions -/

/-- Between two operations the emulator is as the next driver expects it. -/
theorem Rest.restart {rstn clk : Bool} {so : List (Option Bool)} {rd : List (BitVec 8)} {b : Bench}
    (h : Rest idcode false rstn clk M so rd b) :
    Rest idcode false rstn clk M [] [] (Bench.start b.emu) := by
  have hlog : b.log = {} := h.inv.tracks.held (by rw [resetInput, h.csn, Bool.or_true])
  exact
    { inv := by
        have hinv := h.inv
        rwa [hlog] at hinv
      csn := h.csn
      rstn := h.rstn
      clk := h.clk
      sel := h.sel
      mem := h.mem
      so := rfl
      datrd := rfl
      ok := rfl }

/-- A session from a bench at rest. -/
theorem session_of_rest (seq : BitSequence) (bus : CsrBus) {s : State}
    (hs : Rest idcode false true false M [] [] (Bench.start s)) (ops : List (HostOp × List Event))
    (hlegal : ∀ x ∈ ops, x.1.Legal) (hes : ∀ x ∈ ops, Interleaves seq bus x) :
    session seq idcode s ops = (arraySession idcode M (ops.map Prod.fst)).map some := by
  induction ops generalizing s M with
  | nil => rfl
  | cons x ops ih =>
    obtain ⟨op, es⟩ := x
    have hop : op.Legal := hlegal _ List.mem_cons_self
    obtain ⟨⟨so, rd, hrest⟩, hresult⟩ :=
      HostOp.triple seq bus op hop (Bench.start s) es hs (hes _ List.mem_cons_self)
    have htail := ih hrest.restart (fun y hy => hlegal y (List.mem_cons_of_mem _ hy))
      (fun y hy => hes y (List.mem_cons_of_mem _ hy))
    rw [session, hresult, htail, List.map_cons, arraySession, List.map_cons]

/-- A session that begins with a reset, from a chip that is not selected. -/
theorem session_of_reset (seq : BitSequence) (bus : CsrBus) {s : State} {rstn clk : Bool}
    (hs : Rest idcode false rstn clk M [] [] (Bench.start s)) (es : List Event)
    (ops : List (HostOp × List Event)) (hlegal : ∀ x ∈ ops, x.1.Legal)
    (hes : ∀ x ∈ (.resetFlash, es) :: ops, Interleaves seq bus x) :
    session seq idcode s ((.resetFlash, es) :: ops) =
      (arraySession idcode M (.resetFlash :: ops.map Prod.fst)).map some := by
  have hrest := resetFlash_triple _ es hs (hes _ List.mem_cons_self)
  have htail := session_of_rest seq bus hrest.restart ops hlegal
    fun x hx => hes x (List.mem_cons_of_mem _ hx)
  rw [session, htail, arraySession, List.map_cons]
  exact congrArg (· :: _) (if_pos hrest.ok)

/-- At power-on the chip is not selected. -/
theorem Rest.boot (rstn sclk si : Bool) :
    Rest idcode false rstn sclk initMem [] []
      (Bench.start (FlashEmu.boot idcode rstn sclk si)) where
  inv := Inv.boot rstn sclk si
  csn := rfl
  rstn := rfl
  clk := rfl
  sel := rfl
  mem := rfl
  so := rfl
  datrd := rfl
  ok := rfl

/-- **Sessions.** From power-on with the lines at any level, every session that begins with a reset
returns, operation by operation, what an array of bytes returns: whatever operations the drivers
perform in whatever order, and wherever the edges of the system clock fall. -/
theorem session_eq (seq : BitSequence) (bus : CsrBus) (idcode : BitVec 24) (rstn sclk si : Bool)
    (es : List Event) (ops : List (HostOp × List Event)) (hlegal : ∀ x ∈ ops, x.1.Legal)
    (hes : ∀ x ∈ (.resetFlash, es) :: ops, Interleaves seq bus x) :
    session seq idcode (boot idcode rstn sclk si) ((.resetFlash, es) :: ops) =
      (arraySession idcode initMem (.resetFlash :: ops.map Prod.fst)).map some :=
  session_of_reset seq bus (Rest.boot rstn sclk si) es ops hlegal hes

/-- An identification read, a bus write and a read of what it wrote, with a system clock edge
before each event of the drivers. -/
theorem session_eq_mixed :
    let act := fun (op : HostOp) =>
      (op, (op.driver .msbFirst .twoCycle).flatMap fun e => [.idle 7 0, e])
    let ops := [HostOp.readFlashId, .writeFlashWb 4 [0xaa, 0x55], .readFlashSpi 4 2]
    session .msbFirst 0xc22539 (boot 0xc22539 false true true)
        (act .resetFlash :: ops.map act) =
      (arraySession 0xc22539 initMem (.resetFlash :: (ops.map act).map Prod.fst)).map some :=
  session_eq .msbFirst .twoCycle 0xc22539 false true true _ _ (by decide +kernel)
    (by decide +kernel)

/-! ## What was written is read back -/

/-- The contents of the array after some operations. -/
def contents (idcode : BitVec 24) (M : BitVec 8 → BitVec 8) (ops : List HostOp) :
    BitVec 8 → BitVec 8 :=
  ops.foldl (fun M op => (exec idcode M op).1) M

/-- The last operation of a session works on the contents the others have left. -/
theorem arraySession_concat (ops : List HostOp) (op : HostOp) :
    arraySession idcode M (ops ++ [op]) =
      arraySession idcode M ops ++ [(exec idcode (contents idcode M ops) op).2] := by
  induction ops generalizing M with
  | nil => rfl
  | cons op' ops ih =>
    rw [List.cons_append, arraySession, arraySession, ih, List.cons_append]
    rfl

/-- A stored buffer is found where it was stored. -/
theorem store_of_lt {addr i : ℕ} {buf : List (BitVec 8)} (h : addr + buf.length ≤ 0x100)
    (hi : i < buf.length) : store M addr buf (BitVec.ofNat 8 (addr + i)) = buf[i] := by
  have hnat : (BitVec.ofNat 8 (addr + i)).toNat = addr + i := by
    rw [BitVec.toNat_ofNat, Nat.mod_eq_of_lt (by omega)]
  rw [store, if_pos (by omega), hnat, Nat.add_sub_cancel_left, List.getD_eq_getElem?_getD,
    List.getElem?_eq_getElem hi, Option.getD_some]

/-- An operation leaves a byte alone that it does not write. -/
theorem exec_of_disjoint {op : HostOp} {n : ℕ} (hn : n < 0x100)
    (h : ∀ addr buf, op = .writeFlashWb addr buf → n < addr ∨ addr + buf.length ≤ n) :
    (exec idcode M op).1 (BitVec.ofNat 8 n) = M (BitVec.ofNat 8 n) := by
  match op with
  | .writeFlashWb addr buf =>
    have hnat : (BitVec.ofNat 8 n).toNat = n := by rw [BitVec.toNat_ofNat, Nat.mod_eq_of_lt hn]
    simp only [exec, store, hnat]
    split
    · rw [List.getD_eq_getElem?_getD, List.getElem?_eq_none, Option.getD_none]
      rcases h addr buf rfl with hlt | hle <;> omega
    · rfl
  | .resetFlash | .readFlashId | .readFlashSpi _ _ | .command _ _ _ | .readFlashWb _ _ => rfl

/-- So do any number of operations. -/
theorem contents_of_disjoint {ops : List HostOp} {n : ℕ} (hn : n < 0x100)
    (h : ∀ op ∈ ops, ∀ addr buf, op = .writeFlashWb addr buf → n < addr ∨ addr + buf.length ≤ n) :
    contents idcode M ops (BitVec.ofNat 8 n) = M (BitVec.ofNat 8 n) := by
  induction ops generalizing M with
  | nil => rfl
  | cons op ops ih =>
    rw [contents, List.foldl_cons, ← contents,
      ih fun op' hop' => h op' (List.mem_cons_of_mem _ hop')]
    exact exec_of_disjoint hn (h op List.mem_cons_self)

/-- **Read after write.** In every session, a buffer written over the bus is what a later read of
the same bytes returns, over SPI or over the bus, whatever happens in between that does not write
there: other reads, commands the emulator does not know, resets, writes elsewhere. -/
theorem write_then_read (seq : BitSequence) (bus : CsrBus) (idcode : BitVec 24)
    (rstn sclk si : Bool) (es esW esR : List Event) (before between : List (HostOp × List Event))
    (addr : ℕ) (buf : List (BitVec 8)) (read : HostOp)
    (hread : read = .readFlashSpi addr buf.length ∨ read = .readFlashWb addr buf.length)
    (hbuf : buf ≠ []) (hfit : addr + buf.length ≤ 0x100)
    (hbetween : ∀ x ∈ between, ∀ addr' buf', x.1 = .writeFlashWb addr' buf' →
      addr' + buf'.length ≤ addr ∨ addr + buf.length ≤ addr')
    (hlegal : ∀ x ∈ before ++ between, x.1.Legal)
    (hes : ∀ x ∈ (.resetFlash, es) :: (before ++ (.writeFlashWb addr buf, esW) :: between ++
      [(read, esR)]), Interleaves seq bus x) :
    (session seq idcode (boot idcode rstn sclk si)
      ((.resetFlash, es) :: (before ++ (.writeFlashWb addr buf, esW) :: between ++
        [(read, esR)]))).getLast? = some (some (.bytes buf)) := by
  have hpos : 0 < buf.length := List.length_pos_iff.mpr hbuf
  have hlegal' : ∀ x ∈ before ++ (.writeFlashWb addr buf, esW) :: between ++ [(read, esR)],
      x.1.Legal := by
    intro x hx
    simp only [List.mem_append, List.mem_cons, List.not_mem_nil, or_false] at hx
    rcases hx with (hx | rfl | hx) | rfl
    · exact hlegal x (List.mem_append_left _ hx)
    · exact hfit
    · exact hlegal x (List.mem_append_right _ hx)
    · rcases hread with rfl | rfl
      · exact ⟨by omega, hpos⟩
      · exact hfit
  rw [session_of_reset seq bus (Rest.boot rstn sclk si) es _ hlegal' hes, List.map_append,
    List.map_cons, List.map_nil, ← List.cons_append, arraySession_concat, List.map_append,
    List.map_cons, List.map_nil, List.getLast?_concat]
  -- the contents that the read finds hold the buffer
  have hload : load (contents idcode initMem (.resetFlash ::
      (before ++ (.writeFlashWb addr buf, esW) :: between).map Prod.fst)) addr buf.length =
        buf := by
    refine List.ext_getElem (by simp [load]) fun i _ hi => ?_
    simp only [load, List.getElem_map, List.getElem_range, List.map_append, List.map_cons]
    rw [← List.cons_append, contents, List.foldl_append, List.foldl_cons, ← contents,
      contents_of_disjoint (by omega)]
    · exact store_of_lt hfit hi
    intro op hop addr' buf' heq
    obtain ⟨x, hx, rfl⟩ := List.mem_map.mp hop
    rcases hbetween x hx addr' buf' heq with h | h <;> omega
  rcases hread with rfl | rfl <;> exact congrArg (fun l => some (some (HostResult.bytes l))) hload

/-- The bytes of `write_first_four_bytes_wb`, read back over SPI after a command that the emulator
does not know and a write right behind them. -/
theorem write_then_read_four :
    let act := fun (op : HostOp) => (op, op.driver .msbFirst .twoCycle)
    let buf := [0xaa, 0x55, 0x00, 0xff]
    (session .msbFirst 0xc22539 (boot 0xc22539 true false false)
      (act .resetFlash :: ([] ++ act (.writeFlashWb 4 buf) ::
        [act (.command 0x06 8 0), act (.writeFlashWb 8 [0x12])] ++
        [act (.readFlashSpi 4 4)]))).getLast? = some (some (.bytes buf)) :=
  write_then_read .msbFirst .twoCycle 0xc22539 true false false _ _ _ [] _ 4
    [0xaa, 0x55, 0x00, 0xff] _ (.inl rfl) (by decide) (by decide) (by simp) (by decide +kernel)
    (by decide +kernel)

end EmuSim

end LiteSpiH4x
