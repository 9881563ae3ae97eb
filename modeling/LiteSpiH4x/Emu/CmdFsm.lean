import LiteSpiH4x.Digital.ShiftRegister

/-! # The SPI command front end

`FlashEmu` and `FlashEmuLite` carry two hand-made copies of one command state machine: an 8-bit
opcode, for a read a 24-bit address, then data until `csn` rises. This file has what the copies
share, the states and the registers that do not depend on read data, and what they are for:

* **`Front.next`** — one clock edge of the front end, with `quad` telling whether the module
  knows the quad-read opcode.
* **`Front.decode`** — the registers as a function of the bits received so far in the
  transaction, in closed form.
* **`Front.decode_concat`** — the closed form is what the clock edges compute. -/

namespace LiteSpiH4x

open Digital

/-- `CMD_READ` -/
def cmdRead : BitVec 8 := 0x03

/-- `CMD_QREAD` -/
def cmdQread : BitVec 8 := 0x6b

/-- `CMD_RDID` -/
def cmdRdid : BitVec 8 := 0x9f

/-- The states of `cmd_fsm`. -/
inductive CmdState
  | getCmd
  | rdid
  | readGetAddr
  | readGetData
  | badCmdErr
  deriving DecidableEq, Repr

/-- The registers of a command front end that do not depend on read data. -/
structure CmdRegs where
  /-- `cmd_fsm.state` -/
  state : CmdState
  /-- `cmd_bit_cnt`, `Signal(max=8, reset=1)` -/
  cmdBitCnt : BitVec 3
  /-- `cmd`, reset to the input line -/
  cmd : BitVec 8
  /-- `addr` -/
  addr : BitVec 24
  /-- `addr_cnt`, `Signal(max=24)` -/
  addrCnt : BitVec 5
  /-- `dr_bit_cnt`, `Signal(max=8)` -/
  drBitCnt : BitVec 3
  /-- `idcode`, reset to the parameter -/
  idcode : BitVec 24
  deriving DecidableEq, Repr

/-- The registers after a clock edge with reset up: each at its reset value, `cmd` holding the
bit on the input line, `cmd_bit_cnt` counting it. -/
def CmdRegs.reset (idcode : BitVec 24) (si : Bool) : CmdRegs where
  -- the edge that ends the reset takes in the first bit: through `cmd`, whose reset value is
  -- the line itself, and `cmd_bit_cnt`, which resets to one
  state := .getCmd
  cmdBitCnt := 1
  cmd := (BitVec.ofBool si).setWidth 8
  addr := 0
  addrCnt := 0
  drBitCnt := 0
  idcode := idcode

namespace CmdRegs

/-- `cmd_next`, driven in `get_cmd`: the line comes in from below. -/
def cmdNext (r : CmdRegs) (si : Bool) : BitVec 8 := r.cmd.shiftConcat si

/-- `addr_next`: the line comes in from below, or the next byte's address; zero in the states
that do not drive it. -/
def addrNext (r : CmdRegs) (si : Bool) : BitVec 24 :=
  match r.state with
  | .readGetAddr => r.addr.shiftConcat si
  | .readGetData => r.addr + 1
  | _ => 0

end CmdRegs

/-- The front end of either module: the shared registers and the quad flag, which stays low in a
module that has none. -/
structure Front extends CmdRegs where
  /-- `qmode` -/
  qmode : Bool
  deriving DecidableEq, Repr

namespace Front

/-- The front end after its reset edge. -/
def reset (idcode : BitVec 24) (si : Bool) : Front where
  toCmdRegs := CmdRegs.reset idcode si
  qmode := false

/-- The state entered from `get_cmd` when the eighth bit completes the opcode `c`. -/
def accept (quad : Bool) (c : BitVec 8) : CmdState :=
  if c = cmdRead then .readGetAddr
  else if quad = true ∧ c = cmdQread then .readGetAddr
  else if c = cmdRdid then .rdid
  else .badCmdErr

/-- One clock edge of the front end with `si` on the input line. -/
def next (quad : Bool) (f : Front) (si : Bool) : Front :=
  match f.state with
  | .getCmd =>
    { f with
      cmd := f.cmd.shiftConcat si
      cmdBitCnt := f.cmdBitCnt + 1
      state := if f.cmdBitCnt = 7 then accept quad (f.cmd.shiftConcat si) else .getCmd
      qmode := if f.cmdBitCnt = 7 ∧ quad = true ∧ f.cmd.shiftConcat si = cmdQread then true
        else f.qmode }
  | .rdid => { f with idcode := rotl f.idcode }
  | .readGetAddr =>
    { f with
      addr := f.addr.shiftConcat si
      addrCnt := f.addrCnt + 1
      state := if f.addrCnt = 23 then .readGetData else .readGetAddr }
  | .readGetData =>
    { f with
      drBitCnt := if f.qmode then f.drBitCnt + 4 else f.drBitCnt + 1
      addr := if f.drBitCnt = 7 ∨ f.drBitCnt = 4 ∧ f.qmode = true then f.addr + 1 else f.addr }
  | .badCmdErr => f

/-! ## The closed form -/

/-- The opcode: the first eight bits of a transaction. -/
def opcode (bits : List Bool) : BitVec 8 := ofBits 8 (bits.take 8)

/-- The address: the 24 bits that follow the opcode. -/
def address (bits : List Bool) : BitVec 24 := ofBits 24 ((bits.drop 8).take 24)

/-- Whether a module with or without quad reads takes `c` as a read opcode. -/
def IsRead (quad : Bool) (c : BitVec 8) : Prop := c = cmdRead ∨ quad = true ∧ c = cmdQread

instance (quad : Bool) (c : BitVec 8) : Decidable (IsRead quad c) := by
  unfold IsRead; infer_instance

/-- Bits of a byte consumed by one data clock: four in quad mode. -/
def stride (qmode : Bool) : ℕ := if qmode then 4 else 1

/-- **The front end as a function of the transaction's bits.** Fewer than eight bits are an
opcode being shifted in; an identification read rotates `idcode` once per further bit; a read
shifts in 24 address bits and then advances through the bytes; any other opcode is an error. -/
def decode (quad : Bool) (idcode : BitVec 24) (bits : List Bool) : Front :=
  if bits.length < 8 then
    { state := .getCmd, cmdBitCnt := BitVec.ofNat 3 bits.length, cmd := ofBits 8 bits, addr := 0,
      addrCnt := 0, drBitCnt := 0, idcode := idcode, qmode := false }
  else if opcode bits = cmdRdid then
    { state := .rdid, cmdBitCnt := 0, cmd := opcode bits, addr := 0, addrCnt := 0, drBitCnt := 0,
      idcode := rotl^[bits.length - 8] idcode, qmode := false }
  else if IsRead quad (opcode bits) then
    if bits.length < 32 then
      { state := .readGetAddr, cmdBitCnt := 0, cmd := opcode bits, addr := ofBits 24 (bits.drop 8),
        addrCnt := BitVec.ofNat 5 (bits.length - 8), drBitCnt := 0, idcode := idcode,
        qmode := decide (opcode bits = cmdQread) }
    else
      { state := .readGetData, cmdBitCnt := 0, cmd := opcode bits,
        addr := address bits +
          BitVec.ofNat 24 (stride (decide (opcode bits = cmdQread)) * (bits.length - 32) / 8),
        addrCnt := 24,
        drBitCnt :=
          BitVec.ofNat 3 (stride (decide (opcode bits = cmdQread)) * (bits.length - 32)),
        idcode := idcode, qmode := decide (opcode bits = cmdQread) }
  else
    { state := .badCmdErr, cmdBitCnt := 0, cmd := opcode bits, addr := 0, addrCnt := 0,
      drBitCnt := 0, idcode := idcode, qmode := false }

variable {quad : Bool} {idcode : BitVec 24} {bits : List Bool}

/-- While the opcode comes in. -/
theorem decode_header (h : bits.length < 8) :
    decode quad idcode bits =
      { state := .getCmd, cmdBitCnt := BitVec.ofNat 3 bits.length, cmd := ofBits 8 bits,
        addr := 0, addrCnt := 0, drBitCnt := 0, idcode := idcode, qmode := false } :=
  if_pos h

/-- In an identification read. -/
theorem decode_rdid (h : 8 ≤ bits.length) (hop : opcode bits = cmdRdid) :
    decode quad idcode bits =
      { state := .rdid, cmdBitCnt := 0, cmd := opcode bits, addr := 0, addrCnt := 0,
        drBitCnt := 0, idcode := rotl^[bits.length - 8] idcode, qmode := false } := by
  rw [decode, if_neg (not_lt.mpr h), if_pos hop]

/-- A read opcode is not the identification read. -/
theorem IsRead.ne_rdid {c : BitVec 8} (h : IsRead quad c) : c ≠ cmdRdid := by
  rcases h with rfl | ⟨-, rfl⟩ <;> decide

/-- While the address of a read comes in. -/
theorem decode_addr (h : 8 ≤ bits.length) (hlt : bits.length < 32)
    (hop : IsRead quad (opcode bits)) :
    decode quad idcode bits =
      { state := .readGetAddr, cmdBitCnt := 0, cmd := opcode bits, addr := ofBits 24 (bits.drop 8),
        addrCnt := BitVec.ofNat 5 (bits.length - 8), drBitCnt := 0, idcode := idcode,
        qmode := decide (opcode bits = cmdQread) } := by
  rw [decode, if_neg (not_lt.mpr h), if_neg hop.ne_rdid, if_pos hop, if_pos hlt]

/-- While a read delivers data. -/
theorem decode_data (h : 32 ≤ bits.length) (hop : IsRead quad (opcode bits)) :
    decode quad idcode bits =
      { state := .readGetData, cmdBitCnt := 0, cmd := opcode bits,
        addr := address bits +
          BitVec.ofNat 24 (stride (decide (opcode bits = cmdQread)) * (bits.length - 32) / 8),
        addrCnt := 24,
        drBitCnt :=
          BitVec.ofNat 3 (stride (decide (opcode bits = cmdQread)) * (bits.length - 32)),
        idcode := idcode, qmode := decide (opcode bits = cmdQread) } := by
  rw [decode, if_neg (by omega), if_neg hop.ne_rdid, if_pos hop, if_neg (not_lt.mpr h)]

/-- A plain read delivers one bit with each clock, and a byte with each eighth. -/
theorem data_regs {f : Front} {t : ℕ} (h : f = decode quad idcode bits)
    (hop : opcode bits = cmdRead) (ht : bits.length = 32 + t) :
    f.state = .readGetData ∧ f.qmode = false ∧ f.drBitCnt = BitVec.ofNat 3 t ∧
      f.addr = address bits + BitVec.ofNat 24 (t / 8) := by
  have hq : decide (cmdRead = cmdQread) = false := by decide
  have hlen : bits.length - 32 = t := by omega
  rw [h, decode_data (by omega) (Or.inl hop), hop]
  simp only [hq, stride, Bool.false_eq_true, if_false, one_mul, hlen, and_self]

/-- After an opcode that is neither. -/
theorem decode_bad (h : 8 ≤ bits.length) (hid : opcode bits ≠ cmdRdid)
    (hop : ¬ IsRead quad (opcode bits)) :
    decode quad idcode bits =
      { state := .badCmdErr, cmdBitCnt := 0, cmd := opcode bits, addr := 0, addrCnt := 0,
        drBitCnt := 0, idcode := idcode, qmode := false } := by
  rw [decode, if_neg (not_lt.mpr h), if_neg hid, if_neg hop]

/-- The address is being shifted in exactly between the opcode and the end of the header of a
read. -/
theorem state_decode_addr_iff : (decode quad idcode bits).state = .readGetAddr ↔
    8 ≤ bits.length ∧ bits.length < 32 ∧ IsRead quad (opcode bits) := by
  rcases lt_or_ge bits.length 8 with hlt | h8
  · simp [decode_header hlt, show ¬ 8 ≤ bits.length by omega]
  by_cases hid : opcode bits = cmdRdid
  · simp [decode_rdid h8 hid, hid, IsRead, cmdRdid, cmdRead, cmdQread]
  by_cases hread : IsRead quad (opcode bits)
  · rcases lt_or_ge bits.length 32 with hlt | h32
    · simp [decode_addr h8 hlt hread, h8, hlt, hread]
    · simp [decode_data h32 hread, show ¬ bits.length < 32 by omega]
  · simp [decode_bad h8 hid hread, hread]

/-- Data is delivered from the end of the header of a read on. -/
theorem state_decode_data_iff : (decode quad idcode bits).state = .readGetData ↔
    32 ≤ bits.length ∧ IsRead quad (opcode bits) := by
  rcases lt_or_ge bits.length 8 with hlt | h8
  · simp [decode_header hlt, show ¬ 32 ≤ bits.length by omega]
  by_cases hid : opcode bits = cmdRdid
  · simp [decode_rdid h8 hid, hid, IsRead, cmdRdid, cmdRead, cmdQread]
  by_cases hread : IsRead quad (opcode bits)
  · rcases lt_or_ge bits.length 32 with hlt | h32
    · simp [decode_addr h8 hlt hread, show ¬ 32 ≤ bits.length by omega]
    · simp [decode_data h32 hread, h32, hread]
  · simp [decode_bad h8 hid hread, hread]

/-! ## The clock edges compute the closed form -/

/-- Further bits leave the opcode alone. -/
theorem opcode_append (h : 8 ≤ bits.length) (bs : List Bool) :
    opcode (bits ++ bs) = opcode bits := by
  rw [opcode, opcode, List.take_append_of_le_length h]

/-- Further bits leave the address alone. -/
theorem address_append (h : 32 ≤ bits.length) (bs : List Bool) :
    address (bits ++ bs) = address bits := by
  rw [address, address, List.drop_append_of_le_length (by omega),
    List.take_append_of_le_length (by rw [List.length_drop]; omega)]

/-- The opcode of a prefix that contains it. -/
theorem opcode_take {f : ℕ} (h : 8 ≤ f) : opcode (bits.take f) = opcode bits := by
  rw [opcode, opcode, List.take_take, Nat.min_eq_left h]

/-- The address of a prefix that contains it. -/
theorem address_take {f : ℕ} (h : 32 ≤ f) : address (bits.take f) = address bits := by
  rw [address, address, List.drop_take, List.take_take, Nat.min_eq_left (by omega)]

/-- While exactly the header has come in, everything after the opcode is the address. -/
theorem address_eq_drop (h : bits.length ≤ 32) : address bits = ofBits 24 (bits.drop 8) := by
  rw [address, List.take_of_length_le (by rw [List.length_drop]; omega)]

/-- The reset edge has taken in the first bit. -/
theorem decode_singleton (b : Bool) : decode quad idcode [b] = reset idcode b := by
  cases b <;> rfl

private theorem decode_concat_header (hlt : bits.length < 7) (b : Bool) :
    decode quad idcode (bits ++ [b]) = (decode quad idcode bits).next quad b := by
  have hcnt : BitVec.ofNat 3 bits.length ≠ 7 := by
    rw [Ne, ← BitVec.toNat_inj, BitVec.toNat_ofNat]
    simp only [BitVec.reduceToNat]
    omega
  rw [decode_header (by simp; omega), decode_header (by omega), next]
  simp only [ofBits_concat, List.length_append, List.length_singleton, BitVec.ofNat_add, hcnt,
    if_false, false_and]
  rfl

private theorem decode_concat_opcode (h7 : bits.length = 7) (b : Bool) :
    decode quad idcode (bits ++ [b]) = (decode quad idcode bits).next quad b := by
  have h8 : (bits ++ [b]).length = 8 := by simp [h7]
  have hop : opcode (bits ++ [b]) = (ofBits 8 bits).shiftConcat b := by
    rw [opcode, List.take_of_length_le (by omega), ofBits_concat]
  have hrhs : (decode quad idcode bits).next quad b =
      { state := accept quad (opcode (bits ++ [b])), cmdBitCnt := 0, cmd := opcode (bits ++ [b]),
        addr := 0, addrCnt := 0, drBitCnt := 0, idcode := idcode,
        qmode := decide (quad = true ∧ opcode (bits ++ [b]) = cmdQread) } := by
    rw [decode_header (by omega), next, hop, h7]
    simp only [show (BitVec.ofNat 3 7 : BitVec 3) = 7 from rfl, if_true, true_and]
    by_cases hq : quad = true ∧ (ofBits 8 bits).shiftConcat b = cmdQread <;> simp [hq]
  rw [hrhs]
  by_cases hid : opcode (bits ++ [b]) = cmdRdid
  · rw [decode_rdid (by omega) hid, h8, hid]
    simp [accept, cmdRead, cmdQread, cmdRdid]
  by_cases hread : IsRead quad (opcode (bits ++ [b]))
  · rw [decode_addr (by omega) (by omega) hread, h8]
    have hdrop : (bits ++ [b]).drop 8 = [] := List.drop_eq_nil_of_le (by omega)
    rcases hread with hc | ⟨hq, hc⟩
    · rw [hc, hdrop]
      simp [accept, cmdRead, cmdQread]
    · rw [hc, hq, hdrop]
      simp [accept, cmdRead, cmdQread]
  · rw [decode_bad (by omega) hid hread]
    have hc1 : opcode (bits ++ [b]) ≠ cmdRead := fun h => hread (Or.inl h)
    have hc2 : ¬ (quad = true ∧ opcode (bits ++ [b]) = cmdQread) := fun h => hread (Or.inr h)
    simp [accept, hc1, hc2, hid]

private theorem decode_concat_rdid (h : 8 ≤ bits.length) (hop : opcode bits = cmdRdid)
    (b : Bool) : decode quad idcode (bits ++ [b]) = (decode quad idcode bits).next quad b := by
  have hop' : opcode (bits ++ [b]) = cmdRdid := by rw [opcode_append h, hop]
  rw [decode_rdid (by simp; omega) hop', decode_rdid h hop, next, hop, hop', List.length_append,
    List.length_singleton, Nat.sub_add_comm h, Function.iterate_succ_apply']

private theorem decode_concat_addr (h : 8 ≤ bits.length) (hlt : bits.length < 31)
    (hop : IsRead quad (opcode bits)) (b : Bool) :
    decode quad idcode (bits ++ [b]) = (decode quad idcode bits).next quad b := by
  have hcnt : BitVec.ofNat 5 (bits.length - 8) ≠ 23 := by
    rw [Ne, ← BitVec.toNat_inj, BitVec.toNat_ofNat]
    simp only [BitVec.reduceToNat]
    omega
  have hop' : opcode (bits ++ [b]) = opcode bits := opcode_append h [b]
  rw [decode_addr (by simp; omega) (by simp; omega) (by rw [hop']; exact hop),
    decode_addr h (by omega) hop, next, hop', List.drop_append_of_le_length h, ofBits_concat,
    List.length_append, List.length_singleton, Nat.sub_add_comm h, BitVec.ofNat_add]
  simp only [hcnt, if_false]
  rfl

private theorem decode_concat_last_addr (h : bits.length = 31) (hop : IsRead quad (opcode bits))
    (b : Bool) : decode quad idcode (bits ++ [b]) = (decode quad idcode bits).next quad b := by
  have hop' : opcode (bits ++ [b]) = opcode bits := opcode_append (by omega) [b]
  rw [decode_data (by simp; omega) (by rw [hop']; exact hop), decode_addr (by omega) (by omega) hop,
    next, hop', address_eq_drop (by simp; omega), List.drop_append_of_le_length (by omega),
    ofBits_concat, List.length_append, List.length_singleton, h]
  simp

/-- A data clock moves the bit counter by the stride and the address at the end of a byte. -/
theorem data_clock (q : Bool) (a : BitVec 24) (t : ℕ) :
    (BitVec.ofNat 3 (stride q * (t + 1)) =
      if q then BitVec.ofNat 3 (stride q * t) + 4 else BitVec.ofNat 3 (stride q * t) + 1) ∧
    (a + BitVec.ofNat 24 (stride q * (t + 1) / 8) =
      if BitVec.ofNat 3 (stride q * t) = 7 ∨ BitVec.ofNat 3 (stride q * t) = 4 ∧ q = true then
        a + BitVec.ofNat 24 (stride q * t / 8) + 1
      else a + BitVec.ofNat 24 (stride q * t / 8)) := by
  cases q
  case false =>
    have h7 : BitVec.ofNat 3 (1 * t) = 7 ↔ t % 8 = 7 := by
      rw [← BitVec.toNat_inj, BitVec.toNat_ofNat, one_mul]; rfl
    simp only [stride, Bool.false_eq_true, if_false, and_false, or_false, h7]
    refine ⟨by rw [mul_add, BitVec.ofNat_add]; rfl, ?_⟩
    split
    · rw [show 1 * (t + 1) / 8 = 1 * t / 8 + 1 by omega, BitVec.ofNat_add, ← BitVec.add_assoc]
      rfl
    · rw [show 1 * (t + 1) / 8 = 1 * t / 8 by omega]
  case true =>
    have h7 : BitVec.ofNat 3 (4 * t) ≠ 7 := by
      rw [Ne, ← BitVec.toNat_inj, BitVec.toNat_ofNat]
      simp only [BitVec.reduceToNat]
      omega
    have h4 : BitVec.ofNat 3 (4 * t) = 4 ↔ t % 2 = 1 := by
      rw [← BitVec.toNat_inj, BitVec.toNat_ofNat]
      simp only [BitVec.reduceToNat]
      omega
    simp only [stride, if_true, and_true, h7, false_or, h4]
    refine ⟨by rw [mul_add, BitVec.ofNat_add]; rfl, ?_⟩
    split
    · rw [show 4 * (t + 1) / 8 = 4 * t / 8 + 1 by omega, BitVec.ofNat_add, ← BitVec.add_assoc]
      rfl
    · rw [show 4 * (t + 1) / 8 = 4 * t / 8 by omega]

private theorem decode_concat_data (h : 32 ≤ bits.length) (hop : IsRead quad (opcode bits))
    (b : Bool) : decode quad idcode (bits ++ [b]) = (decode quad idcode bits).next quad b := by
  have hop' : opcode (bits ++ [b]) = opcode bits := opcode_append (by omega) [b]
  obtain ⟨hcnt, haddr⟩ :=
    data_clock (decide (opcode bits = cmdQread)) (address bits) (bits.length - 32)
  rw [decode_data (by simp; omega) (by rw [hop']; exact hop), decode_data h hop, next, hop',
    address_append h, List.length_append, List.length_singleton, Nat.sub_add_comm h, hcnt, haddr]

/-- **The closed form is what the clock edges compute**: one more bit is one more edge. -/
theorem decode_concat (b : Bool) :
    decode quad idcode (bits ++ [b]) = (decode quad idcode bits).next quad b := by
  rcases lt_or_ge bits.length 8 with hlt | h8
  · rcases Nat.lt_succ_iff_lt_or_eq.mp hlt with h | h
    · exact decode_concat_header h b
    · exact decode_concat_opcode h b
  by_cases hid : opcode bits = cmdRdid
  · exact decode_concat_rdid h8 hid b
  by_cases hread : IsRead quad (opcode bits)
  · rcases lt_trichotomy bits.length 31 with h | h | h
    · exact decode_concat_addr h8 h hread b
    · exact decode_concat_last_addr h hread b
    · exact decode_concat_data h hread b
  · have hop' : opcode (bits ++ [b]) = opcode bits := opcode_append h8 [b]
    rw [decode_bad (by simp; omega) (by rw [hop']; exact hid) (by rw [hop']; exact hread),
      decode_bad h8 hid hread, hop', next]

end Front

end LiteSpiH4x
