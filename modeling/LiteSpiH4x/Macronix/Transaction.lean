import LiteSpiH4x.Emu.CmdFsm
import LiteSpiH4x.Macronix.MX25U25635F

/-! # A transaction of the vendor's flash model

The model is a set of tasks that wait for edges. This file says where each of them is after any
number of bits of a transaction, and from that what the model drives.

* **`Taken`** — what `SI_Reg` holds of the bits received.
* **`Stage`** — where the tasks are; `Stage.rise` and `Stage.fall` are its step lemmas.
* **`Idle`**, **`Busy`** — the model between and in transactions.
* **`answer`** — what the model drives, as a function of the bits received. -/

namespace LiteSpiH4x

open Digital FlashEmu

namespace MX25U25635F

/-! ## The receiving register -/

/-- The low places of `SI_Reg`, 24 at most, hold the latest bits. -/
def Taken (siReg : BitVec 32) (bits : List Bool) : Prop :=
  siReg.toNat ≡ msbVal bits [MOD 2 ^ min bits.length 24]

/-- One more bit. -/
theorem Taken.concat {siReg : BitVec 32} {bits : List Bool} (h : Taken siReg bits) (b : Bool) :
    Taken (((siReg.shiftConcat b).setWidth 24).setWidth 32) (bits ++ [b]) := by
  have hreg : (((siReg.shiftConcat b).setWidth 24).setWidth 32).toNat =
      (2 * siReg.toNat + b.toNat) % 2 ^ 24 := by
    simp only [BitVec.toNat_setWidth, BitVec.toNat_shiftConcat, Nat.shiftLeft_eq]
    omega
  have hdouble : 2 * siReg.toNat + b.toNat ≡ 2 * msbVal bits + b.toNat
      [MOD 2 ^ (min bits.length 24 + 1)] := by
    rw [pow_succ, mul_comm _ 2]
    exact (Nat.ModEq.mul_left' 2 h).add_right _
  rw [Taken, hreg, msbVal_concat, List.length_append, List.length_singleton]
  refine Nat.ModEq.trans ?_ (hdouble.of_dvd (Nat.pow_dvd_pow 2 (by omega)))
  exact (Nat.mod_modEq _ _).of_dvd (Nat.pow_dvd_pow 2 (by omega))

/-- After eight bits it ends in the opcode. -/
theorem Taken.opcode {siReg : BitVec 32} {bits : List Bool} (h : Taken siReg bits)
    (hlen : bits.length = 8) : siReg.setWidth 8 = Front.opcode bits := by
  apply BitVec.eq_of_toNat_eq
  rw [Taken, hlen] at h
  rw [BitVec.toNat_setWidth, Front.opcode, List.take_of_length_le hlen.le, ofBits,
    BitVec.toNat_ofNat]
  exact h

/-- After the header of a read it ends in the address. -/
theorem Taken.address {siReg : BitVec 32} {bits : List Bool} (h : Taken siReg bits)
    (hlen : bits.length = 32) : siReg.setWidth 24 = Front.address bits := by
  apply BitVec.eq_of_toNat_eq
  rw [Taken, hlen] at h
  have hsplit : msbVal bits = msbVal (bits.take 8) * 2 ^ 24 + msbVal (bits.drop 8) := by
    conv_lhs => rw [← List.take_append_drop 8 bits, msbVal_append, List.length_drop, hlen]
  have hval : siReg.toNat % 2 ^ 24 = msbVal bits % 2 ^ 24 := h
  rw [BitVec.toNat_setWidth, Front.address_eq_drop hlen.le, ofBits, BitVec.toNat_ofNat, hval,
    hsplit]
  omega

/-! ## Stages of a transaction -/

/-- No task has been triggered. -/
structure Untriggered (m : MX25U25635F) : Prop where
  rdidMode : m.rdidMode = false
  read1xioMode : m.read1xioMode = false
  readId : m.readId = none
  read1xio : m.read1xio = .off

/-- The address of the byte that a read sends after the falling edge behind rising edge `f`. -/
def byteAddress (bits : List Bool) (f : ℕ) : BitVec 25 :=
  (Front.address bits).setWidth 25 + BitVec.ofNat 25 ((f - 32) / 8)

/-- Where `read_1xio` is after `bits`, the last falling edge being behind rising edge `f`. -/
def readStage (bits : List Bool) (f : ℕ) : MxRead :=
  if f < 8 then .waitSclk
  else if bits.length < 32 then .dummyCycle (32 - bits.length)
  else .data (readArray (byteAddress bits f)) (if f < 32 then 8 else 7 - (f - 32) % 8)

/-- After `bits`: the command is coming in. -/
structure AwaitsCommand (m : MX25U25635F) (bits : List Bool) : Prop where
  short : bits.length < 8
  state : m.state = .standby
  tasks : Untriggered m
  siInEn : m.siInEn = true
  soOutEn : m.soOutEn = false

/-- After `bits`: the command has no meaning. -/
structure Ignores (m : MX25U25635F) (bits : List Bool) : Prop where
  long : 8 ≤ bits.length
  opcode : Front.opcode bits ≠ cmdRdid ∧ ¬ Front.IsRead true (Front.opcode bits)
  state : m.state = .badCmd ∨ m.state = .cmd ∧ m.cmdBus = nop
  tasks : Untriggered m
  soOutEn : m.soOutEn = false

/-- After `bits`, the last falling edge being behind rising edge `f`: an identification. -/
structure Identifies (m : MX25U25635F) (bits : List Bool) (f : ℕ) : Prop where
  long : 8 ≤ bits.length
  opcode : Front.opcode bits = cmdRdid
  state : m.state = .cmd
  cmdBus : m.cmdBus = MX25U25635F.rdid
  rdidMode : m.rdidMode = true
  read1xio : m.read1xio = .off
  readId : m.readId = some (if f < 8 then 24 else 23 - (f - 8) % 24)
  soOutEn : m.soOutEn = decide (8 ≤ f)
  sio1Reg : 8 ≤ f → m.sio1Reg = some (dummyId.getMsbD ((f - 8) % 24))

/-- After `bits`, the last falling edge being behind rising edge `f`: a read. -/
structure Reads (m : MX25U25635F) (bits : List Bool) (f : ℕ) : Prop where
  long : 8 ≤ bits.length
  opcode : Front.opcode bits = cmdRead
  state : m.state = .cmd
  cmdBus : m.cmdBus = read1x
  read1xioMode : m.read1xioMode = true
  readId : m.readId = none
  siInEn : f < 32 → m.siInEn = true
  read1xio : m.read1xio = readStage bits f
  address : 32 ≤ bits.length → m.address = byteAddress bits f
  soOutEn : m.soOutEn = decide (32 ≤ f)
  sio1Reg : 32 ≤ f →
    m.sio1Reg = (readArray (byteAddress bits f)).map (·.getMsbD ((f - 32) % 8))

/-- Where in a transaction the model is. -/
inductive Stage (m : MX25U25635F) (bits : List Bool) (f : ℕ) : Prop
  | header (h : AwaitsCommand m bits)
  | ignored (h : Ignores m bits)
  | rdid (h : Identifies m bits f)
  | read (h : Reads m bits f)

variable {m : MX25U25635F} {bits : List Bool} {f : ℕ}

/-- `Bit` at a rising edge is the number of edges before it. -/
theorem sample_bitTmp (m : MX25U25635F) : m.sample.bitTmp - 1 = m.bitTmp :=
  BitVec.add_sub_cancel _ _

/-- The edge that completes the command. -/
theorem posedgeSclk_seven (h : m.bitTmp = 7) :
    m.posedgeSclk = (decodeCmd
      { m.sample with state := .cmd, cmdBus := m.sample.siReg.setWidth 8 } 7).dummyEdge := by
  simp only [posedgeSclk, sample_bitTmp, h, if_true]

/-- Every other edge. -/
theorem posedgeSclk_of_ne (h : m.bitTmp ≠ 7) :
    m.posedgeSclk =
      (if m.state = .cmd then m.sample.decodeCmd m.bitTmp else m.sample).dummyEdge := by
  have hstate : m.sample.state = m.state := rfl
  simp only [posedgeSclk, sample_bitTmp, if_neg h, hstate]

/-- Outside `dummy_cycle` the task `read_1xio` does not look at rising edges. -/
theorem dummyEdge_of_ne (h : ∀ todo, m.read1xio ≠ .dummyCycle todo) : m.dummyEdge = m := by
  unfold dummyEdge
  split
  · exact absurd ‹_› (h _)
  · rfl

/-- The counter of rising edges, below its range, is equal to `v` when the number of edges is. -/
theorem bitTmp_eq_iff {n v : ℕ} (hbit : m.bitTmp = BitVec.ofNat 32 n) (hn : n < 2 ^ 32)
    (hv : v < 2 ^ 32) : m.bitTmp = BitVec.ofNat 32 v ↔ n = v := by
  rw [hbit, ← BitVec.toNat_inj, BitVec.toNat_ofNat, BitVec.toNat_ofNat, Nat.mod_eq_of_lt hn,
    Nat.mod_eq_of_lt hv]

/-! ## Rising edges -/

/-- A command whose last bit is still to come. -/
theorem AwaitsCommand.rise_bit (h : AwaitsCommand m bits)
    (hbit : m.bitTmp = BitVec.ofNat 32 bits.length) (hlen : bits.length < 7) :
    AwaitsCommand m.posedgeSclk (bits ++ [m.si]) := by
  have hne : m.bitTmp ≠ 7 := by
    intro h7
    have hseven := (@bitTmp_eq_iff m _ 7 hbit (by omega) (by omega)).mp h7
    omega
  rw [posedgeSclk_of_ne hne, h.state, if_neg (by decide),
    dummyEdge_of_ne (by simp [sample, h.tasks.read1xio])]
  refine ⟨?_, h.state, { h.tasks with }, h.siInEn, h.soOutEn⟩
  rw [List.length_append, List.length_singleton]
  omega

/-- The last bit of the command. -/
theorem AwaitsCommand.rise_last (h : AwaitsCommand m bits)
    (hbit : m.bitTmp = BitVec.ofNat 32 bits.length) (hlen : bits.length = 7)
    (htaken : Taken m.siReg bits) (hstd : m.posedgeSclk.state ≠ .otherCmd) :
    Stage m.posedgeSclk (bits ++ [m.si]) 7 := by
  obtain ⟨-, -, htasks, hin, hout⟩ := h
  have hlen8 : (bits ++ [m.si]).length = 8 := by
    rw [List.length_append, List.length_singleton, hlen]
  have hcmd : m.sample.siReg.setWidth 8 = Front.opcode (bits ++ [m.si]) := by
    rw [sample, hin, if_pos rfl]
    exact (htaken.concat m.si).opcode hlen8
  have hseven : m.bitTmp = 7 := by rw [hbit, hlen]; rfl
  rw [posedgeSclk_seven hseven, hcmd] at hstd ⊢
  generalize hc : Front.opcode (bits ++ [m.si]) = c at hstd ⊢
  have hge : 8 ≤ (bits ++ [m.si]).length := hlen8.ge
  -- the cases of the decoder
  by_cases hid : c = MX25U25635F.rdid
  · rw [decodeCmd, if_pos hid, dummyEdge_of_ne (by simp [sample, htasks.read1xio])]
    exact .rdid
      { long := hge, opcode := hc.trans hid, state := rfl, cmdBus := hid, rdidMode := rfl
        read1xio := htasks.read1xio
        readId := by simp [sample, htasks.rdidMode]
        soOutEn := hout
        sio1Reg := by omega }
  rw [decodeCmd, if_neg hid] at hstd ⊢
  by_cases hread : c = read1x
  · rw [if_pos hread, dummyEdge_of_ne (by simp [sample, htasks.read1xioMode])]
    exact .read
      { long := hge, opcode := hc.trans hread, state := rfl, cmdBus := hread
        read1xioMode := rfl, readId := htasks.readId
        siInEn := fun _ => hin
        read1xio := by simp [sample, htasks.read1xioMode, readStage]
        address := by omega
        soOutEn := hout
        sio1Reg := by omega }
  rw [if_neg hread] at hstd ⊢
  by_cases hnop : c = nop
  · rw [if_pos hnop, dummyEdge_of_ne (by simp [sample, htasks.read1xio])]
    refine .ignored ⟨hge, ?_, .inr ⟨rfl, hnop⟩, { htasks with }, hout⟩
    rw [hc, hnop]
    decide
  rw [if_neg hnop] at hstd ⊢
  by_cases hother : c ∈ otherCmds
  · refine absurd ?_ hstd
    rw [if_pos hother, dummyEdge_of_ne (by simp [sample, htasks.read1xio])]
  · rw [if_neg hother, dummyEdge_of_ne (by simp [sample, htasks.read1xio])]
    refine .ignored ⟨hge, ⟨hc ▸ hid, ?_⟩, .inl rfl, { htasks with }, hout⟩
    rw [hc]
    -- the quad read is among the commands that are not embedded
    rintro (h | ⟨-, h⟩)
    · exact hread h
    · exact hother (h ▸ by decide)

/-- Edges behind a command without a meaning. -/
theorem Ignores.rise (h : Ignores m bits) (hne : m.bitTmp ≠ 7) :
    Ignores m.posedgeSclk (bits ++ [m.si]) := by
  have hdecode : (if m.state = .cmd then m.sample.decodeCmd m.bitTmp else m.sample) = m.sample := by
    rcases h.state with hbad | ⟨hcmd, hbus⟩
    · rw [hbad, if_neg (by decide)]
    · have hbus' : m.sample.cmdBus = nop := hbus
      rw [if_pos hcmd, decodeCmd, hbus', if_neg (by decide), if_neg (by decide), if_pos rfl]
  rw [posedgeSclk_of_ne hne, hdecode, dummyEdge_of_ne (by simp [sample, h.tasks.read1xio])]
  refine ⟨?_, ?_, h.state, { h.tasks with }, h.soOutEn⟩
  · rw [List.length_append]
    exact Nat.le_add_right_of_le h.long
  · rw [Front.opcode_append h.long]
    exact h.opcode

/-- Edges of an identification. -/
theorem Identifies.rise (h : Identifies m bits f) (hne : m.bitTmp ≠ 7) :
    Identifies m.posedgeSclk (bits ++ [m.si]) f := by
  have hbus : m.sample.cmdBus = MX25U25635F.rdid := h.cmdBus
  have hmode : m.sample.rdidMode = true := h.rdidMode
  rw [posedgeSclk_of_ne hne, if_pos h.state, decodeCmd, if_pos hbus, hmode, if_pos rfl,
    dummyEdge_of_ne (by simp [sample, h.read1xio])]
  refine { h with long := ?_, opcode := ?_, rdidMode := rfl }
  · rw [List.length_append]
    exact Nat.le_add_right_of_le h.long
  · rw [Front.opcode_append h.long]
    exact h.opcode

/-- Edges of a read: the 24th behind the command ends the address and loads the first byte. -/
theorem Reads.rise (h : Reads m bits bits.length)
    (hbit : m.bitTmp = BitVec.ofNat 32 bits.length) (hne : m.bitTmp ≠ 7)
    (hlt : bits.length < 2 ^ 32) (htaken : m.siInEn = true → Taken m.siReg bits) :
    Reads m.posedgeSclk (bits ++ [m.si]) bits.length := by
  have hlong := h.long
  have hlast : m.bitTmp = 31 ↔ bits.length = 31 := @bitTmp_eq_iff m _ 31 hbit hlt (by omega)
  have hlen : (bits ++ [m.si]).length = bits.length + 1 := by
    rw [List.length_append, List.length_singleton]
  have hbus : m.sample.cmdBus = read1x := h.cmdBus
  have hmode : m.sample.read1xioMode = true := h.read1xioMode
  have hop : Front.opcode (bits ++ [m.si]) = cmdRead :=
    (Front.opcode_append h.long _).trans h.opcode
  rw [posedgeSclk_of_ne hne, if_pos h.state, decodeCmd, if_neg (hbus ▸ by decide), if_pos hbus,
    hmode, if_pos rfl]
  rcases lt_or_ge bits.length 32 with hshort | hdata
  · -- the address is coming in, until the task loads its buffer
    have hin := h.siInEn hshort
    have hcycle : m.sample.read1xio = .dummyCycle (31 - bits.length + 1) := by
      rw [show m.sample.read1xio = m.read1xio from rfl, h.read1xio, readStage,
        if_neg (by omega), if_pos hshort]
      exact congrArg MxRead.dummyCycle (by omega)
    simp only [dummyEdge, hcycle]
    by_cases h31 : bits.length = 31
    · have haddress : (m.sample.siReg.setWidth 24).setWidth 25 =
          byteAddress (bits ++ [m.si]) bits.length := by
        rw [sample, hin, if_pos rfl, ((htaken hin).concat m.si).address (by omega), byteAddress,
          h31]
        exact (BitVec.add_zero _).symm
      rw [if_pos (hlast.mpr h31), if_pos (by omega)]
      refine { h with
        long := by omega, opcode := hop, read1xioMode := rfl, read1xio := ?_
        address := fun _ => haddress, sio1Reg := by omega }
      rw [haddress, readStage, if_neg (by omega), if_neg (by omega), if_pos (by omega)]
    · rw [if_neg (hlast.not.mpr h31), if_neg (by omega)]
      refine { h with
        long := by omega, opcode := hop, read1xioMode := rfl, read1xio := ?_
        address := by omega, sio1Reg := by omega }
      rw [readStage, if_neg (by omega), if_pos (by omega), hlen]
      exact congrArg MxRead.dummyCycle (by omega)
  · -- the bytes are going out
    have haddress : byteAddress (bits ++ [m.si]) bits.length = byteAddress bits bits.length := by
      rw [byteAddress, byteAddress, Front.address_append hdata]
    have hcycle : m.read1xio = .data (readArray (byteAddress bits bits.length))
        (7 - (bits.length - 32) % 8) := by
      rw [h.read1xio, readStage, if_neg (by omega), if_neg (by omega), if_neg (by omega)]
    rw [if_neg (hlast.not.mpr (by omega)), dummyEdge_of_ne (by simp [sample, hcycle])]
    refine { h with
      long := by omega, opcode := hop, read1xioMode := rfl, read1xio := ?_
      address := fun _ => haddress ▸ h.address hdata
      sio1Reg := fun _ => haddress ▸ h.sio1Reg hdata }
    rw [readStage, if_neg (by omega), if_neg (by omega), if_neg (by omega), haddress]
    exact hcycle

/-- **A rising edge** keeps track. -/
theorem Stage.rise (h : Stage m bits bits.length)
    (hbit : m.bitTmp = BitVec.ofNat 32 bits.length) (hlt : bits.length < 2 ^ 32)
    (htaken : m.siInEn = true → Taken m.siReg bits) (hstd : m.posedgeSclk.state ≠ .otherCmd) :
    Stage m.posedgeSclk (bits ++ [m.si]) bits.length := by
  have hne : 8 ≤ bits.length → m.bitTmp ≠ 7 := by
    intro h8 h7
    have hlen := (@bitTmp_eq_iff m _ 7 hbit hlt (by omega)).mp h7
    omega
  cases h with
  | header h =>
    rcases Nat.lt_succ_iff_lt_or_eq.mp h.short with hlt7 | h7
    · exact .header (h.rise_bit hbit hlt7)
    · exact h7 ▸ h.rise_last hbit h7 (htaken h.siInEn) hstd
  | ignored h => exact .ignored (h.rise (hne h.long))
  | rdid h => exact .rdid (h.rise (hne h.long))
  | read h => exact .read (h.rise hbit (hne h.long) hlt htaken)

/-! ## Falling edges -/

/-- Without a task a falling edge moves the clock only. -/
theorem negedgeSclk_of_idle (hid : m.readId = none) (hread : m.read1xio = .off) :
    m.negedgeSclk = { m with sclk := false } := by
  simp only [negedgeSclk, readIdEdge, hid, read1xioEdge, hread]

/-- Falling edges while the command comes in. -/
theorem AwaitsCommand.fall (h : AwaitsCommand m bits) : AwaitsCommand m.negedgeSclk bits := by
  rw [negedgeSclk_of_idle h.tasks.readId h.tasks.read1xio]
  exact { h with tasks := { h.tasks with } }

/-- Falling edges behind a command without a meaning. -/
theorem Ignores.fall (h : Ignores m bits) : Ignores m.negedgeSclk bits := by
  rw [negedgeSclk_of_idle h.tasks.readId h.tasks.read1xio]
  exact { h with tasks := { h.tasks with } }

/-- The task `read_id` goes round the 24 bits. -/
theorem readIdEdge_eq {n : ℕ} (h : m.readId = some n) :
    let j := if n = 0 then 23 else n - 1
    m.readIdEdge = { m.drive (some (dummyId.getLsbD j)) with readId := some j } := by
  cases n <;> simp [readIdEdge, h]

/-- A falling edge of an identification shows the next bit. -/
theorem Identifies.fall (h : Identifies m bits f) (hlen : f + 1 = bits.length) :
    Identifies m.negedgeSclk bits bits.length := by
  have hlong := h.long
  have hnext : (if (if f < 8 then 24 else 23 - (f - 8) % 24) = 0 then 23
      else (if f < 8 then 24 else 23 - (f - 8) % 24) - 1) = 23 - (bits.length - 8) % 24 := by
    split <;> split <;> omega
  have hedge := @readIdEdge_eq { m with sclk := false } _ h.readId
  simp only [hnext] at hedge
  have hread : ({ m with sclk := false } : MX25U25635F).readIdEdge.read1xio = .off := by
    rw [hedge]
    exact h.read1xio
  rw [negedgeSclk, read1xioEdge, hread, hedge]
  refine { h with readId := ?_, soOutEn := ?_, sio1Reg := fun _ => ?_ }
  · rw [if_neg (by omega)]
  · exact (decide_eq_true h.long).symm
  · have hbit : dummyId.getMsbD ((bits.length - 8) % 24) =
        dummyId.getLsbD (23 - (bits.length - 8) % 24) := by
      rw [BitVec.getMsbD_eq_getLsbD, decide_eq_true (Nat.mod_lt _ (by omega)), Bool.true_and]
    rw [hbit]
    rfl

/-- A falling edge of a read that is still to send its first bit. -/
theorem Reads.fall_header (h : Reads m bits f) (hlen : f + 1 = bits.length)
    (hshort : bits.length < 32) : Reads m.negedgeSclk bits bits.length := by
  have hlong := h.long
  have hedge : m.negedgeSclk =
      { m with sclk := false, read1xio := .dummyCycle (32 - bits.length) } := by
    rcases lt_or_ge f 8 with hfirst | hlater
    · -- the first falling edge behind the command starts `dummy_cycle`
      have hread : m.read1xio = .waitSclk := by rw [h.read1xio, readStage, if_pos hfirst]
      have h8 : bits.length = 8 := by omega
      simp only [negedgeSclk, readIdEdge, h.readId, read1xioEdge, hread, h8]
    · have hread : m.read1xio = .dummyCycle (32 - bits.length) := by
        rw [h.read1xio, readStage, if_neg (by omega), if_pos hshort]
      simp only [negedgeSclk, readIdEdge, h.readId, read1xioEdge, hread]
  rw [hedge]
  refine { h with
    siInEn := fun _ => h.siInEn (by omega), read1xio := ?_, address := by omega, soOutEn := ?_
    sio1Reg := by omega }
  · rw [readStage, if_neg (by omega), if_pos hshort]
  · rw [h.soOutEn, decide_eq_false (by omega), decide_eq_false (by omega)]

/-- The task `read_1xio` in the middle of a byte. -/
theorem read1xioEdge_same {buf : Option (BitVec 8)} {n : ℕ}
    (h : m.read1xio = .data buf (n + 1)) :
    m.read1xioEdge =
      { m.drive (buf.map (·.getLsbD n)) with read1xio := .data buf n } := by
  rw [read1xioEdge, h]

/-- The task `read_1xio` at the end of a byte. -/
theorem read1xioEdge_next {buf : Option (BitVec 8)} (h : m.read1xio = .data buf 0) :
    m.read1xioEdge =
      { m.drive ((readArray (m.address + 1)).map (·.getLsbD 7)) with
        address := m.address + 1
        read1xio := .data (readArray (m.address + 1)) 7 } := by
  rw [read1xioEdge, h]

/-- A falling edge of a read shows the next bit, of the next byte after eight. -/
theorem Reads.fall_data (h : Reads m bits f) (hlen : f + 1 = bits.length)
    (hdata : 32 ≤ bits.length) : Reads m.negedgeSclk bits bits.length := by
  have haddr := h.address hdata
  have hread : m.read1xio =
      .data (readArray (byteAddress bits f)) (if f < 32 then 8 else 7 - (f - 32) % 8) := by
    rw [h.read1xio, readStage, if_neg (by omega), if_neg (by omega)]
  have hstage : readStage bits bits.length =
      .data (readArray (byteAddress bits bits.length)) (7 - (bits.length - 32) % 8) := by
    rw [readStage, if_neg (by omega), if_neg (by omega), if_neg (by omega)]
  have hbit : ∀ b : BitVec 8, b.getMsbD ((bits.length - 32) % 8) =
      b.getLsbD (7 - (bits.length - 32) % 8) := by
    intro b
    rw [BitVec.getMsbD_eq_getLsbD, decide_eq_true (Nat.mod_lt _ (by omega)), Bool.true_and]
  have hedge : m.negedgeSclk = ({ m with sclk := false } : MX25U25635F).read1xioEdge := by
    simp only [negedgeSclk, readIdEdge, h.readId]
  by_cases hlast : 32 ≤ f ∧ (f - 32) % 8 = 7
  · -- the byte has gone out
    have hnext : m.address + 1 = byteAddress bits bits.length := by
      rw [haddr, byteAddress, byteAddress, ← hlen,
        show (f + 1 - 32) / 8 = (f - 32) / 8 + 1 by omega, BitVec.ofNat_add, ← BitVec.add_assoc]
      rfl
    have hzero : (bits.length - 32) % 8 = 0 := by omega
    rw [if_neg (by omega), hlast.2, Nat.sub_self] at hread
    rw [hedge, @read1xioEdge_next { m with sclk := false } _ hread]
    refine { h with
      siInEn := by omega, read1xio := ?_, address := fun _ => hnext
      soOutEn := (decide_eq_true hdata).symm, sio1Reg := fun _ => ?_ }
    · rw [hstage, hzero, ← hnext]
    · simp only [hzero, ← hnext]
      rfl
  · have hsame : byteAddress bits f = byteAddress bits bits.length := by
      rw [byteAddress, byteAddress, show (f - 32) / 8 = (bits.length - 32) / 8 by omega]
    have hcount : (if f < 32 then 8 else 7 - (f - 32) % 8) = 7 - (bits.length - 32) % 8 + 1 := by
      split <;> omega
    rw [hcount, hsame] at hread
    rw [hedge, @read1xioEdge_same { m with sclk := false } _ _ hread]
    refine { h with
      siInEn := by omega, read1xio := hstage.symm, address := fun _ => haddr.trans hsame
      soOutEn := (decide_eq_true hdata).symm, sio1Reg := fun _ => ?_ }
    simp only [hbit]
    rfl

/-- **A falling edge** keeps track. -/
theorem Stage.fall (h : Stage m bits f) (hlen : f + 1 = bits.length ∨ bits.length ≤ 1) :
    Stage m.negedgeSclk bits bits.length := by
  cases h with
  | header h => exact .header h.fall
  | ignored h => exact .ignored h.fall
  | rdid h =>
    have hlong := h.long
    exact .rdid (h.fall (by omega))
  | read h =>
    have hlong := h.long
    rcases lt_or_ge bits.length 32 with hshort | hdata
    · exact .read (h.fall_header (by omega) hshort)
    · exact .read (h.fall_data (by omega) hdata)

/-! ## What edges leave alone -/

/-- The parts of a clock edge leave the pins, the counter and the receiving register alone, and
the output buffer follows. -/
structure Keeps (m m' : MX25U25635F) : Prop where
  cs : m'.cs = m.cs
  sclk : m'.sclk = m.sclk
  si : m'.si = m.si
  bitTmp : m'.bitTmp = m.bitTmp
  siReg : m'.siReg = m.siReg
  siInEn : m'.siInEn = true → m.siInEn = true
  out : m.sio1OutReg = m.sio1Reg → m'.sio1OutReg = m'.sio1Reg

/-- Nothing done. -/
theorem Keeps.refl (m : MX25U25635F) : Keeps m m := ⟨rfl, rfl, rfl, rfl, rfl, id, id⟩

/-- One part after another. -/
theorem Keeps.trans {m m' m'' : MX25U25635F} (h : Keeps m m') (h' : Keeps m' m'') :
    Keeps m m'' where
  cs := h'.cs.trans h.cs
  sclk := h'.sclk.trans h.sclk
  si := h'.si.trans h.si
  bitTmp := h'.bitTmp.trans h.bitTmp
  siReg := h'.siReg.trans h.siReg
  siInEn := fun hin => h.siInEn (h'.siInEn hin)
  out := fun hout => h'.out (h.out hout)

/-- The decoder. -/
theorem keeps_decodeCmd (m : MX25U25635F) (bit : BitVec 32) : Keeps m (m.decodeCmd bit) := by
  unfold decodeCmd
  split_ifs <;> exact ⟨rfl, rfl, rfl, rfl, rfl, id, id⟩

/-- The wait for the address. -/
theorem keeps_dummyEdge (m : MX25U25635F) : Keeps m m.dummyEdge := by
  unfold dummyEdge
  split <;> exact ⟨rfl, rfl, rfl, rfl, rfl, id, id⟩

/-- A rising edge, behind the bit that it takes in. -/
theorem keeps_posedgeSclk (m : MX25U25635F) : Keeps m.sample m.posedgeSclk := by
  unfold posedgeSclk
  refine Keeps.trans ?_ (keeps_dummyEdge _)
  split_ifs
  · refine Keeps.trans ?_ (keeps_decodeCmd _ _)
    exact ⟨rfl, rfl, rfl, rfl, rfl, id, id⟩
  · exact ⟨rfl, rfl, rfl, rfl, rfl, id, id⟩
  · exact keeps_decodeCmd _ _
  · exact Keeps.refl _

/-- A bit driven out. -/
theorem keeps_drive (m : MX25U25635F) (v : Option Bool) : Keeps m (m.drive v) := by
  refine ⟨rfl, rfl, rfl, rfl, rfl, fun h => (Bool.false_ne_true h).elim, fun hout => ?_⟩
  by_cases hv : v = m.sio1Reg
  · rw [drive, if_pos hv, hv]
    exact hout
  · rw [drive, if_neg hv]

/-- A falling edge, behind the move of the clock. -/
theorem keeps_negedgeSclk (m : MX25U25635F) : Keeps { m with sclk := false } m.negedgeSclk := by
  have hid : Keeps { m with sclk := false }
      ({ m with sclk := false } : MX25U25635F).readIdEdge := by
    unfold readIdEdge
    split
    · exact Keeps.refl _
    · exact (keeps_drive _ _).trans ⟨rfl, rfl, rfl, rfl, rfl, id, id⟩
    · exact (keeps_drive _ _).trans ⟨rfl, rfl, rfl, rfl, rfl, id, id⟩
  refine hid.trans ?_
  unfold negedgeSclk read1xioEdge
  split
  · exact Keeps.refl _
  · exact ⟨rfl, rfl, rfl, rfl, rfl, id, id⟩
  · exact Keeps.refl _
  · exact (keeps_drive _ _).trans ⟨rfl, rfl, rfl, rfl, rfl, id, id⟩
  · exact (keeps_drive _ _).trans ⟨rfl, rfl, rfl, rfl, rfl, id, id⟩

/-! ## One transaction -/

/-- Between transactions. -/
structure Idle (m : MX25U25635F) : Prop where
  state : m.state = .standby
  bitTmp : m.bitTmp = 0
  tasks : Untriggered m
  soOutEn : m.soOutEn = false

/-- In a transaction, after `bits`, the last falling edge being behind rising edge `f`. -/
structure Busy (m : MX25U25635F) (bits : List Bool) (f : ℕ) : Prop where
  bitTmp : m.bitTmp = BitVec.ofNat 32 bits.length
  fits : bits.length < 2 ^ 32
  taken : m.siInEn = true → Taken m.siReg bits
  stage : Stage m bits f

/-- The chip is selected. -/
theorem Idle.negedgeCs (h : Idle m) : Busy m.negedgeCs [] 0 where
  bitTmp := h.bitTmp
  fits := by decide
  taken := fun _ => by
    rw [Taken, List.length_nil, Nat.zero_min, pow_zero]
    exact Nat.modEq_one
  stage := .header ⟨by decide, h.state, { h.tasks with }, rfl, h.soOutEn⟩

/-- The chip is deselected. -/
theorem idle_posedgeCs (m : MX25U25635F) : Idle m.posedgeCs :=
  ⟨rfl, rfl, ⟨rfl, rfl, rfl, rfl⟩, rfl⟩

/-- The line in moves. -/
theorem Busy.lines (h : Busy m bits f) (si : Bool) : Busy { m with si := si } bits f where
  bitTmp := h.bitTmp
  fits := h.fits
  taken := h.taken
  stage := by
    cases h.stage with
    | header h => exact .header { h with tasks := { h.tasks with } }
    | ignored h => exact .ignored { h with tasks := { h.tasks with } }
    | rdid h => exact .rdid { h with }
    | read h => exact .read { h with }

/-- A rising edge takes in a bit. -/
theorem Busy.posedgeSclk (h : Busy m bits bits.length) (hcount : m.bitTmp ≠ BitVec.allOnes 32)
    (hstd : m.posedgeSclk.state ≠ .otherCmd) :
    Busy m.posedgeSclk (bits ++ [m.si]) bits.length where
  bitTmp := by
    rw [(keeps_posedgeSclk m).bitTmp, List.length_append, List.length_singleton,
      BitVec.ofNat_add, ← h.bitTmp]
    rfl
  fits := by
    have hmax : bits.length ≠ 2 ^ 32 - 1 := by
      intro hlen
      exact hcount (by rw [h.bitTmp, hlen]; rfl)
    have hfits := h.fits
    rw [List.length_append, List.length_singleton]
    omega
  taken := by
    intro hin
    have hin' : m.siInEn = true := (keeps_posedgeSclk m).siInEn hin
    rw [(keeps_posedgeSclk m).siReg, sample, hin', if_pos rfl]
    exact (h.taken hin').concat m.si
  stage := h.stage.rise h.bitTmp h.fits h.taken hstd

/-- A falling edge. -/
theorem Busy.negedgeSclk (h : Busy m bits f) (hlen : f + 1 = bits.length ∨ bits.length ≤ 1) :
    Busy m.negedgeSclk bits bits.length where
  bitTmp := (keeps_negedgeSclk m).bitTmp.trans h.bitTmp
  fits := h.fits
  taken := by
    intro hin
    rw [(keeps_negedgeSclk m).siReg]
    exact h.taken ((keeps_negedgeSclk m).siInEn hin)
  stage := h.stage.fall hlen

/-! ## What the model drives -/

/-- What the model drives after `bits` of a transaction. -/
def answer (bits : List Bool) : Option (Option Bool) :=
  if bits.length < 8 then none
  else if Front.opcode bits = cmdRdid then
    some (some (dummyId.getMsbD ((bits.length - 8) % 24)))
  else if Front.opcode bits = cmdRead ∧ 32 ≤ bits.length then
    some ((readArray (byteAddress bits bits.length)).map (·.getMsbD ((bits.length - 32) % 8)))
  else none

/-- No answer before the command is complete. -/
theorem answer_header (h : bits.length < 8) : answer bits = none := if_pos h

/-- The answer to an identification. -/
theorem answer_rdid (h : 8 ≤ bits.length) (hop : Front.opcode bits = cmdRdid) :
    answer bits = some (some (dummyId.getMsbD ((bits.length - 8) % 24))) := by
  rw [answer, if_neg (not_lt.mpr h), if_pos hop]

/-- The answer to a read. -/
theorem answer_read (h : 32 ≤ bits.length) (hop : Front.opcode bits = cmdRead) :
    answer bits =
      some ((readArray (byteAddress bits bits.length)).map
        (·.getMsbD ((bits.length - 32) % 8))) := by
  rw [answer, if_neg (by omega), if_neg (by rw [hop]; decide), if_pos ⟨hop, h⟩]

/-- No answer to anything else. -/
theorem answer_none (hid : Front.opcode bits ≠ cmdRdid)
    (hread : ¬ (Front.opcode bits = cmdRead ∧ 32 ≤ bits.length)) : answer bits = none := by
  rw [answer, if_neg hid, if_neg hread, ite_self]

/-- The pin shows the answer to the bits before the last falling edge. -/
theorem Stage.so_eq (h : Stage m bits f) (hout : m.sio1OutReg = m.sio1Reg)
    (hf : f ≤ bits.length) : m.so = answer (bits.take f) := by
  have hlen : (bits.take f).length = f := by rw [List.length_take, Nat.min_eq_left hf]
  have hfloat : m.soOutEn = false → m.so = none := by
    intro hen
    rw [so, hen, if_neg (by decide)]
  cases h with
  | header h =>
    have hshort := h.short
    rw [hfloat h.soOutEn, answer_header (by omega)]
  | ignored h =>
    rw [hfloat h.soOutEn]
    rcases lt_or_ge f 8 with hlt | hge
    · rw [answer_header (by omega)]
    · have hop : Front.opcode (bits.take f) = Front.opcode bits := Front.opcode_take hge
      rw [answer_none (hop ▸ h.opcode.1)]
      rintro ⟨hread, -⟩
      exact h.opcode.2 (.inl (hop.symm.trans hread))
  | rdid h =>
    rcases lt_or_ge f 8 with hlt | hge
    · rw [hfloat (h.soOutEn.trans (decide_eq_false (by omega))), answer_header (by omega)]
    · have hop := (Front.opcode_take hge).trans h.opcode
      rw [so, h.soOutEn, decide_eq_true hge, if_pos rfl, hout, h.sio1Reg hge,
        answer_rdid (by omega) hop, hlen]
  | read h =>
    rcases lt_or_ge f 8 with hlt | hge
    · rw [hfloat (h.soOutEn.trans (decide_eq_false (by omega))), answer_header (by omega)]
    have hop := (Front.opcode_take hge).trans h.opcode
    rcases lt_or_ge f 32 with hlt | hdata
    · rw [hfloat (h.soOutEn.trans (decide_eq_false (by omega))), answer_none (by rw [hop]; decide)]
      omega
    · rw [so, h.soOutEn, decide_eq_true hdata, if_pos rfl, hout, h.sio1Reg hdata,
        answer_read (by omega) hop, hlen, byteAddress, byteAddress, Front.address_take hdata]

end MX25U25635F

end LiteSpiH4x
