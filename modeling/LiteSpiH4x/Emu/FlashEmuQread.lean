import LiteSpiH4x.Emu.FlashEmuRead

/-! # Quad reads of FlashEmu

A quad read shares the datapath of a plain one. In it the bit counter steps by four and the
address advances every second clock, but the shift register still moves by one place, so of each
byte the high nibble stands at the top of `dr_tmp` in time and the low one does not.

* **`QDelivers`** — the byte in delivery, `dr_tmp`, is the addressed byte, shifted by one place at
  every second clock.
* **`qread_iff`** — the top nibble is the one due at every even data clock, and at an odd one
  exactly if the byte's bits 6 to 3 are its low nibble. -/

namespace LiteSpiH4x

open Digital StepMachine

namespace FlashEmu

/-- The byte in delivery after `bits` of a quad read: the addressed one, counting on from the
address received, one byte for two clocks. -/
def qbyteAt (M : BitVec 8 → BitVec 8) (bits : List Bool) : BitVec 8 :=
  M ((Front.address bits + BitVec.ofNat 24 ((bits.length - 32) / 2)).setWidth 8)

/-- While a quad read delivers data, `dr_tmp` is the byte in delivery, shifted by one place at its
second clock. -/
def QDelivers (M : BitVec 8 → BitVec 8) (bits : List Bool) (r : Regs) (memadr : BitVec 8) : Prop :=
  32 ≤ bits.length → Front.opcode bits = cmdQread →
    r.drTmp (M memadr) = qbyteAt M bits <<< ((bits.length - 32) % 2)

/-- The registers in a quad read that delivers data: two clocks a byte. -/
theorem front_qdata {r : Regs} {idcode : BitVec 24} {bits : List Bool} {k : ℕ}
    (h : r.front = Front.decode true idcode bits) (hop : Front.opcode bits = cmdQread)
    (hk : bits.length = 32 + k) :
    r.state = .readGetData ∧ (r.drBitCnt = 0 ↔ k % 2 = 0) ∧
      r.addr = Front.address bits + BitVec.ofNat 24 (k / 2) := by
  have hlen : bits.length - 32 = k := by omega
  have hdec := @Front.decode_data true idcode bits (by omega) (Or.inr ⟨rfl, hop⟩)
  rw [← h, hop, hlen] at hdec
  have hcnt : r.drBitCnt = BitVec.ofNat 3 (4 * k) := congrArg (fun f => f.drBitCnt) hdec
  have haddr : r.addr = Front.address bits + BitVec.ofNat 24 (4 * k / 8) :=
    congrArg (fun f => f.addr) hdec
  refine ⟨congrArg (fun f => f.state) hdec, ?_, ?_⟩
  · rw [hcnt, ← BitVec.toNat_inj, BitVec.toNat_ofNat]
    simp only [BitVec.reduceToNat]
    omega
  · rw [haddr, show 4 * k / 8 = k / 2 by omega]

/-- **The last address edge** puts the address on the memory port in time for the first nibble. -/
theorem qdelivers_first {M : BitVec 8 → BitVec 8} {r : Regs} {idcode : BitVec 24}
    {bits : List Bool} {esi : Bool} (d : BitVec 8)
    (h : r.front = Front.decode true idcode bits) (h31 : bits.length = 31) :
    QDelivers M (bits ++ [esi]) (r.next esi d) ((r.addrNext esi).setWidth 8) := by
  intro h32 hop
  have hlen : (bits ++ [esi]).length = 32 + 0 := by simp [h31]
  have hfront : (r.next esi d).front = Front.decode true idcode (bits ++ [esi]) := by
    rw [Regs.front_next, h, Front.decode_concat]
  obtain ⟨-, hcnt, haddr⟩ := front_qdata hfront hop hlen
  have hop' : Front.opcode bits = cmdQread := by
    rw [← hop, Front.opcode_append (by omega)]
  have hstate : r.state = .readGetAddr := by
    have hf := @Front.decode_addr true idcode bits (by omega) (by omega) (Or.inr ⟨rfl, hop'⟩)
    rw [← h] at hf
    exact congrArg (fun f => f.state) hf
  have hnext : r.addrNext esi = (r.next esi d).addr := by
    simp only [CmdRegs.addrNext, Regs.next, hstate]
  rw [Regs.drTmp, if_pos (hcnt.mpr rfl), hnext, haddr, qbyteAt, hlen, Nat.add_sub_cancel_left,
    Nat.zero_mod, BitVec.shiftLeft_zero]

/-- **A data edge** moves on by one place, and after two to the next byte, whose address has been
on the port during the last one. -/
theorem qdelivers_next {M : BitVec 8 → BitVec 8} {r : Regs} {memadr : BitVec 8}
    {idcode : BitVec 24} {bits : List Bool} {esi : Bool}
    (h : r.front = Front.decode true idcode bits) (h32 : 32 ≤ bits.length)
    (hd : QDelivers M bits r memadr) :
    QDelivers M (bits ++ [esi]) (r.next esi (M memadr)) ((r.addrNext esi).setWidth 8) := by
  intro _ hop
  have hop' : Front.opcode bits = cmdQread := by
    rw [← hop, Front.opcode_append (by omega)]
  have hfront : (r.next esi (M memadr)).front = Front.decode true idcode (bits ++ [esi]) := by
    rw [Regs.front_next, h, Front.decode_concat]
  obtain ⟨k, hk⟩ : ∃ k, bits.length = 32 + k := ⟨bits.length - 32, by omega⟩
  have hk' : (bits ++ [esi]).length = 32 + (k + 1) := by simp [hk, Nat.add_assoc]
  obtain ⟨hstate, hcnt, haddr⟩ := front_qdata h hop' hk
  obtain ⟨-, hcnt', -⟩ := front_qdata hfront hop hk'
  have haddress : Front.address (bits ++ [esi]) = Front.address bits := Front.address_append h32 _
  rw [Regs.drTmp, qbyteAt, haddress, hk', Nat.add_sub_cancel_left]
  rcases Nat.mod_two_eq_zero_or_one k with heven | hodd
  · -- the same byte, one place further where it should be four
    have hne : (r.next esi (M memadr)).drBitCnt ≠ 0 := by
      rw [Ne, hcnt']
      omega
    have hdr : (r.next esi (M memadr)).dr = (r.drTmp (M memadr)).shiftConcat false := by
      simp only [Regs.next, hstate]
    have hbyte := hd h32 hop'
    rw [qbyteAt, hk, Nat.add_sub_cancel_left, heven] at hbyte
    rw [if_neg hne, hdr, hbyte, show (k + 1) / 2 = k / 2 by omega,
      show (k + 1) % 2 = 0 + 1 by omega, shiftConcat_false_shiftLeft]
  · -- the next byte: the port has sampled its address at this edge
    have hnext : r.addrNext esi = Front.address bits + BitVec.ofNat 24 ((k + 1) / 2) := by
      rw [CmdRegs.addrNext, hstate, show (k + 1) / 2 = k / 2 + 1 by omega, BitVec.ofNat_add,
        ← BitVec.add_assoc, ← haddr]
      rfl
    rw [if_pos (hcnt'.mpr (by omega)), hnext, show (k + 1) % 2 = 0 by omega,
      BitVec.shiftLeft_zero]

/-- What holds along a run while the SPI side stays selected and the memory is `M`. -/
structure QreadInv (idcode : BitVec 24) (M : BitVec 8 → BitVec 8) (s : State) (w : BusLog) :
    Prop where
  base : ReadInv idcode M s w
  qdelivers : w.rises ≠ [] → QDelivers M w.bits s.regs s.flashMem.memadr

namespace QreadInv

variable {idcode : BitVec 24} {M : BitVec 8 → BitVec 8} {s : State} {w : BusLog}

/-- With the SPI side selected and `csn` high, nothing is owed yet. -/
theorem of_deselected (h : Inv idcode s w) (hcsn : s.csn = true) (hsel : s.flashMem.sel = false) :
    QreadInv idcode s.flashMem.mem s w := by
  have hlog : w = {} := h.tracks.held (by rw [resetInput, hcsn, Bool.or_true])
  subst hlog
  exact ⟨ReadInv.of_deselected h hcsn hsel, fun hne => absurd rfl hne⟩

/-- A change of the pins keeps the invariant. -/
theorem pins (h : QreadInv idcode M s w) (csn rstn sclk si : Bool) :
    QreadInv idcode M (s.pins idcode csn rstn sclk si)
      (w.next s.dom sclk (resetInput csn rstn) si s.esoDelayed) where
  base := h.base.pins csn rstn sclk si
  qdelivers := by
    refine register_port h.base.base h.base.sel h.qdelivers (fun h32 => absurd h32 (by simp)) ?_
      csn rstn sclk
    intro hne' hd
    have hfront := h.base.base.front hne'
    rw [FlashEmuMem.datR, h.base.mem]
    rcases lt_trichotomy w.bits.length 31 with hlt | heq | hgt
    · intro h32
      simp only [List.length_append, List.length_singleton] at h32
      omega
    · exact qdelivers_first _ hfront heq
    · exact qdelivers_next hfront (by omega) hd

/-- **Step lemma.** Every event but the selection of the loader keeps the invariant. -/
theorem step (h : QreadInv idcode M s w) (e : Event) (he : e ≠ .sel true) :
    QreadInv idcode M (FlashEmu.step idcode s e) (logEvent s e w) := by
  match e with
  | .pin (.lines csn rstn si) => exact h.pins csn rstn s.dom.clk si
  | .pin (.sclk level) => exact h.pins s.csn s.rstn level s.si
  | .sel true => exact absurd rfl he
  | .sel false => exact ⟨h.base.step _ he, h.qdelivers⟩
  | .sys p =>
    refine ⟨h.base.step _ he, ?_⟩
    have hmem : (FlashEmu.step idcode s (.sys p)).flashMem = s.flashMem :=
      FlashEmuMem.edge_sys_of_spi h.base.sel _ _
    rw [hmem]
    exact h.qdelivers

end QreadInv

/-- The nibble due at data clock `k` of a quad read at address `A`: the high one of a byte, then
its low one, then those of the next byte. -/
def dueNibble (M : BitVec 8 → BitVec 8) (A : BitVec 24) (k : ℕ) : BitVec 4 :=
  if k % 2 = 0 then (M (BitVec.ofNat 8 (A.toNat + k / 2))).extractLsb' 4 4
  else (M (BitVec.ofNat 8 (A.toNat + k / 2))).extractLsb' 0 4

/-- One place too far up, the top nibble is bits 6 to 3. -/
theorem extractLsb'_shiftLeft_one (x : BitVec 8) :
    (x <<< 1).extractLsb' 4 4 = x.extractLsb' 3 4 := by
  apply BitVec.eq_of_getLsbD_eq
  intro i hi
  simp only [BitVec.getLsbD_extractLsb', BitVec.getLsbD_shiftLeft, hi, decide_true, Bool.true_and,
    show 4 + i - 1 = 3 + i by omega, show 4 + i < 8 by omega, show ¬ 4 + i < 1 by omega,
    decide_false, Bool.not_false]

/-- **The nibbles of a quad read.** In a quad read that starts with `csn` high and the SPI side
selected, and that the loader does not interrupt, at every data clock `k` the top nibble of
`dr_tmp` is the one due exactly if `k` is even or bits 6 to 3 of the byte at address
`A + k div 2` modulo 256 are its low nibble. -/
theorem qread_iff (idcode : BitVec 24) (rstn sclk si : Bool) (hist txn : List Event)
    (hcsn : (run (step idcode) (boot idcode rstn sclk si) hist).csn = true)
    (hsel : (Loaded.after hist).sel = false) (htxn : ∀ e ∈ txn, e ≠ .sel true) :
    let s := run (step idcode) (boot idcode rstn sclk si) (hist ++ txn)
    let w := busLog idcode (boot idcode rstn sclk si) (hist ++ txn)
    let M := (Loaded.after hist).mem
    Front.opcode w.bits = 0x6b#8 → ∀ k, w.bits.length = 32 + k →
      s.regs.state = .readGetData ∧
        ((s.regs.drTmp s.flashMem.datR).extractLsb' 4 4 = dueNibble M (Front.address w.bits) k ↔
          k % 2 = 0 ∨
            (M (BitVec.ofNat 8 ((Front.address w.bits).toNat + k / 2))).extractLsb' 3 4 =
              (M (BitVec.ofNat 8 ((Front.address w.bits).toNat + k / 2))).extractLsb' 0 4) := by
  intro s w M hop k hk
  have hholds : Holds (run (step idcode) (boot idcode rstn sclk si) hist) (Loaded.after hist) :=
    Holds.run rstn sclk si hist
  have hstart := QreadInv.of_deselected (@Inv.run idcode rstn sclk si hist) hcsn
    (hholds.sel.trans hsel)
  rw [hholds.mem] at hstart
  have hread : QreadInv idcode M s w := by
    have hs : s = run (step idcode) (run (step idcode) (boot idcode rstn sclk si) hist) txn :=
      run_append _ _ _ _
    have hw : w = record (step idcode) logEvent (run (step idcode) (boot idcode rstn sclk si) hist)
        (busLog idcode (boot idcode rstn sclk si) hist) txn := record_append _ _ _ _ _ _
    rw [hs, hw]
    exact run_record_invariant_of_mem (fun _ _ e he h => h.step e he) hstart txn htxn
  have hne : w.rises ≠ [] := BusLog.rises_ne_nil_of_pos (by omega)
  have hbyte := hread.qdelivers hne (by omega) hop
  have hadr : (Front.address w.bits + BitVec.ofNat 24 (k / 2)).setWidth 8 =
      BitVec.ofNat 8 ((Front.address w.bits).toNat + k / 2) := by
    apply BitVec.eq_of_toNat_eq
    simp only [BitVec.toNat_setWidth, BitVec.toNat_add, BitVec.toNat_ofNat]
    omega
  rw [qbyteAt, hk, Nat.add_sub_cancel_left, hadr] at hbyte
  refine ⟨(front_qdata (hread.base.base.front hne) hop hk).1, ?_⟩
  rw [FlashEmuMem.datR, hread.base.mem, hbyte, dueNibble]
  rcases Nat.mod_two_eq_zero_or_one k with heven | hodd
  · rw [heven, BitVec.shiftLeft_zero]
    exact ⟨fun _ => Or.inl rfl, fun _ => rfl⟩
  · rw [hodd, extractLsb'_shiftLeft_one, if_neg one_ne_zero]
    exact ⟨fun h => Or.inr h, fun h => h.resolve_left one_ne_zero⟩

/-- Byte 1 is loaded with `0x49`, whose bits repeat every three; its low nibble comes right. -/
theorem qread_iff_repeating :
    let hist : List Event := [.sel true, .sys ⟨1, 0x49, true⟩, .sel false]
    let txn := clockIn ((List.range 33).map fun i => i ∈ [1, 2, 4, 6, 7, 31])
    let s := run (step 0) (boot 0 true false false) (hist ++ txn)
    (s.regs.drTmp s.flashMem.datR).extractLsb' 4 4 = dueNibble (Loaded.after hist).mem 1 1 := by
  intro hist txn s
  have haddr : Front.address (busLog 0 (boot 0 true false false) (hist ++ txn)).bits = 1 := by
    decide
  have hdue := (qread_iff 0 true false false hist txn rfl rfl (by decide) (by decide) 1
    (by decide)).2.mpr (Or.inr (by decide))
  rwa [haddr] at hdue

/-- A quad read of address 1 of the memory as it is at power-on, at its second data clock: the
byte is 1, the top nibble 0. -/
theorem qread_low_nibble :
    let txn := clockIn ((List.range 33).map fun i => i ∈ [1, 2, 4, 6, 7, 31])
    let s := run (step 0) (boot 0 true false false) txn
    let w := busLog 0 (boot 0 true false false) txn
    Front.opcode w.bits = 0x6b#8 ∧ w.bits.length = 32 + 1 ∧
      (s.regs.drTmp s.flashMem.datR).extractLsb' 4 4 ≠
        dueNibble (Loaded.after []).mem (Front.address w.bits) 1 := by
  decide +kernel

end FlashEmu

end LiteSpiH4x
