import LiteSpiH4x.Emu.FlashEmu

/-! # When FlashEmu drives its output line

`eso_ts.oe` is a copy, registered on falling edges, of an enable decoded on rising edges, gated
by the inverse domain's reset. `esoTsOe_iff` says when it is high in terms of the pins alone:
the header is over and a falling edge has followed. -/

namespace LiteSpiH4x

open Digital StepMachine

namespace FlashEmu

/-- The enable decoded at a falling edge, read off the whole log. -/
theorem oeAfter_take {bits : List Bool} {f : ℕ} (hf : f ≤ bits.length) :
    oeAfter (bits.take f) = true ↔
      (Front.opcode bits = cmdRdid ∧ 8 ≤ f) ∨
        ((Front.opcode bits = cmdRead ∨ Front.opcode bits = cmdQread) ∧ 32 ≤ f) := by
  rw [oeAfter, Bool.or_eq_true, decide_eq_true_eq, decide_eq_true_eq, List.length_take,
    Nat.min_eq_left hf]
  rcases lt_or_ge f 8 with hlt | h8
  · constructor
    · rintro (⟨h, -⟩ | ⟨h, -⟩) <;> omega
    · rintro (⟨-, h⟩ | ⟨-, h⟩) <;> omega
  · rw [Front.opcode_take h8, Front.IsRead, and_comm (a := 8 ≤ f), and_comm (a := 32 ≤ f)]
    simp only [true_and]

/-- **FlashEmu drives its line exactly when it should.** In every reachable state the output
enable is high iff `csn` is low, `rstn` is high and, since the reset was released, a falling edge
of `sclk` has followed rising edge number `m`, where `m = 8` for the identification opcode and
`m = 32` for the two read opcodes. -/
theorem esoTsOe_iff (idcode : BitVec 24) (rstn sclk si : Bool) (es : List Event) :
    let s := run (step idcode) (boot idcode rstn sclk si) es
    let w := busLog idcode (boot idcode rstn sclk si) es
    s.esoTsOe = true ↔ s.csn = false ∧ s.rstn = true ∧
      ∃ m, w.FallAfter m ∧
        ((Front.opcode w.bits = 0x9f#8 ∧ m = 8) ∨
          ((Front.opcode w.bits = 0x03#8 ∨ Front.opcode w.bits = 0x6b#8) ∧ m = 32)) := by
  intro s w
  have hinv : Inv idcode s w := Inv.run rstn sclk si es
  rw [State.esoTsOe, Bool.and_eq_true, Bool.not_eq_true', hinv.tracks.rstInv]
  constructor
  · rintro ⟨hoe, hfallen⟩
    obtain ⟨f, hf⟩ : ∃ f, w.fallen = some f :=
      Option.isSome_iff_exists.mp (by rw [← Option.not_isNone, hfallen]; rfl)
    have hlive : resetInput s.csn s.rstn = false := by
      cases hin : resetInput s.csn s.rstn with
      | false => rfl
      | true => rw [hinv.tracks.held hin] at hf; cases hf
    rw [resetInput, Bool.or_eq_false_iff, Bool.not_eq_false'] at hlive
    have hle : f ≤ w.bits.length := by
      rw [BusLog.length_bits]
      exact hinv.tracks.fallen_le hf
    rw [hinv.oe f hf, oeAfter_take hle] at hoe
    refine ⟨hlive.2, hlive.1, ?_⟩
    rcases hoe with ⟨hop, hm⟩ | ⟨hop, hm⟩
    · exact ⟨8, ⟨f, hf, hm⟩, Or.inl ⟨hop, rfl⟩⟩
    · exact ⟨32, ⟨f, hf, hm⟩, Or.inr ⟨hop, rfl⟩⟩
  · rintro ⟨-, -, m, ⟨f, hf, hmf⟩, hm⟩
    have hle : f ≤ w.bits.length := by
      rw [BusLog.length_bits]
      exact hinv.tracks.fallen_le hf
    refine ⟨?_, by rw [hf]; rfl⟩
    rw [hinv.oe f hf, oeAfter_take hle]
    rcases hm with ⟨hop, rfl⟩ | ⟨hop, rfl⟩
    · exact Or.inl ⟨hop, hmf⟩
    · exact Or.inr ⟨hop, hmf⟩

end FlashEmu

end LiteSpiH4x
