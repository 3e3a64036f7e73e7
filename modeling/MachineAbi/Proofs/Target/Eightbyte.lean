import MachineAbi.Proofs.Source.Regular

/-!
# Scalars on x86-64

Registers take eight bytes each. A scalar on x86-64 lies within eight bytes or starts at a multiple of eight
(`Layout.WithinEightbyte`), so only one that starts an eightbyte goes on in the next (`WithinEightbyte.dvd_of_lt`).
-/

namespace MachineAbi

/-- A value that, where it is aligned, lies within an eightbyte or starts one. -/
def Layout.WithinEightbyte (l : Layout) : Prop := l.size ≤ l.align ∨ 8 ∣ l.align

namespace Layout.WithinEightbyte

variable {l : Layout}

theorem of_le {bytes align : Nat} (ha : align.isPowerOfTwo) (h : bytes ≤ align) :
    (Layout.mk bytes align).pad.WithinEightbyte :=
  Or.inl (alignUp_le ha (Nat.dvd_refl _) h)

/-- A value that goes on in the next eightbyte starts one. -/
theorem dvd_of_lt (h : l.WithinEightbyte) (hl : l.Placeable) {offset p : Nat} (hd : l.align ∣ offset)
    (hp : p < offset + l.size) (hne : offset / 8 < p / 8) : 8 ∣ offset := by
  rcases h with hs | h8
  · rcases Nat.le_total 8 l.align with hle | hle
    · exact Nat.dvd_trans (dvd_of_isPowerOfTwo_of_le ⟨3, rfl⟩ hl.align hle) hd
    · -- otherwise both positions are in one multiple of the alignment, which divides eight
      obtain ⟨k, hk⟩ : l.align ∣ 8 := dvd_of_isPowerOfTwo_of_le hl.align ⟨3, rfl⟩ hle
      obtain ⟨q, rfl⟩ := hd
      have hq : p / l.align ≤ q := by
        refine Nat.le_of_lt_succ (Nat.div_lt_of_lt_mul ?_)
        rw [Nat.mul_succ]
        omega
      rw [hk, ← Nat.div_div_eq_div_mul, ← Nat.div_div_eq_div_mul, Nat.mul_div_cancel_left _ hl.align_pos] at hne
      exact absurd hne (Nat.not_lt.2 (Nat.div_le_div_right hq))
  · exact Nat.dvd_trans h8 hd

end Layout.WithinEightbyte

namespace Target

variable {T : Target}

theorem eq_ofComponents_x86_64 (hT : T.Supported) (hX : T.arch = .x86_64) :
    ∃ text triple, T = ofComponents text triple .x86_64 := by
  obtain ⟨text, triple, arch, rfl⟩ := hT.eq_ofComponents
  obtain rfl : arch = .x86_64 := hX
  exact ⟨text, triple, rfl⟩

theorem withinEightbyte_int (hT : T.Supported) (hX : T.arch = .x86_64) (bits : Nat) :
    (T.intLayout bits).WithinEightbyte := by
  rw [intLayout]
  split
  · exact Or.inl (Nat.zero_le _)
  · have hpow := isPowerOfTwo_intTyAlign hT bits
    obtain ⟨text, triple, rfl⟩ := eq_ofComponents_x86_64 hT hX
    have hlong : ((ofComponents text triple .x86_64).cType .longLong).alignBytes = 8 := by
      rw [cType_longLong_align]
      simp [Arch.cTypes]
    have hwide : (ofComponents text triple .x86_64).int128Align? = some 16 := rfl
    by_cases hle : bits ≤ 64
    · refine .of_le hpow ?_
      unfold intTyAlign bytesFor
      simp only [cType_char_align, cType_short_align, cType_int_align, hlong]
      repeat' split
      all_goals omega
    · refine Or.inr ?_
      show 8 ∣ intTyAlign _ bits
      unfold intTyAlign
      simp only [hwide, Option.getD_some]
      repeat' split
      all_goals omega

theorem le_nextPowerOfTwo : ∀ n ≤ 16, n ≤ n.nextPowerOfTwo := by decide +kernel

/-- Vectors of up to two registers. -/
theorem withinEightbyte_vector (hT : T.Supported) (hX : T.arch = .x86_64) {bits : Nat}
    (h : (T.vectorLayout bits).size ≤ 16) : (T.vectorLayout bits).WithinEightbyte := by
  have hpow := isPowerOfTwo_vectorAlign hT bits
  have hbytes : bytesFor bits ≤ 16 := Nat.le_trans (le_alignUp hpow) h
  obtain ⟨text, triple, rfl⟩ := eq_ofComponents_x86_64 hT hX
  have htable : ∀ s ∈ AlignTable.merge defaultVectorAligns (Arch.vectorOverrides .x86_64) ++ Arch.wideVectors .x86_64,
      8 ∣ s.abiBits / 8 := by decide
  have halign : (ofComponents text triple .x86_64).vectorAlign bits =
      (((AlignTable.merge defaultVectorAligns (Arch.vectorOverrides .x86_64) ++ Arch.wideVectors .x86_64).find bits).map
        (·.abiBits / 8)).getD (naturalAlign bits) := rfl
  cases hs :
    (AlignTable.merge defaultVectorAligns (Arch.vectorOverrides .x86_64) ++ Arch.wideVectors .x86_64).find bits with
  | none =>
    rw [hs] at halign
    refine .of_le hpow ?_
    rw [halign]
    exact Nat.le_trans (Nat.le_max_left _ 1) (le_nextPowerOfTwo _ (by omega))
  | some s =>
    rw [hs] at halign
    refine Or.inr ?_
    show 8 ∣ vectorAlign _ bits
    rw [halign]
    exact htable s (List.mem_of_find?_eq_some hs)

theorem withinEightbyte_float (hT : T.Supported) (hX : T.arch = .x86_64) {bits : Nat}
    (hb : (FloatKind.ofBits? bits).isSome = true) : (T.floatLayout bits).WithinEightbyte := by
  obtain ⟨k, hk⟩ := Option.isSome_iff_exists.1 hb
  obtain rfl := FloatKind.ofBits?_eq_some_iff.1 hk
  have h16 := floatAlign_half hT
  have h128 := floatAlign_fp128 hT
  obtain ⟨text, triple, rfl⟩ := eq_ofComponents_x86_64 hT hX
  have h80 : (ofComponents text triple .x86_64).floatAlign 80 = 16 := rfl
  have hf80 : (ofComponents text triple .x86_64).supportsF80 = true := rfl
  cases k with
  | half => simp [Layout.WithinEightbyte, floatLayout, FloatKind.bits, h16]
  | float =>
    simp [Layout.WithinEightbyte, floatLayout, FloatKind.bits, cType, CTypeLayout.layout, CTypeLayout.sizeBytes,
      CTypeLayout.alignBytes]
  | double =>
    simp [Layout.WithinEightbyte, floatLayout, FloatKind.bits, cType, CTypeLayout.layout, CTypeLayout.sizeBytes,
      CTypeLayout.alignBytes, ofComponents, Arch.cTypes]
  | x86Fp80 => simp [Layout.WithinEightbyte, floatLayout, FloatKind.bits, hf80, Layout.pad, h80]
  | fp128 => simp [Layout.WithinEightbyte, floatLayout, FloatKind.bits, h128]

theorem size_floatLayout_x87 (hT : T.Supported) (hX : T.arch = .x86_64) : (T.floatLayout 80).size = 16 := by
  obtain ⟨text, triple, rfl⟩ := eq_ofComponents_x86_64 hT hX
  have h80 : (ofComponents text triple .x86_64).floatAlign 80 = 16 := rfl
  have hf80 : (ofComponents text triple .x86_64).supportsF80 = true := rfl
  have h16 : alignUp 10 16 = 16 := by decide
  simp [floatLayout, hf80, Layout.pad, h80, h16]

theorem withinEightbyte_ptr (hT : T.Supported) (hX : T.arch = .x86_64) (space : Nat) :
    (T.machinePtr space).WithinEightbyte ∧ (T.machinePtr space).size ≤ 8 ∧ (T.machinePtr space).align ≤ 8 := by
  obtain ⟨text, triple, rfl⟩ := eq_ofComponents_x86_64 hT hX
  refine pointerLayout_induction
    (P := fun a => a.layout.WithinEightbyte ∧ a.layout.size ≤ 8 ∧ a.layout.align ≤ 8) ?_ space
  have h : ∀ a ∈ Arch.mainSpace .x86_64 :: Arch.otherSpaces .x86_64,
      (a.layout.size ≤ a.layout.align ∨ 8 ∣ a.layout.align) ∧ a.layout.size ≤ 8 ∧ a.layout.align ≤ 8 := by decide
  exact h

theorem intLayout_eightbyte (hT : T.Supported) (hX : T.arch = .x86_64) : T.intLayout 64 = ⟨8, 8⟩ := by
  obtain ⟨text, triple, rfl⟩ := eq_ofComponents_x86_64 hT hX
  have h8 : alignUp 8 8 = 8 := by decide
  simp [intLayout, intTyAlign, cType_longLong_align, Arch.cTypes, bytesFor, Layout.pad, h8]

theorem withinEightbyte_pointer (hT : T.Supported) (hX : T.arch = .x86_64) (p : PointerTy) :
    (p.layout T).WithinEightbyte := by
  obtain ⟨hptr, -, ha⟩ := withinEightbyte_ptr hT hX p.addrSpace
  unfold PointerTy.layout
  dsimp only
  split
  · -- the length of a slice is aligned to an eightbyte, and so is the slice
    have hword : T.usizeLayout = ⟨8, 8⟩ := by
      rw [usizeLayout, ptrBits, hX]
      exact intLayout_eightbyte hT hX
    have hpow : (T.pointerLayout p.addrSpace).layout.Placeable :=
      .of_size_pos (machinePtr_sane hT p.addrSpace).1 (machinePtr_sane hT p.addrSpace).2
    refine Or.inr ?_
    rw [hword, hpow.compose_pair]
    show 8 ∣ max (T.machinePtr p.addrSpace).align 8
    exact ⟨1, by omega⟩
  · exact hptr

end Target

end MachineAbi
