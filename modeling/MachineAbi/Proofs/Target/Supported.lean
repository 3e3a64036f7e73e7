import MachineAbi.Lowering.Value
import MachineAbi.Proofs.Alignment
import MachineAbi.Target.Descriptor

/-!
# What all supported targets have in common

Types are sized by the C types of the target, machine types by its alignment tables. On every supported target the two
agree.

* Integers: `machineInt_eq`, for every width.
* Floats: `floatType_cases`, for every width that has a format, whether or not the target computes with it.
* Pointers, vectors: one function serves both sides; their alignments are powers of two (`machinePtr_sane`,
  `isPowerOfTwo_vectorAlign`), as are all others.
-/

namespace MachineAbi.Target

/-- A target that a triple of `supportedTargets` names. -/
def Supported (T : Target) : Prop := ∃ text, ofTriple text = .ok T

variable {T : Target}

theorem Supported.eq_ofComponents (h : T.Supported) : ∃ text triple arch, T = ofComponents text triple arch := by
  obtain ⟨text, h⟩ := h
  unfold ofTriple at h
  split at h
  · cases ht : Triple.parse text with
    | error e => rw [ht] at h; cases h
    | ok triple =>
      cases ha : Arch.parse triple.arch with
      | error e => simp [ht, ha, bind, Except.bind] at h
      | ok arch =>
        simp only [ht, ha, bind, Except.bind] at h
        cases h
        exact ⟨text, triple, arch, rfl⟩
  · cases h

/-! ## Integers -/

@[simp]
theorem cType_char_align (T : Target) : (T.cType .char).alignBytes = 1 := by simp [cType, CTypeLayout.alignBytes]

@[simp]
theorem cType_short_align (T : Target) : (T.cType .short).alignBytes = 2 := by simp [cType, CTypeLayout.alignBytes]

@[simp]
theorem cType_int_align (T : Target) : (T.cType .int).alignBytes = 4 := by simp [cType, CTypeLayout.alignBytes]

theorem cType_longLong_align (text : String) (triple : Triple) (arch : Arch) :
    ((ofComponents text triple arch).cType .longLong).alignBytes = (arch.cTypes (Os.parse triple.os)).longLongAlign / 8 :=
  rfl

/-- The integer alignments of a target by width, in bytes: only those of the widest entries differ. -/
theorem intSteps (arch : Arch) (os : Os) :
    (AlignTable.merge defaultIntAligns (arch.intOverrides os)).map (fun s => (s.bits, s.abiBits / 8)) =
      [(1, 1), (8, 1), (16, 2), (32, 4), (64, (arch.cTypes os).longLongAlign / 8)] ++
        (if arch ∈ [.arm, .thumb, .riscv32, .mips, .mipsel] then [] else [(128, 16)]) := by
  cases arch with
  | aarch64 =>
    by_cases h : os = .darwin
    · subst h; rfl
    · simp only [Arch.intOverrides, h, if_false]; rfl
  | _ => rfl

theorem intAlign_eq_of_steps {steps : List (Nat × Nat)} (h : T.intAligns.map (fun s => (s.bits, s.abiBits / 8)) = steps)
    (bits : Nat) :
    T.intAlign bits = (((steps.find? (bits ≤ ·.1)).or steps.getLast?).map fun s => max s.2 1).getD 1 := by
  subst h
  rw [List.find?_map, List.getLast?_map, ← Option.map_or, Option.map_map]
  rfl

theorem int128Align?_eq_of_steps {steps : List (Nat × Nat)}
    (h : T.intAligns.map (fun s => (s.bits, s.abiBits / 8)) = steps) :
    T.int128Align? = (steps.find? (·.1 = 128)).map (·.2) := by
  subst h
  rw [List.find?_map, Option.map_map]
  rfl

theorem find?_atLeast_cons (s : Nat × Nat) (steps : List (Nat × Nat)) (bits : Nat) :
    (s :: steps).find? (bits ≤ ·.1) = if bits ≤ s.1 then some s else steps.find? (bits ≤ ·.1) := by
  by_cases h : bits ≤ s.1 <;> simp [h]

theorem longLongAlign_cases (arch : Arch) (os : Os) :
    (arch.cTypes os).longLongAlign = 32 ∨ (arch.cTypes os).longLongAlign = 64 := by
  unfold Arch.cTypes
  dsimp only
  split
  · exact Or.inl rfl
  · exact Or.inr rfl

/-- Machine integers are aligned like the narrowest C integer that holds them. -/
theorem intAlign_eq (h : T.Supported) (bits : Nat) : T.intAlign bits = T.intTyAlign bits := by
  obtain ⟨text, triple, arch, rfl⟩ := h.eq_ofComponents
  have hsteps : (ofComponents text triple arch).intAligns.map _ = _ := intSteps arch (Os.parse triple.os)
  rw [intAlign_eq_of_steps hsteps, intTyAlign, int128Align?_eq_of_steps hsteps]
  rw [cType_longLong_align]
  rcases longLongAlign_cases arch (Os.parse triple.os) with hl | hl <;> rw [hl]
  all_goals
    simp only [cType_char_align, cType_short_align, cType_int_align]
    split
    all_goals
      simp only [find?_atLeast_cons, List.find?_nil, List.cons_append, List.nil_append]
      repeat' split
      all_goals first | rfl | omega

theorem machineInt_eq (h : T.Supported) (bits : Nat) : T.machineInt bits = T.intLayout bits := by
  unfold machineInt intLayout
  rw [intAlign_eq h]
  split
  · rename_i hb
    subst hb
    simp [intTyAlign, bytesFor, Layout.pad, Layout.zero]
  · rfl

theorem isPowerOfTwo_intTyAlign (h : T.Supported) (bits : Nat) : (T.intTyAlign bits).isPowerOfTwo := by
  obtain ⟨text, triple, arch, rfl⟩ := h.eq_ofComponents
  have hsteps : (ofComponents text triple arch).intAligns.map _ = _ := intSteps arch (Os.parse triple.os)
  have hlong : ((ofComponents text triple arch).cType .longLong).alignBytes.isPowerOfTwo := by
    rw [cType_longLong_align]
    rcases longLongAlign_cases arch (Os.parse triple.os) with h | h <;> rw [h] <;> decide
  unfold intTyAlign
  dsimp only
  repeat' split
  · exact ⟨0, cType_char_align _⟩
  · exact ⟨1, cType_short_align _⟩
  · exact ⟨2, cType_int_align _⟩
  · exact hlong
  · rw [int128Align?_eq_of_steps hsteps]
    split
    · exact hlong
    · exact ⟨4, rfl⟩

theorem isPowerOfTwo_intAlign (h : T.Supported) (bits : Nat) : (T.intLayout bits).align.isPowerOfTwo := by
  unfold intLayout
  split
  · exact Nat.isPowerOfTwo_one
  · exact isPowerOfTwo_intTyAlign h bits

theorem intLayout_byte : T.intLayout 8 = ⟨1, 1⟩ := by
  simp [intLayout, intTyAlign, bytesFor, Layout.pad]

theorem intLayout_bit : T.intLayout 1 = ⟨1, 1⟩ := by
  simp [intLayout, intTyAlign, bytesFor, Layout.pad]

theorem errorCodeLayout_eq : T.errorCodeLayout = ⟨2, 2⟩ := by
  have h2 : alignUp 2 2 = 2 := by decide
  simp [errorCodeLayout, errorCodeBits, intLayout, intTyAlign, bytesFor, Layout.pad, h2]

/-- Only integers without bits have size zero. -/
theorem intLayout_size_pos (h : T.Supported) {bits : Nat} (hb : bits ≠ 0) : 0 < (T.intLayout bits).size := by
  have hle := @le_alignUp (bytesFor bits) _ (isPowerOfTwo_intTyAlign h bits)
  have hpos : 0 < bytesFor bits := by
    unfold bytesFor
    omega
  rw [intLayout, if_neg hb]
  exact Nat.lt_of_lt_of_le hpos hle

/-! ## Floats -/

theorem isPowerOfTwo_naturalAlign (bits : Nat) : (naturalAlign bits).isPowerOfTwo :=
  Nat.isPowerOfTwo_nextPowerOfTwo _

/-- An alignment is a power of two if all entries of the table are. -/
theorem isPowerOfTwo_find {table : AlignTable} (h : ∀ s ∈ table, (s.abiBits / 8).isPowerOfTwo) (bits : Nat) :
    (((table.find bits).map (·.abiBits / 8)).getD (naturalAlign bits)).isPowerOfTwo := by
  cases hs : table.find bits with
  | none => exact isPowerOfTwo_naturalAlign bits
  | some s => exact h s (List.mem_of_find?_eq_some hs)

theorem isPowerOfTwo_floatAlign (h : T.Supported) (bits : Nat) : (T.floatAlign bits).isPowerOfTwo := by
  obtain ⟨text, triple, arch, rfl⟩ := h.eq_ofComponents
  have htable : ∀ s ∈ AlignTable.merge defaultFloatAligns arch.floatOverrides, (s.abiBits / 8).isPowerOfTwo := by
    cases arch <;> decide
  exact isPowerOfTwo_find htable bits

theorem floatAlign_ofComponents (text : String) (triple : Triple) (arch : Arch) (bits : Nat) :
    (ofComponents text triple arch).floatAlign bits =
      (((AlignTable.merge defaultFloatAligns arch.floatOverrides).find bits).map (·.abiBits / 8)).getD
        (naturalAlign bits) :=
  rfl

theorem floatAlign_half (h : T.Supported) : T.floatAlign 16 = 2 := by
  obtain ⟨text, triple, arch, rfl⟩ := h.eq_ofComponents
  rw [floatAlign_ofComponents]
  cases arch <;> rfl

theorem floatAlign_float (h : T.Supported) : T.floatAlign 32 = 4 := by
  obtain ⟨text, triple, arch, rfl⟩ := h.eq_ofComponents
  rw [floatAlign_ofComponents]
  cases arch <;> rfl

theorem floatAlign_double (h : T.Supported) :
    T.floatAlign 64 = (T.cType .double).alignBytes ∧ T.floatAlign 64 ∣ 8 := by
  obtain ⟨text, triple, arch, rfl⟩ := h.eq_ofComponents
  have hc : ((ofComponents text triple arch).cType .double).alignBytes = (arch.cTypes (Os.parse triple.os)).doubleAlign / 8 :=
    rfl
  rw [floatAlign_ofComponents, hc]
  cases arch <;> exact ⟨rfl, by decide⟩

theorem floatAlign_fp128 (h : T.Supported) : T.floatAlign 128 = 16 := by
  obtain ⟨text, triple, arch, rfl⟩ := h.eq_ofComponents
  rw [floatAlign_ofComponents]
  cases arch <;> rfl

/-- Where a format has a machine type, or is narrow, floats are laid out as that type would be. -/
theorem machineFloat_eq (h : T.Supported) (k : FloatKind) (hk : k = .x86Fp80 → T.supportsF80 = true) :
    T.machineFloat k = T.floatLayout k.bits := by
  have h2 : alignUp 2 2 = 2 := by decide
  have h4 : alignUp 4 4 = 4 := by decide
  have h16 : alignUp 16 16 = 16 := by decide
  cases k with
  | half => simp [machineFloat, floatLayout, FloatKind.bits, FloatKind.storeBytes, Layout.pad, floatAlign_half h, h2]
  | float =>
    simp [machineFloat, floatLayout, FloatKind.bits, FloatKind.storeBytes, Layout.pad, floatAlign_float h, h4, cType,
      CTypeLayout.layout, CTypeLayout.sizeBytes, CTypeLayout.alignBytes]
  | double =>
    have h8 := alignUp_of_dvd (isPowerOfTwo_floatAlign h 64) (floatAlign_double h).2
    have hsize : (T.cType .double).sizeBytes = 8 := by simp [cType, CTypeLayout.sizeBytes]
    simp [machineFloat, floatLayout, FloatKind.bits, FloatKind.storeBytes, Layout.pad, h8, CTypeLayout.layout, hsize,
      ← (floatAlign_double h).1]
  | x86Fp80 => simp [machineFloat, floatLayout, FloatKind.bits, FloatKind.storeBytes, hk rfl]
  | fp128 => simp [machineFloat, floatLayout, FloatKind.bits, FloatKind.storeBytes, Layout.pad, floatAlign_fp128 h, h16]

/-- A float is lowered to its format or to an integer of its width, and has the same layout either way. -/
theorem floatType_cases (h : T.Supported) {bits : Nat} {k : FloatKind} (hk : FloatKind.ofBits? bits = some k) :
    (T.floatType bits = .float k ∧ T.machineFloat k = T.floatLayout bits) ∨
      (T.floatType bits = .int bits ∧ T.machineInt bits = T.floatLayout bits) := by
  obtain rfl := FloatKind.ofBits?_eq_some_iff.1 hk
  have h2 : alignUp 2 2 = 2 := by decide
  cases k with
  | half =>
    cases hs : T.supportsF16 with
    | true => exact Or.inl ⟨by simp [floatType, FloatKind.bits, FloatKind.ofBits?, hs], machineFloat_eq h .half nofun⟩
    | false =>
      refine Or.inr ⟨by simp [floatType, FloatKind.bits, hs], ?_⟩
      rw [machineInt_eq h]
      simp [intLayout, intTyAlign, floatLayout, FloatKind.bits, bytesFor, Layout.pad, floatAlign_half h, h2]
  | float => exact Or.inl ⟨by simp [floatType, FloatKind.bits, FloatKind.ofBits?], machineFloat_eq h .float nofun⟩
  | double => exact Or.inl ⟨by simp [floatType, FloatKind.bits, FloatKind.ofBits?], machineFloat_eq h .double nofun⟩
  | x86Fp80 =>
    cases hs : T.supportsF80 with
    | true =>
      exact Or.inl ⟨by simp [floatType, FloatKind.bits, FloatKind.ofBits?, hs], machineFloat_eq h .x86Fp80 fun _ => hs⟩
    | false =>
      refine Or.inr ⟨by simp [floatType, FloatKind.bits, hs], ?_⟩
      rw [machineInt_eq h]
      simp [floatLayout, FloatKind.bits, hs]
  | fp128 => exact Or.inl ⟨by simp [floatType, FloatKind.bits, FloatKind.ofBits?], machineFloat_eq h .fp128 nofun⟩

theorem isPowerOfTwo_floatLayout (h : T.Supported) (bits : Nat) : (T.floatLayout bits).align.isPowerOfTwo := by
  unfold floatLayout
  split
  · exact ⟨2, by simp [cType, CTypeLayout.layout, CTypeLayout.alignBytes]⟩
  · rw [CTypeLayout.layout, ← (floatAlign_double h).1]
    exact isPowerOfTwo_floatAlign h 64
  · split
    · exact isPowerOfTwo_floatAlign h 80
    · exact isPowerOfTwo_intAlign h 80
  · exact isPowerOfTwo_floatAlign h _

/-- Floats other than those of the x87 unit have no padding. -/
theorem size_floatLayout (T : Target) {k : FloatKind} (hk : k ≠ .x86Fp80) :
    (T.floatLayout k.bits).size = k.storeBytes := by
  cases k with
  | x86Fp80 => exact absurd rfl hk
  | half | fp128 => rfl
  | float | double =>
    simp [floatLayout, FloatKind.bits, FloatKind.storeBytes, cType, CTypeLayout.layout, CTypeLayout.sizeBytes]

theorem floatLayout_size_pos (h : T.Supported) {bits : Nat} {k : FloatKind} (hk : FloatKind.ofBits? bits = some k) :
    0 < (T.floatLayout bits).size := by
  obtain rfl := FloatKind.ofBits?_eq_some_iff.1 hk
  cases k with
  | half => simp [floatLayout, FloatKind.bits]
  | float => simp [floatLayout, FloatKind.bits, cType, CTypeLayout.layout, CTypeLayout.sizeBytes]
  | double => simp [floatLayout, FloatKind.bits, cType, CTypeLayout.layout, CTypeLayout.sizeBytes]
  | x86Fp80 =>
    simp only [floatLayout, FloatKind.bits]
    split
    · exact Nat.lt_of_lt_of_le (by decide) (@le_alignUp 10 _ (isPowerOfTwo_floatAlign h 80))
    · exact intLayout_size_pos h (by decide)
  | fp128 => simp [floatLayout, FloatKind.bits]

/-! ## Vectors and pointers -/

theorem isPowerOfTwo_vectorAlign (h : T.Supported) (bits : Nat) : (T.vectorAlign bits).isPowerOfTwo := by
  obtain ⟨text, triple, arch, rfl⟩ := h.eq_ofComponents
  have htable : ∀ s ∈ AlignTable.merge defaultVectorAligns arch.vectorOverrides ++ arch.wideVectors,
      (s.abiBits / 8).isPowerOfTwo := by
    cases arch <;> decide
  exact isPowerOfTwo_find htable bits

theorem vectorLayout_zero (h : T.Supported) : T.vectorLayout 0 = .zero := by
  obtain ⟨text, triple, arch, rfl⟩ := h.eq_ofComponents
  have hfind : (AlignTable.merge defaultVectorAligns arch.vectorOverrides ++ arch.wideVectors).find 0 = none := by
    cases arch <;> rfl
  have halign : (ofComponents text triple arch).vectorAlign 0 = naturalAlign 0 := by
    unfold vectorAlign
    rw [show ((ofComponents text triple arch).vectorAligns ++ (ofComponents text triple arch).wideVectors).find 0 = none
      from hfind]
    rfl
  have h1 : naturalAlign 0 = 1 := by decide +kernel
  rw [vectorLayout, halign, h1]
  rfl

/-- A vector of two registers has no padding. -/
theorem vectorLayout_registers (h : T.Supported) : (T.vectorLayout (2 * 64)).size = 16 := by
  have hd : T.vectorAlign 128 ∣ 16 := by
    obtain ⟨text, triple, arch, rfl⟩ := h.eq_ofComponents
    have hfind : ∃ s ∈ (AlignTable.merge defaultVectorAligns arch.vectorOverrides ++ arch.wideVectors).find 128,
        s.abiBits / 8 ∣ 16 := by
      cases arch <;> exact ⟨_, rfl, by decide⟩
    obtain ⟨entry, hentry, hd⟩ := hfind
    have halign : (ofComponents text triple arch).vectorAlign 128 = entry.abiBits / 8 := by
      unfold vectorAlign
      rw [show ((ofComponents text triple arch).vectorAligns ++ (ofComponents text triple arch).wideVectors).find 128 =
        some entry from hentry]
      rfl
    rw [halign]
    exact hd
  exact alignUp_of_dvd (isPowerOfTwo_vectorAlign h 128) hd

theorem vectorLayout_size_pos (h : T.Supported) {bits : Nat} (hb : bits ≠ 0) : 0 < (T.vectorLayout bits).size := by
  have hle := @le_alignUp (bytesFor bits) _ (isPowerOfTwo_vectorAlign h bits)
  have hpos : 0 < bytesFor bits := by
    unfold bytesFor
    omega
  exact Nat.lt_of_lt_of_le hpos hle

/-- What holds of every address space of the architecture holds of the space that stands for an identity. -/
theorem pointerLayout_induction {P : AddressSpace → Prop} (h : ∀ a ∈ T.addressSpaces, P a) (id : Nat) :
    P (T.pointerLayout id) := by
  unfold pointerLayout
  cases hs : T.addressSpaces.find? (·.id = id) with
  | none => exact h _ List.mem_cons_self
  | some a => exact h a (List.mem_of_find?_eq_some hs)

theorem machinePtr_sane (h : T.Supported) (space : Nat) :
    (T.machinePtr space).align.isPowerOfTwo ∧ 0 < (T.machinePtr space).size := by
  obtain ⟨text, triple, arch, rfl⟩ := h.eq_ofComponents
  refine pointerLayout_induction (P := fun a => a.layout.align.isPowerOfTwo ∧ 0 < a.layout.size) ?_ space
  have h : ∀ a ∈ arch.mainSpace :: arch.otherSpaces, a.layout.align.isPowerOfTwo ∧ 0 < a.layout.size := by
    cases arch <;> decide
  exact h

end MachineAbi.Target
