import MachineAbi.Proofs.Lowering.Exchange
import MachineAbi.Proofs.Target.Supported

/-!
# Enums cross a call as their tags

An enum is stored as its tag (`SealedPool.IsEnumOf`), an integer. It is passed and returned like the integer
(`Sizing.classes_of_isEnumOf`), unless the integer has more than 64 bits and the convention sends enums of that width
to memory (`Classifier.boundsEnums`, `Sizing.classes_of_wide`). A signature stays the same when integers inside its
types are replaced by enums (`Lowering.crosses_as_tag`).
-/

namespace MachineAbi

open SealedPool

/-- `t'` is an enum whose tag is `t`, an integer of `bits` bits. -/
structure SealedPool.IsEnumOf (P : SealedPool) (bits : Nat) (t t' : TypeId) : Prop where
  tag : ∃ name variants, P.get t' = .enum name t variants
  int : ∃ sign, P.get t = .int bits sign
  pos : 0 < bits

/-- The second type is an enum, and the first its tag. -/
def SealedPool.EnumFor (P : SealedPool) (t t' : TypeId) : Prop := ∃ bits, P.IsEnumOf bits t t'

/-- The same for tags of at most 64 bits. -/
def SealedPool.NarrowEnumFor (P : SealedPool) (t t' : TypeId) : Prop := ∃ bits ≤ 64, P.IsEnumOf bits t t'

/-- The conventions that send enums of more than 64 bits to memory. -/
def Classifier.boundsEnums : Classifier → Bool
  | win64 | armSoft | armVfp => true
  | sysv | aarch64 | riscv | wasm | generic => false

/-! ## Narrow integers -/

/-- An integer of at most 64 bits is stored in one of the sizes that a register holds. -/
theorem Target.intLayout_size_narrow {T : Target} (h : T.Supported) {bits : Nat} (hpos : 0 < bits) (hle : bits ≤ 64) :
    (T.intLayout bits).size ∈ [1, 2, 4, 8] := by
  have hlong : (T.cType .longLong).alignBytes = 4 ∨ (T.cType .longLong).alignBytes = 8 := by
    obtain ⟨text, triple, arch, rfl⟩ := h.eq_ofComponents
    rw [cType_longLong_align]
    rcases longLongAlign_cases arch (Os.parse triple.os) with h | h
    · exact Or.inl (by rw [h])
    · exact Or.inr (by rw [h])
  have hbytes : bytesFor bits ≤ 8 ∧ 0 < bytesFor bits := by
    unfold bytesFor
    omega
  have hfew : ∀ align ∈ [1, 2, 4, 8], ∀ n ≤ 8, 0 < n → n ≤ align ∨ 4 < n ∧ align = 4 →
      alignUp n align ∈ [1, 2, 4, 8] := by
    decide
  rw [intLayout, if_neg (by omega)]
  refine hfew _ ?_ (bytesFor bits) hbytes.1 hbytes.2 ?_
  · unfold intTyAlign
    simp only [cType_char_align, cType_short_align, cType_int_align, if_pos hle]
    rcases hlong with hlong | hlong
    all_goals
      rw [hlong]
      repeat' split
      all_goals decide
  · unfold intTyAlign bytesFor
    simp only [cType_char_align, cType_short_align, cType_int_align, if_pos hle]
    rcases hlong with hlong | hlong
    all_goals
      rw [hlong]
      repeat' split
      all_goals omega

/-- An integer of more bits is not. -/
theorem Target.intLayout_size_wide {T : Target} (h : T.Supported) {bits : Nat} (hlt : 64 < bits) :
    (T.intLayout bits).size ∉ [1, 2, 4, 8] := by
  have hle := @le_alignUp (bytesFor bits) _ (isPowerOfTwo_intTyAlign h bits)
  have hbytes : 8 < bytesFor bits := by
    unfold bytesFor
    omega
  have hsize : 8 < (T.intLayout bits).size := by
    rw [intLayout, if_neg (by omega)]
    exact Nat.lt_of_lt_of_le hbytes hle
  intro hmem
  simp at hmem
  omega

/-! ## An enum and its tag -/

namespace Sizing

variable {Z : Sizing} {bits : Nat} {t t' : TypeId}

theorem extent_of_isEnumOf (h : Z.IsEnumOf bits t t') :
    Z.extent t = .ofBits Z.target bits ∧ Z.extent t' = Z.extent t := by
  obtain ⟨⟨name, variants, htag⟩, ⟨sign, hint⟩, -⟩ := h
  constructor
  · rw [Z.extent_eq, hint]
  · rw [Z.extent_eq t', htag]

theorem width_of_isEnumOf (h : Z.IsEnumOf bits t t') :
    (Z.packedWidth t = bits ∧ Z.packedWidth t' = bits) ∧
      Z.layout t = Z.target.intLayout bits ∧ Z.layout t' = Z.target.intLayout bits := by
  obtain ⟨hextent, hextent'⟩ := extent_of_isEnumOf h
  simp [packedWidth, layout, hextent', hextent, Extent.ofBits]

theorem takesRoom_of_isEnumOf (h : Z.IsEnumOf bits t t') : Z.takesRoom t = true ∧ Z.takesRoom t' = true := by
  obtain ⟨⟨name, variants, htag⟩, ⟨sign, hint⟩, hpos⟩ := h
  have hroom : Z.takesRoom t = true := by
    rw [Z.takesRoom_eq, hint]
    exact decide_eq_true hpos
  constructor
  · exact hroom
  · rw [Z.takesRoom_eq, htag]
    exact hroom

/-- Integers and enums can take the place of each other. -/
theorem exchangeable_enumFor (Z : Sizing) : Z.Exchangeable Z.EnumFor where
  words := by
    rintro t t' ⟨bits, ⟨name, variants, htag⟩, ⟨sign, hint⟩, -⟩
    simp [isWord, htag, hint]
  rooms := by
    rintro t t' ⟨bits, h⟩
    exact takesRoom_of_isEnumOf h
  extents := by
    rintro t t' ⟨bits, h⟩
    exact (extent_of_isEnumOf h).2.symm
  sliced := by
    rintro t t' ⟨bits, ⟨name, variants, htag⟩, ⟨sign, hint⟩, -⟩
    simp [isSliced, Pool.isSlice, Pool.isOptionalSlice, htag, hint]
  slices := by
    rintro t t' ⟨bits, ⟨name, variants, htag⟩, ⟨sign, hint⟩, -⟩ -
    simp [Pool.isSlice, htag, hint]

/-- Both are extended as the integer is. -/
theorem extendAlike_enumFor (Z : Sizing) : Z.ExtendAlike Z.EnumFor where
  integers := by
    rintro t t' ⟨bits, ⟨name, variants, htag⟩, ⟨sign, hint⟩, -⟩
    simp [Ty.isInteger, htag, hint]
  extensions := by
    rintro t t' ⟨bits, ⟨name, variants, htag⟩, -, -⟩
    rw [Z.cExtension?_eq t', htag]

/-! ## Classes -/

/-- An enum is passed and returned like its tag, by conventions that do not send it to memory. -/
theorem classes_of_isEnumOf (hT : Z.target.Supported) (h : Z.IsEnumOf bits t t') {c : Option Classifier}
    (hno : c.any Classifier.boundsEnums = true → bits ≤ 64) :
    Z.paramClass c t = Z.paramClass c t' ∧ Z.returnClass c t = Z.returnClass c t' := by
  refine classes_of_words (exchangeable_enumFor Z) ⟨bits, h⟩ fun _ _ => ?_
  obtain ⟨hwidth, hlayout⟩ := width_of_isEnumOf h
  obtain ⟨⟨name, variants, htag⟩, ⟨sign, hint⟩, hpos⟩ := h
  constructor
  · rintro rfl
    have hsize := Target.intLayout_size_narrow hT hpos (hno rfl)
    simp only [Win64.kind, hint, htag, hlayout, if_pos hsize]
  · intro hc hardFloat isReturn
    have hle : ¬64 < bits := by
      rcases hc with rfl | rfl
      all_goals exact Nat.not_lt.2 (hno rfl)
    simp only [Arm.kind, hint, htag, isScalar, hwidth, if_true, if_neg hle]
  · intro _
    simp only [RiscV.kind, hint, htag, hwidth]

/-- Enums of more than 64 bits go to memory where the convention says so. -/
theorem classes_of_wide (hT : Z.target.Supported) (h : Z.IsEnumOf bits t t') {c : Classifier}
    (hbound : c.boundsEnums = true) (hwide : 64 < bits) :
    Z.paramClass (some c) t' = .byReference (c == .win64) (c != .win64) ∧ Z.returnClass (some c) t' = .sret := by
  obtain ⟨-, hroom'⟩ := takesRoom_of_isEnumOf h
  obtain ⟨hwidth, hlayout⟩ := width_of_isEnumOf h
  obtain ⟨⟨name, variants, htag⟩, -, -⟩ := h
  unfold paramClass returnClass
  rw [hroom']
  simp only [Pool.isSlice, Pool.isOptionalSlice, htag, Bool.or_self, Bool.not_true, Bool.false_eq_true, if_false]
  cases c with
  | win64 =>
    have hkind : Win64.kind Z t' = .memory := by
      simp only [Win64.kind, htag, hlayout.2, if_neg (Target.intLayout_size_wide hT hwide)]
    simp only [Classifier.classifyParam, Classifier.classifyReturn, Win64.classifyParam, Win64.classifyReturn, hkind]
    exact ⟨rfl, trivial⟩
  | armSoft | armVfp =>
    have hkind : ∀ hardFloat isReturn, Arm.kind Z hardFloat isReturn t' = .memory := by
      intro hardFloat isReturn
      simp only [Arm.kind, htag, hwidth.2, if_pos hwide]
    simp only [Classifier.classifyParam, Classifier.classifyReturn, Arm.classifyParam, Arm.classifyReturn, hkind]
    exact ⟨rfl, trivial⟩
  | sysv | aarch64 | riscv | wasm | generic => cases hbound

/-- Their tags do not. -/
theorem classes_ne_of_wide (hT : Z.target.Supported) (h : Z.IsEnumOf bits t t') {c : Classifier}
    (hbound : c.boundsEnums = true) (hwide : 64 < bits) :
    Z.paramClass (some c) t ≠ Z.paramClass (some c) t' ∧ Z.returnClass (some c) t ≠ Z.returnClass (some c) t' := by
  obtain ⟨hparam, hreturn⟩ := classes_of_wide hT h hbound hwide
  obtain ⟨hroom, -⟩ := takesRoom_of_isEnumOf h
  obtain ⟨-, hlayout, -⟩ := width_of_isEnumOf h
  obtain ⟨-, ⟨sign, hint⟩, -⟩ := h
  rw [hparam, hreturn]
  unfold paramClass returnClass
  rw [hroom]
  simp only [Pool.isSlice, Pool.isOptionalSlice, hint, Bool.or_self, Bool.not_true, Bool.false_eq_true, if_false]
  cases c with
  | win64 =>
    have hkind : Win64.kind Z t = .wideInt := by
      simp only [Win64.kind, hint, hlayout, if_neg (Target.intLayout_size_wide hT hwide)]
    simp only [Classifier.classifyParam, Classifier.classifyReturn, Win64.classifyParam, Win64.classifyReturn, hkind]
    decide
  | armSoft | armVfp =>
    have hkind : ∀ hardFloat isReturn, Arm.kind Z hardFloat isReturn t = .byValue := by
      intro hardFloat isReturn
      simp only [Arm.kind, hint, isScalar, if_true]
    have hhalf : Arm.widenedHalf? Z t = none := by simp [Arm.widenedHalf?, hint]
    simp only [Classifier.classifyParam, Classifier.classifyReturn, Arm.classifyParam, Arm.classifyReturn, hkind, hhalf]
    decide
  | sysv | aarch64 | riscv | wasm | generic => cases hbound

end Sizing

/-! ## Inside other types -/

/-- An enum of at most 8 bytes has one integer eightbyte, like its tag. -/
theorem SysV.Eightbytes.classifyWithin_narrow {Z : Sizing} {t t' : TypeId} (hT : Z.target.Supported)
    (h : Z.NarrowEnumFor t t') (n : Nat) : classifyWithin Z n t = classifyWithin Z n t' := by
  obtain ⟨bits, hle, h⟩ := h
  obtain ⟨hextent, -⟩ := Sizing.extent_of_isEnumOf h
  obtain ⟨⟨name, variants, htag⟩, ⟨sign, hint⟩, hpos⟩ := h
  have hsize : (Z.layout t).size ∈ [1, 2, 4, 8] := by
    rw [Sizing.layout, hextent]
    exact Target.intLayout_size_narrow hT hpos hle
  have hone : ((Z.layout t).size + 7) / 8 = 1 := by
    simp at hsize
    omega
  cases n with
  | zero => rfl
  | succ n =>
    funext offset e
    have hput : e.putScalar? Z offset t = e.putScalar? Z offset t' := by
      simp only [putScalar?, hint, htag, putIntegers, hone]
      rfl
    have hsome : e.putScalar? Z offset t' = some (e.put offset .integer) := by simp only [putScalar?, htag]
    rw [classifyWithin, classifyWithin, hput, hsome]

namespace RiscV

variable {Z : Sizing} {R S : TypeId → TypeId → Prop} {t t' : TypeId}

/-- Fields that are replaced travel on their own as before, if the types that are replaced themselves do. -/
theorem fieldKind_replaced (hbase : ∀ t t', R t t' → fieldKind Z t = fieldKind Z t') (h : Z.Replaced R t t') :
    fieldKind Z t = fieldKind Z t' := by
  rcases h.cases with rfl | h | h
  · rfl
  · exact hbase t t' h
  · exact fieldKind_inStep h

end RiscV

/-- Types in which integers are replaced by enums. -/
structure Sizing.EnumsReplaced (Z : Sizing) (c : Option Classifier) (t t' : TypeId) : Prop where
  replaced : Z.Replaced Z.EnumFor t t'
  /-- An enum on its own is none that the convention sends to memory. -/
  whole : ∀ bits, Z.IsEnumOf bits t t' → c.any Classifier.boundsEnums = true → bits ≤ 64
  /-- Enums inside a value that System V passes in registers have one eightbyte. -/
  narrow : c = some .sysv → Z.isScalar t = false → (Z.layout t).size ≤ 16 → Z.Replaced Z.NarrowEnumFor t t'

namespace Sizing

variable {Z : Sizing} {c : Option Classifier} {t t' : TypeId}

theorem fieldKind_enumFor (t t' : TypeId) (h : Z.EnumFor t t') : RiscV.fieldKind Z t = RiscV.fieldKind Z t' := by
  obtain ⟨bits, h⟩ := h
  obtain ⟨-, hextent⟩ := extent_of_isEnumOf h
  obtain ⟨⟨name, variants, htag⟩, ⟨sign, hint⟩, -⟩ := h
  have hwidth : Z.packedWidth t = Z.packedWidth t' := congrArg Extent.bits hextent.symm
  simp only [RiscV.fieldKind, htag, hint, hwidth]

/-- Conventions pass types alike in which integers are replaced by enums. -/
theorem EnumsReplaced.passesAlike (hT : Z.target.Supported) (h : Z.EnumsReplaced c t t') :
    Z.PassesAlike Z.EnumFor c t t' := by
  refine ⟨h.replaced, ?_, ?_, ?_⟩
  · rintro ⟨bits, henum⟩
    exact classes_of_isEnumOf hT henum (h.whole bits henum)
  · intro hc hscalar
    have hlayout := h.replaced.layout_eq (exchangeable_enumFor Z)
    by_cases hsize : (Z.layout t).size ≤ 16
    · have hR : Z.Exchangeable Z.NarrowEnumFor :=
        (exchangeable_enumFor Z).of_imp fun t t' ⟨bits, _, h⟩ => ⟨bits, h⟩
      have hclassify := SysV.Eightbytes.classifyWithin_replaced hR
        (fun n t t' hn => SysV.Eightbytes.classifyWithin_narrow hT hn n) (Z.size + 1) (h.narrow hc hscalar hsize)
      exact SysV.Eightbytes.of?_eq hclassify hlayout
    · have hlarge := Nat.lt_of_not_le hsize
      rw [SysV.Eightbytes.of?, SysV.Eightbytes.of?, ← hlayout, if_pos hlarge, if_pos hlarge]
  · intro _ _
    refine RiscV.isSome_floatFields?_replaced (exchangeable_enumFor Z) h.replaced fun _ _ hfields => ?_
    rw [map_eq_of_forall₂ (hfields.imp fun c c' hc => RiscV.fieldKind_replaced fieldKind_enumFor hc)]

end Sizing

/-! ## Signatures -/

namespace Lowering

variable {L : Lowering} {c : Option Classifier}

theorem exchange_enumFor (L : Lowering) : L.Exchange L.EnumFor True where
  stored := Sizing.exchangeable_enumFor L.toSizing
  trees := by
    rintro t t' ⟨bits, h⟩
    obtain ⟨-, hroom⟩ := Sizing.takesRoom_of_isEnumOf h
    obtain ⟨⟨name, variants, htag⟩, -, -⟩ := h
    have hpart : t ∈ L.parts t' := mem_parts htag (by simp [Ty.parts])
    rw [valueTree, valueTree, L.toSizing.form_eq t', Sizing.formNew, htag]
    simp only [hroom, if_true, Form.plain, Sizing.partTree_of_mem hpart]
  spaces := by
    rintro t t' ⟨bits, ⟨name, variants, htag⟩, ⟨sign, hint⟩, -⟩
    simp [sliceSpace, htag, hint]
  attrs _ := Sizing.extendAlike_enumFor L.toSizing

/-- Enums cross calls as their tags. Every convention passes and returns an enum like its tag, up to the width from
which a convention sends enums to memory; and a signature in which tags are replaced by enums, inside structs, tuples,
arrays, unions and other types or by themselves, is the same up to copies of these types, with all attributes. -/
theorem crosses_as_tag (hT : L.target.Supported) {cc : CallConv} (hc : classifierFor cc L.target = .ok c) :
    (∀ {bits : Nat} {t t' : TypeId}, L.IsEnumOf bits t t' →
      ((c.any Classifier.boundsEnums = true → bits ≤ 64) →
        L.classifyParam cc t = L.classifyParam cc t' ∧ L.classifyReturn cc t = L.classifyReturn cc t') ∧
      (c.any Classifier.boundsEnums = true → 64 < bits →
        L.classifyParam cc t' = .ok (.byReference (c == some .win64) (c != some .win64)) ∧
        L.classifyReturn cc t' = .ok .sret)) ∧
    ∀ {f f' : FnTy} {s s' : Session}, f.cc = cc → f.InStep (L.EnumsReplaced c) f' → L.Reachable s → L.Reachable s' →
      ∃ sig sig' s₁ s₁', (L.signature f).run.run s = (.ok sig, s₁) ∧ (L.signature f').run.run s' = (.ok sig', s₁') ∧
        Session.SameSignatureUpTo L.toSealedPool (L.Replaced L.EnumFor) True True s₁ s₁' sig sig' := by
  have hclasses : ∀ t, L.classifyParam cc t = .ok (L.paramClass c t) ∧
      L.classifyReturn cc t = .ok (L.returnClass c t) := by
    intro t
    rw [Sizing.classifyParam, Sizing.classifyReturn, hc]
    exact ⟨rfl, rfl⟩
  constructor
  · intro bits t t' h
    rw [(hclasses t).1, (hclasses t).2, (hclasses t').1, (hclasses t').2]
    constructor
    · intro hno
      obtain ⟨hparam, hreturn⟩ := Sizing.classes_of_isEnumOf hT h hno
      rw [hparam, hreturn]
      exact ⟨rfl, rfl⟩
    · intro hbound hwide
      cases c with
      | none => cases hbound
      | some k =>
        obtain ⟨hparam, hreturn⟩ := Sizing.classes_of_wide hT h hbound hwide
        rw [hparam, hreturn]
        cases k <;> exact ⟨rfl, rfl⟩
  · intro f f' s s' hcc h hs hs'
    have halike : f.InStep (L.PassesAlike L.EnumFor c) f' := h.mono fun t t' ht => ht.passesAlike hT
    have herror : L.isErrorType f.ret = L.isErrorType f'.ret := by
      rcases h.ret.replaced.cases with heq | ⟨bits, ⟨name, variants, htag⟩, ⟨sign, hint⟩, -⟩ | hstep
      · rw [heq]
      · simp [Pool.isErrorType, htag, hint]
      · exact hstep.isErrorType_eq
    exact exists_sameSignatureUpTo (exchange_enumFor L) halike (by rw [hcc, hc]) (fun _ _ _ => herror) hs hs'

end Lowering

namespace Sizing

theorem isEnumOf_kind : exchanging.IsEnumOf 8 .u8 ⟨21⟩ := ⟨⟨_, _, rfl⟩, ⟨_, rfl⟩, by decide⟩

theorem isEnumOf_wide : exchanging.IsEnumOf 128 ⟨12⟩ ⟨22⟩ := ⟨⟨_, _, rfl⟩, ⟨_, rfl⟩, by decide⟩

/-- A struct with a tag, and one with the enum in its place. -/
theorem inStep_coded {R : TypeId → TypeId → Prop} (h : R .u8 ⟨21⟩) :
    exchanging.InStep (exchanging.Replaced R) ⟨23⟩ ⟨24⟩ :=
  .struct rfl rfl rfl (.cons (.base h) (.cons (.refl _) .nil))

theorem enumsReplaced_coded : exchanging.EnumsReplaced (some .sysv) ⟨23⟩ ⟨24⟩ where
  replaced := .inStep (fun _ _ h => h) (inStep_coded ⟨8, isEnumOf_kind⟩)
  whole _ _ hbound := by cases hbound
  narrow _ _ _ := .inStep (fun _ _ h => h) (inStep_coded ⟨8, by decide, isEnumOf_kind⟩)

theorem enumsReplaced_kind : exchanging.EnumsReplaced (some .sysv) .u8 ⟨21⟩ where
  replaced := .base ⟨8, isEnumOf_kind⟩
  whole _ _ hbound := by cases hbound
  narrow _ hscalar := by cases hscalar

end Sizing

/-- A C function that takes a struct with a tag and returns a tag, and the same with enums. -/
theorem Lowering.crosses_as_tag_coded :
    (Sizing.exchanging.classifyParam .c .u8 = Sizing.exchanging.classifyParam .c ⟨21⟩ ∧
      Sizing.exchanging.classifyReturn .c .u8 = Sizing.exchanging.classifyReturn .c ⟨21⟩) ∧
    (Sizing.exchanging.classifyParam .win64 ⟨22⟩ = .ok (.byReference true false) ∧
      Sizing.exchanging.classifyReturn .win64 ⟨22⟩ = .ok .sret) ∧
    ∃ sig sig' s s', ((⟨.exchanging, .standard⟩ : Lowering).signature ⟨[⟨23⟩], .u8, .c, false, 0⟩).run.run .empty =
        (.ok sig, s) ∧
      ((⟨.exchanging, .standard⟩ : Lowering).signature ⟨[⟨24⟩], ⟨21⟩, .c, false, 0⟩).run.run .empty = (.ok sig', s') ∧
      Session.SameSignatureUpTo .exchanging (Sizing.exchanging.Replaced Sizing.exchanging.EnumFor) True True s s' sig
        sig' := by
  have hT : Sizing.exchanging.target.Supported := Target.supported_sample
  obtain ⟨hclasses, hsignatures⟩ := crosses_as_tag (L := ⟨.exchanging, .standard⟩) hT
    (rfl : classifierFor .c .sample = _)
  obtain ⟨hwide, -⟩ := crosses_as_tag (L := ⟨.exchanging, .standard⟩) hT (rfl : classifierFor .win64 .sample = _)
  refine ⟨(hclasses Sizing.isEnumOf_kind).1 nofun, (hwide Sizing.isEnumOf_wide).2 rfl (by decide), ?_⟩
  exact hsignatures rfl ⟨rfl, rfl, rfl, .cons Sizing.enumsReplaced_coded .nil, Sizing.enumsReplaced_kind⟩ .empty .empty

/-- On ARM and by the Windows convention, an enum of 128 bits is not passed and returned like its tag. -/
theorem Sizing.exists_classes_enum_ne :
    (∃ (Z : Sizing) (t t' : TypeId), Z.target.Supported ∧ Z.target.arch = .arm ∧ Z.IsEnumOf 128 t t' ∧
      Z.classifyParam .c t ≠ Z.classifyParam .c t' ∧ Z.classifyReturn .c t ≠ Z.classifyReturn .c t') ∧
    ∃ (Z : Sizing) (t t' : TypeId), Z.target.Supported ∧ Z.target.arch = .x86_64 ∧ Z.IsEnumOf 128 t t' ∧
      Z.classifyParam .win64 t ≠ Z.classifyParam .win64 t' ∧
      Z.classifyReturn .win64 t ≠ Z.classifyReturn .win64 t' := by
  let arm : Target := .ofComponents "arm-unknown-linux-gnueabihf" ⟨"arm", "unknown", "linux", some "gnueabihf"⟩ .arm
  have harm : arm.Supported := ⟨"arm-unknown-linux-gnueabihf", rfl⟩
  have henum : (Sizing.of .exchanging arm).IsEnumOf 128 ⟨12⟩ ⟨22⟩ := ⟨⟨_, _, rfl⟩, ⟨_, rfl⟩, by decide⟩
  obtain ⟨hparam, hreturn⟩ := classes_ne_of_wide harm henum (rfl : Classifier.armVfp.boundsEnums = true) (by decide)
  refine ⟨⟨.of .exchanging arm, ⟨12⟩, ⟨22⟩, harm, rfl, henum, ?_, ?_⟩, ?_⟩
  · exact fun h => hparam (Except.ok.inj h)
  · exact fun h => hreturn (Except.ok.inj h)
  · exact ⟨.exchanging, ⟨12⟩, ⟨22⟩, Target.supported_sample, rfl, isEnumOf_wide, by decide, by decide⟩

end MachineAbi
