import MachineAbi.Proofs.Lowering.Answers
import MachineAbi.Proofs.Lowering.ByReference
import MachineAbi.Proofs.Lowering.Shapes
import MachineAbi.Proofs.Lowering.Splits

/-!
# Attributes are legal where they stand

Attributes follow from the type of the source, not from the machine type that they stand on. They suit it all the same
(`Lowering.exists_hasLegalAttrs`): only integers are extended, only pointers are known not to be null, to point at
something aligned, at a result or at a copy, and so on. A pointer of the source is known not to be null only if its type
says so.

Proof: what is extended has an integer as its machine type (`Sizing.tree_of_extension`), and what is passed as a pointer
has a pointer (`Sizing.tree_of_pointer`). Slices, which are structs, are passed in two parts or by their address, and no
part of a split value is one (`Sizing.fieldKind_of_split`).
-/

namespace MachineAbi

open Session

/-- Attributes that may stand on a machine value of a convention: an integer, a pointer, or neither. -/
structure LegalAttrs (cc : CallConv) (isInt isPtr : Prop) (flags : ParamFlags) (align : Option Nat)
    (hasPointee : Bool) : Prop where
  once : ¬(flags.signExt = true ∧ flags.zeroExt = true)
  int : flags.signExt = true ∨ flags.zeroExt = true → isInt ∧ cc ≠ .auto
  ptr : flags.nonNull = true ∨ flags.noAlias = true ∨ flags.readOnly = true ∨ flags.structRet = true ∨
    flags.byVal = true ∨ align.isSome = true → isPtr
  pointee : hasPointee = true ↔ flags.structRet = true ∨ flags.byVal = true

/-- The attributes may stand on an integer, on a pointer, or on neither. -/
def AttrSet.Legal (a : AttrSet) (cc : CallConv) (isInt isPtr : Prop) : Prop :=
  LegalAttrs cc isInt isPtr a.flags a.align a.pointee.isSome

/-- The attributes may stand on a machine value of this type. -/
def AttrSet.LegalOn (a : AttrSet) (cc : CallConv) (m : MachineType) : Prop :=
  a.Legal cc (∃ bits, m = .int bits) (∃ space, m = .ptr space)

/-- The attributes may stand on a machine value of this type. -/
def AttrForm.LegalOn (a : AttrForm) (cc : CallConv) (tree : MachineTree) : Prop :=
  LegalAttrs cc (∃ bits, tree = .int bits) (∃ space, tree = .ptr space) a.flags a.align a.pointee.isSome

/-- The source type that a slot carries a value of. -/
def Slot.source? : Slot → Option TypeId
  | .source t => some t
  | .int _ | .float _ | .floatVector _ _ | .intVector _ _ => none

/-- The source type of which machine parameter number `part` carries a value, where the source parameter has type `t`.
For the first part of a slice, this is the slice. -/
def ParamClass.carried? (t : TypeId) (part : Nat) : ParamClass → Option TypeId
  | .byValue => some t
  | .slice => if part = 0 then some t else none
  | .split slots => slots[part]?.bind Slot.source?
  | .widened slot => slot.source?
  | .noBits | .byReference _ _ | .abiSizedInt | .packedArray _ _ => none

/-! ## One set of attributes at a time -/

namespace AttrSet

variable {cc : CallConv} {isInt isPtr : Prop} {a : AttrSet}

theorem legal_none : none.Legal cc isInt isPtr := by
  constructor <;> simp [none, ofFlags, ParamFlags.none]

theorem legal_noUndef : noUndef.Legal cc isInt isPtr := by
  constructor <;> simp [noUndef, ofFlags, ParamFlags.none]

theorem legal_nonNull (h : isPtr) : nonNull.Legal cc isInt isPtr := by
  constructor <;> simp [nonNull, ofFlags, ParamFlags.none, h]

theorem legal_ofExtension {e : Option Signedness} (h : e.isSome = true → isInt ∧ cc ≠ .auto) :
    (ofExtension e).Legal cc isInt isPtr := by
  cases e with
  | none => exact legal_none
  | some sign =>
    have hint := h rfl
    cases sign <;> constructor <;> simp [ofExtension, ofFlags, ParamFlags.none, hint]

theorem legal_sret (l : Layout) (pointee : Handle) (h : isPtr) : (sret l pointee).Legal cc isInt isPtr := by
  constructor <;> simp [sret, ParamFlags.none, h]

theorem legal_byReference (l : Layout) (isMutable callerCopy : Bool) (pointee : Handle) (h : isPtr) :
    (byReference l isMutable callerCopy pointee).Legal cc isInt isPtr := by
  cases callerCopy <;> cases isMutable <;> constructor <;> simp [byReference, ParamFlags.none, h]

theorem Legal.withoutNonNull (h : a.Legal cc isInt isPtr) : a.withoutNonNull.Legal cc isInt isPtr := by
  refine ⟨h.once, h.int, fun hp => h.ptr ?_, h.pointee⟩
  rcases hp with hp | hp
  · cases hp
  · exact Or.inr hp

/-- Where nothing is pointed at, no result is returned. -/
theorem Legal.structRet_eq (h : a.Legal cc isInt isPtr) (hp : a.pointee = Option.none) : a.flags.structRet = false := by
  rw [← Bool.not_eq_true]
  intro hs
  have hsome := h.pointee.2 (Or.inl hs)
  rw [hp] at hsome
  cases hsome

theorem nonNull_ofExtension (e : Option Signedness) : (ofExtension e).flags.nonNull = false := by
  rcases e with _ | _ | _ <;> rfl

/-- With the pointee written out, the attributes are as legal as before. -/
theorem Legal.form {tree : MachineTree}
    (h : a.Legal cc (∃ bits, tree = .int bits) (∃ space, tree = .ptr space)) (pointee : MachineTree) :
    (a.form pointee).LegalOn cc tree := by
  have hsome : (a.form pointee).pointee.isSome = a.pointee.isSome := Option.isSome_map
  rw [AttrForm.LegalOn, hsome]
  exact h

end AttrSet

namespace Session

variable {P : SealedPool} {s : Session} {cc : CallConv}

theorem isSome_pointee_of_shows {f : AttrForm} {a : AttrSet} (h : s.ShowsAttrs P f a) :
    a.pointee.isSome = f.pointee.isSome := by
  have hp := h.pointee
  generalize f.pointee = x at hp ⊢
  generalize a.pointee = y at hp ⊢
  cases hp <;> rfl

/-- Attributes that may stand on a tree may stand on its handle. -/
theorem legalOn_of_shows {f : AttrForm} {a : AttrSet} {tree : MachineTree} {h : Handle} (ha : s.ShowsAttrs P f a)
    (hs : s.Shows P tree h) (hf : f.LegalOn cc tree) : a.LegalOn cc (s.table.get h) := by
  rw [AttrSet.LegalOn, AttrSet.Legal, ha.flags, ha.align, isSome_pointee_of_shows ha]
  refine ⟨hf.once, fun he => ?_, fun hp => ?_, hf.pointee⟩
  · obtain ⟨⟨bits, rfl⟩, hcc⟩ := hf.int he
    exact ⟨⟨bits, Table.Stores.get_eq hs⟩, hcc⟩
  · obtain ⟨space, rfl⟩ := hf.ptr hp
    exact ⟨space, Table.Stores.get_eq hs⟩

end Session

/-! ## Attributes of values -/

namespace Sizing

open SealedPool (mem_parts)

variable {Z : Sizing} {t : TypeId} {cc : CallConv}

/-- What the C conventions extend is an integer. -/
theorem tree_of_extension (hI : Z.TagsAreIntegers) (ht : Z.takesRoom t = true)
    (h : (Z.cExtension? t).isSome = true) : ∃ bits, (Z.form t).tree = .int bits := by
  have hroom := Z.takesRoom_eq t
  rw [cExtension?_eq] at h
  rw [form_eq, formNew]
  simp only [ht, if_true] at hroom ⊢
  cases hd : Z.get t <;> rw [hd] at h hroom <;> dsimp only at h hroom ⊢
  case bool | int | errorSet => exact ⟨_, rfl⟩
  case enum name tag variants =>
    obtain ⟨bits, htree⟩ := tree_of_enum hI hd hroom.symm
    exact ⟨bits, htree⟩
  all_goals cases h

theorem tree_of_pointer {p : PointerTy} (hd : Z.get t = .pointer p) (hp : p.isSlice = false) :
    (Z.form t).tree = .ptr p.addrSpace := by
  rw [form_eq, formNew, hd]
  simp [Form.plain, hp]

/-- An optional with a value of its payload to spare is represented as the payload. -/
theorem tree_of_payload {child : TypeId} (hd : Z.get t = .optional child) (hr : Z.optionalRepr child = .payload) :
    (Z.form t).tree = (Z.form child).tree := by
  rw [form_eq, formNew, hd]
  simp only [optionalForm, hr]
  exact partTree_of_mem (mem_parts hd (by simp [Ty.parts]))

theorem legal_extension (hI : Z.TagsAreIntegers) (ht : Z.takesRoom t = true) {isPtr : Prop} :
    (AttrSet.ofExtension (Z.extension? cc t)).Legal cc (∃ bits, (Z.form t).tree = .int bits) isPtr := by
  refine AttrSet.legal_ofExtension fun h => ?_
  unfold extension? at h
  split at h
  · cases h
  · exact ⟨tree_of_extension hI ht h, ‹_›⟩

theorem legal_pointerAttrs (p : PointerTy) (noalias : Bool) {isInt isPtr : Prop} (h : isPtr) :
    (Z.pointerAttrs p noalias).Legal cc isInt isPtr := by
  constructor <;> simp [pointerAttrs, ParamFlags.none, h]

theorem legal_byValueAttrs (hI : Z.TagsAreIntegers) (ht : Z.takesRoom t = true) (hs : Z.isOptionalSlice t = false)
    (cc : CallConv) (noalias : Bool) :
    (Z.byValueAttrs cc t noalias).Legal cc (∃ bits, (Z.form t).tree = .int bits)
      (∃ space, (Z.form t).tree = .ptr space) := by
  unfold byValueAttrs
  split
  next p hd =>
    split
    next => exact AttrSet.legal_none
    next hp => exact legal_pointerAttrs p noalias ⟨_, tree_of_pointer hd (by simpa using hp)⟩
  next child hd =>
    split
    next hr =>
      obtain ⟨hroom, hchild⟩ := SealedPool.get_of_payload hr
      rw [tree_of_payload hd hr]
      split
      next p hc =>
        have hp : p.isSlice = false := by simpa [Pool.isOptionalSlice, Pool.isSlice, hd, hc] using hs
        exact (legal_pointerAttrs p noalias ⟨_, tree_of_pointer hc hp⟩).withoutNonNull
      next => exact legal_extension hI hroom
    next => exact AttrSet.legal_none
  next => exact legal_extension hI ht

/-- A value is known not to be null only if it is a pointer that is never null. -/
theorem get_of_nonNull_byValue {noalias : Bool} (h : (Z.byValueAttrs cc t noalias).flags.nonNull = true) :
    ∃ q, Z.get t = .pointer q ∧ q.allowsZero = false := by
  unfold byValueAttrs at h
  split at h
  next p hd =>
    split at h
    next => cases h
    next => exact ⟨p, hd, by simpa [pointerAttrs] using h⟩
  next =>
    split at h
    next =>
      split at h
      next => cases h
      next =>
        rw [AttrSet.nonNull_ofExtension] at h
        cases h
    next => cases h
  next =>
    rw [AttrSet.nonNull_ofExtension] at h
    cases h

theorem legal_slicePointerAttrs (t : TypeId) (noalias : Bool) {isInt isPtr : Prop} (h : isPtr) :
    (Z.slicePointerAttrs t noalias).Legal cc isInt isPtr := by
  unfold slicePointerAttrs
  split
  next p _ => exact legal_pointerAttrs p noalias h
  next =>
    split
    next p _ => exact (legal_pointerAttrs p noalias h).withoutNonNull
    next => exact AttrSet.legal_none
  next => exact AttrSet.legal_none

theorem get_of_nonNull_slice {noalias : Bool} (h : (Z.slicePointerAttrs t noalias).flags.nonNull = true) :
    ∃ q, Z.get t = .pointer q ∧ q.allowsZero = false := by
  unfold slicePointerAttrs at h
  split at h
  next p hd => exact ⟨p, hd, by simpa [pointerAttrs] using h⟩
  next => split at h <;> cases h
  next => cases h

theorem legal_returnAttrs (hI : Z.TagsAreIntegers) (ht : Z.takesRoom t = true) (cc : CallConv) :
    (Z.returnAttrs cc t).Legal cc (∃ bits, (Z.form t).tree = .int bits) (∃ space, (Z.form t).tree = .ptr space) := by
  unfold returnAttrs
  split
  next p hd =>
    split
    next => exact AttrSet.legal_none
    next hp =>
      have hp : p.isSlice = false := by simp_all
      exact AttrSet.legal_nonNull ⟨_, tree_of_pointer hd hp⟩
  next => exact AttrSet.legal_none
  next => exact legal_extension hI ht

theorem get_of_nonNull_return (h : (Z.returnAttrs cc t).flags.nonNull = true) :
    ∃ q, Z.get t = .pointer q ∧ q.allowsZero = false := by
  unfold returnAttrs at h
  split at h
  next p hd =>
    split at h
    next => cases h
    next hp => exact ⟨p, hd, by simp_all⟩
  next => cases h
  next =>
    rw [AttrSet.nonNull_ofExtension] at h
    cases h

/-! ## Parts of split values -/

/-- A part of a split value that is passed as it is travels in a register of its own. -/
theorem fieldKind_of_split {c : Option Classifier} {slots : List Slot} {u : TypeId} (h : Z.paramClass c t = .split slots)
    (hu : .source u ∈ slots) : RiscV.fieldKind Z u ≠ .other := by
  obtain ⟨c, -, h⟩ := exists_classifyParam h
  have ints : ∀ {n bits : Nat}, .source u ∉ List.replicate n (Slot.int bits) := fun hm =>
    nomatch List.eq_of_mem_replicate hm
  cases c with
  | sysv =>
    simp only [Classifier.classifyParam, SysV.classifyParam] at h
    repeat' split at h
    all_goals cases h
    exact absurd rfl (SysV.ne_source_of_mem_slots hu u)
  | win64 =>
    simp only [Classifier.classifyParam, Win64.classifyParam] at h
    repeat' split at h
    all_goals cases h
  | aarch64 => exact absurd ((Aarch64.slots_of_split (Or.inl h)).1 ▸ hu) ints
  | armSoft | armVfp =>
    obtain ⟨-, n, bytes, rfl, -⟩ := Arm.slots_of_split (Or.inl h)
    exact absurd hu ints
  | riscv =>
    rcases RiscV.slots_of_split (Or.inl h) with ⟨rfl, -⟩ | hf
    · simp [RiscV.registerPair] at hu
    · obtain ⟨fields, -, hf⟩ := Option.bind_eq_some_iff.1 hf
      obtain ⟨⟨-, hno, -⟩, hslots⟩ := Option.ite_none_right_eq_some.1 hf
      rw [← Option.some.inj hslots] at hu
      obtain ⟨u', hmem, hu'⟩ := List.mem_map.1 hu
      obtain rfl := Slot.source.inj hu'
      exact fun ho => hno (ho ▸ List.mem_map_of_mem hmem)
  | wasm =>
    simp only [Classifier.classifyParam, Wasm.classifyParam] at h
    repeat' split at h
    all_goals cases h
  | generic => cases h

theorem isOptionalSlice_of_split {c : Option Classifier} {slots : List Slot} {u : TypeId}
    (h : Z.paramClass c t = .split slots) (hu : .source u ∈ slots) : Z.isOptionalSlice u = false := by
  have hkind := fieldKind_of_split h hu
  unfold RiscV.fieldKind at hkind
  unfold Pool.isOptionalSlice
  cases hd : Z.get u <;> rw [hd] at hkind
  case optional => exact absurd rfl hkind

theorem isOptionalSlice_of_byValue {c : Option Classifier} (h : Z.paramClass c t = .byValue) :
    Z.isOptionalSlice t = false := by
  unfold paramClass at h
  split at h
  · cases h
  · split at h
    · cases h
    · simp_all

end Sizing

/-! ## Machine parameters -/

namespace Lowering

variable {L : Lowering} {t : TypeId}

/-- The attributes of a machine parameter that is a part of source parameter `index`, of type `t`, are legal. -/
structure LegalPart (L : Lowering) (cc : CallConv) (t : TypeId) (c : ParamClass) (p : ParamForm) (part : Nat) :
    Prop where
  suits : p.attrs.LegalOn cc p.ty
  structRet : p.attrs.flags.structRet = false
  /-- What is known not to be null is an address of a value, or a pointer that is never null. -/
  nonNull : p.attrs.flags.nonNull = true → (∃ isMutable callerCopy, c = .byReference isMutable callerCopy) ∨
    ∃ u q, c.carried? t part = some u ∧ L.get u = .pointer q ∧ q.allowsZero = false
  readOnly : p.attrs.flags.readOnly = true → ∀ callerCopy, c ≠ .byReference true callerCopy

/-- Attributes of nothing in particular are legal. -/
theorem legalPart_of_flags {cc : CallConv} {c : ParamClass} {p : ParamForm} {part : Nat}
    (h : p.attrs.LegalOn cc p.ty) (hf : p.attrs.flags = { ParamFlags.none with noUndef := p.attrs.flags.noUndef }) :
    L.LegalPart cc t c p part := by
  refine ⟨h, by rw [hf]; rfl, fun hn => ?_, fun hr => ?_⟩
  · rw [hf] at hn
    cases hn
  · rw [hf] at hr
    cases hr

/-- A value that is passed as it is. -/
theorem legalPart_of_carried (hI : L.TagsAreIntegers) {cc : CallConv} {c : ParamClass} {part : Nat} {u : TypeId}
    {o : ParamOrigin} {noalias : Bool} (hu : L.takesRoom u = true) (hs : L.isOptionalSlice u = false)
    (hc : c.carried? t part = some u) (href : ∀ isMutable callerCopy, c ≠ .byReference isMutable callerCopy) :
    L.LegalPart cc t c ⟨L.valueTree u, o, (L.byValueAttrs cc u noalias).form .void⟩ part := by
  have hlegal := Sizing.legal_byValueAttrs hI hu hs cc noalias
  refine ⟨hlegal.form .void, hlegal.structRet_eq (L.pointee_byValueAttrs _ _ _), fun hn => Or.inr ?_, fun _ => href true⟩
  obtain ⟨q, hq, hz⟩ := Sizing.get_of_nonNull_byValue hn
  exact ⟨u, q, hc, hq, hz⟩

theorem legalPart_splitForm (hI : L.TagsAreIntegers) {c : Option Classifier} {cc : CallConv} {index part : Nat}
    {all slots : List Slot} (hall : L.paramClass c t = .split all) (hslots : ∀ k, slots[k]? = all[part + k]?) :
    ∀ p ∈ L.splitForm cc index part slots, ∃ part', p.origin = .source index part' ∧
      L.LegalPart cc t (.split all) p part' := by
  induction slots generalizing part with
  | nil => exact fun p hp => absurd hp List.not_mem_nil
  | cons slot slots ih =>
    have hslot : all[part]? = some slot := (hslots 0).symm
    have hrest : ∀ k, slots[k]? = all[part + 1 + k]? := fun k => by
      rw [Nat.add_assoc, Nat.add_comm 1 k]
      exact hslots (k + 1)
    refine List.forall_mem_cons.2 ⟨⟨part, rfl, ?_⟩, ih hrest⟩
    have hmem : slot ∈ all := List.mem_of_getElem? hslot
    cases slot with
    | source u =>
      have hstored := L.stored_paramClass c t
      rw [hall] at hstored
      refine legalPart_of_carried hI (hstored _ hmem) (Sizing.isOptionalSlice_of_split hall hmem) ?_ nofun
      rw [ParamClass.carried?, hslot]
      rfl
    | int | float | floatVector | intVector => exact legalPart_of_flags (AttrSet.legal_none.form .void) rfl

/-- Each machine parameter of a source parameter has legal attributes. -/
theorem legalPart_paramForm (hI : L.TagsAreIntegers) (c : Option Classifier) (f : FnTy) (index : Nat) (t : TypeId) :
    ∀ p ∈ L.paramForm f index t (L.paramClass c t), ∃ part, p.origin = .source index part ∧
      L.LegalPart f.cc t (L.paramClass c t) p part := by
  have hroom : L.paramClass c t ≠ .noBits → L.takesRoom t = true := Sizing.takesRoom_of_paramClass
  cases hcls : L.paramClass c t with
  | noBits => exact fun p hp => absurd hp List.not_mem_nil
  | byValue =>
    have ht : L.takesRoom t = true := hroom (hcls ▸ nofun)
    refine List.forall_mem_singleton.2 ⟨0, rfl, ?_⟩
    exact legalPart_of_carried hI ht (Sizing.isOptionalSlice_of_byValue hcls) rfl nofun
  | byReference isMutable callerCopy =>
    refine List.forall_mem_singleton.2 ⟨0, rfl, ?_, ?_, fun _ => Or.inl ⟨_, _, rfl⟩, ?_⟩
    · exact (AttrSet.legal_byReference _ _ _ _ ⟨0, rfl⟩).form _
    · cases callerCopy <;> cases isMutable <;> rfl
    · rintro hr callerCopy' ⟨⟩
      cases callerCopy <;> cases hr
  | split slots => exact legalPart_splitForm hI hcls fun k => by rw [Nat.zero_add]
  | slice =>
    refine List.forall_mem_cons.2 ⟨⟨0, rfl, ?_⟩, List.forall_mem_singleton.2 ⟨1, rfl, ?_⟩⟩
    · have hlegal : (L.slicePointerAttrs t (f.isNoalias index)).Legal f.cc
          (∃ bits, MachineTree.ptr (L.sliceSpace t) = .int bits)
          (∃ space, MachineTree.ptr (L.sliceSpace t) = .ptr space) :=
        Sizing.legal_slicePointerAttrs t _ ⟨_, rfl⟩
      refine ⟨hlegal.form .void, hlegal.structRet_eq (L.pointee_slicePointerAttrs _ _), fun hn => Or.inr ?_, nofun⟩
      obtain ⟨q, hq, hz⟩ := Sizing.get_of_nonNull_slice hn
      exact ⟨t, q, rfl, hq, hz⟩
    · exact legalPart_of_flags (AttrSet.legal_noUndef.form .void) rfl
  | abiSizedInt | widened | packedArray =>
    exact List.forall_mem_singleton.2 ⟨0, rfl, legalPart_of_flags (AttrSet.legal_none.form .void) rfl⟩

theorem legalPart_paramsForm (hI : L.TagsAreIntegers) (c : Option Classifier) (f : FnTy) (index : Nat)
    (ts : List TypeId) :
    ∀ p ∈ L.paramsForm c f index ts, ∃ i part t, p.origin = .source (index + i) part ∧ ts[i]? = some t ∧
      L.LegalPart f.cc t (L.paramClass c t) p part := by
  induction ts generalizing index with
  | nil => exact fun p hp => absurd hp List.not_mem_nil
  | cons t ts ih =>
    refine List.forall_mem_append.2 ⟨fun p hp => ?_, fun p hp => ?_⟩
    · obtain ⟨part, ho, hlegal⟩ := legalPart_paramForm hI c f index t p hp
      exact ⟨0, part, t, ho, rfl, hlegal⟩
    · obtain ⟨i, part, t', ho, ht', hlegal⟩ := ih (index + 1) p hp
      refine ⟨i + 1, part, t', ?_, ht', hlegal⟩
      rw [ho, Nat.add_assoc, Nat.add_comm 1 i]

/-! ## Signatures -/

/-- Hidden pointers have legal attributes, and that behind which a result is returned is known as such. -/
theorem legal_hidden (cc : CallConv) {f : FnTy} {c : ReturnClass} :
    ∀ p ∈ (L.returnForm f c).2.2 ++ L.errorTraceForm f, p.attrs.LegalOn cc p.ty ∧
      (p.attrs.flags.structRet = true ↔ p.origin = .returnPointer) := by
  refine List.forall_mem_append.2 ⟨?_, ?_⟩
  · unfold returnForm
    split
    case h_4 =>
      refine List.forall_mem_singleton.2 ⟨(AttrSet.legal_sret _ _ ⟨0, rfl⟩).form _, ?_⟩
      simp [AttrSet.form, AttrSet.sret]
    all_goals exact fun p hp => absurd hp List.not_mem_nil
  · unfold errorTraceForm
    split
    · refine List.forall_mem_singleton.2 ⟨(AttrSet.legal_nonNull ⟨0, rfl⟩).form _, ?_⟩
      simp [AttrSet.form, AttrSet.nonNull, AttrSet.ofFlags, ParamFlags.none]
    · exact fun p hp => absurd hp List.not_mem_nil

/-- Each machine parameter has legal attributes. -/
theorem legal_signatureForm (hI : L.TagsAreIntegers) (c : Option Classifier) (f : FnTy) :
    ∀ p ∈ (L.signatureForm c f).params, p.attrs.LegalOn f.cc p.ty ∧
      (p.attrs.flags.structRet = true ↔ p.origin = .returnPointer) ∧
      ∀ i part, p.origin = .source i part → ∃ t, f.params[i]? = some t ∧
        L.LegalPart f.cc t (L.paramClass c t) p part := by
  refine List.forall_mem_append.2 ⟨fun p hp => ?_, fun p hp => ?_⟩
  · obtain ⟨hlegal, hresult⟩ := legal_hidden f.cc p hp
    exact ⟨hlegal, hresult, fun i part ho => absurd ho (origin_ne_source_of_hidden hp i part)⟩
  · obtain ⟨i, part, t, ho, ht, hlegal⟩ := legalPart_paramsForm hI c f 0 f.params p hp
    refine ⟨hlegal.suits, ?_, fun i' part' ho' => ?_⟩
    · rw [hlegal.structRet, ho]
      exact ⟨nofun, nofun⟩
    · obtain ⟨hi, rfl⟩ := ParamOrigin.source.inj (ho.symm.trans ho')
      rw [Nat.zero_add] at hi
      exact ⟨t, hi ▸ ht, hlegal⟩

/-- A returned value has legal attributes. -/
theorem legal_returned (hI : L.TagsAreIntegers) (c : Option Classifier) (f : FnTy) :
    (L.returnForm f (L.returnClass c f.ret)).2.1.LegalOn f.cc (L.returnForm f (L.returnClass c f.ret)).1 ∧
      (L.returnForm f (L.returnClass c f.ret)).2.1.flags.structRet = false ∧
      ((L.returnForm f (L.returnClass c f.ret)).2.1.flags.nonNull = true →
        L.returnClass c f.ret = .byValue ∧ ∃ q, L.get f.ret = .pointer q ∧ q.allowsZero = false) := by
  have hroom : L.returnClass c f.ret ≠ .noBits → L.returnClass c f.ret ≠ .errorCode → L.takesRoom f.ret = true :=
    Sizing.takesRoom_of_returnClass
  unfold returnForm
  split
  case h_3 hcls =>
    have ht : L.takesRoom f.ret = true := hroom (hcls ▸ nofun) (hcls ▸ nofun)
    have hlegal := Sizing.legal_returnAttrs hI ht f.cc
    exact ⟨hlegal.form .void, hlegal.structRet_eq (L.pointee_returnAttrs _ _), fun hn =>
      ⟨hcls, Sizing.get_of_nonNull_return hn⟩⟩
  all_goals exact ⟨AttrSet.legal_none.form .void, rfl, nofun⟩

/-- The attributes of a signature are legal where they stand. -/
structure HasLegalAttrs (L : Lowering) (table : Table) (f : FnTy) (sig : Signature) : Prop where
  params : ∀ p ∈ sig.params, p.attrs.LegalOn f.cc (table.get p.ty)
  ret : sig.retAttrs.LegalOn f.cc (table.get sig.ret)
  /-- Only the hidden pointer to the result is marked as such. -/
  structRet : ∀ p ∈ sig.params, p.attrs.flags.structRet = true ↔ p.origin = .returnPointer
  structRet_ret : sig.retAttrs.flags.structRet = false
  /-- A part of a source parameter is known not to be null only if it is the address of the value, or if the source type
  that it carries is a pointer that is never null; and it is only read if the callee may not write to it. -/
  source : ∀ p ∈ sig.params, ∀ i part, p.origin = .source i part →
    ∃ t c, f.params[i]? = some t ∧ sig.paramClasses[i]? = some c ∧
      (p.attrs.flags.nonNull = true → (∃ isMutable callerCopy, c = .byReference isMutable callerCopy) ∨
        ∃ u q, c.carried? t part = some u ∧ L.get u = .pointer q ∧ q.allowsZero = false) ∧
      (p.attrs.flags.readOnly = true → ∀ callerCopy, c ≠ .byReference true callerCopy)
  nonNull_ret : sig.retAttrs.flags.nonNull = true →
    sig.returnClass = .byValue ∧ ∃ q, L.get f.ret = .pointer q ∧ q.allowsZero = false

/-- A signature that is that of its form has legal attributes. -/
theorem hasLegalAttrs_of_shows (hI : L.TagsAreIntegers) {s : Session} {c : Option Classifier} {f : FnTy} {sig : Signature}
    (h : s.ShowsSignature L.toSealedPool (L.signatureForm c f) sig) : L.HasLegalAttrs s.table f sig := by
  have hparam : ∀ p ∈ sig.params, ∃ pf ∈ (L.signatureForm c f).params, s.ShowsParam L.toSealedPool pf p :=
    fun p hp => exists_of_mem_right h.params hp
  obtain ⟨hret, hretStruct, hretNull⟩ := legal_returned hI c f
  refine ⟨fun p hp => ?_, legalOn_of_shows h.retAttrs h.ret hret, fun p hp => ?_, ?_, fun p hp i part ho => ?_, ?_⟩
  · obtain ⟨pf, hpf, hshows⟩ := hparam p hp
    exact legalOn_of_shows hshows.attrs hshows.ty (legal_signatureForm hI c f pf hpf).1
  · obtain ⟨pf, hpf, hshows⟩ := hparam p hp
    rw [hshows.attrs.flags, hshows.origin]
    exact (legal_signatureForm hI c f pf hpf).2.1
  · rw [h.retAttrs.flags]
    exact hretStruct
  · obtain ⟨pf, hpf, hshows⟩ := hparam p hp
    obtain ⟨t, ht, hlegal⟩ := (legal_signatureForm hI c f pf hpf).2.2 i part (hshows.origin ▸ ho)
    have hclass : sig.paramClasses[i]? = some (L.paramClass c t) := by
      have hclasses : sig.paramClasses = f.params.map (L.paramClass c) := h.paramClasses
      rw [hclasses, List.getElem?_map, ht]
      rfl
    rw [hshows.attrs.flags]
    exact ⟨t, _, ht, hclass, hlegal.nonNull, hlegal.readOnly⟩
  · have hclass : sig.returnClass = L.returnClass c f.ret := h.returnClass
    rw [h.retAttrs.flags, hclass]
    exact hretNull

/-- Every function type of a convention with a machine form gets a signature with legal attributes, in every session. -/
theorem exists_hasLegalAttrs (hI : L.TagsAreIntegers) {s : Session} (hs : L.Reachable s) {f : FnTy} (hf : f.cc ≠ .async) :
    ∃ sig s', (L.signature f).run.run s = (.ok sig, s') ∧ L.HasLegalAttrs s'.table f sig := by
  obtain ⟨c, hc⟩ := exists_classifier hf L.target
  obtain ⟨sig, s', hrun, -, hsig⟩ := exists_signature hs.canonical hc
  exact ⟨sig, s', hrun, hasLegalAttrs_of_shows hI hsig⟩

/-- The hidden pointer to the result of a function that can fail is marked as such, and it is a pointer. -/
theorem exists_hasLegalAttrs_fallible :
    ∃ sig s', ((⟨.sample, ⟨false, true⟩⟩ : Lowering).signature .fallible).run.run .empty = (.ok sig, s') ∧
      ∀ p ∈ sig.params, p.origin = .returnPointer →
        p.attrs.flags.structRet = true ∧ ∃ space, s'.table.get p.ty = .ptr space := by
  obtain ⟨sig, s', hrun, hlegal⟩ := exists_hasLegalAttrs (L := ⟨.sample, ⟨false, true⟩⟩) (f := .fallible)
    Sizing.plain_sample.tagsAreIntegers .empty (by decide)
  refine ⟨sig, s', hrun, fun p hp ho => ?_⟩
  have hresult := (hlegal.structRet p hp).2 ho
  exact ⟨hresult, (hlegal.params p hp).ptr (Or.inr (Or.inr (Or.inr (Or.inl hresult))))⟩

end Lowering

end MachineAbi
