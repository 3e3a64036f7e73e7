import MachineAbi.Proofs.Lowering.Answers
import MachineAbi.Proofs.Lowering.Slices
import MachineAbi.Proofs.Passing.Eightbytes

/-!
# Values behind a pointer and their machine types

Whether values of a type are handled through a pointer, and whether they are passed as one machine value, is decided by
the type alone, and so is its machine type. The three agree (`Lowering.isByReference_iff`):

* what is handled through a pointer is an array or a struct, and every other array or struct is a slice, or an optional
  or error union that is represented as one (`SealedPool.CollapsesToSlice`);
* what is passed as one machine value is not handled through a pointer, and is an integer, a float, a pointer or a
  vector.

Each is proved of the form of the type by induction on its parts, along the types that are represented as one of them.
-/

namespace MachineAbi

open Session

/-! ## Kinds of machine types -/

namespace MachineType

/-- Arrays and structs, named or not. -/
def isAggregate : MachineType → Bool
  | .array _ _ | .struct _ _ | .named _ => true
  | _ => false

/-- Integers, floats, pointers and vectors. -/
def isSingle : MachineType → Bool
  | .int _ | .float _ | .ptr _ | .vector _ _ => true
  | _ => false

end MachineType

namespace MachineTree

/-- Arrays and structs, named or not. -/
def isAggregate : MachineTree → Bool
  | .array _ _ | .struct _ _ | .named _ _ | .unknown _ => true
  | _ => false

/-- Integers, floats, pointers and vectors. -/
def isSingle : MachineTree → Bool
  | .int _ | .float _ | .ptr _ | .vector _ _ => true
  | _ => false

end MachineTree

/-- The machine type is a struct of a pointer and of an integer as wide as a pointer, which is the length. -/
def Table.IsSlice (table : Table) (T : Target) (h : Handle) : Prop :=
  ∃ ptr len space, table.HasFields h [ptr, len] ∧ table.get ptr = .ptr space ∧ table.get len = .int T.ptrBits

namespace Session

variable {P : SealedPool} {s : Session} {tree : MachineTree} {h : Handle}

theorem Shows.kind (hs : s.Shows P tree h) :
    (s.table.get h).isAggregate = tree.isAggregate ∧ (s.table.get h).isSingle = tree.isSingle := by
  cases tree with
  | void | int | float | ptr => simp only [Shows] at hs; rw [hs.get_eq]; exact ⟨rfl, rfl⟩
  | array | vector => obtain ⟨e, hs, -⟩ := hs; rw [hs.get_eq]; exact ⟨rfl, rfl⟩
  | struct => obtain ⟨hs', hs, -⟩ := hs; rw [hs.get_eq]; exact ⟨rfl, rfl⟩
  | named => obtain ⟨-, -, id, hs', hs, -⟩ := hs; rw [hs.get_eq]; exact ⟨rfl, rfl⟩
  | unknown => obtain ⟨-, -, id, hs⟩ := hs; rw [hs.get_eq]; exact ⟨rfl, rfl⟩
  | function => obtain ⟨r, ps, hs, -⟩ := hs; rw [hs.get_eq]; exact ⟨rfl, rfl⟩

end Session

/-! ## Slices inside optionals and error unions -/

/-- A slice, or an optional or error union that is represented as its payload, if that is one. -/
inductive SealedPool.CollapsesToSlice (P : SealedPool) : TypeId → Prop
  | slice {t : TypeId} {p : PointerTy} (hd : P.get t = .pointer p) (hp : p.isSlice = true) : P.CollapsesToSlice t
  | optional {t child : TypeId} (hd : P.get t = .optional child) (hr : P.optionalRepr child = .payload)
      (hc : P.CollapsesToSlice child) : P.CollapsesToSlice t
  | errorUnion {t set payload : TypeId} (hd : P.get t = .errorUnion set payload) (hset : P.takesRoom set = false)
      (hc : P.CollapsesToSlice payload) : P.CollapsesToSlice t

namespace SealedPool

variable {P : SealedPool} {t : TypeId}

theorem collapsesToSlice_iff :
    P.CollapsesToSlice t ↔
      match P.get t with
      | .pointer p => p.isSlice = true
      | .optional child => P.optionalRepr child = .payload ∧ P.CollapsesToSlice child
      | .errorUnion set payload => P.takesRoom set = false ∧ P.CollapsesToSlice payload
      | _ => False := by
  constructor
  · intro h
    cases h with
    | slice hd hp => rw [hd]; exact hp
    | optional hd hr hc => rw [hd]; exact ⟨hr, hc⟩
    | errorUnion hd hset hc => rw [hd]; exact ⟨hset, hc⟩
  · intro h
    split at h
    next hd => exact .slice hd h
    next hd => exact .optional hd h.1 h.2
    next hd => exact .errorUnion hd h.1 h.2
    next => exact h.elim

theorem CollapsesToSlice.takesRoom (h : P.CollapsesToSlice t) : P.takesRoom t = true := by
  induction h with
  | slice hd | optional hd => rw [P.takesRoom_eq, hd]
  | errorUnion hd _ _ ih => rw [P.takesRoom_eq, hd]; simp only [ih, Bool.or_true]

/-- What collapses to a slice is not handled through a pointer. -/
theorem CollapsesToSlice.isByReference (h : P.CollapsesToSlice t) : P.isByReference t = false := by
  induction h with
  | slice hd => rw [P.isByReference_eq, hd]
  | optional hd hr _ ih => rw [P.isByReference_eq, hd]; simp only [hr, ih]
  | errorUnion hd hset _ ih => rw [P.isByReference_eq, hd]; simp only [hset, ih, Bool.or_self, Bool.and_false]

/-- Only pointers and error sets have a value to spare. -/
theorem get_of_payload (h : P.optionalRepr t = .payload) :
    P.takesRoom t = true ∧ ((∃ p, P.get t = .pointer p) ∨ ∃ e, P.get t = .errorSet e) := by
  unfold optionalRepr at h
  split at h
  · refine ⟨‹_›, ?_⟩
    split at h
    · rename_i hnull
      unfold hasInBandNull at hnull
      cases hd : P.get t <;> rw [hd] at hnull <;> first | cases hnull | skip
      · exact Or.inl ⟨_, rfl⟩
      · exact Or.inr ⟨_, rfl⟩
    · cases h
  · cases h

/-- What is passed as one machine value is not handled through a pointer. -/
theorem isByReference_of_isScalar (h : P.isScalar t = true) : P.isByReference t = false := by
  unfold isScalar at h
  rw [P.isByReference_eq]
  cases hd : P.get t <;> rw [hd] at h <;> first | rfl | cases h | skip
  case optional child =>
    have hr : P.optionalRepr child = .payload := beq_iff_eq.1 (Bool.and_eq_true_iff.1 h).1
    obtain ⟨-, ⟨p, hc⟩ | ⟨e, hc⟩⟩ := get_of_payload hr <;> simp only [hr, P.isByReference_eq child, hc]
  case struct str => simp only [h, Bool.not_true, Bool.false_and]
  case union u => simp only [h, Bool.not_true, Bool.false_and]

end SealedPool

/-! ## Machine types of types -/

namespace Sizing

open SealedPool (mem_parts)

variable {Z : Sizing} {t : TypeId}

theorem floatTree_cases (T : Target) (bits : Nat) :
    (∃ width, T.floatTree bits = .int width) ∨ ∃ kind, T.floatTree bits = .float kind := by
  unfold Target.floatTree
  rcases floatType_cases T bits with ⟨width, h⟩ | ⟨kind, h⟩ <;> rw [h]
  · exact Or.inl ⟨_, rfl⟩
  · exact Or.inr ⟨_, rfl⟩

/-- The machine type of an enum is that of its tag, an integer. -/
theorem tree_of_enum (hI : Z.TagsAreIntegers) {name : String} {tag : TypeId} {variants : List String}
    (hd : Z.get t = .enum name tag variants) (ht : Z.takesRoom tag = true) :
    ∃ bits, Z.partTree t tag = .int bits := by
  obtain ⟨bits, sign, htag⟩ := hI t name tag variants hd
  refine ⟨bits, ?_⟩
  rw [partTree_of_mem (mem_parts hd (by simp [Ty.parts])), form_eq, formNew, htag]
  simp only [ht, if_true, Form.plain]

/-- Arrays and structs are the machine types of what is handled through a pointer, and of slices. -/
theorem isAggregate_form_iff (hI : Z.TagsAreIntegers) (t : TypeId) (ht : Z.takesRoom t = true) :
    (Z.form t).tree.isAggregate = true ↔ Z.isByReference t = true ∨ Z.CollapsesToSlice t := by
  induction t using Z.induction_on_parts with
  | step t ih =>
  have hpart : ∀ c, c ∈ Z.parts t → Z.takesRoom c = true →
      ((Z.partTree t c).isAggregate = true ↔ Z.isByReference c = true ∨ Z.CollapsesToSlice c) := fun c hc hr => by
    rw [partTree_of_mem hc]
    exact ih c hc hr
  have hroom := Z.takesRoom_eq t
  rw [form_eq, formNew, Z.isByReference_eq, SealedPool.collapsesToSlice_iff]
  simp only [ht, if_true] at hroom ⊢
  cases hd : Z.get t <;> rw [hd] at hroom <;> dsimp only at hroom ⊢
  case void | noreturn | comptime | opaqueType | function => cases hroom
  case bool | int | errorSet => simp [Form.plain, MachineTree.isAggregate]
  case float bits =>
    rcases floatTree_cases Z.target bits with ⟨width, h⟩ | ⟨kind, h⟩ <;>
      simp [Form.plain, h, MachineTree.isAggregate]
  case pointer p =>
    cases hp : p.isSlice <;> simp [Form.plain, MachineTree.isAggregate, sliceTree]
  case array len child sentinel =>
    obtain ⟨hn, hchild⟩ := Bool.and_eq_true_iff.1 hroom.symm
    have hn : elementCount len sentinel ≠ 0 := of_decide_eq_true hn
    simp [hn, hchild, Form.plain, MachineTree.isAggregate]
  case vector len child =>
    obtain ⟨hn, -⟩ := Bool.and_eq_true_iff.1 hroom.symm
    have hn : len ≠ 0 := of_decide_eq_true hn
    simp [hn, Form.plain, MachineTree.isAggregate]
  case optional child =>
    have hchild := Z.room_of_optionalRepr child
    unfold optionalForm
    cases hrepr : Z.optionalRepr child <;> rw [hrepr] at hchild
    · simp [Form.plain, MachineTree.isAggregate]
    · simpa [Form.plain] using hpart child (mem_parts hd (by simp [Ty.parts])) hchild
    · simp [Form.unnamed, MachineTree.isAggregate]
  case errorUnion set payload =>
    have hhalves := Z.room_of_errorUnionRepr set payload
    unfold errorUnionForm
    cases hrepr : Z.errorUnionRepr set payload <;> rw [hrepr] at hhalves <;>
      obtain ⟨hset, hpayload⟩ := Prod.mk.inj hhalves <;> simp only [hset, hpayload] at hroom ⊢
    · cases hroom
    · simpa [Form.plain] using hpart payload (mem_parts hd (by simp [Ty.parts])) hpayload
    · simp [Form.plain, MachineTree.isAggregate]
    · simp [Form.unnamed, MachineTree.isAggregate]
    · simp [Form.unnamed, MachineTree.isAggregate]
  case enum name tag variants =>
    obtain ⟨bits, htree⟩ := tree_of_enum hI hd hroom.symm
    simp [htree, Form.plain, MachineTree.isAggregate]
  case struct str => cases str.isPacked <;> simp [Form.plain, Form.named, MachineTree.isAggregate]
  case tuple fields => simp [Form.unnamed, MachineTree.isAggregate]
  case union u => cases u.isPacked <;> simp [Form.plain, Form.named, MachineTree.isAggregate]

/-- The machine type of what is passed as one machine value. -/
theorem isSingle_form_of_isScalar (hI : Z.TagsAreIntegers) (ht : Z.takesRoom t = true) (h : Z.isScalar t = true) :
    (Z.form t).tree.isSingle = true := by
  have hroom := Z.takesRoom_eq t
  unfold SealedPool.isScalar at h
  rw [form_eq, formNew]
  simp only [ht, if_true] at hroom ⊢
  cases hd : Z.get t <;> rw [hd] at hroom h <;> dsimp only at hroom h ⊢
  case void | noreturn | comptime | opaqueType | function | array | errorUnion | tuple => cases h
  case bool | int | errorSet => rfl
  case float bits =>
    rcases floatTree_cases Z.target bits with ⟨width, h⟩ | ⟨kind, h⟩ <;> rw [h] <;> rfl
  case pointer p =>
    rw [Bool.not_eq_true'] at h
    rw [h]
    rfl
  case vector len child =>
    obtain ⟨hn, -⟩ := Bool.and_eq_true_iff.1 hroom.symm
    rw [if_neg (of_decide_eq_true hn)]
    rfl
  case optional child =>
    obtain ⟨hr, hslice⟩ := Bool.and_eq_true_iff.1 h
    have hr : Z.optionalRepr child = .payload := beq_iff_eq.1 hr
    unfold optionalForm
    rw [hr]
    dsimp only
    rw [Form.plain, partTree_of_mem (mem_parts hd (by simp [Ty.parts])), form_eq, formNew]
    obtain ⟨hchild, ⟨p, hc⟩ | ⟨e, hc⟩⟩ := SealedPool.get_of_payload hr
    · have hp : p.isSlice = false := by simpa [Pool.isSlice, hc] using hslice
      rw [hc]
      simp only [hp]
      rfl
    · rw [hc]
      simp only [hchild, if_true]
      rfl
  case enum name tag variants =>
    obtain ⟨bits, htree⟩ := tree_of_enum hI hd hroom.symm
    rw [htree]
    rfl
  case struct str => rw [h]; rfl
  case union u => rw [h]; rfl

/-- What collapses to a slice has the machine type of a slice. -/
theorem exists_sliceTree (h : Z.CollapsesToSlice t) : ∃ u space, (Z.form t).tree = Z.sliceTree u space := by
  induction h with
  | @slice t p hd hp => exact ⟨t, p.addrSpace, tree_of_slice hd hp⟩
  | @optional t child hd hr _ ih =>
    obtain ⟨u, space, htree⟩ := ih
    refine ⟨u, space, ?_⟩
    rw [form_eq, formNew, hd]
    simp only [optionalForm, hr]
    rw [Form.plain, partTree_of_mem (mem_parts hd (by simp [Ty.parts])), htree]
  | @errorUnion t set payload hd hset hc ih =>
    obtain ⟨u, space, htree⟩ := ih
    refine ⟨u, space, ?_⟩
    have hrepr : Z.errorUnionRepr set payload = .payloadOnly := by
      rw [errorUnionRepr, hset, hc.takesRoom]
      rfl
    rw [form_eq, formNew, hd]
    simp only [errorUnionForm, hrepr]
    rw [Form.plain, partTree_of_mem (mem_parts hd (by simp [Ty.parts])), htree]

end Sizing

/-! ## Lowered types -/

namespace Lowering

variable {L : Lowering} {s : Session} {t : TypeId} {h : Handle}

theorem isSlice_of_shows (hT : L.target.Supported) (hc : L.CollapsesToSlice t)
    (hs : s.Shows L.toSealedPool (L.toSizing.form t).tree h) : s.table.IsSlice L.target h := by
  obtain ⟨u, space, htree⟩ := Sizing.exists_sliceTree hc
  obtain ⟨trees, heq, hfields⟩ := Sizing.sliceTree_eq hT u space
  rw [htree, heq] at hs
  obtain ⟨fields, hhas, hall⟩ := hs.hasFields
  rw [hfields] at hall
  match fields, hall with
  | [ptr, len], ⟨hptr, hlen, _⟩ => exact ⟨ptr, len, space, hhas, Table.Stores.get_eq hptr, Table.Stores.get_eq hlen⟩

/-- What is handled through a pointer is an array or a struct that is not a slice. What collapses to a slice is a struct
of a pointer and a length. What is passed as one machine value is an integer, a float, a pointer or a vector, and is not
handled through a pointer. -/
theorem isByReference_iff (hT : L.target.Supported) (hI : L.TagsAreIntegers) (hs : L.Reachable s)
    (ht : L.takesRoom t = true) :
    ∃ h s', (L.lower t).run.run s = (.ok h, s') ∧
      (L.isByReference t = true ↔ (s'.table.get h).isAggregate = true ∧ ¬L.CollapsesToSlice t) ∧
      (L.CollapsesToSlice t → L.isByReference t = false ∧ s'.table.IsSlice L.target h) ∧
      (L.isScalar t = true → L.isByReference t = false ∧ (s'.table.get h).isSingle = true) := by
  have hf : L.fnTy? t = none := Sizing.fnTy?_of_takesRoom ht
  obtain ⟨h, s', hrun, -, -, hshows⟩ := exists_lower hs.canonical hf
  rw [form_of_value hf] at hshows
  obtain ⟨haggregate, hsingle⟩ := hshows.kind
  refine ⟨h, s', hrun, ?_, fun hc => ⟨hc.isByReference, isSlice_of_shows hT hc hshows⟩, fun hscalar => ?_⟩
  · rw [haggregate, Sizing.isAggregate_form_iff hI t ht]
    constructor
    · intro href
      refine ⟨Or.inl href, fun hc => ?_⟩
      rw [hc.isByReference] at href
      cases href
    · rintro ⟨href | hc, hno⟩
      · exact href
      · exact absurd hc hno
  · rw [hsingle]
    exact ⟨SealedPool.isByReference_of_isScalar hscalar, Sizing.isSingle_form_of_isScalar hI ht hscalar⟩

/-- An error union over a union is a struct that is handled through a pointer; an enum is an integer that is not. -/
theorem isByReference_iff_sample :
    (∃ h s', ((⟨.sample, .standard⟩ : Lowering).lower ⟨24⟩).run.run .empty = (.ok h, s') ∧
      (s'.table.get h).isAggregate = true ∧ ¬Sizing.sample.CollapsesToSlice ⟨24⟩) ∧
    ∃ h s', ((⟨.sample, .standard⟩ : Lowering).lower ⟨22⟩).run.run .empty = (.ok h, s') ∧
      Sizing.sample.isByReference ⟨22⟩ = false ∧ (s'.table.get h).isSingle = true := by
  have hI : Sizing.sample.TagsAreIntegers := Sizing.plain_sample.tagsAreIntegers
  have hfacts : Sizing.sample.takesRoom ⟨24⟩ = true ∧ Sizing.sample.isByReference ⟨24⟩ = true ∧
      Sizing.sample.takesRoom ⟨22⟩ = true ∧ Sizing.sample.isScalar ⟨22⟩ = true := by
    decide +kernel
  obtain ⟨hroom, href, hroom', hscalar⟩ := hfacts
  obtain ⟨h, s', hrun, hiff, -, -⟩ := isByReference_iff (L := ⟨.sample, .standard⟩) (t := ⟨24⟩)
    Target.supported_sample hI .empty hroom
  obtain ⟨h', s'', hrun', -, -, hsingle⟩ := isByReference_iff (L := ⟨.sample, .standard⟩) (t := ⟨22⟩)
    Target.supported_sample hI .empty hroom'
  exact ⟨⟨h, s', hrun, hiff.1 href⟩, h', s'', hrun', hsingle hscalar⟩

end Lowering

end MachineAbi
