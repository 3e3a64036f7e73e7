import MachineAbi.Proofs.Passing.MemberOrder

/-!
# Types with parts replaced

A type is replaced by another (`Sizing.Replaced`) on its own, or inside the types that are made of it. If values of the
one are stored like values of the other (`Sizing.Exchangeable`), so are the values that contain them:

* they take the same room (`Replaced.extent_eq`) and consist of the same floats (`Replaced.countAlike`);
* every convention passes and returns a type around a replaced one as it did before
  (`Sizing.classes_of_inStep`), with the new type in place of the old one where a part travels as its own machine type
  (`ParamClass.Corresponds`). Left to check are two questions that conventions ask about the parts themselves: the
  classes of eightbytes, and the fields that RISC-V passes on their own.
-/

namespace MachineAbi

open SealedPool

/-! ## The relation -/

/-- The type itself, what takes its place by `R`, or a type whose parts are replaced, one for one. -/
inductive Sizing.Replaced (Z : Sizing) (R : TypeId → TypeId → Prop) : TypeId → TypeId → Prop
  | refl (t : TypeId) : Replaced Z R t t
  | base {t t' : TypeId} (h : R t t') : Replaced Z R t t'
  | inStep {t t' : TypeId} {S : TypeId → TypeId → Prop} (hS : ∀ c c', S c c' → Replaced Z R c c')
      (h : Z.InStep S t t') : Replaced Z R t t'

/-- Types whose values are one word, or the two of a slice. -/
def SealedPool.isWord (P : SealedPool) (t : TypeId) : Bool :=
  match P.get t with
  | .int _ _ | .errorSet _ | .enum _ _ _ | .pointer _ => true
  | .optional child => P.optionalRepr child == .payload
  | _ => false

/-- Slices, and optionals of them. -/
def SealedPool.isSliced (P : SealedPool) (t : TypeId) : Bool := P.isSlice t || P.isOptionalSlice t

/-- Words that can take the place of each other: they take the same room, and none is a slice where the other is not. -/
structure Sizing.Exchangeable (Z : Sizing) (R : TypeId → TypeId → Prop) : Prop where
  words : ∀ t t', R t t' → Z.isWord t = true ∧ Z.isWord t' = true
  rooms : ∀ t t', R t t' → Z.takesRoom t = true ∧ Z.takesRoom t' = true
  extents : ∀ t t', R t t' → Z.extent t = Z.extent t'
  sliced : ∀ t t', R t t' → Z.isSliced t = Z.isSliced t'
  slices : ∀ t t', R t t' → Z.hasInBandNull t = Z.hasInBandNull t' → Z.isSlice t = false ∧ Z.isSlice t' = false

theorem Sizing.Exchangeable.of_imp {Z : Sizing} {R R' : TypeId → TypeId → Prop} (h : Z.Exchangeable R)
    (hR : ∀ t t', R' t t' → R t t') : Z.Exchangeable R' where
  words t t' ht := h.words t t' (hR t t' ht)
  rooms t t' ht := h.rooms t t' (hR t t' ht)
  extents t t' ht := h.extents t t' (hR t t' ht)
  sliced t t' ht := h.sliced t t' (hR t t' ht)
  slices t t' ht := h.slices t t' (hR t t' ht)

variable {Z : Sizing} {R S : TypeId → TypeId → Prop} {t t' : TypeId}

/-! ## Words -/

theorem hasInBandNull_of_optionalRepr {P : SealedPool} {child : TypeId} (h : P.optionalRepr child = .payload) :
    P.hasInBandNull child = true := by
  unfold optionalRepr at h
  split at h
  · split at h
    · assumption
    · cases h
  · cases h

theorem isByReference_of_hasInBandNull {P : SealedPool} (h : P.hasInBandNull t = true) : P.isByReference t = false := by
  unfold hasInBandNull at h
  rw [P.isByReference_eq]
  split at h
  · simp_all
  · simp_all
  · cases h

theorem isByReference_of_isWord {P : SealedPool} (h : P.isWord t = true) : P.isByReference t = false := by
  unfold isWord at h
  rw [P.isByReference_eq]
  split at h
  case h_5 child hd =>
    have hrepr : P.optionalRepr child = .payload := by simpa using h
    simp only [hd, hrepr]
    exact isByReference_of_hasInBandNull (hasInBandNull_of_optionalRepr hrepr)
  case h_6 => cases h
  all_goals simp_all

theorem isScalar_of_isWord {P : SealedPool} (h : P.isWord t = true) : P.isScalar t = !P.isSliced t := by
  unfold isWord at h
  unfold isSliced isScalar Pool.isSlice Pool.isOptionalSlice
  split at h
  all_goals simp_all [Pool.isSlice]

theorem Wasm.onlyMember?_of_isWord (h : Z.isWord t = true) : onlyMember? Z t = none := by
  unfold isWord at h
  unfold onlyMember?
  split at h
  all_goals simp_all

namespace Sizing

/-- A word is no float, and contains none. -/
theorem countFloats_of_isWord (h : Z.isWord t = true) (hr : Z.takesRoom t = true) (limit : Nat)
    (seen : Option FloatKind) : Z.countFloats limit seen t = none := by
  have hkind : Z.floatKind? t = none := by
    unfold isWord at h
    unfold floatKind?
    split at h
    all_goals simp_all
  have hparts : Z.floatParts? limit t = none := by
    unfold isWord at h
    unfold floatParts?
    split at h
    all_goals simp_all
  rw [Z.countFloats_eq, if_pos hr, hkind, hparts]

namespace Replaced

/-! ## What is stored -/

theorem cases (h : Z.Replaced R t t') : t = t' ∨ R t t' ∨ Z.InStep (Z.Replaced R) t t' := by
  cases h with
  | refl => exact Or.inl rfl
  | base h => exact Or.inr (Or.inl h)
  | inStep hS h => exact Or.inr (Or.inr (h.mono hS))

section

variable (hR : Z.Exchangeable R) (h : Z.Replaced R t t')

include hR h

theorem takesRoom_eq : Z.takesRoom t = Z.takesRoom t' := by
  induction h with
  | refl t => rfl
  | @base t t' h => rw [(hR.rooms t t' h).1, (hR.rooms t t' h).2]
  | inStep _ h ih => exact h.takesRoom_eq ih

theorem extent_eq : Z.extent t = Z.extent t' := by
  induction h with
  | refl t => rfl
  | @base t t' h => exact hR.extents t t' h
  | inStep hS h ih => exact h.extent_eq (fun c c' hc => (hS c c' hc).takesRoom_eq hR) ih

theorem layout_eq : Z.layout t = Z.layout t' := congrArg Extent.layout (h.extent_eq hR)

theorem isSlice_eq (hnull : Z.hasInBandNull t = Z.hasInBandNull t') : Z.isSlice t = Z.isSlice t' := by
  rcases h.cases with rfl | h | h
  · rfl
  · rw [(hR.slices t t' h hnull).1, (hR.slices t t' h hnull).2]
  · exact h.isSlice_eq

theorem isSliced_eq : Z.isSliced t = Z.isSliced t' := by
  rcases h.cases with rfl | h | h
  · rfl
  · exact hR.sliced t t' h
  · rw [isSliced, isSliced, h.isSlice_eq, h.isOptionalSlice_eq fun c c' hc hnull => hc.isSlice_eq hR hnull]

theorem isScalar_eq : Z.isScalar t = Z.isScalar t' := by
  rcases h.cases with rfl | h | h
  · rfl
  · obtain ⟨ht, ht'⟩ := hR.words t t' h
    rw [isScalar_of_isWord ht, isScalar_of_isWord ht', hR.sliced t t' h]
  · exact h.isScalar_eq (fun c c' hc => hc.takesRoom_eq hR) fun c c' hc hnull => hc.isSlice_eq hR hnull

theorem isByReference_eq : Z.isByReference t = Z.isByReference t' := by
  induction h with
  | refl t => rfl
  | @base t t' h =>
    obtain ⟨ht, ht'⟩ := hR.words t t' h
    rw [isByReference_of_isWord ht, isByReference_of_isWord ht']
  | inStep hS h ih => exact h.isByReference_eq (fun c c' hc => (hS c c' hc).takesRoom_eq hR) ih

theorem countAlike (limit : Nat) : Z.CountAlike limit t t' := by
  induction h with
  | refl t => exact fun seen => rfl
  | @base t t' h =>
    obtain ⟨ht, ht'⟩ := hR.words t t' h
    obtain ⟨hr, hr'⟩ := hR.rooms t t' h
    intro seen
    rw [countFloats_of_isWord ht hr, countFloats_of_isWord ht' hr']
  | inStep hS h ih =>
    exact h.countAlike (fun c c' hc => (hS c c' hc).takesRoom_eq hR) (fun c c' hc => (hS c c' hc).layout_eq hR) ih

/-- Only a word that is replaced itself can become an error type or stop being one. -/
theorem isErrorType_eq (hno : Z.takesRoom t = false ∨ Z.isByReference t = true) :
    Z.isErrorType t = Z.isErrorType t' := by
  rcases h.cases with rfl | h | h
  · rfl
  · rw [(hR.rooms t t' h).1, isByReference_of_isWord (hR.words t t' h).1] at hno
    simp at hno
  · exact h.isErrorType_eq

end

end Replaced

end Sizing

/-! ## Eightbytes -/

namespace SysV.Eightbytes

theorem putScalar?_inStep (h : Z.InStep S t t') (hlayout : Z.layout t = Z.layout t') (offset : Nat) (e : Eightbytes) :
    e.putScalar? Z offset t = e.putScalar? Z offset t' := by
  unfold putScalar?
  cases h with
  | pointer hd hd' =>
    simp only [hd, hd', hlayout]
    rfl
  | struct hd hd' hs | union hd hd' hs => simp only [hd, hd', hlayout, hs]
  | array hd hd' | optional hd hd' | errorUnion hd hd' | tuple hd hd' => simp only [hd, hd']

theorem foldl_classifyWithin {n : Nat} {ms ms' : List Member}
    (h : List.Forall₂ (Sizing.MembersInStep fun c c' => classifyWithin Z n c = classifyWithin Z n c') ms ms')
    (offset : Nat) (e : Eightbytes) :
    ms.foldl (fun e m => classifyWithin Z n m.ty (offset + m.offset) e) e =
      ms'.foldl (fun e m => classifyWithin Z n m.ty (offset + m.offset) e) e := by
  induction h generalizing e with
  | nil => rfl
  | @cons m m' ms ms' hm _ ih =>
    rw [List.foldl_cons, List.foldl_cons, hm.1, hm.2]
    exact ih _

/-- Types in step classify eightbytes alike, if their parts do with one level less. -/
theorem classifyWithin_inStep (hR : Z.Exchangeable R) (h : Z.InStep S t t') (hrefl : ∀ c, S c c)
    (hS : ∀ c c', S c c' → Z.Replaced R c c') {n : Nat}
    (hparts : ∀ c c', S c c' → classifyWithin Z n c = classifyWithin Z n c') :
    classifyWithin Z (n + 1) t = classifyWithin Z (n + 1) t' := by
  have hlayout := (Sizing.Replaced.inStep hS h).layout_eq hR
  have hmembers := h.members hrefl (fun c c' hc => (hS c c' hc).takesRoom_eq hR) fun c c' hc =>
    (hS c c' hc).layout_eq hR
  funext offset e
  rw [classifyWithin, classifyWithin, putScalar?_inStep h hlayout]
  split
  · rfl
  · exact foldl_classifyWithin (hmembers.imp fun m m' hm => ⟨hparts _ _ hm.1, hm.2⟩) offset e

/-- Replaced parts that classify eightbytes alike, with any number of levels, do so inside any type. -/
theorem classifyWithin_replaced (hR : Z.Exchangeable R)
    (hbase : ∀ n t t', R t t' → classifyWithin Z n t = classifyWithin Z n t') (n : Nat) (h : Z.Replaced R t t') :
    classifyWithin Z n t = classifyWithin Z n t' := by
  induction n generalizing t t' with
  | zero => rfl
  | succ n ih =>
    rcases h.cases with rfl | h | h
    · rfl
    · exact hbase (n + 1) t t' h
    · exact classifyWithin_inStep hR h .refl (fun _ _ hc => hc) fun c c' => ih

/-- Where members nest, it is enough that they do so with all levels that there are. -/
theorem classify_replaced (hE : Z.ErrorsAreCodes) (hR : Z.Exchangeable R)
    (hbase : ∀ t t', R t t' → classifyWithin Z (Z.size + 1) t = classifyWithin Z (Z.size + 1) t')
    (h : Z.Replaced R t t') : classifyWithin Z (Z.size + 1) t = classifyWithin Z (Z.size + 1) t' := by
  have hlevels : ∀ c, classifyWithin Z (Z.size + 1) c = classifyWithin Z (Z.size + 2) c := fun c =>
    have hle := Z.levels_le Z.rank c
    classifyWithin_eq (Sizing.membersNest_rank hE) (by omega) (by omega)
  induction h with
  | refl t => rfl
  | @base t t' h => exact hbase t t' h
  | @inStep t t' S hS h ih =>
    have hboth : Z.InStep (fun c c' => Z.Replaced R c c' ∧
        classifyWithin Z (Z.size + 1) c = classifyWithin Z (Z.size + 1) c') t t' :=
      h.mono fun c c' hc => ⟨hS c c' hc, ih c c' hc⟩
    rw [hlevels t, hlevels t']
    exact classifyWithin_inStep hR hboth (fun c => ⟨.refl c, rfl⟩) (fun c c' hc => hc.1) fun c c' hc => hc.2

theorem of?_eq (h : classifyWithin Z (Z.size + 1) t = classifyWithin Z (Z.size + 1) t')
    (hlayout : Z.layout t = Z.layout t') : of? Z t = of? Z t' := by
  rw [of?, of?, hlayout, classify, classify, h]

end SysV.Eightbytes

/-! ## Classes -/

/-- The same machine value, or values of related types. -/
inductive Slot.Corresponds (S : TypeId → TypeId → Prop) : Slot → Slot → Prop
  | refl (slot : Slot) : Corresponds S slot slot
  | source {t t' : TypeId} (h : S t t') : Corresponds S (.source t) (.source t')

/-- The same way of passing, by machine values that correspond. -/
inductive ParamClass.Corresponds (S : TypeId → TypeId → Prop) : ParamClass → ParamClass → Prop
  | refl (c : ParamClass) : Corresponds S c c
  | split {slots slots' : List Slot} (h : List.Forall₂ (Slot.Corresponds S) slots slots') :
      Corresponds S (.split slots) (.split slots')
  | widened {slot slot' : Slot} (h : slot.Corresponds S slot') : Corresponds S (.widened slot) (.widened slot')

/-- The same way of returning, by machine values that correspond. -/
inductive ReturnClass.Corresponds (S : TypeId → TypeId → Prop) : ReturnClass → ReturnClass → Prop
  | refl (c : ReturnClass) : Corresponds S c c
  | split {slots slots' : List Slot} (h : List.Forall₂ (Slot.Corresponds S) slots slots') :
      Corresponds S (.split slots) (.split slots')
  | widened {slot slot' : Slot} (h : slot.Corresponds S slot') : Corresponds S (.widened slot) (.widened slot')

theorem ParamClass.Corresponds.of_eq {c c' : ParamClass} (h : c = c') : c.Corresponds S c' := h ▸ .refl c

theorem ReturnClass.Corresponds.of_eq {c c' : ReturnClass} (h : c = c') : c.Corresponds S c' := h ▸ .refl c

theorem not_float_of_inStep (h : Z.InStep S t t') (bits : Nat) : Z.get t ≠ .float bits ∧ Z.get t' ≠ .float bits := by
  cases h with
  | pointer hd hd' | array hd hd' | optional hd hd' | errorUnion hd hd' | struct hd hd' | tuple hd hd' | union hd hd' =>
    simp [hd, hd']

theorem Win64.kind_inStep (h : Z.InStep S t t') (hlayout : Z.layout t = Z.layout t') : kind Z t = kind Z t' := by
  unfold kind
  cases h with
  | struct hd hd' hs | union hd hd' hs => simp only [hd, hd', hs, hlayout]
  | pointer hd hd' | array hd hd' | optional hd hd' | errorUnion hd hd' | tuple hd hd' => simp only [hd, hd', hlayout]

theorem Aarch64.kind_inStep (h : Z.InStep S t t') (hscalar : Z.isScalar t = Z.isScalar t')
    (hlayout : Z.layout t = Z.layout t') (hfloats : ∀ limit, Z.CountAlike limit t t') : kind Z t = kind Z t' := by
  unfold kind
  rw [hscalar, hlayout, Sizing.homogeneousFloats?_eq hfloats]
  cases h with
  | pointer hd hd' | array hd hd' | optional hd hd' | errorUnion hd hd' | struct hd hd' | tuple hd hd' | union hd hd' =>
    simp only [hd, hd']

namespace Arm

theorem kind_inStep (h : Z.InStep S t t') (hscalar : Z.isScalar t = Z.isScalar t') (hextent : Z.extent t = Z.extent t')
    (hfloats : ∀ limit, Z.CountAlike limit t t') (hardFloat isReturn : Bool) :
    kind Z hardFloat isReturn t = kind Z hardFloat isReturn t' := by
  have haggregate : aggregateKind Z hardFloat t = aggregateKind Z hardFloat t' := by
    rw [aggregateKind, aggregateKind, Sizing.layout, Sizing.layout, hextent, Sizing.homogeneousFloats?_eq hfloats]
  unfold kind
  rw [hscalar, haggregate, Sizing.packedWidth, Sizing.packedWidth, hextent]
  cases h with
  | struct hd hd' hs | union hd hd' hs => simp only [hd, hd', hs]
  | pointer hd hd' | array hd hd' | optional hd hd' | errorUnion hd hd' | tuple hd hd' => simp only [hd, hd']

theorem widenedHalf?_inStep (h : Z.InStep S t t') : widenedHalf? Z t = widenedHalf? Z t' := by
  obtain ⟨ht, ht'⟩ := not_float_of_inStep h 16
  rw [widenedHalf?, widenedHalf?, if_neg (fun hf => ht hf.1), if_neg fun hf => ht' hf.1]

end Arm

/-! ## Fields on their own -/

namespace RiscV

theorem widenedHalf?_inStep (h : Z.InStep S t t') : widenedHalf? Z t = widenedHalf? Z t' := by
  obtain ⟨ht, ht'⟩ := not_float_of_inStep h 16
  rw [widenedHalf?, widenedHalf?, if_neg (fun hf => ht hf.1), if_neg fun hf => ht' hf.1]

theorem storedFields?_inStep (h : Z.InStep S t t') (hroom : ∀ c c', S c c' → Z.takesRoom c = Z.takesRoom c') :
    Option.Rel (List.Forall₂ S) (storedFields? Z t) (storedFields? Z t') := by
  unfold storedFields?
  cases h with
  | struct hd hd' hs h =>
    simp only [hd, hd', hs]
    split
    · exact .none
    · exact .some (forall₂_filter h hroom)
  | tuple hd hd' h =>
    simp only [hd, hd']
    exact .some (forall₂_filter h hroom)
  | pointer hd hd' | array hd hd' | optional hd hd' | errorUnion hd hd' | union hd hd' =>
    simp only [hd, hd']
    exact .none

/-- Fields in step travel on their own alike. -/
theorem fieldKind_inStep (h : Z.InStep S t t') : fieldKind Z t = fieldKind Z t' := by
  unfold fieldKind
  cases h with
  | pointer hd hd' =>
    simp only [hd, hd']
    rfl
  | array hd hd' | optional hd hd' | errorUnion hd hd' | struct hd hd' | tuple hd hd' | union hd hd' =>
    simp only [hd, hd']

theorem floatFields?_eq_some {slots : List Slot} (h : floatFields? Z t = some slots) :
    ∃ fields, storedFields? Z t = some fields ∧ slots = fields.map .source := by
  obtain ⟨fields, hfields, h⟩ := Option.bind_eq_some_iff.1 h
  refine ⟨fields, hfields, ?_⟩
  dsimp only at h
  split at h
  · exact (Option.some.inj h).symm
  · cases h

/-- Fields that travel on their own in both types do so side by side. -/
theorem floatFields?_inStep (h : Z.InStep S t t') (hroom : ∀ c c', S c c' → Z.takesRoom c = Z.takesRoom c')
    (hsome : (floatFields? Z t).isSome = (floatFields? Z t').isSome) :
    Option.Rel (List.Forall₂ (Slot.Corresponds S)) (floatFields? Z t) (floatFields? Z t') := by
  have hstored := storedFields?_inStep h hroom
  cases hf : floatFields? Z t with
  | none =>
    rw [hf] at hsome
    cases hf' : floatFields? Z t' with
    | none => exact .none
    | some slots' => simp [hf'] at hsome
  | some slots =>
    rw [hf] at hsome
    cases hf' : floatFields? Z t' with
    | none => simp [hf'] at hsome
    | some slots' =>
      obtain ⟨fields, hfields, rfl⟩ := floatFields?_eq_some hf
      obtain ⟨fields', hfields', rfl⟩ := floatFields?_eq_some hf'
      rw [hfields, hfields'] at hstored
      cases hstored with
      | some hstep =>
        refine .some ?_
        rw [List.forall₂_map_left_iff, List.forall₂_map_right_iff]
        exact hstep.imp fun c c' hc => .source hc

/-- Whether fields of these kinds travel on their own. -/
def travelApart (kinds : List FieldKind) : Bool := kinds.length ≤ 2 ∧ .other ∉ kinds ∧ .float ∈ kinds

theorem isSome_floatFields? (Z : Sizing) (t : TypeId) :
    (floatFields? Z t).isSome = (storedFields? Z t).any fun fields => travelApart (fields.map (fieldKind Z)) := by
  unfold floatFields?
  cases storedFields? Z t with
  | none => rfl
  | some fields =>
    simp only [Option.bind_eq_bind, Option.bind_some, Option.any_some, travelApart, List.length_map]
    split
    · rename_i h
      exact (decide_eq_true h).symm
    · rename_i h
      exact (decide_eq_false h).symm

/-- Whether the fields of a type travel on their own stays the same, if it does for the fields that are replaced. -/
theorem isSome_floatFields?_replaced (hR : Z.Exchangeable R) (h : Z.Replaced R t t')
    (hapart : ∀ {fields fields' : List TypeId}, storedFields? Z t = some fields → storedFields? Z t' = some fields' →
      List.Forall₂ (Z.Replaced R) fields fields' →
      travelApart (fields.map (fieldKind Z)) = travelApart (fields'.map (fieldKind Z))) :
    (floatFields? Z t).isSome = (floatFields? Z t').isSome := by
  have hword : ∀ c, Z.isWord c = true → storedFields? Z c = none := by
    intro c hc
    unfold isWord at hc
    unfold storedFields?
    split at hc
    all_goals simp_all
  rw [isSome_floatFields?, isSome_floatFields?]
  rcases h.cases with rfl | hbase | hstep
  · rfl
  · obtain ⟨ht, ht'⟩ := hR.words t t' hbase
    rw [hword t ht, hword t' ht']
  · have hstored := storedFields?_inStep hstep fun c c' hc => hc.takesRoom_eq hR
    generalize storedFields? Z t = fields?, storedFields? Z t' = fields'? at hstored hapart ⊢
    cases hstored with
    | none => rfl
    | some hfields => exact hapart rfl rfl hfields

/-- The fields of a type that travel on their own on this target. -/
def ownFields? (Z : Sizing) (t : TypeId) : Option (List Slot) :=
  if Z.target.features.riscvD then floatFields? Z t else none

theorem kind_of_ownFields {slots : List Slot} (h : ownFields? Z t = some slots) : kind Z t = .fields slots := by
  have hstored : ∃ fields, storedFields? Z t = some fields := by
    unfold ownFields? at h
    split at h
    · obtain ⟨fields, hfields, -⟩ := floatFields?_eq_some h
      exact ⟨fields, hfields⟩
    · cases h
  obtain ⟨fields, hfields⟩ := hstored
  unfold ownFields? at h
  unfold storedFields? at hfields
  unfold kind
  rw [h]
  split at hfields
  · split at hfields
    · cases hfields
    · rename_i s hd hs
      simp [hd, hs, SealedPool.isScalar]
  · rename_i fields hd
    simp [hd, SealedPool.isScalar]
  · cases hfields

theorem kind_inStep (h : Z.InStep S t t') (hscalar : Z.isScalar t = Z.isScalar t') (hextent : Z.extent t = Z.extent t')
    (hnone : ownFields? Z t = none) (hnone' : ownFields? Z t' = none) : kind Z t = kind Z t' := by
  have haggregate : aggregateKind Z t = aggregateKind Z t' := by
    rw [aggregateKind, aggregateKind, Sizing.layout, Sizing.layout, hextent]
  unfold ownFields? at hnone hnone'
  unfold kind
  rw [hscalar, haggregate, Sizing.packedWidth, Sizing.packedWidth, hextent, hnone, hnone']
  cases h with
  | struct hd hd' hs | union hd hd' hs => simp only [hd, hd', hs]
  | pointer hd hd' | array hd hd' | optional hd hd' | errorUnion hd hd' | tuple hd hd' => simp only [hd, hd']

end RiscV

/-! ## The only member -/

namespace Wasm

theorem onlyMember?_inStep (h : Z.InStep S t t') (hroom : ∀ c c', S c c' → Z.takesRoom c = Z.takesRoom c') :
    Option.Rel S (onlyMember? Z t) (onlyMember? Z t') := by
  unfold onlyMember?
  cases h with
  | struct hd hd' hs h =>
    simp only [hd, hd', hs]
    split
    · exact .none
    · exact theOnly?_inStep h hroom
  | tuple hd hd' h =>
    simp only [hd, hd']
    exact theOnly?_inStep h hroom
  | @union u u' hd hd' _ htag h =>
    have hstores : Z.storesTag u = Z.storesTag u' := by
      rw [storesTag, storesTag, Sizing.storedTag?_eq htag h.length_eq]
    simp only [hd, hd', hstores]
    split
    · exact .none
    · exact theOnly?_inStep h hroom
  | pointer hd hd' | array hd hd' | optional hd hd' | errorUnion hd hd' =>
    simp only [hd, hd']
    exact .none

theorem direct?_of_isScalar (h : Z.isScalar t = true) : direct? Z t = some t := by
  rw [direct?_eq, if_pos h]

theorem direct?_of_not_isScalar (h : Z.isScalar t = false) :
    direct? Z t =
      (onlyMember? Z t).bind fun c => if (Z.layout c).size = (Z.layout t).size then direct? Z c else none := by
  rw [direct?_eq, if_neg (by simp [h])]

/-- What travels directly is replaced as the whole is. -/
theorem direct?_replaced (hR : Z.Exchangeable R) (h : Z.Replaced R t t') :
    Option.Rel (Z.Replaced R) (direct? Z t) (direct? Z t') := by
  induction h with
  | refl t =>
    cases direct? Z t with
    | none => exact .none
    | some c => exact .some (.refl c)
  | @base t t' h =>
    have hscalar := (Sizing.Replaced.base h).isScalar_eq hR
    obtain ⟨ht, ht'⟩ := hR.words t t' h
    cases hs : Z.isScalar t with
    | true =>
      rw [direct?_of_isScalar hs, direct?_of_isScalar (hscalar.symm.trans hs)]
      exact .some (.base h)
    | false =>
      rw [direct?_of_not_isScalar hs, direct?_of_not_isScalar (hscalar.symm.trans hs), onlyMember?_of_isWord ht,
        onlyMember?_of_isWord ht']
      exact .none
  | @inStep t t' S hS h ih =>
    have hwhole := Sizing.Replaced.inStep hS h
    have hscalar := hwhole.isScalar_eq hR
    cases hs : Z.isScalar t with
    | true =>
      rw [direct?_of_isScalar hs, direct?_of_isScalar (hscalar.symm.trans hs)]
      exact .some hwhole
    | false =>
      have honly := onlyMember?_inStep h fun c c' hc => (hS c c' hc).takesRoom_eq hR
      rw [direct?_of_not_isScalar hs, direct?_of_not_isScalar (hscalar.symm.trans hs), hwhole.layout_eq hR]
      generalize onlyMember? Z t = c?, onlyMember? Z t' = c'? at honly ⊢
      cases honly with
      | none => exact .none
      | @some c c' hc =>
        simp only [Option.bind_some, (hS c c' hc).layout_eq hR]
        split
        · exact ih c c' hc
        · exact .none

theorem classify_replaced (hR : Z.Exchangeable R) (h : Z.Replaced R t t') :
    (classifyParam Z t).Corresponds (Z.Replaced R) (classifyParam Z t') ∧
      (classifyReturn Z t).Corresponds (Z.Replaced R) (classifyReturn Z t') := by
  have hscalar := h.isScalar_eq hR
  unfold classifyParam classifyReturn
  cases hs : Z.isScalar t with
  | true =>
    rw [direct?_of_isScalar hs, direct?_of_isScalar (hscalar.symm.trans hs)]
    simp only [if_true]
    exact ⟨.refl _, .refl _⟩
  | false =>
    have hne : ∀ {a c : TypeId}, Z.isScalar a = false → Z.isScalar c = true → c ≠ a := by
      rintro a c ha hc rfl
      rw [ha] at hc
      cases hc
    have hdirect := direct?_replaced hR h
    generalize hc : direct? Z t = c?, hc' : direct? Z t' = c'? at hdirect ⊢
    cases hdirect with
    | none => exact ⟨.refl _, .refl _⟩
    | some hreplaced =>
      simp only [if_neg (hne hs (isScalar_of_direct hc)), if_neg (hne (hscalar.symm.trans hs) (isScalar_of_direct hc'))]
      exact ⟨.widened (.source hreplaced), .widened (.source hreplaced)⟩

end Wasm

/-! ## All conventions -/

/-- A convention finds the same in the parts of both types: System V the same eightbytes, and RISC-V fields to pass on
their own. -/
structure Sizing.PartsAgree (Z : Sizing) (c : Option Classifier) (t t' : TypeId) : Prop where
  eightbytes : c = some .sysv → Z.isScalar t = false → SysV.Eightbytes.of? Z t = SysV.Eightbytes.of? Z t'
  fields : c = some .riscv → Z.target.features.riscvD = true →
    (RiscV.floatFields? Z t).isSome = (RiscV.floatFields? Z t').isSome

theorem RiscV.classify_inStep (hR : Z.Exchangeable R) (h : Z.InStep (Z.Replaced R) t t')
    (hfields : Z.target.features.riscvD = true → (floatFields? Z t).isSome = (floatFields? Z t').isSome) :
    (classifyParam Z t).Corresponds (Z.Replaced R) (classifyParam Z t') ∧
      (classifyReturn Z t).Corresponds (Z.Replaced R) (classifyReturn Z t') := by
  have hroom : ∀ c c', Z.Replaced R c c' → Z.takesRoom c = Z.takesRoom c' := fun c c' hc => hc.takesRoom_eq hR
  have hwhole : Z.Replaced R t t' := .inStep (fun _ _ hc => hc) h
  have hown : Option.Rel (List.Forall₂ (Slot.Corresponds (Z.Replaced R))) (ownFields? Z t) (ownFields? Z t') := by
    unfold ownFields?
    split
    · rename_i hD
      exact floatFields?_inStep h hroom (hfields hD)
    · exact .none
  unfold classifyParam classifyReturn
  generalize hf : ownFields? Z t = fields?, hf' : ownFields? Z t' = fields'? at hown
  cases hown with
  | none =>
    rw [kind_inStep h (hwhole.isScalar_eq hR) (hwhole.extent_eq hR) hf hf', widenedHalf?_inStep h]
    exact ⟨.refl _, .refl _⟩
  | some hslots =>
    rw [kind_of_ownFields hf, kind_of_ownFields hf']
    exact ⟨.split hslots, .split hslots⟩

/-- Types made of replaced parts are passed and returned alike. -/
theorem Classifier.classify_inStep (c : Classifier) (hR : Z.Exchangeable R) (h : Z.InStep (Z.Replaced R) t t')
    (hagree : Z.PartsAgree (some c) t t') :
    (c.classifyParam Z t).Corresponds (Z.Replaced R) (c.classifyParam Z t') ∧
      (c.classifyReturn Z t).Corresponds (Z.Replaced R) (c.classifyReturn Z t') := by
  have hwhole : Z.Replaced R t t' := .inStep (fun _ _ hc => hc) h
  have hscalar := hwhole.isScalar_eq hR
  have hextent := hwhole.extent_eq hR
  have hlayout := hwhole.layout_eq hR
  have hfloats := hwhole.countAlike hR
  unfold classifyParam classifyReturn
  cases c with
  | sysv =>
    have hclasses : SysV.classifyParam Z t = SysV.classifyParam Z t' ∧
        SysV.classifyReturn Z t = SysV.classifyReturn Z t' := by
      unfold SysV.classifyParam SysV.classifyReturn
      rw [← hscalar]
      cases hs : Z.isScalar t with
      | true => exact ⟨rfl, rfl⟩
      | false =>
        rw [hagree.eightbytes rfl hs]
        exact ⟨rfl, rfl⟩
    exact ⟨.of_eq hclasses.1, .of_eq hclasses.2⟩
  | win64 =>
    simp only [Win64.classifyParam, Win64.classifyReturn, Win64.kind_inStep h hlayout, hscalar]
    exact ⟨.refl _, .refl _⟩
  | aarch64 =>
    simp only [Aarch64.classifyParam, Aarch64.classifyReturn, Aarch64.kind_inStep h hscalar hlayout hfloats]
    exact ⟨.refl _, .refl _⟩
  | armSoft | armVfp =>
    simp only [Arm.classifyParam, Arm.classifyReturn, Arm.kind_inStep h hscalar hextent hfloats,
      Arm.widenedHalf?_inStep h]
    exact ⟨.refl _, .refl _⟩
  | riscv => exact RiscV.classify_inStep hR h (hagree.fields rfl)
  | wasm => exact Wasm.classify_replaced hR hwhole
  | generic => exact ⟨.refl _, .refl _⟩

/-- A convention that tells words apart by their kinds finds the same kind in both. -/
structure Sizing.KindsAgree (Z : Sizing) (c : Option Classifier) (t t' : TypeId) : Prop where
  win64 : c = some .win64 → Win64.kind Z t = Win64.kind Z t'
  arm : c = some .armSoft ∨ c = some .armVfp → ∀ hardFloat isReturn,
    Arm.kind Z hardFloat isReturn t = Arm.kind Z hardFloat isReturn t'
  riscv : c = some .riscv → RiscV.kind Z t = RiscV.kind Z t'

/-- Words that are scalars are passed and returned alike, if a convention finds them of one kind. -/
theorem Classifier.classify_words (c : Classifier) (ht : Z.isWord t = true) (ht' : Z.isWord t' = true)
    (hs : Z.isScalar t = true) (hs' : Z.isScalar t' = true) (hkinds : Z.KindsAgree (some c) t t') :
    c.classifyParam Z t = c.classifyParam Z t' ∧ c.classifyReturn Z t = c.classifyReturn Z t' := by
  have hplain : ∀ c, Z.isWord c = true → Z.get c ≠ .float 16 ∧ ∀ len child, Z.get c ≠ .vector len child := by
    intro c hc
    unfold isWord at hc
    split at hc
    all_goals simp_all
  obtain ⟨hfloat, hvector⟩ := hplain t ht
  obtain ⟨hfloat', hvector'⟩ := hplain t' ht'
  unfold classifyParam classifyReturn
  cases c with
  | sysv => simp only [SysV.classifyParam, SysV.classifyReturn, hs, hs', if_true, and_self]
  | win64 => simp only [Win64.classifyParam, Win64.classifyReturn, hkinds.win64 rfl, hs, hs', and_self]
  | aarch64 =>
    have hkind : ∀ c, Z.isScalar c = true → (∀ len child, Z.get c ≠ .vector len child) →
        Aarch64.kind Z c = .byValue := by
      intro c hc hno
      rw [Aarch64.kind, if_pos hc]
      split
      · rename_i hd
        exact absurd hd (hno _ _)
      · rfl
    simp only [Aarch64.classifyParam, Aarch64.classifyReturn, hkind t hs hvector, hkind t' hs' hvector', and_self]
  | armSoft =>
    simp [Arm.classifyParam, Arm.classifyReturn, hkinds.arm (Or.inl rfl), Arm.widenedHalf?, hfloat, hfloat']
  | armVfp => simp [Arm.classifyParam, Arm.classifyReturn, hkinds.arm (Or.inr rfl), Arm.widenedHalf?, hfloat, hfloat']
  | riscv =>
    simp [RiscV.classifyParam, RiscV.classifyReturn, hkinds.riscv rfl, RiscV.widenedHalf?, hfloat, hfloat']
  | wasm =>
    simp only [Wasm.classifyParam, Wasm.classifyReturn, Wasm.direct?_of_isScalar hs, Wasm.direct?_of_isScalar hs',
      if_true, and_self]
  | generic => exact ⟨rfl, rfl⟩

namespace Sizing

/-- Words that can take the place of each other are passed and returned alike, if a convention finds them of one
kind. -/
theorem classes_of_words (hR : Z.Exchangeable R) (h : R t t') {c : Option Classifier}
    (hkinds : Z.isScalar t = true → Z.isScalar t' = true → Z.KindsAgree c t t') :
    Z.paramClass c t = Z.paramClass c t' ∧ Z.returnClass c t = Z.returnClass c t' := by
  obtain ⟨hroom, hroom'⟩ := hR.rooms t t' h
  obtain ⟨ht, ht'⟩ := hR.words t t' h
  have hsliced : (Z.isSlice t || Z.isOptionalSlice t) = (Z.isSlice t' || Z.isOptionalSlice t') := hR.sliced t t' h
  unfold paramClass returnClass
  rw [hroom, hroom', hsliced]
  cases hs : Z.isSlice t' || Z.isOptionalSlice t' with
  | true => exact ⟨rfl, rfl⟩
  | false =>
    have hscalar' : Z.isScalar t' = true := by rw [isScalar_of_isWord ht', isSliced, hs, Bool.not_false]
    have hscalar : Z.isScalar t = true := by rw [isScalar_of_isWord ht, isSliced, hsliced, hs, Bool.not_false]
    simp only [Bool.not_true, Bool.false_eq_true, if_false]
    cases c with
    | none => simp only [isByReference_of_isWord ht, isByReference_of_isWord ht', and_self]
    | some c => exact c.classify_words ht ht' hscalar hscalar' (hkinds hscalar hscalar')

theorem classes_of_inStep (c : Option Classifier) (hR : Z.Exchangeable R) (h : Z.InStep (Z.Replaced R) t t')
    (hagree : Z.PartsAgree c t t') :
    (Z.paramClass c t).Corresponds (Z.Replaced R) (Z.paramClass c t') ∧
      (Z.returnClass c t).Corresponds (Z.Replaced R) (Z.returnClass c t') := by
  have hwhole : Z.Replaced R t t' := .inStep (fun _ _ hc => hc) h
  have hsliced : (Z.isSlice t || Z.isOptionalSlice t) = (Z.isSlice t' || Z.isOptionalSlice t') := hwhole.isSliced_eq hR
  unfold paramClass returnClass
  rw [hwhole.takesRoom_eq hR, hsliced, hwhole.isByReference_eq hR, h.isErrorType_eq]
  split
  · exact ⟨.refl _, .refl _⟩
  · split
    · exact ⟨.refl _, .refl _⟩
    · cases c with
      | none => exact ⟨.refl _, .refl _⟩
      | some c => exact c.classify_inStep hR h hagree

/-- Types with parts replaced are passed and returned alike, if a type that is replaced on its own is. -/
theorem classes_of_replaced (c : Option Classifier) (hR : Z.Exchangeable R) (h : Z.Replaced R t t')
    (hbase : R t t' → Z.paramClass c t = Z.paramClass c t' ∧ Z.returnClass c t = Z.returnClass c t')
    (hagree : Z.PartsAgree c t t') :
    (Z.paramClass c t).Corresponds (Z.Replaced R) (Z.paramClass c t') ∧
      (Z.returnClass c t).Corresponds (Z.Replaced R) (Z.returnClass c t') := by
  rcases h.cases with rfl | h | h
  · exact ⟨.refl _, .refl _⟩
  · obtain ⟨hparam, hreturn⟩ := hbase h
    exact ⟨.of_eq hparam, .of_eq hreturn⟩
  · exact classes_of_inStep c hR h hagree

end Sizing

end MachineAbi
