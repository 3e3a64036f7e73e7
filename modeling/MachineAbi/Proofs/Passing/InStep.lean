import Mathlib.Data.List.Forall2
import MachineAbi.Passing.Classifier
import MachineAbi.Proofs.Passing.Leaves

/-!
# Types in step

Two types are in step (`Sizing.InStep`) if they are of one kind and their parts are related one for one. They can differ
in names, in what is behind a pointer, and in parts that are related.

What a convention asks about a type is the same for types in step, if it is the same for parts that are related:

* whether it takes room (`InStep.takesRoom_eq`), how much (`InStep.extent_eq`), and whether it is handled by reference
  (`InStep.isByReference_eq`);
* which floats it consists of (`InStep.countFloats_eq`), and which members it has (`InStep.members`).
-/

namespace MachineAbi

open SealedPool

/-! ## Lists in step -/

theorem any_eq_of_forall₂ {α : Type} {p : α → Bool} {as bs : List α} (h : List.Forall₂ (fun a b => p a = p b) as bs) :
    as.any p = bs.any p := by
  induction h with
  | nil => rfl
  | cons hab _ ih => rw [List.any_cons, List.any_cons, hab, ih]

theorem map_eq_of_forall₂ {α β : Type} {f : α → β} {as bs : List α} (h : List.Forall₂ (fun a b => f a = f b) as bs) :
    as.map f = bs.map f := by
  rw [← List.forall₂_eq_eq_eq, List.forall₂_map_left_iff, List.forall₂_map_right_iff]
  exact h

theorem forall₂_filter {α : Type} {R : α → α → Prop} {p : α → Bool} {as bs : List α} (h : List.Forall₂ R as bs)
    (hp : ∀ a b, R a b → p a = p b) : List.Forall₂ R (as.filter p) (bs.filter p) :=
  List.rel_filter (fun a b hab => by simp only [hp a b hab]) h

/-- The relation may be replaced by one that holds of the related items. -/
theorem forall₂_imp_mem {α β : Type} {R R' : α → β → Prop} {as : List α} {bs : List β} (h : List.Forall₂ R as bs)
    (hR : ∀ a ∈ as, ∀ b ∈ bs, R a b → R' a b) : List.Forall₂ R' as bs := by
  rw [List.forall₂_iff_zip] at h ⊢
  refine ⟨h.1, fun {a b} hp => ?_⟩
  obtain ⟨ha, hb⟩ := List.of_mem_zip hp
  exact hR a ha b hb (h.2 hp)

theorem rel_map {α β γ δ : Type} {R : α → β → Prop} {R' : γ → δ → Prop} {a? : Option α} {b? : Option β} {f : α → γ}
    {g : β → δ} (h : Option.Rel R a? b?) (hR : ∀ a b, R a b → R' (f a) (g b)) :
    Option.Rel R' (a?.map f) (b?.map g) := by
  cases h with
  | none => exact .none
  | some h => exact .some (hR _ _ h)

theorem SealedPool.usedTag?_eq {u u' : UnionTy} (htag : u.tag = u'.tag)
    (hlen : u.memberTypes.length = u'.memberTypes.length) : u.usedTag? = u'.usedTag? := by
  have hlen : u.fields.length = u'.fields.length := by simpa [UnionTy.memberTypes] using hlen
  rw [UnionTy.usedTag?, UnionTy.usedTag?, htag, hlen]

namespace Sizing

variable {Z : Sizing} {S S' : TypeId → TypeId → Prop} {t t' : TypeId}

theorem storedTag?_eq {u u' : UnionTy} (htag : u.tag = u'.tag) (hlen : u.memberTypes.length = u'.memberTypes.length) :
    Z.storedTag? u = Z.storedTag? u' := by
  rw [storedTag?, storedTag?, usedTag?_eq htag hlen]

/-- Types of one kind whose parts are related one for one. What a pointer points at may be anything that takes room and
is aligned in the same way. Of the payloads of optionals both or neither have a value to spare. -/
inductive InStep (Z : Sizing) (S : TypeId → TypeId → Prop) : TypeId → TypeId → Prop
  | pointer {t t' child child' : TypeId} {size : PointerSize} {space : Nat} {flags : PointerFlags}
      (hd : Z.get t = .pointer ⟨child, size, space, flags⟩) (hd' : Z.get t' = .pointer ⟨child', size, space, flags⟩)
      (hroom : Z.takesRoom child = Z.takesRoom child') (halign : (Z.layout child).align = (Z.layout child').align) :
      InStep Z S t t'
  | array {t t' child child' : TypeId} {len : Nat} {sentinel : Bool} (hd : Z.get t = .array len child sentinel)
      (hd' : Z.get t' = .array len child' sentinel) (h : S child child') : InStep Z S t t'
  | optional {t t' child child' : TypeId} (hd : Z.get t = .optional child) (hd' : Z.get t' = .optional child')
      (hnull : Z.hasInBandNull child = Z.hasInBandNull child') (h : S child child') : InStep Z S t t'
  | errorUnion {t t' set payload payload' : TypeId} (hd : Z.get t = .errorUnion set payload)
      (hd' : Z.get t' = .errorUnion set payload') (h : S payload payload') : InStep Z S t t'
  | struct {t t' : TypeId} {s s' : StructTy} (hd : Z.get t = .struct s) (hd' : Z.get t' = .struct s')
      (hs : s.isPacked = s'.isPacked) (h : List.Forall₂ S s.stored s'.stored) : InStep Z S t t'
  | tuple {t t' : TypeId} {fields fields' : List FieldTy} (hd : Z.get t = .tuple fields)
      (hd' : Z.get t' = .tuple fields') (h : List.Forall₂ S (storedTypes fields) (storedTypes fields')) :
      InStep Z S t t'
  | union {t t' : TypeId} {u u' : UnionTy} (hd : Z.get t = .union u) (hd' : Z.get t' = .union u')
      (hu : u.isPacked = u'.isPacked) (htag : u.tag = u'.tag) (h : List.Forall₂ S u.memberTypes u'.memberTypes) :
      InStep Z S t t'

namespace InStep

theorem mono (h : Z.InStep S t t') (hS : ∀ c c', S c c' → S' c c') : Z.InStep S' t t' := by
  cases h with
  | pointer hd hd' hroom halign => exact .pointer hd hd' hroom halign
  | array hd hd' h => exact .array hd hd' (hS _ _ h)
  | optional hd hd' hnull h => exact .optional hd hd' hnull (hS _ _ h)
  | errorUnion hd hd' h => exact .errorUnion hd hd' (hS _ _ h)
  | struct hd hd' hs h => exact .struct hd hd' hs (h.imp hS)
  | tuple hd hd' h => exact .tuple hd hd' (h.imp hS)
  | union hd hd' hu htag h => exact .union hd hd' hu htag (h.imp hS)

/-! ## Storage -/

theorem takesRoom_eq (h : Z.InStep S t t') (hS : ∀ c c', S c c' → Z.takesRoom c = Z.takesRoom c') :
    Z.takesRoom t = Z.takesRoom t' := by
  rw [Z.takesRoom_eq, Z.takesRoom_eq t']
  cases h with
  | pointer hd hd' | optional hd hd' => rw [hd, hd']
  | array hd hd' h | errorUnion hd hd' h =>
    rw [hd, hd']
    dsimp only
    rw [hS _ _ h]
  | struct hd hd' _ h | tuple hd hd' h =>
    rw [hd, hd']
    exact any_eq_of_forall₂ (h.imp hS)
  | union hd hd' _ htag h =>
    rw [hd, hd']
    dsimp only
    rw [usedTag?_eq htag h.length_eq, any_eq_of_forall₂ (h.imp hS)]

theorem isErrorType_eq (h : Z.InStep S t t') : Z.isErrorType t = Z.isErrorType t' := by
  unfold Pool.isErrorType
  cases h with
  | pointer hd hd' | array hd hd' | optional hd hd' | errorUnion hd hd' | struct hd hd' | tuple hd hd' | union hd hd' =>
    rw [hd, hd']

theorem isSlice_eq (h : Z.InStep S t t') : Z.isSlice t = Z.isSlice t' := by
  unfold Pool.isSlice
  cases h with
  | pointer hd hd' =>
    rw [hd, hd']
    rfl
  | array hd hd' | optional hd hd' | errorUnion hd hd' | struct hd hd' | tuple hd hd' | union hd hd' => rw [hd, hd']

theorem isOptionalSlice_eq (h : Z.InStep S t t')
    (hS : ∀ c c', S c c' → Z.hasInBandNull c = Z.hasInBandNull c' → Z.isSlice c = Z.isSlice c') :
    Z.isOptionalSlice t = Z.isOptionalSlice t' := by
  unfold Pool.isOptionalSlice
  cases h with
  | optional hd hd' hnull h =>
    rw [hd, hd']
    exact hS _ _ h hnull
  | pointer hd hd' | array hd hd' | errorUnion hd hd' | struct hd hd' | tuple hd hd' | union hd hd' => rw [hd, hd']

theorem optionalRepr_eq {child child' : TypeId} (hroom : Z.takesRoom child = Z.takesRoom child')
    (hnull : Z.hasInBandNull child = Z.hasInBandNull child') : Z.optionalRepr child = Z.optionalRepr child' := by
  rw [optionalRepr, optionalRepr, hroom, hnull]

theorem isScalar_eq (h : Z.InStep S t t') (hroom : ∀ c c', S c c' → Z.takesRoom c = Z.takesRoom c')
    (hS : ∀ c c', S c c' → Z.hasInBandNull c = Z.hasInBandNull c' → Z.isSlice c = Z.isSlice c') :
    Z.isScalar t = Z.isScalar t' := by
  unfold isScalar
  cases h with
  | pointer hd hd' =>
    rw [hd, hd']
    rfl
  | optional hd hd' hnull h =>
    rw [hd, hd']
    dsimp only
    rw [optionalRepr_eq (hroom _ _ h) hnull, hS _ _ h hnull]
  | struct hd hd' hs =>
    rw [hd, hd']
    exact hs
  | union hd hd' hu =>
    rw [hd, hd']
    exact hu
  | array hd hd' | errorUnion hd hd' | tuple hd hd' => rw [hd, hd']

theorem isByReference_eq (h : Z.InStep S t t') (hroom : ∀ c c', S c c' → Z.takesRoom c = Z.takesRoom c')
    (hS : ∀ c c', S c c' → Z.isByReference c = Z.isByReference c') : Z.isByReference t = Z.isByReference t' := by
  have htakes := h.takesRoom_eq hroom
  rw [Z.isByReference_eq, Z.isByReference_eq t']
  cases h with
  | pointer hd hd' => rw [hd, hd']
  | array hd hd' | tuple hd hd' =>
    rw [hd, hd']
    exact htakes
  | struct hd hd' hs =>
    rw [hd, hd']
    dsimp only
    rw [hs, htakes]
  | union hd hd' hu =>
    rw [hd, hd']
    dsimp only
    rw [hu, htakes]
  | optional hd hd' hnull h =>
    rw [hd, hd']
    dsimp only
    rw [optionalRepr_eq (hroom _ _ h) hnull, hS _ _ h]
  | errorUnion hd hd' h =>
    rw [hd, hd']
    dsimp only
    rw [hroom _ _ h, hS _ _ h]

/-! ## Room -/

theorem extent_eq (h : Z.InStep S t t') (hroom : ∀ c c', S c c' → Z.takesRoom c = Z.takesRoom c')
    (hS : ∀ c c', S c c' → Z.extent c = Z.extent c') : Z.extent t = Z.extent t' := by
  have hlayout : ∀ c c', S c c' → Z.layout c = Z.layout c' := fun c c' hc => congrArg Extent.layout (hS c c' hc)
  have hwidth : ∀ c c', S c c' → Z.packedWidth c = Z.packedWidth c' := fun c c' hc => congrArg Extent.bits (hS c c' hc)
  rw [Z.extent_eq, Z.extent_eq t']
  cases h with
  | pointer hd hd' =>
    rw [hd, hd']
    rfl
  | array hd hd' h =>
    rw [hd, hd']
    dsimp only
    rw [hlayout _ _ h]
  | optional hd hd' hnull h =>
    rw [hd, hd']
    dsimp only
    rw [optionalRepr_eq (hroom _ _ h) hnull, hlayout _ _ h]
  | errorUnion hd hd' h =>
    rw [hd, hd']
    dsimp only
    rw [errorUnionRepr, errorUnionRepr, hroom _ _ h, hlayout _ _ h]
  | struct hd hd' hs h =>
    rw [hd, hd']
    dsimp only
    rw [hs, map_eq_of_forall₂ (h.imp hwidth), map_eq_of_forall₂ (h.imp hlayout)]
  | tuple hd hd' h =>
    rw [hd, hd']
    dsimp only
    rw [map_eq_of_forall₂ (h.imp hlayout)]
  | union hd hd' hu htag h =>
    rw [hd, hd']
    dsimp only
    rw [hu, map_eq_of_forall₂ (h.imp hwidth), payloadLayout, payloadLayout, map_eq_of_forall₂ (h.imp hlayout),
      storedTag?_eq htag h.length_eq]

end InStep

/-! ## Floats -/

/-- The floats of one more part, counted from those found before. -/
def countPart (Z : Sizing) (limit : Nat) (shared : Bool) (acc : FloatCount) (c : TypeId) : Option FloatCount :=
  (Z.countFloats limit acc.kind c).bind (acc.join limit shared)

/-- Floats are counted in the same way, whatever was found before. -/
def CountAlike (Z : Sizing) (limit : Nat) (c c' : TypeId) : Prop :=
  ∀ seen, Z.countFloats limit seen c = Z.countFloats limit seen c'

variable {limit : Nat} {shared : Bool} {ts ts' : List TypeId}

theorem foldlM_eq_of_forall₂ (h : List.Forall₂ (Z.CountAlike limit) ts ts') (acc : FloatCount) :
    ts.foldlM (Z.countPart limit shared) acc = ts'.foldlM (Z.countPart limit shared) acc := by
  induction h generalizing acc with
  | nil => rfl
  | cons hc _ ih =>
    rw [List.foldlM_cons, List.foldlM_cons, countPart, countPart, hc]
    congr 1
    funext acc
    exact ih acc

/-- Parts of no size are left out. -/
theorem foldlM_sized (h : List.Forall₂ (fun c c' => Z.layout c = Z.layout c' ∧ Z.CountAlike limit c c') ts ts') :
    (ts.filter fun c => 0 < (Z.layout c).size).foldlM (Z.countPart limit shared) =
      (ts'.filter fun c => 0 < (Z.layout c).size).foldlM (Z.countPart limit shared) := by
  have hsized := forall₂_filter (p := fun c => 0 < (Z.layout c).size) h fun c c' h => by simp only [h.1]
  funext acc
  exact foldlM_eq_of_forall₂ (hsized.imp fun c c' h => h.2) acc

theorem foldlM_replicate {c c' : TypeId} (h : Z.CountAlike limit c c') (n : Nat) :
    (List.replicate n c).foldlM (Z.countPart limit shared) =
      (List.replicate n c').foldlM (Z.countPart limit shared) := by
  funext acc
  refine foldlM_eq_of_forall₂ (List.forall₂_iff_zip.2 ⟨by simp, fun {a b} hp => ?_⟩) acc
  rw [List.zip_replicate', List.mem_replicate] at hp
  obtain ⟨rfl, rfl⟩ := Prod.mk.inj hp.2
  exact h

/-- How the floats in the parts of a type are counted. -/
def countParts? (Z : Sizing) (limit : Nat) (t : TypeId) : Option (FloatCount → Option FloatCount) :=
  (Z.floatParts? limit t).map fun p => p.2.foldlM (Z.countPart limit p.1)

/-- Where the parts are counted alike, so is the whole. -/
theorem countAlike_of_parts (hroom : Z.takesRoom t = Z.takesRoom t') (hkind : Z.floatKind? t = none)
    (hkind' : Z.floatKind? t' = none) (hparts : Z.countParts? limit t = Z.countParts? limit t') :
    Z.CountAlike limit t t' := by
  have count : ∀ c seen, Z.floatKind? c = none → Z.countFloats limit seen c =
      if Z.takesRoom c then (Z.countParts? limit c).bind (· ⟨seen, 0⟩) else some ⟨seen, 0⟩ := by
    intro c seen hc
    rw [Z.countFloats_eq, hc, countParts?]
    cases Z.floatParts? limit c <;> rfl
  intro seen
  rw [count t seen hkind, count t' seen hkind', hroom, hparts]

theorem InStep.countAlike (h : Z.InStep S t t') (hroom : ∀ c c', S c c' → Z.takesRoom c = Z.takesRoom c')
    (hlayout : ∀ c c', S c c' → Z.layout c = Z.layout c') (hS : ∀ c c', S c c' → Z.CountAlike limit c c') :
    Z.CountAlike limit t t' := by
  have hboth : ∀ c c', S c c' → Z.layout c = Z.layout c' ∧ Z.CountAlike limit c c' := fun c c' hc =>
    ⟨hlayout c c' hc, hS c c' hc⟩
  have hkinds : Z.floatKind? t = none ∧ Z.floatKind? t' = none := by
    unfold floatKind?
    cases h with
    | pointer hd hd' | array hd hd' | optional hd hd' | errorUnion hd hd' | struct hd hd' | tuple hd hd'
    | union hd hd' => simp only [hd, hd', and_self]
  refine countAlike_of_parts (h.takesRoom_eq hroom) hkinds.1 hkinds.2 ?_
  unfold countParts? floatParts?
  cases h with
  | pointer hd hd' | optional hd hd' | errorUnion hd hd' => simp only [hd, hd']
  | array hd hd' h =>
    simp only [hd, hd', hlayout _ _ h]
    split
    · split
      · simp only [Option.map_some, foldlM_replicate (hS _ _ h)]
      · rfl
    · rfl
  | struct hd hd' hs h =>
    simp only [hd, hd', hs]
    split
    · rfl
    · simp only [Option.map_some, foldlM_sized (h.imp hboth)]
  | tuple hd hd' h => simp only [hd, hd', Option.map_some, foldlM_sized (h.imp hboth)]
  | @union u u' hd hd' hu htag h =>
    simp only [hd, hd', hu, storesTag, storedTag?_eq htag h.length_eq]
    by_cases hno : u'.isPacked = true ∨ (Z.storedTag? u').isSome = true
    · simp only [hno, if_true]
    · simp only [hno, if_false, Option.map_some, foldlM_sized (h.imp hboth)]

theorem homogeneousFloats?_eq (h : ∀ limit, Z.CountAlike limit t t') (limit : Nat) :
    Z.homogeneousFloats? t limit = Z.homogeneousFloats? t' limit := by
  rw [homogeneousFloats?, homogeneousFloats?, h limit]

/-! ## Members -/

/-- Members at the same offset, of types that are related. -/
def MembersInStep (S : TypeId → TypeId → Prop) (m m' : Member) : Prop := S m.ty m'.ty ∧ m.offset = m'.offset

theorem sequence_inStep (hlayout : ∀ c c', S c c' → Z.layout c = Z.layout c') (h : List.Forall₂ S ts ts')
    (offset : Nat) :
    List.Forall₂ (MembersInStep S) (Member.sequence Z.layout offset ts) (Member.sequence Z.layout offset ts') := by
  induction h generalizing offset with
  | nil => exact .nil
  | cons hc h ih =>
    rw [Member.sequence, Member.sequence, hlayout _ _ hc]
    split
    · exact .cons ⟨hc, rfl⟩ (ih _)
    · exact ih _

theorem map_inStep (h : List.Forall₂ S ts ts') (offset : Nat) :
    List.Forall₂ (MembersInStep S) (ts.map (⟨·, offset⟩)) (ts'.map (⟨·, offset⟩)) := by
  rw [List.forall₂_map_left_iff, List.forall₂_map_right_iff]
  exact h.imp fun c c' hc => ⟨hc, rfl⟩

theorem InStep.members (h : Z.InStep S t t') (hrefl : ∀ c, S c c)
    (hroom : ∀ c c', S c c' → Z.takesRoom c = Z.takesRoom c') (hlayout : ∀ c c', S c c' → Z.layout c = Z.layout c') :
    List.Forall₂ (MembersInStep S) (Z.members t) (Z.members t') := by
  cases h with
  | pointer hd hd' => simp [Sizing.members, hd, hd']
  | array hd hd' h =>
    simp only [Sizing.members, hd, hd', hlayout _ _ h]
    split
    · rw [List.forall₂_map_left_iff, List.forall₂_map_right_iff]
      exact List.forall₂_same.2 fun i _ => ⟨h, rfl⟩
    · exact .nil
  | @optional child child' hd hd' hnull h =>
    have horder : List.Forall₂ S ((Z.optionalRepr child).order child) ((Z.optionalRepr child').order child') := by
      rw [optionalRepr_eq (hroom _ _ h) hnull]
      cases Z.optionalRepr child' with
      | flagOnly => exact .cons (hrefl _) .nil
      | payload => exact .cons h .nil
      | payloadAndFlag => exact .cons h (.cons (hrefl _) .nil)
    simpa only [Sizing.members, hd, hd'] using sequence_inStep hlayout horder 0
  | @errorUnion set payload payload' hd hd' h =>
    have horder : List.Forall₂ S ((Z.errorUnionRepr set payload).order set payload)
        ((Z.errorUnionRepr set payload').order set payload') := by
      rw [errorUnionRepr, errorUnionRepr, hroom _ _ h, hlayout _ _ h]
      cases ErrorUnionRepr.of (Z.takesRoom set) (Z.takesRoom payload') Z.target.errorCodeLayout.align
        (Z.layout payload').align with
      | empty => exact .nil
      | payloadOnly => exact .cons h .nil
      | errorOnly => exact .cons (hrefl _) .nil
      | errorFirst => exact .cons (hrefl _) (.cons h .nil)
      | payloadFirst => exact .cons h (.cons (hrefl _) .nil)
    simpa only [Sizing.members, hd, hd'] using sequence_inStep hlayout horder 0
  | struct hd hd' hs h =>
    simp only [Sizing.members, hd, hd', hs]
    split
    · exact .nil
    · exact sequence_inStep hlayout h 0
  | tuple hd hd' h => simpa only [Sizing.members, hd, hd'] using sequence_inStep hlayout h 0
  | union hd hd' hu htag h =>
    have hsized := forall₂_filter (p := fun c => 0 < (Z.layout c).size) h fun c c' hc => by simp only [hlayout c c' hc]
    simp only [Sizing.members, hd, hd', hu, payloadLayout, map_eq_of_forall₂ (h.imp hlayout),
      storedTag?_eq htag h.length_eq]
    split
    · exact .nil
    · split
      · exact .cons ⟨hrefl _, rfl⟩ (map_inStep hsized _)
      · exact map_inStep hsized 0

end Sizing

/-- The one type that takes room stands at the same place in lists in step. -/
theorem Wasm.theOnly?_inStep {Z : Sizing} {S : TypeId → TypeId → Prop} {ts ts' : List TypeId}
    (h : List.Forall₂ S ts ts') (hroom : ∀ c c', S c c' → Z.takesRoom c = Z.takesRoom c') :
    Option.Rel S (theOnly? Z ts) (theOnly? Z ts') := by
  have hfilter := forall₂_filter h hroom
  unfold theOnly?
  generalize ts.filter Z.takesRoom = taking, ts'.filter Z.takesRoom = taking' at hfilter ⊢
  cases hfilter with
  | nil => exact .none
  | cons hc hrest =>
    cases hrest with
    | nil => exact .some hc
    | cons => exact .none

end MachineAbi
