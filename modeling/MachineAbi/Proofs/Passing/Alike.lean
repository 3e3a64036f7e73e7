import MachineAbi.Proofs.Passing.Floats
import MachineAbi.Proofs.Passing.InStep

/-!
# Types that differ in the order of union members

The members of a union all lie at one place, so their order should not matter. Types are alike (`SealedPool.Alike`) if
they only differ in it, at any depth. What a convention asks about a type has the same answer for types that are alike:

* whether it takes room (`Alike.takesRoom_eq`), how much (`Sizing.layout_alike`), and whether it is handled by reference
  (`Alike.isByReference_eq`);
* which floats it consists of (`Sizing.homogeneousFloats?_alike`). Floats are counted in order, but what a part adds can
  be counted on its own (`Sizing.countsAlone`), and so parts that share a place can change places
  (`FloatCount.add_right_comm`).

Types that are alike and not the same are aggregates (`Alike.eq_or_isAggregate`).
-/

namespace MachineAbi

/-! ## Lists in step -/

theorem forall₂_of_zip {α β : Type} {R : α → β → Prop} {as : List α} {bs : List β} (hlen : as.length = bs.length)
    (h : ∀ p ∈ as.zip bs, R p.1 p.2) : List.Forall₂ R as bs :=
  List.forall₂_iff_zip.2 ⟨hlen, fun hm => h _ hm⟩

namespace SealedPool

variable {P : SealedPool} {t t' : TypeId}

/-! ## The relation -/

/-- Non-packed unions with the same tag and the same types of members in any order, and aggregates that contain one in
place of the other. Optionals that are scalars are left out: they hold a pointer or an error set, and so no union. -/
inductive Alike (P : SealedPool) : TypeId → TypeId → Prop
  | refl (t : TypeId) : Alike P t t
  | array {t t' child child' : TypeId} {len : Nat} {sentinel : Bool} (hd : P.get t = .array len child sentinel)
      (hd' : P.get t' = .array len child' sentinel) (h : Alike P child child') : Alike P t t'
  | optional {t t' child child' : TypeId} (hd : P.get t = .optional child) (hd' : P.get t' = .optional child')
      (hs : P.isScalar t = false) (h : Alike P child child') : Alike P t t'
  | errorUnion {t t' set payload payload' : TypeId} (hd : P.get t = .errorUnion set payload)
      (hd' : P.get t' = .errorUnion set payload') (h : Alike P payload payload') : Alike P t t'
  | struct {t t' : TypeId} {s s' : StructTy} (hd : P.get t = .struct s) (hd' : P.get t' = .struct s')
      (hs : s.isPacked = false) (hs' : s'.isPacked = false) (hlen : s.stored.length = s'.stored.length)
      (h : ∀ p ∈ s.stored.zip s'.stored, Alike P p.1 p.2) : Alike P t t'
  | tuple {t t' : TypeId} {fields fields' : List FieldTy} (hd : P.get t = .tuple fields)
      (hd' : P.get t' = .tuple fields') (hlen : (storedTypes fields).length = (storedTypes fields').length)
      (h : ∀ p ∈ (storedTypes fields).zip (storedTypes fields'), Alike P p.1 p.2) : Alike P t t'
  | union {t t' : TypeId} {u u' : UnionTy} {ts : List TypeId} (hd : P.get t = .union u) (hd' : P.get t' = .union u')
      (hu : u.isPacked = false) (hu' : u'.isPacked = false) (htag : u.tag = u'.tag) (hperm : u.memberTypes.Perm ts)
      (hlen : ts.length = u'.memberTypes.length) (h : ∀ p ∈ ts.zip u'.memberTypes, Alike P p.1 p.2) : Alike P t t'

/-- Types that are no scalars, and whose values are made up of others. -/
def isAggregate (P : SealedPool) (t : TypeId) : Bool :=
  match P.get t with
  | .array _ _ _ | .errorUnion _ _ | .tuple _ => true
  | .optional _ => !P.isScalar t
  | .struct s => !s.isPacked
  | .union u => !u.isPacked
  | _ => false

theorem isScalar_of_isAggregate (h : P.isAggregate t = true) : P.isScalar t = false := by
  unfold isAggregate at h
  split at h
  case h_4 => simpa using h
  all_goals simp_all [isScalar]

theorem hasInBandNull_of_isAggregate (h : P.isAggregate t = true) : P.hasInBandNull t = false := by
  unfold isAggregate at h
  unfold hasInBandNull
  split at h
  all_goals simp_all

theorem isSlice_of_isAggregate (h : P.isAggregate t = true) : P.isSlice t = false := by
  unfold isAggregate at h
  unfold Pool.isSlice
  split at h
  all_goals simp_all

theorem agree_of_isAggregate {α : Type} {f : TypeId → α} {a : α} (hf : ∀ c, P.isAggregate c = true → f c = a)
    (h : t = t' ∨ P.isAggregate t = true ∧ P.isAggregate t' = true) : f t = f t' := by
  rcases h with rfl | ⟨ht, ht'⟩
  · rfl
  · rw [hf t ht, hf t' ht']

namespace Alike

/-! ## Storage -/

theorem takesRoom_eq (h : P.Alike t t') : P.takesRoom t = P.takesRoom t' := by
  have any_eq : ∀ {ts ts' : List TypeId}, ts.length = ts'.length →
      (∀ p ∈ ts.zip ts', P.takesRoom p.1 = P.takesRoom p.2) → ts.any P.takesRoom = ts'.any P.takesRoom := by
    intro ts ts' hlen h
    have hmap := map_eq_of_forall₂ (forall₂_of_zip hlen h)
    rw [← Function.id_comp P.takesRoom, ← List.any_map, hmap, List.any_map]
  induction h with
  | refl t => rfl
  | array hd hd' h ih =>
    rw [P.takesRoom_eq, hd, P.takesRoom_eq, hd']
    dsimp only
    rw [ih]
  | optional hd hd' => rw [P.takesRoom_eq, hd, P.takesRoom_eq, hd']
  | errorUnion hd hd' h ih =>
    rw [P.takesRoom_eq, hd, P.takesRoom_eq, hd']
    dsimp only
    rw [ih]
  | struct hd hd' hs hs' hlen h ih =>
    rw [P.takesRoom_eq, hd, P.takesRoom_eq, hd']
    exact any_eq hlen ih
  | tuple hd hd' hlen h ih =>
    rw [P.takesRoom_eq, hd, P.takesRoom_eq, hd']
    exact any_eq hlen ih
  | union hd hd' hu hu' htag hperm hlen h ih =>
    rw [P.takesRoom_eq, hd, P.takesRoom_eq, hd']
    dsimp only
    rw [usedTag?_eq htag (hperm.length_eq.trans hlen), hperm.any_eq, any_eq hlen ih]

/-- Types that are alike are the same or aggregates. An optional is one as soon as its payload is one. -/
theorem eq_or_isAggregate (h : P.Alike t t') : t = t' ∨ P.isAggregate t = true ∧ P.isAggregate t' = true := by
  induction h with
  | refl t => exact Or.inl rfl
  | array hd hd' => exact Or.inr (by simp [isAggregate, hd, hd'])
  | errorUnion hd hd' => exact Or.inr (by simp [isAggregate, hd, hd'])
  | tuple hd hd' => exact Or.inr (by simp [isAggregate, hd, hd'])
  | struct hd hd' hs hs' => exact Or.inr (by simp [isAggregate, hd, hd', hs, hs'])
  | union hd hd' hu hu' => exact Or.inr (by simp [isAggregate, hd, hd', hu, hu'])
  | @optional t t' child child' hd hd' hs h ih =>
    have hnull := agree_of_isAggregate (fun _ => hasInBandNull_of_isAggregate) ih
    have hslice := agree_of_isAggregate (fun _ => isSlice_of_isAggregate) ih
    have hs' : P.isScalar t' = false := by
      simpa [isScalar, hd, hd', optionalRepr, h.takesRoom_eq, hnull, hslice] using hs
    exact Or.inr (by simp [isAggregate, hd, hd', hs, hs'])

/-- So what has one answer for all aggregates has the same for types that are alike. -/
theorem agree {α : Type} {f : TypeId → α} {a : α} (h : P.Alike t t') (hf : ∀ c, P.isAggregate c = true → f c = a) :
    f t = f t' :=
  agree_of_isAggregate hf h.eq_or_isAggregate

theorem isScalar_eq (h : P.Alike t t') : P.isScalar t = P.isScalar t' := h.agree fun _ => isScalar_of_isAggregate

theorem isSlice_eq (h : P.Alike t t') : P.isSlice t = P.isSlice t' := h.agree fun _ => isSlice_of_isAggregate

theorem hasInBandNull_eq (h : P.Alike t t') : P.hasInBandNull t = P.hasInBandNull t' :=
  h.agree fun _ => hasInBandNull_of_isAggregate

theorem optionalRepr_eq (h : P.Alike t t') : P.optionalRepr t = P.optionalRepr t' := by
  rw [optionalRepr, optionalRepr, h.takesRoom_eq, h.hasInBandNull_eq]

theorem isOptionalSlice_eq (h : P.Alike t t') : P.isOptionalSlice t = P.isOptionalSlice t' := by
  unfold Pool.isOptionalSlice
  cases h with
  | refl => rfl
  | optional hd hd' hs h =>
    rw [hd, hd']
    exact h.isSlice_eq
  | array hd hd' | errorUnion hd hd' | struct hd hd' | tuple hd hd' | union hd hd' => rw [hd, hd']

theorem isErrorType_eq (h : P.Alike t t') : P.isErrorType t = P.isErrorType t' := by
  unfold Pool.isErrorType
  cases h with
  | refl => rfl
  | array hd hd' | optional hd hd' | errorUnion hd hd' | struct hd hd' | tuple hd hd' | union hd hd' => rw [hd, hd']

theorem isByReference_eq (h : P.Alike t t') : P.isByReference t = P.isByReference t' := by
  have hroom := h.takesRoom_eq
  rw [P.isByReference_eq, P.isByReference_eq t']
  induction h with
  | refl t => rfl
  | array hd hd' | tuple hd hd' =>
    rw [hd, hd']
    exact hroom
  | struct hd hd' hs hs' =>
    rw [hd, hd']
    dsimp only
    rw [hs, hs', hroom]
  | union hd hd' hu hu' =>
    rw [hd, hd']
    dsimp only
    rw [hu, hu', hroom]
  | optional hd hd' hs h ih =>
    rw [hd, hd']
    dsimp only
    rw [h.optionalRepr_eq, P.isByReference_eq, ih h.takesRoom_eq, ← P.isByReference_eq]
  | errorUnion hd hd' h ih =>
    rw [hd, hd']
    dsimp only
    rw [h.takesRoom_eq, P.isByReference_eq, ih h.takesRoom_eq, ← P.isByReference_eq]

end Alike

end SealedPool

namespace Sizing

open SealedPool

variable {Z : Sizing} {t t' : TypeId}

/-! ## Layouts -/

/-- Room for any one of several values does not depend on their order. -/
theorem overlay_perm {ls ls' : List Layout} (h : ls.Perm ls') : Layout.overlay ls = .overlay ls' := by
  rw [Layout.overlay_eq, Layout.overlay_eq]
  congr 1
  refine h.foldl_eq' (fun l _ m _ k => ?_) _
  simp only [Layout.join, Nat.max_right_comm]

/-- Layouts of the members, in whichever order. -/
theorem payloadLayout_eq {u u' : UnionTy} {ts : List TypeId} (hperm : u.memberTypes.Perm ts)
    (h : ts.map Z.layout = u'.memberTypes.map Z.layout) : Z.payloadLayout u = Z.payloadLayout u' := by
  rw [payloadLayout, payloadLayout, ← h]
  exact overlay_perm (hperm.map _)

theorem layout_alike (h : Z.Alike t t') : Z.layout t = Z.layout t' := by
  have map_eq : ∀ {ts ts' : List TypeId}, ts.length = ts'.length →
      (∀ p ∈ ts.zip ts', Z.layout p.1 = Z.layout p.2) → ts.map Z.layout = ts'.map Z.layout := fun hlen h =>
    map_eq_of_forall₂ (forall₂_of_zip hlen h)
  induction h with
  | refl t => rfl
  | @array t t' child child' len sentinel hd hd' h ih =>
    by_cases hn : elementCount len sentinel = 0
    · rw [layout_array_zero hd (Or.inl hn), layout_array_zero hd' (Or.inl hn)]
    · rw [layout_array hd hn, layout_array hd' hn, ih]
  | optional hd hd' hs h ih => rw [layout_optional hd, layout_optional hd', ih, h.optionalRepr_eq]
  | errorUnion hd hd' h ih =>
    rw [layout_errorUnion hd, layout_errorUnion hd', errorUnionRepr, errorUnionRepr, ih, h.takesRoom_eq]
  | struct hd hd' hs hs' hlen h ih => rw [layout_struct hd hs, layout_struct hd' hs', map_eq hlen ih]
  | tuple hd hd' hlen h ih => rw [layout_tuple hd, layout_tuple hd', map_eq hlen ih]
  | union hd hd' hu hu' htag hperm hlen h ih =>
    rw [layout_union hd hu, layout_union hd' hu', payloadLayout_eq hperm (map_eq hlen ih),
      storedTag?_eq htag (hperm.length_eq.trans hlen)]

/-! ## Floats -/

namespace FloatCount

variable {limit : Nat}

/-- The one format of two parts; a part without floats has none of its own. -/
def common : Option FloatKind → Option FloatKind → Option (Option FloatKind)
  | none, b => some b
  | a, none => some a
  | some a, some b => if a = b then some (some a) else none

/-- The number of floats in two parts, as it is counted. -/
def total (shared : Bool) (n m : Nat) : Nat := if shared then max n m else (n + m) % floatCountModulus

/-- That many floats, unless they are too many. -/
def within (limit n : Nat) (kind : Option FloatKind) : Option FloatCount := if n ≤ limit then some ⟨kind, n⟩ else none

/-- One more part, when its floats have been counted on their own. -/
def add (limit : Nat) (shared : Bool) (acc found : FloatCount) : Option FloatCount :=
  (common acc.kind found.kind).bind (within limit (total shared acc.count found.count))

@[simp]
theorem none_common (b : Option FloatKind) : common none b = some b := rfl

@[simp]
theorem common_none (a : Option FloatKind) : common a none = some a := by
  cases a <;> rfl

theorem common_comm (a b : Option FloatKind) : common a b = common b a := by
  cases a with
  | none => simp
  | some a =>
    cases b with
    | none => rfl
    | some b => by_cases hab : a = b <;> simp [common, hab, eq_comm]

theorem common_assoc (a b c : Option FloatKind) : (common a b).bind (common · c) = (common b c).bind (common a) := by
  cases a with
  | none =>
    rw [none_common, Option.bind_some]
    cases common b c <;> rfl
  | some a =>
    cases b with
    | none => simp
    | some b =>
      cases c with
      | none => simp
      | some c =>
        by_cases hab : a = b
        · subst hab
          by_cases hac : a = c <;> simp [common, hac]
        · by_cases hbc : b = c
          · subst hbc
            simp [common, hab]
          · simp [common, hab, hbc]

theorem common_right_comm (a b c : Option FloatKind) :
    (common a b).bind (common · c) = (common a c).bind (common · b) := by
  rw [common_assoc, common_assoc, common_comm b c]

/-- Two parts that share a place can change places. -/
theorem add_right_comm (acc f g : FloatCount) :
    (add limit true acc f).bind (add limit true · g) = (add limit true acc g).bind (add limit true · f) := by
  -- only the number of all of them matters, for it is the largest
  have add_add : ∀ f g : FloatCount, (add limit true acc f).bind (add limit true · g) =
      ((common acc.kind f.kind).bind (common · g.kind)).bind (within limit (max (max acc.count f.count) g.count)) := by
    intro f g
    have hle : max acc.count f.count ≤ max (max acc.count f.count) g.count := Nat.le_max_left _ _
    rw [add, Option.bind_assoc, Option.bind_assoc]
    congr 1
    funext kind
    rw [total, if_pos rfl]
    by_cases hlimit : max acc.count f.count ≤ limit
    · rw [within, if_pos hlimit]
      rfl
    · rw [within, if_neg hlimit]
      cases common kind g.kind with
      | none => rfl
      | some kind' => exact (if_neg (by omega)).symm
  rw [add_add, add_add, common_right_comm, Nat.max_right_comm]

/-- Floats that are found after floats of the format `seen`. -/
def after (seen : Option FloatKind) (found : FloatCount) : Option FloatCount :=
  (common seen found.kind).map (⟨·, found.count⟩)

end FloatCount

open FloatCount

variable {limit : Nat} {shared : Bool} {ts ts' : List TypeId}

/-- Counting a part from a format on is counting it on its own, and then comparing. -/
def CountsAlone (Z : Sizing) (limit : Nat) (c : TypeId) : Prop :=
  ∀ seen, Z.countFloats limit seen c = (Z.countFloats limit none c).bind (after seen)

theorem countPart_eq {c : TypeId} (hc : Z.CountsAlone limit c) (acc : FloatCount) :
    Z.countPart limit shared acc c = (Z.countFloats limit none c).bind (add limit shared acc) := by
  rw [countPart, hc, Option.bind_assoc]
  congr 1
  funext found
  rw [after, add]
  cases common acc.kind found.kind with
  | none => rfl
  | some kind => rfl

/-- A format that must be that of all parts may be compared before or after them. -/
theorem foldlM_bind_after (hts : ∀ c ∈ ts, Z.CountsAlone limit c) (seen a : Option FloatKind) (n : Nat) :
    (ts.foldlM (Z.countPart limit shared) ⟨a, n⟩).bind (after seen) =
      (common seen a).bind fun b => ts.foldlM (Z.countPart limit shared) ⟨b, n⟩ := by
  induction ts generalizing a n with
  | nil =>
    show (some (⟨a, n⟩ : FloatCount)).bind (after seen) = _
    rw [Option.bind_some, after]
    cases common seen a <;> rfl
  | cons c ts ih =>
    have ih := ih fun c hc => hts c (List.mem_cons_of_mem _ hc)
    have step : ∀ b : Option FloatKind, (c :: ts).foldlM (Z.countPart limit shared) ⟨b, n⟩ =
        (Z.countFloats limit none c).bind fun found => (common b found.kind).bind fun kind =>
          (within limit (total shared n found.count) kind).bind fun acc => ts.foldlM (Z.countPart limit shared) acc := by
      intro b
      rw [List.foldlM_cons, countPart_eq (hts c List.mem_cons_self)]
      show ((Z.countFloats limit none c).bind _).bind _ = _
      rw [Option.bind_assoc]
      congr 1
      funext found
      rw [add, Option.bind_assoc]
    simp only [step]
    cases Z.countFloats limit none c with
    | none => cases common seen a <;> rfl
    | some found =>
      simp only [Option.bind_some]
      rw [← Option.bind_assoc, ← Option.bind_assoc, common_assoc, Option.bind_assoc, Option.bind_assoc,
        Option.bind_assoc]
      congr 1
      funext kind
      by_cases hlimit : total shared n found.count ≤ limit
      · simp only [within, if_pos hlimit, Option.bind_some]
        exact ih kind _
      · simp only [within, if_neg hlimit, Option.bind_none, Option.bind_fun_none]

theorem countsAlone (Z : Sizing) (limit : Nat) (t : TypeId) : Z.CountsAlone limit t := by
  induction t using Z.induction_on_parts with
  | step t ih =>
    intro seen
    have hafter : ∀ n, (⟨none, n⟩ : FloatCount).after seen = some ⟨seen, n⟩ := fun n => by simp [after]
    rw [Z.countFloats_eq, Z.countFloats_eq limit none]
    split
    · split
      · rename_i kind _
        cases seen with
        | none => rfl
        | some k => by_cases hk : k = kind <;> simp [after, common, hk]
      · split
        · rfl
        · rename_i shared ts hparts
          have hts := fun c hc => ih c (mem_parts_of_floatParts hparts hc)
          exact ((Z.foldlM_bind_after hts seen none 0).trans (by rw [common_none]; rfl)).symm
    · exact (hafter 0).symm

theorem countPart_right_comm (acc : FloatCount) (c d : TypeId) :
    (Z.countPart limit true acc c).bind (Z.countPart limit true · d) =
      (Z.countPart limit true acc d).bind (Z.countPart limit true · c) := by
  simp only [countPart_eq (Z.countsAlone limit _)]
  cases Z.countFloats limit none c with
  | none => cases Z.countFloats limit none d <;> simp
  | some f =>
    cases Z.countFloats limit none d with
    | none => simp
    | some g => exact add_right_comm acc f g

/-- Parts that share a place are counted alike in any order. -/
theorem foldlM_perm (h : ts.Perm ts') (acc : FloatCount) :
    ts.foldlM (Z.countPart limit true) acc = ts'.foldlM (Z.countPart limit true) acc := by
  induction h generalizing acc with
  | nil => rfl
  | cons c h ih =>
    rw [List.foldlM_cons, List.foldlM_cons]
    congr 1
    funext acc
    exact ih acc
  | swap c d ts =>
    simp only [List.foldlM_cons, Option.bind_eq_bind]
    have hcomm : (Z.countPart limit true acc d).bind (Z.countPart limit true · c) = _ :=
      countPart_right_comm acc d c
    simpa only [Option.bind_assoc] using
      congrArg (Option.bind · fun acc => ts.foldlM (Z.countPart limit true) acc) hcomm
  | trans h h' ih ih' => rw [ih, ih']

theorem countAlike (h : Z.Alike t t') : Z.CountAlike limit t t' := by
  have inStep : ∀ {t t' : TypeId}, Z.InStep (fun c c' => Z.Alike c c' ∧ Z.CountAlike limit c c') t t' →
      Z.CountAlike limit t t' := fun h =>
    h.countAlike (fun _ _ hc => hc.1.takesRoom_eq) (fun _ _ hc => layout_alike hc.1) fun _ _ hc => hc.2
  have both : ∀ {ts ts' : List TypeId}, ts.length = ts'.length → (∀ p ∈ ts.zip ts', Z.Alike p.1 p.2) →
      (∀ p ∈ ts.zip ts', Z.CountAlike limit p.1 p.2) →
      List.Forall₂ (fun c c' => Z.Alike c c' ∧ Z.CountAlike limit c c') ts ts' := fun hlen h ih =>
    forall₂_of_zip hlen fun p hp => ⟨h p hp, ih p hp⟩
  induction h with
  | refl t => exact fun seen => rfl
  | array hd hd' h ih => exact inStep (.array hd hd' ⟨h, ih⟩)
  | optional hd hd' _ h ih => exact inStep (.optional hd hd' h.hasInBandNull_eq ⟨h, ih⟩)
  | errorUnion hd hd' h ih => exact inStep (.errorUnion hd hd' ⟨h, ih⟩)
  | struct hd hd' hs hs' hlen h ih => exact inStep (.struct hd hd' (hs.trans hs'.symm) (both hlen h ih))
  | tuple hd hd' hlen h ih => exact inStep (.tuple hd hd' (both hlen h ih))
  | @union t t' u u' ts hd hd' hu hu' htag hperm hlen h ih =>
    have hkinds : Z.floatKind? t = none ∧ Z.floatKind? t' = none := by simp [floatKind?, hd, hd']
    have hwhole : Z.Alike t t' := .union hd hd' hu hu' htag hperm hlen h
    refine countAlike_of_parts hwhole.takesRoom_eq hkinds.1 hkinds.2 ?_
    have hstores : Z.storesTag u = Z.storesTag u' := by
      rw [storesTag, storesTag, storedTag?_eq htag (hperm.length_eq.trans hlen)]
    have hmembers : (u.memberTypes.filter fun c => 0 < (Z.layout c).size).foldlM (Z.countPart limit true) =
        (ts.filter fun c => 0 < (Z.layout c).size).foldlM (Z.countPart limit true) := by
      funext acc
      exact foldlM_perm (hperm.filter _) acc
    have hsized := (both hlen h ih).imp fun c c' hc => And.intro (layout_alike hc.1) hc.2
    simp only [countParts?, floatParts?, hd, hd', hu, hu', hstores]
    split
    · rfl
    · simp [hmembers, foldlM_sized hsized]

theorem homogeneousFloats?_alike (h : Z.Alike t t') (limit : Nat) :
    Z.homogeneousFloats? t limit = Z.homogeneousFloats? t' limit :=
  homogeneousFloats?_eq (fun _ => countAlike h) limit

end Sizing

end MachineAbi
