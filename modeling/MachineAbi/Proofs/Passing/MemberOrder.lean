import MachineAbi.Proofs.Passing.Alike
import MachineAbi.Proofs.Passing.Lone

/-!
# The order of union members at a call

Types that differ in the order of union members only (`SealedPool.Alike`) are passed and returned in the same way by
every convention (`Sizing.classes_eq_of_alike`), but for System V on x86-64. There the classes of an eightbyte are
merged in order, and the order matters where an integer meets two other classes that go to memory together
(`SysV.Contested`): it prevails only if it comes before they have met. By the rules for merging, half of a float of the
x87 unit goes to memory with any class but an integer (`SysV.ContestedByX87`). Nothing is said of what the upper half of
a 16-byte float or vector and another class come to (`SysV.ContestedByUpper`).

The scalars inside types that are alike are the same, in some other order (`Sizing.scalarsWithin_perm`), and so is what
they lend to an eightbyte. The other conventions ask for sizes, for the floats of a type, or for its only member.
-/

namespace MachineAbi

open SealedPool

variable {Z : Sizing} {t t' : TypeId} {ts ts' : List TypeId}

/-! ## Conventions that go by size -/

theorem Win64.kind_of_isAggregate (h : Z.isAggregate t = true) :
    kind Z t = if (Z.layout t).size ∈ [1, 2, 4, 8] then .integer else .memory := by
  unfold isAggregate at h
  unfold kind
  split at h
  all_goals simp_all

theorem Arm.kind_of_isAggregate (hardFloat isReturn : Bool) (h : Z.isAggregate t = true) :
    kind Z hardFloat isReturn t = aggregateKind Z hardFloat t := by
  have hscalar := isScalar_of_isAggregate h
  unfold isAggregate at h
  unfold kind
  split at h
  all_goals simp_all

theorem RiscV.kind_of_isAggregate (h : Z.isAggregate t = true) :
    kind Z t =
      ((if Z.target.features.riscvD then floatFields? Z t else none).map .fields).getD (aggregateKind Z t) := by
  have hscalar := isScalar_of_isAggregate h
  unfold isAggregate at h
  unfold kind
  generalize (if Z.target.features.riscvD then floatFields? Z t else none) = fields
  split at h
  all_goals cases fields <;> simp_all

theorem not_float_of_isAggregate (h : Z.isAggregate t = true) (bits : Nat) : Z.get t ≠ .float bits := by
  unfold isAggregate at h
  split at h
  all_goals simp_all

theorem Win64.kind_alike (h : Z.Alike t t') : kind Z t = kind Z t' := by
  rcases h.eq_or_isAggregate with rfl | ⟨ht, ht'⟩
  · rfl
  · rw [kind_of_isAggregate ht, kind_of_isAggregate ht', Sizing.layout_alike h]

theorem Aarch64.kind_alike (h : Z.Alike t t') : kind Z t = kind Z t' := by
  rcases h.eq_or_isAggregate with rfl | ⟨ht, ht'⟩
  · rfl
  · simp only [kind, isScalar_of_isAggregate ht, isScalar_of_isAggregate ht', Bool.false_eq_true, if_false,
      Sizing.homogeneousFloats?_alike h, Sizing.layout_alike h]

theorem Arm.kind_alike (h : Z.Alike t t') (hardFloat isReturn : Bool) :
    kind Z hardFloat isReturn t = kind Z hardFloat isReturn t' := by
  rcases h.eq_or_isAggregate with rfl | ⟨ht, ht'⟩
  · rfl
  · rw [kind_of_isAggregate _ _ ht, kind_of_isAggregate _ _ ht', aggregateKind, aggregateKind,
      Sizing.homogeneousFloats?_alike h, Sizing.layout_alike h]

theorem Arm.widenedHalf?_alike (h : Z.Alike t t') : widenedHalf? Z t = widenedHalf? Z t' :=
  h.agree (a := none) fun c hc => by simp [widenedHalf?, not_float_of_isAggregate hc]

theorem RiscV.widenedHalf?_alike (h : Z.Alike t t') : widenedHalf? Z t = widenedHalf? Z t' :=
  h.agree (a := none) fun c hc => by simp [widenedHalf?, not_float_of_isAggregate hc]

/-! ## Fields on their own -/

namespace RiscV

theorem fieldKind_of_isAggregate (h : Z.isAggregate t = true) : fieldKind Z t = .other := by
  unfold isAggregate at h
  unfold fieldKind
  split at h
  all_goals simp_all

/-- The fields of a struct, if they travel on their own. -/
def onTheirOwn? (Z : Sizing) (fields : List TypeId) : Option (List Slot) :=
  let kinds := fields.map (fieldKind Z)
  if fields.length ≤ 2 ∧ .other ∉ kinds ∧ .float ∈ kinds then some (fields.map .source) else none

/-- Fields that travel on their own are scalars, and so they are the same in types that are alike. -/
theorem onTheirOwn?_alike (h : List.Forall₂ Z.Alike ts ts') : onTheirOwn? Z ts = onTheirOwn? Z ts' := by
  have hkinds : ts.map (fieldKind Z) = ts'.map (fieldKind Z) :=
    map_eq_of_forall₂ (h.imp fun c c' hc => hc.agree fun _ => fieldKind_of_isAggregate)
  have hsame : .other ∉ ts.map (fieldKind Z) → ts = ts' := by
    clear hkinds
    intro hno
    induction h with
    | nil => rfl
    | @cons c c' ts ts' hc h ih =>
      obtain ⟨hfirst, hrest⟩ := not_or.1 (fun hm => hno (List.mem_cons.2 hm))
      rcases hc.eq_or_isAggregate with rfl | ⟨hagg, -⟩
      · rw [ih hrest]
      · exact absurd (fieldKind_of_isAggregate hagg).symm hfirst
  unfold onTheirOwn?
  dsimp only
  rw [h.length_eq, hkinds]
  split
  · rename_i hon
    rw [hsame (hkinds ▸ hon.2.1)]
  · rfl

theorem floatFields?_alike (h : Z.Alike t t') : floatFields? Z t = floatFields? Z t' := by
  have stored : ∀ {ts ts' : List TypeId}, ts.length = ts'.length → (∀ p ∈ ts.zip ts', Z.Alike p.1 p.2) →
      onTheirOwn? Z (ts.filter Z.takesRoom) = onTheirOwn? Z (ts'.filter Z.takesRoom) := fun hlen h =>
    onTheirOwn?_alike (forall₂_filter (forall₂_of_zip hlen h) fun c c' hc => hc.takesRoom_eq)
  show (storedFields? Z t).bind (onTheirOwn? Z) = (storedFields? Z t').bind (onTheirOwn? Z)
  unfold storedFields?
  cases h with
  | refl => rfl
  | struct hd hd' hs hs' hlen h => simp [hd, hd', hs, hs', stored hlen h]
  | tuple hd hd' hlen h => simp [hd, hd', stored hlen h]
  | array hd hd' | optional hd hd' | errorUnion hd hd' | union hd hd' => simp [hd, hd']

theorem kind_alike (h : Z.Alike t t') : kind Z t = kind Z t' := by
  rcases h.eq_or_isAggregate with rfl | ⟨ht, ht'⟩
  · rfl
  · rw [kind_of_isAggregate ht, kind_of_isAggregate ht', floatFields?_alike h, aggregateKind, aggregateKind,
      Sizing.layout_alike h]

end RiscV

/-! ## The only member -/

namespace Wasm

theorem theOnly?_perm (h : ts.Perm ts') : theOnly? Z ts = theOnly? Z ts' := by
  have hfilter := h.filter Z.takesRoom
  unfold theOnly?
  split
  · rename_i c hc
    rw [hc] at hfilter
    rw [List.perm_singleton.1 hfilter.symm]
  · rename_i hno
    split
    · rename_i c hc
      rw [hc] at hfilter
      exact absurd (List.perm_singleton.1 hfilter) (hno c)
    · rfl

theorem theOnly?_bind_eq {α : Type} {f : TypeId → Option α}
    (h : List.Forall₂ (fun c c' => Z.takesRoom c = Z.takesRoom c' ∧ f c = f c') ts ts') :
    (theOnly? Z ts).bind f = (theOnly? Z ts').bind f := by
  have honly := theOnly?_inStep h fun c c' hc => hc.1
  generalize theOnly? Z ts = c?, theOnly? Z ts' = c'? at honly ⊢
  cases honly with
  | none => rfl
  | some hc => exact hc.2

theorem direct?_alike (h : Z.Alike t t') : direct? Z t = direct? Z t' := by
  have whole : ∀ {t t' : TypeId}, Z.Alike t t' → (∀ n, ((onlyMember? Z t).bind fun c =>
      if (Z.layout c).size = n then direct? Z c else none) = (onlyMember? Z t').bind fun c =>
        if (Z.layout c).size = n then direct? Z c else none) → direct? Z t = direct? Z t' := by
    intro t t' h hmember
    rcases h.eq_or_isAggregate with rfl | ⟨ht, ht'⟩
    · rfl
    · rw [direct?_eq, direct?_eq Z t', if_neg (by simp [isScalar_of_isAggregate ht]),
        if_neg (by simp [isScalar_of_isAggregate ht']), hmember, Sizing.layout_alike h]
  have only : ∀ {ts ts' : List TypeId}, ts.length = ts'.length → (∀ p ∈ ts.zip ts', Z.Alike p.1 p.2) →
      (∀ p ∈ ts.zip ts', direct? Z p.1 = direct? Z p.2) → ∀ n, ((theOnly? Z ts).bind fun c =>
        if (Z.layout c).size = n then direct? Z c else none) = (theOnly? Z ts').bind fun c =>
          if (Z.layout c).size = n then direct? Z c else none := by
    intro ts ts' hlen h ih n
    refine theOnly?_bind_eq (forall₂_of_zip hlen fun p hp => ⟨(h p hp).takesRoom_eq, ?_⟩)
    rw [Sizing.layout_alike (h p hp), ih p hp]
  induction h with
  | refl t => rfl
  | array hd hd' h => exact whole (.array hd hd' h) fun n => by simp only [onlyMember?, hd, hd']
  | optional hd hd' hs h => exact whole (.optional hd hd' hs h) fun n => by simp only [onlyMember?, hd, hd']
  | errorUnion hd hd' h => exact whole (.errorUnion hd hd' h) fun n => by simp only [onlyMember?, hd, hd']
  | struct hd hd' hs hs' hlen h ih =>
    refine whole (.struct hd hd' hs hs' hlen h) fun n => ?_
    simpa [onlyMember?, hd, hd', hs, hs'] using only hlen h ih n
  | tuple hd hd' hlen h ih =>
    refine whole (.tuple hd hd' hlen h) fun n => ?_
    simpa [onlyMember?, hd, hd'] using only hlen h ih n
  | @union t t' u u' ts hd hd' hu hu' htag hperm hlen h ih =>
    refine whole (.union hd hd' hu hu' htag hperm hlen h) fun n => ?_
    have hstores : Z.storesTag u = Z.storesTag u' := by
      rw [storesTag, storesTag, Sizing.storedTag?_eq htag (hperm.length_eq.trans hlen)]
    simp only [onlyMember?, hd, hd', hstores]
    split
    · rfl
    · rw [theOnly?_perm hperm]
      exact only hlen h ih n

/-- What travels directly travels as a scalar. -/
theorem isScalar_of_direct {c : TypeId} (h : direct? Z t = some c) : Z.isScalar c = true := by
  induction t using Z.induction_on_parts with
  | step t ih =>
    rw [direct?_eq] at h
    split at h
    · rename_i hs
      cases h
      exact hs
    · obtain ⟨d, hd, h⟩ := Option.bind_eq_some_iff.1 h
      split at h
      · exact ih d (mem_parts_of_onlyMember hd) h
      · cases h

theorem classify_alike (h : Z.Alike t t') :
    classifyParam Z t = classifyParam Z t' ∧ classifyReturn Z t = classifyReturn Z t' := by
  rcases h.eq_or_isAggregate with rfl | ⟨ht, ht'⟩
  · exact ⟨rfl, rfl⟩
  have hne : ∀ {a c : TypeId}, Z.isAggregate a = true → direct? Z t' = some c → c ≠ a := by
    rintro a c ha hc rfl
    have hscalar := isScalar_of_direct hc
    rw [isScalar_of_isAggregate ha] at hscalar
    cases hscalar
  unfold classifyParam classifyReturn
  rw [direct?_alike h]
  cases hdirect : direct? Z t' with
  | none => exact ⟨rfl, rfl⟩
  | some c => simp only [if_neg (hne ht hdirect), if_neg (hne ht' hdirect), and_self]

end Wasm

/-! ## Scalars -/

namespace Sizing

/-- Types that are alike have members that are, some of them in another order. -/
theorem members_alike (h : Z.Alike t t') :
    ∃ ms, (Z.members t).Perm ms ∧ List.Forall₂ (MembersInStep Z.Alike) ms (Z.members t') := by
  have inStep : Z.InStep Z.Alike t t' →
      ∃ ms, (Z.members t).Perm ms ∧ List.Forall₂ (MembersInStep Z.Alike) ms (Z.members t') := fun h =>
    ⟨_, .refl _, h.members .refl (fun _ _ hc => hc.takesRoom_eq) fun _ _ => layout_alike⟩
  cases h with
  | refl => exact ⟨_, .refl _, List.forall₂_same.2 fun m _ => ⟨.refl _, rfl⟩⟩
  | array hd hd' h => exact inStep (.array hd hd' h)
  | optional hd hd' _ h => exact inStep (.optional hd hd' h.hasInBandNull_eq h)
  | errorUnion hd hd' h => exact inStep (.errorUnion hd hd' h)
  | struct hd hd' hs hs' hlen h => exact inStep (.struct hd hd' (hs.trans hs'.symm) (forall₂_of_zip hlen h))
  | tuple hd hd' hlen h => exact inStep (.tuple hd hd' (forall₂_of_zip hlen h))
  | @union _ _ u u' us hd hd' hu hu' htag hperm hlen h =>
    have hstep := forall₂_of_zip hlen h
    have hlayouts : us.map Z.layout = u'.memberTypes.map Z.layout :=
      map_eq_of_forall₂ (hstep.imp fun c c' => layout_alike)
    have hsized := forall₂_filter (p := fun c => 0 < (Z.layout c).size) hstep fun c c' hc => by
      simp only [layout_alike hc]
    have hheld : ∀ offset : Nat, ∃ ms : List Member,
        ((u.memberTypes.filter fun c => 0 < (Z.layout c).size).map (⟨·, offset⟩)).Perm ms ∧
          List.Forall₂ (MembersInStep Z.Alike) ms
            ((u'.memberTypes.filter fun c => 0 < (Z.layout c).size).map (⟨·, offset⟩)) := fun offset =>
      ⟨_, (hperm.filter _).map _, map_inStep hsized offset⟩
    simp only [members, hd, hd', hu, hu', payloadLayout_eq hperm hlayouts,
      storedTag?_eq htag (hperm.length_eq.trans hlen), Bool.false_eq_true, if_false]
    split
    · obtain ⟨ms, hms, hstep⟩ := hheld (payloadOffset (Z.layout _) (Z.payloadLayout u'))
      exact ⟨_, hms.cons _, .cons ⟨.refl _, rfl⟩ hstep⟩
    · exact hheld 0

/-- The scalars inside types that are alike are the same, in some order. -/
theorem scalarsWithin_perm (n : Nat) (h : Z.Alike t t') : (Z.scalarsWithin n t).Perm (Z.scalarsWithin n t') := by
  induction n generalizing t t' with
  | zero => exact .refl _
  | succ n ih =>
    rcases h.eq_or_isAggregate with rfl | ⟨ht, ht'⟩
    · exact .refl _
    have hatom : ∀ c, Z.isAggregate c = true → Z.isAtom c = false := by
      intro c hc
      unfold isAggregate at hc
      unfold isAtom
      split at hc
      all_goals simp_all
    obtain ⟨ms, hms, hstep⟩ := members_alike h
    rw [scalarsWithin, scalarsWithin, if_neg (by simp [hatom t ht]), if_neg (by simp [hatom t' ht'])]
    refine (hms.flatMap_right _).trans ?_
    generalize Z.members t' = ms' at hstep
    clear hms
    induction hstep with
    | nil => exact .refl _
    | cons hm _ ihm =>
      rw [List.flatMap_cons, List.flatMap_cons, hm.2]
      exact ((ih hm.1).map _).append ihm

theorem scalars_perm (h : Z.Alike t t') : (Z.scalars t).Perm (Z.scalars t') := scalarsWithin_perm _ h

end Sizing

/-! ## Eightbytes -/

namespace SysV

open EightbyteClass

/-- At most two eightbytes, and to one of them an integer and classes that clash are lent. -/
def Contested (clash : List EightbyteClass → Prop) (Z : Sizing) (t : TypeId) : Prop :=
  (Z.layout t).size ≤ 16 ∧ ∃ k < 2, integer ∈ lent Z k (Z.scalars t) ∧ clash (lent Z k (Z.scalars t))

/-- An integer, half of a float of the x87 unit, and another class that is no integer. -/
def ContestedByX87 : Sizing → TypeId → Prop := Contested ClashOfX87

/-- An integer, the upper half of a 16-byte float or vector, and another class that is no integer. -/
def ContestedByUpper : Sizing → TypeId → Prop := Contested (ClashOf sseUp)

theorem contested_clash_iff : Contested Clash Z t ↔ ContestedByX87 Z t ∨ ContestedByUpper Z t := by
  simp only [ContestedByX87, ContestedByUpper, Contested, clash_iff, and_or_left, exists_or]

theorem of?_alike (h : Z.Alike t t') (hno : ¬Contested Clash Z t) : Eightbytes.of? Z t = Eightbytes.of? Z t' := by
  have hscalars := Sizing.scalars_perm h
  rw [Eightbytes.of?, Eightbytes.of?, Sizing.layout_alike h]
  split
  · rfl
  rename_i hs
  have hclasses : Eightbytes.empty.classify Z t 0 = Eightbytes.empty.classify Z t' 0 := by
    refine Eightbytes.ext_half (fun k hk => ?_) ?_
    · rw [half_classify, half_classify]
      refine mergeAll_perm (hscalars.map _) (fun c hc => isSimple_of_mem_lent hk hc) fun hint hclash => hno ?_
      rw [← Sizing.layout_alike h] at hs
      exact ⟨Nat.le_of_not_lt hs, k, hk, hint, hclash⟩
    · rw [overflow_classify, overflow_classify, hscalars.any_eq]
  rw [hclasses]

theorem classify_alike (h : Z.Alike t t') (hno : ¬Contested Clash Z t) :
    classifyParam Z t = classifyParam Z t' ∧ classifyReturn Z t = classifyReturn Z t' := by
  unfold classifyParam classifyReturn
  rw [h.isScalar_eq, of?_alike h hno]
  exact ⟨rfl, rfl⟩

end SysV

/-! ## All conventions -/

theorem Classifier.classify_alike (c : Classifier) (h : Z.Alike t t')
    (hno : c = .sysv → ¬SysV.Contested SysV.EightbyteClass.Clash Z t) :
    c.classifyParam Z t = c.classifyParam Z t' ∧ c.classifyReturn Z t = c.classifyReturn Z t' := by
  unfold classifyParam classifyReturn
  cases c with
  | sysv => exact SysV.classify_alike h (hno rfl)
  | win64 => simp only [Win64.classifyParam, Win64.classifyReturn, Win64.kind_alike h, h.isScalar_eq, and_self]
  | aarch64 => simp only [Aarch64.classifyParam, Aarch64.classifyReturn, Aarch64.kind_alike h, and_self]
  | armSoft | armVfp =>
    simp only [Arm.classifyParam, Arm.classifyReturn, Arm.kind_alike h, Arm.widenedHalf?_alike h, and_self]
  | riscv =>
    simp only [RiscV.classifyParam, RiscV.classifyReturn, RiscV.kind_alike h, RiscV.widenedHalf?_alike h, and_self]
  | wasm => exact Wasm.classify_alike h
  | generic => exact ⟨rfl, rfl⟩

namespace Sizing

/-- The order of union members makes no difference at a call, except where System V has an integer in one eightbyte
with half of a float of the x87 unit and another class. Left open are eightbytes in which it is the upper half of a
16-byte float or vector. -/
theorem classes_eq_of_alike (h : Z.Alike t t') (cc : CallConv)
    (hx87 : classifierFor cc Z.target = .ok (some .sysv) → ¬SysV.ContestedByX87 Z t)
    (hupper : classifierFor cc Z.target = .ok (some .sysv) → ¬SysV.ContestedByUpper Z t) :
    Z.classifyParam cc t = Z.classifyParam cc t' ∧ Z.classifyReturn cc t = Z.classifyReturn cc t' := by
  have hno : classifierFor cc Z.target = .ok (some .sysv) → ¬SysV.Contested SysV.EightbyteClass.Clash Z t :=
    fun hc hcontested => (SysV.contested_clash_iff.1 hcontested).elim (hx87 hc) (hupper hc)
  have hclass : ∀ c, classifierFor cc Z.target = .ok c →
      Z.paramClass c t = Z.paramClass c t' ∧ Z.returnClass c t = Z.returnClass c t' := by
    intro c hc
    unfold paramClass returnClass
    rw [h.takesRoom_eq, h.isSlice_eq, h.isOptionalSlice_eq, h.isErrorType_eq, h.isByReference_eq]
    cases c with
    | none => exact ⟨rfl, rfl⟩
    | some c =>
      obtain ⟨hparam, hreturn⟩ := Classifier.classify_alike c h fun hsysv => hno (hsysv ▸ hc)
      simp only [hparam, hreturn, and_self]
  unfold classifyParam classifyReturn
  cases hc : classifierFor cc Z.target with
  | error e => exact ⟨rfl, rfl⟩
  | ok c =>
    obtain ⟨hparam, hreturn⟩ := hclass c hc
    exact ⟨congrArg Except.ok hparam, congrArg Except.ok hreturn⟩

/-- A struct of a union of a word and a double, and one with the members of the union in the other order. -/
theorem alike_numbers : mixing.Alike ⟨28⟩ ⟨29⟩ := by
  have hunion : mixing.Alike ⟨26⟩ ⟨27⟩ := by
    have hperm : List.Perm [⟨10⟩, ⟨16⟩] ([⟨16⟩, ⟨10⟩] : List TypeId) := .swap _ _ _
    refine .union rfl rfl rfl rfl rfl hperm rfl fun p hp => ?_
    rcases List.mem_cons.1 hp with rfl | hp
    · exact .refl _
    · obtain rfl := List.mem_singleton.1 hp
      exact .refl _
  refine .struct rfl rfl rfl rfl rfl fun p hp => ?_
  rcases List.mem_cons.1 hp with rfl | hp
  · exact hunion
  · obtain rfl := List.mem_singleton.1 hp
    exact .refl _

theorem not_contested_numbers : ¬SysV.Contested SysV.EightbyteClass.Clash .mixing ⟨28⟩ := by
  rintro ⟨-, k, hk, -, a, ha, hs, -⟩
  have hnone : ∀ k < 2, ∀ a ∈ SysV.lent .mixing k (Sizing.mixing.scalars ⟨28⟩), a.standsAlone = false := by decide
  rw [hnone k hk a ha] at hs
  cases hs

theorem classes_eq_of_alike_numbers : mixing.Alike ⟨28⟩ ⟨29⟩ ∧
    mixing.classifyParam .c ⟨28⟩ = mixing.classifyParam .c ⟨29⟩ ∧
    mixing.classifyReturn .c ⟨28⟩ = mixing.classifyReturn .c ⟨29⟩ := by
  obtain ⟨hx87, hupper⟩ := not_or.1 fun h => not_contested_numbers (SysV.contested_clash_iff.2 h)
  exact ⟨alike_numbers, classes_eq_of_alike alike_numbers .c (fun _ => hx87) fun _ => hupper⟩

/-- A float of the x87 unit, a double and an integer in one place go to memory, or into registers if the integer comes
before the double. -/
theorem exists_classes_ne : ∃ (Z : Sizing) (t t' : TypeId) (u u' : UnionTy), Z.Regular ∧ Z.ErrorsAreCodes ∧
    Z.TagsAreIntegers ∧ Z.get t = .union u ∧ Z.get t' = .union u' ∧ u.isPacked = false ∧ u'.isPacked = false ∧
    u.tag = u'.tag ∧ u.memberTypes.Perm u'.memberTypes ∧ Z.classifyParam .c t ≠ Z.classifyParam .c t' ∧
    Z.classifyReturn .c t ≠ Z.classifyReturn .c t' :=
  ⟨.mixing, ⟨24⟩, ⟨25⟩, _, _, regular_mixing, errorsAreCodes_mixing, tagsAreIntegers_mixing, rfl, rfl, rfl, rfl, rfl,
    (List.Perm.swap _ _ _).cons _, by decide, by decide⟩

end Sizing

end MachineAbi
