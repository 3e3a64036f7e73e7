import MachineAbi.Passing.Classifier
import MachineAbi.Proofs.Passing.Recursion
import MachineAbi.Proofs.Source.Reach
import MachineAbi.Proofs.Source.Regular

/-!
# What answers depend on

What is asked about a type depends on nothing but what the type reaches. Two sizings for one target that have the same
types there (`Sizing.SameOn`) agree on the room of the type, on whether it is handled through a pointer, on its members,
and on how every convention passes and returns it.

So further calls that define no container among what the type reaches leave all these answers as they are
(`Sizing.answers_grown`), whatever becomes of the rest of the pool. In particular the fields of a struct may be defined
after pointers to it have been asked about.
-/

namespace MachineAbi

/-- The same answers to all questions about type `t`. -/
structure Sizing.AnswersAlike (Z Z' : Sizing) (t : TypeId) : Prop where
  takesRoom : Z'.takesRoom t = Z.takesRoom t
  packedWidth : Z'.packedWidth t = Z.packedWidth t
  layout : Z'.layout t = Z.layout t
  isByReference : Z'.isByReference t = Z.isByReference t
  members : Z'.members t = Z.members t
  classifyParam : ∀ cc, Z'.classifyParam cc t = Z.classifyParam cc t
  classifyReturn : ∀ cc, Z'.classifyReturn cc t = Z.classifyReturn cc t

/-- The two sizings are for one target and have the same types among some that consult only each other, and no type of
the first consults itself. -/
structure Sizing.SameOn (Z Z' : Sizing) (S : TypeId → Prop) : Prop where
  target : Z'.target = Z.target
  get : ∀ {t}, S t → Z'.get t = Z.get t
  closed : ∀ {t c}, S t → c ∈ Z.consulted t → S c
  /-- The byte that says whether an optional is there. -/
  u8 : S .u8
  size : Z.size ≤ Z'.size
  grounded : Z.Grounded

/-! ## Rules -/

namespace SealedPool

variable {P P' : SealedPool} {T : Target}

theorem optionalRepr_congr {child : TypeId} (hroom : P'.takesRoom child = P.takesRoom child)
    (hnull : P'.hasInBandNull child = P.hasInBandNull child) : P'.optionalRepr child = P.optionalRepr child := by
  rw [optionalRepr, optionalRepr, hroom, hnull]

theorem storedTag?_congr {u : UnionTy} (hroom : ∀ c ∈ (Ty.union u).consulted, P'.takesRoom c = P.takesRoom c) :
    P'.storedTag? u = P.storedTag? u := by
  rw [storedTag?, storedTag?]
  cases ht : u.usedTag? with
  | none => rfl
  | some tag => rw [Option.filter_some, Option.filter_some, hroom tag (List.mem_append_left _ (by simp [ht]))]

/-- What the room of a type depends on besides that of its parts. -/
theorem infer_extentRule_congr {d : Ty} (f : TypeId → Extent)
    (hroom : ∀ c ∈ d.consulted, P'.takesRoom c = P.takesRoom c)
    (hnull : ∀ c ∈ d.consulted, P'.hasInBandNull c = P.hasInBandNull c) :
    (P'.extentRule T).infer f d = (P.extentRule T).infer f d := by
  cases d with
  | optional child =>
    have hc : child ∈ (Ty.optional child).consulted := List.mem_singleton_self _
    dsimp only [extentRule]
    rw [optionalRepr_congr (hroom child hc) (hnull child hc)]
  | errorUnion set payload =>
    dsimp only [extentRule]
    rw [hroom set (by simp [Ty.consulted]), hroom payload (by simp [Ty.consulted])]
  | union u =>
    dsimp only [extentRule]
    rw [storedTag?_congr hroom]
  | _ => rfl

end SealedPool

theorem Member.sequence_congr {f g : TypeId → Layout} {ts : List TypeId} (h : ∀ c ∈ ts, f c = g c) (offset : Nat) :
    sequence f offset ts = sequence g offset ts := by
  induction ts generalizing offset with
  | nil => rfl
  | cons t ts ih =>
    rw [sequence, sequence, h t List.mem_cons_self, ih fun c hc => h c (List.mem_cons_of_mem _ hc)]

theorem RiscV.mem_parts_of_storedFields {Z : Sizing} {t c : TypeId} {fields : List TypeId}
    (h : storedFields? Z t = some fields) (hc : c ∈ fields) : c ∈ Z.parts t := by
  unfold storedFields? at h
  split at h
  next s hd =>
    obtain ⟨-, hfields⟩ := Option.ite_none_left_eq_some.1 h
    rw [← Option.some.inj hfields] at hc
    exact SealedPool.mem_parts hd (List.mem_filter.1 hc).1
  next fields hd =>
    rw [← Option.some.inj h] at hc
    exact SealedPool.mem_parts hd (List.mem_filter.1 hc).1
  next => cases h

namespace Sizing.SameOn

variable {Z Z' : Sizing} {S : TypeId → Prop} {t c : TypeId}

theorem of_consulted (h : Z.SameOn Z' S) (ht : S t) {d : Ty} (hd : Z.get t = d) (hc : c ∈ d.consulted) : S c :=
  h.closed ht (Pool.mem_consulted hd hc)

theorem of_parts (h : Z.SameOn Z' S) (ht : S t) (hc : c ∈ Z.parts t) : S c :=
  h.closed ht (Ty.parts_subset_consulted _ hc)

theorem induction (h : Z.SameOn Z' S) {motive : TypeId → Prop}
    (step : ∀ t, S t → (∀ c ∈ Z.consulted t, motive c) → motive t) (ht : S t) : motive t :=
  h.grounded.induction (motive := fun t => S t → motive t)
    (fun t ih ht => step t ht fun c hc => ih c hc (h.closed ht hc)) t ht

/-! ## Room -/

theorem takesRoom_eq (h : Z.SameOn Z' S) (ht : S t) : Z'.takesRoom t = Z.takesRoom t := by
  refine h.induction (motive := fun t => Z'.takesRoom t = Z.takesRoom t) (fun t ht ih => ?_) ht
  have hZ : Z.takesRoom t = roomRule.infer Z.takesRoom (Z.get t) := Z.rooms_hold t
  have hZ' : Z'.takesRoom t = roomRule.infer Z'.takesRoom (Z'.get t) := Z'.rooms_hold t
  rw [hZ, hZ', h.get ht]
  exact Pool.infer_roomRule_congr _ ih

theorem filter_takesRoom_eq (h : Z.SameOn Z' S) (ht : S t) {d : Ty} (hd : Z.get t = d) {ts : List TypeId}
    (hts : ts ⊆ d.consulted) : ts.filter Z'.takesRoom = ts.filter Z.takesRoom :=
  List.filter_congr fun _ hc => h.takesRoom_eq (h.of_consulted ht hd (hts hc))

theorem hasInBandNull_eq (h : Z.SameOn Z' S) (ht : S t) : Z'.hasInBandNull t = Z.hasInBandNull t := by
  rw [SealedPool.hasInBandNull, h.get ht]
  rfl

theorem optionalRepr_eq (h : Z.SameOn Z' S) (ht : S t) : Z'.optionalRepr t = Z.optionalRepr t :=
  SealedPool.optionalRepr_congr (h.takesRoom_eq ht) (h.hasInBandNull_eq ht)

theorem storedTag?_eq (h : Z.SameOn Z' S) (ht : S t) {u : UnionTy} (hd : Z.get t = .union u) :
    Z'.storedTag? u = Z.storedTag? u :=
  SealedPool.storedTag?_congr fun _ hc => h.takesRoom_eq (h.of_consulted ht hd hc)

theorem storesTag_eq (h : Z.SameOn Z' S) (ht : S t) {u : UnionTy} (hd : Z.get t = .union u) :
    Z'.storesTag u = Z.storesTag u :=
  congrArg Option.isSome (h.storedTag?_eq ht hd)

theorem extent_eq (h : Z.SameOn Z' S) (ht : S t) : Z'.extent t = Z.extent t := by
  refine h.induction (motive := fun t => Z'.extent t = Z.extent t) (fun t ht ih => ?_) ht
  have hZ : Z.extent t = (Z.extentRule Z.target).infer Z.extent (Z.get t) := Z.extents_hold t
  have hZ' : Z'.extent t = (Z'.extentRule Z'.target).infer Z'.extent (Z'.get t) := Z'.extents_hold t
  rw [hZ, hZ', h.get ht, h.target,
    Z'.asksParts_extentRule _ _ _ _ fun c hc => ih c (Ty.parts_subset_consulted _ hc)]
  exact SealedPool.infer_extentRule_congr _ (fun c hc => h.takesRoom_eq (h.closed ht hc))
    fun c hc => h.hasInBandNull_eq (h.closed ht hc)

theorem layout_eq (h : Z.SameOn Z' S) (ht : S t) : Z'.layout t = Z.layout t := congrArg Extent.layout (h.extent_eq ht)

theorem filter_sized_eq (h : Z.SameOn Z' S) (ht : S t) {d : Ty} (hd : Z.get t = d) {ts : List TypeId}
    (hts : ts ⊆ d.consulted) :
    (ts.filter fun c => 0 < (Z'.layout c).size) = ts.filter fun c => 0 < (Z.layout c).size :=
  List.filter_congr fun c hc => by rw [h.layout_eq (h.of_consulted ht hd (hts hc))]

theorem packedWidth_eq (h : Z.SameOn Z' S) (ht : S t) : Z'.packedWidth t = Z.packedWidth t :=
  congrArg Extent.bits (h.extent_eq ht)

theorem isByReference_eq (h : Z.SameOn Z' S) (ht : S t) : Z'.isByReference t = Z.isByReference t := by
  refine h.induction (motive := fun t => Z'.isByReference t = Z.isByReference t) (fun t ht ih => ?_) ht
  rw [Z'.isByReference_eq, Z.isByReference_eq, h.get ht, h.takesRoom_eq ht]
  cases hd : Z.get t with
  | optional child =>
    have hc : child ∈ Z.consulted t := Pool.mem_consulted hd (List.mem_singleton_self _)
    dsimp only
    rw [h.optionalRepr_eq (h.closed ht hc), ih child hc]
  | errorUnion set payload =>
    have hset : set ∈ Z.consulted t := Pool.mem_consulted hd (by simp [Ty.consulted])
    have hpayload : payload ∈ Z.consulted t := Pool.mem_consulted hd (by simp [Ty.consulted])
    dsimp only
    rw [h.takesRoom_eq (h.closed ht hset), h.takesRoom_eq (h.closed ht hpayload), ih payload hpayload]
  | _ => rfl

/-! ## Members -/

theorem members_eq (h : Z.SameOn Z' S) (ht : S t) : Z'.members t = Z.members t := by
  unfold members
  rw [h.get ht]
  cases hd : Z.get t with
  | struct s =>
    have hstored : Member.sequence Z'.layout 0 s.stored = Member.sequence Z.layout 0 s.stored :=
      Member.sequence_congr (fun c hc => h.layout_eq (h.of_consulted ht hd hc)) 0
    dsimp only
    rw [hstored]
  | tuple fields => exact Member.sequence_congr (fun c hc => h.layout_eq (h.of_consulted ht hd hc)) 0
  | array len child sentinel =>
    dsimp only
    by_cases hn : elementCount len sentinel = 0
    · simp [hn]
    · rw [h.layout_eq (h.of_consulted ht hd (by simp [Ty.consulted, Ty.parts, hn]))]
  | optional child =>
    have hc : S child := h.of_consulted ht hd (List.mem_singleton_self _)
    dsimp only
    rw [h.optionalRepr_eq hc]
    refine Member.sequence_congr (fun m hm => h.layout_eq ?_) 0
    rcases OptionalRepr.eq_or_eq_of_mem_order hm with rfl | rfl
    · exact hc
    · exact h.u8
  | errorUnion set payload =>
    have hset : S set := h.of_consulted ht hd (by simp [Ty.consulted])
    have hpayload : S payload := h.of_consulted ht hd (by simp [Ty.consulted])
    have hrepr : Z'.errorUnionRepr set payload = Z.errorUnionRepr set payload := by
      rw [errorUnionRepr, errorUnionRepr, h.takesRoom_eq hset, h.takesRoom_eq hpayload, h.layout_eq hpayload, h.target]
    dsimp only
    rw [hrepr]
    refine Member.sequence_congr (fun m hm => h.layout_eq ?_) 0
    rcases ErrorUnionRepr.eq_or_eq_of_mem_order hm with rfl | rfl
    · exact hset
    · exact hpayload
  | union u =>
    have hlayout : ∀ c ∈ u.memberTypes, Z'.layout c = Z.layout c := fun c hc =>
      h.layout_eq (h.of_consulted ht hd (List.mem_append_right _ hc))
    have hpayload : Z'.payloadLayout u = Z.payloadLayout u := by
      rw [payloadLayout, payloadLayout, List.map_congr_left hlayout]
    dsimp only
    rw [h.filter_sized_eq ht hd (List.subset_append_right _ _), hpayload, h.storedTag?_eq ht hd]
    cases htag : Z.storedTag? u with
    | none => rfl
    | some tag =>
      have hused : u.usedTag? = some tag := (Option.filter_eq_some_iff.1 htag).1
      have hS : S tag := h.of_consulted ht hd (List.mem_append_left _ (by simp [hused]))
      dsimp only
      rw [h.layout_eq hS]
  | _ => rfl

theorem of_mem_members (h : Z.SameOn Z' S) (ht : S t) {m : Member} (hm : m ∈ Z.members t) : S m.ty := by
  rcases mem_parts_of_mem_members hm with hm | ⟨hm, -⟩ | ⟨payload, hd⟩
  · exact h.of_parts ht hm
  · rw [hm]
    exact h.u8
  · exact h.of_consulted ht hd (by simp [Ty.consulted])

/-! ## Shape -/

theorem isSlice_eq (h : Z.SameOn Z' S) (ht : S t) : Z'.isSlice t = Z.isSlice t := by
  rw [Pool.isSlice, h.get ht]
  rfl

theorem isOptionalSlice_eq (h : Z.SameOn Z' S) (ht : S t) : Z'.isOptionalSlice t = Z.isOptionalSlice t := by
  rw [Pool.isOptionalSlice, Pool.isOptionalSlice, h.get ht]
  cases hd : Z.get t with
  | optional child => exact h.isSlice_eq (h.of_consulted ht hd (List.mem_singleton_self _))
  | _ => rfl

theorem isErrorType_eq (h : Z.SameOn Z' S) (ht : S t) : Z'.isErrorType t = Z.isErrorType t := by
  rw [Pool.isErrorType, h.get ht]
  rfl

theorem isScalar_eq (h : Z.SameOn Z' S) (ht : S t) : Z'.isScalar t = Z.isScalar t := by
  rw [SealedPool.isScalar, SealedPool.isScalar, h.get ht]
  cases hd : Z.get t with
  | optional child =>
    have hc : S child := h.of_consulted ht hd (List.mem_singleton_self _)
    dsimp only
    rw [h.optionalRepr_eq hc, h.isSlice_eq hc]
  | _ => rfl

/-! ## Floats -/

theorem floatKind?_eq (h : Z.SameOn Z' S) (ht : S t) : Z'.floatKind? t = Z.floatKind? t := by
  rw [floatKind?, floatKind?, h.get ht, h.target]

theorem floatParts?_eq (h : Z.SameOn Z' S) (ht : S t) (limit : Nat) :
    Z'.floatParts? limit t = Z.floatParts? limit t := by
  unfold floatParts?
  rw [h.get ht]
  cases hd : Z.get t with
  | struct s =>
    dsimp only
    rw [h.filter_sized_eq ht hd (List.Subset.refl s.stored)]
  | tuple fields =>
    dsimp only
    rw [h.filter_sized_eq ht hd (List.Subset.refl (storedTypes fields))]
  | array len child sentinel =>
    dsimp only
    by_cases hn : elementCount len sentinel = 0
    · simp [hn]
    · rw [h.layout_eq (h.of_consulted ht hd (by simp [Ty.consulted, Ty.parts, hn]))]
  | union u =>
    dsimp only
    rw [h.filter_sized_eq ht hd (List.subset_append_right _ _), h.storesTag_eq ht hd]
  | _ => rfl

theorem countFloats_eq (h : Z.SameOn Z' S) (ht : S t) (limit : Nat) (seen : Option FloatKind) :
    Z'.countFloats limit seen t = Z.countFloats limit seen t := by
  refine h.induction (motive := fun t => ∀ seen, Z'.countFloats limit seen t = Z.countFloats limit seen t)
    (fun t ht ih seen => ?_) ht seen
  rw [Z'.countFloats_eq, Z.countFloats_eq, h.takesRoom_eq ht, h.floatKind?_eq ht, h.floatParts?_eq ht]
  split
  · split
    · rfl
    · split
      · rfl
      next ts hparts =>
        let count (Z : Sizing) (q : Option FloatKind × TypeId) : Option FloatCount := Z.countFloats limit q.1 q.2
        have hcount : ∀ c ∈ ts, ∀ kind, count Z' (kind, c) = count Z (kind, c) := fun c hc kind =>
          ih c (Ty.parts_subset_consulted _ (mem_parts_of_floatParts hparts hc)) kind
        exact foldlM_join_congr hcount _
  · rfl

theorem homogeneousFloats?_eq (h : Z.SameOn Z' S) (ht : S t) (limit : Nat) :
    Z'.homogeneousFloats? t limit = Z.homogeneousFloats? t limit := by
  rw [homogeneousFloats?, homogeneousFloats?, h.countFloats_eq ht]

/-! ## Eightbytes -/

section

open SysV

theorem putScalar?_eq (h : Z.SameOn Z' S) (ht : S t) (offset : Nat) (e : Eightbytes) :
    e.putScalar? Z' offset t = e.putScalar? Z offset t := by
  unfold Eightbytes.putScalar? Eightbytes.putFloat
  rw [h.get ht, h.layout_eq ht, h.target]

/-- The members of a type are less deep. -/
theorem membersNest_depth {depth : TypeId → Nat} (h : Z.Depth depth) : Z.MembersNest depth := by
  intro t m hm
  rcases mem_parts_of_mem_members hm with hm | ⟨hm, child, hd⟩ | ⟨payload, hd⟩
  · exact h.lt t _ (Ty.parts_subset_consulted _ hm)
  · have hchild : depth child < depth t := h.lt t child (Pool.mem_consulted hd (List.mem_singleton_self _))
    rw [hm, h.leaf .u8 (by rw [Pool.consulted, Z.get_u8]; rfl)]
    exact Nat.zero_lt_of_lt hchild
  · exact h.lt t _ (Pool.mem_consulted hd List.mem_cons_self)

/-- Any two depths that suffice give the same classes. -/
theorem classifyWithin_eq (h : Z.SameOn Z' S) {depth : TypeId → Nat} (hdepth : Z.Depth depth) {n k : Nat} (ht : S t)
    (hn : depth t < n) (hk : depth t < k) : Eightbytes.classifyWithin Z' n t = Eightbytes.classifyWithin Z k t := by
  induction n generalizing k t with
  | zero => exact absurd hn (Nat.not_lt_zero _)
  | succ n ih =>
    cases k with
    | zero => exact absurd hk (Nat.not_lt_zero _)
    | succ k =>
      funext offset e
      rw [Eightbytes.classifyWithin, Eightbytes.classifyWithin, h.putScalar?_eq ht, h.members_eq ht]
      split
      · rfl
      · refine List.foldl_ext _ _ _ fun e m hm => ?_
        have hlt := membersNest_depth hdepth t m hm
        rw [ih (k := k) (h.of_mem_members ht hm) (by omega) (by omega)]

theorem of?_eq (h : Z.SameOn Z' S) (ht : S t) : Eightbytes.of? Z' t = Eightbytes.of? Z t := by
  obtain ⟨depth, hdepth⟩ := h.grounded.exists_depth
  have hle := hdepth.le_size t
  have hsize := h.size
  -- The larger pool allows more depth, but neither runs out of it.
  have hclassify : Eightbytes.classifyWithin Z' (Z'.size + 1) t = Eightbytes.classifyWithin Z (Z.size + 1) t :=
    h.classifyWithin_eq hdepth ht (by omega) (by omega)
  rw [Eightbytes.of?, Eightbytes.of?, h.layout_eq ht, Eightbytes.classify, Eightbytes.classify,
    hclassify]

end

/-! ## Conventions -/

theorem win64_kind_eq (h : Z.SameOn Z' S) (ht : S t) : Win64.kind Z' t = Win64.kind Z t := by
  rw [Win64.kind, Win64.kind, h.get ht, h.layout_eq ht]

theorem aarch64_kind_eq (h : Z.SameOn Z' S) (ht : S t) : Aarch64.kind Z' t = Aarch64.kind Z t := by
  rw [Aarch64.kind, Aarch64.kind, h.isScalar_eq ht, h.get ht, h.packedWidth_eq ht, h.homogeneousFloats?_eq ht,
    h.layout_eq ht]

theorem arm_kind_eq (h : Z.SameOn Z' S) (ht : S t) (hardFloat isReturn : Bool) :
    Arm.kind Z' hardFloat isReturn t = Arm.kind Z hardFloat isReturn t := by
  have haggregate : Arm.aggregateKind Z' hardFloat t = Arm.aggregateKind Z hardFloat t := by
    rw [Arm.aggregateKind, Arm.aggregateKind, h.layout_eq ht, h.homogeneousFloats?_eq ht]
  rw [Arm.kind, Arm.kind, h.get ht, h.packedWidth_eq ht, h.isScalar_eq ht, haggregate]

theorem riscV_fieldKind_eq (h : Z.SameOn Z' S) (ht : S t) : RiscV.fieldKind Z' t = RiscV.fieldKind Z t := by
  rw [RiscV.fieldKind, RiscV.fieldKind, h.get ht, h.packedWidth_eq ht, h.target]

theorem riscV_storedFields?_eq (h : Z.SameOn Z' S) (ht : S t) : RiscV.storedFields? Z' t = RiscV.storedFields? Z t := by
  rw [RiscV.storedFields?, RiscV.storedFields?, h.get ht]
  cases hd : Z.get t with
  | struct s =>
    dsimp only
    rw [h.filter_takesRoom_eq ht hd (List.Subset.refl s.stored)]
  | tuple fields => exact congrArg some (h.filter_takesRoom_eq ht hd (List.Subset.refl (storedTypes fields)))
  | _ => rfl

theorem riscV_floatFields?_eq (h : Z.SameOn Z' S) (ht : S t) : RiscV.floatFields? Z' t = RiscV.floatFields? Z t := by
  rw [RiscV.floatFields?, RiscV.floatFields?, h.riscV_storedFields?_eq ht]
  refine Option.bind_congr fun fields hfields => ?_
  have hkinds : fields.map (RiscV.fieldKind Z') = fields.map (RiscV.fieldKind Z) :=
    List.map_congr_left fun c hc => h.riscV_fieldKind_eq (h.of_parts ht (RiscV.mem_parts_of_storedFields hfields hc))
  rw [hkinds]

theorem riscV_kind_eq (h : Z.SameOn Z' S) (ht : S t) : RiscV.kind Z' t = RiscV.kind Z t := by
  have haggregate : RiscV.aggregateKind Z' t = RiscV.aggregateKind Z t := by
    rw [RiscV.aggregateKind, RiscV.aggregateKind, h.layout_eq ht, h.target]
  rw [RiscV.kind, RiscV.kind, h.get ht, h.packedWidth_eq ht, h.isScalar_eq ht, h.riscV_floatFields?_eq ht, haggregate,
    h.target]

theorem wasm_onlyMember?_eq (h : Z.SameOn Z' S) (ht : S t) : Wasm.onlyMember? Z' t = Wasm.onlyMember? Z t := by
  have honly : ∀ {d : Ty} {ts : List TypeId}, Z.get t = d → ts ⊆ d.consulted →
      Wasm.theOnly? Z' ts = Wasm.theOnly? Z ts := by
    intro d ts hd hts
    rw [Wasm.theOnly?, Wasm.theOnly?, h.filter_takesRoom_eq ht hd hts]
  rw [Wasm.onlyMember?, Wasm.onlyMember?, h.get ht]
  cases hd : Z.get t with
  | struct s =>
    dsimp only
    rw [honly hd (List.Subset.refl s.stored)]
  | tuple fields => exact honly hd (List.Subset.refl (storedTypes fields))
  | union u =>
    dsimp only
    rw [honly hd (List.subset_append_right _ _), h.storesTag_eq ht hd]
  | _ => rfl

theorem wasm_direct?_eq (h : Z.SameOn Z' S) (ht : S t) : Wasm.direct? Z' t = Wasm.direct? Z t := by
  refine h.induction (motive := fun t => Wasm.direct? Z' t = Wasm.direct? Z t) (fun t ht ih => ?_) ht
  rw [Wasm.direct?_eq Z', Wasm.direct?_eq Z, h.isScalar_eq ht, h.wasm_onlyMember?_eq ht, h.layout_eq ht]
  cases honly : Wasm.onlyMember? Z t with
  | none => rfl
  | some c =>
    have hc : c ∈ Z.consulted t := Ty.parts_subset_consulted _ (Wasm.mem_parts_of_onlyMember honly)
    simp only [Option.bind_some, h.layout_eq (h.closed ht hc), ih c hc]

theorem classifier_eq (h : Z.SameOn Z' S) (ht : S t) (c : Classifier) :
    c.classifyParam Z' t = c.classifyParam Z t ∧ c.classifyReturn Z' t = c.classifyReturn Z t := by
  have hscalar := h.isScalar_eq ht
  cases c with
  | sysv =>
    simp only [Classifier.classifyParam, Classifier.classifyReturn, SysV.classifyParam, SysV.classifyReturn, hscalar,
      h.of?_eq ht, and_self]
  | win64 =>
    simp only [Classifier.classifyParam, Classifier.classifyReturn, Win64.classifyParam, Win64.classifyReturn, hscalar,
      h.win64_kind_eq ht, and_self]
  | aarch64 =>
    simp only [Classifier.classifyParam, Classifier.classifyReturn, Aarch64.classifyParam, Aarch64.classifyReturn,
      h.aarch64_kind_eq ht, and_self]
  | armSoft | armVfp =>
    simp only [Classifier.classifyParam, Classifier.classifyReturn, Arm.classifyParam, Arm.classifyReturn,
      Arm.widenedHalf?, h.arm_kind_eq ht, h.get ht, h.target, and_self]
  | riscv =>
    simp only [Classifier.classifyParam, Classifier.classifyReturn, RiscV.classifyParam, RiscV.classifyReturn,
      RiscV.widenedHalf?, h.riscV_kind_eq ht, h.get ht, h.target, and_self]
  | wasm =>
    simp only [Classifier.classifyParam, Classifier.classifyReturn, Wasm.classifyParam, Wasm.classifyReturn,
      h.wasm_direct?_eq ht, and_self]
  | generic => exact ⟨rfl, rfl⟩

theorem paramClass_eq (h : Z.SameOn Z' S) (ht : S t) (c : Option Classifier) :
    Z'.paramClass c t = Z.paramClass c t := by
  unfold paramClass
  rw [h.takesRoom_eq ht, h.isSlice_eq ht, h.isOptionalSlice_eq ht, h.isByReference_eq ht]
  cases c with
  | none => rfl
  | some c => simp only [(h.classifier_eq ht c).1]

theorem returnClass_eq (h : Z.SameOn Z' S) (ht : S t) (c : Option Classifier) :
    Z'.returnClass c t = Z.returnClass c t := by
  unfold returnClass
  rw [h.takesRoom_eq ht, h.isErrorType_eq ht, h.isSlice_eq ht, h.isOptionalSlice_eq ht, h.isByReference_eq ht]
  cases c with
  | none => rfl
  | some c => simp only [(h.classifier_eq ht c).2]

/-- Sizings with the same types give the same answers. -/
theorem answersAlike (h : Z.SameOn Z' S) (ht : S t) : Z.AnswersAlike Z' t where
  takesRoom := h.takesRoom_eq ht
  packedWidth := h.packedWidth_eq ht
  layout := h.layout_eq ht
  isByReference := h.isByReference_eq ht
  members := h.members_eq ht
  classifyParam cc := by
    rw [classifyParam, classifyParam, h.target]
    simp only [h.paramClass_eq ht]
  classifyReturn cc := by
    rw [classifyReturn, classifyReturn, h.target]
    simp only [h.returnClass_eq ht]

end Sizing.SameOn

/-! ## Growth -/

namespace Sizing

variable {Z : Sizing} {t : TypeId} {calls : List Pool.Call}

/-- Whatever is called, the answers about a type stay the same, unless a call defines the fields of a container that the
type reaches. There are sizings in which the type is as in the grown pool, and all of these give the answers that were
given before. -/
theorem answers_grown (hZ : Z.Grounded) (hknown : ∀ u, Z.Reaches t u → u.raw < Z.size)
    (hcalls : ∀ c ∈ calls, ∀ u, Z.Reaches t u → ¬c.Defines Z.toPool u) :
    (∃ Z' : Sizing, Z'.target = Z.target ∧ Z'.Covers (Z.grown calls) t) ∧
      ∀ Z' : Sizing, Z'.target = Z.target → Z'.Covers (Z.grown calls) t → Z.AnswersAlike Z' t := by
  have hsize : Z.size ≤ (Z.grown calls).size := Pool.size_le_grown _ _
  have hget : ∀ u, Z.Reaches t u → (Z.grown calls).get u = Z.get u := fun u hu =>
    Pool.get_grown (hknown u hu) fun c hc => hcalls c hc u hu
  refine ⟨exists_covers hsize hget, fun Z' htarget hcovers => ?_⟩
  -- No question leads to the byte of an optional, but it is among the members.
  have hsame : Z.SameOn Z' fun u => Z.Reaches t u ∨ u = .u8 := by
    refine ⟨htarget, fun {u} hu => ?_, fun {u c} hu hc => ?_, .inr rfl, ?_, hZ⟩
    · rcases hu with hu | rfl
      · rw [hcovers.get u ((Pool.reaches_iff hget).2 hu), hget u hu]
      · rw [Z'.get_u8, Z.get_u8]
    · rcases hu with hu | rfl
      · exact .inl (hu.tail hc)
      · rw [Pool.consulted, Z.get_u8] at hc
        cases hc
    · rw [hcovers.size]
      exact hsize
  exact hsame.answersAlike (.inl .refl)

end Sizing

/-- The primitive types, a struct without fields yet, a pointer to it, and a struct with the pointer and a float. -/
def Pool.forward : Pool :=
  let node : Ty := .struct ⟨"Node", .auto, []⟩
  let list : Ty := .struct ⟨"List", .auto, [⟨⟨⟨22⟩, false⟩, "head"⟩, ⟨⟨⟨16⟩, false⟩, "weight"⟩]⟩
  ⟨(primitiveTypes ++ [node, .pointer ⟨⟨21⟩, .one, 0, .none⟩, list]).toArray⟩

/-- The fields of the struct that is pointed at. -/
def Pool.forwardFields : Pool.Call :=
  .defineStruct ⟨21⟩ [⟨⟨⟨22⟩, false⟩, "next"⟩, ⟨⟨⟨12⟩, false⟩, "value"⟩]

/-- A struct is passed as before when what it points at gets its fields. -/
theorem Sizing.answers_grown_forward :
    ∃ Z Z' : Sizing, Z.toPool = .forward ∧ Z'.toPool = Pool.forward.grown [Pool.forwardFields] ∧
      Z'.get ⟨21⟩ ≠ Z.get ⟨21⟩ ∧ Z.AnswersAlike Z' ⟨23⟩ := by
  have hnested : Pool.forward.WellNested := Pool.wellNested_of_lt TypeId.raw (by decide)
  have hgrown : (Pool.forward.grown [Pool.forwardFields]).WellNested :=
    Pool.wellNested_of_lt (fun t => if t = ⟨21⟩ ∨ t = ⟨23⟩ then 1 else 0) (by decide)
  obtain ⟨P, hP⟩ := Pool.forward.exists_sealed_iff.2 ⟨by decide, hnested.acyclic⟩
  obtain ⟨P', hP'⟩ := (Pool.forward.grown [Pool.forwardFields]).exists_sealed_iff.2 ⟨by decide, hgrown.acyclic⟩
  let Z : Sizing := .of P .sample
  let Z' : Sizing := .of P' .sample
  have hZ : Z.toPool = .forward := hP
  have hZ' : Z'.toPool = Z.grown [Pool.forwardFields] := by rw [hZ]; exact hP'
  have hreach : ∀ u, Z.Reaches ⟨23⟩ u → u ∈ [⟨23⟩, ⟨22⟩, ⟨16⟩] := by
    intro u hu
    rw [hZ] at hu
    exact hu.mem_of_closed (by decide) (by decide)
  have hknown : ∀ u, Z.Reaches ⟨23⟩ u → u.raw < Z.size := by
    have hlt : ∀ u ∈ ([⟨23⟩, ⟨22⟩, ⟨16⟩] : List TypeId), u.raw < Pool.forward.size := by decide
    intro u hu
    rw [hZ]
    exact hlt u (hreach u hu)
  have hcalls : ∀ c ∈ [Pool.forwardFields], ∀ u, Z.Reaches ⟨23⟩ u → ¬c.Defines Z.toPool u := by
    intro c hc u hu hdefines
    obtain rfl := List.mem_singleton.1 hc
    obtain ⟨rfl, -⟩ := hdefines
    exact absurd (hreach _ hu) (by decide)
  refine ⟨Z, Z', hZ, hP', ?_, ?_⟩
  · rw [hZ', hZ]
    decide
  · refine (answers_grown (hZ ▸ hnested.grounded) hknown hcalls).2 Z' rfl ?_
    exact hZ' ▸ Z'.covers_toPool _

end MachineAbi
