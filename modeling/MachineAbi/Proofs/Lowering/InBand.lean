import MachineAbi.Proofs.Lowering.ByReference
import MachineAbi.Proofs.Lowering.Exchange
import MachineAbi.Proofs.Lowering.Order
import MachineAbi.Proofs.Lowering.Shapes
import MachineAbi.Proofs.Passing.Members
import MachineAbi.Proofs.Source.Room

/-!
# Optionals without a flag of their own

A pointer that is never null has a value to spare, and so has an error set. Its optional is stored like the payload
alone (`SealedPool.InBandFor`): it has the same machine type, under the same handle, and is passed and returned like
its payload (`Sizing.classes_of_inBandFor`). A signature keeps its machine types when payloads inside its types are
replaced by such optionals (`Lowering.transparent_inBand`). An internal function that reports errors stops doing so
when its error set becomes an optional, and loses the pointer to an error trace with that.
-/

namespace MachineAbi

open SealedPool

/-- The second type is the optional of the first, and stored like it. -/
def SealedPool.InBandFor (P : SealedPool) (t t' : TypeId) : Prop := P.get t' = .optional t ∧ P.optionalRepr t = .payload

/-- A pointer fills the bytes it is stored in. -/
theorem Target.sizeBits_pointerLayout {T : Target} (h : T.Supported) (space : Nat) :
    (T.pointerLayout space).sizeBits = 8 * (T.pointerLayout space).layout.size := by
  obtain ⟨text, triple, arch, rfl⟩ := h.eq_ofComponents
  refine pointerLayout_induction (P := fun a => a.sizeBits = 8 * a.layout.size) ?_ space
  have h : ∀ a ∈ arch.mainSpace :: arch.otherSpaces, a.sizeBits = 8 * a.layout.size := by
    cases arch <;> decide
  exact h

theorem Target.ptrBits_pos (T : Target) : 8 ≤ T.ptrBits := by
  unfold ptrBits
  cases T.arch <;> decide

namespace Sizing

variable {Z : Sizing} {c : Option Classifier} {t t' : TypeId}

/-! ## An optional and its payload -/

theorem extent_errorSet_of_takesRoom {set : ErrorSet} (hd : Z.get t = .errorSet set) (hroom : Z.takesRoom t = true) :
    Z.extent t = ⟨⟨2, 2⟩, 16⟩ := by
  rw [Z.takesRoom_eq, hd] at hroom
  rw [extent_errorSet hd hroom, Target.errorCodeLayout_eq]
  rfl

theorem extent_of_inBandFor (hT : Z.target.Supported) (h : Z.InBandFor t t') : Z.extent t = Z.extent t' := by
  obtain ⟨hd', hrepr⟩ := h
  have hfull : Z.packedWidth t = 8 * (Z.layout t).size := by
    obtain ⟨hroom, ⟨p, hd⟩ | ⟨set, hd⟩⟩ := get_of_payload hrepr
    · rw [packedWidth, layout, Z.extent_eq, hd]
      dsimp only
      split
      · rfl
      · rename_i hslice
        rw [PointerTy.layout, if_neg hslice]
        exact Target.sizeBits_pointerLayout hT p.addrSpace
    · rw [packedWidth, layout, extent_errorSet_of_takesRoom hd hroom]
      rfl
  rw [Z.extent_eq t', hd']
  dsimp only
  rw [hrepr, OptionalRepr.layout, Extent.ofLayout, ← hfull]
  rfl

theorem layout_of_payload (hT : Z.target.Supported) (hrepr : Z.optionalRepr t = .payload) :
    (Z.layout t).align.isPowerOfTwo ∧ 0 < (Z.layout t).size := by
  obtain ⟨hroom, ⟨p, hd⟩ | ⟨set, hd⟩⟩ := get_of_payload hrepr
  · rw [layout_pointer hd]
    exact ⟨(placeable_pointer hT p).align, p.size_layout_pos hT⟩
  · rw [layout, extent_errorSet_of_takesRoom hd hroom]
    exact ⟨⟨1, rfl⟩, by decide⟩

theorem takesRoom_of_inBandFor (h : Z.InBandFor t t') : Z.takesRoom t = true ∧ Z.takesRoom t' = true := by
  constructor
  · exact (get_of_payload h.2).1
  · rw [Z.takesRoom_eq, h.1]

/-- Payloads and optionals can take the place of each other. -/
theorem exchangeable_inBandFor (hT : Z.target.Supported) : Z.Exchangeable Z.InBandFor where
  words := by
    rintro t t' ⟨hd', hrepr⟩
    obtain ⟨-, ⟨p, hd⟩ | ⟨set, hd⟩⟩ := get_of_payload hrepr
    all_goals simp [isWord, hd, hd', hrepr]
  rooms t t' h := takesRoom_of_inBandFor h
  extents t t' h := extent_of_inBandFor hT h
  sliced := by
    rintro t t' ⟨hd', hrepr⟩
    obtain ⟨-, ⟨p, hd⟩ | ⟨set, hd⟩⟩ := get_of_payload hrepr
    all_goals simp [isSliced, Pool.isSlice, Pool.isOptionalSlice, hd, hd']
  slices := by
    -- the payload has a value to spare, and its optional has none
    rintro t t' ⟨hd', hrepr⟩ hnull
    rw [hasInBandNull_of_optionalRepr hrepr, hasInBandNull, hd'] at hnull
    cases hnull

/-! ## Classes -/

/-- Every convention passes and returns an optional that is stored like its payload as it does the payload. -/
theorem classes_of_inBandFor (hT : Z.target.Supported) (h : Z.InBandFor t t') (c : Option Classifier) :
    Z.paramClass c t = Z.paramClass c t' ∧ Z.returnClass c t = Z.returnClass c t' := by
  have hR := exchangeable_inBandFor hT
  have hbase : Z.Replaced Z.InBandFor t t' := .base h
  have hlayout := hbase.layout_eq hR
  refine classes_of_words hR h fun hscalar hscalar' => ?_
  obtain ⟨hd', hrepr⟩ := h
  obtain ⟨hroom, ⟨p, hd⟩ | ⟨set, hd⟩⟩ := get_of_payload hrepr
  · constructor
    · intro _
      simp only [Win64.kind, hd, hd', hlayout]
    · intro _ hardFloat isReturn
      simp only [Arm.kind, hd, hd', hscalar, hscalar', if_true]
    · intro _
      simp only [RiscV.kind, hd, hd', hscalar, hscalar', if_true]
  · -- an error code is narrow enough for all conventions that bound the width of error sets
    have hbits : Z.packedWidth t = 16 := congrArg Extent.bits (extent_errorSet_of_takesRoom hd hroom)
    have hle : ¬2 * RiscV.xlen Z.target < 16 := by
      have hwide := Z.target.ptrBits_pos
      rw [RiscV.xlen]
      omega
    constructor
    · intro _
      simp only [Win64.kind, hd, hd', hlayout]
    · intro _ hardFloat isReturn
      simp [Arm.kind, hd, hd', hscalar', hbits]
    · intro _
      simp only [RiscV.kind, hd, hd', hscalar', hbits, if_true, if_neg hle]

end Sizing

/-! ## Inside other types -/

theorem SealedPool.size_pos (P : SealedPool) : 0 < P.size := by
  have h : P.items[0]? = some .void := P.primitivesInPlace 0 (by decide)
  exact (Array.getElem?_eq_some_iff.1 h).1

/-- The only member of the optional is its payload, which has eightbytes of its own. -/
theorem SysV.Eightbytes.classifyWithin_inBandFor {Z : Sizing} {t t' : TypeId} (hT : Z.target.Supported)
    (h : Z.InBandFor t t') : classifyWithin Z (Z.size + 1) t = classifyWithin Z (Z.size + 1) t' := by
  obtain ⟨hd', hrepr⟩ := h
  obtain ⟨n, hn⟩ : ∃ n, Z.size = n + 1 := Nat.exists_eq_add_one.2 Z.size_pos
  have hsome : ∀ offset e, ∃ e', putScalar? Z offset t e = some e' := by
    intro offset e
    unfold putScalar?
    obtain ⟨-, ⟨p, hd⟩ | ⟨set, hd⟩⟩ := get_of_payload hrepr
    all_goals
      rw [hd]
      exact ⟨_, rfl⟩
  have hnone : ∀ offset e, putScalar? Z offset t' e = none := by
    intro offset e
    simp only [putScalar?, hd']
  have hmembers : Z.members t' = [⟨t, 0⟩] := by
    rw [Sizing.members, hd']
    simp only [hrepr, OptionalRepr.order]
    exact Lowering.sequence_one (Sizing.layout_of_payload hT hrepr).1 (Sizing.layout_of_payload hT hrepr).2
  funext offset e
  obtain ⟨e', he'⟩ := hsome offset e
  rw [hn, classifyWithin, classifyWithin, hnone, he']
  simp only [hmembers, List.foldl_cons, List.foldl_nil, Nat.add_zero, classifyWithin, he']

namespace RiscV

variable {Z : Sizing} {t t' : TypeId}

/-- A float and a pointer, of which the pointer becomes an optional. -/
inductive LosesPointer (Z : Sizing) : List TypeId → List TypeId → Prop
  | first {a a' b b' : TypeId} (ha : fieldKind Z a = .register) (hb : fieldKind Z b = .float) (h : Z.InBandFor a a') :
      LosesPointer Z [a, b] [a', b']
  | second {a a' b b' : TypeId} (ha : fieldKind Z a = .float) (hb : fieldKind Z b = .register) (h : Z.InBandFor b b') :
      LosesPointer Z [a, b] [a', b']

/-- The payload does not travel as a float, and its optional not on its own. -/
theorem fieldKind_inBandFor (h : Z.InBandFor t t') : fieldKind Z t ≠ .float ∧ fieldKind Z t' = .other := by
  obtain ⟨hd', hrepr⟩ := h
  obtain ⟨-, ⟨p, hd⟩ | ⟨set, hd⟩⟩ := get_of_payload hrepr
  · simp only [fieldKind, hd, hd']
    split <;> simp
  · simp [fieldKind, hd, hd']

theorem fieldKind_cases (h : Z.Replaced Z.InBandFor t t') : fieldKind Z t = fieldKind Z t' ∨ Z.InBandFor t t' := by
  rcases h.cases with rfl | h | h
  · exact Or.inl rfl
  · exact Or.inr h
  · exact Or.inl (fieldKind_inStep h)

/-- Fields that become optionals do not travel on their own in the first place, but for a pointer beside a float. -/
theorem travelApart_replaced {fields fields' : List TypeId} (h : List.Forall₂ (Z.Replaced Z.InBandFor) fields fields')
    (hno : ¬LosesPointer Z fields fields') :
    travelApart (fields.map (fieldKind Z)) = travelApart (fields'.map (fieldKind Z)) := by
  -- beside anything but a float, and beside a float if it is no pointer, a payload travels with the rest
  have hrest : ∀ k k' : FieldKind, k' ≠ .float → ¬(k = .float ∧ k' = .register) →
      travelApart [k, k'] = false ∧ travelApart [k', k] = false := by
    intro k k' hfloat hno
    cases k <;> cases k' <;> simp_all [travelApart]
  have hother : ∀ k : FieldKind, travelApart [k, .other] = false ∧ travelApart [.other, k] = false := by
    intro k
    cases k <;> decide
  cases h with
  | nil => rfl
  | @cons a a' _ _ ha htail =>
    cases htail with
    | nil =>
      rcases fieldKind_cases ha with heq | h
      · simp only [List.map_cons, List.map_nil, heq]
      · obtain ⟨hfloat, heq'⟩ := fieldKind_inBandFor h
        simp [travelApart, heq', hfloat.symm]
    | @cons b b' _ _ hb htail =>
      cases htail with
      | cons => simp [travelApart]
      | nil =>
        simp only [List.map_cons, List.map_nil]
        rcases fieldKind_cases hb with heq | h
        · rcases fieldKind_cases ha with heq' | h
          · rw [heq, heq']
          · obtain ⟨hfloat, heq'⟩ := fieldKind_inBandFor h
            rw [heq', (hother _).2, (hrest _ _ hfloat fun hk => hno (.first hk.2 hk.1 h)).2]
        · obtain ⟨hfloat, heq'⟩ := fieldKind_inBandFor h
          rw [heq', (hother _).1, (hrest _ _ hfloat fun hk => hno (.second hk.1 hk.2 h)).1]

end RiscV

/-- Types in which payloads are replaced by optionals that are stored like them. -/
structure Sizing.InBandReplaced (Z : Sizing) (c : Option Classifier) (t t' : TypeId) : Prop where
  replaced : Z.Replaced Z.InBandFor t t'
  /-- On RISC-V with doubles in float registers, no pointer beside a single float becomes an optional. -/
  fields : c = some .riscv → Z.target.features.riscvD = true → ∀ fields ∈ RiscV.storedFields? Z t,
    ∀ fields' ∈ RiscV.storedFields? Z t', ¬RiscV.LosesPointer Z fields fields'

/-- Conventions pass types alike in which payloads are replaced by such optionals. -/
theorem Sizing.InBandReplaced.passesAlike {Z : Sizing} {c : Option Classifier} {t t' : TypeId}
    (hT : Z.target.Supported) (hE : c = some .sysv → Z.ErrorsAreCodes) (h : Z.InBandReplaced c t t') :
    Z.PassesAlike Z.InBandFor c t t' := by
  have hR := exchangeable_inBandFor hT
  refine ⟨h.replaced, fun hbase => classes_of_inBandFor hT hbase c, fun hc _ => ?_, fun hc hD => ?_⟩
  · have hclassify := SysV.Eightbytes.classify_replaced (hE hc) hR
      (fun _ _ => SysV.Eightbytes.classifyWithin_inBandFor hT) h.replaced
    exact SysV.Eightbytes.of?_eq hclassify (h.replaced.layout_eq hR)
  · refine RiscV.isSome_floatFields?_replaced hR h.replaced fun hfields hfields' hstep => ?_
    exact RiscV.travelApart_replaced hstep (h.fields hc hD _ hfields _ hfields')

/-! ## Signatures and handles -/

namespace Lowering

variable {L : Lowering} {c : Option Classifier} {s : Session} {t t' : TypeId}

theorem valueTree_of_inBandFor (h : L.InBandFor t t') : L.valueTree t = L.valueTree t' := by
  obtain ⟨hd', hrepr⟩ := h
  have hpart : t ∈ L.parts t' := mem_parts hd' (by simp [Ty.parts])
  rw [valueTree, valueTree, L.toSizing.form_eq t', Sizing.formNew, hd']
  simp only [Sizing.optionalForm, hrepr, Form.plain, Sizing.partTree_of_mem hpart]

theorem exchange_inBandFor (hT : L.target.Supported) : L.Exchange L.InBandFor False where
  stored := Sizing.exchangeable_inBandFor hT
  trees _ _ := valueTree_of_inBandFor
  spaces := by
    rintro t t' ⟨hd', hrepr⟩
    obtain ⟨-, ⟨p, hd⟩ | ⟨set, hd⟩⟩ := get_of_payload hrepr
    all_goals simp [sliceSpace, hd, hd']
  attrs := False.elim

/-- Type `t` is lowered, and whatever is asked for after that, type `t'` is lowered to the same handle. -/
def SharesHandle (L : Lowering) (s : Session) (t t' : TypeId) : Prop :=
  ∃ h s₁, (L.lower t).run.run s = (.ok h, s₁) ∧
    ∀ s', L.Later s₁ s' → ∃ s₂, (L.lower t').run.run s' = (.ok h, s₂)

theorem sharesHandle_of_form_eq (hs : s.Canonical L Idle) (ht : L.fnTy? t = none) (ht' : L.fnTy? t' = none)
    (h : (L.form t).tree = (L.form t').tree) : L.SharesHandle s t t' := by
  obtain ⟨a, s₁, hrun, hs₁, -, hshows⟩ := exists_lower hs ht
  refine ⟨a, s₁, hrun, fun s' hlater => ?_⟩
  obtain ⟨hs', ha⟩ := hlater.canonical hs₁
  obtain ⟨a', s₂, hrun', hs₂, ha₂, hshows'⟩ := exists_lower hs' ht'
  have hshows := (hshows.mono ha.refines).mono ha₂.refines
  rw [h] at hshows
  rw [hshows'.handle_eq hs₂.wellFormed hshows] at hrun'
  exact ⟨s₂, hrun'⟩

/-- Optionals without a flag of their own leave no trace. Such an optional and its payload have one handle, whichever
is lowered first; and a signature in which payloads are replaced by such optionals, inside structs, tuples, arrays,
unions and other types or by themselves, has the same machine types up to copies of these types. Only a pointer to an
error trace comes or goes, where an internal function stops or starts returning an error. -/
theorem transparent_inBand (hT : L.target.Supported) {cc : CallConv} (hc : classifierFor cc L.target = .ok c)
    (hE : c = some .sysv → L.ErrorsAreCodes) :
    (∀ {t t' : TypeId} {s : Session}, L.InBandFor t t' → L.Reachable s →
      L.SharesHandle s t t' ∧ L.SharesHandle s t' t) ∧
    ∀ {f f' : FnTy} {s s' : Session}, f.cc = cc → f.InStep (L.InBandReplaced c) f' → L.Reachable s → L.Reachable s' →
      ∃ sig sig' s₁ s₁', (L.signature f).run.run s = (.ok sig, s₁) ∧ (L.signature f').run.run s' = (.ok sig', s₁') ∧
        Session.SameSignatureUpTo L.toSealedPool (L.Replaced L.InBandFor) False
          (L.options.errorTracing = true → cc = .auto → L.isErrorType f.ret = L.isErrorType f'.ret) s₁ s₁' sig
          sig' := by
  constructor
  · intro t t' s h hs
    have hno : L.fnTy? t = none := Sizing.fnTy?_of_takesRoom (Sizing.takesRoom_of_inBandFor h).1
    have hno' : L.fnTy? t' = none := Sizing.fnTy?_of_takesRoom (Sizing.takesRoom_of_inBandFor h).2
    have htree : (L.form t).tree = (L.form t').tree := by
      rw [form_of_value hno, form_of_value hno']
      exact valueTree_of_inBandFor h
    constructor
    · exact sharesHandle_of_form_eq hs.canonical hno hno' htree
    · exact sharesHandle_of_form_eq hs.canonical hno' hno htree.symm
  · intro f f' s s' hcc h hs hs'
    have halike : f.InStep (L.PassesAlike L.InBandFor c) f' := h.mono fun t t' ht => ht.passesAlike hT hE
    refine exists_sameSignatureUpTo (exchange_inBandFor hT) halike (by rw [hcc, hc]) ?_ hs hs'
    rw [hcc]
    exact id

end Lowering

namespace Sizing

theorem inBandFor_perhaps : exchanging.InBandFor ⟨25⟩ ⟨26⟩ := ⟨rfl, by decide⟩

theorem inBandFor_failure : exchanging.InBandFor .anyError ⟨29⟩ := ⟨rfl, by decide⟩

theorem errorsAreCodes_exchanging : exchanging.ErrorsAreCodes :=
  (show exchanging.Plain by decide).errorsAreCodes

/-- A struct with a pointer, and one with its optional in its place. -/
theorem inBandReplaced_link : exchanging.InBandReplaced (some .sysv) ⟨27⟩ ⟨28⟩ where
  replaced := .inStep (fun _ _ h => h) (.struct rfl rfl rfl (.cons (.base inBandFor_perhaps) (.cons (.refl _) .nil)))
  fields hc := by cases hc

theorem inBandReplaced_perhaps : exchanging.InBandReplaced (some .sysv) ⟨25⟩ ⟨26⟩ where
  replaced := .base inBandFor_perhaps
  fields hc := by cases hc

end Sizing

namespace Lowering

/-- A C function that takes a struct with a pointer and returns a pointer, and the same with optionals of the pointer.
-/
theorem transparent_inBand_link :
    ((⟨.exchanging, .standard⟩ : Lowering).SharesHandle .empty ⟨25⟩ ⟨26⟩ ∧
      (⟨.exchanging, .standard⟩ : Lowering).SharesHandle .empty ⟨26⟩ ⟨25⟩) ∧
    ∃ sig sig' s s', ((⟨.exchanging, .standard⟩ : Lowering).signature ⟨[⟨27⟩], ⟨25⟩, .c, false, 0⟩).run.run .empty =
        (.ok sig, s) ∧
      ((⟨.exchanging, .standard⟩ : Lowering).signature ⟨[⟨28⟩], ⟨26⟩, .c, false, 0⟩).run.run .empty = (.ok sig', s') ∧
      List.Forall₂ (Session.SameParamUpTo .exchanging (Sizing.exchanging.Replaced Sizing.exchanging.InBandFor) False s
        s') sig.params sig'.params := by
  have hT : Sizing.exchanging.target.Supported := Target.supported_sample
  obtain ⟨hhandles, hsignatures⟩ := transparent_inBand (L := ⟨.exchanging, .standard⟩) hT
    (rfl : classifierFor .c .sample = _) fun _ => Sizing.errorsAreCodes_exchanging
  refine ⟨hhandles Sizing.inBandFor_perhaps .empty, ?_⟩
  have halike : (FnTy.mk [⟨27⟩] ⟨25⟩ .c false 0).InStep (Sizing.exchanging.InBandReplaced (some .sysv))
      ⟨[⟨28⟩], ⟨26⟩, .c, false, 0⟩ :=
    ⟨rfl, rfl, rfl, .cons Sizing.inBandReplaced_link .nil, Sizing.inBandReplaced_perhaps⟩
  obtain ⟨sig, sig', s, s', hrun, hrun', hsame⟩ := hsignatures rfl halike .empty .empty
  exact ⟨sig, sig', s, s', hrun, hrun', hsame.params nofun⟩

/-- With error tracing, an internal function that returns an error gets a pointer for its trace, and one that returns
the optional of the error gets none. -/
theorem exists_trace_lost : ∃ (L : Lowering) (f f' : FnTy) (sig sig' : Signature) (s s' : Session),
    L.target.Supported ∧ f.InStep (L.Replaced L.InBandFor) f' ∧ L.InBandFor f.ret f'.ret ∧
      (L.signature f).run.run .empty = (.ok sig, s) ∧ (L.signature f').run.run .empty = (.ok sig', s') ∧
      sig.params.map (·.origin) = [.errorTrace] ∧ sig'.params.map (·.origin) = [] := by
  have hs : (⟨.exchanging, ⟨false, true⟩⟩ : Lowering).Reachable .empty := .empty
  have halike : (FnTy.mk [] .anyError .auto false 0).InStep (Sizing.exchanging.Replaced Sizing.exchanging.InBandFor)
      ⟨[], ⟨29⟩, .auto, false, 0⟩ :=
    ⟨rfl, rfl, rfl, .nil, .base Sizing.inBandFor_failure⟩
  obtain ⟨sig, s, hrun, -, hsig⟩ := exists_signature hs.canonical
    (show classifierFor (FnTy.mk [] .anyError .auto false 0).cc _ = .ok none from rfl)
  obtain ⟨sig', s', hrun', -, hsig'⟩ := exists_signature hs.canonical
    (show classifierFor (FnTy.mk [] ⟨29⟩ .auto false 0).cc _ = .ok none from rfl)
  refine ⟨⟨.exchanging, ⟨false, true⟩⟩, _, _, sig, sig', s, s', Target.supported_sample, halike,
    Sizing.inBandFor_failure, hrun, hrun', ?_, ?_⟩
  · rw [origins_of_showsParams hsig.params, origins_signatureForm]
    decide +kernel
  · rw [origins_of_showsParams hsig'.params, origins_signatureForm]
    decide +kernel

end Lowering

end MachineAbi
