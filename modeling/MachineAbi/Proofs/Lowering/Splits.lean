import MachineAbi.Proofs.Lowering.Answers
import MachineAbi.Proofs.Lowering.Calls
import MachineAbi.Proofs.Lowering.Origins
import MachineAbi.Proofs.Lowering.Slices
import MachineAbi.Proofs.Passing.Coverage

/-!
# Values that travel in parts

A value that several machine values carry arrives whole (`Lowering.carries_parts`), as far as the classes say:

* each slot has a machine type of the size that the classifiers assume, and together the slots reach every byte of every
  scalar inside the value, but for an enum that a float hides from the eightbytes of x86-64;
* a slice is a struct of a pointer and a length, and these are its machine parameters. An optional slice is passed like
  its slice, although it can have a flag of its own behind that.
-/

namespace MachineAbi

namespace Sizing

variable {Z : Sizing} {t : TypeId}

/-- No convention of a platform makes a slice of anything else. -/
theorem classifyParam_ne_slice (c : Classifier) (Z : Sizing) (t : TypeId) : c.classifyParam Z t ≠ .slice := by
  intro h
  cases c with
  | sysv =>
    simp only [Classifier.classifyParam, SysV.classifyParam] at h
    repeat' split at h
    all_goals cases h
  | win64 =>
    simp only [Classifier.classifyParam, Win64.classifyParam] at h
    repeat' split at h
    all_goals cases h
  | aarch64 =>
    simp only [Classifier.classifyParam, Aarch64.classifyParam] at h
    repeat' split at h
    all_goals cases h
  | armSoft | armVfp =>
    simp only [Classifier.classifyParam, Arm.classifyParam] at h
    cases hw : Arm.widenedHalf? Z t <;> simp only [hw] at h
    all_goals repeat' split at h
    all_goals cases h
  | riscv =>
    simp only [Classifier.classifyParam, RiscV.classifyParam] at h
    cases hw : RiscV.widenedHalf? Z t <;> simp only [hw] at h
    all_goals repeat' split at h
    all_goals cases h
  | wasm =>
    simp only [Classifier.classifyParam, Wasm.classifyParam] at h
    repeat' split at h
    all_goals cases h
  | generic => cases h

theorem isSlice_of_paramClass {c : Option Classifier} (h : Z.paramClass c t = .slice) :
    Z.isSlice t = true ∨ Z.isOptionalSlice t = true := by
  unfold paramClass at h
  split at h
  · cases h
  · split at h
    · rename_i hs
      exact Bool.or_eq_true_iff.1 hs
    · split at h
      · exact absurd h (classifyParam_ne_slice _ Z t)
      · split at h <;> cases h

/-- A parameter that is split is split by the convention of a platform. -/
theorem exists_classifyParam {c? : Option Classifier} {slots : List Slot} (h : Z.paramClass c? t = .split slots) :
    ∃ c, c? = some c ∧ c.classifyParam Z t = .split slots := by
  unfold paramClass at h
  split at h
  · cases h
  · split at h
    · cases h
    · split at h
      · exact ⟨_, rfl, h⟩
      · split at h <;> cases h

theorem exists_classifyReturn {c? : Option Classifier} {slots : List Slot} (h : Z.returnClass c? t = .split slots) :
    ∃ c, c? = some c ∧ c.classifyReturn Z t = .split slots := by
  unfold returnClass at h
  split at h
  · split at h <;> cases h
  · split at h
    · cases h
    · split at h
      · exact ⟨_, rfl, h⟩
      · split at h <;> cases h

end Sizing

/-! ## Machine parameters -/

namespace Lowering

variable {L : Lowering} {s : Session} {t : TypeId}

/-- The machine parameters of a source parameter are found by its index. -/
theorem filter_paramsForm (c : Option Classifier) (f : FnTy) (index : Nat) {ts : List TypeId} {i : Nat}
    (ht : ts[i]? = some t) :
    (L.paramsForm c f index ts).filter (·.origin.isPart (index + i)) =
      L.paramForm f (index + i) t (L.paramClass c t) := by
  induction ts generalizing index i with
  | nil => cases ht
  | cons u ts ih =>
    rw [paramsForm, List.filter_append]
    cases i with
    | zero =>
      obtain rfl := Option.some.inj ht
      have hrest : (L.paramsForm c f (index + 1) ts).filter (·.origin.isPart index) = [] :=
        filter_isPart_nil fun p hp part ho => by
          obtain ⟨i, part', ho', hi⟩ := exists_part_of_mem_paramsForm hp
          obtain ⟨rfl, -⟩ := ParamOrigin.source.inj (ho.symm.trans ho')
          omega
      rw [Nat.add_zero, filter_isPart_self fun p hp => exists_part_of_mem_paramForm hp, hrest, List.append_nil]
    | succ i =>
      have hfirst : (L.paramForm f index u (L.paramClass c u)).filter (·.origin.isPart (index + (i + 1))) = [] :=
        filter_isPart_nil fun p hp part ho => by
          obtain ⟨part', ho'⟩ := exists_part_of_mem_paramForm hp
          obtain ⟨hi, -⟩ := ParamOrigin.source.inj (ho.symm.trans ho')
          omega
      have hindex : index + 1 + i = index + (i + 1) := by omega
      rw [hfirst, List.nil_append, ← hindex, ih (index + 1) ht]

/-- The machine parameters of a source parameter are those of the form. -/
theorem showsParams_source {c : Option Classifier} {f : FnTy} {sig : Signature} {i : Nat}
    (h : s.ShowsSignature L.toSealedPool (L.signatureForm c f) sig) (ht : f.params[i]? = some t) :
    List.Forall₂ (s.ShowsParam L.toSealedPool) (L.paramForm f i t (L.paramClass c t)) (sig.sourceParams i) := by
  have hfilter : (L.signatureForm c f).params.filter (·.origin.isPart i) = L.paramForm f i t (L.paramClass c t) := by
    have hhidden : ((L.returnForm f (L.returnClass c f.ret)).2.2 ++ L.errorTraceForm f).filter (·.origin.isPart i) = [] :=
      filter_isPart_nil fun p hp part => origin_ne_source_of_hidden hp i part
    have hsource := filter_paramsForm (L := L) c f 0 ht
    rw [Nat.zero_add] at hsource
    show List.filter _ (_ ++ _ ++ L.paramsForm c f 0 f.params) = _
    rw [List.filter_append, hhidden, List.nil_append, hsource]
  rw [← hfilter]
  refine List.rel_filter (fun p q hpq => ?_) h.params
  show p.origin.isPart i = true ↔ q.origin.isPart i = true
  rw [hpq.origin]

/-! ## Slices as parameters -/

theorem showsAll_params_of_slice {c : Option Classifier} {f : FnTy} {sig : Signature} {i : Nat}
    (h : s.ShowsSignature L.toSealedPool (L.signatureForm c f) sig) (ht : f.params[i]? = some t)
    (hcls : L.paramClass c t = .slice) :
    s.ShowsAll L.toSealedPool [.ptr (L.sliceSpace t), .int L.target.ptrBits] ((sig.sourceParams i).map (·.ty)) := by
  have hparams := showsParams_source h ht
  rw [hcls] at hparams
  have htypes : List.Forall₂ (s.Shows L.toSealedPool) ((L.paramForm f i t .slice).map (·.ty))
      ((sig.sourceParams i).map (·.ty)) :=
    List.forall₂_map_left_iff.2 (List.forall₂_map_right_iff.2 (hparams.imp fun _ _ hp => hp.ty))
  exact Session.showsAll_iff.2 htypes

theorem hasFields_slice {h : Handle} {hs : List Handle} (hL : L.Regular) (hc : s.Canonical L Idle)
    (ht : L.isSlice t = true ∨ L.isOptionalSlice t = true) {tree : MachineTree}
    (htree : tree = (L.toSizing.form (L.sliceOf t)).tree) (hshows : s.Shows L.toSealedPool tree h)
    (hparts : s.ShowsAll L.toSealedPool [.ptr (L.sliceSpace t), .int L.target.ptrBits] hs) :
    s.table.HasFields h hs := by
  obtain ⟨p, hp, hslice⟩ := Sizing.exists_slice ht
  obtain ⟨trees, heq, hfields⟩ := Sizing.sliceTree_eq hL.supported (L.sliceOf t) p.addrSpace
  rw [htree, Sizing.tree_of_slice hp hslice, heq] at hshows
  obtain ⟨fields, hhas, hall⟩ := hshows.hasFields
  have hspace : L.sliceSpace t = p.addrSpace := by
    unfold Pool.sliceOf at hp
    unfold sliceSpace
    cases hd : L.get t <;> simp_all only
  rw [hfields, ← hspace] at hall
  rwa [hparts.handles_eq hc.wellFormed hall]

/-- The two parts of a slice are the fields of its struct, and those of an optional slice unless it has a flag. -/
theorem hasFields_iff {h : Handle} {hs : List Handle} (hL : L.Regular) (hc : s.Canonical L Idle)
    (ht : L.isSlice t = true ∨ L.isOptionalSlice t = true) (hshows : s.Shows L.toSealedPool (L.toSizing.form t).tree h)
    (hparts : s.ShowsAll L.toSealedPool [.ptr (L.sliceSpace t), .int L.target.ptrBits] hs) :
    s.table.HasFields h hs ↔ L.storesFlag t = false := by
  refine ⟨fun hhas => Bool.eq_false_iff.2 fun hflag => ?_, fun hflag => ?_⟩
  · obtain ⟨p, hp, hslice⟩ := Sizing.exists_slice ht
    obtain ⟨trees, heq, hfirst⟩ := Sizing.tree_of_flag hp hslice hflag
    rw [heq] at hshows
    obtain ⟨fields, hhas', hall⟩ := hshows.hasFields
    obtain rfl := hhas.eq hhas'
    match hs, hparts with
    | [ptr, len], ⟨hptr, _, _⟩ =>
      generalize htrees : trees.filter (!·.isPadding) = shown at hall
      match shown, hall with
      | [tree, tree'], ⟨htree, _, _⟩ =>
        obtain ⟨fields, rfl⟩ := hfirst tree tree' htrees
        cases htree.of_stores hptr
  · exact hasFields_slice hL hc ht (Sizing.tree_sliceOf ht hflag) hshows hparts

/-! ## The parts of values -/

theorem exists_lowerAnySlot (hL : L.Regular) (hs : L.Reachable s) {slot : Slot} (h : slot.Stored L.toSizing) :
    ∃ a s', (L.lowerAnySlot slot).run.run s = (.ok a, s') ∧
      s'.table.layoutOf L.target a = some (slot.layout L.toSizing) := by
  have lift : ∀ slot : Slot, slot.Stored L.toSizing →
      ∃ a s', (ExceptT.lift (L.lowerSlot slot) : Request Handle).run.run s = (.ok a, s') ∧
        s'.table.layoutOf L.target a = some (slot.layout L.toSizing) := fun slot h =>
    ⟨_, _, rfl, (layoutOf_lowerSlot hL (hs.sound hL) h).2.2⟩
  cases slot with
  | source t =>
    obtain ⟨a, s', hrun, hs', -, hl⟩ := lower_of_takesRoom hL (hs.sound hL) h
    exact ⟨a, s', hrun, hs'.layoutOf_lowered hL t (spares_idle _ t) h hl⟩
  | int | float | floatVector | intVector => exact lift _ trivial

/-- A value that is split is split by the classifier of a platform. -/
theorem exists_classifier_of_split {cc : CallConv} {slots : List Slot}
    (h : L.classifyParam cc t = .ok (.split slots) ∨ L.classifyReturn cc t = .ok (.split slots)) :
    ∃ c : Classifier, classifierFor cc L.target = .ok (some c) ∧
      (c.classifyParam L.toSizing t = .split slots ∨ c.classifyReturn L.toSizing t = .split slots) ∧
      ∀ slot ∈ slots, slot.Stored L.toSizing := by
  unfold Sizing.classifyParam Sizing.classifyReturn at h
  cases hc : classifierFor cc L.target with
  | error e =>
    rw [hc] at h
    rcases h with h | h <;> cases h
  | ok c? =>
    rw [hc] at h
    have hclass : L.paramClass c? t = .split slots ∨ L.returnClass c? t = .split slots :=
      h.imp Except.ok.inj Except.ok.inj
    have hstored : ∀ slot ∈ slots, slot.Stored L.toSizing := by
      rcases hclass with hp | hr
      · have := L.stored_paramClass c? t
        rwa [hp] at this
      · have := L.stored_returnClass c? t
        rwa [hr] at this
    rcases hclass with hp | hr
    · obtain ⟨c, rfl, hsplit⟩ := Sizing.exists_classifyParam hp
      exact ⟨c, rfl, Or.inl hsplit, hstored⟩
    · obtain ⟨c, rfl, hsplit⟩ := Sizing.exists_classifyReturn hr
      exact ⟨c, rfl, Or.inr hsplit, hstored⟩

/-- Eightbytes are those of x86-64. -/
theorem arch_of_sysv {cc : CallConv} {T : Target} (h : classifierFor cc T = .ok (some .sysv)) : T.arch = .x86_64 := by
  cases cc with
  | c =>
    have h : T.cClassifier = .sysv := Option.some.inj (Except.ok.inj h)
    unfold Target.cClassifier at h
    cases ha : T.arch <;> simp [ha] at h ⊢
    all_goals split at h <;> cases h
  | sysv | win64 =>
    simp only [classifierFor, Except.ok.injEq] at h
    split at h
    · assumption
    · cases h
  | aapcs | aapcsVfp =>
    simp only [classifierFor, Except.ok.injEq] at h
    split at h <;> cases h
  | auto | async => cases h

/-- All bytes of a value that is split are in one of its slots, but for those of an enum that a float hides on x86-64. A
slice is passed as the fields of its struct; so is an optional slice, which they make up unless it has a flag. -/
theorem carries_parts (hL : L.Regular) (hE : L.ErrorsAreCodes) (hI : L.TagsAreIntegers) (hs : L.Reachable s)
    (cc : CallConv) (t : TypeId) :
    (∀ slots, L.classifyParam cc t = .ok (.split slots) ∨ L.classifyReturn cc t = .ok (.split slots) →
      ∃ c, classifierFor cc L.target = .ok (some c) ∧
        (∀ slot ∈ slots, ∃ a s', (L.lowerAnySlot slot).run.run s = (.ok a, s') ∧
          s'.table.layoutOf L.target a = some (slot.layout L.toSizing)) ∧
        (c.Covers L.toSizing t slots ↔ ¬(c = .sysv ∧ SysV.Truncates L.toSizing t))) ∧
    ∀ f i, f.cc = cc → f.params[i]? = some t → L.classifyParam cc t = .ok .slice →
      ∃ sig s₁, (L.signature f).run.run s = (.ok sig, s₁) ∧ (sig.sourceParams i).length = 2 ∧
        (∃ a s₂, (L.lower (L.sliceOf t)).run.run s₁ = (.ok a, s₂) ∧
          s₂.table.HasFields a ((sig.sourceParams i).map (·.ty))) ∧
        ∃ a s₂, (L.lower t).run.run s₁ = (.ok a, s₂) ∧
          (s₂.table.HasFields a ((sig.sourceParams i).map (·.ty)) ↔ L.storesFlag t = false) := by
  refine ⟨fun slots hslots => ?_, ?_⟩
  · obtain ⟨c, hc, hsplit, hstored⟩ := exists_classifier_of_split hslots
    refine ⟨c, hc, fun slot hslot => exists_lowerAnySlot hL hs (hstored slot hslot), ?_⟩
    exact Classifier.covers_iff hL hE hI (fun h => arch_of_sysv (h ▸ hc)) hsplit
  · rintro f i rfl ht hslice
    unfold Sizing.classifyParam at hslice
    cases hc : classifierFor f.cc L.target with
    | error e => rw [hc] at hslice; cases hslice
    | ok c =>
      rw [hc] at hslice
      have hcls : L.paramClass c t = .slice := Except.ok.inj hslice
      have hkind := Sizing.isSlice_of_paramClass hcls
      have hroom : L.takesRoom t = true := Sizing.takesRoom_of_paramClass (by rw [hcls]; nofun)
      obtain ⟨p, hp, -⟩ := Sizing.exists_slice hkind
      obtain ⟨sig, s₁, hrun, hs₁, hsig⟩ := exists_signature hs.canonical hc
      have hparts := showsAll_params_of_slice hsig ht hcls
      have hf : L.fnTy? t = none := Sizing.fnTy?_of_takesRoom hroom
      have hfs : L.fnTy? (L.sliceOf t) = none := by simp [Pool.fnTy?, hp]
      obtain ⟨a, s₂, hlower, hs₂, ha, hshows⟩ := exists_lower hs₁ hfs
      obtain ⟨a', s₃, hlower', hs₃, ha', hshows'⟩ := exists_lower hs₁ hf
      rw [form_of_value hfs] at hshows
      rw [form_of_value hf] at hshows'
      refine ⟨sig, s₁, hrun, ?_, ⟨a, s₂, hlower, ?_⟩, a', s₃, hlower', ?_⟩
      · simpa using hparts.length_eq.symm
      · exact hasFields_slice hL hs₂ hkind rfl hshows (hparts.mono ha.refines)
      · exact hasFields_iff hL hs₃ hkind hshows' (hparts.mono ha'.refines)

end Lowering

/-! ## A float that hides an enum -/

/-- The primitive types, an enum of 128 bits, a word and a float, either of these two, and bytes behind a slice. -/
def Pool.masking : Pool :=
  let wide : Ty := .enum "Wide" ⟨12⟩ ["one", "two"]
  let pair : Ty := .struct ⟨"Pair", .auto, [⟨⟨⟨10⟩, false⟩, "word"⟩, ⟨⟨⟨15⟩, false⟩, "part"⟩]⟩
  let either : Ty := .union ⟨"Either", .c, none, [⟨"wide", ⟨21⟩⟩, ⟨"pair", ⟨22⟩⟩]⟩
  let bytes : Ty := .pointer ⟨.u8, .slice, 0, .none⟩
  ⟨(primitiveTypes ++ [wide, pair, either, bytes]).toArray⟩

theorem Pool.isSome_seal_masking : masking.seal?.isSome = true := by decide +kernel

def SealedPool.masking : SealedPool := Pool.masking.seal?.get Pool.isSome_seal_masking

namespace Sizing

theorem settled_masking : (SealedPool.masking.extentRule .sample).Settled SealedPool.masking.toPool
    (SealedPool.masking.settled (SealedPool.masking.extentRule .sample)) := by
  decide +kernel

def masking : Sizing := ofSettled .masking .sample settled_masking

theorem plain_masking : masking.Plain := by decide +kernel

theorem regular_masking : masking.Regular :=
  plain_masking.regular Target.supported_sample

theorem errorsAreCodes_masking : masking.ErrorsAreCodes :=
  plain_masking.errorsAreCodes

theorem tagsAreIntegers_masking : masking.TagsAreIntegers :=
  plain_masking.tagsAreIntegers

/-- How the union, the pair in it and the slice are passed, and what lies below them. -/
theorem passed_masking :
    (masking.classifyParam .c ⟨23⟩ = .ok (.split [.int 64, .float .float]) ∧
      masking.classifyReturn .c ⟨23⟩ = .ok (.split [.int 64, .float .float]) ∧
      Classifier.sysv.classifyParam masking ⟨23⟩ = .split [.int 64, .float .float] ∧
      SysV.Eightbytes.of? masking ⟨23⟩ = some ⟨.integer, .float, false⟩) ∧
    (⟨⟨21⟩, 0⟩ ∈ masking.members ⟨23⟩ ∧ masking.members ⟨21⟩ = [] ∧ 8 < (masking.layout ⟨21⟩).size ∧
      masking.get ⟨21⟩ = .enum "Wide" ⟨12⟩ ["one", "two"]) ∧
    (masking.classifyParam .c ⟨22⟩ = .ok (.split [.int 64, .float .float]) ∧ masking.members ⟨22⟩ ≠ [] ∧
      ∀ m ∈ masking.members ⟨22⟩, masking.members m.ty = [] ∧ (masking.get m.ty).enumTag? = none) ∧
    masking.classifyParam .c ⟨24⟩ = .ok .slice ∧ (⟨masking, .standard⟩ : Lowering).sliceOf ⟨24⟩ = ⟨24⟩ := by
  decide +kernel

/-- Below the float of the pair lies the enum. -/
theorem truncates_masking : SysV.Truncates masking ⟨23⟩ := by
  obtain ⟨⟨-, -, -, hof⟩, ⟨hmem, hno, hsize, hd⟩, -⟩ := passed_masking
  exact ⟨⟨_, hof, rfl⟩, _, .member hmem (.self hno), hsize, _, _, _, hd⟩

/-- In the pair alone, there is no enum. -/
theorem not_truncates_masking : ¬SysV.Truncates masking ⟨22⟩ := by
  obtain ⟨-, -, ⟨-, hmembers, hscalars⟩, -⟩ := passed_masking
  rintro ⟨-, l, hl, -, name, tag, variants, hd⟩
  cases hl with
  | self h => exact hmembers h
  | member hm hl =>
    obtain ⟨hnone, henum⟩ := hscalars _ hm
    cases hl with
    | self => rw [hd] at henum; cases henum
    | member hm' => exact absurd (hnone ▸ hm') List.not_mem_nil

end Sizing

/-- A C function of the slice. -/
def FnTy.masking : FnTy := ⟨[⟨24⟩], .void, .c, false, 0⟩

namespace Lowering

/-- The pair arrives whole, and the slice as its pointer and its length. -/
theorem carries_parts_masking :
    Classifier.sysv.Covers .masking ⟨22⟩ [.int 64, .float .float] ∧
      ∃ sig s₁ a s₂, ((⟨.masking, .standard⟩ : Lowering).signature .masking).run.run .empty = (.ok sig, s₁) ∧
        ((⟨.masking, .standard⟩ : Lowering).lower ⟨24⟩).run.run s₁ = (.ok a, s₂) ∧
        s₂.table.HasFields a ((sig.sourceParams 0).map (·.ty)) := by
  obtain ⟨-, -, ⟨hsplit, -⟩, hclass, hslice⟩ := Sizing.passed_masking
  have hpair := (carries_parts (L := ⟨.masking, .standard⟩) Sizing.regular_masking Sizing.errorsAreCodes_masking
    Sizing.tagsAreIntegers_masking .empty .c ⟨22⟩).1 [.int 64, .float .float] (Or.inl hsplit)
  have hbytes := (carries_parts (L := ⟨.masking, .standard⟩) Sizing.regular_masking Sizing.errorsAreCodes_masking
    Sizing.tagsAreIntegers_masking .empty .c ⟨24⟩).2 .masking 0 rfl rfl hclass
  constructor
  · obtain ⟨c, hc, -, hiff⟩ := hpair
    obtain rfl : c = .sysv := Option.some.inj (Except.ok.inj (hc.symm.trans rfl))
    exact hiff.2 fun h => Sizing.not_truncates_masking h.2
  · obtain ⟨sig, s₁, hrun, -, ⟨a, s₂, hlower, hfields⟩, -⟩ := hbytes
    rw [hslice] at hlower
    exact ⟨sig, s₁, a, s₂, hrun, hlower, hfields⟩

/-- Of the enum that shares its bytes with the pair, four bytes are lost. -/
theorem exists_not_carries_parts :
    ∃ (L : Lowering) (c : Classifier) (t : TypeId) (slots : List Slot), L.Regular ∧ L.ErrorsAreCodes ∧
      L.TagsAreIntegers ∧ classifierFor .c L.target = .ok (some c) ∧ L.classifyParam .c t = .ok (.split slots) ∧
      L.classifyReturn .c t = .ok (.split slots) ∧ ¬c.Covers L.toSizing t slots := by
  obtain ⟨⟨hparam, hreturn, hsplit, -⟩, -⟩ := Sizing.passed_masking
  have hc : classifierFor .c Sizing.masking.target = .ok (some .sysv) := rfl
  refine ⟨⟨.masking, .standard⟩, .sysv, ⟨23⟩, _, Sizing.regular_masking, Sizing.errorsAreCodes_masking,
    Sizing.tagsAreIntegers_masking, hc, hparam, hreturn, fun hcovers => ?_⟩
  have hiff := Classifier.covers_iff Sizing.regular_masking Sizing.errorsAreCodes_masking
    Sizing.tagsAreIntegers_masking (fun _ => rfl) (Or.inl hsplit)
  exact hiff.1 hcovers ⟨rfl, Sizing.truncates_masking⟩

end Lowering

end MachineAbi
