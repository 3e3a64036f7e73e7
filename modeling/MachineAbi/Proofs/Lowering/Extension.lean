import MachineAbi.Proofs.Lowering.ByReference
import MachineAbi.Proofs.Lowering.Exchange
import MachineAbi.Proofs.Lowering.Splits

/-!
# Integers are extended on both sides of a call

A convention that extends narrow integers to a register has to do so for parameters and results alike, or one side
relies on bits that the other leaves undefined. The attributes of parameters and of results come from two functions,
`Sizing.byValueAttrs` and `Sizing.returnAttrs`, which agree on all types but one kind (`Sizing.extensions_eq_iff`): the
optional of an error set is stored like the error code, and extended like it as a parameter, but not as a result.

`Lowering.extendsAlike_iff` carries this to the signatures of functions that take a type and of those that return it.
-/

namespace MachineAbi

open Session

/-- The extensions that are asked for: as a signed integer, as an unsigned one. -/
def ParamFlags.extensions (f : ParamFlags) : Bool × Bool := (f.signExt, f.zeroExt)

/-! ## Attributes -/

/-- The conventions of the target extend error codes. -/
theorem Target.promotion?_errorCode (T : Target) :
    T.promotion? errorCodeBits .unsigned = if T.isDarwin ∨ T.arch ≠ .aarch64 then some .unsigned else none := by
  unfold promotion?
  cases T.isDarwin
  · cases T.arch <;> rfl
  · rfl

namespace AttrSet

theorem extensions_ofExtension_eq_none {e : Option Signedness} :
    (ofExtension e).flags.extensions = (false, false) ↔ e = Option.none := by
  rcases e with _ | _ | _ <;> decide

end AttrSet

namespace Sizing

variable {Z : Sizing} {cc : CallConv} {t : TypeId}

/-- An optional error code, under a convention that extends error codes. -/
structure DropsExtension (Z : Sizing) (cc : CallConv) (t : TypeId) : Prop where
  optional : ∃ child e, Z.get t = .optional child ∧ Z.get child = .errorSet e ∧ e.hasBits = true
  cc : cc ≠ .auto
  target : Z.target.isDarwin = true ∨ Z.target.arch ≠ .aarch64

theorem extension?_errorSet {e : ErrorSet} (hd : Z.get t = .errorSet e) :
    Z.extension? cc t =
      if cc ≠ .auto ∧ (Z.target.isDarwin = true ∨ Z.target.arch ≠ .aarch64) then some .unsigned else none := by
  rw [extension?, cExtension?_eq, hd]
  simp only [Target.promotion?_errorCode]
  by_cases hauto : cc = .auto <;> simp [hauto]

theorem byValueAttrs_optionalErrorSet {child : TypeId} {e : ErrorSet} (hd : Z.get t = .optional child)
    (hc : Z.get child = .errorSet e) (he : e.hasBits = true) (noalias : Bool) :
    Z.byValueAttrs cc t noalias = .ofExtension (Z.extension? cc child) := by
  have hrepr : Z.optionalRepr child = .payload := by
    simp [SealedPool.optionalRepr, SealedPool.hasInBandNull, Z.takesRoom_eq, hc, he]
  simp only [byValueAttrs, hd, hrepr, if_true, hc]

theorem returnAttrs_optional {child : TypeId} (hd : Z.get t = .optional child) : Z.returnAttrs cc t = .none := by
  rw [returnAttrs, hd]

/-- What drops an extension is extended as a parameter, and not as a result. -/
theorem DropsExtension.extensions (h : Z.DropsExtension cc t) (noalias : Bool) :
    (Z.byValueAttrs cc t noalias).flags.extensions = (false, true) ∧
      (Z.returnAttrs cc t).flags.extensions = (false, false) := by
  obtain ⟨⟨child, e, hd, hc, he⟩, hcc, htarget⟩ := h
  rw [byValueAttrs_optionalErrorSet hd hc he, extension?_errorSet hc, if_pos ⟨hcc, htarget⟩, returnAttrs_optional hd]
  exact ⟨rfl, rfl⟩

/-- The two sides of a call extend a value alike, unless it is an optional error code. -/
theorem extensions_eq_iff (Z : Sizing) (cc : CallConv) (t : TypeId) (noalias : Bool) :
    (Z.byValueAttrs cc t noalias).flags.extensions = (Z.returnAttrs cc t).flags.extensions ↔ ¬Z.DropsExtension cc t := by
  have spares : (∀ child e, Z.get t = .optional child → Z.get child = .errorSet e → e.hasBits = false) →
      ¬Z.DropsExtension cc t := by
    rintro h ⟨⟨child, e, hd, hc, he⟩, -⟩
    rw [h child e hd hc] at he
    cases he
  unfold byValueAttrs returnAttrs
  cases hd : Z.get t with
  | pointer p =>
    refine iff_of_true ?_ (spares fun child e hd' => by rw [hd] at hd'; cases hd')
    dsimp only
    cases p.isSlice <;> cases p.allowsZero <;> rfl
  | optional child =>
    dsimp only
    split
    next hr =>
      obtain ⟨hroom, ⟨p, hc⟩ | ⟨e, hc⟩⟩ := SealedPool.get_of_payload hr
      · refine iff_of_true ?_ (spares fun child' e hd' hc' => ?_)
        · rw [hc]
          rfl
        · obtain rfl := Ty.optional.inj (hd.symm.trans hd')
          rw [hc] at hc'
          cases hc'
      · rw [Z.takesRoom_eq, hc] at hroom
        rw [hc]
        refine AttrSet.extensions_ofExtension_eq_none.trans ?_
        have hdrops : Z.DropsExtension cc t ↔ cc ≠ .auto ∧ (Z.target.isDarwin = true ∨ Z.target.arch ≠ .aarch64) :=
          ⟨fun h => ⟨h.cc, h.target⟩, fun h => ⟨⟨child, e, hd, hc, hroom⟩, h.1, h.2⟩⟩
        rw [hdrops, extension?_errorSet hc]
        simp
    next hr =>
      refine iff_of_true rfl (spares fun child' e hd' hc => ?_)
      obtain rfl := Ty.optional.inj (hd.symm.trans hd')
      rw [SealedPool.optionalRepr, SealedPool.hasInBandNull, Z.takesRoom_eq, hc] at hr
      simpa using hr
  | _ =>
    refine iff_of_true rfl (spares fun child e hd' => ?_)
    rw [hd] at hd'
    cases hd'

theorem classifyParam_eq_ok_iff {k : ParamClass} : Z.classifyParam cc t = .ok k ↔
    ∃ c, classifierFor cc Z.target = .ok c ∧ Z.paramClass c t = k := by
  unfold classifyParam
  cases classifierFor cc Z.target with
  | error e => simp [bind, Except.bind]
  | ok c => simp [bind, Except.bind, pure, Except.pure]

theorem classifyReturn_eq_ok_iff {k : ReturnClass} : Z.classifyReturn cc t = .ok k ↔
    ∃ c, classifierFor cc Z.target = .ok c ∧ Z.returnClass c t = k := by
  unfold classifyReturn
  cases classifierFor cc Z.target with
  | error e => simp [bind, Except.bind]
  | ok c => simp [bind, Except.bind, pure, Except.pure]

end Sizing

/-! ## Signatures -/

namespace Lowering

variable {L : Lowering} {s : Session} {f : FnTy} {cc : CallConv} {t : TypeId}

/-- A parameter that is passed as it is is one machine parameter with the attributes of its type. -/
theorem exists_param_of_byValue (hs : L.Reachable s) (hcls : L.classifyParam f.cc t = .ok .byValue) {i : Nat}
    (ht : f.params[i]? = some t) :
    ∃ sig s' p, (L.signature f).run.run s = (.ok sig, s') ∧ sig.sourceParams i = [p] ∧
      p.attrs.flags = (L.byValueAttrs f.cc t (f.isNoalias i)).flags := by
  obtain ⟨c, hc, hcls⟩ := Sizing.classifyParam_eq_ok_iff.1 hcls
  obtain ⟨sig, s', hrun, -, hsig⟩ := exists_signature hs.canonical hc
  have hparams := showsParams_source hsig ht
  rw [hcls] at hparams
  obtain ⟨p, rest, hp, hrest, hsource⟩ := List.forall₂_cons_left_iff.1 hparams
  rw [List.forall₂_nil_left_iff.1 hrest] at hsource
  exact ⟨sig, s', p, hrun, hsource, hp.attrs.flags⟩

/-- A result that is returned as it is has the attributes of its type. -/
theorem exists_returned_of_byValue (hs : L.Reachable s) (hcls : L.classifyReturn f.cc f.ret = .ok .byValue) :
    ∃ sig s', (L.signature f).run.run s = (.ok sig, s') ∧ sig.retAttrs.flags = (L.returnAttrs f.cc f.ret).flags := by
  obtain ⟨c, hc, hcls⟩ := Sizing.classifyReturn_eq_ok_iff.1 hcls
  obtain ⟨sig, s', hrun, -, hsig⟩ := exists_signature hs.canonical hc
  have hflags : sig.retAttrs.flags = (L.returnForm f (L.returnClass c f.ret)).2.1.flags := hsig.retAttrs.flags
  rw [hcls] at hflags
  exact ⟨sig, s', hrun, hflags⟩

/-- What one function takes as a parameter of this type, and another of the same convention returns as a result, is
extended alike, in all sessions. -/
def ExtendsAlike (L : Lowering) (cc : CallConv) (t : TypeId) : Prop :=
  ∀ (f g : FnTy) (s s' : Session) (i : Nat), L.Reachable s → L.Reachable s' → f.cc = cc → g.cc = cc →
    f.params[i]? = some t → g.ret = t →
    ∃ sig sig' s₁ s₁' p, (L.signature f).run.run s = (.ok sig, s₁) ∧ (L.signature g).run.run s' = (.ok sig', s₁') ∧
      sig.sourceParams i = [p] ∧ p.attrs.flags.extensions = sig'.retAttrs.flags.extensions

/-- A value that is passed and returned as it is is extended alike, unless it is an optional error code. -/
theorem extendsAlike_iff (hparam : L.classifyParam cc t = .ok .byValue) (hret : L.classifyReturn cc t = .ok .byValue) :
    L.ExtendsAlike cc t ↔ ¬L.DropsExtension cc t := by
  constructor
  · intro h
    obtain ⟨sig, sig', s₁, s₁', p, hrun, hrun', hp, heq⟩ :=
      h ⟨[t], .void, cc, false, 0⟩ ⟨[], t, cc, false, 0⟩ .empty .empty 0 .empty .empty rfl rfl rfl rfl
    obtain ⟨sig₂, s₂, p₂, hrun₂, hp₂, hflags⟩ :=
      exists_param_of_byValue (f := ⟨[t], .void, cc, false, 0⟩) .empty hparam (i := 0) rfl
    obtain ⟨sig₃, s₃, hrun₃, hflags'⟩ := exists_returned_of_byValue (f := ⟨[], t, cc, false, 0⟩) .empty hret
    obtain ⟨hsig, -⟩ := Prod.mk.inj (hrun.symm.trans hrun₂)
    obtain ⟨hsig', -⟩ := Prod.mk.inj (hrun'.symm.trans hrun₃)
    obtain rfl := Except.ok.inj hsig
    obtain rfl := Except.ok.inj hsig'
    obtain rfl := (List.cons.inj (hp.symm.trans hp₂)).1
    rw [hflags, hflags'] at heq
    exact (L.extensions_eq_iff cc t _).1 heq
  · rintro h f g s s' i hs hs' rfl hcc ht rfl
    obtain ⟨sig, s₁, p, hrun, hp, hflags⟩ := exists_param_of_byValue hs hparam ht
    obtain ⟨sig', s₁', hrun', hflags'⟩ := exists_returned_of_byValue hs' (hcc ▸ hret)
    refine ⟨sig, sig', s₁, s₁', p, hrun, hrun', hp, ?_⟩
    rw [hflags, hflags', hcc]
    exact (L.extensions_eq_iff f.cc g.ret _).2 h

/-- An enum with a tag of eight bits is extended as a parameter and as a result. -/
theorem extendsAlike_iff_kind :
    Sizing.exchanging.classifyParam .c ⟨21⟩ = .ok .byValue ∧ Sizing.exchanging.classifyReturn .c ⟨21⟩ = .ok .byValue ∧
      (⟨.exchanging, .standard⟩ : Lowering).ExtendsAlike .c ⟨21⟩ := by
  have hparam : Sizing.exchanging.classifyParam .c ⟨21⟩ = .ok .byValue := by decide
  have hret : Sizing.exchanging.classifyReturn .c ⟨21⟩ = .ok .byValue := by decide
  refine ⟨hparam, hret, (extendsAlike_iff (L := ⟨.exchanging, .standard⟩) hparam hret).2 ?_⟩
  rintro ⟨⟨child, e, hd, -⟩, -⟩
  cases hd

/-- An optional error code is extended as a parameter and not as a result, in one signature. -/
theorem exists_not_extendsAlike :
    ∃ (L : Lowering) (t : TypeId) (sig : Signature) (s : Session) (p : MachineParam), L.target.Supported ∧
      L.classifyParam .c t = .ok .byValue ∧ L.classifyReturn .c t = .ok .byValue ∧
      (L.signature ⟨[t], t, .c, false, 0⟩).run.run .empty = (.ok sig, s) ∧ sig.sourceParams 0 = [p] ∧
      p.attrs.flags.extensions = (false, true) ∧ sig.retAttrs.flags.extensions = (false, false) := by
  let L : Lowering := ⟨.exchanging, .standard⟩
  have hparam : L.classifyParam .c ⟨29⟩ = .ok .byValue := by decide
  have hret : L.classifyReturn .c ⟨29⟩ = .ok .byValue := by decide
  obtain ⟨sig, s, p, hrun, hp, hflags⟩ :=
    exists_param_of_byValue (f := ⟨[⟨29⟩], ⟨29⟩, .c, false, 0⟩) .empty hparam (i := 0) rfl
  obtain ⟨sig', s', hrun', hflags'⟩ := exists_returned_of_byValue (f := ⟨[⟨29⟩], ⟨29⟩, .c, false, 0⟩) .empty hret
  obtain ⟨hsig, -⟩ := Prod.mk.inj (hrun.symm.trans hrun')
  obtain rfl := Except.ok.inj hsig
  have hdrops : L.DropsExtension .c ⟨29⟩ := ⟨⟨.anyError, _, rfl, rfl, rfl⟩, by decide, .inr (by decide)⟩
  refine ⟨L, ⟨29⟩, sig, s, p, Target.supported_sample, hparam, hret, hrun, hp, ?_, ?_⟩
  · rw [hflags]
    exact (hdrops.extensions _).1
  · rw [hflags']
    exact (hdrops.extensions false).2

end Lowering

end MachineAbi
