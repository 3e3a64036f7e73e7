import MachineAbi.Proofs.Lowering.FormLayouts
import MachineAbi.Proofs.Lowering.Order
import MachineAbi.Proofs.Lowering.Origins

/-!
# The shape of machine signatures

Which machine parameters a function type has, and in which order, follows from the classes of its parameters and of its
return value alone (`Lowering.origins`): first the hidden pointers, then the parts of each source parameter. The machine
type of each of them is sized.

* `Lowering.HasShape`: what is said about a signature as a whole;
* `Lowering.exists_hasShape`: every function type of a convention with a machine form gets a signature of this shape,
  in every session. The machine type of the function has the same parameter types and the same return type, whatever was
  asked for in between.

The order of the parameters and the sizes of their types are those of the form of the signature, in which no session
occurs. A machine type that the signature has is the one that the function type has, since a tree has one handle
(`Session.Shows.handle_eq`).
-/

namespace MachineAbi

open Session

/-- The code generator knows the layout of the machine type: it is not void, not a function and not a named struct
without a body. -/
structure Table.IsSized (table : Table) (T : Target) (h : Handle) : Prop where
  layout : (table.layoutOf T h).isSome = true
  ne_void : table.get h ≠ .void
  ne_function : ∀ ret params varargs, table.get h ≠ .function ret params varargs
  body : ∀ id, table.get h = .named id → (table.bodyAt? id).isSome = true

/-- Whatever has a layout is sized. -/
theorem Table.isSized_of_layout {table : Table} {T : Target} {h : Handle} (hl : (table.layoutOf T h).isSome = true) :
    table.IsSized T h := by
  have hstep := hl
  rw [layoutOf_eq_step, layoutStep] at hstep
  refine ⟨hl, fun hg => ?_, fun ret params varargs hg => ?_, fun id hg => ?_⟩
  · rw [hg] at hstep
    cases hstep
  · rw [hg] at hstep
    cases hstep
  · rw [hg] at hstep
    cases hb : table.bodyAt? id with
    | some body => rfl
    | none => simp [hb] at hstep

namespace Lowering

variable {L : Lowering} {s s' : Session} {t : TypeId}

/-- The signature of a function type is told by the classes of its parameters and of its return value, and the machine
types of its parameters are sized. -/
structure HasShape (L : Lowering) (table : Table) (f : FnTy) (sig : Signature) : Prop where
  returnClass : L.classifyReturn f.cc f.ret = .ok sig.returnClass
  paramClasses : List.Forall₂ (fun t c => L.classifyParam f.cc t = .ok c) f.params sig.paramClasses
  origins : sig.params.map (·.origin) = L.origins f sig.returnClass sig.paramClasses
  sret : sig.sret = true ↔ ∃ p ∈ sig.params, p.origin = .returnPointer
  sized : ∀ p ∈ sig.params, table.IsSized L.target p.ty

/-! ## The sizes of the parameters -/

theorem isSome_layout?_slotTree (hv : L.ScalarVectors) {slot : Slot} (h : slot.Stored L.toSizing) :
    ((L.slotTree slot).layout? L.target).isSome = true := by
  cases slot with
  | source t => exact Sizing.isSome_layout?_form hv t h
  | _ => simp [slotTree, MachineTree.layout?, MachineTree.scalarBits?]

theorem isSome_layout?_splitForm (hv : L.ScalarVectors) {cc : CallConv} {index part : Nat} {slots : List Slot}
    (h : ∀ slot ∈ slots, slot.Stored L.toSizing) :
    ∀ p ∈ L.splitForm cc index part slots, (p.ty.layout? L.target).isSome = true := by
  induction slots generalizing part with
  | nil => exact fun p hp => absurd hp List.not_mem_nil
  | cons slot slots ih =>
    refine List.forall_mem_cons.2 ⟨isSome_layout?_slotTree hv (h slot List.mem_cons_self), ?_⟩
    exact ih fun s hs => h s (List.mem_cons_of_mem _ hs)

theorem isSome_layout?_paramForm (hv : L.ScalarVectors) {f : FnTy} {index : Nat} {c : ParamClass}
    (hc : c.Stored L.toSizing) (hr : c ≠ .noBits → L.takesRoom t = true) :
    ∀ p ∈ L.paramForm f index t c, (p.ty.layout? L.target).isSome = true := by
  cases c with
  | noBits => exact fun p hp => absurd hp List.not_mem_nil
  | byValue => exact List.forall_mem_singleton.2 (Sizing.isSome_layout?_form hv t (hr nofun))
  | split slots => exact isSome_layout?_splitForm hv hc
  | widened slot => exact List.forall_mem_singleton.2 (isSome_layout?_slotTree hv hc)
  | byReference | abiSizedInt | slice | packedArray => simp [paramForm, MachineTree.layout?]

theorem isSome_layout?_paramsForm (hv : L.ScalarVectors) (c : Option Classifier) (f : FnTy) (index : Nat)
    (ts : List TypeId) :
    ∀ p ∈ L.paramsForm c f index ts, (p.ty.layout? L.target).isSome = true := by
  induction ts generalizing index with
  | nil => exact fun p hp => absurd hp List.not_mem_nil
  | cons t ts ih =>
    refine List.forall_mem_append.2 ⟨?_, ih (index + 1)⟩
    exact isSome_layout?_paramForm hv (L.stored_paramClass c t) Sizing.takesRoom_of_paramClass

theorem isSome_layout?_signatureForm (hv : L.ScalarVectors) (c : Option Classifier) (f : FnTy) :
    ∀ p ∈ (L.signatureForm c f).params, (p.ty.layout? L.target).isSome = true := by
  unfold signatureForm
  refine List.forall_mem_append.2 ⟨List.forall_mem_append.2 ⟨?_, ?_⟩, isSome_layout?_paramsForm hv c f 0 f.params⟩
  · unfold returnForm
    split <;> simp [MachineTree.layout?]
  · unfold errorTraceForm
    split <;> simp [MachineTree.layout?]

/-! ## Signatures -/

theorem origins_of_showsParams {P : SealedPool} {fs : List ParamForm} {ps : List MachineParam}
    (h : List.Forall₂ (s.ShowsParam P) fs ps) : ps.map (·.origin) = fs.map (·.origin) := by
  induction h with
  | nil => rfl
  | cons hp _ ih => rw [List.map_cons, List.map_cons, hp.origin, ih]

theorem isSized_of_showsParams {P : SealedPool} {T : Target} (hb : s.Bare P) {fs : List ParamForm}
    {ps : List MachineParam} (h : List.Forall₂ (s.ShowsParam P) fs ps)
    (hfs : ∀ f ∈ fs, (f.ty.layout? T).isSome = true) : ∀ p ∈ ps, s.table.IsSized T p.ty := by
  induction h with
  | nil => exact fun p hp => absurd hp List.not_mem_nil
  | cons hp _ ih =>
    obtain ⟨hfirst, hrest⟩ := List.forall_mem_cons.1 hfs
    refine List.forall_mem_cons.2 ⟨Table.isSized_of_layout ?_, ih hrest⟩
    rw [hp.ty.layoutOf hb]
    exact hfirst

/-- A signature that is that of its form has the shape of its function type. -/
theorem hasShape_of_shows (hv : L.ScalarVectors) (hs : s.Canonical L Idle) {f : FnTy} {c : Option Classifier}
    {sig : Signature} (hc : classifierFor f.cc L.target = .ok c)
    (hsig : s.ShowsSignature L.toSealedPool (L.signatureForm c f) sig) : L.HasShape s.table f sig := by
  have hreturn : sig.returnClass = L.returnClass c f.ret := hsig.returnClass
  have hclasses : sig.paramClasses = f.params.map (L.paramClass c) := hsig.paramClasses
  have horigins : sig.params.map (·.origin) = L.origins f sig.returnClass sig.paramClasses := by
    rw [origins_of_showsParams hsig.params, origins_signatureForm, hreturn, hclasses]
  refine ⟨?_, ?_, horigins, ?_, isSized_of_showsParams hs.owned.bare hsig.params (isSome_layout?_signatureForm hv c f)⟩
  · rw [hreturn, Sizing.classifyReturn, hc]
    rfl
  · rw [hclasses, List.forall₂_map_right_iff]
    refine List.forall₂_same.2 fun t _ => ?_
    rw [Sizing.classifyParam, hc]
    rfl
  · have hpointer : sig.sret = true ↔ .returnPointer ∈ sig.params.map (·.origin) := by
      rw [horigins, returnPointer_mem_origins_iff]
      exact beq_iff_eq
    rw [hpointer]
    exact List.mem_map

/-- The machine type of a function has the machine types of its signature. -/
theorem stores_function_of_shows (hs : s.Canonical L Idle) {f : FnTy} {c : Option Classifier} {sig : Signature}
    {h : Handle} (hsig : s.ShowsSignature L.toSealedPool (L.signatureForm c f) sig)
    (hshows : s.Shows L.toSealedPool (L.signatureForm c f).tree h) :
    s.table.Stores h (.function sig.ret (sig.params.map (·.ty)) f.varargs) := by
  obtain ⟨ret, params, hstores, hret, hparams⟩ := hshows
  have htypes : s.ShowsAll L.toSealedPool ((L.signatureForm c f).params.map (·.ty)) (sig.params.map (·.ty)) :=
    showsAll_iff.2 (List.forall₂_map_left_iff.2 (List.forall₂_map_right_iff.2 (hsig.params.imp fun _ _ h => h.ty)))
  rw [hsig.ret.handle_eq hs.wellFormed hret, htypes.handles_eq hs.wellFormed hparams]
  exact hstores

/-- Every function type of a convention with a machine form gets a signature of its shape, and its machine type has the
same parameter types and the same return type, whatever is asked for in between. -/
theorem exists_hasShape (hv : L.ScalarVectors) (hs : L.Reachable s) {f : FnTy} (hf : f.cc ≠ .async) :
    ∃ sig s₁, (L.signature f).run.run s = (.ok sig, s₁) ∧ L.HasShape s₁.table f sig ∧
      ∀ t s', L.get t = .function f → L.Later s₁ s' → ∃ h s'', (L.lower t).run.run s' = (.ok h, s'') ∧
        s''.table.get h = .function sig.ret (sig.params.map (·.ty)) f.varargs := by
  obtain ⟨c, hc⟩ := exists_classifier hf L.target
  obtain ⟨sig, s₁, hrun, hs₁, hsig⟩ := exists_signature hs.canonical hc
  refine ⟨sig, s₁, hrun, hasShape_of_shows hv hs₁ hc hsig, fun t s' hd hlater => ?_⟩
  obtain ⟨hs', ha⟩ := hlater.canonical hs₁
  have hft : L.fnTy? t = some f := by rw [Pool.fnTy?, hd]
  have hform : L.formFor t = .ok (L.form t) := by
    rw [formFor, hft]
    simp only [hc]
    rfl
  obtain ⟨h, s'', hlower, hs'', ha', hshows⟩ := exists_lower_of_form hs' hform
  rw [form_of_function hft hc] at hshows
  exact ⟨h, s'', hlower, (stores_function_of_shows hs'' (hsig.mono (ha.trans ha').refines) hshows).get_eq⟩

end Lowering

/-- A function of the internal convention that takes a union and a word and can fail. -/
def FnTy.fallible : FnTy := ⟨[⟨23⟩, ⟨10⟩], ⟨24⟩, .auto, false, 0⟩

namespace Lowering

/-- With error tracing, both hidden pointers come first. -/
theorem exists_hasShape_fallible :
    ∃ sig s₁, ((⟨.sample, ⟨false, true⟩⟩ : Lowering).signature .fallible).run.run .empty = (.ok sig, s₁) ∧
      sig.params.map (·.origin) = [.returnPointer, .errorTrace, .source 0 0, .source 1 0] := by
  obtain ⟨sig, s₁, hrun, hshape, -⟩ := exists_hasShape (L := ⟨.sample, ⟨false, true⟩⟩) (f := .fallible)
    Sizing.regular_sample.vectors .empty (by decide)
  have hclasses : Sizing.sample.classifyReturn .auto ⟨24⟩ = .ok .sret ∧
      Sizing.sample.classifyParam .auto ⟨23⟩ = .ok (.byReference false false) ∧
      Sizing.sample.classifyParam .auto ⟨10⟩ = .ok .byValue ∧ Sizing.sample.isErrorType ⟨24⟩ = true := by
    decide +kernel
  obtain ⟨hreturn, hunion, hword, herror⟩ := hclasses
  have hreturn : sig.returnClass = .sret := Except.ok.inj (hshape.returnClass.symm.trans hreturn)
  have hparams : sig.paramClasses = [.byReference false false, .byValue] := by
    have hall : List.Forall₂ (fun t c => Sizing.sample.classifyParam .auto t = .ok c) [⟨23⟩, ⟨10⟩] sig.paramClasses :=
      hshape.paramClasses
    generalize sig.paramClasses = classes at hall
    cases hall with
    | cons hfirst hrest =>
      cases hrest with
      | cons hsecond hrest =>
        cases hrest
        rw [Except.ok.inj (hfirst.symm.trans hunion), Except.ok.inj (hsecond.symm.trans hword)]
  refine ⟨sig, s₁, hrun, ?_⟩
  rw [hshape.origins, hreturn, hparams, origins, if_pos rfl, if_pos ⟨rfl, rfl, herror⟩]
  rfl

end Lowering

end MachineAbi
