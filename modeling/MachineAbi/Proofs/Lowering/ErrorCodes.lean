import MachineAbi.Proofs.Lowering.Answers

/-!
# Functions that return an error code

An error union whose payload takes no room is stored as its error code, like a value of its error set. Where it is
returned, it should be the code that comes back, whatever the calling convention.

* An error set always comes back as its code, and so does an error union of an empty error set
  (`Sizing.returnClass_errorSet`, `Sizing.returnClass_empty`).
* Of an error union with errors, most conventions see a value of two bytes and return an integer of 16 bits
  (`Sizing.returnClass_codeUnion`). Those of ARM return aggregates in words, and that of WebAssembly returns them behind
  a pointer: they return neither the code nor any other 16-bit integer.

`Lowering.returnsCode_iff` puts the two together: in any session, the machine signature returns the code, if and only if
the convention is not one of these (`Lowering.ReturnsAggregate`).
-/

namespace MachineAbi

/-- Error sets, and error unions of an error set and a payload that takes no room. -/
inductive SealedPool.BareError (P : SealedPool) (t : TypeId) : Prop
  | set {e : ErrorSet} (h : P.get t = .errorSet e)
  | union {set payload : TypeId} {e : ErrorSet} (h : P.get t = .errorUnion set payload) (hset : P.get set = .errorSet e)
      (hpayload : P.takesRoom payload = false)

namespace Sizing

variable {Z : Sizing} {t set payload : TypeId} {e : ErrorSet}

/-! ## Error sets -/

theorem packedWidth_errorSet (hd : Z.get t = .errorSet e) (he : e.hasBits = true) : Z.packedWidth t = 16 := by
  rw [packedWidth, extent_eq, hd]
  simp only [he, if_true, Extent.ofLayout, Target.errorCodeLayout_eq]

theorem isScalar_errorSet (hd : Z.get t = .errorSet e) : Z.isScalar t = true := by
  rw [SealedPool.isScalar, hd]

theorem le_ptrBits (T : Target) : 32 ≤ T.ptrBits := by
  rw [Target.ptrBits]
  cases T.arch <;> decide

/-- An error set is returned as it is by every convention. -/
theorem returnClass_errorSet (c : Option Classifier) (hd : Z.get t = .errorSet e) (he : e.hasBits = true) :
    Z.returnClass c t = .byValue := by
  have hr : Z.takesRoom t = true := by rw [Z.takesRoom_eq, hd]; exact he
  have hscalar := isScalar_errorSet hd
  have hwidth := packedWidth_errorSet hd he
  have hxlen := le_ptrBits Z.target
  have hslice : Z.isSlice t = false ∧ Z.isOptionalSlice t = false := by simp [Pool.isSlice, Pool.isOptionalSlice, hd]
  simp only [returnClass, hr, hslice.1, hslice.2, Bool.not_true, Bool.or_self, Bool.false_eq_true, if_false]
  cases c with
  | none =>
    have href : Z.isByReference t = false := by rw [Z.isByReference_eq, hd]
    simp only [href, Bool.false_eq_true, if_false]
  | some c =>
    cases c with
    | sysv => simp only [Classifier.classifyReturn, SysV.classifyReturn, hscalar, if_true]
    | win64 =>
      simp only [Classifier.classifyReturn, Win64.classifyReturn, Win64.kind, hd, layout_errorSet hd he, hscalar]
      rfl
    | aarch64 => simp only [Classifier.classifyReturn, Aarch64.classifyReturn, Aarch64.kind, hscalar, if_true, hd]
    | armSoft | armVfp =>
      have hsmall : ¬64 < Z.packedWidth t := by omega
      have hhalf : Arm.widenedHalf? Z t = none := by simp [Arm.widenedHalf?, hd]
      simp only [Classifier.classifyReturn, Arm.classifyReturn, Arm.kind, hd, hsmall, if_false, hhalf]
      rfl
    | riscv =>
      have hsmall : ¬2 * RiscV.xlen Z.target < Z.packedWidth t := by
        rw [RiscV.xlen]
        omega
      have hhalf : RiscV.widenedHalf? Z t = none := by simp [RiscV.widenedHalf?, hd]
      simp only [Classifier.classifyReturn, RiscV.classifyReturn, RiscV.kind, hd, hsmall, if_false, hhalf]
      rfl
    | wasm =>
      have hdirect : Wasm.direct? Z t = some t := by rw [Wasm.direct?_eq, if_pos hscalar]
      simp only [Classifier.classifyReturn, Wasm.classifyReturn, hdirect, if_true]
    | generic => rfl

/-! ## Error unions without a payload -/

/-- An error that takes no room is returned as its code all the same. -/
theorem returnClass_empty (c : Option Classifier) (hr : Z.takesRoom t = false) (he : Z.isErrorType t = true) :
    Z.returnClass c t = .errorCode := by
  simp only [returnClass, hr, he, Bool.not_false, if_true]

/-- An error union of this error set, which has errors, and this payload, which takes no room. -/
structure CodeUnion (Z : Sizing) (t set payload : TypeId) (e : ErrorSet) : Prop where
  get : Z.get t = .errorUnion set payload
  get_set : Z.get set = .errorSet e
  hasBits : e.hasBits = true
  payload : Z.takesRoom payload = false

namespace CodeUnion

variable (h : Z.CodeUnion t set payload e)

include h

theorem takesRoom_set : Z.takesRoom set = true := by
  rw [Z.takesRoom_eq, h.get_set]
  exact h.hasBits

theorem takesRoom : Z.takesRoom t = true := by
  rw [Z.takesRoom_eq, h.get]
  simp only [h.takesRoom_set, Bool.true_or]

theorem repr_eq : Z.errorUnionRepr set payload = .errorOnly := by
  rw [errorUnionRepr, h.takesRoom_set, h.payload, ErrorUnionRepr.of]

theorem layout_eq : Z.layout t = ⟨2, 2⟩ := by
  rw [layout, extent_eq, h.get]
  simp only [h.repr_eq, Extent.ofLayout, ErrorUnionRepr.layout, Target.errorCodeLayout_eq]

theorem isScalar : Z.isScalar t = false := by
  rw [SealedPool.isScalar, h.get]

theorem members_eq : Z.members t = [⟨set, 0⟩] := by
  have hset := layout_errorSet h.get_set h.hasBits
  simp [members, h.get, h.repr_eq, ErrorUnionRepr.order, Member.sequence, hset, alignUp]

theorem homogeneousFloats?_eq (limit : Nat) : Z.homogeneousFloats? t limit = none := by
  have hcount : Z.countFloats limit none t = none := by
    rw [countFloats_eq]
    simp [h.takesRoom, floatKind?, floatParts?, h.get]
  rw [homogeneousFloats?, hcount]
  rfl

/-- One integer lies in the first eightbyte. -/
theorem eightbytes_eq : SysV.Eightbytes.of? Z t = some ⟨.integer, .none, false⟩ := by
  have hsize : set.raw < Z.size := by
    by_contra hn
    have hvoid := Pool.get_of_size_le (p := Z.toPool) (Nat.le_of_not_lt hn)
    rw [h.get_set] at hvoid
    cases hvoid
  have hclassify : SysV.Eightbytes.empty.classify Z t 0 = ⟨.integer, .none, false⟩ := by
    obtain ⟨n, hn⟩ := Nat.exists_eq_succ_of_ne_zero (Nat.ne_of_gt (Nat.zero_lt_of_lt hsize))
    rw [SysV.Eightbytes.classify, hn, SysV.Eightbytes.classifyWithin]
    simp only [SysV.Eightbytes.putScalar?, h.get, h.members_eq, List.foldl_cons, List.foldl_nil]
    rw [SysV.Eightbytes.classifyWithin]
    simp only [SysV.Eightbytes.putScalar?, h.get_set]
    rfl
  rw [SysV.Eightbytes.of?, h.layout_eq, hclassify]
  rfl

end CodeUnion

/-- How the classifiers return an error union that is stored as its code. -/
theorem returnClass_codeUnion (h : Z.CodeUnion t set payload e) (c : Option Classifier) :
    Z.returnClass c t =
      match c with
      | none | some .generic => .byValue
      | some .sysv | some .win64 | some .aarch64 | some .riscv => .abiSizedInt
      | some .armSoft | some .armVfp => .split [.int 32]
      | some .wasm => .sret := by
  have hslice : Z.isSlice t = false ∧ Z.isOptionalSlice t = false := by simp [Pool.isSlice, Pool.isOptionalSlice, h.get]
  have hxlen := le_ptrBits Z.target
  simp only [returnClass, h.takesRoom, hslice.1, hslice.2, Bool.not_true, Bool.or_self, Bool.false_eq_true, if_false]
  cases c with
  | none =>
    have href : Z.isByReference t = false := by
      rw [Z.isByReference_eq, h.get]
      simp only [h.payload, Bool.false_and]
    simp only [href, Bool.false_eq_true, if_false]
  | some c =>
    cases c with
    | sysv =>
      simp only [Classifier.classifyReturn, SysV.classifyReturn, h.isScalar, h.eightbytes_eq]
      rfl
    | win64 =>
      simp only [Classifier.classifyReturn, Win64.classifyReturn, Win64.kind, h.get, h.layout_eq, h.isScalar]
      rfl
    | aarch64 =>
      simp only [Classifier.classifyReturn, Aarch64.classifyReturn, Aarch64.kind, h.isScalar, h.homogeneousFloats?_eq,
        h.layout_eq]
      rfl
    | armSoft | armVfp =>
      simp only [Classifier.classifyReturn, Arm.classifyReturn, Arm.kind, Arm.aggregateKind, h.get, h.isScalar,
        h.homogeneousFloats?_eq, h.layout_eq]
      rfl
    | riscv =>
      have hfields : RiscV.floatFields? Z t = none := by simp [RiscV.floatFields?, RiscV.storedFields?, h.get]
      have hpair : ¬2 * RiscV.xlen Z.target < 2 * 8 ∧ ¬RiscV.xlen Z.target < 2 * 8 := by
        rw [RiscV.xlen]
        omega
      have hkind : RiscV.kind Z t = .integer := by
        simp only [RiscV.kind, RiscV.aggregateKind, h.get, h.isScalar, hfields, h.layout_eq, ite_self, hpair.1, hpair.2,
          if_false, Bool.false_eq_true]
      simp only [Classifier.classifyReturn, RiscV.classifyReturn, hkind]
    | wasm =>
      have hdirect : Wasm.direct? Z t = none := by
        rw [Wasm.direct?_eq]
        simp [h.isScalar, Wasm.onlyMember?, h.get]
      simp only [Classifier.classifyReturn, Wasm.classifyReturn, hdirect]
    | generic => rfl

end Sizing

/-! ## Machine signatures -/

/-- The signature returns an error code and nothing else. -/
def Signature.ReturnsCode (sig : Signature) (table : Table) : Prop :=
  sig.sret = false ∧ table.Stores sig.ret (.int errorCodeBits)

namespace Lowering

open Session

variable {L : Lowering} {s : Session} {f : FnTy}

/-- An error union with errors is returned by a convention that has rules of its own for aggregates of two bytes. -/
def ReturnsAggregate (L : Lowering) (f : FnTy) : Prop :=
  L.takesRoom f.ret = true ∧ (∃ set payload, L.get f.ret = .errorUnion set payload) ∧
    ∃ c ∈ [Classifier.armSoft, .armVfp, .wasm], classifierFor f.cc L.target = .ok (some c)

/-- The machine tree that is returned is that of an error code, and nothing is returned behind a pointer. -/
def FormsCode (L : Lowering) (c : Option Classifier) (f : FnTy) : Prop :=
  L.returnClass c f.ret ≠ .sret ∧ (L.returnForm f (L.returnClass c f.ret)).1 = .int errorCodeBits

theorem valueTree_errorSet {t : TypeId} {e : ErrorSet} (hd : L.get t = .errorSet e) (he : e.hasBits = true) :
    L.valueTree t = .int errorCodeBits := by
  have hr : L.takesRoom t = true := by rw [L.takesRoom_eq, hd]; exact he
  rw [valueTree, Sizing.form_eq, Sizing.formNew, hd]
  simp only [hr, if_true, Form.plain]

theorem valueTree_codeUnion {t set payload : TypeId} {e : ErrorSet} (h : L.CodeUnion t set payload e) :
    L.valueTree t = .int errorCodeBits := by
  rw [valueTree, Sizing.form_eq, Sizing.formNew, h.get]
  simp only [Sizing.errorUnionForm, h.repr_eq, Form.plain]

/-- Which conventions return a bare error as its code. -/
theorem formsCode_iff {c : Option Classifier} (hc : classifierFor f.cc L.target = .ok c) (hf : L.BareError f.ret) :
    L.FormsCode c f ↔ ¬L.ReturnsAggregate f := by
  cases hr : L.takesRoom f.ret with
  | false =>
    have herror : L.isErrorType f.ret = true := by cases hf <;> rename_i h <;> simp [Pool.isErrorType, *]
    have hclass := Sizing.returnClass_empty c hr herror
    have hyes : L.FormsCode c f := by
      rw [FormsCode, hclass]
      exact ⟨nofun, rfl⟩
    exact iff_of_true hyes fun h => by rw [ReturnsAggregate, hr] at h; exact absurd h.1 Bool.false_ne_true
  | true =>
    cases hf with
    | @set e h =>
      have he : e.hasBits = true := by rwa [L.takesRoom_eq, h] at hr
      have hyes : L.FormsCode c f := by
        rw [FormsCode, Sizing.returnClass_errorSet c h he]
        exact ⟨nofun, valueTree_errorSet h he⟩
      exact iff_of_true hyes fun ⟨_, ⟨_, _, hu⟩, _⟩ => by rw [h] at hu; cases hu
    | @union set payload e h hset hpayload =>
      have he : e.hasBits = true := by
        have hroom : L.takesRoom set = true := by
          rw [L.takesRoom_eq, h] at hr
          simpa [hpayload] using hr
        rwa [L.takesRoom_eq, hset] at hroom
      have hcode : L.CodeUnion f.ret set payload e := ⟨h, hset, he, hpayload⟩
      have hvalue := valueTree_codeUnion hcode
      have hagg : L.ReturnsAggregate f ↔ ∃ k ∈ [Classifier.armSoft, .armVfp, .wasm], c = some k := by
        simp only [ReturnsAggregate, hr, h, hc, Except.ok.injEq, true_and]
        exact ⟨fun h => h.2, fun h => ⟨⟨set, payload, rfl⟩, h⟩⟩
      rw [hagg, FormsCode, Sizing.returnClass_codeUnion hcode]
      rcases c with _ | _ | _ | _ | _ | _ | _ | _ | _ <;>
        simp [returnForm, hvalue, hcode.layout_eq, errorCodeBits, slotTree]

theorem returnsCode_of_shows {c : Option Classifier} {sig : Signature}
    (h : s.ShowsSignature L.toSealedPool (L.signatureForm c f) sig) : sig.ReturnsCode s.table ↔ L.FormsCode c f := by
  have hclass : sig.returnClass = L.returnClass c f.ret := h.returnClass
  have hret : s.Shows L.toSealedPool (L.returnForm f (L.returnClass c f.ret)).1 sig.ret := h.ret
  have hsret : sig.sret = false ↔ L.returnClass c f.ret ≠ .sret := by
    rw [Signature.sret, ReturnClass.isSret, hclass]
    simp
  rw [Signature.ReturnsCode, FormsCode, hsret]
  refine and_congr_right fun _ => ⟨fun hs => ?_, fun htree => ?_⟩
  · exact hret.of_stores hs
  · rw [htree] at hret
    exact hret

/-- WebAssembly returns an error union with errors through a hidden pointer. -/
theorem sret_of_wasm {set payload : TypeId} {e : ErrorSet} {sig : Signature} (h : L.CodeUnion f.ret set payload e)
    (hsig : s.ShowsSignature L.toSealedPool (L.signatureForm (some .wasm) f) sig) : sig.sret = true := by
  have hclass : sig.returnClass = L.returnClass (some .wasm) f.ret := hsig.returnClass
  rw [Signature.sret, hclass, Sizing.returnClass_codeUnion h]
  rfl

/-- ARM returns it as a word. -/
theorem stores_word_of_arm {set payload : TypeId} {e : ErrorSet} {sig : Signature} {c : Option Classifier}
    (hc : c = some .armSoft ∨ c = some .armVfp) (h : L.CodeUnion f.ret set payload e)
    (hsig : s.ShowsSignature L.toSealedPool (L.signatureForm c f) sig) : s.table.Stores sig.ret (.int 32) := by
  have hret : s.Shows L.toSealedPool (L.returnForm f (L.returnClass c f.ret)).1 sig.ret := hsig.ret
  rw [Sizing.returnClass_codeUnion h] at hret
  rcases hc with rfl | rfl <;> exact hret

/-- A function that returns an error without a payload returns its code and nothing else, unless the convention takes
the error union for an aggregate. -/
theorem returnsCode_iff (hs : L.Reachable s) (hcc : f.cc ≠ .async) (hf : L.BareError f.ret) :
    ∃ sig s', (L.signature f).run.run s = (.ok sig, s') ∧ L.classifyReturn f.cc f.ret = .ok sig.returnClass ∧
      (sig.ReturnsCode s'.table ↔ ¬L.ReturnsAggregate f) := by
  obtain ⟨c, hc⟩ := exists_classifier hcc L.target
  obtain ⟨sig, s', hrun, -, hsig⟩ := exists_signature hs.canonical hc
  refine ⟨sig, s', hrun, ?_, (returnsCode_of_shows hsig).trans (formsCode_iff hc hf)⟩
  rw [Sizing.classifyReturn, hc]
  exact congrArg Except.ok hsig.returnClass.symm

end Lowering

/-! ## Any error or nothing -/

/-- The primitive types, and any error or nothing. -/
def Pool.failing : Pool :=
  let failing : Ty := .errorUnion .anyError .void
  ⟨(primitiveTypes ++ [failing]).toArray⟩

theorem Pool.isSome_seal_failing : failing.seal?.isSome = true := by decide +kernel

def SealedPool.failing : SealedPool := Pool.failing.seal?.get Pool.isSome_seal_failing

theorem Sizing.codeUnion_of {P : SealedPool} {t set payload : TypeId} {e : ErrorSet}
    (hd : P.get t = .errorUnion set payload) (hset : P.get set = .errorSet e) (he : e.hasBits = true)
    (hpayload : P.takesRoom payload = false) (T : Target) : (Sizing.of P T).CodeUnion t set payload e :=
  ⟨hd, hset, he, hpayload⟩

/-- A C function that returns any error or nothing. -/
def FnTy.failing : FnTy := ⟨[], ⟨21⟩, .c, false, 0⟩

namespace Lowering

def failing (T : Target) : Lowering := ⟨.of .failing T, .standard⟩

theorem codeUnion_failing (T : Target) : (failing T).CodeUnion ⟨21⟩ .anyError .void .global :=
  Sizing.codeUnion_of (by decide +kernel) (by decide +kernel) rfl (by decide +kernel) T

theorem bareError_failing (T : Target) : (failing T).BareError FnTy.failing.ret :=
  .union (codeUnion_failing T).get (codeUnion_failing T).get_set (codeUnion_failing T).payload

/-- On x86-64, it returns the error code. -/
theorem returnsCode_iff_failing :
    ∃ sig s', ((failing .sample).signature .failing).run.run .empty = (.ok sig, s') ∧ sig.ReturnsCode s'.table := by
  obtain ⟨sig, s', hrun, -, hiff⟩ := returnsCode_iff .empty (by decide) (bareError_failing .sample)
  refine ⟨sig, s', hrun, hiff.2 fun ⟨_, _, c, hmem, hc⟩ => ?_⟩
  have hsysv : classifierFor FnTy.failing.cc (failing .sample).target = .ok (some .sysv) := rfl
  obtain rfl := Option.some.inj (Except.ok.inj (hsysv.symm.trans hc))
  exact absurd hmem (by decide)

/-- On WebAssembly, it writes the error code through a hidden pointer, and on ARM it returns a word. -/
theorem exists_not_returnsCode :
    (∃ (L : Lowering) (sig : Signature) (s' : Session), L.target.Supported ∧ L.BareError FnTy.failing.ret ∧
      (L.signature .failing).run.run .empty = (.ok sig, s') ∧ sig.sret = true) ∧
    ∃ (L : Lowering) (sig : Signature) (s' : Session), L.target.Supported ∧ L.BareError FnTy.failing.ret ∧
      (L.signature .failing).run.run .empty = (.ok sig, s') ∧ s'.table.Stores sig.ret (.int 32) := by
  let wasm : Target := .ofComponents "wasm32-unknown-unknown" ⟨"wasm32", "unknown", "unknown", none⟩ .wasm32
  let arm : Target := .ofComponents "arm-unknown-linux-gnueabihf" ⟨"arm", "unknown", "linux", some "gnueabihf"⟩ .arm
  have hwasm : wasm.Supported := ⟨"wasm32-unknown-unknown", rfl⟩
  have harm : arm.Supported := ⟨"arm-unknown-linux-gnueabihf", rfl⟩
  constructor
  · have hc : classifierFor FnTy.failing.cc (failing wasm).target = .ok (some .wasm) := rfl
    obtain ⟨sig, s', hrun, -, hsig⟩ := exists_signature (canonical_empty _) hc
    exact ⟨failing wasm, sig, s', hwasm, bareError_failing wasm, hrun, sret_of_wasm (codeUnion_failing wasm) hsig⟩
  · have hc : classifierFor FnTy.failing.cc (failing arm).target = .ok (some .armVfp) := rfl
    obtain ⟨sig, s', hrun, -, hsig⟩ := exists_signature (canonical_empty _) hc
    have hword := stores_word_of_arm (Or.inr rfl) (codeUnion_failing arm) hsig
    exact ⟨failing arm, sig, s', harm, bareError_failing arm, hrun, hword⟩

end Lowering

end MachineAbi
