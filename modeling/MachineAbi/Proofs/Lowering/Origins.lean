import MachineAbi.Proofs.Lowering.Forms

/-!
# The order of machine parameters

What the machine parameters of a function type are there for, one after another, follows from the classes of its
parameters and of its return value alone (`Lowering.origins_signatureForm`). So a machine parameter is a part of the
source parameter that it names (`Lowering.exists_part_of_mem_paramForm`), and of no other.
-/

namespace MachineAbi

/-- How many machine parameters a source parameter of this class has. -/
def ParamClass.width : ParamClass → Nat
  | .noBits => 0
  | .slice => 2
  | .split slots => slots.length
  | _ => 1

/-- The parts of source parameters of these classes, which are numbered from `index` on. -/
def sourceOrigins (index : Nat) (classes : List ParamClass) : List ParamOrigin :=
  (classes.zipIdx index).flatMap fun c => (List.range c.1.width).map (.source c.2)

theorem sourceOrigins_cons (index : Nat) (c : ParamClass) (classes : List ParamClass) :
    sourceOrigins index (c :: classes) =
      (List.range c.width).map (.source index) ++ sourceOrigins (index + 1) classes := by
  rw [sourceOrigins, List.zipIdx_cons, List.flatMap_cons, sourceOrigins]

/-- The parts of source parameters are of those from `index` on. -/
theorem exists_part_of_mem_sourceOrigins {index : Nat} {classes : List ParamClass} {o : ParamOrigin}
    (h : o ∈ sourceOrigins index classes) : ∃ i part, o = .source i part ∧ index ≤ i := by
  obtain ⟨⟨c, i⟩, hc, ho⟩ := List.mem_flatMap.1 h
  obtain ⟨part, -, rfl⟩ := List.mem_map.1 ho
  exact ⟨i, part, rfl, (List.mem_zipIdx hc).1⟩

namespace Lowering

variable {L : Lowering} {t : TypeId}

/-- What the machine parameters of a function type are there for, in order: the hidden pointers, and the parts of its
parameters. -/
def origins (L : Lowering) (f : FnTy) (returnClass : ReturnClass) (classes : List ParamClass) : List ParamOrigin :=
  (if returnClass = .sret then [.returnPointer] else []) ++
    (if L.options.errorTracing = true ∧ f.cc = .auto ∧ L.isErrorType f.ret = true then [.errorTrace] else []) ++
    sourceOrigins 0 classes

theorem origins_splitForm (cc : CallConv) (index part : Nat) (slots : List Slot) :
    (L.splitForm cc index part slots).map (·.origin) = (List.range' part slots.length).map (.source index) := by
  induction slots generalizing part with
  | nil => rfl
  | cons slot slots ih =>
    rw [splitForm, List.map_cons, ih, List.length_cons, List.range'_succ, List.map_cons]

theorem origins_paramForm (f : FnTy) (index : Nat) (t : TypeId) (c : ParamClass) :
    (L.paramForm f index t c).map (·.origin) = (List.range c.width).map (.source index) := by
  cases c with
  | split slots => rw [paramForm, origins_splitForm, ParamClass.width, List.range_eq_range']
  | _ => rfl

/-- All machine parameters of a source parameter name it as their origin. -/
theorem exists_part_of_mem_paramForm {f : FnTy} {index : Nat} {c : ParamClass} {p : ParamForm}
    (hp : p ∈ L.paramForm f index t c) : ∃ part, p.origin = .source index part := by
  have hmem : p.origin ∈ (L.paramForm f index t c).map (·.origin) := List.mem_map_of_mem hp
  rw [origins_paramForm] at hmem
  obtain ⟨part, -, ho⟩ := List.mem_map.1 hmem
  exact ⟨part, ho.symm⟩

theorem origins_paramsForm (c : Option Classifier) (f : FnTy) (index : Nat) (ts : List TypeId) :
    (L.paramsForm c f index ts).map (·.origin) = sourceOrigins index (ts.map (L.paramClass c)) := by
  induction ts generalizing index with
  | nil => rfl
  | cons t ts ih =>
    rw [paramsForm, List.map_append, ih, origins_paramForm, List.map_cons, sourceOrigins_cons]

theorem exists_part_of_mem_paramsForm {c : Option Classifier} {f : FnTy} {index : Nat} {ts : List TypeId} {p : ParamForm}
    (hp : p ∈ L.paramsForm c f index ts) : ∃ i part, p.origin = .source i part ∧ index ≤ i := by
  have hmem : p.origin ∈ (L.paramsForm c f index ts).map (·.origin) := List.mem_map_of_mem hp
  rw [origins_paramsForm] at hmem
  exact exists_part_of_mem_sourceOrigins hmem

theorem origins_returnForm (f : FnTy) (c : ReturnClass) :
    (L.returnForm f c).2.2.map (·.origin) = if c = .sret then [.returnPointer] else [] := by
  unfold returnForm
  split <;> simp

theorem origins_errorTraceForm (f : FnTy) :
    (L.errorTraceForm f).map (·.origin) =
      if L.options.errorTracing = true ∧ f.cc = .auto ∧ L.isErrorType f.ret = true then [.errorTrace] else [] := by
  have hiff : (L.options.errorTracing = true ∧ L.reportsErrors f = true) ↔
      L.options.errorTracing = true ∧ f.cc = .auto ∧ L.isErrorType f.ret = true := by
    simp [reportsErrors]
  unfold errorTraceForm
  rw [if_congr hiff rfl rfl]
  split <;> rfl

/-- Hidden parameters are no parts of source parameters. -/
theorem origin_ne_source_of_hidden {f : FnTy} {c : ReturnClass} {p : ParamForm}
    (hp : p ∈ (L.returnForm f c).2.2 ++ L.errorTraceForm f) (index part : Nat) : p.origin ≠ .source index part := by
  have hmem : p.origin ∈ ((L.returnForm f c).2.2 ++ L.errorTraceForm f).map (·.origin) := List.mem_map_of_mem hp
  rw [List.map_append, origins_returnForm, origins_errorTraceForm] at hmem
  intro ho
  rw [ho] at hmem
  rcases List.mem_append.1 hmem with hmem | hmem
  · split at hmem
    · cases List.mem_singleton.1 hmem
    · cases hmem
  · split at hmem
    · cases List.mem_singleton.1 hmem
    · cases hmem

theorem origins_signatureForm (c : Option Classifier) (f : FnTy) :
    (L.signatureForm c f).params.map (·.origin) =
      L.origins f (L.returnClass c f.ret) (f.params.map (L.paramClass c)) := by
  unfold signatureForm
  rw [List.map_append, List.map_append, origins_returnForm, origins_errorTraceForm, origins_paramsForm, origins]

/-- There is a return pointer exactly if the result is returned behind one. -/
theorem returnPointer_mem_origins_iff {f : FnTy} {c : ReturnClass} {classes : List ParamClass} :
    .returnPointer ∈ L.origins f c classes ↔ c = .sret := by
  have hparts : .returnPointer ∉ sourceOrigins 0 classes := by
    intro hmem
    obtain ⟨i, part, ho, -⟩ := exists_part_of_mem_sourceOrigins hmem
    cases ho
  simp [origins, hparts]

end Lowering

end MachineAbi
