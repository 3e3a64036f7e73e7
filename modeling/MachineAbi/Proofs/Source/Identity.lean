import Mathlib.Data.List.Induction
import MachineAbi.Source.Sealed
import MachineAbi.Proofs.Store

/-!
# Types keep their identities

A pool is built up by calls (`Pool.Call`), each of which comes down to one of three actions (`Pool.Action`): a type known
by its structure is asked for, a type is declared, or a declared container gets its fields. Whatever is called, in
whatever order (`Pool.identities_after`),

* structural types are stored once, and declared types are new;
* the primitive types stay in place;
* what is stored stays as it is, but for the fields that a container is given (`Pool.KeepsIdentities`).

A pool searches for structural types. It could as well keep an index of them (`Pool.Indexed`), which it updates when it
adds one: fields are filled in behind the back of the index, but only those of declared types, which are not in it. So
the index stays exact, and the answers are the same (`Pool.Indexed.Mirrors`).
-/

namespace MachineAbi

/-! ## What is asked of a pool -/

/-- The fields for a container, which are defined after the container is declared. -/
inductive Fields where
  | struct (fields : List StructField)
  | union (members : List UnionMember)

/-- A container of the right kind gets these fields; another type stays as it is. -/
def Fields.fill : Fields → Ty → Ty
  | .struct fields, .struct s => .struct { s with fields := fields }
  | .union members, .union u => .union { u with fields := members }
  | _, d => d

/-- Fields change declared types only, and these stay declared types. -/
theorem Fields.fill_nominal (f : Fields) (d : Ty) :
    f.fill d = d ∨ ¬d.isNominal = false ∧ ¬(f.fill d).isNominal = false := by
  cases f <;> cases d <;> simp [fill, Ty.isNominal]

namespace Pool

/-- What is done to a pool. -/
inductive Action where
  /-- A type known by its structure is looked up, and added if it is not there. -/
  | intern (d : Ty) (structural : d.isNominal = false)
  /-- A declared type is added. -/
  | declare (d : Ty) (nominal : d.isNominal = true)
  /-- A container gets its fields. -/
  | define (t : TypeId) (fields : Fields)

/-- A call of one of the operations by which a pool is built up. -/
inductive Call where
  | int (bits : Nat) (sign : Signedness)
  | float (bits : Nat)
  | pointer (q : PointerTy)
  | array (len : Nat) (child : TypeId) (sentinel : Bool)
  | vector (len : Nat) (child : TypeId)
  | optional (child : TypeId)
  | errorSet (names : List String)
  | errorUnion (set payload : TypeId)
  | tuple (fields : List FieldTy)
  | function (f : FnTy)
  | declareStruct (name : String) (layout : ContainerLayout)
  | declareUnion (name : String) (layout : ContainerLayout) (tag : Option TypeId)
  | struct (name : String) (layout : ContainerLayout) (fields : List StructField)
  | union (name : String) (layout : ContainerLayout) (tag : Option TypeId) (members : List UnionMember)
  | enum (name : String) (tag : TypeId) (variants : List String)
  | opaqueType (name : String)
  | defineStruct (t : TypeId) (fields : List StructField)
  | defineUnion (t : TypeId) (members : List UnionMember)

/-- The identity handed out by a call, and the pool after it. -/
def Call.run (p : Pool) : Call → Option TypeId × Pool
  | int bits sign => (p.int bits sign).map some id
  | float bits => (p.float bits).map some id
  | pointer q => (p.pointer q).map some id
  | array len child sentinel => (p.array len child sentinel).map some id
  | vector len child => (p.vector len child).map some id
  | optional child => (p.optional child).map some id
  | errorSet names => (p.errorSet names).map some id
  | errorUnion set payload => (p.errorUnion set payload).map some id
  | tuple fields => (p.tuple fields).map some id
  | function f => (p.function f).map some id
  | declareStruct name layout => (p.declareStruct name layout).map some id
  | declareUnion name layout tag => (p.declareUnion name layout tag).map some id
  | struct name layout fields => (p.struct name layout fields).map some id
  | union name layout tag members => (p.union name layout tag members).map some id
  | enum name tag variants => (p.enum name tag variants).map some id
  | opaqueType name => (p.opaqueType name).map some id
  | defineStruct t fields => (none, p.defineStruct t fields)
  | defineUnion t members => (none, p.defineUnion t members)

/-- What a call comes down to. -/
def Call.action : Call → Action
  | int bits sign => .intern (.int bits sign) rfl
  | float bits => .intern (.float bits) rfl
  | pointer q => .intern (.pointer q) rfl
  | array len child sentinel => .intern (.array len child sentinel) rfl
  | vector len child => .intern (.vector len child) rfl
  | optional child => .intern (.optional child) rfl
  | errorSet names => .intern (.errorSet (.ofNames names)) rfl
  | errorUnion set payload => .intern (.errorUnion set payload) rfl
  | tuple fields => .intern (.tuple fields) rfl
  | function f => .intern (.function f) rfl
  | declareStruct name layout => .declare (.struct ⟨name, layout, []⟩) rfl
  | declareUnion name layout tag => .declare (.union ⟨name, layout, tag, []⟩) rfl
  | struct name layout fields => .declare (.struct ⟨name, layout, fields⟩) rfl
  | union name layout tag members => .declare (.union ⟨name, layout, tag, members⟩) rfl
  | enum name tag variants => .declare (.enum name tag variants) rfl
  | opaqueType name => .declare (.opaqueType name) rfl
  | defineStruct t fields => .define t (.struct fields)
  | defineUnion t members => .define t (.union members)

/-- Changes the type of an identity that the pool has handed out. -/
def modify (p : Pool) (t : TypeId) (f : Ty → Ty) : Pool := ⟨p.items.modify t.raw f⟩

/-- The identity handed out by an action, and the pool after it. -/
def Action.run (p : Pool) : Action → Option TypeId × Pool
  | intern d _ => (p.intern d).map some id
  | declare d _ => (p.declare d).map some id
  | define t fields => (none, p.modify t fields.fill)

/-- The pool after calls that start from the primitive types. -/
def after (calls : List Call) : Pool := calls.foldl (fun p c => (c.run p).2) .empty

/-! ## Calls are actions -/

variable {p : Pool} {t t' : TypeId} {d d' : Ty}

/-- The type of this identity is `d`. -/
def Stores (p : Pool) (t : TypeId) (d : Ty) : Prop := p.items[t.raw]? = some d

theorem Stores.get_eq (h : p.Stores t d) : p.get t = d := by
  have h : p.items[t.raw]? = some d := h
  rw [get, h]
  rfl

theorem set_get (p : Pool) (t : TypeId) (f : Ty → Ty) : p.set t (f (p.get t)) = p.modify t f := by
  apply congrArg Pool.mk
  apply Array.ext_getElem?
  intro i
  rw [Array.getElem?_modify, Array.getElem?_setIfInBounds]
  by_cases hi : t.raw = i
  · subst hi
    rw [if_pos rfl, if_pos rfl]
    cases hs : p.items[t.raw]? with
    | none => exact if_neg (Nat.not_lt.2 (Array.getElem?_eq_none_iff.1 hs))
    | some d =>
      rw [if_pos (Array.getElem?_eq_some_iff.1 hs).1, Stores.get_eq hs]
      rfl
  · rw [if_neg hi, if_neg hi]

/-- Nothing is changed where the stored type stays as it is. -/
theorem modify_of_fixed {f : Ty → Ty} (h : f (p.get t) = p.get t) : p.modify t f = p := by
  apply congrArg Pool.mk
  apply Array.ext_getElem?
  intro i
  rw [Array.getElem?_modify]
  by_cases hi : t.raw = i
  · subst hi
    rw [if_pos rfl]
    cases hs : p.items[t.raw]? with
    | none => rfl
    | some d =>
      rw [Stores.get_eq hs] at h
      rw [Option.map_some, h]
  · rw [if_neg hi]

theorem modify_push (p : Pool) (d : Ty) (f : Ty → Ty) : (p.push d).2.modify (p.push d).1 f = (p.push (f d)).2 := by
  apply congrArg Pool.mk
  apply Array.ext_getElem?
  intro i
  show ((p.items.push d).modify p.items.size f)[i]? = (p.items.push (f d))[i]?
  rw [Array.getElem?_modify, Array.getElem?_push, Array.getElem?_push]
  by_cases hi : i = p.items.size
  · rw [if_pos hi.symm, if_pos hi, if_pos hi, Option.map_some]
  · rw [if_neg (Ne.symm hi), if_neg hi, if_neg hi]

theorem defineStruct_eq (p : Pool) (t : TypeId) (fields : List StructField) :
    p.defineStruct t fields = p.modify t (Fields.struct fields).fill := by
  cases hd : p.get t with
  | struct s =>
    rw [← set_get, hd, defineStruct, hd]
    rfl
  | _ => rw [modify_of_fixed (by rw [hd]; rfl), defineStruct, hd]

theorem defineUnion_eq (p : Pool) (t : TypeId) (members : List UnionMember) :
    p.defineUnion t members = p.modify t (Fields.union members).fill := by
  cases hd : p.get t with
  | union u =>
    rw [← set_get, hd, defineUnion, hd]
    rfl
  | _ => rw [modify_of_fixed (by rw [hd]; rfl), defineUnion, hd]

/-- To declare a container and then to define it is to declare it with its fields. -/
theorem Call.run_eq (p : Pool) (c : Call) : c.run p = c.action.run p := by
  cases c with
  | struct name layout fields =>
    have h := modify_push p (.struct ⟨name, layout, []⟩) (Fields.struct fields).fill
    rw [← defineStruct_eq] at h
    exact Prod.ext rfl h
  | union name layout tag members =>
    have h := modify_push p (.union ⟨name, layout, tag, []⟩) (Fields.union members).fill
    rw [← defineUnion_eq] at h
    exact Prod.ext rfl h
  | defineStruct t fields => exact Prod.ext rfl (defineStruct_eq p t fields)
  | defineUnion t members => exact Prod.ext rfl (defineUnion_eq p t members)
  | _ => rfl

theorem after_concat (calls : List Call) (c : Call) : after (calls ++ [c]) = (c.run (after calls)).2 := by
  rw [after, List.foldl_append]
  rfl

/-! ## What actions do -/

/-- What becomes of the type `d` of identity `t`. -/
def Action.revise (t : TypeId) (d : Ty) : Action → Ty
  | .define t' fields => if t' = t then fields.fill d else d
  | _ => d

theorem Stores.push (h : p.Stores t d) (d' : Ty) : (p.push d').2.Stores t d :=
  Store.getElem?_push_eq_some.2 (Or.inl h)

/-- An action keeps what is stored, but for the fields that it defines. -/
theorem Stores.run (h : p.Stores t d) (a : Action) : (a.run p).2.Stores t (a.revise t d) := by
  cases a with
  | intern d' structural =>
    show (p.intern d').2.Stores t d
    unfold Pool.intern
    split
    · exact h
    · exact h.push d'
  | declare d' nominal => exact h.push d'
  | define t' fields =>
    show (p.items.modify t'.raw fields.fill)[t.raw]? = some (if t' = t then fields.fill d else d)
    have h : p.items[t.raw]? = some d := h
    rw [Array.getElem?_modify, h]
    by_cases ht : t' = t
    · rw [if_pos ht, if_pos (congrArg TypeId.raw ht), Option.map_some]
    · have hraw : t'.raw ≠ t.raw := fun heq => ht (congrArg TypeId.mk heq)
      rw [if_neg ht, if_neg hraw]

/-- A type that is found is not added again. -/
theorem run_intern_of_found (h : p.find? d = some t) (hd : d.isNominal = false) :
    (Action.intern d hd).run p = (some t, p) := by
  show (p.intern d).map some id = _
  rw [intern, h]
  rfl

theorem run_intern_of_new (h : p.find? d = none) (hd : d.isNominal = false) :
    (Action.intern d hd).run p = (some ⟨p.size⟩, (p.push d).2) := by
  show (p.intern d).map some id = _
  rw [intern, h]
  rfl

/-- A type known by its structure stays as it is. -/
theorem Action.revise_structural (a : Action) (hd : d.isNominal = false) : a.revise t d = d := by
  cases a with
  | intern | declare => rfl
  | define t' fields =>
    rcases fields.fill_nominal d with hfill | ⟨hn, -⟩
    · simp [revise, hfill]
    · exact absurd hd hn

theorem primitive_structural : ∀ d ∈ primitiveTypes, d.isNominal = false := by decide

/-- Primitive types are known by their structure, so no action touches them. -/
theorem primitivesInPlace_run (h : p.PrimitivesInPlace) (a : Action) : (a.run p).2.PrimitivesInPlace := by
  intro k hk
  obtain ⟨d, hd⟩ : ∃ d, primitiveTypes[k]? = some d := ⟨_, List.getElem?_eq_getElem hk⟩
  have hs : p.Stores ⟨k⟩ d := (h k hk).trans hd
  have hrun := hs.run a
  rw [a.revise_structural (primitive_structural d (List.mem_of_getElem? hd))] at hrun
  exact hrun.trans hd.symm

/-! ## A pool with an index -/

/-- A pool that keeps an index of the types known by their structure. -/
abbrev Indexed : Type := Store Ty

namespace Indexed

/-- The primitive types, added one by one. -/
def empty : Indexed := primitiveTypes.foldl (fun s d => (s.intern d).2) Store.empty

/-- The identity handed out by an action, and the pool after it. -/
def run (s : Indexed) : Action → Option TypeId × Indexed
  | .intern d _ => (s.intern d).map (fun i => some ⟨i⟩) id
  | .declare d _ => (s.push d).map (fun i => some ⟨i⟩) id
  | .define t fields => (none, s.modify t.raw fields.fill)

/-- The pool after calls that start from the primitive types. -/
def after (calls : List Call) : Indexed := calls.foldl (fun s c => (s.run c.action).2) empty

theorem after_concat (calls : List Call) (c : Call) : after (calls ++ [c]) = ((after calls).run c.action).2 := by
  rw [after, List.foldl_append]
  rfl

/-- The same types are stored, and the index of those known by their structure is exact. -/
structure Mirrors (s : Indexed) (p : Pool) : Prop where
  items : s.items = p.items
  exact : s.Exact (·.isNominal = false)

variable {s : Indexed}

theorem mirrors_empty : empty.Mirrors .empty := by
  have hnodup : primitiveTypes.Nodup := by decide
  obtain ⟨hexact, hitems⟩ := Store.exact_foldl_intern primitive_structural hnodup .empty (by simp [Store.empty])
  exact ⟨hitems.trans (by simp [Store.empty, Pool.empty]), hexact⟩

theorem Mirrors.size_eq (h : s.Mirrors p) : s.items.size = p.size := congrArg Array.size h.items

theorem Mirrors.items_push (h : s.Mirrors p) (d : Ty) : s.items.push d = (p.push d).2.items :=
  congrArg (·.push d) h.items

/-- The index finds what a search through the pool finds. -/
theorem Mirrors.find?_eq (h : s.Mirrors p) (hd : d.isNominal = false) : p.find? d = (s.index d).map TypeId.mk := by
  rw [h.exact.index_eq hd, h.items]
  rfl

theorem Mirrors.find?_eq_some_iff (h : s.Mirrors p) (hd : d.isNominal = false) :
    p.find? d = some t ↔ p.Stores t d := by
  rw [h.find?_eq hd]
  constructor
  · intro hf
    obtain ⟨i, hi, rfl⟩ := Option.map_eq_some_iff.1 hf
    have hs := ((h.exact d i).1 hi).2
    rwa [h.items] at hs
  · intro hs
    have hindex : s.index d = some t.raw := (h.exact d t.raw).2 ⟨hd, by rw [h.items]; exact hs⟩
    rw [hindex]
    rfl

theorem Mirrors.find?_eq_none (h : s.Mirrors p) (hd : d.isNominal = false) (hnew : ∀ t, ¬p.Stores t d) :
    p.find? d = none := by
  cases hf : p.find? d with
  | none => rfl
  | some t => exact absurd ((h.find?_eq_some_iff hd).1 hf) (hnew t)

/-- A type known by its structure has one identity. -/
theorem Mirrors.identity_unique (h : s.Mirrors p) (hd : d.isNominal = false) (ht : p.Stores t d) (ht' : p.Stores t' d) :
    t = t' := by
  apply congrArg TypeId.mk
  apply h.exact.unique hd
  · rw [h.items]
    exact ht
  · rw [h.items]
    exact ht'

/-- An action has the same answer with an index as without, and the index stays exact. -/
theorem Mirrors.run (h : s.Mirrors p) (a : Action) :
    (s.run a).1 = (a.run p).1 ∧ (s.run a).2.Mirrors (a.run p).2 := by
  cases a with
  | intern d structural =>
    have hexact := (h.exact.intern structural).1
    have hfind := h.find?_eq structural
    show some ⟨(s.intern d).1⟩ = some (p.intern d).1 ∧ Mirrors (s.intern d).2 (p.intern d).2
    cases hi : s.index d with
    | some i =>
      rw [hi] at hfind
      rw [Store.intern_of_index hi, Pool.intern, hfind]
      exact ⟨rfl, h⟩
    | none =>
      rw [hi] at hfind
      rw [Store.intern_of_new hi] at hexact ⊢
      rw [Pool.intern, hfind]
      exact ⟨congrArg (fun n => some (TypeId.mk n)) h.size_eq, h.items_push d, hexact⟩
  | declare d nominal =>
    have hexact := h.exact.push (b := d) (by simp [nominal])
    exact ⟨congrArg (fun n => some (TypeId.mk n)) h.size_eq, h.items_push d, hexact⟩
  | define t fields =>
    exact ⟨rfl, ⟨congrArg (·.modify t.raw fields.fill) h.items, h.exact.modify fields.fill_nominal t.raw⟩⟩

-- Induction on the last call: the index is exact before it, and the step keeps it so.
theorem mirrors_after (calls : List Call) : (after calls).Mirrors (Pool.after calls) := by
  induction calls using List.reverseRecOn with
  | nil => exact mirrors_empty
  | append_singleton calls c ih =>
    rw [after_concat, Pool.after_concat, c.run_eq]
    exact (ih.run c.action).2

end Indexed

/-! ## Identities -/

theorem primitivesInPlace_after (calls : List Call) : (after calls).PrimitivesInPlace := by
  induction calls using List.reverseRecOn with
  | nil => decide
  | append_singleton calls c ih =>
    rw [after_concat, c.run_eq]
    exact primitivesInPlace_run ih c.action

/-- Types are stored once or are new, and stay as they are but for the fields of containers. -/
structure KeepsIdentities (p : Pool) : Prop where
  distinct : ∀ t t' d, p.Stores t d → p.Stores t' d → d.isNominal = false → t = t'
  known : ∀ (c : Call) d h t, c.action = .intern d h → p.Stores t d → c.run p = (some t, p)
  added : ∀ (c : Call) d h, c.action = .intern d h → (∀ t, ¬p.Stores t d) → c.run p = (some ⟨p.size⟩, (p.push d).2)
  declared : ∀ (c : Call) d h, c.action = .declare d h → c.run p = (some ⟨p.size⟩, (p.push d).2)
  primitives : p.PrimitivesInPlace
  kept : ∀ (c : Call) t d, p.Stores t d → (c.run p).2.Stores t (c.action.revise t d)

/-- The types of a pool keep their identities, whatever is called, and an index of them would be exact. -/
theorem identities_after (calls : List Call) :
    (after calls).KeepsIdentities ∧ (Indexed.after calls).Mirrors (after calls) ∧
      ∀ c : Call, ((Indexed.after calls).run c.action).1 = (c.run (after calls)).1 := by
  have h := Indexed.mirrors_after calls
  refine ⟨?_, h, fun c => ?_⟩
  · constructor
    · intro t t' d ht ht' hd
      exact h.identity_unique hd ht ht'
    · intro c d hd t hc ht
      rw [c.run_eq, hc]
      exact run_intern_of_found ((h.find?_eq_some_iff hd).2 ht) hd
    · intro c d hd hc hnew
      rw [c.run_eq, hc]
      exact run_intern_of_new (h.find?_eq_none hd hnew) hd
    · intro c d hd hc
      rw [c.run_eq, hc]
      rfl
    · exact primitivesInPlace_after calls
    · intro c t d ht
      rw [c.run_eq]
      exact ht.run c.action
  · rw [c.run_eq]
    exact (h.run c.action).1

end Pool

end MachineAbi
