import Mathlib.Data.List.Basic
import MachineAbi.Call.Attributes
import MachineAbi.Passing.SysV
import MachineAbi.Passing.Wasm
import MachineAbi.Proofs.Source.Recursion
import MachineAbi.Source.ByReference

/-!
# Questions about types end

What is asked about a type is answered by recursion along what the type is made of, in as many levels as there are types
at most. None of these recursions follows a pointer:

* whether values take room, and how much (`SealedPool.takesRoom_ends`, `Sizing.extent_ends`);
* whether they are handled through a pointer, and extended to a register (`SealedPool.isByReference_ends`,
  `Sizing.cExtension?_ends`);
* how many floats they consist of, which eightbytes of x86-64 they fill, and what WebAssembly passes them as
  (`Sizing.countFloats_ends`, `SysV.classify_ends`, `Wasm.direct?_ends`).
-/

namespace MachineAbi

/-! ## Room -/

namespace SealedPool

variable {P : SealedPool} {n : Nat}

theorem mem_components {t c : TypeId} {d : Ty} (hd : P.get t = d) (hc : c ∈ d.components) : c ∈ P.components t := by
  rw [Pool.components, hd]
  exact hc

theorem mem_components_of_mem_parts {t c : TypeId} (hc : c ∈ P.parts t) : c ∈ P.components t :=
  Ty.parts_subset_components _ hc

theorem takesRoom_ends (hp : P.WellNested) (hn : P.size < n) :
    EndsWithin n (fun c t => c ∈ P.components t) (fun known t => roomRule.infer known (P.get t)) P.takesRoom :=
  P.rooms_hold.endsWithin Pool.asksComponents_roomRule hp hn

/-- Whether values of type `t` are handled through a pointer, from what is known of others. -/
def byReferenceStep (P : SealedPool) (known : TypeId → Bool) (t : TypeId) : Bool :=
  match P.get t with
  | .array _ _ _ | .tuple _ => P.takesRoom t
  | .struct s => !s.isPacked && P.takesRoom t
  | .union u => !u.isPacked && P.takesRoom t
  | .optional child =>
    match P.optionalRepr child with
    | .flagOnly => false
    | .payload => known child
    | .payloadAndFlag => true
  | .errorUnion set payload => P.takesRoom payload && (P.takesRoom set || known payload)
  | _ => false

theorem isByReference_ends (hp : P.WellNested) (hn : P.size < n) :
    EndsWithin n (fun c t => c ∈ P.components t) P.byReferenceStep P.isByReference := by
  refine hp.endsWithin hn (fun g g' t h => ?_) P.isByReference_eq
  unfold byReferenceStep
  split
  case h_5 child hd => rw [h child (mem_components hd (by simp [Ty.components]))]
  case h_6 set payload hd => rw [h payload (mem_components hd (by simp [Ty.components]))]
  all_goals rfl

end SealedPool

namespace Sizing

open SealedPool (mem_components mem_components_of_mem_parts)

variable {Z : Sizing} {n : Nat}

/-- Layouts and widths inside packed containers are found together, as they ask for each other. -/
theorem extent_ends (hp : Z.WellNested) (hn : Z.size < n) :
    EndsWithin n (fun c t => c ∈ Z.components t) (fun known t => (Z.extentRule Z.target).infer known (Z.get t)) Z.extent :=
  Z.extents_hold.endsWithin (Z.asksParts_extentRule Z.target).asksComponents hp hn

/-- How the C conventions extend a value of type `t`, from what is known of others. -/
def extensionStep (Z : Sizing) (known : TypeId → Option Signedness) (t : TypeId) : Option Signedness :=
  match Z.get t with
  | .bool => Z.target.promotion? 1 .unsigned
  | .int bits sign => Z.target.promotion? bits sign
  | .errorSet _ => Z.target.promotion? errorCodeBits .unsigned
  | .enum _ tag _ => known tag
  | _ => none

theorem cExtension?_ends (hp : Z.WellNested) (hn : Z.size < n) :
    EndsWithin n (fun c t => c ∈ Z.components t) Z.extensionStep Z.cExtension? := by
  refine hp.endsWithin hn (fun g g' t h => ?_) Z.cExtension?_eq
  unfold extensionStep
  split
  case h_4 tag _ hd => exact h tag (mem_components hd (by simp [Ty.components]))
  all_goals rfl

/-! ## Floats -/

/-- The floats of a value, by their format so far and the type, from what is known of others. -/
def floatStep (Z : Sizing) (limit : Nat) (known : Option FloatKind × TypeId → Option FloatCount)
    (q : Option FloatKind × TypeId) : Option FloatCount :=
  if Z.takesRoom q.2 then
    match Z.floatKind? q.2 with
    | some kind => if q.1.all (· = kind) then some ⟨some kind, 1⟩ else none
    | none =>
      match Z.floatParts? limit q.2 with
      | none => none
      | some (shared, ts) => ts.foldlM (fun acc c => (known (acc.kind, c)).bind (acc.join limit shared)) ⟨q.1, 0⟩
  else some ⟨q.1, 0⟩

theorem foldlM_join_congr {g g' : Option FloatKind × TypeId → Option FloatCount} {limit : Nat} {shared : Bool}
    {ts : List TypeId} (h : ∀ c ∈ ts, ∀ kind, g (kind, c) = g' (kind, c)) (acc : FloatCount) :
    ts.foldlM (fun acc c => (g (acc.kind, c)).bind (acc.join limit shared)) acc =
      ts.foldlM (fun acc c => (g' (acc.kind, c)).bind (acc.join limit shared)) acc := by
  induction ts generalizing acc with
  | nil => rfl
  | cons c ts ih =>
    rw [List.foldlM_cons, List.foldlM_cons, h c List.mem_cons_self]
    exact congrArg _ (funext fun found => ih (fun d hd => h d (List.mem_cons_of_mem _ hd)) found)

theorem countFloats_ends (hp : Z.WellNested) (hn : Z.size < n) (limit : Nat) :
    EndsWithin n (fun q' q => q'.2 ∈ Z.components q.2) (Z.floatStep limit) fun q => Z.countFloats limit q.1 q.2 := by
  refine .of_level (fun q => Z.level q.2) (fun _ _ hc => hp.level_lt hc)
    (fun q => Nat.lt_of_le_of_lt (hp.level_le q.2) hn) (fun g g' q h => ?_) fun q => Z.countFloats_eq limit q.1 q.2
  unfold floatStep
  repeat' split
  case h_2 hparts =>
    refine foldlM_join_congr (fun c hc kind => h (kind, c) ?_) _
    exact mem_components_of_mem_parts (mem_parts_of_floatParts hparts hc)
  all_goals rfl

end Sizing

/-! ## Eightbytes -/

namespace SysV

open SealedPool (mem_components mem_components_of_mem_parts)

variable {Z : Sizing} {n : Nat}

/-- The classes after a value of type `t` at an offset, from what is known of others. -/
def eightbyteStep (Z : Sizing) (known : TypeId → Nat → Eightbytes → Eightbytes) (t : TypeId) (offset : Nat)
    (e : Eightbytes) : Eightbytes :=
  match e.putScalar? Z offset t with
  | some e => e
  | none => (Z.members t).foldl (fun e m => known m.ty (offset + m.offset) e) e

/-- The values inside a value are of types that it is made of; the byte that says whether an optional is there is made
of nothing. -/
theorem level_lt_of_mem_members (hp : Z.WellNested) {t : TypeId} {m : Member} (hm : m ∈ Z.members t) :
    Z.level m.ty < Z.level t := by
  rcases Sizing.mem_parts_of_mem_members hm with hm | ⟨hm, child, ho⟩ | ⟨payload, he⟩
  · exact hp.level_lt (mem_components_of_mem_parts hm)
  · have hc : Z.level child < Z.level t := hp.level_lt (mem_components ho (by simp [Ty.components]))
    have leaf : Z.components .u8 = [] := by simp [Pool.components, Z.get_u8, Ty.components]
    rw [hm, Pool.level_of_leaf leaf]
    exact Nat.zero_lt_of_lt hc
  · exact hp.level_lt (mem_components he (by simp [Ty.components]))

theorem classify_ends (hp : Z.WellNested) (hn : Z.size < n) :
    EndsWithin n (fun c t => ∃ m ∈ Z.members t, m.ty = c) (eightbyteStep Z) fun t offset e => e.classify Z t offset := by
  have hnest : Z.MembersNest Z.level := fun t m hm => level_lt_of_mem_members hp hm
  have hlevel : ∀ t, Z.level t < n := fun t => Nat.lt_of_le_of_lt (hp.level_le t) hn
  refine .of_level Z.level (fun c t hc => ?_) hlevel (fun g g' t h => ?_) fun t => ?_
  · obtain ⟨m, hm, rfl⟩ := hc
    exact hnest t m hm
  · funext offset e
    unfold eightbyteStep
    split
    · rfl
    · exact List.foldl_ext _ _ _ fun e m hm => by rw [h m.ty ⟨m, hm, rfl⟩]
  · funext offset e
    exact Eightbytes.classify_eq hnest t offset e

end SysV

/-! ## WebAssembly -/

namespace Wasm

open SealedPool (mem_components_of_mem_parts)

variable {Z : Sizing} {n : Nat}

/-- The type as which a value of type `t` travels, from what is known of others. -/
def directStep (Z : Sizing) (known : TypeId → Option TypeId) (t : TypeId) : Option TypeId :=
  if Z.isScalar t then some t
  else
    (onlyMember? Z t).bind fun c =>
      if (Z.layout c).size = (Z.layout t).size then known c else none

theorem direct?_ends (hp : Z.WellNested) (hn : Z.size < n) :
    EndsWithin n (fun c t => c ∈ Z.components t) (directStep Z) (direct? Z) := by
  refine hp.endsWithin hn (fun g g' t h => ?_) (direct?_eq Z)
  unfold directStep
  cases hc : onlyMember? Z t with
  | none => rfl
  | some c => simp only [Option.bind_some, h c (mem_components_of_mem_parts (mem_parts_of_onlyMember hc))]

end Wasm

end MachineAbi
