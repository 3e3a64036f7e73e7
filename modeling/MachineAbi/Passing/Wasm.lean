import MachineAbi.Passing.Class
import MachineAbi.Passing.Members

/-!
# WebAssembly

Scalars travel as they are. An aggregate whose only member of any size travels directly travels as that member, all
others by their address.
-/

namespace MachineAbi.Wasm

/-- The one type of the list that takes room. -/
def theOnly? (Z : Sizing) (ts : List TypeId) : Option TypeId :=
  match ts.filter Z.takesRoom with
  | [c] => some c
  | _ => none

theorem mem_of_theOnly {Z : Sizing} {ts : List TypeId} {c : TypeId} (h : theOnly? Z ts = some c) : c ∈ ts := by
  unfold theOnly? at h
  split at h
  · rename_i d hd
    cases h
    exact (List.mem_filter.1 (hd ▸ List.mem_singleton_self _)).1
  · cases h

/-- The only part of an aggregate that takes room. -/
def onlyMember? (Z : Sizing) (t : TypeId) : Option TypeId :=
  match Z.get t with
  | .struct s => if s.isPacked then none else theOnly? Z s.stored
  | .tuple fields => theOnly? Z (storedTypes fields)
  | .union u => if Z.storesTag u then none else theOnly? Z u.memberTypes
  | _ => none

theorem mem_parts_of_onlyMember {Z : Sizing} {t c : TypeId} (h : onlyMember? Z t = some c) : c ∈ Z.parts t := by
  unfold onlyMember? at h
  split at h
  next s hs =>
    split at h
    · cases h
    · exact SealedPool.mem_parts hs (mem_of_theOnly h)
  next fields hf => exact SealedPool.mem_parts hf (mem_of_theOnly h)
  next u hu =>
    split at h
    · cases h
    · exact SealedPool.mem_parts hu (List.mem_append_right _ (mem_of_theOnly h))
  next => cases h

/-- The type as which a value of type `t` travels, unless it travels by its address. -/
def direct? (Z : Sizing) (t : TypeId) : Option TypeId :=
  if Z.isScalar t then some t
  else
    match _h : onlyMember? Z t with
    | some c => if (Z.layout c).size = (Z.layout t).size then direct? Z c else none
    | none => none
termination_by Z.rank t
decreasing_by exact Z.rank_lt (mem_parts_of_onlyMember _h)

theorem direct?_eq (Z : Sizing) (t : TypeId) :
    direct? Z t =
      if Z.isScalar t then some t
      else
        (onlyMember? Z t).bind fun c =>
          if (Z.layout c).size = (Z.layout t).size then direct? Z c else none := by
  rw [direct?]
  split
  · rfl
  · split <;> rename_i h <;> simp [h]

def name : String := "wasm-basic-c"

def classifyParam (Z : Sizing) (t : TypeId) : ParamClass :=
  match direct? Z t with
  | some c => if c = t then .byValue else .widened (.source c)
  | none => .byReference false false

def classifyReturn (Z : Sizing) (t : TypeId) : ReturnClass :=
  match direct? Z t with
  | some c => if c = t then .byValue else .widened (.source c)
  | none => .sret

end MachineAbi.Wasm
