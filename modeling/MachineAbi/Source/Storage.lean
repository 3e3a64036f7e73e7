import MachineAbi.Source.Sealed
import MachineAbi.Layout

/-!
# What is stored

Some types have values that take no room: `SealedPool.takesRoom` tells them apart. It decides how optionals,
error unions and tagged unions are represented:

- `SealedPool.optionalRepr`: where an optional keeps its presence;
- `ErrorUnionRepr.of`: where an error union keeps its halves;
- `SealedPool.storedTag?`: the tag of a union, if it is stored.
-/

namespace MachineAbi

namespace SealedPool

/-- Whether values of type `t` take any room. -/
def takesRoom (P : SealedPool) (t : TypeId) : Bool := roomRule.lookUp P.rooms t

theorem takesRoom_eq (P : SealedPool) (t : TypeId) :
    P.takesRoom t =
      match P.get t with
      | .void | .noreturn | .comptime | .opaqueType _ | .function _ => false
      | .bool | .float _ | .pointer _ | .optional _ => true
      | .int bits _ => decide (0 < bits)
      | .array len child sentinel => decide (elementCount len sentinel ≠ 0) && P.takesRoom child
      | .vector len child => decide (len ≠ 0) && P.takesRoom child
      | .errorSet set => set.hasBits
      | .errorUnion set payload => P.takesRoom set || P.takesRoom payload
      | .enum _ tag _ => P.takesRoom tag
      | .struct s => s.stored.any P.takesRoom
      | .tuple fields => (storedTypes fields).any P.takesRoom
      | .union u => u.usedTag?.any P.takesRoom || u.memberTypes.any P.takesRoom :=
  P.rooms_hold t

end SealedPool

/-! ## Representations -/

/-- Where an optional keeps its presence. -/
inductive OptionalRepr where
  /-- The payload takes no room: a byte says whether it is there. -/
  | flagOnly
  /-- A value that the payload cannot have stands for its absence. -/
  | payload
  /-- The payload, and a byte that says whether it is there. -/
  | payloadAndFlag
deriving DecidableEq, Repr

/-- Where an error union keeps its error code and its payload. -/
inductive ErrorUnionRepr where
  | empty
  | payloadOnly
  | errorOnly
  | errorFirst
  | payloadFirst
deriving DecidableEq, Repr

namespace ErrorUnionRepr

/-- A half that takes no room is left out; of two halves the more strictly aligned one comes first, and the error code
if they are alike. -/
def of (errorBits payloadBits : Bool) (errorAlign payloadAlign : Nat) : ErrorUnionRepr :=
  match errorBits, payloadBits with
  | false, false => empty
  | false, true => payloadOnly
  | true, false => errorOnly
  | true, true => if payloadAlign ≤ errorAlign then errorFirst else payloadFirst

end ErrorUnionRepr

namespace SealedPool

/-- Whether a type has a value to spare that can stand for the absence of a payload. -/
def hasInBandNull (P : SealedPool) (t : TypeId) : Bool :=
  match P.get t with
  | .pointer p => !p.allowsZero
  | .errorSet _ => true
  | _ => false

/-- The representation of an optional with this payload. -/
def optionalRepr (P : SealedPool) (child : TypeId) : OptionalRepr :=
  if P.takesRoom child then if P.hasInBandNull child then .payload else .payloadAndFlag else .flagOnly

/-- The tag of a union, unless there is nothing to tell apart or nothing to store. -/
def storedTag? (P : SealedPool) (u : UnionTy) : Option TypeId := u.usedTag?.filter P.takesRoom

theorem mem_parts_of_storedTag {P : SealedPool} {u : UnionTy} {tag : TypeId} (hu : u.isPacked = false)
    (h : P.storedTag? u = some tag) : tag ∈ (Ty.union u).parts := by
  have ht : u.usedTag? = some tag := (Option.filter_eq_some_iff.1 h).1
  simp [Ty.parts, UnionTy.placedTag?, hu, ht]

def storesTag (P : SealedPool) (u : UnionTy) : Bool := (P.storedTag? u).isSome

end SealedPool

end MachineAbi
