import MachineAbi.Source.Extent

/-!
# Sizings

A `Sizing` knows the room of every type of a pool on one target; each type is sized once, after its parts.

- `Sizing.layout`: size and alignment in memory;
- `Sizing.packedWidth`: the width inside a packed container;
- `Sizing.extent_eq`: the room of each type from that of its parts.
-/

namespace MachineAbi

/-- A sealed pool with the room of all its types on one target. -/
structure Sizing extends SealedPool where
  target : Target
  extents : Array Extent
  extents_hold : (toSealedPool.extentRule target).Holds toPool ((toSealedPool.extentRule target).lookUp extents)

namespace Sizing

/-- Sizes the types of a pool for a target, each once. -/
def of (P : SealedPool) (T : Target) : Sizing :=
  { P with
    target := T
    extents := P.tabulate (P.extentRule T)
    extents_hold := by
      rw [P.lookUp_tabulate (P.asksParts_extentRule T)]
      exact P.holds_solve (P.asksParts_extentRule T) }

/-- The room of type `t`. -/
def extent (Z : Sizing) (t : TypeId) : Extent := (Z.extentRule Z.target).lookUp Z.extents t

/-- Size and alignment of type `t` in memory. -/
def layout (Z : Sizing) (t : TypeId) : Layout := (Z.extent t).layout

/-- The width of type `t` inside a packed container. -/
def packedWidth (Z : Sizing) (t : TypeId) : Nat := (Z.extent t).bits

/-- The representation of an error union. -/
def errorUnionRepr (Z : Sizing) (set payload : TypeId) : ErrorUnionRepr :=
  .of (Z.takesRoom set) (Z.takesRoom payload) Z.target.errorCodeLayout.align (Z.layout payload).align

/-- The part of a union that holds any one member. -/
def payloadLayout (Z : Sizing) (u : UnionTy) : Layout := .overlay (u.memberTypes.map Z.layout)

theorem extent_eq (Z : Sizing) (t : TypeId) :
    Z.extent t =
      match Z.get t with
      | .void | .noreturn | .comptime | .opaqueType _ | .function _ => .none
      | .bool => ⟨⟨1, 1⟩, 1⟩
      | .int bits _ => .ofBits Z.target bits
      | .float bits => ⟨Z.target.floatLayout bits, bits⟩
      | .pointer p =>
        if p.isSlice then .ofLayout (p.layout Z.target)
        else ⟨p.layout Z.target, (Z.target.pointerLayout p.addrSpace).sizeBits⟩
      | .array len child sentinel =>
        if elementCount len sentinel = 0 then .none
        else .ofLayout (.times (elementCount len sentinel) (Z.layout child))
      | .vector len child =>
        if len = 0 then .none
        else ⟨Z.target.vectorLayout (len * Z.packedWidth child), len * Z.packedWidth child⟩
      | .optional child => .ofLayout ((Z.optionalRepr child).layout (Z.layout child))
      | .errorSet set => if set.hasBits then .ofLayout Z.target.errorCodeLayout else .none
      | .errorUnion set payload =>
        .ofLayout ((Z.errorUnionRepr set payload).layout Z.target.errorCodeLayout (Z.layout payload))
      | .enum _ tag _ => Z.extent tag
      | .struct s =>
        if s.isPacked then .ofBits Z.target ((s.stored.map Z.packedWidth).foldr (· + ·) 0)
        else .ofLayout (.compose (s.stored.map Z.layout))
      | .tuple fields => .ofLayout (.compose ((storedTypes fields).map Z.layout))
      | .union u =>
        if u.isPacked then .ofBits Z.target ((u.memberTypes.map Z.packedWidth).foldl max 0)
        else .ofLayout ((Z.payloadLayout u).tagged ((Z.storedTag? u).map Z.layout)) :=
  Z.extents_hold t

end Sizing

end MachineAbi
