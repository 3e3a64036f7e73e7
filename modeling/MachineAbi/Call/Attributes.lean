import MachineAbi.Machine.Table
import MachineAbi.Source.Sizing

/-!
# Attributes of machine parameters

What the code generator is told about a machine parameter or a return value beyond its type: a pointer that cannot be
null, an integer that is extended to a register, the pointer behind which a result is returned.

- `Sizing.extension?`: the integers that C conventions extend, and how;
- `Sizing.byValueAttrs`, `Sizing.returnAttrs`, `Sizing.slicePointerAttrs`: what follows from the type of
  the source;
- `AttrSet.sret`, `AttrSet.byReference`: what follows from the way of passing.
-/

namespace MachineAbi

structure ParamFlags where
  nonNull : Bool
  noAlias : Bool
  readOnly : Bool
  noUndef : Bool
  signExt : Bool
  zeroExt : Bool
  structRet : Bool
  byVal : Bool
deriving DecidableEq, Repr

namespace ParamFlags

def none : ParamFlags := ⟨false, false, false, false, false, false, false, false⟩

/-- The spelling of the flags that are set. -/
def names (f : ParamFlags) : List String :=
  [(f.nonNull, "nonnull"), (f.noAlias, "noalias"), (f.readOnly, "readonly"), (f.noUndef, "noundef"),
    (f.signExt, "signext"), (f.zeroExt, "zeroext"), (f.structRet, "sret"), (f.byVal, "byval")].filterMap
    fun (set, name) => if set then some name else Option.none

end ParamFlags

/-- The attributes of one machine parameter or of the return value. -/
structure AttrSet where
  flags : ParamFlags
  /-- The alignment of what a pointer points at, in bytes. -/
  align : Option Nat
  /-- The type of what a hidden or copied pointer points at. -/
  pointee : Option Handle
deriving DecidableEq, Repr

namespace AttrSet

def ofFlags (flags : ParamFlags) : AttrSet := ⟨flags, Option.none, Option.none⟩

def none : AttrSet := ofFlags .none

def isEmpty (a : AttrSet) : Bool := a == none

/-- An integer that is extended to a register. -/
def ofExtension : Option Signedness → AttrSet
  | some .signed => ofFlags { ParamFlags.none with signExt := true }
  | some .unsigned => ofFlags { ParamFlags.none with zeroExt := true }
  | Option.none => none

/-- A pointer that is never null. -/
def nonNull : AttrSet := ofFlags { ParamFlags.none with nonNull := true }

/-- A value without undefined bits. -/
def noUndef : AttrSet := ofFlags { ParamFlags.none with noUndef := true }

def withoutNonNull (a : AttrSet) : AttrSet := { a with flags := { a.flags with nonNull := false } }

/-- The address of a parameter of this layout. A copy among the arguments is marked as such; a mutable copy may be
written to. -/
def byReference (layout : Layout) (isMutable callerCopy : Bool) (pointee : Handle) : AttrSet :=
  if callerCopy then ⟨{ ParamFlags.none with nonNull := true, byVal := true }, some layout.align, some pointee⟩
  else if isMutable then ⟨{ ParamFlags.none with noUndef := true }, some layout.align, Option.none⟩
  else ⟨{ ParamFlags.none with nonNull := true, readOnly := true }, some layout.align, Option.none⟩

/-- The hidden pointer behind which a result of this layout is returned. -/
def sret (layout : Layout) (pointee : Handle) : AttrSet :=
  ⟨{ ParamFlags.none with structRet := true, noAlias := true, nonNull := true }, some layout.align, some pointee⟩

end AttrSet

/-- How an integer of `bits` bits is extended; a single bit never carries a sign. -/
def Target.promotion? (T : Target) (bits : Nat) (sign : Signedness) : Option Signedness :=
  let upTo (limit : Nat) (sign : Signedness) : Option Signedness :=
    if bits ≤ limit then some (if bits = 1 then .unsigned else sign) else none
  if T.isDarwin then upTo 31 sign
  else
    match T.arch with
    | .aarch64 => none
    | .riscv64 => if bits = 32 then some .signed else upTo 63 sign
    | .powerpc64le => upTo 63 sign
    | _ => upTo 16 sign

namespace Sizing

/-- How the C conventions extend a value of type `t`. -/
def cExtension? (Z : Sizing) (t : TypeId) : Option Signedness :=
  match _h : Z.get t with
  | .bool => Z.target.promotion? 1 .unsigned
  | .int bits sign => Z.target.promotion? bits sign
  | .errorSet _ => Z.target.promotion? errorCodeBits .unsigned
  | .enum _ tag _ => Z.cExtension? tag
  | _ => none
termination_by Z.rank t
decreasing_by exact Z.rank_lt_of_get _h (by simp [Ty.parts])

theorem cExtension?_eq (Z : Sizing) (t : TypeId) :
    Z.cExtension? t =
      match Z.get t with
      | .bool => Z.target.promotion? 1 .unsigned
      | .int bits sign => Z.target.promotion? bits sign
      | .errorSet _ => Z.target.promotion? errorCodeBits .unsigned
      | .enum _ tag _ => Z.cExtension? tag
      | _ => none := by
  rw [cExtension?]
  split <;> rename_i h <;> simp [h]

/-- How a convention extends a value of type `t`; the internal one leaves integers as they are. -/
def extension? (Z : Sizing) (cc : CallConv) (t : TypeId) : Option Signedness :=
  if cc = .auto then none else Z.cExtension? t

/-- A pointer passed as it is. What it points at has an alignment only if it takes room. -/
def pointerAttrs (Z : Sizing) (p : PointerTy) (noalias : Bool) : AttrSet where
  flags := { ParamFlags.none with
    nonNull := !p.allowsZero
    readOnly := p.flags.isConst && !p.flags.isVolatile
    noAlias := noalias }
  align := if Z.takesRoom p.child then some (Z.layout p.child).align else none
  pointee := none

/-- A parameter passed as it is. -/
def byValueAttrs (Z : Sizing) (cc : CallConv) (t : TypeId) (noalias : Bool) : AttrSet :=
  match Z.get t with
  | .pointer p => if p.isSlice then .none else Z.pointerAttrs p noalias
  | .optional child =>
    if Z.optionalRepr child = .payload then
      match Z.get child with
      | .pointer p => (Z.pointerAttrs p noalias).withoutNonNull
      | _ => .ofExtension (Z.extension? cc child)
    else .none
  | _ => .ofExtension (Z.extension? cc t)

/-- The pointer of a slice or an optional slice. -/
def slicePointerAttrs (Z : Sizing) (t : TypeId) (noalias : Bool) : AttrSet :=
  match Z.get t with
  | .pointer p => Z.pointerAttrs p noalias
  | .optional child =>
    match Z.get child with
    | .pointer p => (Z.pointerAttrs p noalias).withoutNonNull
    | _ => .none
  | _ => .none

/-- A value returned as it is. -/
def returnAttrs (Z : Sizing) (cc : CallConv) (t : TypeId) : AttrSet :=
  match Z.get t with
  | .pointer p => if p.isSlice || p.allowsZero then .none else .nonNull
  | .optional _ => .none
  | _ => .ofExtension (Z.extension? cc t)

end Sizing

end MachineAbi
