import MachineAbi.Source.Storage
import MachineAbi.Target.Basic

/-!
# How much room a type takes

The room of a type is computed from the type itself and the C types of the target. The machine types that values are
lowered to have layouts of their own, which have to agree with these.

- `Extent`: the layout of a type in memory, and its width inside a packed container;
- `SealedPool.extentRule`: the extent of a type from those of its parts.
-/

namespace MachineAbi

/-- The width of an error code. -/
def errorCodeBits : Nat := 16

namespace Target

/-- The alignment of an integer: that of the narrowest of `char`, `short`, `int` and `long long` that holds it, or that
of a 128-bit integer. -/
def intTyAlign (T : Target) (bits : Nat) : Nat :=
  let longLong := (T.cType .longLong).alignBytes
  if bits ≤ 8 then (T.cType .char).alignBytes
  else if bits ≤ 16 then (T.cType .short).alignBytes
  else if bits ≤ 32 then (T.cType .int).alignBytes
  else if bits ≤ 64 then longLong
  else T.int128Align?.getD longLong

def intLayout (T : Target) (bits : Nat) : Layout :=
  if bits = 0 then .zero else (Layout.mk (bytesFor bits) (T.intTyAlign bits)).pad

/-- 80-bit floats without a machine type are laid out as integers. -/
def floatLayout (T : Target) (bits : Nat) : Layout :=
  match bits with
  | 32 => (T.cType .float).layout
  | 64 => (T.cType .double).layout
  | 80 => if T.supportsF80 then (Layout.mk 10 (T.floatAlign 80)).pad else T.intLayout 80
  | _ => ⟨bits / 8, T.floatAlign bits⟩

def errorCodeLayout (T : Target) : Layout := T.intLayout errorCodeBits

def usizeLayout (T : Target) : Layout := T.intLayout T.ptrBits

end Target

/-- A slice is its pointer and its length. -/
def PointerTy.layout (p : PointerTy) (T : Target) : Layout :=
  let ptr := (T.pointerLayout p.addrSpace).layout
  if p.isSlice then .compose [ptr, T.usizeLayout] else ptr

/-- The layout of an optional from that of its payload. -/
def OptionalRepr.layout (payload : Layout) : OptionalRepr → Layout
  | .flagOnly => ⟨1, 1⟩
  | .payload => payload
  | .payloadAndFlag => .compose [payload, ⟨1, 1⟩]

/-- The layout of an error union from those of its halves. -/
def ErrorUnionRepr.layout (code payload : Layout) : ErrorUnionRepr → Layout
  | .empty => .zero
  | .payloadOnly => payload
  | .errorOnly => code
  | .errorFirst => .compose [code, payload]
  | .payloadFirst => .compose [payload, code]

/-- The more strictly aligned of tag and payload comes first, and the tag if they are alike. -/
def Layout.tagFirst (tag payload : Layout) : Bool := payload.align ≤ tag.align

/-- The layout of a union from those of its payload and its stored tag. -/
def Layout.tagged (payload : Layout) : Option Layout → Layout
  | none => payload
  | some tag => if tag.tagFirst payload then .compose [tag, payload] else .compose [payload, tag]

/-- The room of a type: its layout in memory, and its width inside a packed container. -/
structure Extent where
  layout : Layout
  bits : Nat
deriving DecidableEq, Repr

namespace Extent

/-- No room at all. -/
def none : Extent := ⟨.zero, 0⟩

/-- A type that is stored inside a packed container as it is in memory. -/
def ofLayout (l : Layout) : Extent := ⟨l, 8 * l.size⟩

/-- Bits packed into one integer. -/
def ofBits (T : Target) (bits : Nat) : Extent := ⟨T.intLayout bits, bits⟩

end Extent

namespace SealedPool

/-- The room of a type from that of its parts. -/
def extentRule (P : SealedPool) (T : Target) : Rule Extent where
  initial := .none
  infer extent
    | .void | .noreturn | .comptime | .opaqueType _ | .function _ => .none
    | .bool => ⟨⟨1, 1⟩, 1⟩
    | .int bits _ => .ofBits T bits
    | .float bits => ⟨T.floatLayout bits, bits⟩
    | .pointer p =>
      if p.isSlice then .ofLayout (p.layout T) else ⟨p.layout T, (T.pointerLayout p.addrSpace).sizeBits⟩
    | .array len child sentinel =>
      if elementCount len sentinel = 0 then .none
      else .ofLayout (.times (elementCount len sentinel) (extent child).layout)
    | .vector len child =>
      if len = 0 then .none
      else
        let bits := len * (extent child).bits
        ⟨T.vectorLayout bits, bits⟩
    | .optional child => .ofLayout ((P.optionalRepr child).layout (extent child).layout)
    | .errorSet set => if set.hasBits then .ofLayout T.errorCodeLayout else .none
    | .errorUnion set payload =>
      let code := T.errorCodeLayout
      let value := (extent payload).layout
      .ofLayout ((ErrorUnionRepr.of (P.takesRoom set) (P.takesRoom payload) code.align value.align).layout code value)
    | .enum _ tag _ => extent tag
    | .struct s =>
      if s.isPacked then .ofBits T ((s.stored.map fun c => (extent c).bits).foldr (· + ·) 0)
      else .ofLayout (.compose (s.stored.map fun c => (extent c).layout))
    | .tuple fields => .ofLayout (.compose ((storedTypes fields).map fun c => (extent c).layout))
    | .union u =>
      if u.isPacked then .ofBits T ((u.memberTypes.map fun c => (extent c).bits).foldl max 0)
      else
        .ofLayout ((Layout.overlay (u.memberTypes.map fun c => (extent c).layout)).tagged
          ((P.storedTag? u).map fun tag => (extent tag).layout))
  infer_void _ := rfl

theorem asksParts_extentRule (P : SealedPool) (T : Target) : (P.extentRule T).AsksParts := by
  intro d f g h
  cases d with
  | array len child sentinel =>
    dsimp only [extentRule]
    split
    · rfl
    · rename_i hn
      rw [h child (by simp [Ty.parts, hn])]
  | vector len child =>
    dsimp only [extentRule]
    split
    · rfl
    · rename_i hn
      rw [h child (by simp [Ty.parts, hn])]
  | optional child =>
    dsimp only [extentRule]
    rw [h child (by simp [Ty.parts])]
  | errorUnion set payload =>
    dsimp only [extentRule]
    rw [h payload (by simp [Ty.parts])]
  | enum name tag variants => exact h tag (by simp [Ty.parts])
  | struct s =>
    have hs : ∀ c ∈ s.stored, f c = g c := h
    dsimp only [extentRule]
    rw [List.map_congr_left fun c hc => congrArg Extent.bits (hs c hc),
      List.map_congr_left fun c hc => congrArg Extent.layout (hs c hc)]
  | tuple fields =>
    have hs : ∀ c ∈ storedTypes fields, f c = g c := h
    dsimp only [extentRule]
    rw [List.map_congr_left fun c hc => congrArg Extent.layout (hs c hc)]
  | union u =>
    dsimp only [extentRule]
    have hm : ∀ c ∈ u.memberTypes, f c = g c := fun c hc => h c (List.mem_append_right _ hc)
    split
    · rw [List.map_congr_left fun c hc => congrArg Extent.bits (hm c hc)]
    · rename_i hu
      rw [List.map_congr_left fun c hc => congrArg Extent.layout (hm c hc)]
      cases ht : P.storedTag? u with
      | none => rfl
      | some tag => rw [Option.map_some, Option.map_some, h tag (mem_parts_of_storedTag (by simpa using hu) ht)]
  | void | noreturn | bool | comptime | int | float | pointer | errorSet | function | opaqueType => rfl

end SealedPool

end MachineAbi
