import MachineAbi.Lowering.Session
import MachineAbi.Source.Sizing

/-!
# Lowering of values

`Sizing.lowerValue` gives the machine type of the values of a type. Structs and unions become named structs, which
are declared before their fields are lowered and get their body afterwards; all other aggregates become unnamed ones.

Each step (`Sizing.lowerNew`) lowers the parts of a type by a function that it is handed, so that facts about
lowering can be carried from the parts of a type to the type.
-/

namespace MachineAbi

open Session

/-- The machine type of a float; widths without a machine format are integers. -/
def Target.floatType (T : Target) (bits : Nat) : MachineType :=
  if bits = 16 ∧ !T.supportsF16 then .int 16
  else if bits = 80 ∧ !T.supportsF80 then .int 80
  else
    match FloatKind.ofBits? bits with
    | some kind => .float kind
    | none => .int bits

/-- The width of the integer that holds a packed container is taken modulo this number. -/
def packedWidthModulus : Nat := 0x100000000

/-- Whether `m` needs more of its place than `l`: a stricter alignment, or the same and more room. -/
def Layout.yieldsTo (l m : Layout) : Bool := l.align < m.align || (l.align == m.align && l.size < m.size)

namespace Sizing

open SealedPool (mem_parts mem_parts_of_storedTag)

/-- How the parts of type `t` are lowered. -/
abbrev PartLowering (Z : Sizing) (t : TypeId) : Type := (c : TypeId) → c ∈ Z.parts t → StateM Session Handle

/-! ## Fields in order -/

/-- Lowers and places fields in order; those of compile time or without bits have a place and no machine field. -/
def lowerFields (Z : Sizing) {t : TypeId} (lowerPart : Z.PartLowering t) :
    (fields : List FieldTy) → (∀ c ∈ storedTypes fields, c ∈ Z.parts t) → AggregateBuilder →
      StateM Session (List FieldPlace × AggregateBuilder)
  | [], _, b => return ([], b)
  | f :: fields, hf, b => do
    let h? ← if h : f.isComptime = false ∧ Z.takesRoom f.ty then
        some <$> lowerPart f.ty (hf f.ty (by simp [storedTypes, h.1]))
      else pure none
    let (field, b) ← onTable (b.push Z.target f.ty h?)
    let (rest, b) ← lowerFields Z lowerPart fields
      (fun c hc => hf c (by
        obtain ⟨g, hg, rfl⟩ := List.mem_map.1 hc
        exact List.mem_map.2 ⟨g, List.mem_filter.2 ⟨List.mem_cons_of_mem _ (List.mem_filter.1 hg).1,
          (List.mem_filter.1 hg).2⟩, rfl⟩)) b
    return (field :: rest, b)

/-- Makes an unnamed struct of a finished aggregate and records its layout. -/
def finishUnnamed (t : TypeId) (fields : List FieldPlace) (tag : Option FieldPlace) (b : AggregateBuilder) :
    StateM Session Handle := do
  let b ← onTable b.finish
  let h ← onTable (Table.struct b.machine false)
  record t (b.layout fields tag)
  return h

/-- Gives a declared struct the body of a finished aggregate and records its layout. -/
def finishNamed (t : TypeId) (named : Handle) (fields : List FieldPlace) (tag : Option FieldPlace)
    (b : AggregateBuilder) : StateM Session Handle := do
  let b ← onTable b.finish
  onTable (Table.setBody named ⟨false, b.machine⟩)
  record t (b.layout fields tag)
  return named

/-- Declares a named struct for type `t`, which stands for it from now on. -/
def declareFor (t : TypeId) (name : String) : StateM Session Handle := do
  let named ← onTable (Table.declare name)
  remember t named
  return named

def lowerTuple (Z : Sizing) {t : TypeId} (lowerPart : Z.PartLowering t) (fields : List FieldTy)
    (hf : ∀ c ∈ storedTypes fields, c ∈ Z.parts t) : StateM Session Handle := do
  let (placed, b) ← Z.lowerFields lowerPart fields hf .empty
  finishUnnamed t placed none b

def lowerStruct (Z : Sizing) {t : TypeId} (lowerPart : Z.PartLowering t) (s : StructTy)
    (hf : ∀ c ∈ s.stored, c ∈ Z.parts t) : StateM Session Handle := do
  let named ← declareFor t s.name
  let (placed, b) ← Z.lowerFields lowerPart s.fieldTys hf .empty
  finishNamed t named placed none b

/-! ## Slices, optionals and error unions -/

/-- A slice is a pointer and a length; its layout is not recorded. -/
def lowerSlice (T : Target) (t : TypeId) (space : Nat) : StateM Table Handle := do
  let ptr ← Table.ptr space
  let len ← Table.int T.ptrBits
  let (_, b) ← AggregateBuilder.empty.pushAll T [(t, some ptr), (t, some len)]
  let b ← b.finish
  Table.struct b.machine false

/-- A payload with a byte behind it that says whether it is there. -/
def lowerFlagged (Z : Sizing) {t : TypeId} (lowerPart : Z.PartLowering t) (child : TypeId)
    (hc : child ∈ Z.parts t) : StateM Session Handle := do
  let payload ← lowerPart child hc
  let flag ← onTable (Table.int 8)
  let (payload, b) ← onTable (AggregateBuilder.empty.push Z.target child (some payload))
  let (flag, b) ← onTable (b.push Z.target .u8 (some flag))
  finishUnnamed t [payload] (some flag) b

/-- An error code and a payload, in the order asked for. -/
def lowerErrorUnion (Z : Sizing) {t : TypeId} (lowerPart : Z.PartLowering t) (codeFirst : Bool)
    (set payload : TypeId) (hp : payload ∈ Z.parts t) : StateM Session Handle := do
  let code ← onTable (Table.int errorCodeBits)
  let value ← lowerPart payload hp
  if codeFirst then
    let (code, b) ← onTable (AggregateBuilder.empty.push Z.target set (some code))
    let (value, b) ← onTable (b.push Z.target payload (some value))
    finishUnnamed t [value] (some code) b
  else
    let (value, b) ← onTable (AggregateBuilder.empty.push Z.target payload (some value))
    let (code, b) ← onTable (b.push Z.target set (some code))
    finishUnnamed t [value] (some code) b

/-! ## Unions -/

/-- The better of the widest member so far and one more: the one that needs more of its place, or else the first. -/
def wider (Z : Sizing) (best : Option (TypeId × Nat)) (m : TypeId × Nat) : Option (TypeId × Nat) :=
  match best with
  | none => some m
  | some b => if (Z.layout b.1).yieldsTo (Z.layout m.1) then some m else some b

theorem mem_of_foldl_wider {Z : Sizing} {w : TypeId × Nat} (ms : List (TypeId × Nat)) (best : Option (TypeId × Nat))
    (h : ms.foldl Z.wider best = some w) : w ∈ ms ∨ best = some w := by
  induction ms generalizing best with
  | nil => exact Or.inr h
  | cons m ms ih =>
    rcases ih _ h with h | h
    · exact Or.inl (List.mem_cons_of_mem _ h)
    · cases best with
      | none => exact Or.inl (Option.some.inj h ▸ List.mem_cons_self)
      | some b =>
        unfold wider at h
        dsimp only at h
        split at h
        · exact Or.inl (Option.some.inj h ▸ List.mem_cons_self)
        · exact Or.inr h

/-- The member that stands for all in the payload of a union, with its number: of those with bits the one that needs
most of the place, and the first of several. -/
def widestMember? (Z : Sizing) (u : UnionTy) : Option (TypeId × Nat) :=
  (u.memberTypes.zipIdx.filter fun m => Z.takesRoom m.1).foldl Z.wider none

/-- The widest member is a member, at its number, and takes room. -/
theorem getElem?_widestMember {Z : Sizing} {u : UnionTy} {c : TypeId} {i : Nat}
    (h : Z.widestMember? u = some (c, i)) : u.memberTypes[i]? = some c ∧ Z.takesRoom c = true := by
  rcases mem_of_foldl_wider _ none h with h | h
  · obtain ⟨hm, hr⟩ := List.mem_filter.1 h
    exact ⟨List.mem_zipIdx_iff_getElem?.1 hm, hr⟩
  · cases h

theorem mem_of_widestMember {Z : Sizing} {u : UnionTy} {c : TypeId} {i : Nat}
    (h : Z.widestMember? u = some (c, i)) : c ∈ u.memberTypes :=
  List.mem_of_getElem? (getElem?_widestMember h).1

/-- The payload of a union: a machine type of the size of the payload, and the member that fills it alone. -/
structure UnionPayload where
  source : TypeId
  handle : Handle
  filledBy : Option Nat

/-- Lowers the widest member and pads it to the size of the payload. -/
def lowerPayload (Z : Sizing) {t : TypeId} (lowerPart : Z.PartLowering t) (u : UnionTy)
    (hu : ∀ c ∈ u.memberTypes, c ∈ Z.parts t) : StateM Session (Option UnionPayload) :=
  match hw : Z.widestMember? u with
  | none => return none
  | some (c, i) => do
    let h ← lowerPart c (hu c (mem_of_widestMember hw))
    let size := (Z.layout c).size
    let room := (Z.payloadLayout u).size
    if size < room then
      let pad ← onTable (Table.bytes (room - size))
      let padded ← onTable (Table.struct [h, pad] false)
      return some ⟨c, padded, none⟩
    else return some ⟨c, h, some i⟩

/-- Lowers the stored tag of a union. -/
def lowerTag (Z : Sizing) {t : TypeId} (lowerPart : Z.PartLowering t) (u : UnionTy)
    (hu : ∀ c, Z.storedTag? u = some c → c ∈ Z.parts t) : StateM Session (Option (TypeId × Handle)) :=
  match ht : Z.storedTag? u with
  | none => return none
  | some tag => do
    let h ← lowerPart tag (hu tag ht)
    return some (tag, h)

/-- Places a value, if there is one. -/
def pushOptional (T : Target) (b : AggregateBuilder) :
    Option (TypeId × Handle) → StateM Table (Option FieldPlace × AggregateBuilder)
  | none => return (none, b)
  | some (source, h) => do
    let (field, b) ← b.push T source (some h)
    return (some field, b)

/-- The places of the members of a union, which all are where the payload is. -/
def memberPlaces (Z : Sizing) (u : UnionTy) (filledBy : Option Nat) (slot : Option FieldPlace) :
    List FieldPlace :=
  u.memberTypes.zipIdx.map fun (c, i) =>
    { machineIndex := if filledBy = some i then slot.bind (·.machineIndex) else none
      source := c
      align := (Z.layout c).align
      offset := (slot.map (·.offset)).getD 0 }

def lowerUnion (Z : Sizing) {t : TypeId} (lowerPart : Z.PartLowering t) (u : UnionTy)
    (hm : ∀ c ∈ u.memberTypes, c ∈ Z.parts t) (ht : ∀ c, Z.storedTag? u = some c → c ∈ Z.parts t) :
    StateM Session Handle := do
  let named ← declareFor t u.name
  let payload ← Z.lowerPayload lowerPart u hm
  let tag ← Z.lowerTag lowerPart u ht
  let held := payload.map fun p => (p.source, p.handle)
  let filledBy := payload.bind (·.filledBy)
  let tagFirst := tag.any fun (tag, _) => (Z.layout tag).tagFirst (Z.payloadLayout u)
  if tagFirst then
    let (tagField, b) ← onTable (pushOptional Z.target .empty tag)
    let (slot, b) ← onTable (pushOptional Z.target b held)
    finishNamed t named (Z.memberPlaces u filledBy slot) tagField b
  else
    let (slot, b) ← onTable (pushOptional Z.target .empty held)
    let (tagField, b) ← onTable (pushOptional Z.target b tag)
    finishNamed t named (Z.memberPlaces u filledBy slot) tagField b

/-! ## All types -/

/-- One integer that holds the bits of a packed container. -/
def lowerPacked (Z : Sizing) (t : TypeId) : StateM Table Handle :=
  Table.int (Z.packedWidth t % packedWidthModulus)

/-- The machine type of the values of type `t`, whose parts are lowered by `lowerPart`. Functions are not values. -/
def lowerNew (Z : Sizing) (t : TypeId) (lowerPart : Z.PartLowering t) : StateM Session Handle :=
  let stored (act : StateM Session Handle) : StateM Session Handle :=
    if Z.takesRoom t then act else onTable Table.void
  match h : Z.get t with
  | .void | .noreturn | .comptime | .function _ => onTable Table.void
  | .opaqueType name => onTable (Table.declare name)
  | .bool => onTable (Table.int 1)
  | .int bits _ => stored (onTable (Table.int bits))
  | .float bits => onTable (Table.intern (Z.target.floatType bits))
  | .pointer p => onTable (if p.isSlice then lowerSlice Z.target t p.addrSpace else Table.ptr p.addrSpace)
  | .array len child sentinel =>
    let count := elementCount len sentinel
    if hn : count = 0 then onTable Table.void
    else if Z.takesRoom child then do
      let elem ← lowerPart child (mem_parts h (by simp [Ty.parts, count, hn]))
      onTable (Table.array count elem)
    else onTable (Table.bytes count)
  | .vector len child =>
    if hn : len = 0 then onTable Table.void
    else stored do
      let elem ← if Z.get child = .bool then onTable (Table.int 1)
        else lowerPart child (mem_parts h (by simp [Ty.parts, hn]))
      onTable (Table.vector len elem)
  | .optional child =>
    have hc : child ∈ Z.parts t := mem_parts h (by simp [Ty.parts])
    match Z.optionalRepr child with
    | .flagOnly => onTable (Table.int 8)
    | .payload => lowerPart child hc
    | .payloadAndFlag => Z.lowerFlagged lowerPart child hc
  | .errorSet _ => stored (onTable (Table.int errorCodeBits))
  | .errorUnion set payload =>
    have hp : payload ∈ Z.parts t := mem_parts h (by simp [Ty.parts])
    match Z.errorUnionRepr set payload with
    | .empty => onTable Table.void
    | .payloadOnly => lowerPart payload hp
    | .errorOnly => onTable (Table.int errorCodeBits)
    | .errorFirst => Z.lowerErrorUnion lowerPart true set payload hp
    | .payloadFirst => Z.lowerErrorUnion lowerPart false set payload hp
  | .enum _ tag _ => stored (lowerPart tag (mem_parts h (by simp [Ty.parts])))
  | .struct s =>
    stored (if s.isPacked then onTable (Z.lowerPacked t)
      else Z.lowerStruct lowerPart s fun _ hc => mem_parts h hc)
  | .tuple fields => stored (Z.lowerTuple lowerPart fields fun _ hc => mem_parts h hc)
  | .union u =>
    stored (if hu : u.isPacked then onTable (Z.lowerPacked t)
      else Z.lowerUnion lowerPart u (fun _ hc => mem_parts h (List.mem_append_right _ hc))
        fun _ hc => mem_parts h (mem_parts_of_storedTag (by simpa using hu) hc))

/-- The machine type of the values of type `t`. -/
def lowerValue (Z : Sizing) (t : TypeId) : StateM Session Handle :=
  memoized t (Z.lowerNew t fun c _ => Z.lowerValue c)
termination_by Z.rank t
decreasing_by exact Z.rank_lt ‹_›

end Sizing

end MachineAbi
