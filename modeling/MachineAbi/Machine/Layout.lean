import Std.Data.DHashMap
import MachineAbi.Machine.Table
import MachineAbi.Target.Basic

/-!
# Layouts of machine types

The code generator lays out machine types by the alignment tables of the target. `Table.layoutOf` does the same;
functions, `void` and structs without a body have no layout.

A type that many others contain is laid out once (`Table.Layouts`), which does not change the result
(`Table.layoutOf_eq`).
-/

namespace MachineAbi

namespace FloatKind

/-- The bytes that a float of this format fills, before it is padded. -/
def storeBytes (k : FloatKind) : Nat := k.bits / 8

end FloatKind

namespace Target

def machineInt (T : Target) (bits : Nat) : Layout := (Layout.mk (bytesFor bits) (T.intAlign bits)).pad

def machineFloat (T : Target) (k : FloatKind) : Layout := (Layout.mk k.storeBytes (T.floatAlign k.bits)).pad

def machinePtr (T : Target) (space : Nat) : Layout := (T.pointerLayout space).layout

end Target

/-- Fields in order: each at the next offset aligned for it, or side by side if the struct is packed. -/
def Layout.struct (packed : Bool) (fields : List Layout) : Layout :=
  if packed then ⟨Layout.total fields, 1⟩ else .compose fields

namespace Table

/-- The width of a scalar, as an element of a vector. -/
def scalarBits? (t : Table) (T : Target) (h : Handle) : Option Nat :=
  match t.get h with
  | .int bits => some bits
  | .float kind => some kind.bits
  | .ptr space => some (T.pointerLayout space).sizeBits
  | _ => none

/-- The layout of a machine type in whose nest no path is longer than the first argument. -/
def layoutWithin (t : Table) (T : Target) : Nat → Handle → Option Layout
  | 0, _ => none
  | n + 1, h =>
    match t.get h with
    | .void | .function _ _ _ => none
    | .int bits => some (T.machineInt bits)
    | .float kind => some (T.machineFloat kind)
    | .ptr space => some (T.machinePtr space)
    | .array len elem => (t.layoutWithin T n elem).map (Layout.times len)
    | .vector len elem => (t.scalarBits? T elem).map fun bits => T.vectorLayout (len * bits)
    | .struct packed fields => (fields.mapM (t.layoutWithin T n)).map (Layout.struct packed)
    | .named id =>
      (t.named[id]?.bind (·.body)).bind fun body =>
        (body.fields.mapM (t.layoutWithin T n)).map (Layout.struct body.packed)

theorem layoutWithin_of_body (t : Table) (T : Target) (n : Nat) {h : Handle} {body : StructBody}
    (hb : t.body? h = some body) :
    t.layoutWithin T (n + 1) h = (body.fields.mapM (t.layoutWithin T n)).map (Layout.struct body.packed) := by
  unfold body? namedStruct? at hb
  unfold layoutWithin
  split at hb
  next packed fields hg =>
    cases hb
    rw [hg]
  next =>
    split at hb
    next id hg =>
      rw [hg]
      dsimp only
      rw [hb]
      rfl
    next => cases hb

/-! ## Each layout once -/

/-- What `layoutWithin` gives for a machine type. -/
abbrev Found (t : Table) (T : Target) (n : Nat) (h : Handle) : Type :=
  { l : Option Layout // l = t.layoutWithin T n h }

/-- The layouts of structs found so far, by depth and handle. -/
abbrev Layouts (t : Table) (T : Target) : Type := Std.DHashMap (Nat × Handle) fun k => t.Found T k.1 k.2

/-- Finds the layouts of fields in order, until one has none. -/
def findFields {t : Table} {T : Target} {n : Nat} (find : (h : Handle) → StateM (t.Layouts T) (t.Found T n h)) :
    (hs : List Handle) → StateM (t.Layouts T) { ls : Option (List Layout) // ls = hs.mapM (t.layoutWithin T n) }
  | [] => return ⟨some [], rfl⟩
  | h :: hs => do
    match ← find h with
    | ⟨none, hl⟩ => return ⟨none, by rw [List.mapM_cons, ← hl]; rfl⟩
    | ⟨some l, hl⟩ =>
      let ⟨ls, hls⟩ ← findFields find hs
      return ⟨ls.map (l :: ·), by rw [List.mapM_cons, ← hl, ← hls]; cases ls <;> rfl⟩

/-- Finds the layout of a machine type; that of a struct is looked up first. -/
def findLayout (t : Table) (T : Target) : (n : Nat) → (h : Handle) → StateM (t.Layouts T) (t.Found T n h)
  | 0, _ => return ⟨none, rfl⟩
  | n + 1, h =>
    match hb : t.body? h with
    | some body => do
      match (← getThe (t.Layouts T)).get? (n + 1, h) with
      | some l => return l
      | none =>
        let ⟨ls, hls⟩ ← findFields (t.findLayout T n) body.fields
        let l : t.Found T (n + 1) h :=
          ⟨ls.map (Layout.struct body.packed), by rw [t.layoutWithin_of_body T n hb, hls]⟩
        modifyThe (t.Layouts T) (·.insert (n + 1, h) l)
        return l
    | none =>
      match ha : t.get h with
      | .array len elem => do
        let ⟨l, hl⟩ ← t.findLayout T n elem
        return ⟨l.map (Layout.times len), by rw [hl, layoutWithin, ha]⟩
      | _ => return ⟨t.layoutWithin T (n + 1) h, rfl⟩

/-- The layout of a machine type. A nest of types in which none contains itself has no path longer than the table. -/
def layoutOf (t : Table) (T : Target) (h : Handle) : Option Layout := ((t.findLayout T (t.size + 1) h).run ∅).run.1.1

theorem layoutOf_eq (t : Table) (T : Target) (h : Handle) : t.layoutOf T h = t.layoutWithin T (t.size + 1) h :=
  ((t.findLayout T (t.size + 1) h).run ∅).run.1.2

end Table

end MachineAbi
