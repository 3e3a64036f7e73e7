import MachineAbi.Proofs.Lowering.Sound

/-!
# Machine types written out

A handle means something only in its table. A `MachineTree` is a machine type with its components in place of their
handles, and with the source type that a named struct was made for in place of its number and its name. So machine types
of different sessions can be compared.

* `Session.Shows`: a handle stands for a tree. It goes on to do so as the session grows (`Shows.mono`).
* `Shows.layoutOf`: the layout of a handle is that of its tree.
* `Shows.of_stores`: what a handle stands for is of the kind that is stored for it. A tree has one handle only
  (`Shows.handle_eq`).
-/

namespace MachineAbi

/-- A machine type with its components in place of their handles. -/
inductive MachineTree where
  | void
  | int (bits : Nat)
  | float (kind : FloatKind)
  | ptr (space : Nat)
  | array (len : Nat) (elem : MachineTree)
  | vector (len : Nat) (elem : MachineTree)
  | struct (packed : Bool) (fields : List MachineTree)
  /-- The named struct of a source type. -/
  | named (source : TypeId) (fields : List MachineTree)
  /-- The named struct of a source type without known content. -/
  | unknown (source : TypeId)
  | function (ret : MachineTree) (params : List MachineTree) (varargs : Bool)
deriving Repr, Inhabited

namespace MachineTree

/-- `len` bytes. -/
def bytes (len : Nat) : MachineTree := .array len (.int 8)

variable (T : Target)

/-- The width of a scalar, as an element of a vector. -/
def scalarBits? : MachineTree → Option Nat
  | int bits => some bits
  | float kind => some kind.bits
  | ptr space => some (T.pointerLayout space).sizeBits
  | _ => none

mutual

/-- How the code generator lays out a machine type. -/
def layout? : MachineTree → Option Layout
  | void | unknown _ | function _ _ _ => none
  | int bits => some (T.machineInt bits)
  | float kind => some (T.machineFloat kind)
  | ptr space => some (T.machinePtr space)
  | array len elem => (layout? elem).map (Layout.times len)
  | vector len elem => (elem.scalarBits? T).map fun bits => T.vectorLayout (len * bits)
  | struct packed fields => (layouts? fields).map (Layout.struct packed)
  | named _ fields => (layouts? fields).map (Layout.struct false)

/-- The layouts of machine types in order, if all of them have one. -/
def layouts? : List MachineTree → Option (List Layout)
  | [] => some []
  | tree :: trees => (layout? tree).bind fun l => (layouts? trees).map (l :: ·)

end

end MachineTree

/-- The machine type of a float. -/
def Target.floatTree (T : Target) (bits : Nat) : MachineTree :=
  match T.floatType bits with
  | .int bits => .int bits
  | .float kind => .float kind
  | _ => .void

namespace SealedPool

/-- Structs and unions that are stored field by field. -/
def isNamedContainer (P : SealedPool) (t : TypeId) : Bool :=
  match P.get t with
  | .struct s => !s.isPacked && P.takesRoom t
  | .union u => !u.isPacked && P.takesRoom t
  | _ => false

/-- Types without known content. -/
def isOpaque (P : SealedPool) (t : TypeId) : Bool :=
  match P.get t with
  | .opaqueType _ => true
  | _ => false

/-- Types that get a named struct of their own. -/
def hasName (P : SealedPool) (t : TypeId) : Bool := P.isNamedContainer t || P.isOpaque t

/-- The name that is asked for when a type gets a named struct. -/
def structName (P : SealedPool) (t : TypeId) : String :=
  match P.get t with
  | .struct s => s.name
  | .union u => u.name
  | .opaqueType name => name
  | _ => ""

theorem hasName_eq (P : SealedPool) (t : TypeId) :
    P.hasName t =
      match P.get t with
      | .struct s => !s.isPacked && P.takesRoom t
      | .union u => !u.isPacked && P.takesRoom t
      | .opaqueType _ => true
      | _ => false := by
  unfold hasName isNamedContainer isOpaque
  cases P.get t <;> simp

theorem hasName_of_isNamedContainer (P : SealedPool) {t : TypeId} (h : P.isNamedContainer t = true) :
    P.hasName t = true := by
  simp [hasName, h]

theorem hasName_of_isOpaque (P : SealedPool) {t : TypeId} (h : P.isOpaque t = true) : P.hasName t = true := by
  simp [hasName, h]

theorem takesRoom_of_isNamedContainer (P : SealedPool) {t : TypeId} (h : P.isNamedContainer t = true) :
    P.takesRoom t = true := by
  unfold isNamedContainer at h
  split at h
  · exact (Bool.and_eq_true_iff.1 h).2
  · exact (Bool.and_eq_true_iff.1 h).2
  · cases h

theorem not_isNamedContainer_of_isOpaque (P : SealedPool) {t : TypeId} (h : P.isOpaque t = true) :
    ¬P.isNamedContainer t = true := by
  unfold isOpaque at h
  unfold isNamedContainer
  cases hd : P.get t with
  | opaqueType name => simp
  | _ => simp [hd] at h

end SealedPool

namespace Session

mutual

/-- The handle stands for this tree. -/
def Shows (P : SealedPool) (s : Session) : MachineTree → Handle → Prop
  | .void, h => s.table.Stores h .void
  | .int bits, h => s.table.Stores h (.int bits)
  | .float kind, h => s.table.Stores h (.float kind)
  | .ptr space, h => s.table.Stores h (.ptr space)
  | .array len elem, h => ∃ e, s.table.Stores h (.array len e) ∧ Shows P s elem e
  | .vector len elem, h => ∃ e, s.table.Stores h (.vector len e) ∧ Shows P s elem e
  | .struct packed fields, h => ∃ hs, s.table.Stores h (.struct packed hs) ∧ ShowsAll P s fields hs
  | .named t fields, h => P.isNamedContainer t = true ∧ s.lowered[t]? = some h ∧
      ∃ id hs, s.table.Stores h (.named id) ∧ s.table.bodyAt? id = some ⟨false, hs⟩ ∧ ShowsAll P s fields hs
  | .unknown t, h => P.isOpaque t = true ∧ s.lowered[t]? = some h ∧ ∃ id, s.table.Stores h (.named id)
  | .function ret params varargs, h => ∃ r ps, s.table.Stores h (.function r ps varargs) ∧ Shows P s ret r ∧
      ShowsAll P s params ps

/-- The handles stand for these trees, one for one. -/
def ShowsAll (P : SealedPool) (s : Session) : List MachineTree → List Handle → Prop
  | [], [] => True
  | tree :: trees, h :: hs => Shows P s tree h ∧ ShowsAll P s trees hs
  | _, _ => False

end

/-- The content of opaque types stays unknown. -/
def Bare (P : SealedPool) (s : Session) : Prop :=
  ∀ (t : TypeId) (h : Handle) (id : Nat), P.isOpaque t = true → s.lowered[t]? = some h →
    s.table.Stores h (.named id) → s.table.bodyAt? id = none

/-- No two types share a named struct. -/
def Apart (P : SealedPool) (s : Session) : Prop :=
  ∀ (t t' : TypeId) (h : Handle), P.hasName t = true → P.hasName t' = true → s.lowered[t]? = some h →
    s.lowered[t']? = some h → t = t'

variable {P : SealedPool} {s s' : Session}

theorem showsAll_iff {trees : List MachineTree} {hs : List Handle} :
    s.ShowsAll P trees hs ↔ List.Forall₂ (s.Shows P) trees hs := by
  induction trees generalizing hs with
  | nil =>
    cases hs with
    | nil => simp [ShowsAll]
    | cons h hs => simp [ShowsAll]
  | cons tree trees ih =>
    cases hs with
    | nil => simp [ShowsAll]
    | cons h hs => rw [ShowsAll, List.forall₂_cons, ih]

theorem ShowsAll.append {trees trees' : List MachineTree} {hs hs' : List Handle} (h : s.ShowsAll P trees hs)
    (h' : s.ShowsAll P trees' hs') : s.ShowsAll P (trees ++ trees') (hs ++ hs') :=
  showsAll_iff.2 (List.rel_append (showsAll_iff.1 h) (showsAll_iff.1 h'))

theorem ShowsAll.length_eq {trees : List MachineTree} {hs : List Handle} (h : s.ShowsAll P trees hs) :
    trees.length = hs.length :=
  (showsAll_iff.1 h).length_eq

/-! ## Growth -/

mutual

theorem Shows.mono (hr : s.Refines s') : ∀ {tree : MachineTree} {h : Handle}, s.Shows P tree h → s'.Shows P tree h
  | .void, _, hs | .int _, _, hs | .float _, _, hs | .ptr _, _, hs => hr.table.types _ _ hs
  | .array _ _, _, ⟨e, hs, he⟩ | .vector _ _, _, ⟨e, hs, he⟩ => ⟨e, hr.table.types _ _ hs, Shows.mono hr he⟩
  | .struct _ _, _, ⟨hs, hstruct, hall⟩ => ⟨hs, hr.table.types _ _ hstruct, ShowsAll.mono hr hall⟩
  | .named _ _, _, ⟨ht, hl, id, hs, hnamed, hbody, hall⟩ =>
    ⟨ht, hr.lowered _ _ hl, id, hs, hr.table.types _ _ hnamed, hr.table.bodies _ _ hbody, ShowsAll.mono hr hall⟩
  | .unknown _, _, ⟨ht, hl, id, hs⟩ => ⟨ht, hr.lowered _ _ hl, id, hr.table.types _ _ hs⟩
  | .function _ _ _, _, ⟨r, ps, hs, hret, hall⟩ =>
    ⟨r, ps, hr.table.types _ _ hs, Shows.mono hr hret, ShowsAll.mono hr hall⟩

theorem ShowsAll.mono (hr : s.Refines s') :
    ∀ {trees : List MachineTree} {hs : List Handle}, s.ShowsAll P trees hs → s'.ShowsAll P trees hs
  | [], [], _ => trivial
  | _ :: _, _ :: _, ⟨h, hall⟩ => ⟨Shows.mono hr h, ShowsAll.mono hr hall⟩
  | [], _ :: _, h => h.elim
  | _ :: _, [], h => h.elim

end

theorem floatType_cases (T : Target) (bits : Nat) :
    (∃ width, T.floatType bits = .int width) ∨ ∃ kind, T.floatType bits = .float kind := by
  unfold Target.floatType
  split
  · exact Or.inl ⟨_, rfl⟩
  · split
    · exact Or.inl ⟨_, rfl⟩
    · split
      · exact Or.inr ⟨_, rfl⟩
      · exact Or.inl ⟨_, rfl⟩

theorem shows_floatTree {T : Target} {bits : Nat} {h : Handle} (hs : s.table.Stores h (T.floatType bits)) :
    s.Shows P (T.floatTree bits) h := by
  unfold Target.floatTree
  rcases floatType_cases T bits with ⟨width, hf⟩ | ⟨kind, hf⟩
  · rw [hf] at hs ⊢
    exact hs
  · rw [hf] at hs ⊢
    exact hs

/-! ## Layouts -/

section

variable {T : Target}

theorem Shows.scalarBits? {tree : MachineTree} {h : Handle} (hs : s.Shows P tree h) :
    s.table.scalarBits? T h = tree.scalarBits? T := by
  unfold Table.scalarBits?
  cases tree with
  | void | int | float | ptr => simp only [Shows] at hs; rw [hs.get_eq]; rfl
  | array | vector => obtain ⟨e, hs, -⟩ := hs; rw [hs.get_eq]; rfl
  | struct => obtain ⟨hs', hs, -⟩ := hs; rw [hs.get_eq]; rfl
  | named => obtain ⟨-, -, id, hs', hs, -⟩ := hs; rw [hs.get_eq]; rfl
  | unknown => obtain ⟨-, -, id, hs⟩ := hs; rw [hs.get_eq]; rfl
  | function => obtain ⟨r, ps, hs, -⟩ := hs; rw [hs.get_eq]; rfl

mutual

/-- The layout of a handle is that of its tree. -/
theorem Shows.layoutOf (hb : s.Bare P) : ∀ {tree : MachineTree} {h : Handle}, s.Shows P tree h →
    s.table.layoutOf T h = tree.layout? T
  | .void, h, hs | .int _, h, hs | .float _, h, hs | .ptr _, h, hs => by
    rw [Table.layoutOf_eq_step, Table.layoutStep, Table.Stores.get_eq hs, MachineTree.layout?]
  | .array _ _, h, ⟨e, hs, he⟩ => by
    rw [Table.layoutOf_eq_step, Table.layoutStep, hs.get_eq, MachineTree.layout?, ← Shows.layoutOf hb he]
  | .vector _ _, h, ⟨e, hs, he⟩ => by
    rw [Table.layoutOf_eq_step, Table.layoutStep, hs.get_eq, MachineTree.layout?, ← he.scalarBits?]
  | .struct _ _, h, ⟨hs, hstruct, hall⟩ => by
    rw [Table.layoutOf_eq_step, Table.layoutStep, hstruct.get_eq, MachineTree.layout?, ← ShowsAll.layoutOf hb hall]
  | .named _ _, h, ⟨_, _, id, hs, hnamed, hbody, hall⟩ => by
    rw [Table.layoutOf_eq_step, Table.layoutStep, hnamed.get_eq, MachineTree.layout?, ← ShowsAll.layoutOf hb hall]
    simp only [hbody, Option.bind_some]
  | .unknown t, h, ⟨ht, hl, id, hs⟩ => by
    rw [Table.layoutOf_eq_step, Table.layoutStep, hs.get_eq, MachineTree.layout?]
    simp only [hb t h id ht hl hs, Option.bind_none]
  | .function _ _ _, h, ⟨r, ps, hs, _⟩ => by
    rw [Table.layoutOf_eq_step, Table.layoutStep, hs.get_eq, MachineTree.layout?]

theorem ShowsAll.layoutOf (hb : s.Bare P) : ∀ {trees : List MachineTree} {hs : List Handle}, s.ShowsAll P trees hs →
    hs.mapM (s.table.layoutOf T) = MachineTree.layouts? T trees
  | [], [], _ => rfl
  | _ :: _, _ :: _, ⟨h, hall⟩ => by
    rw [List.mapM_cons, Shows.layoutOf hb h, ShowsAll.layoutOf hb hall, MachineTree.layouts?]
    cases MachineTree.layouts? T _ <;> rfl
  | [], _ :: _, h => h.elim
  | _ :: _, [], h => h.elim

end

end

/-! ## What is stored for a handle -/

/-- What a handle stands for has the kind that is stored for the handle. -/
theorem Shows.of_stores {tree : MachineTree} {h : Handle} {m : MachineType} (hs : s.Shows P tree h)
    (hm : s.table.Stores h m) :
    match m with
    | .void => tree = .void
    | .int bits => tree = .int bits
    | .float kind => tree = .float kind
    | .ptr space => tree = .ptr space
    | .array len e => ∃ elem, tree = .array len elem ∧ s.Shows P elem e
    | .vector len e => ∃ elem, tree = .vector len elem ∧ s.Shows P elem e
    | .struct packed hs => ∃ fields, tree = .struct packed fields ∧ s.ShowsAll P fields hs
    | .named id => (∃ t fields hs, tree = .named t fields ∧ P.isNamedContainer t = true ∧ s.lowered[t]? = some h ∧
        s.table.bodyAt? id = some ⟨false, hs⟩ ∧ s.ShowsAll P fields hs) ∨
        ∃ t, tree = .unknown t ∧ P.isOpaque t = true ∧ s.lowered[t]? = some h
    | .function r ps varargs => ∃ ret params, tree = .function ret params varargs ∧ s.Shows P ret r ∧
        s.ShowsAll P params ps := by
  cases tree with
  | void | int | float | ptr =>
    obtain rfl := Table.Stores.eq hm hs
    rfl
  | array len elem | vector len elem =>
    obtain ⟨e, hs, he⟩ := hs
    obtain rfl := hm.eq hs
    exact ⟨elem, rfl, he⟩
  | struct packed fields =>
    obtain ⟨hs', hs, hall⟩ := hs
    obtain rfl := hm.eq hs
    exact ⟨fields, rfl, hall⟩
  | named t fields =>
    obtain ⟨ht, hl, id, hs', hs, hbody, hall⟩ := hs
    obtain rfl := hm.eq hs
    exact Or.inl ⟨t, fields, hs', rfl, ht, hl, hbody, hall⟩
  | unknown t =>
    obtain ⟨ht, hl, id, hs⟩ := hs
    obtain rfl := hm.eq hs
    exact Or.inr ⟨t, rfl, ht, hl⟩
  | function ret params varargs =>
    obtain ⟨r, ps, hs, hret, hall⟩ := hs
    obtain rfl := hm.eq hs
    exact ⟨ret, params, rfl, hret, hall⟩

/-! ## One handle for each tree -/

mutual

/-- A tree has one handle. -/
theorem Shows.handle_eq (hwf : s.table.WellFormed) : ∀ {tree : MachineTree} {h h' : Handle}, s.Shows P tree h →
    s.Shows P tree h' → h = h'
  | .void, _, _, hs, hs' | .int _, _, _, hs, hs' | .float _, _, _, hs, hs' | .ptr _, _, _, hs, hs' =>
    hwf.distinct _ _ _ hs hs'
  | .array _ _, _, _, ⟨_, hs, he⟩, ⟨_, hs', he'⟩ | .vector _ _, _, _, ⟨_, hs, he⟩, ⟨_, hs', he'⟩ => by
    obtain rfl := Shows.handle_eq hwf he he'
    exact hwf.distinct _ _ _ hs hs'
  | .struct _ _, _, _, ⟨_, hs, hall⟩, ⟨_, hs', hall'⟩ => by
    obtain rfl := ShowsAll.handles_eq hwf hall hall'
    exact hwf.distinct _ _ _ hs hs'
  | .named _ _, _, _, ⟨_, hl, _⟩, ⟨_, hl', _⟩ | .unknown _, _, _, ⟨_, hl, _⟩, ⟨_, hl', _⟩ =>
    Option.some.inj (hl.symm.trans hl')
  | .function _ _ _, _, _, ⟨_, _, hs, hret, hall⟩, ⟨_, _, hs', hret', hall'⟩ => by
    obtain rfl := Shows.handle_eq hwf hret hret'
    obtain rfl := ShowsAll.handles_eq hwf hall hall'
    exact hwf.distinct _ _ _ hs hs'

theorem ShowsAll.handles_eq (hwf : s.table.WellFormed) : ∀ {trees : List MachineTree} {hs hs' : List Handle},
    s.ShowsAll P trees hs → s.ShowsAll P trees hs' → hs = hs'
  | [], [], [], _, _ => rfl
  | _ :: _, _ :: _, _ :: _, ⟨h, hall⟩, ⟨h', hall'⟩ => by
    rw [Shows.handle_eq hwf h h', ShowsAll.handles_eq hwf hall hall']
  | [], _ :: _, _, h, _ => h.elim
  | [], [], _ :: _, _, h => h.elim
  | _ :: _, [], _, h, _ => h.elim
  | _ :: _, _ :: _, [], _, h => h.elim

end

end Session

end MachineAbi
