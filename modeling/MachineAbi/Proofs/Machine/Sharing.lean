import Mathlib.Data.List.Induction
import MachineAbi.Proofs.Machine.Growth

/-!
# Machine types are shared

A table is built up by calls (`Table.Call`). As long as these name only handles that the table has given out
(`Table.Admissible`),

* types known by their structure have one handle each, and named structs have a handle and a place of their own;
* the handles inside a type are older than the handle of the type, so types are well-founded but for the bodies of
  named structs;
* handles go on to mean what they mean (`Table.Shared`).

A table searches for types known by their structure. It could as well keep an index of them (`Table.Indexed`), which
stays exact and gives the same answers (`Table.Indexed.Agrees`).
-/

namespace MachineAbi

/-- The handles inside a type. -/
def MachineType.handles : MachineType → List Handle
  | array _ elem | vector _ elem => [elem]
  | struct _ fields => fields
  | function ret params _ => ret :: params
  | void | int _ | float _ | ptr _ | named _ => []

namespace Table

/-- A call of one of the operations by which a table is built up. -/
inductive Call where
  | void
  | int (bits : Nat)
  | float (kind : FloatKind)
  | ptr (space : Nat)
  | array (len : Nat) (elem : Handle)
  | vector (len : Nat) (elem : Handle)
  | bytes (len : Nat)
  | struct (fields : List Handle) (packed : Bool)
  | function (ret : Handle) (params : List Handle) (varargs : Bool)
  | declare (stem : String)
  | setBody (h : Handle) (body : StructBody)

/-- The handles that a call names. -/
def Call.handles : Call → List Handle
  | array _ elem | vector _ elem => [elem]
  | struct fields _ => fields
  | function ret params _ => ret :: params
  | setBody h body => h :: body.fields
  | void | int _ | float _ | ptr _ | bytes _ | declare _ => []

/-- Makes the call, and gives the handle that it gives out. -/
def Call.run : Call → StateM Table (Option Handle)
  | void => some <$> Table.void
  | int bits => some <$> Table.int bits
  | float kind => some <$> Table.float kind
  | ptr space => some <$> Table.ptr space
  | array len elem => some <$> Table.array len elem
  | vector len elem => some <$> Table.vector len elem
  | bytes len => some <$> Table.bytes len
  | struct fields packed => some <$> Table.struct fields packed
  | function ret params varargs => some <$> Table.function ret params varargs
  | declare stem => some <$> Table.declare stem
  | setBody h body => (fun _ => none) <$> Table.setBody h body

/-- The table after calls that start from the empty one. -/
def after (calls : List Call) : Table := calls.foldl (fun t c => (c.run t).2) empty

theorem after_concat (calls : List Call) (c : Call) : after (calls ++ [c]) = (c.run (after calls)).2 := by
  rw [after, List.foldl_append]
  rfl

/-- Calls that only name handles of the table that they are made on. -/
inductive Admissible : List Call → Prop
  | nil : Admissible []
  | concat {calls : List Call} (h : Admissible calls) (c : Call) (hc : ∀ a ∈ c.handles, a.raw < (after calls).size) :
      Admissible (calls ++ [c])

variable {t t' : Table} {m : MachineType}

/-! ## Handles inside types -/

/-- The handles inside each type are older than its own. -/
def Descending (t : Table) : Prop := ∀ h m, t.Stores h m → ∀ a ∈ m.handles, a.raw < h.raw

protected theorem Descending.empty : empty.Descending := fun _ _ hs => absurd hs.lt_size (Nat.not_lt_zero _)

theorem Descending.push (h : t.Descending) (hm : ∀ a ∈ m.handles, a.raw < t.size) : (push m t).2.Descending := by
  intro k m' hs a ha
  rcases stores_push.1 hs with hs | ⟨rfl, rfl⟩
  · exact h k m' hs a ha
  · exact hm a ha

/-- The table is well-formed, and types are made of older ones. -/
structure Orderly (t : Table) : Prop extends WellFormed t where
  descending : t.Descending

/-- The table has grown by what keeps it orderly. -/
structure Grows (t t' : Table) : Prop where
  orderly : t.Orderly → t'.Orderly
  types : ∀ h m, t.Stores h m → t'.Stores h m

protected theorem Grows.trans {t'' : Table} (h : t.Grows t') (h' : t'.Grows t'') : t.Grows t'' :=
  ⟨fun ht => h'.orderly (h.orderly ht), fun a m hs => h'.types a m (h.types a m hs)⟩

/-! ## One call at a time -/

theorem intern_grows (hm : IsStructural m) (hh : ∀ a ∈ m.handles, a.raw < t.size) :
    Ensures (intern m) t fun h t' => t.Grows t' ∧ t'.Stores h m := by
  obtain ⟨hext, hs⟩ := @intern_spec t m hm
  refine ⟨⟨fun ht => ⟨hext.wellFormed ht.toWellFormed, ?_⟩, hext.types⟩, hs⟩
  unfold intern
  cases hf : t.find? m with
  | some h => exact ht.descending
  | none => exact ht.descending.push hh

theorem bytes_grows (len : Nat) : Ensures (bytes len) t fun h t' => t.Grows t' ∧ ∃ byte, t'.Stores h (.array len byte) := by
  refine (intern_grows (by trivial) (by simp [MachineType.handles])).bind fun byte t₁ ⟨h₁, hbyte⟩ => ?_
  refine (intern_grows (by trivial) ?_).mono fun h t₂ ⟨h₂, harray⟩ => ⟨h₁.trans h₂, byte, harray⟩
  intro a ha
  obtain rfl := List.mem_singleton.1 ha
  exact hbyte.lt_size

theorem declare_grows (stem : String) :
    Ensures (declare stem) t fun h t' => t.Grows t' ∧ t'.Stores h (.named t.named.size) := by
  obtain ⟨hext, hs, -⟩ := @declare_spec t stem
  refine ⟨⟨fun ht => ⟨hext.wellFormed ht.toWellFormed, ?_⟩, hext.types⟩, hs⟩
  have hd : Descending { t with named := t.named.push ⟨stem, t.nextName stem, none⟩ } := ht.descending
  exact hd.push (by simp [MachineType.handles])

/-- A body does not touch the handles. -/
theorem setBody_grows (h : Handle) (body : StructBody) : Ensures (setBody h body) t fun _ t' => t.Grows t' := by
  unfold Ensures setBody
  split
  · constructor
    · intro ht
      refine ⟨⟨ht.distinct, fun a id hs => ?_⟩, ht.descending⟩
      rw [Array.size_modify]
      exact ht.known a id hs
    · intro a m hs
      exact hs
  · exact ⟨id, fun _ _ hs => hs⟩

/-- A call keeps the table orderly and what is stored, and gives out a handle of a stored type. -/
theorem Call.run_grows (c : Call) (hc : ∀ a ∈ c.handles, a.raw < t.size) :
    Ensures c.run t fun answer t' => t.Grows t' ∧ ∀ h ∈ answer, ∃ m, t'.Stores h m := by
  -- All operations but `setBody` give out the handle of the type that they have stored.
  have one : ∀ {act : StateM Table Handle} {m : MachineType},
      Ensures act t (fun h t' => t.Grows t' ∧ t'.Stores h m) →
        Ensures (some <$> act) t fun answer t' => t.Grows t' ∧ ∀ h ∈ answer, ∃ m, t'.Stores h m := by
    rintro act m ⟨hgrows, hs⟩
    refine ⟨hgrows, fun h hh => ?_⟩
    obtain rfl := Option.some.inj hh
    exact ⟨m, hs⟩
  cases c with
  | void | int bits | float kind | ptr space => exact one (intern_grows (by trivial) (by simp [MachineType.handles]))
  | array len elem | vector len elem | struct fields packed | function ret params varargs =>
    exact one (intern_grows (by trivial) hc)
  | bytes len =>
    obtain ⟨hgrows, byte, hs⟩ := @bytes_grows t len
    exact one ⟨hgrows, hs⟩
  | declare stem => exact one (declare_grows stem)
  | setBody h body => exact ⟨setBody_grows h body, fun h hh => nomatch hh⟩

theorem orderly_after {calls : List Call} (h : Admissible calls) : (after calls).Orderly := by
  induction h with
  | nil => exact ⟨.empty, .empty⟩
  | concat h c hc ih =>
    rw [after_concat]
    exact (c.run_grows hc).1.orderly ih

/-! ## A table with an index -/

/-- A table that keeps an index of the types known by their structure. -/
structure Indexed where
  table : Table
  index : MachineType → Option Nat

namespace Indexed

def empty : Indexed := ⟨Table.empty, fun _ => none⟩

def store (s : Indexed) : Store MachineType := ⟨s.table.types, s.index⟩

/-- The index leads from each type known by its structure to its handle, and to nothing else. -/
def Exact (s : Indexed) : Prop := s.store.Exact IsStructural

/-- The handle of a type known by its structure, by the index. -/
def intern (m : MachineType) : StateM Indexed Handle := fun s =>
  match s.index m with
  | some i => (⟨i⟩, s)
  | none => ((push m s.table).1, ⟨(push m s.table).2, Function.update s.index m (some s.table.size)⟩)

/-- An action that does not touch the index. -/
def beside {α : Type} (act : StateM Table α) : StateM Indexed α := fun s => ((act s.table).1, ⟨(act s.table).2, s.index⟩)

/-- Makes a call by the index. -/
def run : Call → StateM Indexed (Option Handle)
  | .void => some <$> intern .void
  | .int bits => some <$> intern (.int bits)
  | .float kind => some <$> intern (.float kind)
  | .ptr space => some <$> intern (.ptr space)
  | .array len elem => some <$> intern (.array len elem)
  | .vector len elem => some <$> intern (.vector len elem)
  | .bytes len => do
    let byte ← intern (.int 8)
    some <$> intern (.array len byte)
  | .struct fields packed => some <$> intern (.struct packed fields)
  | .function ret params varargs => some <$> intern (.function ret params varargs)
  | .declare stem => some <$> beside (declare stem)
  | .setBody h body => (fun _ => none) <$> beside (setBody h body)

def after (calls : List Call) : Indexed := calls.foldl (fun s c => (run c s).2) empty

theorem after_concat (calls : List Call) (c : Call) : after (calls ++ [c]) = (run c (after calls)).2 := by
  rw [after, List.foldl_append]
  rfl

variable {α β : Type} {s : Indexed}

/-- From an exact index, the action gives the same as one without an index, and the index stays exact. -/
def Agrees (act : StateM Indexed α) (plain : StateM Table α) : Prop :=
  ∀ s, Exact s → (act s).1 = (plain s.table).1 ∧ (act s).2.table = (plain s.table).2 ∧ Exact (act s).2

theorem Agrees.bind {act : StateM Indexed α} {plain : StateM Table α} {next : α → StateM Indexed β}
    {plainNext : α → StateM Table β} (h : Agrees act plain) (hnext : ∀ a, Agrees (next a) (plainNext a)) :
    Agrees (act >>= next) (plain >>= plainNext) := by
  intro s hs
  obtain ⟨hanswer, htable, hexact⟩ := h s hs
  have hrest := hnext (act s).1 (act s).2 hexact
  rw [htable, hanswer] at hrest
  show (next (act s).1 (act s).2).1 = _ ∧ (next (act s).1 (act s).2).2.table = _ ∧ Exact (next (act s).1 (act s).2).2
  rw [hanswer]
  exact hrest

theorem Agrees.map {act : StateM Indexed α} {plain : StateM Table α} (f : α → β) (h : Agrees act plain) :
    Agrees (f <$> act) (f <$> plain) := by
  intro s hs
  obtain ⟨hanswer, hrest⟩ := h s hs
  exact ⟨congrArg f hanswer, hrest⟩

theorem agrees_intern {m : MachineType} (hm : IsStructural m) : Agrees (intern m) (Table.intern m) := by
  intro s hs
  have hexact := (Store.Exact.intern hs hm).1
  have hindex : s.index m = s.table.types.idxOf? m := Store.Exact.index_eq hs hm
  have hfind : s.table.find? m = (s.index m).map Handle.mk := by rw [find?, hindex]
  unfold Indexed.intern Table.intern
  rw [hfind]
  cases hi : s.index m with
  | some i => exact ⟨rfl, rfl, hs⟩
  | none =>
    rw [Store.intern_of_new hi] at hexact
    exact ⟨rfl, rfl, hexact⟩

theorem agrees_declare (stem : String) : Agrees (beside (declare stem)) (declare stem) := by
  intro s hs
  have hexact := Store.Exact.push (b := MachineType.named s.table.named.size) hs (fun h => h)
  exact ⟨rfl, rfl, hexact⟩

theorem agrees_setBody (h : Handle) (body : StructBody) : Agrees (beside (setBody h body)) (setBody h body) := by
  intro s hs
  refine ⟨rfl, rfl, ?_⟩
  have htypes : (setBody h body s.table).2.types = s.table.types := by
    unfold setBody
    split <;> rfl
  unfold Exact store beside
  rw [htypes]
  exact hs

theorem agrees_run (c : Call) : Agrees (run c) c.run := by
  cases c with
  | bytes len => exact (agrees_intern (by trivial)).bind fun byte => (agrees_intern (by trivial)).map some
  | declare stem => exact (agrees_declare stem).map some
  | setBody h body => exact (agrees_setBody h body).map _
  | _ => exact (agrees_intern (by trivial)).map some

theorem exact_after (calls : List Call) : (after calls).table = Table.after calls ∧ (after calls).Exact := by
  induction calls using List.reverseRecOn with
  | nil => exact ⟨rfl, .empty⟩
  | append_singleton calls c ih =>
    obtain ⟨-, htable, hexact⟩ := agrees_run c (after calls) ih.2
    rw [after_concat, Table.after_concat]
    exact ⟨ih.1 ▸ htable, hexact⟩

end Indexed

/-! ## Sharing -/

/-- Types known by their structure are shared, named structs are not, and handles keep their meaning. -/
structure Shared (t : Table) : Prop where
  eq_iff : ∀ h h' m m', t.Stores h m → t.Stores h' m' → (h = h' ↔ m = m')
  declared : ∀ stem, Ensures (declare stem) t fun h t' =>
    (∀ h' m, t.Stores h' m → h' ≠ h) ∧ (∀ h', t'.Stores h' (.named t.named.size) ↔ h' = h) ∧
      t'.named[t.named.size]? = some ⟨stem, t.nextName stem, none⟩
  descending : ∀ h m, t.Stores h m → ∀ a ∈ m.handles, a.raw < h.raw
  kept : ∀ c : Call, (∀ a ∈ c.handles, a.raw < t.size) → Ensures c.run t fun answer t' =>
    (∀ h m, t.Stores h m → t'.Stores h m) ∧ ∀ h ∈ answer, ∃ m, t'.Stores h m

theorem Orderly.shared (ht : t.Orderly) : t.Shared := by
  constructor
  · intro h h' m m' hs hs'
    constructor
    · rintro rfl
      exact hs.eq hs'
    · rintro rfl
      exact ht.distinct h h' m hs hs'
  · intro stem
    obtain ⟨hext, hs, hn⟩ := @declare_spec t stem
    refine ⟨?_, fun h' => ⟨fun hs' => ?_, fun heq => heq ▸ hs⟩, hn⟩
    · rintro h' m hs' rfl
      exact Nat.lt_irrefl _ hs'.lt_size
    · exact (hext.wellFormed ht.toWellFormed).distinct _ _ _ hs' hs
  · exact ht.descending
  · intro c hc
    obtain ⟨hgrows, hanswer⟩ := c.run_grows hc
    exact ⟨hgrows.types, hanswer⟩

/-- Admissible calls share types, and an index of those known by their structure would be exact. -/
theorem shared_after {calls : List Call} (h : Admissible calls) :
    (after calls).Shared ∧ (Indexed.after calls).table = after calls ∧ (Indexed.after calls).Exact ∧
      ∀ c : Call, (Indexed.run c (Indexed.after calls)).1 = (c.run (after calls)).1 := by
  obtain ⟨htable, hexact⟩ := Indexed.exact_after calls
  refine ⟨(orderly_after h).shared, htable, hexact, ?_⟩
  intro c
  rw [← htable]
  exact (Indexed.agrees_run c _ hexact).1

/-- A named struct of two others, a struct of both, and three bytes. -/
def nodeCalls : List Call :=
  [.declare "Node", .declare "Leaf", .setBody ⟨0⟩ ⟨false, [⟨1⟩, ⟨1⟩]⟩, .struct [⟨0⟩, ⟨1⟩] false, .bytes 3]

theorem admissible_nodeCalls : Admissible nodeCalls := by
  have hnode : Admissible ([] ++ [.declare "Node"]) := .concat .nil _ (by decide)
  have hleaf : Admissible (_ ++ [.declare "Leaf"]) := .concat hnode _ (by decide)
  have hbody : Admissible (_ ++ [.setBody ⟨0⟩ ⟨false, [⟨1⟩, ⟨1⟩]⟩]) := .concat hleaf _ (by decide)
  have hstruct : Admissible (_ ++ [.struct [⟨0⟩, ⟨1⟩] false]) := .concat hbody _ (by decide)
  exact .concat hstruct (.bytes 3) (by simp [Call.handles])

theorem shared_after_nodeCalls : Admissible nodeCalls ∧ (after nodeCalls).Shared ∧ (Indexed.after nodeCalls).Exact := by
  obtain ⟨hshared, -, hexact, -⟩ := shared_after admissible_nodeCalls
  exact ⟨admissible_nodeCalls, hshared, hexact⟩

end Table

end MachineAbi
