import Mathlib.Logic.Relation
import MachineAbi.Proofs.Machine.LayoutOf
import MachineAbi.Proofs.Machine.Sharing

/-!
# What a table has said it says again

Later calls of any kind, with any handles, leave alone what a table says of the handles that it has given out
(`Table.frozen_after`): their types, their names, the bodies that are known and the layouts that there are. A type
without a layout may get one only by a body that is set later, so never if it holds no struct that waits for its body.

Proof: types and names are kept by every call, and a body that is known is not replaced (`Table.Keeps`, with
`Call.run_keeps` for one call). So layouts stay (`Refines.layoutOf`). Where no body is missing, all levels of the nest
of a type are the same before and after (`Keeps.layoutWithin_eq`), as all handles in the nest are those of stored types
(`Stocked`).

Structs that hold themselves by value need no care here: no number of levels gives them a layout.
-/

namespace MachineAbi.Table

variable {t t' t'' : Table} {a b : Handle} {m : MachineType} {T : Target}

/-! ## What every call keeps -/

/-- Types, names and known bodies have stayed as they were. -/
structure Keeps (t t' : Table) : Prop extends Refines t t' where
  names : ∀ id name, t.nameAt? id = some name → t'.nameAt? id = some name

namespace Keeps

protected theorem refl (t : Table) : t.Keeps t := ⟨⟨fun _ _ hs => hs, fun _ _ hb => hb⟩, fun _ _ hn => hn⟩

protected theorem trans (h : t.Keeps t') (h' : t'.Keeps t'') : t.Keeps t'' :=
  ⟨h.toRefines.trans h'.toRefines, fun id name hn => h'.names id name (h.names id name hn)⟩

theorem name?_eq (h : t.Keeps t') (ht : t.WellFormed) (hs : t.Stores a m) : t'.name? a = t.name? a := by
  have hs' := h.types a m hs
  cases m with
  | named id =>
    have hid : id < t.named.size := ht.known a id hs
    have hn : t.nameAt? id = some t.named[id].name := by
      unfold nameAt?
      rw [Array.getElem?_eq_getElem hid]
      rfl
    rw [name?_of_named hs, name?_of_named hs', hn]
    exact h.names id _ hn
  | _ => simp [name?, namedStruct?, hs.get_eq, hs'.get_eq]

end Keeps

theorem Extends.keeps (h : t.Extends t') : t.Keeps t' := by
  refine ⟨h.refines, fun id name hn => ?_⟩
  obtain ⟨n, hn, hname⟩ := Option.map_eq_some_iff.1 hn
  exact Option.map_eq_some_iff.2 ⟨n, h.named id n hn, hname⟩

/-- A body that is known stays, whichever handle the new one is set for. -/
theorem setBody_keeps (h : Handle) (body : StructBody) : Ensures (setBody h body) t fun _ t' => t.Keeps t' := by
  unfold Ensures setBody
  split
  case h_2 => exact .refl t
  case h_1 id hid =>
    refine ⟨⟨fun _ _ hs => hs, fun id' body' hb => ?_⟩, fun id' name hn => ?_⟩
    · obtain ⟨n, hn, hbody⟩ := Option.bind_eq_some_iff.1 hb
      simp only [bodyAt?, Array.getElem?_modify, hn]
      split <;> simp [hbody]
    · obtain ⟨n, hget, rfl⟩ := Option.map_eq_some_iff.1 hn
      simp only [nameAt?, Array.getElem?_modify, hget]
      split
      · cases hb : n.body <;> simp [hb]
      · rfl

theorem Call.run_keeps (c : Call) : Ensures c.run t fun _ t' => t.Keeps t' := by
  -- The other operations only add types.
  have adds : ∀ {act : StateM Table Handle} {post : Handle → Table → Prop},
      Ensures act t (fun h t' => t.Extends t' ∧ post h t') → Ensures (some <$> act) t fun _ t' => t.Keeps t' := by
    intro act post h
    exact h.1.keeps
  cases c with
  | bytes len => exact adds (bytes_spec len)
  | declare stem => exact adds (declare_spec stem)
  | setBody h body => exact setBody_keeps h body
  | _ => exact adds (intern_spec (by trivial))

theorem keeps_after (calls later : List Call) : (after calls).Keeps (after (calls ++ later)) := by
  induction later using List.reverseRecOn with
  | nil =>
    rw [List.append_nil]
    exact .refl _
  | append_singleton later c ih =>
    rw [← List.append_assoc, after_concat]
    exact ih.trans c.run_keeps

/-! ## What a type holds -/

/-- The handles whose types are stored inside a type of this handle, by value. -/
def inner (t : Table) (h : Handle) : List Handle :=
  match t.get h with
  | .array _ elem | .vector _ elem => [elem]
  | .struct _ fields => fields
  | .named id => ((t.bodyAt? id).map (·.fields)).getD []
  | .void | .int _ | .float _ | .ptr _ | .function _ _ _ => []

/-- The first type is the second, or the second is stored somewhere inside it. -/
def Holds (t : Table) : Handle → Handle → Prop := Relation.ReflTransGen fun a b => b ∈ t.inner a

/-- No struct in the nest of this type waits for its body. -/
def Resolved (t : Table) (a : Handle) : Prop := ∀ b, t.Holds a b → t.isOpaque b = false

theorem Resolved.inner (h : t.Resolved a) (hb : b ∈ t.inner a) : t.Resolved b :=
  fun c hc => h c (.head hb hc)

theorem Resolved.isOpaque (h : t.Resolved a) : t.isOpaque a = false := h a .refl

/-- The table is orderly, and bodies have fields of types that are stored. -/
structure Stocked (t : Table) : Prop extends Orderly t where
  fields : ∀ id body, t.bodyAt? id = some body → ∀ a ∈ body.fields, a.raw < t.size

theorem Stocked.inner_lt (ht : t.Stocked) (ha : a.raw < t.size) (hb : b ∈ t.inner a) : b.raw < t.size := by
  unfold Table.inner at hb
  have older : ∀ m, t.get a = m → b ∈ m.handles → b.raw < t.size := by
    intro m hm hb
    have hs : t.Stores a m := by
      have hget : t.types[a.raw]? = some t.types[a.raw] := Array.getElem?_eq_getElem ha
      simp only [get, hget, Option.getD_some] at hm
      rw [← hm]
      exact hget
    exact Nat.lt_trans (ht.descending a m hs b hb) ha
  cases hm : t.get a with
  | named id =>
    simp only [hm] at hb
    cases hbody : t.bodyAt? id with
    | none => simp [hbody] at hb
    | some body =>
      rw [hbody] at hb
      exact ht.fields id body hbody b hb
  | array len elem | vector len elem | struct packed fields =>
    simp only [hm] at hb
    exact older _ hm hb
  | _ => simp [hm] at hb

theorem bodyAt?_setBody {h : Handle} {body body' : StructBody} {id : Nat}
    (hb : (setBody h body t).2.bodyAt? id = some body') : t.bodyAt? id = some body' ∨ body' = body := by
  unfold setBody at hb
  split at hb
  case h_2 => exact .inl hb
  case h_1 id' hid =>
    simp only [bodyAt?, Array.getElem?_modify] at hb
    split at hb
    case isFalse => exact .inl hb
    case isTrue heq =>
      obtain ⟨n', hn', hb⟩ := Option.bind_eq_some_iff.1 hb
      obtain ⟨n, hn, rfl⟩ := Option.map_eq_some_iff.1 hn'
      split at hb
      · exact .inr (Option.some.inj hb).symm
      · exact .inl (Option.bind_eq_some_iff.2 ⟨n, hn, hb⟩)

/-- A call adds no bodies but the one that it names. -/
theorem Call.bodyAt?_run (c : Call) {id : Nat} {body : StructBody} (hb : (c.run t).2.bodyAt? id = some body) :
    t.bodyAt? id = some body ∨ ∀ a ∈ body.fields, a ∈ c.handles := by
  cases c with
  | setBody h new =>
    rcases bodyAt?_setBody hb with hb | rfl
    · exact .inl hb
    · exact .inr fun a ha => List.mem_cons_of_mem _ ha
  | declare stem =>
    left
    simp only [bodyAt?] at hb ⊢
    have hpush : ((Call.declare stem).run t).2.named = t.named.push ⟨stem, t.nextName stem, none⟩ := rfl
    rw [hpush, Array.getElem?_push] at hb
    split at hb
    · cases hb
    · exact hb
  | bytes len =>
    have hnamed : ((Call.bytes len).run t).2.named = t.named := (bytes_adds len).1.named_eq
    rw [bodyAt?, hnamed] at hb
    exact .inl hb
  | void | int bits | float kind | ptr space | array len elem | vector len elem | struct fields packed
  | function ret params varargs =>
    have interned : ∀ {m}, IsStructural m → (intern m t).2.bodyAt? id = some body → t.bodyAt? id = some body := by
      intro m hm hb
      rwa [bodyAt?, (intern_adds hm).1.named_eq] at hb
    exact .inl (interned (by trivial) hb)

theorem Stocked.run (ht : t.Stocked) (c : Call) (hc : ∀ a ∈ c.handles, a.raw < t.size) : (c.run t).2.Stocked := by
  obtain ⟨hgrows, -⟩ := c.run_grows hc
  have hsize : t.size ≤ (c.run t).2.size := by
    by_contra hlt
    have hlt : (c.run t).2.size < t.types.size := Nat.lt_of_not_le hlt
    have hlast : t.Stores ⟨(c.run t).2.size⟩ t.types[(c.run t).2.size] := Array.getElem?_eq_getElem hlt
    exact absurd (hgrows.types _ _ hlast).lt_size (Nat.lt_irrefl _)
  refine ⟨hgrows.orderly ht.toOrderly, fun id body hb a ha => ?_⟩
  refine Nat.lt_of_lt_of_le ?_ hsize
  rcases c.bodyAt?_run hb with hb | hfields
  · exact ht.fields id body hb a ha
  · exact hc a (hfields a ha)

theorem stocked_after {calls : List Call} (h : Admissible calls) : (after calls).Stocked := by
  induction h with
  | nil =>
    refine ⟨orderly_after .nil, fun id body hb => ?_⟩
    have hb : (none : Option StructBody) = some body := hb
    cases hb
  | concat h c hc ih =>
    rw [after_concat]
    exact ih.run c hc

/-! ## Layouts -/

theorem mapM_congr {f g : Handle → Option Layout} {hs : List Handle} (hfg : ∀ a ∈ hs, f a = g a) :
    hs.mapM f = hs.mapM g := by
  induction hs with
  | nil => rfl
  | cons a hs ih =>
    rw [List.mapM_cons, List.mapM_cons, hfg a List.mem_cons_self]
    simp only [ih fun b hb => hfg b (List.mem_cons_of_mem a hb)]

theorem exists_bodyAt? {id : Nat} (ht : t.WellFormed) (hs : t.Stores a (.named id)) (ho : t.isOpaque a = false) :
    ∃ body, t.bodyAt? id = some body := by
  have hid : id < t.named.size := ht.known a id hs
  have hn : t.named[id]? = some t.named[id] := Array.getElem?_eq_getElem hid
  simpa [isOpaque, namedStruct?, hs.get_eq, hn, Option.isNone_eq_false_iff, Option.isSome_iff_exists, bodyAt?] using ho

namespace Keeps

theorem get_eq_of_lt (h : t.Keeps t') (ha : a.raw < t.size) : t'.get a = t.get a := by
  have hs : t.Stores a t.types[a.raw] := Array.getElem?_eq_getElem ha
  rw [hs.get_eq, (h.types a _ hs).get_eq]

/-- Types whose nest has all bodies have the same layout within any number of levels. -/
theorem layoutWithin_eq (h : t.Keeps t') (ht : t.Stocked) (T : Target) (n : Nat) (ha : a.raw < t.size)
    (hres : t.Resolved a) : t'.layoutWithin T n a = t.layoutWithin T n a := by
  induction n generalizing a with
  | zero => rfl
  | succ n ih =>
    obtain ⟨m, hs⟩ : ∃ m, t.Stores a m := ⟨_, Array.getElem?_eq_getElem ha⟩
    have inside : ∀ b ∈ t.inner a, t'.layoutWithin T n b = t.layoutWithin T n b :=
      fun b hb => ih (ht.inner_lt ha hb) (hres.inner hb)
    rw [layoutWithin_succ, layoutWithin_succ, layoutStep, layoutStep, hs.get_eq, (h.types a m hs).get_eq]
    cases m with
    | array len elem =>
      have helem : elem ∈ t.inner a := by simp [inner, hs.get_eq]
      simp only [inside elem helem]
    | vector len elem =>
      have helem : elem.raw < t.size := ht.inner_lt ha (by simp [inner, hs.get_eq])
      have hget : t'.get elem = t.get elem := h.get_eq_of_lt helem
      simp only [scalarBits?, hget]
    | struct packed fields =>
      have hfields : fields = t.inner a := by simp [inner, hs.get_eq]
      simp only [hfields, mapM_congr inside]
    | named id =>
      obtain ⟨body, hb⟩ := exists_bodyAt? ht.toWellFormed hs hres.isOpaque
      have hfields : body.fields = t.inner a := by simp [inner, hs.get_eq, hb]
      simp only [hb, h.bodies id body hb, Option.bind_some, hfields, mapM_congr inside]
    | _ => rfl

/-- A type whose nest has all bodies goes on to have the layout that it has, or none. -/
theorem layoutOf_eq (h : t.Keeps t') (ht : t.Stocked) (T : Target) (ha : a.raw < t.size) (hres : t.Resolved a) :
    t'.layoutOf T a = t.layoutOf T a := by
  cases hl : t.layoutOf T a with
  | some l => exact h.layoutOf hl
  | none =>
    cases hl' : t'.layoutOf T a with
    | none => rfl
    | some l =>
      rw [Table.layoutOf_eq, h.layoutWithin_eq ht T _ ha hres] at hl'
      rw [layoutOf_of_within hl'] at hl
      cases hl

end Keeps

/-! ## What has been said -/

/-- The later table says of this handle what the earlier one has said, and adds a layout only if a body was missing. -/
structure Frozen (t t' : Table) (a : Handle) : Prop where
  get_eq : t'.get a = t.get a
  name?_eq : t'.name? a = t.name? a
  body?_eq : ∀ body, t.body? a = some body → t'.body? a = some body
  layoutOf_eq : ∀ T l, t.layoutOf T a = some l → t'.layoutOf T a = some l
  no_layout : t.Resolved a → ∀ T, t.layoutOf T a = none → t'.layoutOf T a = none

theorem Keeps.frozen (h : t.Keeps t') (ht : t.Stocked) (ha : a.raw < t.size) : t.Frozen t' a := by
  have hs : t.Stores a t.types[a.raw] := Array.getElem?_eq_getElem ha
  constructor
  · exact h.get_eq_of_lt ha
  · exact h.name?_eq ht.toWellFormed hs
  · intro body hb
    exact h.body? hb
  · intro T l hl
    exact h.layoutOf hl
  · intro hres T hl
    rw [h.layoutOf_eq ht T ha hres, hl]

/-- What is known of a handle stays as it is, whatever is called for afterwards. -/
theorem frozen_after {calls : List Call} (h : Admissible calls) (later : List Call) (ha : a.raw < (after calls).size) :
    (after calls).Frozen (after (calls ++ later)) a :=
  (keeps_after calls later).frozen (stocked_after h) ha

/-- A named struct without fields, one that has it as a field twice, and one that waits for its body. -/
def fieldCalls : List Call :=
  [.declare "Unit", .setBody ⟨0⟩ ⟨false, []⟩, .declare "Pair", .setBody ⟨1⟩ ⟨false, [⟨0⟩, ⟨0⟩]⟩, .declare "Pair"]

theorem admissible_fieldCalls : Admissible fieldCalls := by
  have hunit : Admissible ([] ++ [.declare "Unit"]) := .concat .nil _ (by decide)
  have hnone : Admissible (_ ++ [.setBody ⟨0⟩ ⟨false, []⟩]) := .concat hunit _ (by decide)
  have hpair : Admissible (_ ++ [.declare "Pair"]) := .concat hnone _ (by decide)
  have htwo : Admissible (_ ++ [.setBody ⟨1⟩ ⟨false, [⟨0⟩, ⟨0⟩]⟩]) := .concat hpair _ (by decide)
  exact .concat htwo (.declare "Pair") (by decide)

/-- A number, a second body, a body for the number and for an unknown handle, a first body, and a struct of all. -/
theorem frozen_after_fieldCalls : Admissible fieldCalls ∧ (⟨1⟩ : Handle).raw < (after fieldCalls).size ∧
    (after fieldCalls).Frozen (after (fieldCalls ++ [.int 32, .setBody ⟨1⟩ ⟨true, []⟩, .setBody ⟨3⟩ ⟨true, []⟩,
      .setBody ⟨9⟩ ⟨true, []⟩, .setBody ⟨2⟩ ⟨false, [⟨1⟩]⟩, .struct [⟨1⟩, ⟨2⟩, ⟨3⟩] false])) ⟨1⟩ :=
  ⟨admissible_fieldCalls, by decide, frozen_after admissible_fieldCalls _ (by decide)⟩

end MachineAbi.Table
