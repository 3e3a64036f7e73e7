import MachineAbi.Proofs.Machine.Reading
import MachineAbi.Proofs.Machine.Sharing

/-!
# Handles are told by the text of their types

Handles of a table have the same text only if they are the same, unless named structs are in it
(`Table.text_eq_iff`): a named struct is written as its name, which it can share with another.

The text tells the tree of a handle (`TypeTree.text_inj`), and the tree tells the handle (`Table.tree_inj`), as types
known by their structure are stored once and are made of older ones.
-/

namespace MachineAbi

/-- A list is told by the values of a function that tells its members. -/
theorem eq_of_map_eq {α β : Type} {f : α → β} {as bs : List α} (hf : ∀ a ∈ as, ∀ b ∈ bs, f a = f b → a = b)
    (h : as.map f = bs.map f) : as = bs := by
  induction as generalizing bs with
  | nil => exact (List.map_eq_nil_iff.1 h.symm).symm
  | cons a as ih =>
    cases bs with
    | nil => cases h
    | cons b bs =>
      obtain ⟨hhead, htail⟩ := List.cons.inj h
      have heads : a = b := hf a List.mem_cons_self b List.mem_cons_self hhead
      have tails : as = bs :=
        ih (fun c hc d hd => hf c (List.mem_cons_of_mem _ hc) d (List.mem_cons_of_mem _ hd)) htail
      rw [heads, tails]

namespace Table

variable {t : Table} {f g : Handle → TypeTree} {m m' : MachineType} {a b : Handle}

/-! ## Trees -/

theorem stores_get (ha : a.raw < t.size) : t.Stores a (t.get a) := by
  rw [Stores, get, Array.getElem?_eq_getElem ha]
  rfl

/-- The tree of a type with these trees for the handles in it. -/
def treeOf (t : Table) (f : Handle → TypeTree) : MachineType → TypeTree
  | .void => .void
  | .int bits => .int bits
  | .float kind => .float kind
  | .ptr space => .ptr space
  | .array len elem => .array len (f elem)
  | .vector len elem => .vector len (f elem)
  | .struct packed fields => .struct packed (fields.map f)
  | .named id => .named ((t.named[id]?.map (·.name)).getD "")
  | .function ret params varargs => .function (f ret) (params.map f) varargs

theorem treeOf_congr (h : ∀ a ∈ m.handles, f a = g a) : t.treeOf f m = t.treeOf g m := by
  cases m with
  | void | int _ | float _ | ptr _ | named _ => rfl
  | array len elem | vector len elem => rw [treeOf, treeOf, h elem (List.mem_singleton_self _)]
  | struct packed fields =>
    have hfields : fields.map f = fields.map g := List.map_congr_left h
    rw [treeOf, treeOf, hfields]
  | function ret params varargs =>
    have hparams : params.map f = params.map g := List.map_congr_left fun a ha => h a (List.mem_cons_of_mem _ ha)
    rw [treeOf, treeOf, h ret List.mem_cons_self, hparams]

theorem treeBelow_succ (t : Table) (n : Nat) (a : Handle) :
    t.treeBelow (n + 1) a = t.treeOf (t.treeBelow n) (t.get a) := by
  rw [treeBelow]
  cases t.get a <;> rfl

/-- As the handles inside a type are older, nothing of it is cut off. -/
theorem treeBelow_eq (hd : t.Descending) (ha : a.raw < t.size) {n k : Nat} (hn : a.raw < n) (hk : a.raw < k) :
    t.treeBelow n a = t.treeBelow k a := by
  induction n generalizing a k with
  | zero => exact absurd hn (Nat.not_lt_zero _)
  | succ n ih =>
    obtain ⟨k, rfl⟩ := Nat.exists_eq_succ_of_ne_zero (Nat.ne_zero_of_lt hk)
    rw [treeBelow_succ, treeBelow_succ]
    refine treeOf_congr fun c hc => ?_
    have hlt := hd a _ (stores_get ha) c hc
    exact ih (by omega) (by omega) (by omega)

theorem tree_eq (hd : t.Descending) (hs : t.Stores a m) : t.tree a = t.treeOf t.tree m := by
  rw [tree, treeBelow_succ, hs.get_eq]
  refine treeOf_congr fun c hc => ?_
  have hlt := hd a _ hs c hc
  have hsize := hs.lt_size
  exact treeBelow_eq hd (by omega) hlt (Nat.lt_succ_self _)

/-! ## Handles -/

theorem isNameless_of_mem_handles (hn : (t.treeOf f m).isNameless = true) (ha : a ∈ m.handles) :
    (f a).isNameless = true := by
  cases m with
  | void | int _ | float _ | ptr _ | named _ => cases ha
  | array len elem | vector len elem =>
    obtain rfl := List.mem_singleton.1 ha
    simpa only [treeOf, TypeTree.isNameless] using hn
  | struct packed fields =>
    simp only [treeOf, TypeTree.isNameless, TypeTree.areNameless_iff] at hn
    exact hn _ (List.mem_map_of_mem ha)
  | function ret params varargs =>
    simp only [treeOf, TypeTree.isNameless, Bool.and_eq_true, TypeTree.areNameless_iff] at hn
    rcases List.mem_cons.1 ha with rfl | ha
    · exact hn.1
    · exact hn.2 _ (List.mem_map_of_mem ha)

/-- A type without named structs is told by its tree, if the handles in it are. -/
theorem eq_of_treeOf_eq (hn : (t.treeOf f m).isNameless = true) (h : t.treeOf f m = t.treeOf f m')
    (hf : ∀ a ∈ m.handles, ∀ b ∈ m'.handles, f a = f b → a = b) : m = m' := by
  cases m <;> cases m' <;> simp only [treeOf, reduceCtorEq] at h
  case void.void => rfl
  case int.int => rw [TypeTree.int.inj h]
  case float.float => rw [TypeTree.float.inj h]
  case ptr.ptr => rw [TypeTree.ptr.inj h]
  case named.named => simp [treeOf, TypeTree.isNameless] at hn
  case array.array =>
    obtain ⟨hlen, helem⟩ := TypeTree.array.inj h
    rw [hlen, hf _ (List.mem_singleton_self _) _ (List.mem_singleton_self _) helem]
  case vector.vector =>
    obtain ⟨hlen, helem⟩ := TypeTree.vector.inj h
    rw [hlen, hf _ (List.mem_singleton_self _) _ (List.mem_singleton_self _) helem]
  case struct.struct =>
    obtain ⟨hpacked, hfields⟩ := TypeTree.struct.inj h
    exact congrArg₂ MachineType.struct hpacked (eq_of_map_eq hf hfields)
  case function.function =>
    obtain ⟨hret, hparams, hvarargs⟩ := TypeTree.function.inj h
    rw [hvarargs, hf _ List.mem_cons_self _ List.mem_cons_self hret,
      eq_of_map_eq (fun a ha b hb => hf a (List.mem_cons_of_mem _ ha) b (List.mem_cons_of_mem _ hb)) hparams]

/-- The tree of a handle tells the handle, if it has no named structs in it. -/
theorem tree_inj (ht : t.Orderly) (ha : a.raw < t.size) (hb : b.raw < t.size) (hn : (t.tree a).isNameless = true)
    (h : t.tree a = t.tree b) : a = b := by
  obtain ⟨n, hraw⟩ : ∃ n, a.raw = n := ⟨_, rfl⟩
  induction n using Nat.strong_induction_on generalizing a b with
  | _ n ih =>
    subst hraw
    have hsa := stores_get ha
    have hsb := stores_get hb
    rw [tree_eq ht.descending hsa] at hn h
    rw [tree_eq ht.descending hsb] at h
    have hm : t.get a = t.get b := by
      refine eq_of_treeOf_eq hn h fun c hc d hd heq => ?_
      have hclt := ht.descending a _ hsa c hc
      have hdlt := ht.descending b _ hsb d hd
      exact ih c.raw hclt (by omega) (by omega) (isNameless_of_mem_handles (a := c) hn hc) heq rfl
    exact ht.distinct a b _ hsa (hm ▸ hsb)

/-- Handles without named structs have the same text only if they are the same. -/
theorem text_eq_iff {calls : List Call} (h : Admissible calls) {a b : Handle} (ha : a.raw < (after calls).size)
    (hb : b.raw < (after calls).size) (hn : ((after calls).tree a).isNameless = true) :
    (after calls).text a = (after calls).text b ↔ a = b := by
  constructor
  · intro htext
    exact tree_inj (orderly_after h) ha hb hn (TypeTree.text_inj hn htext)
  · rintro rfl
    rfl

/-- A function, and one that returns such a function. -/
def curriedCalls : List Call :=
  [.int 32, .ptr 0, .function ⟨0⟩ [⟨1⟩] false, .function ⟨2⟩ [⟨0⟩, ⟨1⟩] true]

theorem admissible_curriedCalls : Admissible curriedCalls := by
  have hint : Admissible ([] ++ [.int 32]) := .concat .nil _ (by decide)
  have hptr : Admissible (_ ++ [.ptr 0]) := .concat hint _ (by decide)
  have hinner : Admissible (_ ++ [.function ⟨0⟩ [⟨1⟩] false]) := .concat hptr _ (by decide +kernel)
  exact .concat hinner (.function ⟨2⟩ [⟨0⟩, ⟨1⟩] true) (by decide +kernel)

theorem text_curriedCalls_ne : (after curriedCalls).text ⟨2⟩ ≠ (after curriedCalls).text ⟨3⟩ := by
  have hsize : 3 < (after curriedCalls).size := by decide +kernel
  have hn : ((after curriedCalls).tree ⟨2⟩).isNameless = true := by decide +kernel
  have hiff := text_eq_iff admissible_curriedCalls (a := ⟨2⟩) (b := ⟨3⟩) (by decide +kernel) hsize hn
  exact fun heq => absurd (hiff.1 heq) (by decide)

end Table

end MachineAbi
