import Mathlib.Logic.Function.Basic

/-!
# Items and their index

A `Store` hands out positions. Beside the items it keeps an index, which saves a search where an item is to be stored
once (`Store.intern`). Other items are added without a look at the index (`Store.push`), and may be changed in place
behind its back (`Store.modify`).

The index is exact (`Store.Exact`) if it leads from each shared item to its position, and to nothing else. It stays
exact as long as what is changed in place is not shared, and does not become so. Then a shared item is stored once
(`Exact.unique`), and the index answers as a search would (`Exact.index_eq`).
-/

namespace MachineAbi

structure Store (α : Type) where
  items : Array α
  index : α → Option Nat

namespace Store

variable {α : Type}

def empty : Store α := ⟨#[], fun _ => none⟩

/-- Adds an item at a fresh position. -/
def push (s : Store α) (a : α) : Nat × Store α := (s.items.size, { s with items := s.items.push a })

/-- The position of a shared item, which is added the first time. -/
def intern [DecidableEq α] (s : Store α) (a : α) : Nat × Store α :=
  match s.index a with
  | some i => (i, s)
  | none => (s.items.size, ⟨s.items.push a, Function.update s.index a (some s.items.size)⟩)

theorem intern_of_index [DecidableEq α] {s : Store α} {a : α} {i : Nat} (h : s.index a = some i) :
    s.intern a = (i, s) := by
  rw [intern, h]

theorem intern_of_new [DecidableEq α] {s : Store α} {a : α} (h : s.index a = none) :
    s.intern a = (s.items.size, ⟨s.items.push a, Function.update s.index a (some s.items.size)⟩) := by
  rw [intern, h]

/-- Changes the item at a position, and nothing else. -/
def modify (s : Store α) (i : Nat) (f : α → α) : Store α := { s with items := s.items.modify i f }

/-- The index leads from each shared item to its position, and to nothing else. -/
def Exact (s : Store α) (shared : α → Prop) : Prop := ∀ a i, s.index a = some i ↔ shared a ∧ s.items[i]? = some a

theorem getElem?_push_eq_some {items : Array α} {a b : α} {i : Nat} :
    (items.push b)[i]? = some a ↔ items[i]? = some a ∨ i = items.size ∧ a = b := by
  rw [Array.getElem?_push]
  by_cases hi : i = items.size
  · have hnone : items[i]? = none := Array.getElem?_eq_none (Nat.le_of_eq hi.symm)
    simp [hi, eq_comm]
  · simp [hi]

theorem getElem?_of_idxOf? [DecidableEq α] {items : Array α} {a : α} {i : Nat} (h : items.idxOf? a = some i) :
    items[i]? = some a := by
  rw [Array.idxOf?_eq_map_finIdxOf?_val] at h
  obtain ⟨k, hk, rfl⟩ := Option.map_eq_some_iff.1 h
  exact Array.getElem?_eq_some_iff.2 ⟨k.2, (Array.finIdxOf?_eq_some_iff.1 hk).1⟩

namespace Exact

variable {s : Store α} {shared : α → Prop} {a b : α} {i j : Nat}

protected theorem empty : (empty : Store α).Exact shared := by
  intro a i
  simp [Store.empty]

/-- A shared item is stored once. -/
theorem unique (h : s.Exact shared) (ha : shared a) (hi : s.items[i]? = some a) (hj : s.items[j]? = some a) : i = j := by
  have hindex : s.index a = some i := (h a i).2 ⟨ha, hi⟩
  rw [(h a j).2 ⟨ha, hj⟩] at hindex
  exact (Option.some.inj hindex).symm

/-- What is not in the index is not stored, if it is shared. -/
theorem not_stored (h : s.Exact shared) (ha : shared a) (hn : s.index a = none) : s.items[i]? ≠ some a := by
  intro hi
  rw [(h a i).2 ⟨ha, hi⟩] at hn
  cases hn

/-- The index answers as a search from the first item on would. -/
theorem index_eq [DecidableEq α] (h : s.Exact shared) (ha : shared a) : s.index a = s.items.idxOf? a := by
  cases hf : s.items.idxOf? a with
  | some k => exact (h a k).2 ⟨ha, getElem?_of_idxOf? hf⟩
  | none =>
    cases hi : s.index a with
    | none => rfl
    | some i =>
      have hmem : a ∈ s.items := Array.mem_of_getElem? ((h a i).1 hi).2
      exact absurd hmem (Array.idxOf?_eq_none_iff.1 hf)

/-! ## Steps -/

theorem push (h : s.Exact shared) (hb : ¬shared b) : (s.push b).2.Exact shared := by
  intro a i
  show s.index a = some i ↔ shared a ∧ (s.items.push b)[i]? = some a
  rw [h a i, getElem?_push_eq_some]
  constructor
  · rintro ⟨ha, hi⟩
    exact ⟨ha, Or.inl hi⟩
  · rintro ⟨ha, hi | ⟨-, rfl⟩⟩
    · exact ⟨ha, hi⟩
    · exact absurd ha hb

theorem intern [DecidableEq α] (h : s.Exact shared) (hb : shared b) :
    (s.intern b).2.Exact shared ∧ (s.intern b).2.items[(s.intern b).1]? = some b := by
  cases hi : s.index b with
  | some i =>
    rw [intern_of_index hi]
    exact ⟨h, ((h b i).1 hi).2⟩
  | none =>
    rw [intern_of_new hi]
    constructor
    · intro a i
      show Function.update s.index b (some s.items.size) a = some i ↔ shared a ∧ (s.items.push b)[i]? = some a
      rw [getElem?_push_eq_some]
      by_cases hab : a = b
      · subst hab
        rw [Function.update_self, Option.some.injEq]
        constructor
        · rintro rfl
          exact ⟨hb, Or.inr ⟨rfl, rfl⟩⟩
        · rintro ⟨-, hstored | ⟨rfl, -⟩⟩
          · exact absurd hstored (h.not_stored hb hi)
          · rfl
      · rw [Function.update_of_ne hab, h a i]
        simp [hab]
    · exact getElem?_push_eq_some.2 (Or.inr ⟨rfl, rfl⟩)

/-- Items that are not shared can be changed, as long as they do not become so. -/
theorem modify (h : s.Exact shared) {f : α → α} (hf : ∀ a, f a = a ∨ ¬shared a ∧ ¬shared (f a)) (k : Nat) :
    (s.modify k f).Exact shared := by
  intro a i
  show s.index a = some i ↔ shared a ∧ (s.items.modify k f)[i]? = some a
  rw [h a i, Array.getElem?_modify]
  by_cases hk : k = i
  · rw [if_pos hk]
    cases hi : s.items[i]? with
    | none => rfl
    | some b =>
      rcases hf b with hb | ⟨hb, hfb⟩
      · rw [Option.map_some, hb]
      · constructor
        · rintro ⟨ha, heq⟩
          obtain rfl := Option.some.inj heq
          exact absurd ha hb
        · rintro ⟨ha, heq⟩
          obtain rfl := Option.some.inj heq
          exact absurd ha hfb
  · rw [if_neg hk]

end Exact

/-- Shared items of a list without repetitions get the positions that they have in the list. -/
theorem exact_foldl_intern [DecidableEq α] {shared : α → Prop} {as : List α} (hs : ∀ a ∈ as, shared a) (hn : as.Nodup)
    {s : Store α} (h : s.Exact shared) (hnew : ∀ a ∈ as, a ∉ s.items) :
    (as.foldl (fun s a => (s.intern a).2) s).Exact shared ∧
      (as.foldl (fun s a => (s.intern a).2) s).items = s.items ++ as.toArray := by
  induction as generalizing s with
  | nil => exact ⟨h, by simp⟩
  | cons a as ih =>
    obtain ⟨ha, hn⟩ := List.nodup_cons.1 hn
    have hindex : s.index a = none := by
      cases hi : s.index a with
      | none => rfl
      | some i => exact absurd (Array.mem_of_getElem? ((h a i).1 hi).2) (hnew a List.mem_cons_self)
    have hitems : (s.intern a).2.items = s.items.push a := by rw [intern_of_new hindex]
    have hrest : ∀ b ∈ as, b ∉ (s.intern a).2.items := by
      intro b hb
      rw [hitems, Array.mem_push]
      rintro (hmem | rfl)
      · exact hnew b (List.mem_cons_of_mem _ hb) hmem
      · exact ha hb
    obtain ⟨hexact, heq⟩ := ih (fun b hb => hs b (List.mem_cons_of_mem _ hb)) hn (h.intern (hs a List.mem_cons_self)).1
      hrest
    refine ⟨hexact, heq.trans ?_⟩
    rw [hitems]
    simp

end Store

end MachineAbi
