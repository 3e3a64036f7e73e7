import MachineAbi.Source.Pool

/-!
# Facts by rule

Some facts about a type follow from the same facts about the types it is made of. A `Rule` says how they follow, and a
table holds them for all types of a pool.

- `Rule.Holds`: a fact about every type that obeys the rule;
- `Rule.settle`: a table that is gone over until nothing changes;
- `Rule.Settled.holds`: a table in which nothing would change obeys the rule.
-/

namespace MachineAbi

/-- How a fact about a type follows from facts about other types. -/
structure Rule (α : Type) where
  /-- The fact about a type of which nothing is known yet. -/
  initial : α
  /-- The fact about a type, from those about others. -/
  infer : (TypeId → α) → Ty → α
  infer_void : ∀ known, infer known .void = initial

namespace Rule

variable {α : Type}

/-- A fact about every type of a pool that follows from itself by the rule. -/
def Holds (r : Rule α) (p : Pool) (known : TypeId → α) : Prop := ∀ t, known t = r.infer known (p.get t)

/-- The rule asks only about the parts of a type. -/
def AsksParts (r : Rule α) : Prop :=
  ∀ (d : Ty) (f g : TypeId → α), (∀ c ∈ d.parts, f c = g c) → r.infer f d = r.infer g d

/-! ## Tables -/

/-- The fact that a table holds about a type. -/
def lookUp (r : Rule α) (table : Array α) (t : TypeId) : α := table[t.raw]?.getD r.initial

/-- Infers the facts about the types at these positions, one after the other, from those that the table holds. -/
def refresh (r : Rule α) (p : Pool) (order : List Nat) (table : Array α) : Array α :=
  order.foldl (fun table k => table.setIfInBounds k (r.infer (r.lookUp table) (p.get ⟨k⟩))) table

/-- Refreshes a table until nothing changes, at most `n` times. -/
def settle [DecidableEq α] (r : Rule α) (p : Pool) (order : List Nat) : Nat → Array α → Array α
  | 0, table => table
  | n + 1, table =>
    let next := r.refresh p order table
    if next = table then table else r.settle p order n next

/-- A table of all types, in which nothing is left to infer. -/
def Settled (r : Rule α) (p : Pool) (table : Array α) : Prop :=
  table.size = p.size ∧ ∀ k, k < p.size → r.lookUp table ⟨k⟩ = r.infer (r.lookUp table) (p.get ⟨k⟩)

instance [DecidableEq α] (r : Rule α) (p : Pool) (table : Array α) : Decidable (r.Settled p table) :=
  inferInstanceAs (Decidable (_ ∧ ∀ k, k < _ → _))

theorem infer_of_size_le (r : Rule α) {p : Pool} {t : TypeId} (h : p.size ≤ t.raw) (known : TypeId → α) :
    r.infer known (p.get t) = r.initial := by
  rw [Pool.get_of_size_le h, r.infer_void]

theorem lookUp_of_size_le (r : Rule α) {table : Array α} {t : TypeId} (h : table.size ≤ t.raw) :
    r.lookUp table t = r.initial := by
  simp [lookUp, Array.getElem?_eq_none h]

theorem lookUp_setIfInBounds (r : Rule α) (table : Array α) (k : Nat) (a : α) (t : TypeId) :
    r.lookUp (table.setIfInBounds k a) t = if t.raw = k ∧ k < table.size then a else r.lookUp table t := by
  unfold lookUp
  rw [Array.getElem?_setIfInBounds]
  by_cases h : k = t.raw
  · subst h
    by_cases hk : t.raw < table.size <;> simp [hk]
  · rw [if_neg h, if_neg fun e => h e.1.symm]

theorem Settled.holds {r : Rule α} {p : Pool} {table : Array α} (h : r.Settled p table) :
    r.Holds p (r.lookUp table) := by
  intro t
  by_cases ht : t.raw < p.size
  · exact h.2 t.raw ht
  · have ht := Nat.le_of_not_lt ht
    rw [r.infer_of_size_le ht, r.lookUp_of_size_le (h.1 ▸ ht)]

end Rule

end MachineAbi
