import MachineAbi.Proofs.Source.Identity

/-!
# Pools that grow

Further calls add types to a pool and fill in the fields of containers (`Pool.grown`). They never take a type away
(`Pool.size_le_grown`), and change none but the containers whose fields they define (`Pool.Stores.grown`).
-/

namespace MachineAbi

namespace Pool

variable {p : Pool} {t : TypeId} {d : Ty} {calls : List Call}

/-- The pool after further calls. -/
def grown (p : Pool) (calls : List Call) : Pool := calls.foldl (fun p c => (c.run p).2) p

theorem after_append (calls more : List Call) : after (calls ++ more) = (after calls).grown more := List.foldl_append

theorem size_le_run (p : Pool) (a : Action) : p.size ≤ (a.run p).2.size := by
  cases a with
  | intern d structural =>
    show p.size ≤ (p.intern d).2.size
    unfold intern
    split
    · exact Nat.le_refl _
    · simp [push, size]
  | declare => simp [Action.run, declare, push, size]
  | define => simp [Action.run, modify, size]

theorem size_le_grown (p : Pool) (calls : List Call) : p.size ≤ (p.grown calls).size := by
  induction calls generalizing p with
  | nil => exact Nat.le_refl _
  | cons c calls ih =>
    have hrun : p.size ≤ (c.run p).2.size := by
      rw [c.run_eq]
      exact size_le_run p c.action
    exact Nat.le_trans hrun (ih _)

/-- A type that no call revises stays as it is. -/
theorem Stores.grown (h : p.Stores t d) (hcalls : ∀ c ∈ calls, c.action.revise t d = d) :
    (p.grown calls).Stores t d := by
  induction calls generalizing p with
  | nil => exact h
  | cons c calls ih =>
    have hrun := h.run c.action
    rw [hcalls c List.mem_cons_self, ← c.run_eq] at hrun
    exact ih hrun fun c hc => hcalls c (List.mem_cons_of_mem _ hc)

/-- A type known by its structure stays as it is, whatever is called. -/
theorem Stores.grown_structural (h : p.Stores t d) (hd : d.isNominal = false) (calls : List Call) :
    (p.grown calls).Stores t d :=
  h.grown fun c _ => c.action.revise_structural hd

end Pool

end MachineAbi
