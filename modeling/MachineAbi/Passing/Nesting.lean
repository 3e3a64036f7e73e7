import MachineAbi.Passing.Members

/-!
# Members of members

The members of an aggregate have members of their own, and so on. Where no value comes up again among them
(`Sizing.MembersNest`), there are at most as many levels as types.

- `Sizing.membersNest`: members nest if the error half of each error union has no parts, as error sets have none;
- `Sizing.levels`: a number of levels, at most that of the types (`Sizing.levels_le`), which is smaller for the members
  of a type than for the type (`Sizing.levels_lt`).
-/

namespace MachineAbi

theorem countP_lt_countP {α : Type} {p q : α → Bool} (hpq : ∀ a, p a = true → q a = true) {a : α} :
    ∀ {l : List α}, a ∈ l → p a = false → q a = true → l.countP p < l.countP q := by
  intro l
  induction l with
  | nil => exact fun h => nomatch h
  | cons b l ih =>
    intro h hp hq
    have hle : l.countP p ≤ l.countP q := List.countP_mono_left fun x _ => hpq x
    rw [List.countP_cons, List.countP_cons]
    rcases List.mem_cons.1 h with rfl | h
    · simp only [hp, hq]
      exact Nat.lt_of_le_of_lt hle (Nat.lt_succ_self _)
    · have hlt := ih h hp hq
      cases hb : p b with
      | true => simp only [hpq b hb]; omega
      | false => cases q b <;> simp <;> omega

namespace Sizing

/-- Members are less deep than the aggregate, for some measure of depth. -/
def MembersNest (Z : Sizing) (depth : TypeId → Nat) : Prop := ∀ t, ∀ m ∈ Z.members t, depth m.ty < depth t

/-- Members nest by rank, if error unions have error codes only as their error half. -/
theorem membersNest {Z : Sizing} (h : ∀ t set payload, Z.get t = .errorUnion set payload → Z.parts set = []) :
    Z.MembersNest Z.rank := by
  intro t m hm
  rcases rank_lt_of_mem_members hm with hlt | ⟨payload, he⟩
  · exact hlt
  · have hp : Z.rank payload < Z.rank t := Z.rank_lt_of_get he (by simp [Ty.parts])
    rw [Z.rank_of_leaf (h t m.ty payload he)]
    exact Nat.zero_lt_of_lt hp

/-- The number of types that are less deep than `t`. -/
def levels (Z : Sizing) (depth : TypeId → Nat) (t : TypeId) : Nat :=
  (List.range Z.size).countP fun k => depth ⟨k⟩ < depth t

theorem levels_le (Z : Sizing) (depth : TypeId → Nat) (t : TypeId) : Z.levels depth t ≤ Z.size := by
  simpa [levels] using List.countP_le_length (l := List.range Z.size)

theorem levels_lt {Z : Sizing} {depth : TypeId → Nat} {t c : TypeId} (hc : c.raw < Z.size) (h : depth c < depth t) :
    Z.levels depth c < Z.levels depth t := by
  refine countP_lt_countP (fun k hk => ?_) (List.mem_range.2 hc) (by simp) (by simpa using h)
  simp only [decide_eq_true_eq] at hk ⊢
  exact Nat.lt_trans hk h

end Sizing

end MachineAbi
