import Mathlib.Data.Fintype.Card
import Mathlib.Data.Fintype.EquivFin
import Mathlib.Order.FixedPoints
import MachineAbi.Source.Sealed

/-!
# Pools without circles can be sealed

A pool can be sealed exactly if the primitive types are at their places and no value contains a value of its own type
(`Pool.exists_sealed_iff`). So what holds of all sealed pools holds of all pools without circles.

* The depth of the types is found by recursion along containment, which is well-founded since a pool is finite
  (`Pool.Acyclic.wellFounded`).
* Whether types take room is more than containment decides: a packed union asks about its tag, an error union about its
  error half. There it is the least fact that obeys the rule, which exists since the rule is monotone
  (`le_infer_roomRule`).
-/

namespace MachineAbi

/-- What grows with each step grows along a chain of steps. -/
theorem lt_of_transGen {ι : Type} {r : ι → ι → Prop} (f : ι → Nat) (h : ∀ {c t}, r c t → f c < f t) {c t : ι}
    (hchain : Relation.TransGen r c t) : f c < f t := by
  induction hchain with
  | single hc => exact h hc
  | tail _ hc ih => exact Nat.lt_trans ih (h hc)

namespace Pool

/-- A value of type `t` contains one of type `c`, at any depth. -/
def Contains (p : Pool) (t c : TypeId) : Prop := Relation.TransGen (fun c t => c ∈ p.parts t) c t

/-- No value contains a value of its own type. -/
def Acyclic (p : Pool) : Prop := ∀ t, ¬p.Contains t t

variable {p : Pool}

/-! ## Containment in finite pools -/

theorem lt_size_of_mem_parts {t c : TypeId} (h : c ∈ p.parts t) : t.raw < p.size := by
  refine Nat.lt_of_not_le fun hle => ?_
  rw [parts, get_of_size_le hle] at h
  cases h

/-- Containment between types that the pool has handed out is well-founded, as they are finitely many. -/
theorem Acyclic.wellFounded_fin (h : p.Acyclic) : WellFounded fun i j : Fin p.size => p.Contains ⟨j⟩ ⟨i⟩ := by
  have htrans : IsTrans (Fin p.size) fun i j => p.Contains ⟨j⟩ ⟨i⟩ := ⟨fun _ _ _ hij hjk => hij.trans hjk⟩
  have hirrefl : Std.Irrefl fun i j : Fin p.size => p.Contains ⟨j⟩ ⟨i⟩ := ⟨fun i => h ⟨i⟩⟩
  exact Finite.wellFounded_of_trans_of_irrefl _

/-- Containment is well-founded where no value contains one of its own type. -/
theorem Acyclic.wellFounded (h : p.Acyclic) : WellFounded fun c t => c ∈ p.parts t := by
  have leaf : ∀ {t : TypeId}, p.size ≤ t.raw → Acc (fun c t => c ∈ p.parts t) t := by
    intro t ht
    exact Acc.intro t fun c hc => absurd (lt_size_of_mem_parts hc) (Nat.not_lt.2 ht)
  have known : ∀ i : Fin p.size, Acc (fun c t => c ∈ p.parts t) ⟨i⟩ := by
    intro i
    induction i using h.wellFounded_fin.induction with
    | _ i ih =>
    refine Acc.intro _ fun c hc => ?_
    by_cases hlt : c.raw < p.size
    · exact ih ⟨c.raw, hlt⟩ (Relation.TransGen.single hc)
    · exact leaf (Nat.le_of_not_lt hlt)
  refine ⟨fun t => ?_⟩
  by_cases ht : t.raw < p.size
  · exact known ⟨t.raw, ht⟩
  · exact leaf (Nat.le_of_not_lt ht)

/-- There are no circles where types are made of types that were handed out before them. -/
theorem acyclic_of_parts_lt (h : ∀ k, k < p.size → ∀ c ∈ p.parts ⟨k⟩, c.raw < k) : p.Acyclic := by
  have before : ∀ {c t : TypeId}, c ∈ p.parts t → c.raw < t.raw :=
    fun hc => h _ (lt_size_of_mem_parts hc) _ hc
  exact fun t ht => Nat.lt_irrefl _ (lt_of_transGen TypeId.raw before ht)

/-! ## Facts and tables -/

/-- A fact that obeys a rule can be tabulated. -/
theorem exists_table {α : Type} {r : Rule α} {known : TypeId → α} (h : r.Holds p known) :
    ∃ table, r.Holds p (r.lookUp table) := by
  refine ⟨(Array.range p.size).map fun k => known ⟨k⟩, ?_⟩
  have hlook : r.lookUp ((Array.range p.size).map fun k => known ⟨k⟩) = known := by
    funext t
    by_cases ht : t.raw < p.size
    · simp [Rule.lookUp, ht]
    · have ht := Nat.le_of_not_lt ht
      rw [h t, r.infer_of_size_le ht]
      exact r.lookUp_of_size_le (by simpa using ht)
  rw [hlook]
  exact h

theorem asksParts_heightRule : heightRule.AsksParts := by
  intro d f g h
  dsimp only [heightRule]
  generalize hcs : d.parts = cs at h
  clear hcs
  suffices hfold : ∀ n, cs.foldl (fun m c => max m (f c + 1)) n = cs.foldl (fun m c => max m (g c + 1)) n from hfold 0
  induction cs with
  | nil => exact fun n => rfl
  | cons c cs ih =>
    intro n
    rw [List.foldl_cons, List.foldl_cons, h c List.mem_cons_self]
    exact ih (fun d hd => h d (List.mem_cons_of_mem _ hd)) _

/-- A rule about parts is obeyed by the fact that recursion along containment gives. -/
theorem Acyclic.exists_holds {α : Type} {r : Rule α} (hr : r.AsksParts) (h : p.Acyclic) : ∃ known, r.Holds p known := by
  have hwf := h.wellFounded
  let step (t : TypeId) (known : ∀ c, c ∈ p.parts t → α) : α :=
    r.infer (fun c => if hc : c ∈ p.parts t then known c hc else r.initial) (p.get t)
  refine ⟨hwf.fix step, fun t => ?_⟩
  rw [hwf.fix_eq]
  exact hr _ _ _ fun c hc => dif_pos hc

/-! ## Room -/

/-- What takes room goes on to do so if more types do. -/
theorem le_infer_roomRule {f g : TypeId → Bool} (h : ∀ c, f c = true → g c = true) (d : Ty)
    (hd : roomRule.infer f d = true) : roomRule.infer g d = true := by
  have any : ∀ {cs : List TypeId}, cs.any f = true → cs.any g = true := by
    intro cs hcs
    obtain ⟨c, hc, hf⟩ := List.any_eq_true.1 hcs
    exact List.any_eq_true.2 ⟨c, hc, h c hf⟩
  cases d with
  | void | noreturn | comptime | opaqueType | function => exact hd
  | bool | float | pointer | optional | int | errorSet => exact hd
  | array len child sentinel =>
    obtain ⟨hn, hc⟩ := Bool.and_eq_true_iff.1 hd
    exact Bool.and_eq_true_iff.2 ⟨hn, h child hc⟩
  | vector len child =>
    obtain ⟨hn, hc⟩ := Bool.and_eq_true_iff.1 hd
    exact Bool.and_eq_true_iff.2 ⟨hn, h child hc⟩
  | errorUnion set payload =>
    rcases Bool.or_eq_true_iff.1 hd with hs | hp
    · exact Bool.or_eq_true_iff.2 (Or.inl (h set hs))
    · exact Bool.or_eq_true_iff.2 (Or.inr (h payload hp))
  | enum name tag variants => exact h tag hd
  | struct s => exact any hd
  | tuple fields => exact any hd
  | union u =>
    rcases Bool.or_eq_true_iff.1 hd with ht | hm
    · obtain ⟨tag, htag, hf⟩ := (Option.any_eq_true _ _).1 ht
      exact Bool.or_eq_true_iff.2 (Or.inl ((Option.any_eq_true _ _).2 ⟨tag, htag, h tag hf⟩))
    · exact Bool.or_eq_true_iff.2 (Or.inr (any hm))

theorem exists_rooms (p : Pool) : ∃ known, roomRule.Holds p known := by
  classical
  let infer : (TypeId → Prop) →o (TypeId → Prop) :=
    { toFun := fun roomy t => roomRule.infer (fun c => decide (roomy c)) (p.get t) = true
      monotone' := fun f g hfg t ht => le_infer_roomRule (fun c hc => by simpa using hfg c (by simpa using hc)) _ ht }
  refine ⟨fun t => decide (infer.lfp t), fun t => ?_⟩
  have hfix : infer infer.lfp t = infer.lfp t := congrFun infer.map_lfp t
  rw [Bool.eq_iff_iff, decide_eq_true_iff, ← hfix]
  rfl

end Pool

/-! ## Sealing -/

/-- A part of a part, and so on, is less deep than the whole. -/
theorem SealedPool.rank_lt_of_contains (P : SealedPool) {t c : TypeId} (h : P.Contains t c) : P.rank c < P.rank t :=
  lt_of_transGen P.rank (fun hc => P.rank_lt hc) h

/-- A pool can be sealed exactly if its primitive types are in place and no value contains one of its own type. -/
theorem Pool.exists_sealed_iff (p : Pool) : (∃ P : SealedPool, P.toPool = p) ↔ p.PrimitivesInPlace ∧ p.Acyclic := by
  constructor
  · rintro ⟨P, rfl⟩
    exact ⟨P.primitivesInPlace, fun t h => Nat.lt_irrefl _ (P.rank_lt_of_contains h)⟩
  · rintro ⟨hp, h⟩
    obtain ⟨height, hheight⟩ := h.exists_holds asksParts_heightRule
    obtain ⟨room, hroom⟩ := p.exists_rooms
    obtain ⟨heights, hheights⟩ := exists_table hheight
    obtain ⟨rooms, hrooms⟩ := exists_table hroom
    exact ⟨⟨p, hp, heights, hheights, rooms, hrooms⟩, rfl⟩

end MachineAbi
