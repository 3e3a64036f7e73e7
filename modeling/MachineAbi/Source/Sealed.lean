import MachineAbi.Source.Rule

/-!
# Sealed pools

A value cannot contain a value of its own type: by-value containment has no cycles, although pointers may point in
circles. A `SealedPool` is a pool of which this is known, so that questions about a type can be answered by recursion
on its parts.

- `SealedPool.rank` grows from each part to its whole (`SealedPool.rank_lt`), and every recursion on the parts of a
  type ends by it;
- `SealedPool.induction_on_parts`: what passes from the parts of each type to the type holds of all types;
- `SealedPool.solve`: the fact that obeys a rule about parts (`SealedPool.holds_solve`), and `SealedPool.tabulate` a
  table of it (`SealedPool.lookUp_tabulate`);
- `Pool.seal?` decides whether a pool can be sealed.
-/

namespace MachineAbi

/-! ## What is known of a sealed pool -/

/-- How deep values nest: one level more than in the deepest part. -/
def heightRule : Rule Nat where
  initial := 0
  infer height d := d.parts.foldl (fun h c => max h (height c + 1)) 0
  infer_void _ := rfl

/-- Whether values take any room. An optional always does, an error union if one of its halves does, and a union if its
tag or a member does. -/
def roomRule : Rule Bool where
  initial := false
  infer room
    | .void | .noreturn | .comptime | .opaqueType _ | .function _ => false
    | .bool | .float _ | .pointer _ | .optional _ => true
    | .int bits _ => 0 < bits
    | .array len child sentinel => elementCount len sentinel ≠ 0 && room child
    | .vector len child => len ≠ 0 && room child
    | .errorSet set => set.hasBits
    | .errorUnion set payload => room set || room payload
    | .enum _ tag _ => room tag
    | .struct s => s.stored.any room
    | .tuple fields => (storedTypes fields).any room
    | .union u => u.usedTag?.any room || u.memberTypes.any room
  infer_void _ := rfl

/-- The primitive types are at their places. -/
def Pool.PrimitivesInPlace (p : Pool) : Prop := ∀ k, k < TypeId.primitiveCount → p.items[k]? = primitiveTypes[k]?

instance (p : Pool) : Decidable p.PrimitivesInPlace := inferInstanceAs (Decidable (∀ k, k < _ → _))

/-- A pool whose values have finite size, with the depth of each type and whether it takes room. -/
structure SealedPool extends Pool where
  primitivesInPlace : toPool.PrimitivesInPlace
  heights : Array Nat
  heights_hold : heightRule.Holds toPool (heightRule.lookUp heights)
  rooms : Array Bool
  rooms_hold : roomRule.Holds toPool (roomRule.lookUp rooms)

theorem le_foldl_max {β : Type} (f : β → Nat) {b : β} :
    ∀ {l : List β} {a : Nat}, b ∈ l → f b ≤ l.foldl (fun m b => max m (f b)) a := by
  have le_fold : ∀ (l : List β) (a : Nat), a ≤ l.foldl (fun m b => max m (f b)) a := by
    intro l
    induction l with
    | nil => exact fun a => Nat.le_refl a
    | cons c l ih => exact fun a => Nat.le_trans (Nat.le_max_left _ _) (ih _)
  intro l
  induction l with
  | nil => exact fun h => nomatch h
  | cons c l ih =>
    intro a h
    rcases List.mem_cons.1 h with rfl | h
    · exact Nat.le_trans (Nat.le_max_right _ _) (le_fold l _)
    · exact ih h

namespace SealedPool

/-- How deep values nest inside a value of type `t`; zero exactly for types without parts. -/
def rank (P : SealedPool) (t : TypeId) : Nat := heightRule.lookUp P.heights t

theorem rank_eq (P : SealedPool) (t : TypeId) :
    P.rank t = (P.parts t).foldl (fun h c => max h (P.rank c + 1)) 0 := P.heights_hold t

theorem rank_lt (P : SealedPool) {t c : TypeId} (h : c ∈ P.parts t) : P.rank c < P.rank t := by
  rw [P.rank_eq t]
  exact le_foldl_max (fun c => P.rank c + 1) h

theorem rank_of_leaf (P : SealedPool) {t : TypeId} (h : P.parts t = []) : P.rank t = 0 := by
  rw [P.rank_eq t, h, List.foldl_nil]

theorem mem_parts {P : SealedPool} {t c : TypeId} {d : Ty} (hd : P.get t = d) (hc : c ∈ d.parts) :
    c ∈ P.parts t := by
  rw [Pool.parts, hd]
  exact hc

theorem rank_lt_of_get {P : SealedPool} {t c : TypeId} {d : Ty} (hd : P.get t = d) (hc : c ∈ d.parts) :
    P.rank c < P.rank t :=
  P.rank_lt (mem_parts hd hc)

/-- Induction along by-value containment. -/
theorem induction_on_parts (P : SealedPool) {motive : TypeId → Prop}
    (step : ∀ t, (∀ c ∈ P.parts t, motive c) → motive t) (t : TypeId) : motive t :=
  step t fun c _ => P.induction_on_parts step c
termination_by P.rank t
decreasing_by exact P.rank_lt ‹_›

/-- A primitive type is at its place. -/
theorem get_primitive (P : SealedPool) {k : Nat} {d : Ty} (hk : k < TypeId.primitiveCount)
    (hd : primitiveTypes[k]? = some d) : P.get ⟨k⟩ = d := by
  simp [Pool.get, P.primitivesInPlace k hk, hd]

theorem get_u8 (P : SealedPool) : P.get .u8 = .int 8 .unsigned := P.get_primitive (by decide) rfl

/-! ## Rules about parts -/

variable {α : Type}

/-- The fact that follows by a rule from the facts about the parts of a type. -/
def solve (P : SealedPool) (r : Rule α) (t : TypeId) : α :=
  r.infer (fun c => if _h : c ∈ P.parts t then P.solve r c else r.initial) (P.get t)
termination_by P.rank t
decreasing_by exact P.rank_lt _h

theorem holds_solve (P : SealedPool) {r : Rule α} (hr : r.AsksParts) : r.Holds P.toPool (P.solve r) := by
  intro t
  rw [solve]
  exact hr _ _ _ fun c hc => dif_pos hc

/-- The positions of the types, parts before wholes. -/
def byHeight (P : SealedPool) : List Nat := (List.range P.size).mergeSort fun i j => P.rank ⟨i⟩ ≤ P.rank ⟨j⟩

/-- The facts that follow by a rule about parts, each inferred once. -/
def tabulate (P : SealedPool) (r : Rule α) : Array α :=
  r.refresh P.toPool P.byHeight (Array.replicate P.size r.initial)

/-- Where the parts of each type come before it or are known already, one refreshing makes everything known. -/
theorem lookUp_refresh (P : SealedPool) {r : Rule α} (hr : r.AsksParts) (known : Nat → Prop) :
    ∀ {order : List Nat} {table : Array α}, table.size = P.size →
      order.Pairwise (fun i j => P.rank ⟨i⟩ ≤ P.rank ⟨j⟩) → (∀ k, k < P.size → k ∈ order ∨ known k) →
      (∀ k, known k → r.lookUp table ⟨k⟩ = P.solve r ⟨k⟩) →
      r.lookUp (r.refresh P.toPool order table) = P.solve r := by
  intro order
  induction order generalizing known with
  | nil =>
    intro table hsize _ hall hknown
    funext t
    by_cases ht : t.raw < P.size
    · exact hknown t.raw ((hall t.raw ht).resolve_left List.not_mem_nil)
    · have ht := Nat.le_of_not_lt ht
      rw [P.holds_solve hr t, r.infer_of_size_le ht]
      exact r.lookUp_of_size_le (hsize ▸ ht)
  | cons k order ih =>
    intro table hsize hsorted hall hknown
    have hsorted := List.pairwise_cons.1 hsorted
    have hparts : ∀ c ∈ (P.get ⟨k⟩).parts, r.lookUp table c = P.solve r c := by
      intro c hc
      have hlt : P.rank c < P.rank ⟨k⟩ := P.rank_lt hc
      by_cases hn : c.raw < P.size
      · rcases hall c.raw hn with h | h
        · rcases List.mem_cons.1 h with h | h
          · exact absurd hlt (by rw [← h]; exact Nat.lt_irrefl _)
          · exact absurd hlt (Nat.not_lt.2 (hsorted.1 c.raw h))
        · exact hknown c.raw h
      · have hn := Nat.le_of_not_lt hn
        rw [P.holds_solve hr c, r.infer_of_size_le hn, r.lookUp_of_size_le (hsize ▸ hn)]
    have hk : r.infer (r.lookUp table) (P.get ⟨k⟩) = P.solve r ⟨k⟩ := by
      rw [P.holds_solve hr ⟨k⟩]
      exact hr _ _ _ hparts
    refine ih (fun i => known i ∨ i = k) (by rw [Array.size_setIfInBounds]; exact hsize) hsorted.2 (fun i hi => ?_)
      (fun i hi => ?_)
    · rcases hall i hi with h | h
      · rcases List.mem_cons.1 h with h | h
        · exact Or.inr (Or.inr h)
        · exact Or.inl h
      · exact Or.inr (Or.inl h)
    · dsimp only
      rw [r.lookUp_setIfInBounds, hk]
      split
      · rename_i h
        exact h.1 ▸ rfl
      · rename_i h
        rcases hi with hi | hi
        · exact hknown i hi
        · have hi : P.size ≤ i := Nat.le_of_not_lt fun hlt => h ⟨hi, by rw [hsize, ← hi]; exact hlt⟩
          rw [P.holds_solve hr ⟨i⟩, r.infer_of_size_le hi, r.lookUp_of_size_le (hsize ▸ hi)]

theorem lookUp_tabulate (P : SealedPool) {r : Rule α} (hr : r.AsksParts) :
    r.lookUp (P.tabulate r) = P.solve r := by
  refine P.lookUp_refresh hr (fun _ => False) Array.size_replicate ?_ (fun k hk => Or.inl ?_) fun _ h => h.elim
  · have sorted : P.byHeight.Pairwise fun i j => decide (P.rank ⟨i⟩ ≤ P.rank ⟨j⟩) = true :=
      List.pairwise_mergeSort
        (fun i j k hij hjk => by simp only [decide_eq_true_eq] at *; exact Nat.le_trans hij hjk)
        (fun i j => by simp only [Bool.or_eq_true, decide_eq_true_eq]; exact Nat.le_total _ _) (List.range P.size)
    exact sorted.imp fun h => of_decide_eq_true h
  · exact List.mem_mergeSort.2 (List.mem_range.2 hk)

end SealedPool

/-! ## Deciding -/

namespace Pool

/-- Settles a table for all types of a pool, going over it backwards and forwards. No fact has to pass through more
types than there are. -/
def settled {α : Type} [DecidableEq α] (p : Pool) (r : Rule α) : Array α :=
  let order := List.range p.size
  r.settle p (order.reverse ++ order) (p.size + 1) (Array.replicate p.size r.initial)

/-- Seals a pool, unless a type contains itself. -/
def seal? (p : Pool) : Option SealedPool :=
  let heights := p.settled heightRule
  let rooms := p.settled roomRule
  if hp : p.PrimitivesInPlace then
    if hh : heightRule.Settled p heights then
      if hr : roomRule.Settled p rooms then
        some { p with
          primitivesInPlace := hp
          heights := heights
          heights_hold := hh.holds
          rooms := rooms
          rooms_hold := hr.holds }
      else none
    else none
  else none

end Pool

end MachineAbi
