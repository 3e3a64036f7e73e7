import Mathlib.Logic.Function.Iterate
import MachineAbi.Proofs.Source.Sealing

/-!
# Recursion along containment

Where no type is made of itself by value (`Pool.WellNested`), recursion from a type to those that it is made of ends, at
most as many levels deep as there are types (`Pool.WellNested.endsWithin`). Pointers and functions may
lead back, since nothing is made of what they lead to.

* `EndsWithin`: what it means for a recursion to end, which is not deeper than some number of calls;
* `Pool.WellNested.exists_seal?`: a pool is sealed, as its facts are settled before the number of rounds is used up. In each
  round the facts about one more level are right for good (`Rule.RightBelow.refresh`), in whatever order they are
  refreshed.
-/

namespace MachineAbi

/-! ## Recursions that end -/

section

variable {ι α : Type} {n : Nat} {calls : ι → ι → Prop} {step : (ι → α) → ι → α} {f : ι → α}

/-- The recursion `step`, which calls itself along `calls`, ends within `n` levels and gives `f`. -/
structure EndsWithin (n : Nat) (calls : ι → ι → Prop) (step : (ι → α) → ι → α) (f : ι → α) : Prop where
  /-- There is no endless chain of calls. -/
  wellFounded : WellFounded calls
  /-- A step depends on nothing but what it calls. -/
  asks : ∀ g g' i, (∀ j, calls j i → g j = g' j) → step g i = step g' i
  eq : ∀ i, f i = step f i
  /-- Whatever would come back from below level `n`, the result is the same. -/
  iterate : ∀ g, step^[n] g = f

/-- A recursion ends if it goes from each level to lower ones. -/
theorem EndsWithin.of_level (level : ι → Nat) (hlevel : ∀ j i, calls j i → level j < level i) (hn : ∀ i, level i < n)
    (asks : ∀ g g' i, (∀ j, calls j i → g j = g' j) → step g i = step g' i) (eq : ∀ i, f i = step f i) :
    EndsWithin n calls step f := by
  have below : ∀ k g i, level i < k → step^[k] g i = f i := by
    intro k g
    induction k with
    | zero => exact fun i hi => absurd hi (Nat.not_lt_zero _)
    | succ k ih =>
      intro i hi
      rw [Function.iterate_succ_apply', eq i]
      exact asks _ _ _ fun j hj => ih j (Nat.lt_of_lt_of_le (hlevel j i hj) (Nat.le_of_lt_succ hi))
  refine ⟨Subrelation.wf (hlevel _ _) (measure level).wf, asks, eq, fun g => ?_⟩
  funext i
  exact below n g i (hn i)

end

/-! ## What types are made of -/

/-- The types that a type is made of by value, whether values of them are stored or not. -/
def Ty.components : Ty → List TypeId
  | array _ child _ | vector _ child | optional child => [child]
  | errorUnion set payload => [set, payload]
  | enum _ tag _ => [tag]
  | struct s => s.fieldTys.map (·.ty)
  | tuple fields => fields.map (·.ty)
  | union u => u.tag.toList ++ u.memberTypes
  | void | noreturn | bool | comptime | int _ _ | float _ | pointer _ | errorSet _ | function _ | opaqueType _ => []

theorem storedTypes_subset (fields : List FieldTy) : storedTypes fields ⊆ fields.map (·.ty) :=
  List.map_subset _ (List.filter_subset_self _)

theorem UnionTy.usedTag_subset (u : UnionTy) : u.usedTag?.toList ⊆ u.tag.toList := by
  unfold usedTag?
  split <;> simp

/-- The types that questions about a type look at: its parts, the error half of an error union, and the tag by which a
union tells its members apart, whether the tag is stored or not. -/
def Ty.consulted : Ty → List TypeId
  | errorUnion set payload => [set, payload]
  | union u => u.usedTag?.toList ++ u.memberTypes
  | d => d.parts

theorem Ty.parts_subset_consulted (d : Ty) : d.parts ⊆ d.consulted := by
  cases d with
  | errorUnion set payload => exact List.subset_cons_self _ _
  | union u =>
    refine List.append_subset.2 ⟨fun c hc => List.mem_append_left _ ?_, List.subset_append_right _ _⟩
    unfold UnionTy.placedTag? at hc
    split at hc
    · cases hc
    · exact hc
  | _ => exact fun c hc => hc

theorem Ty.consulted_subset_components (d : Ty) : d.consulted ⊆ d.components := by
  cases d with
  | array len child sentinel =>
    simp only [consulted, parts, components]
    split <;> simp
  | vector len child =>
    simp only [consulted, parts, components]
    split <;> simp
  | struct s => exact storedTypes_subset s.fieldTys
  | tuple fields => exact storedTypes_subset fields
  | union u =>
    exact List.append_subset.2
      ⟨fun c hc => List.mem_append_left _ (u.usedTag_subset hc), List.subset_append_right _ _⟩
  | _ => exact fun c hc => hc

theorem Ty.parts_subset_components (d : Ty) : d.parts ⊆ d.components :=
  List.Subset.trans d.parts_subset_consulted d.consulted_subset_components

namespace Pool

/-- The types that type `t` is made of. -/
def components (p : Pool) (t : TypeId) : List TypeId := (p.get t).components

/-- Type `t` is made of type `c`, at any depth. -/
def MadeOf (p : Pool) (t c : TypeId) : Prop := Relation.TransGen (fun c t => c ∈ p.components t) c t

/-- No type is made of itself. -/
def WellNested (p : Pool) : Prop := ∀ t, ¬p.MadeOf t t

variable {p : Pool} {t c : TypeId}

theorem WellNested.acyclic (h : p.WellNested) : p.Acyclic := by
  have hle : (fun c t => c ∈ p.parts t) ≤ fun c t => c ∈ p.components t :=
    fun c t hc => Ty.parts_subset_components _ hc
  exact fun t ht => h t (Relation.TransGen.mono hle t t ht)

theorem lt_size_of_mem_components (h : c ∈ p.components t) : t.raw < p.size := by
  refine Nat.lt_of_not_le fun hle => ?_
  rw [components, get_of_size_le hle] at h
  cases h

/-- No type is made of itself if each comes later in some order than what it is made of. -/
theorem wellNested_of_lt (order : TypeId → Nat)
    (h : ∀ k, k < p.size → ∀ c ∈ p.components ⟨k⟩, order c < order ⟨k⟩) : p.WellNested := by
  have before : ∀ {c t : TypeId}, c ∈ p.components t → order c < order t :=
    fun hc => h _ (lt_size_of_mem_components hc) _ hc
  exact fun t ht => Nat.lt_irrefl _ (lt_of_transGen order before ht)

open Classical in
/-- The number of types that type `t` is made of, and itself, unless it is made of nothing. -/
noncomputable def level (p : Pool) (t : TypeId) : Nat :=
  if p.components t = [] then 0 else (Finset.univ.filter fun i : Fin p.size => p.MadeOf t ⟨i⟩).card + 1

theorem level_of_leaf (h : p.components t = []) : p.level t = 0 := if_pos h

theorem WellNested.level_lt (h : p.WellNested) (hc : c ∈ p.components t) : p.level c < p.level t := by
  classical
  rw [level, level, if_neg (List.ne_nil_of_mem hc)]
  split
  next => exact Nat.succ_pos _
  next hleaf =>
    obtain ⟨d, hd⟩ := List.exists_mem_of_ne_nil _ hleaf
    refine Nat.succ_lt_succ (Finset.card_lt_card ?_)
    rw [Finset.ssubset_iff_of_subset]
    · refine ⟨⟨c.raw, lt_size_of_mem_components hd⟩, ?_, ?_⟩
      · exact Finset.mem_filter.2 ⟨Finset.mem_univ _, .single hc⟩
      · exact fun hmem => h c (Finset.mem_filter.1 hmem).2
    · intro i hi
      rw [Finset.mem_filter] at hi ⊢
      exact ⟨hi.1, hi.2.tail hc⟩

theorem WellNested.level_le (h : p.WellNested) (t : TypeId) : p.level t ≤ p.size := by
  classical
  rw [level]
  split
  next => exact Nat.zero_le _
  next hleaf =>
    obtain ⟨c, hc⟩ := List.exists_mem_of_ne_nil _ hleaf
    have hnot : (⟨t.raw, lt_size_of_mem_components hc⟩ : Fin p.size) ∉
        Finset.univ.filter fun i : Fin p.size => p.MadeOf t ⟨i⟩ :=
      fun hmem => h t (Finset.mem_filter.1 hmem).2
    have hlt := Finset.card_lt_univ_of_notMem hnot
    rwa [Fintype.card_fin] at hlt

/-- A recursion along what types are made of ends. -/
theorem WellNested.endsWithin (h : p.WellNested) {α : Type} {n : Nat} (hn : p.size < n) {step : (TypeId → α) → TypeId → α}
    {f : TypeId → α} (asks : ∀ g g' t, (∀ c ∈ p.components t, g c = g' c) → step g t = step g' t)
    (eq : ∀ t, f t = step f t) : EndsWithin n (fun c t => c ∈ p.components t) step f :=
  .of_level p.level (fun _ _ hc => h.level_lt hc) (fun t => Nat.lt_of_le_of_lt (h.level_le t) hn) asks eq

end Pool

/-! ## Rules about components -/

namespace Rule

variable {α : Type} {r : Rule α} {p : Pool} {known : TypeId → α} {k : Nat} {table : Array α}

/-- The rule asks only about what a type is made of. -/
def AsksComponents (r : Rule α) : Prop :=
  ∀ (d : Ty) (f g : TypeId → α), (∀ c ∈ d.components, f c = g c) → r.infer f d = r.infer g d

theorem AsksParts.asksComponents (hr : r.AsksParts) : r.AsksComponents :=
  fun d f g h => hr d f g fun c hc => h c (Ty.parts_subset_components d hc)

/-- Along what types are made of, a rule is a recursion that ends. -/
theorem Holds.endsWithin (h : r.Holds p known) (hr : r.AsksComponents) (hp : p.WellNested) {n : Nat} (hn : p.size < n) :
    EndsWithin n (fun c t => c ∈ p.components t) (fun g t => r.infer g (p.get t)) known :=
  hp.endsWithin hn (fun g g' t hg => hr (p.get t) g g' hg) h

/-! ### Settling -/

/-- The facts about all types below level `k` are right in the table. -/
structure RightBelow (r : Rule α) (p : Pool) (known : TypeId → α) (k : Nat) (table : Array α) : Prop where
  size : table.size = p.size
  right : ∀ t, p.level t < k → r.lookUp table t = known t

/-- What the pool has not handed out is right in any table. -/
theorem RightBelow.lookUp_eq (h : r.RightBelow p known k table) (hk : r.Holds p known) {t : TypeId}
    (ht : p.size ≤ t.raw) : r.lookUp table t = known t := by
  rw [hk t, r.infer_of_size_le ht, r.lookUp_of_size_le (h.size ▸ ht)]

/-- Refreshing the fact about a type of level `k` makes it right. -/
theorem RightBelow.infer_eq (h : r.RightBelow p known k table) (hk : r.Holds p known) (hr : r.AsksComponents)
    (hp : p.WellNested) {t : TypeId} (ht : p.level t ≤ k) : r.infer (r.lookUp table) (p.get t) = known t := by
  rw [hk t]
  exact hr _ _ _ fun c hc => h.right c (Nat.lt_of_lt_of_le (hp.level_lt hc) ht)

/-- Refreshing makes the facts about one more level right. -/
theorem RightBelow.refresh (hk : r.Holds p known) (hr : r.AsksComponents) (hp : p.WellNested) {order : List Nat}
    (h : r.RightBelow p known k table)
    (hall : ∀ t, p.level t < k + 1 → t.raw ∈ order ∨ r.lookUp table t = known t) :
    r.RightBelow p known (k + 1) (r.refresh p order table) := by
  induction order generalizing table with
  | nil => exact ⟨h.size, fun t ht => (hall t ht).resolve_left List.not_mem_nil⟩
  | cons i order ih =>
    have step : ∀ t, p.level t < k + 1 → t.raw = i ∨ r.lookUp table t = known t →
        r.lookUp (table.setIfInBounds i (r.infer (r.lookUp table) (p.get ⟨i⟩))) t = known t := by
      intro t ht hor
      rw [r.lookUp_setIfInBounds]
      split
      next hi =>
        obtain rfl := hi.1
        exact h.infer_eq hk hr hp (Nat.le_of_lt_succ ht)
      next hi =>
        rcases hor with hti | hright
        · refine h.lookUp_eq hk (Nat.le_of_not_lt fun hlt => hi ⟨hti, ?_⟩)
          rw [h.size, ← hti]
          exact hlt
        · exact hright
    refine ih ⟨by rw [Array.size_setIfInBounds]; exact h.size, fun t ht => ?_⟩ fun t ht => ?_
    · exact step t (Nat.lt_succ_of_lt ht) (Or.inr (h.right t ht))
    · rcases hall t ht with hmem | hright
      · rcases List.mem_cons.1 hmem with hti | hmem
        · exact Or.inr (step t ht (Or.inl hti))
        · exact Or.inl hmem
      · exact Or.inr (step t ht (Or.inr hright))

/-- `n` rounds make the facts about `n` more levels right, also if they end early as nothing changes. -/
theorem RightBelow.settle [DecidableEq α] (hk : r.Holds p known) (hr : r.AsksComponents) (hp : p.WellNested)
    {order : List Nat} (horder : ∀ i, i < p.size → i ∈ order) {n : Nat} (h : r.RightBelow p known k table) :
    r.RightBelow p known (k + n) (r.settle p order n table) := by
  have round : ∀ {k : Nat} {table : Array α}, r.RightBelow p known k table →
      r.RightBelow p known (k + 1) (r.refresh p order table) := by
    intro k table h
    refine h.refresh hk hr hp fun t _ => ?_
    by_cases ht : t.raw < p.size
    · exact Or.inl (horder _ ht)
    · exact Or.inr (h.lookUp_eq hk (Nat.le_of_not_lt ht))
  induction n generalizing k table with
  | zero => exact h
  | succ n ih =>
    unfold settle
    dsimp only
    split
    next hsame =>
      -- Nothing changes any more, so further rounds would give the same table.
      have still : ∀ m, r.RightBelow p known (k + m) table := by
        intro m
        induction m with
        | zero => exact h
        | succ m ihm => exact hsame ▸ round ihm
      exact still (n + 1)
    next =>
      have hrest := ih (round h)
      rwa [Nat.add_right_comm] at hrest

end Rule

namespace Pool

variable {p : Pool}

/-- Settling reaches the facts that obey the rule. -/
theorem WellNested.settled {α : Type} [DecidableEq α] {r : Rule α} {known : TypeId → α} (hp : p.WellNested)
    (hk : r.Holds p known) (hr : r.AsksComponents) : r.Settled p (p.settled r) := by
  have hstart : r.RightBelow p known 0 (Array.replicate p.size r.initial) :=
    ⟨Array.size_replicate, fun t ht => absurd ht (Nat.not_lt_zero _)⟩
  have horder : ∀ i, i < p.size → i ∈ (List.range p.size).reverse ++ List.range p.size :=
    fun i hi => List.mem_append_right _ (List.mem_range.2 hi)
  have hright : r.RightBelow p known (0 + (p.size + 1)) (p.settled r) := hstart.settle hk hr hp horder
  have hlook : r.lookUp (p.settled r) = known := by
    funext t
    exact hright.right t (by have := hp.level_le t; omega)
  refine ⟨hright.size, fun k _ => ?_⟩
  rw [hlook]
  exact hk ⟨k⟩

/-- The rule asks only about what a type consults. -/
theorem infer_roomRule_congr (d : Ty) {f g : TypeId → Bool} (h : ∀ c ∈ d.consulted, f c = g c) :
    roomRule.infer f d = roomRule.infer g d := by
  have any : ∀ {cs : List TypeId}, cs ⊆ d.consulted → cs.any f = cs.any g := by
    intro cs hcs
    have hmap : cs.map f = cs.map g := List.map_congr_left fun c hc => h c (hcs hc)
    have hany : (cs.map f).any id = (cs.map g).any id := by rw [hmap]
    rwa [List.any_map, List.any_map] at hany
  cases d with
  | array len child sentinel =>
    dsimp only [roomRule]
    by_cases hn : elementCount len sentinel = 0
    · simp [hn]
    · rw [h child (by simp [Ty.consulted, Ty.parts, hn])]
  | vector len child =>
    dsimp only [roomRule]
    by_cases hn : len = 0
    · simp [hn]
    · rw [h child (by simp [Ty.consulted, Ty.parts, hn])]
  | enum name tag => exact h tag (by simp [Ty.consulted, Ty.parts])
  | errorUnion set payload =>
    dsimp only [roomRule]
    rw [h set (by simp [Ty.consulted]), h payload (by simp [Ty.consulted])]
  | struct s => exact any (List.Subset.refl _)
  | tuple fields => exact any (List.Subset.refl _)
  | union u =>
    have htag : u.usedTag?.any f = u.usedTag?.any g := by
      cases ht : u.usedTag? with
      | none => rfl
      | some tag => exact h tag (List.mem_append_left _ (by simp [ht]))
    dsimp only [roomRule]
    rw [htag, any (List.subset_append_right _ _)]
  | _ => rfl

theorem asksComponents_roomRule : roomRule.AsksComponents :=
  fun d _ _ h => infer_roomRule_congr d fun c hc => h c (Ty.consulted_subset_components d hc)

/-- A pool is sealed where no type is made of itself. -/
theorem WellNested.exists_seal? (h : p.WellNested) (hp : p.PrimitivesInPlace) : ∃ P, p.seal? = some P ∧ P.toPool = p := by
  obtain ⟨height, hheight⟩ := h.acyclic.exists_holds asksParts_heightRule
  obtain ⟨room, hroom⟩ := p.exists_rooms
  have hheights := h.settled hheight asksParts_heightRule.asksComponents
  have hrooms := h.settled hroom asksComponents_roomRule
  exact ⟨_, (dif_pos hp).trans ((dif_pos hheights).trans (dif_pos hrooms)), rfl⟩

end Pool

end MachineAbi
