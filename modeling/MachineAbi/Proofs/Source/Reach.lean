import MachineAbi.Proofs.Source.Growth
import MachineAbi.Proofs.Source.Recursion
import MachineAbi.Source.Sizing

/-!
# What a type reaches

Questions about a type look at what it consults (`Ty.consulted`), at what that consults, and so on (`Pool.Reaches`).
Pointers and functions consult nothing, and so reach nothing but themselves.

* `Pool.Grounded`: no type consults itself, at any depth, so that there is a depth (`Pool.Grounded.exists_depth`);
* `Pool.get_grown`: further calls change no type whose fields they do not define;
* `Pool.reaches_iff`: where what a type reaches stays as it is, the type reaches nothing new;
* `Sizing.exists_covers`: what a type reaches has sizes, also in a pool in which some other type contains itself.
-/

namespace MachineAbi

namespace Pool

variable {p q : Pool} {t u : TypeId} {calls : List Call}

def consulted (p : Pool) (t : TypeId) : List TypeId := (p.get t).consulted

theorem mem_consulted {d : Ty} (hd : p.get t = d) (hu : u ∈ d.consulted) : u ∈ p.consulted t := by
  rwa [consulted, hd]

/-- Questions about type `t` lead to type `u`. -/
def Reaches (p : Pool) (t u : TypeId) : Prop := Relation.ReflTransGen (fun u c => c ∈ p.consulted u) t u

/-- Questions stay among types that consult only each other. -/
theorem Reaches.mem_of_closed {ts : List TypeId} (hu : p.Reaches t u) (ht : t ∈ ts)
    (hts : ∀ u ∈ ts, ∀ c ∈ p.consulted u, c ∈ ts) : u ∈ ts := by
  induction hu with
  | refl => exact ht
  | tail _ hc ih => exact hts _ ih _ hc

/-- No question about a type leads back to it. -/
def Grounded (p : Pool) : Prop := ∀ t, ¬Relation.TransGen (fun c t => c ∈ p.consulted t) t t

theorem WellNested.grounded (h : p.WellNested) : p.Grounded := by
  have hle : (fun c t => c ∈ p.consulted t) ≤ fun c t => c ∈ p.components t :=
    fun c t hc => Ty.consulted_subset_components _ hc
  exact fun t ht => h t (Relation.TransGen.mono hle t t ht)

/-! ## Depth -/

/-- The pool of tuples in which each type is made of what it consults. -/
def consulting (p : Pool) : Pool := ⟨p.items.map fun d => .tuple (d.consulted.map (⟨·, false⟩))⟩

theorem components_consulting (p : Pool) (t : TypeId) : p.consulting.components t = p.consulted t := by
  have hitem : p.consulting.items[t.raw]? = p.items[t.raw]?.map fun d => .tuple (d.consulted.map (⟨·, false⟩)) :=
    Array.getElem?_map
  rw [components, consulted, get, get, hitem]
  cases p.items[t.raw]? with
  | none => rfl
  | some d => simp [Ty.components, Function.comp_def]

theorem Grounded.wellNested_consulting (h : p.Grounded) : p.consulting.WellNested := by
  intro t ht
  refine h t (Relation.TransGen.mono (fun c u hc => ?_) t t ht)
  rwa [← components_consulting]

/-- A depth of types that grows from what is consulted, is zero where nothing is, and at most the number of types. -/
structure Depth (p : Pool) (depth : TypeId → Nat) : Prop where
  lt : ∀ t, ∀ c ∈ p.consulted t, depth c < depth t
  leaf : ∀ t, p.consulted t = [] → depth t = 0
  le_size : ∀ t, depth t ≤ p.size

theorem Grounded.exists_depth (h : p.Grounded) : ∃ depth, p.Depth depth := by
  have hnested := h.wellNested_consulting
  refine ⟨p.consulting.level, fun t c hc => ?_, fun t ht => ?_, fun t => ?_⟩
  · exact hnested.level_lt (by rwa [components_consulting])
  · exact level_of_leaf (by rwa [components_consulting])
  · have hle := hnested.level_le t
    simpa [consulting, size] using hle

theorem Grounded.induction (h : p.Grounded) {motive : TypeId → Prop}
    (step : ∀ t, (∀ c ∈ p.consulted t, motive c) → motive t) (t : TypeId) : motive t := by
  obtain ⟨depth, hdepth⟩ := h.exists_depth
  exact (measure depth).wf.induction t fun t ih => step t fun c hc => ih c (hdepth.lt t c hc)

/-! ## Growth -/

/-- The call defines the fields of type `t`, or defines them anew. -/
def Call.Defines (p : Pool) (t : TypeId) : Call → Prop
  | defineStruct t' _ => t' = t ∧ ∃ s, p.get t = .struct s
  | defineUnion t' _ => t' = t ∧ ∃ u, p.get t = .union u
  | _ => False

theorem Call.revise_of_not_defines {c : Call} (h : ¬c.Defines p t) : c.action.revise t (p.get t) = p.get t := by
  cases c with
  | defineStruct t' fields =>
    show (if t' = t then (Fields.struct fields).fill (p.get t) else p.get t) = p.get t
    split
    next ht =>
      cases hd : p.get t with
      | struct s => exact absurd ⟨ht, s, hd⟩ h
      | _ => rfl
    next => rfl
  | defineUnion t' members =>
    show (if t' = t then (Fields.union members).fill (p.get t) else p.get t) = p.get t
    split
    next ht =>
      cases hd : p.get t with
      | union u => exact absurd ⟨ht, u, hd⟩ h
      | _ => rfl
    next => rfl
  | _ => rfl

theorem stores_get (ht : t.raw < p.size) : p.Stores t (p.get t) := by
  have hget : p.items[t.raw]? = some p.items[t.raw] := Array.getElem?_eq_getElem ht
  rw [Stores, get, hget]
  rfl

/-- Further calls change no type whose fields they do not define. -/
theorem get_grown (ht : t.raw < p.size) (hcalls : ∀ c ∈ calls, ¬c.Defines p t) : (p.grown calls).get t = p.get t :=
  ((stores_get ht).grown fun c hc => Call.revise_of_not_defines (hcalls c hc)).get_eq

/-- A type reaches the same types where these are the same. -/
theorem reaches_iff (h : ∀ u, p.Reaches t u → q.get u = p.get u) : q.Reaches t u ↔ p.Reaches t u := by
  constructor
  · intro hu
    induction hu with
    | refl => exact .refl
    | tail _ hc ih => exact ih.tail (by rwa [consulted, h _ ih] at hc)
  · intro hu
    induction hu with
    | refl => exact .refl
    | tail hb hc ih => exact ih.tail (by rwa [consulted, h _ hb])

/-! ## Room for more types -/

/-- The pool with types without values behind its own, so that there are `n` types. -/
def padded (p : Pool) (n : Nat) : Pool := ⟨p.items ++ Array.replicate (n - p.size) .void⟩

theorem size_padded {n : Nat} (h : p.size ≤ n) : (p.padded n).size = n := by
  have hsize : (p.padded n).size = p.size + (n - p.size) := by simp [padded, size]
  rw [hsize, Nat.add_sub_cancel' h]

theorem items_padded {i n : Nat} (hi : i < p.size) : (p.padded n).items[i]? = p.items[i]? :=
  Array.getElem?_append_left hi

theorem get_padded (p : Pool) (n : Nat) : (p.padded n).get = p.get := by
  funext t
  by_cases ht : t.raw < p.size
  · rw [get, items_padded ht, get]
  · have ht := Nat.le_of_not_lt ht
    have hvoid : (p.padded n).items[t.raw]?.getD .void = .void := by
      rw [padded, Array.getElem?_append_right ht, Array.getElem?_replicate]
      split <;> rfl
    rw [get_of_size_le ht]
    exact hvoid

theorem PrimitivesInPlace.padded (h : p.PrimitivesInPlace) (n : Nat) : (p.padded n).PrimitivesInPlace := by
  intro k hk
  have hstored := h k hk
  have hlt : k < p.size := by
    refine Nat.lt_of_not_le fun hle => ?_
    rw [Array.getElem?_eq_none hle] at hstored
    exact absurd hk (List.getElem?_eq_none_iff.1 hstored.symm).not_gt
  rw [items_padded hlt, hstored]

theorem Acyclic.padded (h : p.Acyclic) (n : Nat) : (p.padded n).Acyclic := by
  have hparts : (p.padded n).parts = p.parts := by
    funext t
    rw [parts, parts, get_padded]
  intro t ht
  rw [Contains, hparts] at ht
  exact h t ht

end Pool

namespace Sizing

variable {Z : Sizing} {p : Pool} {t : TypeId}

/-- Type `t` and what it reaches are sized as the pool has them. What else is in the pool may be sized otherwise, as no
sizing of the whole pool exists if some type contains itself. -/
structure Covers (Z : Sizing) (p : Pool) (t : TypeId) : Prop where
  size : Z.size = p.size
  get : ∀ u, p.Reaches t u → Z.get u = p.get u

/-- A sizing of the pool itself covers all its types. -/
theorem covers_toPool (Z : Sizing) (t : TypeId) : Z.Covers Z.toPool t := ⟨rfl, fun _ _ => rfl⟩

/-- In a larger pool that has the same types where type `t` reaches, these types have sizes. -/
theorem exists_covers (hsize : Z.size ≤ p.size) (h : ∀ u, Z.Reaches t u → p.get u = Z.get u) :
    ∃ Z' : Sizing, Z'.target = Z.target ∧ Z'.Covers p t := by
  -- What is new, or changed elsewhere, may contain itself. So it is left out.
  obtain ⟨hprim, hacyclic⟩ := Z.exists_sealed_iff.1 ⟨Z.toSealedPool, rfl⟩
  obtain ⟨P, hP⟩ := (Z.padded p.size).exists_sealed_iff.2 ⟨hprim.padded _, hacyclic.padded _⟩
  refine ⟨.of P Z.target, rfl, ?_, fun u hu => ?_⟩
  · show P.size = p.size
    rw [hP, Pool.size_padded hsize]
  · show P.get u = p.get u
    rw [hP, Pool.get_padded]
    exact (h u ((Pool.reaches_iff h).1 hu)).symm

end Sizing

end MachineAbi
