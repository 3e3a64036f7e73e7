import MachineAbi.Proofs.Passing.Merging

/-!
# Scalars of a value in order

The scalars inside a value, in the order in which members come and with packed containers and slices among them, form a
list (`Sizing.scalars`). These are the leaves of the value that are atoms (`Sizing.mem_scalars_iff`).

The eightbytes of the value come of that list (`SysV.Eightbytes.classify_eq_foldl`): each scalar has eightbytes when it
is alone (`SysV.lone`), and these are joined one after the other. So the class of one eightbyte is that of the classes
that the scalars lend to it, merged in order (`SysV.half_classify`).
-/

namespace MachineAbi

/-- The member of the member at this offset. -/
def Member.shift (offset : Nat) (m : Member) : Member := ⟨m.ty, offset + m.offset⟩

namespace Sizing

variable {Z : Sizing} {t : TypeId} {l : Member}

/-- The scalars inside a value of type `t` in whose nest no path is longer than the first argument. -/
def scalarsWithin (Z : Sizing) : Nat → TypeId → List Member
  | 0, _ => []
  | n + 1, t =>
    if Z.isAtom t then [⟨t, 0⟩]
    else (Z.members t).flatMap fun m => (scalarsWithin Z n m.ty).map (.shift m.offset)

/-- The scalars inside a value of type `t`, in order. -/
def scalars (Z : Sizing) (t : TypeId) : List Member := Z.scalarsWithin (Z.size + 1) t

theorem leaf_of_mem_scalarsWithin {n : Nat} (h : l ∈ Z.scalarsWithin n t) : Z.Leaf t l ∧ Z.isAtom l.ty = true := by
  induction n generalizing t l with
  | zero => exact absurd h List.not_mem_nil
  | succ n ih =>
    unfold scalarsWithin at h
    split at h
    · rename_i ha
      obtain rfl := List.mem_singleton.1 h
      exact ⟨.self (members_of_isAtom ha), ha⟩
    · obtain ⟨m, hm, h⟩ := List.mem_flatMap.1 h
      obtain ⟨k, hk, rfl⟩ := List.mem_map.1 h
      obtain ⟨hl, ha⟩ := ih hk
      exact ⟨.member hm hl, ha⟩

theorem mem_scalarsWithin {depth : TypeId → Nat} (hZ : Z.MembersNest depth) (hl : Z.Leaf t l)
    (ha : Z.isAtom l.ty = true) {n : Nat} (hn : Z.levels depth t < n) : l ∈ Z.scalarsWithin n t := by
  induction hl generalizing n with
  | self h =>
    obtain ⟨n, rfl⟩ := Nat.exists_eq_succ_of_ne_zero (Nat.ne_zero_of_lt hn)
    rw [scalarsWithin, if_pos ha]
    exact List.mem_singleton_self _
  | @member t m l hm hl ih =>
    obtain ⟨n, rfl⟩ := Nat.exists_eq_succ_of_ne_zero (Nat.ne_zero_of_lt hn)
    have hat : ¬Z.isAtom t = true := fun hat => absurd (members_of_isAtom hat ▸ hm) List.not_mem_nil
    rw [scalarsWithin, if_neg hat]
    refine List.mem_flatMap.2 ⟨m, hm, List.mem_map.2 ⟨l, ih ha ?_, rfl⟩⟩
    -- a type that is not there has no scalars
    have hthere : m.ty.raw < Z.size := by
      by_contra hout
      have hv : Z.get m.ty = .void := Pool.get_of_size_le (Nat.le_of_not_lt hout)
      cases hl with
      | self => simp [isAtom, hv] at ha
      | member hm => simp [members, hv] at hm
    have hlt := levels_lt hthere (hZ t m hm)
    omega

theorem leaf_of_mem_scalars (h : l ∈ Z.scalars t) : Z.Leaf t l ∧ Z.isAtom l.ty = true := leaf_of_mem_scalarsWithin h

theorem mem_scalars_iff (hE : Z.ErrorsAreCodes) : l ∈ Z.scalars t ↔ Z.Leaf t l ∧ Z.isAtom l.ty = true :=
  ⟨leaf_of_mem_scalars, fun ⟨hl, ha⟩ =>
    mem_scalarsWithin (membersNest_rank hE) hl ha (Nat.lt_succ_of_le (Z.levels_le _ t))⟩

end Sizing

namespace SysV

open EightbyteClass

variable {Z : Sizing} {t : TypeId} {k : Nat}

namespace Eightbytes

/-- The eightbytes of two values that lie in the same place. -/
def join (e e' : Eightbytes) : Eightbytes := ⟨e.low.merge e'.low, e.high.merge e'.high, e.overflow || e'.overflow⟩

theorem ext_half {e e' : Eightbytes} (h : ∀ k < 2, e.half k = e'.half k) (ho : e.overflow = e'.overflow) : e = e' := by
  have hlow := h 0 (by decide)
  have hhigh := h 1 (by decide)
  cases e
  cases e'
  simp_all [half]

@[simp]
theorem half_empty (k : Nat) : empty.half k = .none := by
  unfold half
  split <;> rfl

@[simp]
theorem half_join (e e' : Eightbytes) (k : Nat) : (e.join e').half k = (e.half k).merge (e'.half k) := by
  unfold half
  split <;> rfl

theorem overflow_putAll (offset : Nat) (cs : List EightbyteClass) (e : Eightbytes) :
    (e.putAll offset cs).overflow = (e.overflow || (empty.putAll offset cs).overflow) := by
  have one : ∀ (e : Eightbytes) o c, (e.put o c).overflow = (e.overflow || decide (2 ≤ o / 8)) := by
    intro e o c
    unfold put
    rcases o / 8 with _ | _ | n <;> simp
  induction cs generalizing offset e with
  | nil => simp [putAll, empty]
  | cons c cs ih =>
    rw [putAll, putAll, ih, ih _ (empty.put offset c), one, one, Bool.or_assoc]
    rfl

/-- Classes are put on top of those that are there. -/
theorem putAll_eq_join (offset : Nat) (cs : List EightbyteClass) (e : Eightbytes) :
    e.putAll offset cs = e.join (empty.putAll offset cs) := by
  refine ext_half (fun k hk => ?_) (overflow_putAll offset cs e)
  rw [half_join, half_putAll hk, half_putAll hk]
  cases depositAt k offset cs <;> simp

theorem put_eq_join (offset : Nat) (c : EightbyteClass) (e : Eightbytes) : e.put offset c = e.join (empty.put offset c) :=
  putAll_eq_join offset [c] e

/-- Each scalar leads to eightbytes as if it were alone, joined to those that are there. -/
theorem putScalar?_eq_map (offset : Nat) (t : TypeId) (e : Eightbytes) :
    e.putScalar? Z offset t = (empty.putScalar? Z offset t).map e.join := by
  have hints : ∀ size, e.putIntegers offset size = e.join (empty.putIntegers offset size) := fun size =>
    putAll_eq_join offset _ e
  have hfloat : ∀ bits, e.putFloat Z offset t bits = e.join (empty.putFloat Z offset t bits) := by
    intro bits
    unfold putFloat
    repeat' split
    all_goals first | exact put_eq_join _ _ _ | exact putAll_eq_join _ _ _
  have hvector : ∀ size child, e.putVector offset size child = e.join (empty.putVector offset size child) := by
    intro size child
    unfold putVector
    split
    · exact hints _
    · split
      · exact put_eq_join _ _ _
      · split
        · exact putAll_eq_join _ _ _
        · simp [join, empty]
  unfold putScalar?
  cases Z.get t with
  | bool | enum | errorSet => exact congrArg some (put_eq_join _ _ _)
  | int => exact congrArg some (hints _)
  | float => exact congrArg some (hfloat _)
  | vector => exact congrArg some (hvector _ _)
  | pointer p =>
    cases hp : p.isSlice with
    | true => simpa [hp] using hints _
    | false => simpa [hp] using put_eq_join _ _ _
  | struct s =>
    cases hp : s.isPacked with
    | true => simpa [hp] using hints _
    | false => simp [hp]
  | union u =>
    cases hp : u.isPacked with
    | true => simpa [hp] using hints _
    | false => simp [hp]
  | _ => rfl

end Eightbytes

/-- The eightbytes of a scalar that is alone in the value. -/
def lone (Z : Sizing) (l : Member) : Eightbytes := (Eightbytes.empty.putScalar? Z l.offset l.ty).getD .empty

theorem half_putAll_empty (hk : k < 2) (offset : Nat) (cs : List EightbyteClass) :
    (Eightbytes.empty.putAll offset cs).half k = (depositAt k offset cs).getD .none := by
  rw [Eightbytes.half_putAll hk, Eightbytes.half_empty]
  cases depositAt k offset cs <;> simp

theorem isSimple_half_putAll {offset : Nat} {cs : List EightbyteClass} (hcs : ∀ c ∈ cs, c.IsSimple) (hk : k < 2) :
    ((Eightbytes.empty.putAll offset cs).half k).IsSimple := by
  rw [half_putAll_empty hk]
  cases hat : depositAt k offset cs with
  | none => exact ⟨by decide, by decide⟩
  | some c => exact hcs c (mem_of_depositAt hat)

/-- A scalar gives no class that comes of merging. -/
theorem isSimple_half_lone (Z : Sizing) (l : Member) (hk : k < 2) : ((lone Z l).half k).IsSimple := by
  have classes : ∀ cs : List EightbyteClass, (∀ c ∈ cs, c.IsSimple) →
      ((Eightbytes.empty.putAll l.offset cs).half k).IsSimple := fun cs hcs => isSimple_half_putAll hcs hk
  have one : ∀ c, IsSimple c → ((Eightbytes.empty.put l.offset c).half k).IsSimple := fun c hc =>
    classes [c] (by simpa using hc)
  have ints : ∀ size, ((Eightbytes.empty.putIntegers l.offset size).half k).IsSimple := fun size =>
    classes _ fun c hc => by
      rw [List.eq_of_mem_replicate hc]
      exact ⟨by decide, by decide⟩
  have empty : (Eightbytes.empty.half k).IsSimple := by
    rw [Eightbytes.half_empty]
    exact ⟨by decide, by decide⟩
  unfold lone Eightbytes.putScalar?
  cases Z.get l.ty with
  | bool | enum | errorSet => exact one _ ⟨by decide, by decide⟩
  | int => exact ints _
  | float bits =>
    show ((Eightbytes.empty.putFloat Z l.offset l.ty bits).half k).IsSimple
    unfold Eightbytes.putFloat
    repeat' split
    all_goals first | exact ints _ | exact one _ ⟨by decide, by decide⟩ | exact classes _ (by simp [IsSimple])
  | vector len child =>
    show ((Eightbytes.empty.putVector l.offset (Z.layout l.ty).size child).half k).IsSimple
    unfold Eightbytes.putVector
    repeat' split
    all_goals first | exact ints _ | exact one _ ⟨by decide, by decide⟩ | exact classes _ (by simp [IsSimple]) | exact empty
  | pointer p =>
    cases hp : p.isSlice with
    | true => simpa [hp] using ints _
    | false => simpa [hp] using one _ ⟨by decide, by decide⟩
  | struct s =>
    cases hp : s.isPacked with
    | true => simpa [hp] using ints _
    | false => simpa [hp] using empty
  | union u =>
    cases hp : u.isPacked with
    | true => simpa [hp] using ints _
    | false => simpa [hp] using empty
  | _ => exact empty

theorem putScalar?_of_isAtom (ha : Z.isAtom t = true) (offset : Nat) (e : Eightbytes) :
    e.putScalar? Z offset t = some (e.join (lone Z ⟨t, offset⟩)) := by
  obtain ⟨e', he'⟩ : ∃ e', Eightbytes.empty.putScalar? Z offset t = some e' := by
    unfold Sizing.isAtom at ha
    unfold Eightbytes.putScalar?
    split at ha
    all_goals simp_all
  rw [Eightbytes.putScalar?_eq_map, lone, he']
  rfl

namespace Eightbytes

theorem classifyWithin_eq_foldl (n : Nat) (t : TypeId) (offset : Nat) (e : Eightbytes) :
    classifyWithin Z n t offset e =
      ((Z.scalarsWithin n t).map (.shift offset)).foldl (fun e l => e.join (lone Z l)) e := by
  induction n generalizing t offset e with
  | zero => rfl
  | succ n ih =>
    rw [classifyWithin, Sizing.scalarsWithin]
    cases ha : Z.isAtom t with
    | true =>
      rw [putScalar?_of_isAtom ha]
      rfl
    | false =>
      rw [putScalar?_eq_none ha]
      dsimp only
      rw [if_neg Bool.false_ne_true]
      induction Z.members t generalizing e with
      | nil => rfl
      | cons m ms ihm =>
        rw [List.foldl_cons, ihm, ih, List.flatMap_cons, List.map_append, List.foldl_append, List.map_map]
        congr 2
        refine List.map_congr_left fun l _ => ?_
        simp [Member.shift, Nat.add_assoc]

/-- The eightbytes of a value are those of its scalars, joined in order. -/
theorem classify_eq_foldl (t : TypeId) :
    empty.classify Z t 0 = ((Z.scalars t).map (lone Z)).foldl join empty := by
  have hshift : Member.shift 0 = id := by
    funext m
    simp [Member.shift]
  rw [classify, classifyWithin_eq_foldl, hshift, List.map_id, List.foldl_map]
  rfl

theorem half_foldl_join (es : List Eightbytes) (e : Eightbytes) (k : Nat) :
    (es.foldl join e).half k = (es.map (·.half k)).foldl merge (e.half k) := by
  induction es generalizing e with
  | nil => rfl
  | cons e' es ih =>
    rw [List.foldl_cons, ih, half_join]
    rfl

theorem overflow_foldl_join (es : List Eightbytes) (e : Eightbytes) :
    (es.foldl join e).overflow = (e.overflow || es.any (·.overflow)) := by
  induction es generalizing e with
  | nil => simp
  | cons e' es ih =>
    rw [List.foldl_cons, ih, List.any_cons, ← Bool.or_assoc]
    rfl

end Eightbytes

/-- The classes that the scalars of a value give to eightbyte number `k`, in order. -/
def lent (Z : Sizing) (k : Nat) (ls : List Member) : List EightbyteClass := ls.map fun l => (lone Z l).half k

theorem isSimple_of_mem_lent {ls : List Member} {c : EightbyteClass} (hk : k < 2) (hc : c ∈ lent Z k ls) : c.IsSimple := by
  obtain ⟨l, -, rfl⟩ := List.mem_map.1 hc
  exact isSimple_half_lone Z l hk

/-- The class of an eightbyte is that of all scalars, merged in order. -/
theorem half_classify (Z : Sizing) (t : TypeId) (k : Nat) :
    (Eightbytes.empty.classify Z t 0).half k = mergeAll (lent Z k (Z.scalars t)) := by
  rw [Eightbytes.classify_eq_foldl, Eightbytes.half_foldl_join, Eightbytes.half_empty, List.map_map]
  rfl

theorem low_classify (Z : Sizing) (t : TypeId) :
    (Eightbytes.empty.classify Z t 0).low = mergeAll (lent Z 0 (Z.scalars t)) :=
  half_classify Z t 0

theorem high_classify (Z : Sizing) (t : TypeId) :
    (Eightbytes.empty.classify Z t 0).high = mergeAll (lent Z 1 (Z.scalars t)) :=
  half_classify Z t 1

theorem overflow_classify (Z : Sizing) (t : TypeId) :
    (Eightbytes.empty.classify Z t 0).overflow = (Z.scalars t).any fun l => (lone Z l).overflow := by
  rw [Eightbytes.classify_eq_foldl, Eightbytes.overflow_foldl_join, List.any_map]
  rfl

end SysV

end MachineAbi
