import MachineAbi.Machine.FloatKind
import MachineAbi.Source.Sizing

/-!
# What calling conventions ask about a type

- `SealedPool.isScalar`: the types that every convention passes as one machine value;
- `Sizing.members`: the values inside an aggregate and their offsets; their types are lower in rank than the
  aggregate, the error half of an error union apart (`Sizing.rank_lt_of_mem_members`);
- `Sizing.homogeneousFloats?`: the format and number of the floats that an aggregate consists of.
-/

namespace MachineAbi

/-- A value inside an aggregate, at a byte offset. -/
structure Member where
  ty : TypeId
  offset : Nat
deriving DecidableEq, Repr

/-- Members in order from `offset` on, each at the next offset aligned for it; those that take no room are left out. -/
def Member.sequence (layout : TypeId → Layout) (offset : Nat) : List TypeId → List Member
  | [] => []
  | t :: ts =>
    let l := layout t
    let start := alignUp offset l.align
    let rest := sequence layout (start + l.size) ts
    if 0 < l.size then ⟨t, start⟩ :: rest else rest

theorem Member.ty_mem_of_mem_sequence {layout : TypeId → Layout} {m : Member} :
    ∀ {offset : Nat} {ts : List TypeId}, m ∈ sequence layout offset ts → m.ty ∈ ts
  | _, [], h => by cases h
  | offset, t :: ts, h => by
    unfold sequence at h
    dsimp only at h
    split at h
    · rcases List.mem_cons.1 h with rfl | h
      · exact List.mem_cons_self
      · exact List.mem_cons_of_mem _ (ty_mem_of_mem_sequence h)
    · exact List.mem_cons_of_mem _ (ty_mem_of_mem_sequence h)

/-- The halves that an error union stores, in order. -/
def ErrorUnionRepr.order (set payload : TypeId) : ErrorUnionRepr → List TypeId
  | .empty => []
  | .payloadOnly => [payload]
  | .errorOnly => [set]
  | .errorFirst => [set, payload]
  | .payloadFirst => [payload, set]

/-- The values that an optional stores, in order: its payload, and a byte for its presence. -/
def OptionalRepr.order (child : TypeId) : OptionalRepr → List TypeId
  | .flagOnly => [.u8]
  | .payload => [child]
  | .payloadAndFlag => [child, .u8]

theorem ErrorUnionRepr.eq_or_eq_of_mem_order {r : ErrorUnionRepr} {set payload c : TypeId}
    (h : c ∈ r.order set payload) : c = set ∨ c = payload := by
  unfold order at h
  split at h <;> simp_all [or_comm]

theorem OptionalRepr.eq_or_eq_of_mem_order {r : OptionalRepr} {child c : TypeId} (h : c ∈ r.order child) :
    c = child ∨ c = .u8 := by
  unfold order at h
  split at h <;> simp_all

namespace SealedPool

/-- The types that every convention passes as one machine value. -/
def isScalar (P : SealedPool) (t : TypeId) : Bool :=
  match P.get t with
  | .bool | .int _ _ | .float _ | .errorSet _ | .enum _ _ _ | .vector _ _ => true
  | .pointer p => !p.isSlice
  | .optional child => P.optionalRepr child == .payload && !P.isSlice child
  | .struct s => s.isPacked
  | .union u => u.isPacked
  | _ => false

end SealedPool

namespace Sizing

/-- The machine format of a float type, if it has one. -/
def floatKind? (Z : Sizing) (t : TypeId) : Option FloatKind :=
  match Z.get t with
  | .float bits => if bits = 80 ∧ !Z.target.supportsF80 then none else FloatKind.ofBits? bits
  | _ => none

/-- The offset of the payload of a union whose stored tag has the layout `tag`. -/
def payloadOffset (tag payload : Layout) : Nat := if tag.tagFirst payload then alignUp tag.size payload.align else 0

/-- The offset of the stored tag of a union. -/
def tagOffset (tag payload : Layout) : Nat := if tag.tagFirst payload then 0 else alignUp payload.size tag.align

/-- The values inside a value of type `t`; scalars and packed containers have none. The tag of a union comes first, and
all its members are at one offset. -/
def members (Z : Sizing) (t : TypeId) : List Member :=
  let sequence := Member.sequence Z.layout 0
  match Z.get t with
  | .struct s => if s.isPacked then [] else sequence s.stored
  | .tuple fields => sequence (storedTypes fields)
  | .array len child sentinel =>
    let size := (Z.layout child).size
    if 0 < size then (List.range (elementCount len sentinel)).map fun i => ⟨child, i * size⟩ else []
  | .optional child => sequence ((Z.optionalRepr child).order child)
  | .errorUnion set payload => sequence ((Z.errorUnionRepr set payload).order set payload)
  | .union u =>
    if u.isPacked then []
    else
      let payload := Z.payloadLayout u
      let held (offset : Nat) : List Member :=
        (u.memberTypes.filter fun c => 0 < (Z.layout c).size).map fun c => ⟨c, offset⟩
      match Z.storedTag? u with
      | some tag =>
        let l := Z.layout tag
        ⟨tag, tagOffset l payload⟩ :: held (payloadOffset l payload)
      | none => held 0
  | _ => []

/-- The values inside a value are of its parts, besides the byte that says whether an optional is there and the error
code of an error union. -/
theorem mem_parts_of_mem_members {Z : Sizing} {t : TypeId} {m : Member} (h : m ∈ Z.members t) :
    m.ty ∈ Z.parts t ∨ (m.ty = .u8 ∧ ∃ child, Z.get t = .optional child) ∨
      ∃ payload, Z.get t = .errorUnion m.ty payload := by
  unfold members at h
  dsimp only at h
  split at h
  next s hs =>
    split at h
    · cases h
    · exact Or.inl (SealedPool.mem_parts hs (Member.ty_mem_of_mem_sequence h))
  next fields hf => exact Or.inl (SealedPool.mem_parts hf (Member.ty_mem_of_mem_sequence h))
  next len child sentinel ha =>
    split at h
    · obtain ⟨i, hi, rfl⟩ := List.mem_map.1 h
      have hn : elementCount len sentinel ≠ 0 := Nat.ne_of_gt (Nat.zero_lt_of_lt (List.mem_range.1 hi))
      exact Or.inl (SealedPool.mem_parts ha (by simp [Ty.parts, hn]))
    · cases h
  next child ho =>
    rcases OptionalRepr.eq_or_eq_of_mem_order (Member.ty_mem_of_mem_sequence h) with hm | hm
    · exact Or.inl (SealedPool.mem_parts ho (by simp [Ty.parts, hm]))
    · exact Or.inr (Or.inl ⟨hm, child, ho⟩)
  next set payload he =>
    rcases ErrorUnionRepr.eq_or_eq_of_mem_order (Member.ty_mem_of_mem_sequence h) with hm | hm
    · exact Or.inr (Or.inr ⟨payload, by rw [he, hm]⟩)
    · exact Or.inl (SealedPool.mem_parts he (by simp [Ty.parts, hm]))
  next u hu =>
    split at h
    · cases h
    · rename_i hpacked
      refine Or.inl ?_
      have held : ∀ {offset : Nat}, m ∈ ((u.memberTypes.filter fun c => 0 < (Z.layout c).size).map
          fun c => (⟨c, offset⟩ : Member)) → m.ty ∈ Z.parts t := by
        intro offset hm
        obtain ⟨c, hc, rfl⟩ := List.mem_map.1 hm
        exact SealedPool.mem_parts hu (List.mem_append_right _ (List.mem_filter.1 hc).1)
      split at h
      · rename_i tag ht
        rcases List.mem_cons.1 h with rfl | h
        · exact SealedPool.mem_parts hu (SealedPool.mem_parts_of_storedTag (by simpa using hpacked) ht)
        · exact held h
      · exact held h
  next => cases h

/-- Members are lower in rank than the aggregate. Only the error half of an error union need not be. -/
theorem rank_lt_of_mem_members {Z : Sizing} {t : TypeId} {m : Member} (h : m ∈ Z.members t) :
    Z.rank m.ty < Z.rank t ∨ ∃ payload, Z.get t = .errorUnion m.ty payload := by
  rcases mem_parts_of_mem_members h with hm | ⟨hm, child, ho⟩ | he
  · exact Or.inl (Z.rank_lt hm)
  · have hc : Z.rank child < Z.rank t := Z.rank_lt_of_get ho (by simp [Ty.parts])
    have leaf : Z.parts .u8 = [] := by simp [Pool.parts, Z.get_u8, Ty.parts]
    rw [hm, Z.rank_of_leaf leaf]
    exact Or.inl (Nat.zero_lt_of_lt hc)
  · exact Or.inr he

/-! ## Homogeneous floats -/

/-- Floats found so far: their format, once there is one, and their number. -/
structure FloatCount where
  kind : Option FloatKind
  count : Nat
deriving DecidableEq, Repr

/-- Floats are counted in 32 bits, and their sum is taken modulo this number. -/
def floatCountModulus : Nat := 0x100000000

/-- Floats of one more part, at most `limit` in all. Parts that share a place count as the largest of them. -/
def FloatCount.join (limit : Nat) (shared : Bool) (acc found : FloatCount) : Option FloatCount :=
  let count := if shared then max acc.count found.count else (acc.count + found.count) % floatCountModulus
  if count ≤ limit then some ⟨found.kind, count⟩ else none

/-- What was counted last: a part, the format of the floats before it, and the floats found. -/
structure LastCount (α : Type) where
  part : α
  seen : Option FloatKind
  found : FloatCount

section

variable {α : Type} [DecidableEq α] (count : Option FloatKind → α → Option FloatCount)

/-- The floats of a part after floats of the format `seen`. They are known if the same was counted last. -/
def LastCount.next (last : Option (LastCount α)) (seen : Option FloatKind) (c : α) : Option FloatCount :=
  match last.filter fun l => l.part = c ∧ l.seen = seen with
  | some l => some l.found
  | none => count seen c

/-- Floats of several parts, in order. However many elements an array has, it takes two counts at most. -/
def FloatCount.joinAll (limit : Nat) (shared : Bool) (last : Option (LastCount α)) (acc : FloatCount) :
    List α → Option FloatCount
  | [] => some acc
  | c :: cs => do
    let found ← LastCount.next count last acc.kind c
    let next ← acc.join limit shared found
    joinAll limit shared (some ⟨c, acc.kind, found⟩) next cs

variable {count} {last : Option (LastCount α)}

theorem LastCount.next_eq (hlast : ∀ l ∈ last, count l.seen l.part = some l.found) (seen : Option FloatKind) (c : α) :
    next count last seen c = count seen c := by
  unfold next
  split
  · rename_i l hl
    obtain ⟨hmem, hsame⟩ := Option.filter_eq_some_iff.1 hl
    obtain ⟨rfl, rfl⟩ := of_decide_eq_true hsame
    exact (hlast l hmem).symm
  · rfl

/-- It is as if every part were counted. -/
theorem FloatCount.joinAll_eq (hlast : ∀ l ∈ last, count l.seen l.part = some l.found) (limit : Nat) (shared : Bool)
    (acc : FloatCount) (cs : List α) :
    joinAll count limit shared last acc cs =
      cs.foldlM (fun acc c => (count acc.kind c).bind (acc.join limit shared)) acc := by
  induction cs generalizing last acc with
  | nil => rfl
  | cons c cs ih =>
    rw [joinAll, LastCount.next_eq hlast, List.foldlM_cons]
    cases hcount : count acc.kind c with
    | none => rfl
    | some found =>
      refine congrArg (Option.bind (acc.join limit shared found)) (funext fun next => ih (fun l hl => ?_) next)
      obtain rfl := Option.some.inj hl
      exact hcount

end

/-- How the floats of an aggregate add up: whether its parts share one place, and the parts in order. -/
def floatParts? (Z : Sizing) (limit : Nat) (t : TypeId) : Option (Bool × List TypeId) :=
  let sized (ts : List TypeId) := ts.filter fun c => 0 < (Z.layout c).size
  match Z.get t with
  | .struct s => if s.isPacked then none else some (false, sized s.stored)
  | .tuple fields => some (false, sized (storedTypes fields))
  | .array len child sentinel =>
    if len ≤ limit then
      some (false, if 0 < (Z.layout child).size then .replicate (elementCount len sentinel) child else [])
    else none
  | .union u => if u.isPacked ∨ Z.storesTag u then none else some (true, sized u.memberTypes)
  | _ => none

theorem mem_parts_of_floatParts {Z : Sizing} {limit : Nat} {t c : TypeId} {shared : Bool}
    {ts : List TypeId} (h : Z.floatParts? limit t = some (shared, ts)) (hc : c ∈ ts) : c ∈ Z.parts t := by
  unfold floatParts? at h
  dsimp only at h
  split at h
  next s hs =>
    split at h <;> simp only [Option.some.injEq, Prod.mk.injEq, reduceCtorEq] at h
    obtain ⟨-, rfl⟩ := h
    exact SealedPool.mem_parts hs (List.mem_filter.1 hc).1
  next fields hf =>
    simp only [Option.some.injEq, Prod.mk.injEq] at h
    obtain ⟨-, rfl⟩ := h
    exact SealedPool.mem_parts hf (List.mem_filter.1 hc).1
  next len child sentinel ha =>
    split at h <;> simp only [Option.some.injEq, Prod.mk.injEq, reduceCtorEq] at h
    obtain ⟨-, rfl⟩ := h
    split at hc
    · obtain ⟨hn, rfl⟩ := List.mem_replicate.1 hc
      exact SealedPool.mem_parts ha (by simp [Ty.parts, hn])
    · cases hc
  next u hu =>
    split at h <;> simp only [Option.some.injEq, Prod.mk.injEq, reduceCtorEq] at h
    obtain ⟨-, rfl⟩ := h
    exact SealedPool.mem_parts hu (List.mem_append_right _ (List.mem_filter.1 hc).1)
  next => cases h

/-- Counts the floats of a value of type `t`, which must all have one format and be at most `limit`. Floats that share a
place count once. -/
def countFloats (Z : Sizing) (limit : Nat) (seen : Option FloatKind) (t : TypeId) :
    Option FloatCount :=
  if Z.takesRoom t then
    match Z.floatKind? t with
    | some kind => if seen.all (· = kind) then some ⟨some kind, 1⟩ else none
    | none =>
      match _h : Z.floatParts? limit t with
      | none => none
      | some (shared, ts) =>
        FloatCount.joinAll (fun seen c => Z.countFloats limit seen c.1) limit shared none ⟨seen, 0⟩ ts.attach
  else some ⟨seen, 0⟩
termination_by Z.rank t
decreasing_by exact Z.rank_lt (mem_parts_of_floatParts _h c.2)

theorem countFloats_eq (Z : Sizing) (limit : Nat) (seen : Option FloatKind) (t : TypeId) :
    Z.countFloats limit seen t =
      if Z.takesRoom t then
        match Z.floatKind? t with
        | some kind => if seen.all (· = kind) then some ⟨some kind, 1⟩ else none
        | none =>
          match Z.floatParts? limit t with
          | none => none
          | some (shared, ts) =>
            ts.foldlM (fun acc c => (Z.countFloats limit acc.kind c).bind (acc.join limit shared)) ⟨seen, 0⟩
      else some ⟨seen, 0⟩ := by
  rw [countFloats]
  split
  · split
    · rfl
    · split <;> rename_i h <;> simp [h, FloatCount.joinAll_eq]
  · rfl

/-- The format and number of the floats that a value of type `t` consists of, if there is nothing else, they all have
one format and are at most `limit`, a number of 32 bits. -/
def homogeneousFloats? (Z : Sizing) (t : TypeId) (limit : Nat) : Option (FloatKind × Nat) := do
  let found ← Z.countFloats limit none t
  return (← found.kind, found.count)

end Sizing

end MachineAbi
