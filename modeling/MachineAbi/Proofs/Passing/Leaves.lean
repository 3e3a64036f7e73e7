import MachineAbi.Passing.Nesting
import MachineAbi.Proofs.Passing.Filled

/-!
# Scalars inside a value

The members of an aggregate have members of their own, down to the scalars, packed containers and slices that have none:
the leaves of the value (`Sizing.Leaf`).

Leaves fill a value as members fill an aggregate, if the size of the value has not been cut off. They lie inside it,
aligned (`Sizing.leaf_inside`), no position that is aligned for the value lies between them
(`Sizing.exists_leaf_spans`), and one of them is aligned as strictly as the value (`Sizing.exists_leaf_align`).
-/

namespace MachineAbi.Sizing

variable {Z : Sizing} {t : TypeId}

/-- A scalar inside a value of type `t`, at its offset in the value. Packed containers and slices count as scalars. -/
inductive Leaf (Z : Sizing) : TypeId → Member → Prop
  | self {t : TypeId} (h : Z.members t = []) : Leaf Z t ⟨t, 0⟩
  | member {t : TypeId} {m l : Member} (hm : m ∈ Z.members t) (hl : Leaf Z m.ty l) :
    Leaf Z t ⟨l.ty, m.offset + l.offset⟩

variable {l : Member} {p : Nat}

/-- What has members is filled by them. -/
theorem filled_of_mem {m : Member} (hZ : Z.Regular) (hE : Z.ErrorsAreCodes) (h : (Z.layout t).size < Layout.maxSize)
    (hm : m ∈ Z.members t) : Z.Filled t := by
  refine filled hZ hE h (Bool.eq_false_iff.2 fun ha => ?_)
  rw [members_of_isAtom ha] at hm
  exact nomatch hm

theorem members_of_leaf (h : Z.Leaf t l) : Z.members l.ty = [] := by
  induction h with
  | self h => exact h
  | member hm hl ih => exact ih

/-- A leaf that takes room is an atom. -/
theorem isAtom_of_leaf (hZ : Z.Regular) (hE : Z.ErrorsAreCodes) (h : (Z.layout l.ty).size < Layout.maxSize)
    (hl : Z.Leaf t l) (hpos : 0 < (Z.layout l.ty).size) : Z.isAtom l.ty = true := by
  refine Bool.not_eq_false _ ▸ fun ha => ?_
  obtain ⟨m, hm, -⟩ := (filled hZ hE h ha).dense 0 (Nat.dvd_zero _) hpos
  rw [members_of_leaf hl] at hm
  exact nomatch hm

/-- A leaf lies inside the value, aligned as it needs to be. -/
theorem leaf_inside (hZ : Z.Regular) (hE : Z.ErrorsAreCodes) (h : (Z.layout t).size < Layout.maxSize)
    (hl : Z.Leaf t l) :
    ((Z.layout l.ty).align ∣ l.offset ∧ (Z.layout l.ty).align ≤ (Z.layout t).align) ∧
      l.offset + (Z.layout l.ty).size ≤ (Z.layout t).size := by
  induction hl with
  | self h => exact ⟨⟨Nat.dvd_zero _, Nat.le_refl _⟩, by simp⟩
  | @member t m l hm hl ih =>
    have hf := filled_of_mem hZ hE h hm
    obtain ⟨hdvd, hle⟩ := hf.aligned m hm
    have hin := hf.inside m hm
    obtain ⟨⟨hdvd', hle'⟩, hin'⟩ := ih (by omega)
    have hlm := dvd_of_isPowerOfTwo_of_le (placeable hZ l.ty).align (placeable hZ m.ty).align hle'
    exact ⟨⟨Nat.dvd_add (Nat.dvd_trans hlm hdvd) hdvd', Nat.le_trans hle' hle⟩, by dsimp only; omega⟩

theorem membersNest_rank (hE : Z.ErrorsAreCodes) : Z.MembersNest Z.rank :=
  membersNest fun t set payload hd => by
    obtain ⟨e, he⟩ := hE t set payload hd
    simp [Pool.parts, he, Ty.parts]

/-- What passes from the members of each type to the type holds of all types. -/
theorem induction_on_members {motive : TypeId → Prop} (hE : Z.ErrorsAreCodes)
    (step : ∀ t, (∀ m ∈ Z.members t, motive m.ty) → motive t) (t : TypeId) : motive t := by
  generalize hn : Z.rank t = n
  induction n using Nat.strongRecOn generalizing t with
  | ind n ih => exact step t fun m hm => ih _ (hn ▸ membersNest_rank hE t m hm) m.ty rfl

/-- A position that is aligned for the value lies in a leaf. -/
theorem exists_leaf_spans (hZ : Z.Regular) (hE : Z.ErrorsAreCodes) (h : (Z.layout t).size < Layout.maxSize)
    (hd : (Z.layout t).align ∣ p) (hp : p < (Z.layout t).size) : ∃ l, Z.Leaf t l ∧ Z.Spans l p := by
  induction t using induction_on_members hE generalizing p with
  | step t ih =>
    cases ha : Z.isAtom t with
    | true => exact ⟨_, .self (members_of_isAtom ha), Nat.zero_le p, by simpa using hp⟩
    | false =>
      have hf := filled hZ hE h ha
      obtain ⟨m, hmem, hle, hlt⟩ := hf.dense p hd hp
      obtain ⟨hdvd, ha⟩ := hf.aligned m hmem
      have hin := hf.inside m hmem
      have hmt := dvd_of_isPowerOfTwo_of_le (placeable hZ m.ty).align (placeable hZ t).align ha
      obtain ⟨l, hl, hle', hlt'⟩ :=
        ih m hmem (by omega) (Nat.dvd_sub (Nat.dvd_trans hmt hd) hdvd) (p := p - m.offset) (by omega)
      exact ⟨_, .member hmem hl, by dsimp only; omega, by dsimp only; omega⟩

/-- One leaf is aligned as strictly as the value. -/
theorem exists_leaf_align (hZ : Z.Regular) (hE : Z.ErrorsAreCodes) (h : (Z.layout t).size < Layout.maxSize)
    (hone : 1 < (Z.layout t).align) : ∃ l, Z.Leaf t l ∧ (Z.layout l.ty).align = (Z.layout t).align := by
  induction t using induction_on_members hE with
  | step t ih =>
    cases hat : Z.isAtom t with
    | true => exact ⟨_, .self (members_of_isAtom hat), rfl⟩
    | false =>
      have hf := filled hZ hE h hat
      obtain ⟨m, hmem, ha⟩ := hf.strict hone
      have hin := hf.inside m hmem
      obtain ⟨l, hl, hla⟩ := ih m hmem (by omega) (ha ▸ hone)
      exact ⟨_, .member hmem hl, hla.trans ha⟩

end MachineAbi.Sizing
