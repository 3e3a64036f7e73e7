import MachineAbi.Source.Storage

/-!
# What takes room

A type takes room (`SealedPool.takesRoom`) for one of two reasons.

* Something is stored in its values (`SealedPool.HasContent`): a scalar, a presence flag or an error code, however deep.
* A packed union in its values has a tag (`SealedPool.HasLostTag`). The tag takes room, but a packed union has no place
  for it.

There is no third reason (`SealedPool.takesRoom_iff`).
-/

namespace MachineAbi

/-! ## A type and its parts -/

namespace Pool

/-- The type, or a part of it at any depth, is one of these. -/
inductive Involves (p : Pool) (Q : Ty → Prop) : TypeId → Prop
  | self {t : TypeId} (h : Q (p.get t)) : p.Involves Q t
  | part {t c : TypeId} (hc : c ∈ p.parts t) (h : p.Involves Q c) : p.Involves Q t

theorem involves_iff {p : Pool} {Q : Ty → Prop} {t : TypeId} :
    p.Involves Q t ↔ Q (p.get t) ∨ ∃ c ∈ p.parts t, p.Involves Q c := by
  constructor
  · intro h
    cases h with
    | self h => exact Or.inl h
    | part hc h => exact Or.inr ⟨_, hc, h⟩
  · rintro (h | ⟨c, hc, h⟩)
    · exact .self h
    · exact .part hc h

end Pool

/-! ## Content and lost tags -/

/-- Values of the type store something that is not one of their parts: they are scalars, or carry a flag or an error
code. -/
def Ty.StoresOwn (room : TypeId → Bool) : Ty → Prop
  | .bool | .float _ | .pointer _ | .optional _ => True
  | .int bits _ => 0 < bits
  | .errorSet set => set.hasBits = true
  | .errorUnion set _ => room set = true
  | _ => False

/-- The type has a tag that takes room, but no place for it. -/
def Ty.LosesTag (room : TypeId → Bool) : Ty → Prop
  | .union u => u.isPacked = true ∧ ∃ tag ∈ u.usedTag?, room tag = true
  | _ => False

namespace SealedPool

variable {P : SealedPool} {t : TypeId}

/-- Something is stored in values of type `t`. -/
def HasContent (P : SealedPool) (t : TypeId) : Prop := P.Involves (Ty.StoresOwn P.takesRoom) t

/-- A tag is lost in values of type `t`. -/
def HasLostTag (P : SealedPool) (t : TypeId) : Prop := P.Involves (Ty.LosesTag P.takesRoom) t

theorem hasContent_iff :
    P.HasContent t ↔ (P.get t).StoresOwn P.takesRoom ∨ ∃ c ∈ (P.get t).parts, P.HasContent c :=
  Pool.involves_iff

theorem hasLostTag_iff :
    P.HasLostTag t ↔ (P.get t).LosesTag P.takesRoom ∨ ∃ c ∈ (P.get t).parts, P.HasLostTag c :=
  Pool.involves_iff

/-- A type takes room for its own content, for its lost tag or for its parts. -/
theorem takesRoom_iff_parts (P : SealedPool) (t : TypeId) :
    P.takesRoom t = true ↔
      (P.get t).StoresOwn P.takesRoom ∨ (P.get t).LosesTag P.takesRoom ∨
        ∃ c ∈ (P.get t).parts, P.takesRoom c = true := by
  rw [P.takesRoom_eq]
  cases hd : P.get t with
  | array len child sentinel =>
    by_cases hn : elementCount len sentinel = 0 <;> simp [Ty.StoresOwn, Ty.LosesTag, Ty.parts, hn]
  | vector len child => by_cases hn : len = 0 <;> simp [Ty.StoresOwn, Ty.LosesTag, Ty.parts, hn]
  | union u =>
    cases hu : u.isPacked with
    | true => simp [Ty.StoresOwn, Ty.LosesTag, Ty.parts, UnionTy.placedTag?, hu, Option.any_eq_true]
    | false =>
      simp [Ty.StoresOwn, Ty.LosesTag, Ty.parts, UnionTy.placedTag?, hu, Option.any_eq_true, or_and_right, exists_or]
  | _ => simp [Ty.StoresOwn, Ty.LosesTag, Ty.parts]

theorem takesRoom_iff (P : SealedPool) (t : TypeId) : P.takesRoom t = true ↔ P.HasContent t ∨ P.HasLostTag t := by
  induction t using P.induction_on_parts with
  | step t ih =>
  rw [P.takesRoom_iff_parts, hasContent_iff, hasLostTag_iff]
  constructor
  · rintro (h | h | ⟨c, hc, h⟩)
    · exact Or.inl (Or.inl h)
    · exact Or.inr (Or.inl h)
    · rcases (ih c hc).1 h with h | h
      · exact Or.inl (Or.inr ⟨c, hc, h⟩)
      · exact Or.inr (Or.inr ⟨c, hc, h⟩)
  · rintro ((h | ⟨c, hc, h⟩) | (h | ⟨c, hc, h⟩))
    · exact Or.inl h
    · exact Or.inr (Or.inr ⟨c, hc, (ih c hc).2 (Or.inl h)⟩)
    · exact Or.inr (Or.inl h)
    · exact Or.inr (Or.inr ⟨c, hc, (ih c hc).2 (Or.inr h)⟩)

theorem HasContent.takesRoom (h : P.HasContent t) : P.takesRoom t = true := (P.takesRoom_iff t).2 (Or.inl h)

end SealedPool

end MachineAbi
