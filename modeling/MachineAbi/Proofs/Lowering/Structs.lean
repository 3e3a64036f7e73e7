import MachineAbi.Proofs.Lowering.Answers

/-!
# Named structs

A struct or union is lowered in two steps, so that it can refer to itself: a named struct is declared and noted for it,
and gets its body once the fields are lowered. In between, the session holds a struct without a body. Between two
requests, it never does (`Lowering.accounted_of_reachable`): whatever was asked for before,

* no struct was to get a second body, and each has one, the machine fields of the layout that is kept, unless it stands
  for a type without known content;
* named structs and the types that they were declared for are in one-to-one correspondence.
-/

namespace MachineAbi

namespace Session

/-- The named struct at position `id` is noted for type `t`. -/
def Owns (s : Session) (t : TypeId) (id : Nat) : Prop := ∃ h, s.lowered[t]? = some h ∧ s.table.Stores h (.named id)

/-- Every named struct is accounted for: it has an owner, and the body that its owner asks for. -/
structure Accounted (P : SealedPool) (s : Session) : Prop where
  /-- No struct was to get a second body. -/
  once : s.table.refused = []
  /-- The struct of a struct or union has the machine fields of its layout. -/
  filled : ∀ t h, P.isNamedContainer t = true → s.lowered[t]? = some h →
    ∃ l, s.layouts[t]? = some l ∧ s.table.body? h = some ⟨false, l.machineFields⟩
  /-- Structs without a body are those of types without known content. -/
  bodiless : ∀ id, id < s.table.named.size → (s.table.bodyAt? id = none ↔ ∃ t, P.isOpaque t = true ∧ s.Owns t id)
  /-- A type that gets a named struct has one once it is noted. -/
  struct : ∀ t, P.hasName t = true → (s.lowered[t]?).isSome = true → ∃! id, id < s.table.named.size ∧ s.Owns t id
  /-- A named struct belongs to one type. -/
  owner : ∀ id, id < s.table.named.size → ∃! t, P.hasName t = true ∧ s.Owns t id

variable {P : SealedPool} {s : Session} {t t' : TypeId} {id id' : Nat}

theorem Owns.eq_struct (h : s.Owns t id) (h' : s.Owns t id') : id = id' := by
  obtain ⟨a, ha, hs⟩ := h
  obtain ⟨a', ha', hs'⟩ := h'
  rw [ha] at ha'
  obtain rfl := Option.some.inj ha'
  exact MachineType.named.inj (hs.eq hs')

namespace Owned

variable (ho : s.Owned P) (hwf : s.table.WellFormed)

include ho hwf

theorem eq_owner (ht : P.hasName t = true) (ht' : P.hasName t' = true) (h : s.Owns t id) (h' : s.Owns t' id) :
    t = t' := by
  obtain ⟨a, ha, hs⟩ := h
  obtain ⟨a', ha', hs'⟩ := h'
  obtain rfl := hwf.distinct a a' _ hs hs'
  exact ho.apart t t' a ht ht' ha ha'

theorem existsUnique_struct (ht : P.hasName t = true) (hl : (s.lowered[t]?).isSome = true) :
    ∃! id, id < s.table.named.size ∧ s.Owns t id := by
  obtain ⟨h, hl⟩ := Option.isSome_iff_exists.1 hl
  obtain ⟨id, hs⟩ := ho.own t h ht hl
  have howns : s.Owns t id := ⟨h, hl, hs⟩
  exact ⟨id, ⟨hwf.known h id hs, howns⟩, fun id' h' => h'.2.eq_struct howns⟩

theorem existsUnique_owner (hid : id < s.table.named.size) : ∃! t, P.hasName t = true ∧ s.Owns t id := by
  obtain ⟨t, h, ht, hl, hs⟩ := ho.owner id hid
  have howns : s.Owns t id := ⟨h, hl, hs⟩
  exact ⟨t, ⟨ht, howns⟩, fun t' h' => ho.eq_owner hwf h'.1 ht h'.2 howns⟩

end Owned

end Session

/-! ## The plan of a struct or union -/

namespace Sizing

variable {Z : Sizing} {known : TypeId → MachineTree} {t : TypeId}

/-- The form of a struct or union stored field by field is a named struct. -/
theorem exists_formNew_eq_named (ht : Z.isNamedContainer t = true) : ∃ p, Z.formNew known t = .named t p := by
  unfold SealedPool.isNamedContainer at ht
  unfold formNew
  split at ht
  next str hd =>
    obtain ⟨hp, hr⟩ := Bool.and_eq_true_iff.1 ht
    exact ⟨Z.fieldsPlan known str.fieldTys, by simp_all⟩
  next u hd =>
    obtain ⟨hp, hr⟩ := Bool.and_eq_true_iff.1 ht
    exact ⟨Z.unionPlan known u, by simp_all⟩
  next => cases ht

end Sizing

theorem Lowering.exists_form_eq_named {L : Lowering} {t : TypeId} (ht : L.isNamedContainer t = true) :
    ∃ p, L.form t = .named t p := by
  have hf : L.fnTy? t = none := Pool.fnTy?_eq_none fun f hd => by
    simp [SealedPool.isNamedContainer, hd] at ht
  rw [form_of_value hf, Sizing.form_eq]
  exact Sizing.exists_formNew_eq_named ht

/-! ## Between requests -/

namespace Session.Canonical

variable {L : Lowering} {s : Session} {t : TypeId} {h : Handle} {id : Nat}

/-- When nothing is being lowered, the struct of a struct or union has its body. -/
theorem body?_of_isNamedContainer (hs : s.Canonical L Lowering.Idle) (ht : L.isNamedContainer t = true)
    (hl : s.lowered[t]? = some h) :
    ∃ l, s.layouts[t]? = some l ∧ s.table.body? h = some ⟨false, l.machineFields⟩ := by
  obtain ⟨p, hp⟩ := Lowering.exists_form_eq_named ht
  obtain ⟨l, hk, hb, -⟩ := (hs.formed t h (fun h => h) hl).planned p (by rw [hp]; rfl)
  exact ⟨l, hk, hb⟩

theorem bodyAt?_eq_none_iff (hs : s.Canonical L Lowering.Idle) (hid : id < s.table.named.size) :
    s.table.bodyAt? id = none ↔ ∃ t, L.isOpaque t = true ∧ s.Owns t id := by
  constructor
  · intro hnone
    obtain ⟨t, h, ht, hl, hstores⟩ := hs.owned.owner id hid
    rcases Bool.or_eq_true_iff.1 ht with ht | ht
    · obtain ⟨l, -, hb⟩ := hs.body?_of_isNamedContainer ht hl
      rw [Table.body?_of_named hstores, hnone] at hb
      cases hb
    · exact ⟨t, ht, h, hl, hstores⟩
  · rintro ⟨t, ht, h, hl, hstores⟩
    exact hs.owned.bare t h id ht hl hstores

theorem accounted (hs : s.Canonical L Lowering.Idle) : s.Accounted L.toSealedPool where
  once := hs.refused
  filled _ _ := hs.body?_of_isNamedContainer
  bodiless _ := hs.bodyAt?_eq_none_iff
  struct _ := hs.owned.existsUnique_struct hs.wellFormed
  owner _ := hs.owned.existsUnique_owner hs.wellFormed

end Session.Canonical

namespace Lowering

variable {L : Lowering} {s : Session}

/-- Whatever was asked for, and in which order, every named struct is accounted for. -/
theorem accounted_of_reachable (hs : L.Reachable s) : s.Accounted L.toSealedPool := hs.canonical.accounted

/-- A struct or union that was asked for has a named struct. -/
theorem Reachable.existsUnique_struct {t : TypeId} (hs : L.Reachable s) (ht : L.isNamedContainer t = true) :
    ∃! id, id < (L.after s (.machineType t)).table.named.size ∧ (L.after s (.machineType t)).Owns t id := by
  have hf : L.fnTy? t = none := Sizing.fnTy?_of_takesRoom (L.takesRoom_of_isNamedContainer ht)
  have hafter : L.after s (.machineType t) = (L.lowerValue t s).2 := by
    rw [Lowering.after, lower_of_value hf]
    rfl
  obtain ⟨hs', -, hl⟩ := Sizing.lowerValue_follows t hf (spares_idle _ t) s hs.canonical
  rw [hafter]
  exact hs'.accounted.struct t (L.hasName_of_isNamedContainer ht) (by rw [hl]; rfl)

/-- A union of a half word and a word is lowered in the empty session. -/
theorem accounted_of_reachable_sample :
    ∃ s, (⟨.sample, .standard⟩ : Lowering).Reachable s ∧ s.Accounted Sizing.sample.toSealedPool ∧
      ∃! id, id < s.table.named.size ∧ s.Owns ⟨23⟩ id := by
  have hs : (⟨.sample, .standard⟩ : Lowering).Reachable .empty := .empty
  have hs' := hs.after (.machineType ⟨23⟩)
  have hacc := accounted_of_reachable hs'
  exact ⟨_, hs', hacc, hs.existsUnique_struct (by decide +kernel)⟩

end Lowering

end MachineAbi
