import MachineAbi.Proofs.Lowering.Answers

/-!
# Requests that fail

A request fails exactly if it is for the async convention itself, and then it changes nothing (`Lowering.fails_iff`).

Types that only contain function types of this convention, however deep, are lowered. A function takes no room, so it is
never among the parts that are lowered: a request notes no type without room but the one that it is for
(`Lowering.lowered_after`). In particular no function type of this convention is ever noted
(`Lowering.Reachable.lowered_eq_none`), so it makes no difference whether a request looks up what is noted before it
looks at the convention.
-/

namespace MachineAbi

open Session

theorem classifierFor_eq_error_iff {cc : CallConv} {T : Target} {e : LowerError} :
    classifierFor cc T = .error e ↔ cc = .async ∧ e = .async := by
  cases cc with
  | async => exact ⟨fun h => ⟨rfl, (Except.error.inj h).symm⟩, fun h => congrArg Except.error h.2.symm⟩
  | _ => simp [classifierFor]

theorem map_eq_error_iff {ε α β : Type} {f : α → β} {x : Except ε α} {e : ε} :
    f <$> x = .error e ↔ x = .error e := by
  cases x <;> simp [Functor.map, Except.map]

theorem Outcomes.error_iff {ε α β : Type} {R : α → β → Prop} {x : Except ε α} {y : Except ε β} {e : ε}
    (h : Outcomes R x y) : y = .error e ↔ x = .error e := by
  cases h <;> simp

namespace Lowering

variable {L : Lowering} {s : Session} {t : TypeId} {q : Query} {e : LowerError}

/-- A function type of the async convention. -/
def IsAsync (L : Lowering) (t : TypeId) : Prop := ∃ f, L.get t = .function f ∧ f.cc = .async

/-- The request is for the machine form of a function of the async convention. -/
def AsksAsync (L : Lowering) : Query → Prop
  | .machineType t | .slot (.source t) | .functionSignature t | .aggregateLayout t | .fieldAccess t _ => L.IsAsync t
  | .signature f => f.cc = .async
  | .slot _ => False

/-! ## What fails -/

theorem isAsync_iff : L.IsAsync t ↔ ∃ f, L.fnTy? t = some f ∧ f.cc = .async := by
  refine exists_congr fun f => and_congr_left fun _ => ⟨fun hd => ?_, Pool.get_of_fnTy?⟩
  rw [Pool.fnTy?, hd]

theorem formFor_eq_error_iff : L.formFor t = .error e ↔ L.IsAsync t ∧ e = .async := by
  rw [isAsync_iff, formFor]
  cases hf : L.fnTy? t with
  | none => simp
  | some f => simp [map_eq_error_iff, classifierFor_eq_error_iff]

theorem signatureFormFor_eq_error_iff {f : FnTy} : L.signatureFormFor f = .error e ↔ f.cc = .async ∧ e = .async := by
  rw [signatureFormFor, map_eq_error_iff, classifierFor_eq_error_iff]

theorem signatureFormFor?_eq_error_iff : L.signatureFormFor? t = .error e ↔ L.IsAsync t ∧ e = .async := by
  rw [isAsync_iff, signatureFormFor?]
  cases hf : L.fnTy? t with
  | none => simp
  | some f => simp [map_eq_error_iff, signatureFormFor_eq_error_iff]

/-- Whether there is an answer is told by the request alone. -/
theorem answerForm_eq_error_iff : L.answerForm q = .error e ↔ L.AsksAsync q ∧ e = .async := by
  cases q with
  | slot slot =>
    cases slot with
    | source t => rw [answerForm, map_eq_error_iff, formFor_eq_error_iff, AsksAsync]
    | _ => simp [answerForm, AsksAsync]
  | machineType t => rw [answerForm, map_eq_error_iff, formFor_eq_error_iff, AsksAsync]
  | signature f => rw [answerForm, map_eq_error_iff, signatureFormFor_eq_error_iff, AsksAsync]
  | functionSignature t => rw [answerForm, map_eq_error_iff, signatureFormFor?_eq_error_iff, AsksAsync]
  | aggregateLayout t => rw [answerForm, map_eq_error_iff, formFor_eq_error_iff, AsksAsync]
  | fieldAccess t index => rw [answerForm, map_eq_error_iff, formFor_eq_error_iff, AsksAsync]

theorem answer_eq_error_iff (hs : s.Canonical L Idle) : L.answer s q = .error e ↔ L.AsksAsync q ∧ e = .async :=
  (answer_follows hs q).2.2.error_iff.trans answerForm_eq_error_iff

/-! ## What a request that fails changes -/

theorem lower_of_isAsync (h : L.IsAsync t) : L.lower t = throw .async := by
  obtain ⟨f, hd, hcc⟩ := h
  unfold lower
  rw [hd]
  dsimp only
  rw [hcc]
  rfl

theorem signature_of_async {f : FnTy} (h : f.cc = .async) : L.signature f = throw .async := by
  unfold signature
  rw [h]
  rfl

/-- A request that fails changes nothing. -/
theorem after_of_asksAsync (s : Session) (h : L.AsksAsync q) : L.after s q = s := by
  cases q with
  | machineType t => rw [after, lower_of_isAsync h]; rfl
  | slot slot =>
    cases slot with
    | source t => rw [after, lowerAnySlot, lower_of_isAsync h]; rfl
    | _ => exact h.elim
  | signature f => rw [after, signature_of_async h]; rfl
  | functionSignature t =>
    obtain ⟨f, hf, hcc⟩ := isAsync_iff.1 h
    rw [after, signature?, hf]
    dsimp only
    rw [signature_of_async hcc]
    rfl
  | aggregateLayout t => rw [after, aggregateLayout?, lower_of_isAsync h]; rfl
  | fieldAccess t index => rw [after, fieldAccess?, aggregateLayout?, lower_of_isAsync h]; rfl

/-! ## What is noted on the way -/

/-- A request notes nothing about types without room but the one that it is for. -/
theorem lowered_after (hs : s.Canonical L Idle) (hr : L.takesRoom t = false) (hq : t ∉ q.subject?) :
    (L.after s q).lowered[t]? = s.lowered[t]? := by
  have hp : Roomless L.toSizing fun p => L.takesRoom p = false ∧ p ∉ q.subject? := fun p h => h.1
  obtain ⟨-, hadvances, -⟩ := answer_spares hp q (fun c hc h => h.2 hc) (hs.weaken fun _ h => h.elim)
  exact hadvances.loweredPending t ⟨hr, hq⟩

theorem takesRoom_of_function {f : FnTy} (hd : L.get t = .function f) : L.takesRoom t = false := by
  rw [L.takesRoom_eq, hd]

theorem asksAsync_of_subject (h : t ∈ q.subject?) (ht : L.IsAsync t) : L.AsksAsync q := by
  cases q with
  | slot slot =>
    cases slot with
    | source c =>
      obtain rfl := Option.some.inj h
      exact ht
    | _ => cases h
  | signature | functionSignature => cases h
  | machineType | aggregateLayout | fieldAccess =>
    obtain rfl := Option.some.inj h
    exact ht

/-- No function type of the async convention has a machine type, whatever was asked for. -/
theorem Reachable.lowered_eq_none (hs : L.Reachable s) (ht : L.IsAsync t) : s.lowered[t]? = none := by
  induction hs with
  | empty => simp [Session.empty]
  | @after s hs q ih =>
    by_cases hq : t ∈ q.subject?
    · rw [after_of_asksAsync s (asksAsync_of_subject hq ht)]
      exact ih
    · obtain ⟨f, hd, -⟩ := ht
      rw [lowered_after hs.canonical (takesRoom_of_function hd) hq]
      exact ih

/-- A request fails exactly if it is for the async convention, always with the same error, and then it changes nothing.
No request notes a function type but the one that it is for, and none of the async convention. -/
theorem fails_iff (hs : L.Reachable s) (q : Query) :
    ((∃ e, L.answer s q = .error e) ↔ L.AsksAsync q) ∧
      (∀ e, L.answer s q = .error e → e = .async ∧ L.after s q = s) ∧
      (∀ t f, L.get t = .function f → t ∉ q.subject? → (L.after s q).lowered[t]? = s.lowered[t]?) ∧
      ∀ t, L.IsAsync t → (L.after s q).lowered[t]? = none := by
  have herror : ∀ e, L.answer s q = .error e ↔ L.AsksAsync q ∧ e = .async := fun e => answer_eq_error_iff hs.canonical
  refine ⟨⟨?_, fun h => ⟨_, (herror _).2 ⟨h, rfl⟩⟩⟩, fun e he => ?_, fun t f hd hq => ?_, fun t ht => ?_⟩
  · rintro ⟨e, he⟩
    exact ((herror e).1 he).1
  · obtain ⟨h, rfl⟩ := (herror e).1 he
    exact ⟨rfl, after_of_asksAsync s h⟩
  · exact lowered_after hs.canonical (takesRoom_of_function hd) hq
  · exact (hs.after q).lowered_eq_none ht

/-- An async function of the union, after the error union over it was lowered. -/
theorem fails_iff_sample :
    ∃ s q, (⟨.sample, .standard⟩ : Lowering).Reachable s ∧ (⟨.sample, .standard⟩ : Lowering).AsksAsync q ∧
      (⟨.sample, .standard⟩ : Lowering).answer s q = .error .async ∧
      (⟨.sample, .standard⟩ : Lowering).after s q = s := by
  have hs : (⟨.sample, .standard⟩ : Lowering).Reachable
      ((⟨.sample, .standard⟩ : Lowering).after .empty (.machineType ⟨24⟩)) := .after .empty _
  obtain ⟨hiff, hunchanged, -⟩ := fails_iff hs (.signature ⟨[⟨23⟩], .void, .async, false, 0⟩)
  have hasks : (⟨.sample, .standard⟩ : Lowering).AsksAsync (.signature ⟨[⟨23⟩], .void, .async, false, 0⟩) := rfl
  obtain ⟨e, he⟩ := hiff.2 hasks
  obtain ⟨rfl, hafter⟩ := hunchanged e he
  exact ⟨_, _, hs, hasks, he, hafter⟩

end Lowering

end MachineAbi
