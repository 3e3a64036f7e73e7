import MachineAbi.Proofs.Lowering.Determined

/-!
# Signatures follow the forms of function types

The machine signature of a function type is that of its form (`Lowering.signatureWith_follows`), in any canonical
session. Signatures ask only for types that take room, so a function type that is being lowered itself is not asked for.

Every request keeps sessions canonical, so all sessions that requests lead to are (`Lowering.Reachable.canonical`).
-/

namespace MachineAbi

open Session

namespace Session

/-- The attributes are those of the form. -/
structure ShowsAttrs (P : SealedPool) (s : Session) (f : AttrForm) (a : AttrSet) : Prop where
  flags : a.flags = f.flags
  align : a.align = f.align
  pointee : Option.Rel (s.Shows P) f.pointee a.pointee

/-- The machine parameter is that of the form. -/
structure ShowsParam (P : SealedPool) (s : Session) (f : ParamForm) (p : MachineParam) : Prop where
  ty : s.Shows P f.ty p.ty
  origin : p.origin = f.origin
  attrs : s.ShowsAttrs P f.attrs p.attrs

/-- The signature is that of the form. -/
structure ShowsSignature (P : SealedPool) (s : Session) (f : SignatureForm) (sig : Signature) : Prop where
  cc : sig.cc = f.cc
  params : List.Forall₂ (s.ShowsParam P) f.params sig.params
  ret : s.Shows P f.ret sig.ret
  retAttrs : s.ShowsAttrs P f.retAttrs sig.retAttrs
  paramClasses : sig.paramClasses = f.paramClasses
  returnClass : sig.returnClass = f.returnClass
  varargs : sig.varargs = f.varargs

variable {P : SealedPool} {s s' : Session}

theorem ShowsAttrs.mono {f : AttrForm} {a : AttrSet} (h : s.ShowsAttrs P f a) (hr : s.Refines s') :
    s'.ShowsAttrs P f a := by
  refine ⟨h.flags, h.align, ?_⟩
  have hp := h.pointee
  generalize f.pointee = x at hp ⊢
  generalize a.pointee = y at hp ⊢
  cases hp with
  | none => exact .none
  | some hs => exact .some (hs.mono hr)

theorem ShowsParam.mono {f : ParamForm} {p : MachineParam} (h : s.ShowsParam P f p) (hr : s.Refines s') :
    s'.ShowsParam P f p :=
  ⟨h.ty.mono hr, h.origin, h.attrs.mono hr⟩

theorem showsParams_mono {fs : List ParamForm} {ps : List MachineParam} (h : List.Forall₂ (s.ShowsParam P) fs ps)
    (hr : s.Refines s') : List.Forall₂ (s'.ShowsParam P) fs ps :=
  h.imp fun _ _ h => h.mono hr

/-- Attributes that point at nothing. -/
theorem showsAttrs_bare {a : AttrSet} (h : a.pointee = none) : s.ShowsAttrs P (a.form .void) a := by
  refine ⟨rfl, rfl, ?_⟩
  rw [AttrSet.form, h]
  exact .none

theorem showsAttrs_sret (l : Layout) {tree : MachineTree} {h : Handle} (hs : s.Shows P tree h) :
    s.ShowsAttrs P ((AttrSet.sret l default).form tree) (.sret l h) :=
  ⟨rfl, rfl, .some hs⟩

theorem showsAttrs_byReference (l : Layout) (isMutable callerCopy : Bool) {tree : MachineTree} {h : Handle}
    (hs : s.Shows P tree h) :
    s.ShowsAttrs P ((AttrSet.byReference l isMutable callerCopy default).form tree)
      (.byReference l isMutable callerCopy h) := by
  cases callerCopy with
  | true => exact ⟨rfl, rfl, .some hs⟩
  | false => cases isMutable <;> exact ⟨rfl, rfl, .none⟩

end Session

/-! ## Attributes that point at nothing -/

theorem AttrSet.pointee_ofExtension (e : Option Signedness) : (AttrSet.ofExtension e).pointee = Option.none := by
  rcases e with _ | _ | _ <;> rfl

namespace Sizing

variable (Z : Sizing)

theorem pointee_byValueAttrs (cc : CallConv) (t : TypeId) (noalias : Bool) :
    (Z.byValueAttrs cc t noalias).pointee = none := by
  unfold byValueAttrs
  split
  · split <;> rfl
  · split
    · split
      · rfl
      · exact AttrSet.pointee_ofExtension _
    · rfl
  · exact AttrSet.pointee_ofExtension _

theorem pointee_slicePointerAttrs (t : TypeId) (noalias : Bool) : (Z.slicePointerAttrs t noalias).pointee = none := by
  unfold slicePointerAttrs
  split
  · rfl
  · split <;> rfl
  · rfl

theorem pointee_returnAttrs (cc : CallConv) (t : TypeId) : (Z.returnAttrs cc t).pointee = none := by
  unfold returnAttrs
  split
  · split <;> rfl
  · rfl
  · exact AttrSet.pointee_ofExtension _

end Sizing

namespace Lowering

variable {L : Lowering} {pending : TypeId → Prop} {s : Session}

theorem pointee_slotAttrs (cc : CallConv) (slot : Slot) : (L.slotAttrs cc slot).pointee = none := by
  cases slot with
  | source t => exact L.pointee_byValueAttrs cc t false
  | _ => rfl

/-! ## Machine values -/

theorem floatArray_follows (elem : FloatKind) (count : Nat) (hs : s.Canonical L pending) :
    Serves L pending s (onTable (floatArray elem count)) fun h s' =>
      s'.Shows L.toSealedPool (.array count (.float elem)) h := by
  have helem : Serves L pending s (onTable (Table.float elem)) fun e s' => s'.Shows L.toSealedPool (.float elem) e :=
    Serves.intern (by trivial) hs
  exact helem.array count

theorem lowerErrorTrace_follows (f : FnTy) (hs : s.Canonical L pending) :
    Serves L pending s (L.lowerErrorTrace f) fun ps s' =>
      List.Forall₂ (s'.ShowsParam L.toSealedPool) (L.errorTraceForm f) ps := by
  unfold lowerErrorTrace errorTraceForm
  split
  · refine Upholds.bind (Serves.intern (by trivial) hs) fun ptr s₁ hs₁ _ hptr => ?_
    exact .pure hs₁ (.cons ⟨hptr, rfl, showsAttrs_bare rfl⟩ .nil)
  · exact .pure hs .nil

section

variable (hp : Roomless L.toSizing pending)

include hp

theorem lowerRoomy_follows {t : TypeId} (ht : L.takesRoom t = true) (hs : s.Canonical L pending) :
    Serves L pending s (L.lowerValue t) fun h s' => s'.Shows L.toSealedPool (L.valueTree t) h := by
  have hf : L.fnTy? t = none := Sizing.fnTy?_of_takesRoom ht
  have hspares := hp.spares ht
  refine (Sizing.lowerValue_follows t hf hspares s hs).mono fun h s' hs' _ hl => ?_
  have hshows := hs'.shows hspares.not_pending hl
  rwa [form_of_value hf] at hshows

theorem lowerSlot_follows {slot : Slot} (h : slot.Stored L.toSizing) (hs : s.Canonical L pending) :
    Serves L pending s (L.lowerSlot slot) fun a s' => s'.Shows L.toSealedPool (L.slotTree slot) a := by
  cases slot with
  | int bits => exact (Serves.intern (by trivial) hs).mono fun _ _ _ _ ha => ha
  | float kind => exact (Serves.intern (by trivial) hs).mono fun _ _ _ _ ha => ha
  | floatVector len elem =>
    have helem : Serves L pending s (onTable (Table.float elem)) fun e s' => s'.Shows L.toSealedPool (.float elem) e :=
      Serves.intern (by trivial) hs
    exact helem.vector len
  | intVector len bits =>
    have helem : Serves L pending s (onTable (Table.int bits)) fun e s' => s'.Shows L.toSealedPool (.int bits) e :=
      Serves.intern (by trivial) hs
    exact helem.vector len
  | source t => exact lowerRoomy_follows hp h hs

theorem lowerSlots_follows {slots : List Slot} (h : ∀ slot ∈ slots, slot.Stored L.toSizing) {s : Session}
    (hs : s.Canonical L pending) :
    Serves L pending s (L.lowerSlots slots) fun as s' => s'.ShowsAll L.toSealedPool (slots.map L.slotTree) as := by
  induction slots generalizing s with
  | nil => exact .pure hs trivial
  | cons slot slots ih =>
    refine Upholds.bind (lowerSlot_follows hp (h slot List.mem_cons_self) hs) fun a s₁ hs₁ _ ha => ?_
    refine Upholds.bind (ih (fun s hs => h s (List.mem_cons_of_mem _ hs)) hs₁) fun as s₂ hs₂ ha₂ has => ?_
    exact .pure hs₂ ⟨ha.mono ha₂.refines, has⟩

/-! ## Return values and parameters -/

theorem lowerReturn_follows {f : FnTy} {c : ReturnClass} (hc : c.Stored L.toSizing)
    (hr : c ≠ .noBits → c ≠ .errorCode → L.takesRoom f.ret = true) (hs : s.Canonical L pending) :
    Serves L pending s (L.lowerReturn f c) fun r s' =>
      s'.Shows L.toSealedPool (L.returnForm f c).1 r.1 ∧ s'.ShowsAttrs L.toSealedPool (L.returnForm f c).2.1 r.2.1 ∧
        List.Forall₂ (s'.ShowsParam L.toSealedPool) (L.returnForm f c).2.2 r.2.2 := by
  unfold lowerReturn
  split
  · refine Upholds.bind (Serves.intern (by trivial) hs) fun a s₁ hs₁ _ ha => ?_
    exact .pure hs₁ ⟨ha, showsAttrs_bare rfl, .nil⟩
  · refine Upholds.bind (Serves.intern (by trivial) hs) fun a s₁ hs₁ _ ha => ?_
    exact .pure hs₁ ⟨ha, showsAttrs_bare rfl, .nil⟩
  · refine Upholds.bind (lowerRoomy_follows hp (hr nofun nofun) hs) fun a s₁ hs₁ _ ha => ?_
    exact .pure hs₁ ⟨ha, showsAttrs_bare (L.pointee_returnAttrs _ _), .nil⟩
  · refine Upholds.bind (lowerRoomy_follows hp (hr nofun nofun) hs) fun pointee s₁ hs₁ _ hpointee => ?_
    refine Upholds.bind (Serves.intern (by trivial) hs₁) fun ptr s₂ hs₂ ha₂ hptr => ?_
    have hptr : s₂.Shows L.toSealedPool (.ptr 0) ptr := hptr
    have hret : Serves L pending s₂ (onTable (if L.reportsErrors f then errorCode else Table.void)) fun r s' =>
        s'.Shows L.toSealedPool (if L.reportsErrors f then .int errorCodeBits else .void) r := by
      split
      · exact (Serves.intern (by trivial) hs₂).mono fun _ _ _ _ ha => ha
      · exact (Serves.intern (by trivial) hs₂).mono fun _ _ _ _ ha => ha
    refine Upholds.bind hret fun r s₃ hs₃ ha₃ hr => ?_
    have hpointee := hpointee.mono (ha₂.trans ha₃).refines
    exact .pure hs₃ ⟨hr, showsAttrs_bare rfl, .cons ⟨hptr.mono ha₃.refines, rfl, showsAttrs_sret _ hpointee⟩ .nil⟩
  · refine Upholds.bind (Serves.intern (by trivial) hs) fun a s₁ hs₁ _ ha => ?_
    exact .pure hs₁ ⟨ha, showsAttrs_bare rfl, .nil⟩
  · refine Upholds.bind (lowerSlot_follows hp (hc _ List.mem_cons_self) hs) fun a s₁ hs₁ _ ha => ?_
    exact .pure hs₁ ⟨ha, showsAttrs_bare rfl, .nil⟩
  · rename_i slots hslots
    refine Upholds.bind (lowerSlots_follows hp hc hs) fun as s₁ hs₁ _ has => ?_
    refine Upholds.bind (Serves.intern (by trivial) hs₁) fun a s₂ hs₂ ha₂ ha => ?_
    refine .pure hs₂ ?_
    rw [returnForm_split hslots]
    exact ⟨⟨as, ha, has.mono ha₂.refines⟩, showsAttrs_bare rfl, .nil⟩
  · refine Upholds.bind (lowerSlot_follows hp hc hs) fun a s₁ hs₁ _ ha => ?_
    exact .pure hs₁ ⟨ha, showsAttrs_bare rfl, .nil⟩
  · refine Upholds.bind (floatArray_follows _ _ hs) fun a s₁ hs₁ _ ha => ?_
    exact .pure hs₁ ⟨ha, showsAttrs_bare rfl, .nil⟩

theorem lowerSplit_follows {cc : CallConv} {index part : Nat} {slots : List Slot}
    (h : ∀ slot ∈ slots, slot.Stored L.toSizing) {s : Session} (hs : s.Canonical L pending) :
    Serves L pending s (L.lowerSplit cc index part slots) fun ps s' =>
      List.Forall₂ (s'.ShowsParam L.toSealedPool) (L.splitForm cc index part slots) ps := by
  induction slots generalizing part s with
  | nil => exact .pure hs .nil
  | cons slot slots ih =>
    refine Upholds.bind (lowerSlot_follows hp (h slot List.mem_cons_self) hs) fun a s₁ hs₁ _ ha => ?_
    refine Upholds.bind (ih (fun s hs => h s (List.mem_cons_of_mem _ hs)) hs₁) fun ps s₂ hs₂ ha₂ hps => ?_
    exact .pure hs₂ (.cons ⟨ha.mono ha₂.refines, rfl, showsAttrs_bare (pointee_slotAttrs cc slot)⟩ hps)

theorem lowerParam_follows {f : FnTy} {index : Nat} {t : TypeId} {c : ParamClass} (hc : c.Stored L.toSizing)
    (hr : c ≠ .noBits → L.takesRoom t = true) (hs : s.Canonical L pending) :
    Serves L pending s (L.lowerParam f index t c) fun ps s' =>
      List.Forall₂ (s'.ShowsParam L.toSealedPool) (L.paramForm f index t c) ps := by
  unfold lowerParam
  split
  · exact .pure hs .nil
  · refine Upholds.bind (lowerRoomy_follows hp (hr nofun) hs) fun a s₁ hs₁ _ ha => ?_
    exact .pure hs₁ (.cons ⟨ha, rfl, showsAttrs_bare (L.pointee_byValueAttrs _ _ _)⟩ .nil)
  · refine Upholds.bind (lowerRoomy_follows hp (hr nofun) hs) fun pointee s₁ hs₁ _ hpointee => ?_
    refine Upholds.bind (Serves.intern (by trivial) hs₁) fun ptr s₂ hs₂ ha₂ hptr => ?_
    exact .pure hs₂ (.cons ⟨hptr, rfl, showsAttrs_byReference _ _ _ (hpointee.mono ha₂.refines)⟩ .nil)
  · refine Upholds.bind (Serves.intern (by trivial) hs) fun a s₁ hs₁ _ ha => ?_
    exact .pure hs₁ (.cons ⟨ha, rfl, showsAttrs_bare rfl⟩ .nil)
  · exact lowerSplit_follows hp hc hs
  · refine Upholds.bind (Serves.intern (by trivial) hs) fun ptr s₁ hs₁ _ hptr => ?_
    refine Upholds.bind (Serves.intern (by trivial) hs₁) fun len s₂ hs₂ ha₂ hlen => ?_
    exact .pure hs₂ (.cons ⟨ha₂.table.types _ _ hptr, rfl, showsAttrs_bare (L.pointee_slicePointerAttrs _ _)⟩
      (.cons ⟨hlen, rfl, showsAttrs_bare rfl⟩ .nil))
  · refine Upholds.bind (lowerSlot_follows hp hc hs) fun a s₁ hs₁ _ ha => ?_
    exact .pure hs₁ (.cons ⟨ha, rfl, showsAttrs_bare rfl⟩ .nil)
  · refine Upholds.bind (floatArray_follows _ _ hs) fun a s₁ hs₁ _ ha => ?_
    exact .pure hs₁ (.cons ⟨ha, rfl, showsAttrs_bare rfl⟩ .nil)

theorem lowerParams_follows {c : Option Classifier} {f : FnTy} {index : Nat} {ts : List TypeId} {s : Session}
    (hs : s.Canonical L pending) :
    Serves L pending s (L.lowerParams c f index ts) fun ps s' =>
      List.Forall₂ (s'.ShowsParam L.toSealedPool) (L.paramsForm c f index ts) ps := by
  induction ts generalizing index s with
  | nil => exact .pure hs .nil
  | cons t ts ih =>
    refine Upholds.bind (lowerParam_follows hp (L.stored_paramClass c t) Sizing.takesRoom_of_paramClass hs)
      fun ps s₁ hs₁ _ hps => ?_
    refine Upholds.bind (ih hs₁) fun rest s₂ hs₂ ha₂ hrest => ?_
    exact .pure hs₂ (List.rel_append (showsParams_mono hps ha₂.refines) hrest)

/-- The machine signature of a function type is that of its form. -/
theorem signatureWith_follows (c : Option Classifier) (f : FnTy) (hs : s.Canonical L pending) :
    Serves L pending s (L.signatureWith c f) fun sig s' =>
      s'.ShowsSignature L.toSealedPool (L.signatureForm c f) sig := by
  refine Upholds.bind (lowerReturn_follows hp (L.stored_returnClass c f.ret) Sizing.takesRoom_of_returnClass hs) ?_
  rintro ⟨ret, retAttrs, hidden⟩ s₁ hs₁ - ⟨hret, hattrs, hhidden⟩
  refine Upholds.bind (lowerErrorTrace_follows f hs₁) fun trace s₂ hs₂ ha₂ htrace => ?_
  refine Upholds.bind (lowerParams_follows hp hs₂) fun ps s₃ hs₃ ha₃ hps => ?_
  have hr := (ha₂.trans ha₃).refines
  have hparams := List.rel_append (List.rel_append (showsParams_mono hhidden hr)
    (showsParams_mono htrace ha₃.refines)) hps
  exact .pure hs₃ ⟨rfl, hparams, hret.mono hr, hattrs.mono hr, rfl, rfl, rfl⟩

end

/-! ## Requests -/

/-- A function type is lowered with its signature. -/
theorem lowerFunction_follows {t : TypeId} {f : FnTy} {c : Option Classifier} (hp : Roomless L.toSizing pending)
    (ht : ¬pending t) (hf : L.fnTy? t = some f) (hc : classifierFor f.cc L.target = .ok c) :
    Grants L pending t (memoized t do
      let sig ← L.signatureWith c f
      onTable (functionType sig)) := by
  intro s hs
  have hd : L.get t = .function f := Pool.get_of_fnTy? hf
  have hr : L.takesRoom t = false := by rw [L.takesRoom_eq, hd]
  have hp : Roomless L.toSizing (Besides pending t) := by
    rintro p (h | rfl)
    · exact hp p h
    · exact hr
  refine Sizing.memoized_follows ht hs fun hl => ?_
  refine Sizing.settles_of_serves ht hl (by simp [SealedPool.hasName_eq, hd]) (form_of_function hf hc) ?_
  refine Upholds.bind (signatureWith_follows hp c f (hs.besides t)) fun sig s₁ hs₁ _ hsig => ?_
  refine (Serves.intern (by trivial) hs₁).mono fun a s₂ _ ha₂ ha => ?_
  rw [hsig.varargs] at ha
  refine ⟨sig.ret, sig.params.map (·.ty), ha, hsig.ret.mono ha₂.refines, ?_⟩
  refine showsAll_iff.2 (List.forall₂_map_left_iff.2 (List.forall₂_map_right_iff.2 ?_))
  exact hsig.params.imp fun _ _ h => h.ty.mono ha₂.refines

end Lowering

end MachineAbi
