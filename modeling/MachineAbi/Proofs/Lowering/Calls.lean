import MachineAbi.Proofs.Lowering.Requests
import MachineAbi.Proofs.Passing.Carriers

/-!
# Values cross calls whole

A machine signature says which machine values carry each parameter and the result. Where one machine value carries all
of it, the code generator lays it out as large as the classifiers assume (`Carrier.lower_spec`), in the session that the
signature leaves behind. So no parameter is cut off, and a result only if it is a wide integer on Windows
(`Lowering.holds_signature`).

* The machine parameters of a source parameter are those that name it as their origin. All parameters are lowered in
  order, so `Signature.sourceParams` finds them again (`Lowering.lowerParams_spec`).
* Layouts stay as they are while later parameters are lowered, since the session only grows.
-/

namespace MachineAbi

open Session

/-- The machine parameter is a part of source parameter `index`. -/
def ParamOrigin.isPart (index : Nat) : ParamOrigin → Bool
  | .source i _ => i == index
  | _ => false

/-- The machine type is laid out at least as large as source type `t`. -/
def Session.Holds (Z : Sizing) (s : Session) (h : Handle) (t : TypeId) : Prop :=
  ∃ m, s.table.layoutOf Z.target h = some m ∧ (Z.layout t).size ≤ m.size

variable {L : Lowering} {s : Session} {t : TypeId}

/-! ## One machine value -/

namespace Carrier

/-- The slot, if it is one, is of a type that takes room. -/
def Stored (Z : Sizing) (t : TypeId) : Carrier → Prop
  | value => Z.takesRoom t = true
  | slot s => s.Stored Z
  | sizedInt | floats _ _ => True

/-- The machine type that carries a value of type `t`. -/
def lower (L : Lowering) (t : TypeId) : Carrier → StateM Session Handle
  | value => L.lowerValue t
  | sizedInt => onTable (L.abiSizedInt t)
  | slot s => L.lowerSlot s
  | floats elem count => onTable (Lowering.floatArray elem count)

end Carrier

namespace Lowering

theorem layoutOf_lowerValue (hL : L.Regular) (hs : s.Sound L.toSizing Idle) (ht : L.takesRoom t = true) :
    Proceeds L.toSizing Idle s (L.lowerValue t) fun h s' => s'.table.layoutOf L.target h = some (L.layout t) :=
  (Sizing.lowerValue_spec hL t (spares_idle _ t) s hs).mono fun _ _ hs' _ hl =>
    hs'.layoutOf_lowered hL t (spares_idle _ t) ht hl

theorem layoutOf_int (hs : s.Sound L.toSizing Idle) (bits : Nat) :
    Proceeds L.toSizing Idle s (onTable (Table.int bits)) fun h s' =>
      s'.table.layoutOf L.target h = some (L.target.machineInt bits) :=
  (Proceeds.intern (by trivial) hs).mono fun _ _ _ _ hstores => Table.layoutOf_int hstores

theorem layoutOf_float (hs : s.Sound L.toSizing Idle) (kind : FloatKind) :
    Proceeds L.toSizing Idle s (onTable (Table.float kind)) fun h s' =>
      s'.table.layoutOf L.target h = some (L.target.machineFloat kind) :=
  (Proceeds.intern (by trivial) hs).mono fun _ _ _ _ hstores => Table.layoutOf_float hstores

/-- A vector of machine scalars. -/
theorem layoutOf_vector (hs : s.Sound L.toSizing Idle) {elem : MachineType} (he : Table.IsStructural elem)
    {len bits : Nat} (hbits : ∀ {table : Table} {h : Handle}, table.Stores h elem →
      table.scalarBits? L.target h = some bits) :
    Proceeds L.toSizing Idle s (onTable (Table.intern elem >>= fun e => Table.vector len e)) fun h s' =>
      s'.table.layoutOf L.target h = some (L.target.vectorLayout (len * bits)) := by
  rw [onTable_bind]
  refine (Proceeds.intern he hs).bind fun e s₁ hs₁ _ hstores => ?_
  refine (Proceeds.intern (by trivial) hs₁).mono fun h s₂ _ ha hvector => ?_
  exact Table.layoutOf_vector hvector (hbits (ha.table.types _ _ hstores))

theorem layoutOf_floatArray (hs : s.Sound L.toSizing Idle) (elem : FloatKind) (count : Nat) :
    Proceeds L.toSizing Idle s (onTable (floatArray elem count)) fun h s' =>
      s'.table.layoutOf L.target h = some (.times count (L.target.machineFloat elem)) := by
  unfold floatArray
  rw [onTable_bind]
  refine (Proceeds.intern (by trivial) hs).bind fun e s₁ hs₁ _ hstores => ?_
  refine (Proceeds.intern (by trivial) hs₁).mono fun h s₂ _ ha harray => ?_
  exact Table.layoutOf_array harray (Table.layoutOf_float (ha.table.types _ _ hstores))

theorem layoutOf_lowerSlot (hL : L.Regular) (hs : s.Sound L.toSizing Idle) {slot : Slot}
    (h : slot.Stored L.toSizing) :
    Proceeds L.toSizing Idle s (L.lowerSlot slot) fun h s' =>
      s'.table.layoutOf L.target h = some (slot.layout L.toSizing) := by
  cases slot with
  | int bits => exact layoutOf_int hs bits
  | float kind => exact layoutOf_float hs kind
  | floatVector len elem =>
    exact layoutOf_vector hs (by trivial) fun hstores => by rw [Table.scalarBits?, hstores.get_eq]
  | intVector len bits =>
    exact layoutOf_vector hs (by trivial) fun hstores => by rw [Table.scalarBits?, hstores.get_eq]
  | source c => exact layoutOf_lowerValue hL hs h

/-- The code generator lays out the machine type of a carrier as the classifiers assume. -/
theorem lowerCarrier_spec (hL : L.Regular) (hs : s.Sound L.toSizing Idle) {k : Carrier} (hk : k.Stored L.toSizing t) :
    Proceeds L.toSizing Idle s (k.lower L t) fun h s' =>
      s'.table.layoutOf L.target h = some (k.layout L.toSizing t) := by
  cases k with
  | value => exact layoutOf_lowerValue hL hs hk
  | sizedInt => exact layoutOf_int hs _
  | slot slot => exact layoutOf_lowerSlot hL hs hk
  | floats elem count => exact layoutOf_floatArray hs elem count

theorem stored_carrier_param {c : Option Classifier} {k : Carrier} (hk : (L.paramClass c t).carrier? = some k) :
    k.Stored L.toSizing t := by
  have hroom : L.takesRoom t = true := Sizing.takesRoom_of_paramClass fun h => by rw [h] at hk; cases hk
  have hslots := L.stored_paramClass c t
  generalize L.paramClass c t = cls at hk hslots
  cases cls <;> cases hk
  all_goals first | exact hroom | exact hslots

theorem stored_carrier_return {c : Option Classifier} {k : Carrier} (hk : (L.returnClass c t).carrier? = some k) :
    k.Stored L.toSizing t := by
  have hroom : L.takesRoom t = true :=
    Sizing.takesRoom_of_returnClass (fun h => by rw [h] at hk; cases hk) fun h => by rw [h] at hk; cases hk
  have hslots := L.stored_returnClass c t
  generalize L.returnClass c t = cls at hk hslots
  cases cls <;> cases hk
  all_goals first | exact hroom | exact hslots

/-! ## Parameters -/

theorem lowerParam_of_carrier {f : FnTy} {index : Nat} {cls : ParamClass} {k : Carrier} (hk : cls.carrier? = some k) :
    ∃ attrs, L.lowerParam f index t cls = k.lower L t >>= fun h => pure [⟨h, .source index 0, attrs⟩] := by
  cases cls <;> cases hk
  all_goals exact ⟨_, rfl⟩

/-- Whatever the action, the next one follows. -/
theorem ensures_bind {α β : Type} {act : StateM Session α} {next : α → StateM Session β} {post : β → Session → Prop}
    (h : ∀ a s', Ensures (next a) s' post) : Ensures (act >>= next) s post :=
  h _ _

theorem carries_lowerSplit (cc : CallConv) (index : Nat) (slots : List Slot) (part : Nat) (s : Session) :
    Ensures (L.lowerSplit cc index part slots) s fun ps _ => ∀ p ∈ ps, ∃ part, p.origin = .source index part := by
  induction slots generalizing part s with
  | nil => exact Ensures.pure fun p hp => nomatch hp
  | cons slot slots ih =>
    refine ensures_bind fun h s₁ => (ih (part + 1) s₁).bind fun rest s₂ hrest => Ensures.pure ?_
    exact List.forall_mem_cons.2 ⟨⟨part, rfl⟩, hrest⟩

/-- All machine parameters of a source parameter name it as their origin. -/
theorem carries_lowerParam (f : FnTy) (index : Nat) (t : TypeId) (cls : ParamClass) (s : Session) :
    Ensures (L.lowerParam f index t cls) s fun ps _ => ∀ p ∈ ps, ∃ part, p.origin = .source index part := by
  have one : ∀ {h : Handle} {attrs : AttrSet}, ∀ p ∈ [(⟨h, .source index 0, attrs⟩ : MachineParam)],
      ∃ part, p.origin = .source index part := List.forall_mem_singleton.2 ⟨0, rfl⟩
  unfold lowerParam
  split
  · exact Ensures.pure fun p hp => nomatch hp
  · exact ensures_bind fun h s₁ => Ensures.pure one
  · exact ensures_bind fun pointee s₁ => ensures_bind fun ptr s₂ => Ensures.pure one
  · exact ensures_bind fun h s₁ => Ensures.pure one
  · exact carries_lowerSplit f.cc index _ 0 s
  · refine ensures_bind fun ptr s₁ => ensures_bind fun len s₂ => Ensures.pure ?_
    exact List.forall_mem_cons.2 ⟨⟨0, rfl⟩, List.forall_mem_singleton.2 ⟨1, rfl⟩⟩
  · exact ensures_bind fun h s₁ => Ensures.pure one
  · exact ensures_bind fun h s₁ => Ensures.pure one

/-- The machine parameters of a source parameter, where one machine value carries all of it. -/
theorem lowerParam_spec (hL : L.Regular) (hs : s.Sound L.toSizing Idle) (c : Option Classifier) (f : FnTy) (index : Nat)
    (t : TypeId) :
    Proceeds L.toSizing Idle s (L.lowerParam f index t (L.paramClass c t)) fun ps s' =>
      (∀ p ∈ ps, ∃ part, p.origin = .source index part) ∧
        ∀ k, (L.paramClass c t).carrier? = some k →
          ∃ p, ps = [p] ∧ s'.table.layoutOf L.target p.ty = some (k.layout L.toSizing t) := by
  have horigin := @carries_lowerParam L f index t (L.paramClass c t) s
  cases hk : (L.paramClass c t).carrier? with
  | none =>
    have hmaintains : Maintains L.toSizing Idle (L.lowerParam f index t (L.paramClass c t)) :=
      (stepClosed_maintains hL (roomless_idle _)).lowerParam (L.stored_paramClass c t) Sizing.takesRoom_of_paramClass
    obtain ⟨hs', ha, -⟩ := hmaintains s hs
    exact ⟨hs', ha, horigin, fun k h => nomatch h⟩
  | some k =>
    obtain ⟨attrs, heq⟩ := @lowerParam_of_carrier L t f index _ k hk
    have hspec : Proceeds L.toSizing Idle s (L.lowerParam f index t (L.paramClass c t)) fun ps s' =>
        ∃ p, ps = [p] ∧ s'.table.layoutOf L.target p.ty = some (k.layout L.toSizing t) := by
      rw [heq]
      exact (lowerCarrier_spec hL hs (stored_carrier_param hk)).bind fun h s' hs' _ hl => .pure hs' ⟨_, rfl, hl⟩
    obtain ⟨hs', ha, hp⟩ := hspec
    refine ⟨hs', ha, horigin, fun j hj => ?_⟩
    rw [← Option.some.inj hj]
    exact hp

section

variable {α : Type} {origin : α → ParamOrigin} {index : Nat} {ps : List α}

theorem filter_isPart_self (h : ∀ p ∈ ps, ∃ part, origin p = .source index part) :
    ps.filter (fun p => (origin p).isPart index) = ps := by
  refine List.filter_eq_self.2 fun p hp => ?_
  obtain ⟨part, ho⟩ := h p hp
  simp [ParamOrigin.isPart, ho]

theorem filter_isPart_nil (h : ∀ p ∈ ps, ∀ part, origin p ≠ .source index part) :
    ps.filter (fun p => (origin p).isPart index) = [] := by
  refine List.filter_eq_nil_iff.2 fun p hp => ?_
  unfold ParamOrigin.isPart
  split
  · rename_i i part ho
    have hi : i ≠ index := fun hi => h p hp part (by rw [ho, hi])
    simpa using hi
  · simp

end

/-- Each source parameter that one machine value carries is found by its index. -/
theorem lowerParams_spec (hL : L.Regular) (hs : s.Sound L.toSizing Idle) (c : Option Classifier) (f : FnTy) (index : Nat)
    (ts : List TypeId) :
    Proceeds L.toSizing Idle s (L.lowerParams c f index ts) fun ps s' =>
      (∀ p ∈ ps, ∃ i part, p.origin = .source i part ∧ index ≤ i) ∧
        ∀ i t k, ts[i]? = some t → (L.paramClass c t).carrier? = some k →
          ∃ p, ps.filter (·.origin.isPart (index + i)) = [p] ∧
            s'.table.layoutOf L.target p.ty = some (k.layout L.toSizing t) := by
  induction ts generalizing s index with
  | nil => exact .pure hs ⟨fun p hp => (nomatch hp), fun i t k h => nomatch h⟩
  | cons t ts ih =>
    refine (lowerParam_spec hL hs c f index t).bind fun ps s₁ hs₁ _ ⟨hown, hone⟩ => ?_
    refine (ih hs₁ (index + 1)).bind fun rest s₂ hs₂ ha ⟨hlater, hrest⟩ => .pure hs₂ ⟨fun p hp => ?_, ?_⟩
    · rcases List.mem_append.1 hp with hp | hp
      · obtain ⟨part, ho⟩ := hown p hp
        exact ⟨index, part, ho, Nat.le_refl _⟩
      · obtain ⟨i, part, ho, hi⟩ := hlater p hp
        exact ⟨i, part, ho, by omega⟩
    · intro i u k hu hk
      rw [List.filter_append]
      cases i with
      | zero =>
        obtain rfl := Option.some.inj hu
        obtain ⟨p, rfl, hp⟩ := hone k hk
        have hnone : rest.filter (·.origin.isPart index) = [] := filter_isPart_nil fun q hq part ho => by
          obtain ⟨i, part', ho', hi⟩ := hlater q hq
          obtain ⟨rfl, -⟩ := ParamOrigin.source.inj (ho.symm.trans ho')
          omega
        refine ⟨p, ?_, ha.refines.table.layoutOf hp⟩
        rw [Nat.add_zero, filter_isPart_self hown, hnone]
        rfl
      | succ i =>
        obtain ⟨p, hfound, hp⟩ := hrest i u k hu hk
        have hnone : ps.filter (·.origin.isPart (index + (i + 1))) = [] := filter_isPart_nil fun q hq part ho => by
          obtain ⟨part', ho'⟩ := hown q hq
          obtain ⟨hi, -⟩ := ParamOrigin.source.inj (ho.symm.trans ho')
          omega
        refine ⟨p, ?_, hp⟩
        rw [hnone, ← hfound, Nat.add_assoc, Nat.add_comm 1 i]
        rfl

/-! ## Results -/

theorem lowerReturn_of_carrier {f : FnTy} {cls : ReturnClass} {k : Carrier} (hk : cls.carrier? = some k) :
    ∃ attrs, L.lowerReturn f cls = k.lower L f.ret >>= fun h => pure (h, attrs, []) := by
  cases cls <;> cases hk
  all_goals exact ⟨_, rfl⟩

/-- Hidden parameters carry no source parameter. -/
theorem hidden_lowerReturn (f : FnTy) (cls : ReturnClass) (s : Session) :
    Ensures (L.lowerReturn f cls) s fun r _ => ∀ p ∈ r.2.2, p.origin = .returnPointer := by
  have no : ∀ p ∈ ([] : List MachineParam), p.origin = .returnPointer := fun p hp => nomatch hp
  unfold lowerReturn
  split
  · exact ensures_bind fun h s₁ => Ensures.pure no
  · exact ensures_bind fun h s₁ => Ensures.pure no
  · exact ensures_bind fun h s₁ => Ensures.pure no
  · refine ensures_bind fun pointee s₁ => ensures_bind fun ptr s₂ => ensures_bind fun ret s₃ => Ensures.pure ?_
    exact List.forall_mem_singleton.2 rfl
  · exact ensures_bind fun h s₁ => Ensures.pure no
  · exact ensures_bind fun h s₁ => Ensures.pure no
  · exact ensures_bind fun fields s₁ => ensures_bind fun h s₂ => Ensures.pure no
  · exact ensures_bind fun h s₁ => Ensures.pure no
  · exact ensures_bind fun h s₁ => Ensures.pure no

theorem lowerReturn_spec (hL : L.Regular) (hs : s.Sound L.toSizing Idle) (c : Option Classifier) (f : FnTy) :
    Proceeds L.toSizing Idle s (L.lowerReturn f (L.returnClass c f.ret)) fun r s' =>
      (∀ p ∈ r.2.2, p.origin = .returnPointer) ∧
        ∀ k, (L.returnClass c f.ret).carrier? = some k →
          s'.table.layoutOf L.target r.1 = some (k.layout L.toSizing f.ret) := by
  have horigin := @hidden_lowerReturn L f (L.returnClass c f.ret) s
  cases hk : (L.returnClass c f.ret).carrier? with
  | none =>
    obtain ⟨hs', ha, -⟩ := (stepClosed_maintains hL (roomless_idle _)).lowerReturn (L.stored_returnClass c f.ret)
      Sizing.takesRoom_of_returnClass s hs
    exact ⟨hs', ha, horigin, fun k h => nomatch h⟩
  | some k =>
    obtain ⟨attrs, heq⟩ := @lowerReturn_of_carrier L f _ k hk
    have hspec : Proceeds L.toSizing Idle s (L.lowerReturn f (L.returnClass c f.ret)) fun r s' =>
        s'.table.layoutOf L.target r.1 = some (k.layout L.toSizing f.ret) := by
      rw [heq]
      exact (lowerCarrier_spec hL hs (stored_carrier_return hk)).bind fun h s' hs' _ hl => .pure hs' hl
    obtain ⟨hs', ha, hl⟩ := hspec
    refine ⟨hs', ha, horigin, fun j hj => ?_⟩
    rw [← Option.some.inj hj]
    exact hl

theorem lowerErrorTrace_spec (hL : L.Regular) (hs : s.Sound L.toSizing Idle) (f : FnTy) :
    Proceeds L.toSizing Idle s (L.lowerErrorTrace f) fun ps _ => ∀ p ∈ ps, p.origin = .errorTrace := by
  obtain ⟨hs', ha, -⟩ := (stepClosed_maintains hL (roomless_idle _)).lowerErrorTrace f s hs
  refine ⟨hs', ha, ?_⟩
  unfold lowerErrorTrace
  split
  · exact List.forall_mem_singleton.2 rfl
  · exact fun p hp => nomatch hp

/-! ## Signatures -/

/-- The machine values of a signature are laid out as the classifiers assume. -/
structure Carried (L : Lowering) (c : Option Classifier) (f : FnTy) (sig : Signature) (s : Session) : Prop where
  params : ∀ i t k, f.params[i]? = some t → (L.paramClass c t).carrier? = some k →
    ∃ p, sig.sourceParams i = [p] ∧ s.table.layoutOf L.target p.ty = some (k.layout L.toSizing t)
  ret : ∀ k, (L.returnClass c f.ret).carrier? = some k →
    s.table.layoutOf L.target sig.ret = some (k.layout L.toSizing f.ret)

theorem signatureWith_spec (hL : L.Regular) (hs : s.Sound L.toSizing Idle) (c : Option Classifier) (f : FnTy) :
    Proceeds L.toSizing Idle s (L.signatureWith c f) fun sig s' => L.Carried c f sig s' := by
  refine (lowerReturn_spec hL hs c f).bind ?_
  rintro ⟨ret, retAttrs, hidden⟩ s₁ hs₁ - ⟨hhidden, hret⟩
  refine (lowerErrorTrace_spec hL hs₁ f).bind fun trace s₂ hs₂ ha₂ htrace => ?_
  refine (lowerParams_spec hL hs₂ c f 0 f.params).bind fun ps s₃ hs₃ ha₃ ⟨_, hps⟩ => .pure hs₃ ⟨?_, fun k hk => ?_⟩
  · intro i t k ht hk
    obtain ⟨p, hfound, hl⟩ := hps i t k ht hk
    refine ⟨p, ?_, hl⟩
    have hnone : (hidden ++ trace).filter (·.origin.isPart i) = [] := filter_isPart_nil fun q hq part ho => by
      rcases List.mem_append.1 hq with hq | hq
      · rw [hhidden q hq] at ho
        cases ho
      · rw [htrace q hq] at ho
        cases ho
    have hsplit : (hidden ++ trace ++ ps).filter (·.origin.isPart i) = [p] := by
      rw [List.filter_append, hnone, ← hfound, Nat.zero_add]
      rfl
    exact hsplit
  · exact (ha₂.trans ha₃).refines.table.layoutOf (hret k hk)

theorem carried_signature (hL : L.Regular) (hs : s.Sound L.toSizing Idle) {c : Option Classifier} {f : FnTy}
    (hc : classifierFor f.cc L.target = .ok c) :
    ∃ sig s', (L.signature f).run.run s = (.ok sig, s') ∧ L.Carried c f sig s' := by
  have hspec := signatureWith_spec hL hs c f
  refine ⟨_, _, ?_, hspec.2.2⟩
  rw [signature, hc]
  rfl

theorem holds_iff {k : Carrier} {h : Handle} (hl : s.table.layoutOf L.target h = some (k.layout L.toSizing t)) :
    s.Holds L.toSizing h t ↔ k.Holds L.toSizing t := by
  refine ⟨fun ⟨m, hm, hle⟩ => ?_, fun hk => ⟨_, hl, hk⟩⟩
  obtain rfl := Option.some.inj (hl.symm.trans hm)
  exact hle

/-- Where one machine value carries a parameter, it is large enough, and so it is with the result, unless that is an
integer or packed container of more than 16 bytes which the Windows convention returns. -/
theorem holds_signature (hL : L.Regular) (hs : L.Reachable s) {f : FnTy} (hf : f.cc ≠ .async) :
    ∃ sig s', (L.signature f).run.run s = (.ok sig, s') ∧
      (∀ i t cls, f.params[i]? = some t → L.classifyParam f.cc t = .ok cls → cls.carrier?.isSome = true →
        ∃ p, sig.sourceParams i = [p] ∧ s'.Holds L.toSizing p.ty t) ∧
      ∀ cls, L.classifyReturn f.cc f.ret = .ok cls → cls.carrier?.isSome = true →
        (s'.Holds L.toSizing sig.ret f.ret ↔
          ¬(classifierFor f.cc L.target = .ok (some .win64) ∧ Win64.Oversized L.toSizing f.ret)) := by
  obtain ⟨c, hc⟩ := exists_classifier hf L.target
  obtain ⟨sig, s', hrun, hcarried⟩ := carried_signature hL (hs.sound hL) hc
  refine ⟨sig, s', hrun, fun i t cls ht hcls hone => ?_, fun cls hcls hone => ?_⟩
  · rw [Sizing.classifyParam, hc] at hcls
    obtain rfl := Except.ok.inj hcls
    obtain ⟨k, hk⟩ := Option.isSome_iff_exists.1 hone
    obtain ⟨p, hp, hl⟩ := hcarried.params i t k ht hk
    exact ⟨p, hp, (holds_iff hl).2 (Sizing.carries_paramClass hL c t k hk)⟩
  · rw [Sizing.classifyReturn, hc] at hcls
    obtain rfl := Except.ok.inj hcls
    obtain ⟨k, hk⟩ := Option.isSome_iff_exists.1 hone
    rw [holds_iff (hcarried.ret k hk), Sizing.holds_returnClass hL hk, hc]
    simp only [Except.ok.injEq]

end Lowering

/-- A Windows function of a tagged union. -/
def FnTy.sample (ret : TypeId) : FnTy := ⟨[⟨23⟩], ret, .win64, false, 0⟩

namespace Lowering

/-- With an integer of 128 bits as its result, parameter and result have room. -/
theorem holds_signature_sample :
    ∃ sig s', ((⟨.sample, .standard⟩ : Lowering).signature (.sample ⟨12⟩)).run.run .empty = (.ok sig, s') ∧
      (∃ p, sig.sourceParams 0 = [p] ∧ s'.Holds .sample p.ty ⟨23⟩) ∧ s'.Holds .sample sig.ret ⟨12⟩ := by
  obtain ⟨sig, s', hrun, hparams, hret⟩ := holds_signature (L := ⟨.sample, .standard⟩) (f := .sample ⟨12⟩)
    Sizing.regular_sample .empty (by decide)
  refine ⟨sig, s', hrun, hparams 0 ⟨23⟩ .abiSizedInt rfl (by decide +kernel) rfl, ?_⟩
  refine (hret (.widened (.intVector 2 64)) (by decide +kernel) rfl).2 fun h => ?_
  exact absurd h.2.2 (by decide +kernel)

theorem returnClass_sample : Sizing.sample.returnClass (some .win64) ⟨21⟩ = .widened (.intVector 2 64) := by
  decide +kernel

theorem oversized_sample : Win64.Oversized .sample ⟨21⟩ := ⟨by decide +kernel, by decide +kernel⟩

/-- With one of 256 bits, the result is returned as a vector that has no room for it. -/
theorem exists_not_holds_signature :
    ∃ (L : Lowering) (f : FnTy) (cls : ReturnClass) (sig : Signature) (s' : Session), L.Regular ∧ f.cc ≠ .async ∧
      (L.signature f).run.run .empty = (.ok sig, s') ∧ L.classifyReturn f.cc f.ret = .ok cls ∧
      cls.carrier?.isSome = true ∧ ¬s'.Holds L.toSizing sig.ret f.ret := by
  have hc : classifierFor (FnTy.sample ⟨21⟩).cc Sizing.sample.target = .ok (some .win64) := by decide +kernel
  have hk : (Sizing.sample.returnClass (some .win64) ⟨21⟩).carrier? = some (.slot (.intVector 2 64)) := by
    rw [returnClass_sample]
    rfl
  obtain ⟨sig, s', hrun, hcarried⟩ :=
    carried_signature (L := ⟨.sample, .standard⟩) Sizing.regular_sample (sound_empty _) hc
  refine ⟨⟨.sample, .standard⟩, _, .widened (.intVector 2 64), sig, s', Sizing.regular_sample, by decide, hrun,
    by decide +kernel, rfl, fun h => ?_⟩
  have hholds := (holds_iff (hcarried.ret _ hk)).1 h
  exact (Sizing.holds_returnClass Sizing.regular_sample hk).1 hholds ⟨rfl, oversized_sample⟩

end Lowering

end MachineAbi
