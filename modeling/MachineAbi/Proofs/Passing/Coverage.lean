import MachineAbi.Proofs.Passing.Carriers
import MachineAbi.Proofs.Passing.Eightbytes
import MachineAbi.Proofs.Passing.Stored

/-!
# Split values are carried whole

A class may say that several machine values carry a value, each from an offset in it on (`Classifier.slotOffset`). Every
byte of every scalar inside the value should lie in one of them (`Classifier.Covers`).

* Words do, if there are enough of them (`Classifier.covers_words`), and so do the fields of a struct.
* So do eightbytes, unless the class of a float hides that an enum of more than eight bytes lies below the float
  (`SysV.Truncates`, `SysV.covers_iff`). A scalar that reaches into the second eightbyte gives it a class otherwise, and
  merged classes are at least as wide.
-/

namespace MachineAbi

/-- The offset in a value of type `t` of what slot number `k` carries. -/
def Classifier.slotOffset (c : Classifier) (Z : Sizing) (t : TypeId) (k : Nat) (slot : Slot) : Nat :=
  match c, slot with
  | .riscv, .source _ => ((Z.members t)[k]?.map (·.offset)).getD 0
  | .riscv, .int bits | .armSoft, .int bits | .armVfp, .int bits => k * (bits / 8)
  | _, _ => 8 * k

/-- Byte `p` of a value of type `t` lies in the span of one of the slots. -/
def Classifier.Carries (c : Classifier) (Z : Sizing) (t : TypeId) (slots : List Slot) (p : Nat) : Prop :=
  ∃ k slot, slots[k]? = some slot ∧ c.slotOffset Z t k slot ≤ p ∧ p < c.slotOffset Z t k slot + (slot.layout Z).size

/-- Every byte of every scalar inside a value of type `t` lies in the span of one of the slots. -/
def Classifier.Covers (c : Classifier) (Z : Sizing) (t : TypeId) (slots : List Slot) : Prop :=
  ∀ l, Z.Leaf t l → ∀ p, Z.Spans l p → c.Carries Z t slots p

variable {Z : Sizing} {t : TypeId} {c : Classifier} {slots : List Slot}

/-! ## Words -/

theorem Target.bytes_le_machineInt {T : Target} (hT : T.Supported) (bytes : Nat) :
    bytes ≤ (T.machineInt (8 * bytes)).size := by
  have hle := bytesFor_le_machineInt hT (8 * bytes)
  have hb : bytesFor (8 * bytes) = bytes := by
    unfold bytesFor
    omega
  rwa [hb] at hle

/-- Enough words carry the whole value. -/
theorem Classifier.covers_words (hZ : Z.Regular) (hE : Z.ErrorsAreCodes) (hmax : (Z.layout t).size < Layout.maxSize)
    {n bytes : Nat} (hoff : ∀ k, c.slotOffset Z t k (.int (8 * bytes)) = k * bytes)
    (hn : (Z.layout t).size ≤ n * bytes) :
    c.Covers Z t (.replicate n (.int (8 * bytes))) := by
  intro l hl p hp
  have hin := (Sizing.leaf_inside hZ hE hmax hl).2
  have hlt : p < n * bytes := by
    have := hp.2
    omega
  have hpos : 0 < bytes := Nat.pos_of_ne_zero fun h => by simp [h] at hlt
  have hk : p / bytes < n := Nat.div_lt_of_lt_mul (Nat.mul_comm n bytes ▸ hlt)
  have hword : bytes ≤ ((Slot.int (8 * bytes)).layout Z).size := Target.bytes_le_machineInt hZ.supported bytes
  refine ⟨p / bytes, .int (8 * bytes), by simp [hk], ?_, ?_⟩
  · rw [hoff]
    exact Nat.div_mul_le_self p bytes
  · have hdiv := Nat.div_add_mod p bytes
    have hmod := Nat.mod_lt p hpos
    rw [hoff, Nat.mul_comm]
    omega

theorem Aarch64.slots_of_split (h : classifyParam Z t = .split slots ∨ classifyReturn Z t = .split slots) :
    slots = .replicate 2 (.int 64) ∧ (Z.layout t).size ≤ 16 := by
  have hkind : slots = registerPair ∧ kind Z t = .doubleInteger := by
    unfold classifyParam classifyReturn at h
    cases hk : kind Z t <;> rw [hk] at h <;> simp_all
  obtain ⟨rfl, hk⟩ := hkind
  refine ⟨rfl, ?_⟩
  unfold kind at hk
  dsimp only at hk
  repeat' split at hk
  all_goals cases hk
  omega

namespace Arm

variable {hardFloat isReturn : Bool} {n : Nat}

theorem aggregateKind_of_kind {k : Kind} (hk : kind Z hardFloat isReturn t = k) (hv : k ≠ .byValue) (hm : k ≠ .memory) :
    aggregateKind Z hardFloat t = k := by
  unfold kind at hk
  dsimp only at hk
  repeat' split at hk
  all_goals simp_all

theorem le_words {size align : Nat} (ha : align.isPowerOfTwo) : size ≤ alignUp size align / align * align := by
  rw [Nat.div_mul_cancel (dvd_alignUp ha)]
  exact le_alignUp ha

/-- An aggregate has at most the size of its words. -/
theorem size_of_words (hk : kind Z hardFloat isReturn t = .words n) :
    (Z.layout t).size ≤ maxByValue ∧ (Z.layout t).size ≤ n * 4 := by
  have hk := aggregateKind_of_kind hk nofun nofun
  unfold aggregateKind at hk
  dsimp only at hk
  repeat' split at hk
  all_goals cases hk
  exact ⟨Nat.le_of_not_lt ‹_›, le_words ⟨2, rfl⟩⟩

theorem size_of_doubleWords (hk : kind Z hardFloat isReturn t = .doubleWords n) :
    (Z.layout t).size ≤ maxByValue ∧ (Z.layout t).size ≤ n * 8 := by
  have hk := aggregateKind_of_kind hk nofun nofun
  unfold aggregateKind at hk
  dsimp only at hk
  repeat' split at hk
  all_goals cases hk
  exact ⟨Nat.le_of_not_lt ‹_›, le_words ⟨3, rfl⟩⟩

theorem slots_of_split (h : classifyParam Z hardFloat t = .split slots ∨ classifyReturn Z hardFloat t = .split slots) :
    (Z.layout t).size ≤ maxByValue ∧
      ∃ n bytes, slots = .replicate n (.int (8 * bytes)) ∧ (Z.layout t).size ≤ n * bytes := by
  rcases h with h | h
  · unfold classifyParam at h
    split at h
    · cases hw : widenedHalf? Z t <;> simp [hw] at h
    · cases h
    · obtain ⟨hmax, hs⟩ := size_of_words ‹_›
      exact ⟨hmax, _, 4, (ParamClass.split.inj h).symm, hs⟩
    · obtain ⟨hmax, hs⟩ := size_of_doubleWords ‹_›
      exact ⟨hmax, _, 8, (ParamClass.split.inj h).symm, hs⟩
  · unfold classifyReturn at h
    split at h
    · cases hw : widenedHalf? Z t <;> simp [hw] at h
    · obtain ⟨hmax, hs⟩ := size_of_words ‹_›
      exact ⟨hmax, 1, 4, (ReturnClass.split.inj h).symm, hs⟩
    · cases h
    · cases h
    · cases h

end Arm

namespace RiscV

theorem size_of_pair (h : kind Z t = .doubleInteger) : (Z.layout t).size * 8 ≤ 2 * xlen Z.target := by
  unfold kind aggregateKind at h
  dsimp only at h
  repeat' split at h
  all_goals cases h
  all_goals exact Nat.le_of_not_lt ‹_›

theorem slots_of_split (h : classifyParam Z t = .split slots ∨ classifyReturn Z t = .split slots) :
    (slots = registerPair Z.target ∧ (Z.layout t).size * 8 ≤ 2 * xlen Z.target) ∨ floatFields? Z t = some slots := by
  have hkind : kind Z t = .doubleInteger ∧ slots = registerPair Z.target ∨ kind Z t = .fields slots := by
    rcases h with h | h
    · unfold classifyParam at h
      split at h
      · cases hw : widenedHalf? Z t <;> simp [hw] at h
      all_goals simp_all
    · unfold classifyReturn at h
      split at h
      · cases hw : widenedHalf? Z t <;> simp [hw] at h
      all_goals simp_all
  rcases hkind with ⟨hk, rfl⟩ | hk
  · exact Or.inl ⟨rfl, size_of_pair hk⟩
  · exact Or.inr (floatFields_of_kind hk)

/-- A field that travels on its own is an atom, and occupies bytes if it takes room. -/
theorem atom_of_fieldKind (hZ : Z.Regular) (hI : Z.TagsAreIntegers) {f : TypeId} (h : fieldKind Z f ≠ .other) :
    Z.isAtom f = true ∧ (Z.takesRoom f = true → 0 < (Z.layout f).size) := by
  have hT := hZ.supported
  have int : ∀ {bits}, Z.layout f = Z.target.intLayout bits → Z.takesRoom f = decide (0 < bits) →
      Z.takesRoom f = true → 0 < (Z.layout f).size := by
    intro bits hl hr hroom
    rw [hr] at hroom
    rw [hl]
    exact Target.intLayout_size_pos hT (Nat.ne_of_gt (of_decide_eq_true hroom))
  unfold fieldKind at h
  unfold Sizing.isAtom
  cases hd : Z.get f with
  | bool =>
    refine ⟨rfl, fun _ => ?_⟩
    rw [Sizing.layout, Sizing.extent_eq, hd]
    exact Nat.one_pos
  | int bits sign => exact ⟨rfl, int (Sizing.layout_of_extent (Sizing.extent_of_get hd)) (by rw [Z.takesRoom_eq, hd])⟩
  | float bits =>
    refine ⟨rfl, fun _ => ?_⟩
    obtain ⟨k, hk⟩ := Option.isSome_iff_exists.1 (hZ.floats f bits hd)
    rw [Sizing.layout_of_extent (Sizing.extent_of_get hd)]
    exact Target.floatLayout_size_pos hT hk
  | enum name tag variants =>
    obtain ⟨bits, sign, htag⟩ := hI f name tag variants hd
    have hl : Z.layout f = Z.target.intLayout bits :=
      (Sizing.layout_of_extent (Sizing.extent_enum hd)).trans (Sizing.layout_of_extent (Sizing.extent_of_get htag))
    exact ⟨rfl, int hl (by rw [Z.takesRoom_eq, hd]; dsimp only; rw [Z.takesRoom_eq, htag])⟩
  | pointer p =>
    have hp : p.isSlice = false := by
      by_contra hp
      simp [hd, hp] at h
    refine ⟨rfl, fun _ => ?_⟩
    rw [Sizing.layout_pointer hd, PointerTy.layout, if_neg (by simp [hp])]
    exact (Target.machinePtr_sane hT p.addrSpace).2
  | _ => simp [hd] at h

theorem map_ty_sequence (layout : TypeId → Layout) (offset : Nat) (ts : List TypeId) :
    (Member.sequence layout offset ts).map (·.ty) = ts.filter fun c => 0 < (layout c).size := by
  induction ts generalizing offset with
  | nil => rfl
  | cons t ts ih =>
    rw [Member.sequence]
    by_cases h : 0 < (layout t).size
    · simp [h, ih]
    · simp [h, ih]

/-- Each slot is of the type of the member with its number. -/
theorem slots_eq_members (hZ : Z.Regular) (hI : Z.TagsAreIntegers) (h : floatFields? Z t = some slots) :
    slots = (Z.members t).map (fun m => .source m.ty) ∧ (∀ m ∈ Z.members t, Z.isAtom m.ty = true) ∧ slots ≠ [] := by
  obtain ⟨fields, hfields, h⟩ := Option.bind_eq_some_iff.1 h
  obtain ⟨⟨-, hno, hfloat⟩, h⟩ := Option.ite_none_right_eq_some.1 h
  have atom : ∀ f ∈ fields, _ := fun f hf =>
    atom_of_fieldKind hZ hI (f := f) fun ho => hno (ho ▸ List.mem_map_of_mem hf)
  have inOrder : ∀ ts : List TypeId, fields = ts.filter Z.takesRoom → Z.members t = Member.sequence Z.layout 0 ts →
      fields = (Z.members t).map (·.ty) := by
    intro ts hts hm
    rw [hm, map_ty_sequence, hts]
    refine List.filter_congr fun c hc => ?_
    cases hr : Z.takesRoom c with
    | true => simpa using (atom c (hts ▸ List.mem_filter.2 ⟨hc, hr⟩)).2 hr
    | false => simp [Sizing.layout_of_not_takesRoom hZ.supported hr, Layout.zero]
  have hmembers : fields = (Z.members t).map (·.ty) := by
    unfold storedFields? at hfields
    split at hfields
    · rename_i s hd
      split at hfields
      · cases hfields
      · rename_i hs
        exact inOrder _ (Option.some.inj hfields).symm (by simp [Sizing.members, hd, hs])
    · rename_i ts hd
      exact inOrder _ (Option.some.inj hfields).symm (by simp only [Sizing.members, hd])
    · cases hfields
  refine ⟨?_, fun m hm => (atom m.ty (hmembers ▸ List.mem_map_of_mem hm)).1, ?_⟩
  · rw [← Option.some.inj h, hmembers, List.map_map]
    rfl
  · rintro rfl
    have hnil : fields = [] := by simpa using Option.some.inj h
    simp [hnil] at hfloat

theorem covers_fields (hZ : Z.Regular) (hI : Z.TagsAreIntegers) (h : floatFields? Z t = some slots) :
    Classifier.riscv.Covers Z t slots := by
  obtain ⟨hslots, hatoms, hne⟩ := slots_eq_members hZ hI h
  intro l hl p hp
  cases hl with
  | self hm => exact absurd (by rw [hslots, hm]; rfl) hne
  | @member _ m l hm hl =>
    obtain ⟨k, hk⟩ := List.getElem?_of_mem hm
    have hnone := Sizing.members_of_isAtom (hatoms m hm)
    refine ⟨k, .source m.ty, by rw [hslots, List.getElem?_map, hk]; rfl, ?_⟩
    cases hl with
    | self => simpa [Classifier.slotOffset, hk, Slot.layout, Sizing.Spans] using hp
    | member h => exact absurd (hnone ▸ h) List.not_mem_nil

end RiscV

/-! ## Eightbytes -/

namespace SysV

open EightbyteClass

/-- The second eightbyte has the class of a float, and below the float lies an enum that is wider than its first
eightbyte. Only the float is carried. -/
def Truncates (Z : Sizing) (t : TypeId) : Prop :=
  (∃ e, Eightbytes.of? Z t = some e ∧ e.high = .float) ∧ ∃ l, Z.Leaf t l ∧ WideEnum Z l.ty

variable {e : Eightbytes}

theorem of_eq_some (h : Eightbytes.of? Z t = some e) :
    (Z.layout t).size ≤ 16 ∧ e = Eightbytes.empty.classify Z t 0 ∧ e.low ≠ memory ∧ e.high ≠ memory ∧
      (e.high = x87Up → e.low = x87) := by
  unfold Eightbytes.of? at h
  split at h
  · cases h
  · rename_i hs
    dsimp only at h
    split at h
    · cases h
    · rename_i hmem
      split at h
      · cases h
      · rename_i hup
        obtain rfl := Option.some.inj h
        exact ⟨Nat.le_of_not_lt hs, rfl, fun hl => hmem (Or.inr (Or.inl hl)), fun hh => hmem (Or.inr (Or.inr hh)),
          fun hh => by_contra fun hl => hup ⟨hh, hl⟩⟩

theorem slots_of_split (h : classifyParam Z t = .split slots ∨ classifyReturn Z t = .split slots) :
    ∃ e, Eightbytes.of? Z t = some e ∧ e.isOneInteger = false ∧ slots = e.slots := by
  rcases h with h | h
  · unfold classifyParam at h
    repeat' split at h
    all_goals cases h
    exact ⟨_, ‹_›, by simpa using ‹¬_ = true›, rfl⟩
  · unfold classifyReturn at h
    repeat' split at h
    all_goals cases h
    exact ⟨_, ‹_›, by simpa using ‹¬_ = true›, rfl⟩

/-- The slot of a first eightbyte. -/
def slotOf : EightbyteClass → Slot
  | integer => .int 64
  | sse => .float .double
  | float => .float .float
  | floatCombine => .floatVector 2 .float
  | _ => .float .x86Fp80

/-- The class of a first eightbyte that is not empty. -/
def IsFirst (c : EightbyteClass) : Prop := c = integer ∨ c = sse ∨ c = float ∨ c = floatCombine ∨ c = x87

theorem isFirst_of_ne {c : EightbyteClass} : c ≠ .none → c ≠ sseUp → c ≠ x87Up → c ≠ memory → IsFirst c := by
  cases c <;> simp [IsFirst]

theorem slots_zero (hlow : IsFirst e.low) :
    e.slots[0]? = some (if e.high = sseUp then widenSlot (slotOf e.low) else slotOf e.low) := by
  obtain ⟨low, high, overflow⟩ := e
  rcases hlow with rfl | rfl | rfl | rfl | rfl <;> cases high <;> rfl

theorem slots_one (hlow : IsFirst e.low) (hhigh : IsFirst e.high) : e.slots = [slotOf e.low, slotOf e.high] := by
  obtain ⟨low, high, overflow⟩ := e
  rcases hlow with rfl | rfl | rfl | rfl | rfl <;> rcases hhigh with rfl | rfl | rfl | rfl | rfl <;> rfl

theorem le_vectorLayout {T : Target} (hT : T.Supported) (bits : Nat) : bytesFor bits ≤ (T.vectorLayout bits).size :=
  le_alignUp (Target.isPowerOfTwo_vectorAlign hT bits)

theorem le_machineFloat {T : Target} (hT : T.Supported) (k : FloatKind) : k.storeBytes ≤ (T.machineFloat k).size :=
  le_alignUp (Target.isPowerOfTwo_floatAlign hT k.bits)

/-- The slot of a float is as large as the float, other slots fill their eightbyte, and that of the x87 unit both. -/
theorem le_slotOf (hT : Z.target.Supported) (hX : Z.target.arch = .x86_64) (k : EightbyteClass) :
    match k with
    | float => 4 ≤ ((slotOf k).layout Z).size
    | integer | sse | floatCombine => 8 ≤ ((slotOf k).layout Z).size
    | _ => 16 ≤ ((slotOf k).layout Z).size := by
  have h80 : 16 ≤ (Z.target.machineFloat .x86Fp80).size := by
    obtain ⟨text, triple, hZ⟩ := Target.eq_ofComponents_x86_64 hT hX
    have halign : Z.target.floatAlign 80 = 16 := by
      rw [hZ]
      rfl
    show 16 ≤ alignUp 10 (Z.target.floatAlign 80)
    rw [halign]
    decide
  cases k with
  | integer => exact Target.bytes_le_machineInt hT 8
  | sse => exact le_machineFloat hT .double
  | float => exact le_machineFloat hT .float
  | floatCombine => exact le_vectorLayout hT (2 * 32)
  | _ => exact h80

/-- The slot of an eightbyte reaches to its end, or to that of its float. -/
theorem lt_slotOf (hT : Z.target.Supported) (hX : Z.target.arch = .x86_64) {k : EightbyteClass} (hk : IsFirst k)
    {p : Nat} (hp : p < 8) (hf : k = float → p < 4) : p < ((slotOf k).layout Z).size := by
  have hle := le_slotOf hT hX k
  rcases hk with rfl | rfl | rfl | rfl | rfl
  case inr.inr.inl => exact Nat.lt_of_lt_of_le (hf rfl) hle
  all_goals exact Nat.lt_of_lt_of_le (by omega) hle

theorem le_widenSlot (hT : Z.target.Supported) (slot : Slot) : 16 ≤ ((widenSlot slot).layout Z).size := by
  unfold widenSlot
  split
  · exact le_vectorLayout hT (2 * 64)
  · exact le_vectorLayout hT (4 * 32)

theorem slotOffset_sysv (k : Nat) (slot : Slot) : Classifier.sysv.slotOffset Z t k slot = 8 * k := by
  cases slot <;> rfl

section

variable (hZ : Z.Regular) (hE : Z.ErrorsAreCodes) (hI : Z.TagsAreIntegers) (hX : Z.target.arch = .x86_64)

include hZ hE hI hX

/-- The first eightbyte of a value that takes room has the class of a first half. -/
theorem isFirst_low (he : Eightbytes.of? Z t = some e) (hpos : 0 < (Z.layout t).size) : IsFirst e.low := by
  obtain ⟨hs, rfl, hmem, -, -⟩ := of_eq_some he
  obtain ⟨ds, hds⟩ := exists_deposited hZ hE hX hs
  have hlow : (Eightbytes.empty.classify Z t 0).low = mergeAll (meeting 0 ds) := hds.half_eq Nat.zero_lt_two
  rw [hlow] at hmem ⊢
  have hbegins : ∀ c ∈ meeting 0 ds, c.Begins := by
    intro c hc
    obtain ⟨d, hd, hat⟩ := List.mem_filterMap.1 hc
    unfold depositAt at hat
    split at hat
    · exact (hds.sound d hd).2.begins c (by rwa [Nat.zero_sub, ← List.head?_eq_getElem?] at hat)
    · cases hat
  obtain ⟨hup, hup'⟩ := mergeAll_ne_up hbegins
  refine isFirst_of_ne (fun hnone => ?_) hup hup' hmem
  have hnil := eq_nil_of_mergeAll (hds.none_notMem 0) hnone
  obtain ⟨l, hl, hp⟩ := Sizing.exists_leaf_spans hZ hE (Nat.lt_of_le_of_lt hs (by decide)) (Nat.dvd_zero _) hpos
  rcases hds.exists_deposit hZ hE hI hX hs hl hp with ⟨d, hd, -, hsome⟩ | ⟨hone, -⟩
  · obtain ⟨c, hc⟩ := Option.isSome_iff_exists.1 hsome
    have hmem : c ∈ meeting 0 ds := List.mem_filterMap.2 ⟨d, hd, hc⟩
    rw [hnil] at hmem
    exact List.not_mem_nil hmem
  · exact absurd hone (by decide)

/-- Where there is no class in the second eightbyte although a scalar reaches into it, the first one is an integer. -/
theorem low_of_high_none (he : Eightbytes.of? Z t = some e) (hhigh : e.high = .none) {l : Member} {p : Nat}
    (hl : Z.Leaf t l) (hp : Z.Spans l p) (h8 : p / 8 = 1) : e.low = integer := by
  obtain ⟨hs, rfl, hmem, -, -⟩ := of_eq_some he
  obtain ⟨ds, hds⟩ := exists_deposited hZ hE hX hs
  have hlow : (Eightbytes.empty.classify Z t 0).low = mergeAll (meeting 0 ds) := hds.half_eq Nat.zero_lt_two
  have hhalf : (Eightbytes.empty.classify Z t 0).high = mergeAll (meeting 1 ds) := hds.half_eq Nat.one_lt_two
  have hnil := eq_nil_of_mergeAll (hds.none_notMem 1) (hhalf.symm.trans hhigh)
  rcases hds.exists_deposit hZ hE hI hX hs hl hp with ⟨d, hd, -, hsome⟩ | ⟨-, -, -, hint⟩
  · obtain ⟨c, hc⟩ := Option.isSome_iff_exists.1 hsome
    have hmem : c ∈ meeting 1 ds := List.mem_filterMap.2 ⟨d, hd, h8 ▸ hc⟩
    rw [hnil] at hmem
    exact absurd hmem List.not_mem_nil
  · rw [hlow] at hmem ⊢
    exact (mergeAll_of_mem_integer hint).resolve_right hmem

/-- What is not behind a float that hides it is carried. -/
theorem covers_of_not_truncates (he : Eightbytes.of? Z t = some e) (hone : e.isOneInteger = false)
    (hno : ¬Truncates Z t) : Classifier.sysv.Covers Z t e.slots := by
  obtain ⟨hs, heq, hmemL, hmemH, hx87⟩ := of_eq_some he
  obtain ⟨ds, hds⟩ := exists_deposited hZ hE hX hs
  have hT := hZ.supported
  have hlow : e.low = mergeAll (meeting 0 ds) := heq ▸ hds.half_eq Nat.zero_lt_two
  have hhigh : e.high = mergeAll (meeting 1 ds) := heq ▸ hds.half_eq Nat.one_lt_two
  have hmax : (Z.layout t).size < Layout.maxSize := Nat.lt_of_le_of_lt hs (by decide)
  intro l hl p hp
  have hin := (Sizing.leaf_inside hZ hE hmax hl).2
  have hend := hp.2
  have hfirst := isFirst_low hZ hE hI hX he (by omega)
  have hzero := slots_zero hfirst
  have carried : ∀ k slot, e.slots[k]? = some slot → 8 * k ≤ p → p < 8 * k + (slot.layout Z).size →
      Classifier.sysv.Carries Z t e.slots p := fun k slot hk hle hlt =>
    ⟨k, slot, hk, by rwa [slotOffset_sysv], by rwa [slotOffset_sysv]⟩
  by_cases hwide : e.high = sseUp
  · -- one vector carries both eightbytes
    rw [if_pos hwide] at hzero
    have := le_widenSlot hT (slotOf e.low)
    exact carried 0 _ hzero (Nat.zero_le p) (by omega)
  rw [if_neg hwide] at hzero
  rcases Nat.lt_or_ge p 8 with hp8 | hp8
  · refine carried 0 _ hzero (Nat.zero_le p) ?_
    rw [Nat.mul_zero, Nat.zero_add]
    refine lt_slotOf hT hX hfirst hp8 fun hf => ?_
    obtain ⟨first, hfl, hfp⟩ := Sizing.exists_leaf_spans hZ hE hmax (Nat.dvd_zero _) (by omega)
    simpa using hds.lt_of_float hZ hE hI hX hs (hlow.symm.trans hf) nofun hfl hfp hl hp (Nat.div_eq_of_lt hp8)
  · have hp1 : p / 8 = 1 := by omega
    by_cases hup : e.high = x87Up
    · -- one value of the x87 unit carries both eightbytes
      have := le_slotOf hT hX e.low
      rw [hx87 hup] at this hzero
      exact carried 0 _ hzero (Nat.zero_le p) (by dsimp only at this; omega)
    have hnone : e.high ≠ .none := fun hnone => by
      have hint := low_of_high_none hZ hE hI hX he hnone hl hp hp1
      simp [Eightbytes.isOneInteger, hint, hnone] at hone
    have hsecond := isFirst_of_ne hnone hwide hup hmemH
    refine carried 1 (slotOf e.high) (by rw [slots_one hfirst hsecond]; rfl) hp8 ?_
    have hlt := lt_slotOf hT hX hsecond (p := p - 8) (by omega) fun hf => ?_
    · omega
    · obtain ⟨first, hfl, hfp⟩ := exists_leaf_spans_eight hZ hE hs (by omega)
      have hlt := hds.lt_of_float hZ hE hI hX hs (hhigh.symm.trans hf)
        (fun _ l hl hw => hno ⟨⟨e, he, hf⟩, l, hl, hw⟩) hfl hfp hl hp hp1
      omega

omit hZ hE hI hX in
/-- A wide enum gives the first eightbyte its class only. -/
theorem Deposits.head_of_wideEnum {c : TypeId} {cs : List EightbyteClass} (h : Deposits Z c cs) (hw : WideEnum Z c) :
    depositAt 0 0 cs = some integer := by
  obtain ⟨-, name, tag, variants, hd⟩ := hw
  have hput := h.put 0 .empty
  simp only [Eightbytes.putScalar?, hd] at hput
  have hhalf : (Eightbytes.empty.put 0 integer).half 0 = (Eightbytes.empty.putAll 0 cs).half 0 :=
    congrArg (Eightbytes.half · 0) (Option.some.inj hput)
  rw [Eightbytes.half_putAll Nat.zero_lt_two] at hhalf
  cases hcs : depositAt 0 0 cs with
  | none =>
    rw [hcs] at hhalf
    cases hhalf
  | some k =>
    rw [hcs] at hhalf
    cases k <;> first | rfl | cases hhalf

/-- Behind a float that hides part of an enum, there is a byte that nothing carries. -/
theorem not_covers_of_truncates (he : Eightbytes.of? Z t = some e) (ht : Truncates Z t) :
    ¬Classifier.sysv.Covers Z t e.slots := by
  obtain ⟨⟨_, he', hfloat⟩, l, hl, hwide⟩ := ht
  obtain rfl := Option.some.inj (he.symm.trans he')
  obtain ⟨hs, heq, hmemL, -, -⟩ := of_eq_some he
  obtain ⟨ds, hds⟩ := exists_deposited hZ hE hX hs
  have hT := hZ.supported
  have hlow : e.low = mergeAll (meeting 0 ds) := heq ▸ hds.half_eq Nat.zero_lt_two
  have hmax : (Z.layout t).size < Layout.maxSize := Nat.lt_of_le_of_lt hs (by decide)
  obtain ⟨⟨hdvd, -⟩, hin⟩ := Sizing.leaf_inside hZ hE hmax hl
  have h8 := hwide.1
  have ha := Sizing.isAtom_of_leaf hZ hE (by omega) hl (by omega)
  -- the enum is aligned to an eightbyte, so it is the whole value
  have halign : 8 ∣ (Z.layout l.ty).align := by
    rcases withinEightbyte_of_isAtom hZ hI hX ha (by omega) with hle | hdvd
    · exact dvd_of_isPowerOfTwo_of_le ⟨3, rfl⟩ (Sizing.placeable hZ l.ty).align (by omega)
    · exact hdvd
  have hsize := Nat.dvd_trans halign (Sizing.align_dvd_size hZ.formatted l.ty (by omega))
  have hoffset := Nat.dvd_trans halign hdvd
  have hspan : Z.Spans l 12 := ⟨by omega, by omega⟩
  have hint : e.low = integer := by
    obtain ⟨d, hd, rfl⟩ := hds.complete l hl (by omega)
    have hzero : d.offset = 0 := by omega
    rw [hlow] at hmemL ⊢
    refine (mergeAll_of_mem_integer (List.mem_filterMap.2 ⟨d, hd, ?_⟩)).resolve_right hmemL
    rw [hzero]
    exact (hds.sound d hd).2.head_of_wideEnum hwide
  intro hcovers
  obtain ⟨k, slot, hk, hle, hlt⟩ := hcovers l hl 12 hspan
  rw [slots_one (by simp [IsFirst, hint]) (by simp [IsFirst, hfloat]), hint, hfloat] at hk
  rw [slotOffset_sysv] at hle hlt
  obtain rfl | rfl : k = 0 ∨ k = 1 := by omega
  · obtain rfl := Option.some.inj hk
    have hword : ((slotOf integer).layout Z).size = 8 := by
      show (Z.target.machineInt 64).size = 8
      rw [Target.machineInt_eq hT, Target.intLayout_eightbyte hT hX]
    omega
  · obtain rfl := Option.some.inj hk
    have hshort : ((slotOf float).layout Z).size = 4 := by
      show (Z.target.machineFloat .float).size = 4
      rw [Target.machineFloat_eq hT .float (fun h => nomatch h), Target.size_floatLayout _ (by decide)]
      rfl
    omega

/-- The slots carry the value whole, unless a float hides an enum. -/
theorem covers_iff (he : Eightbytes.of? Z t = some e) (hone : e.isOneInteger = false) :
    Classifier.sysv.Covers Z t e.slots ↔ ¬Truncates Z t :=
  ⟨fun hc ht => not_covers_of_truncates hZ hE hI hX he ht hc, covers_of_not_truncates hZ hE hI hX he hone⟩

end

end SysV

/-! ## Every convention -/

theorem RiscV.eight_dvd_xlen (T : Target) : 8 ∣ xlen T := by
  unfold xlen Target.ptrBits
  cases T.arch <;> decide

/-- The slots of a split value carry it whole, unless a float hides an enum in the eightbytes of x86-64. -/
theorem Classifier.covers_iff (hZ : Z.Regular) (hE : Z.ErrorsAreCodes) (hI : Z.TagsAreIntegers)
    (hc : c = .sysv → Z.target.arch = .x86_64)
    (h : c.classifyParam Z t = .split slots ∨ c.classifyReturn Z t = .split slots) :
    c.Covers Z t slots ↔ ¬(c = .sysv ∧ SysV.Truncates Z t) := by
  have words : ∀ {n b : Nat}, slots = .replicate n (.int (8 * b)) →
      (∀ k, c.slotOffset Z t k (.int (8 * b)) = k * b) → (Z.layout t).size ≤ n * b →
      (Z.layout t).size < Layout.maxSize → c.Covers Z t slots := by
    rintro n b rfl hoff hn hmax
    exact covers_words hZ hE hmax hoff hn
  have never : c ≠ .sysv → c.Covers Z t slots → (c.Covers Z t slots ↔ ¬(c = .sysv ∧ SysV.Truncates Z t)) :=
    fun hne hcov => iff_of_true hcov fun ht => hne ht.1
  cases c with
  | sysv =>
    obtain ⟨e, he, hone, rfl⟩ := SysV.slots_of_split h
    rw [SysV.covers_iff hZ hE hI (hc rfl) he hone]
    simp
  | aarch64 =>
    obtain ⟨hslots, hs⟩ := Aarch64.slots_of_split h
    exact never nofun (words (b := 8) hslots (fun k => Nat.mul_comm 8 k) hs (Nat.lt_of_le_of_lt hs (by decide)))
  | armSoft | armVfp =>
    obtain ⟨hmax, n, bytes, hslots, hs⟩ := Arm.slots_of_split h
    exact never nofun (words hslots (fun k => by simp [slotOffset]) hs (Nat.lt_of_le_of_lt hmax (by decide)))
  | riscv =>
    refine never nofun ?_
    rcases RiscV.slots_of_split h with ⟨hslots, hs⟩ | hf
    · obtain ⟨bytes, hx⟩ := RiscV.eight_dvd_xlen Z.target
      have hle : RiscV.xlen Z.target ≤ 64 := by
        unfold RiscV.xlen Target.ptrBits
        cases Z.target.arch <;> decide
      refine words (n := 2) (b := bytes) (hx ▸ hslots) (fun k => by simp [slotOffset]) (by omega) ?_
      exact Nat.lt_of_le_of_lt (m := 16) (by omega) (by decide)
    · exact RiscV.covers_fields hZ hI hf
  | win64 =>
    simp only [classifyParam, classifyReturn, Win64.classifyParam, Win64.classifyReturn] at h
    cases hk : Win64.kind Z t <;> cases hsc : Z.isScalar t <;> simp [hk, hsc] at h
  | wasm =>
    simp only [classifyParam, classifyReturn, Wasm.classifyParam, Wasm.classifyReturn] at h
    cases hd : Wasm.direct? Z t with
    | none => simp [hd] at h
    | some d => by_cases ht : d = t <;> simp [hd, ht] at h
  | generic => simp [classifyParam, classifyReturn] at h

end MachineAbi
