import MachineAbi.Proofs.Passing.Coverage
import MachineAbi.Proofs.Passing.Lone

/-!
# Integers and floats in eightbytes

On x86-64, an eightbyte with an integer in it should be carried by an integer, and one with floats and vectors only by a
float or a vector of floats (`SysV.KindsAgree`). It is so unless an integer is lost at the second eightbyte
(`SysV.Misplaced`, `SysV.kindsAgree_iff`). That happens

* where a float or vector of two eightbytes shares the first one with an integer: the slot of the integer becomes a
  vector of floats together with the second half;
* where floats share the second eightbyte with an enum of more than eight bytes, which only gives a class to its first.

An eightbyte has an integer class exactly if an integer gives it one (`SysV.half_eq_integer_iff`), and no class exactly
if nothing gives it one (`SysV.half_eq_none_iff`). The rest is a matter of which slot carries an eightbyte
(`SysV.carriedBy_iff`).
-/

namespace MachineAbi

namespace Slot

/-- Machine values that travel in integer registers. -/
def isInteger : Slot → Bool
  | .int _ => true
  | _ => false

/-- Floats and vectors of floats. -/
def isFloat : Slot → Bool
  | .float _ | .floatVector _ _ => true
  | _ => false

end Slot

/-- The machine values that a parameter of type `t` is passed as, if it is an aggregate in registers. -/
def ParamClass.values? (Z : Sizing) (t : TypeId) : ParamClass → Option (List Slot)
  | .abiSizedInt => some [.int ((Z.layout t).size * 8)]
  | .split slots => some slots
  | _ => none

/-- The machine values that a value of type `t` is returned as, if it is an aggregate in registers. -/
def ReturnClass.values? (Z : Sizing) (t : TypeId) : ReturnClass → Option (List Slot)
  | .abiSizedInt => some [.int ((Z.layout t).size * 8)]
  | .split slots => some slots
  | _ => none

namespace SysV

open EightbyteClass

variable {Z : Sizing} {t : TypeId} {l : Member} {k : Nat} {e : Eightbytes} {slots : List Slot} {slot : Slot}

/-- The slot carries a byte of eightbyte number `k`. -/
def CarriedBy (Z : Sizing) (t : TypeId) (slots : List Slot) (k : Nat) (slot : Slot) : Prop :=
  ∃ i p, slots[i]? = some slot ∧ p / 8 = k ∧ Classifier.sysv.slotOffset Z t i slot ≤ p ∧
    p < Classifier.sysv.slotOffset Z t i slot + (slot.layout Z).size

/-- Eightbyte number `k` is carried, and by slots of this kind only. -/
def Carried (Z : Sizing) (t : TypeId) (slots : List Slot) (k : Nat) (kind : Slot → Bool) : Prop :=
  (∃ slot, CarriedBy Z t slots k slot) ∧ ∀ slot, CarriedBy Z t slots k slot → kind slot = true

/-- Eightbytes with an integer in them are carried by integers, those with floats and vectors only by floats. -/
structure KindsAgree (Z : Sizing) (t : TypeId) (slots : List Slot) : Prop where
  integers : ∀ k l, Z.Leaf t l → Reaches Z l k → isFloatLike Z l.ty = false → Carried Z t slots k Slot.isInteger
  floats : ∀ k, (∃ l, Z.Leaf t l ∧ Reaches Z l k) → (∀ l, Z.Leaf t l → Reaches Z l k → isFloatLike Z l.ty = true) →
    Carried Z t slots k Slot.isFloat

/-- Only floats and vectors give the second eightbyte its class, and yet there is an integer that travels with it: a wide
enum, or one in the first eightbyte of a float or vector that is longer than that. -/
structure Misplaced (Z : Sizing) (t : TypeId) : Prop where
  float : ∃ l, Z.Leaf t l ∧ isFloatLike Z l.ty = true ∧ Reaches Z l 1
  alone : ∀ l, Z.Leaf t l → isFloatLike Z l.ty = false → Reaches Z l 1 → WideEnum Z l.ty
  hidden : (∃ l, Z.Leaf t l ∧ WideEnum Z l.ty) ∨
    (∃ l, Z.Leaf t l ∧ isFloatLike Z l.ty = false ∧ Reaches Z l 0) ∧
      ∃ l, Z.Leaf t l ∧ isFloatLike Z l.ty = true ∧ 8 < (Z.layout l.ty).size

/-! ## What carries an eightbyte -/

/-- The slot that carries eightbyte number `k`. -/
def carrierOf (e : Eightbytes) (k : Nat) : Slot :=
  if e.high = sseUp then widenSlot (slotOf e.low) else if e.high = x87Up then slotOf e.low else slotOf (e.half k)

theorem isFloat_slotOf (c : EightbyteClass) : (slotOf c).isFloat = true ↔ c ≠ integer := by
  cases c <;> decide

theorem isFloat_widenSlot (slot : Slot) : (widenSlot slot).isFloat = true ∧ (widenSlot slot).isInteger = false := by
  unfold widenSlot
  split <;> exact ⟨rfl, rfl⟩

theorem slotOf_le_eight (hT : Z.target.Supported) (hX : Z.target.arch = .x86_64) {c : EightbyteClass} (hc : IsFirst c)
    (h87 : c ≠ x87) : ((slotOf c).layout Z).size ≤ 8 := by
  have float : ∀ k : FloatKind, k ≠ .x86Fp80 → k.storeBytes ≤ 8 → (Z.target.machineFloat k).size ≤ 8 := by
    intro k hk hle
    rwa [Target.machineFloat_eq hT k fun h => absurd h hk, Target.size_floatLayout _ hk]
  rcases hc with rfl | rfl | rfl | rfl | rfl
  · show (Z.target.machineInt 64).size ≤ 8
    rw [Target.machineInt_eq hT, Target.intLayout_eightbyte hT hX]
  · exact float .double (by decide) (by decide)
  · exact float .float (by decide) (by decide)
  · show (Z.target.vectorLayout (2 * 32)).size ≤ 8
    obtain ⟨text, triple, hZ⟩ := Target.eq_ofComponents_x86_64 hT hX
    have halign : (Target.ofComponents text triple .x86_64).vectorAlign (2 * 32) = 8 := rfl
    rw [hZ, Target.vectorLayout, halign]
    decide
  · exact absurd rfl h87

/-- The eightbytes of a value that is passed or returned in registers, and the machine values for them. -/
structure InRegisters (Z : Sizing) (t : TypeId) (e : Eightbytes) (slots : List Slot) : Prop where
  notScalar : Z.isScalar t = false
  classes : Eightbytes.of? Z t = some e
  unit : e.low = x87 ∧ e.high = x87Up ∨ e.low ≠ x87 ∧ e.high ≠ x87 ∧ e.high ≠ x87Up
  values : if e.isOneInteger then slots = [.int ((Z.layout t).size * 8)] else slots = e.slots

theorem exists_inRegisters
    (h : (classifyParam Z t).values? Z t = some slots ∨ (classifyReturn Z t).values? Z t = some slots) :
    ∃ e, InRegisters Z t e slots := by
  have no87 : ∀ {e : Eightbytes}, ¬e.hasX87 = true → e.low ≠ x87 ∧ e.high ≠ x87 ∧ e.high ≠ x87Up := by
    intro e he
    refine ⟨?_, ?_, ?_⟩ <;> intro hc <;> simp [Eightbytes.hasX87, hc, isX87] at he
  rcases h with h | h
  · unfold classifyParam at h
    split at h
    · cases h
    · rename_i hscalar
      split at h
      · rename_i e he
        split at h
        · cases h
        · rename_i h87
          refine ⟨e, by simpa using hscalar, he, Or.inr (no87 h87), ?_⟩
          split at h <;> simp_all [ParamClass.values?]
      · cases h
  · unfold classifyReturn at h
    split at h
    · cases h
    · rename_i hscalar
      split at h
      · rename_i e he
        split at h
        · cases h
        · rename_i h87
          refine ⟨e, by simpa using hscalar, he, ?_, ?_⟩
          · by_cases hboth : e.low = x87 ∧ e.high = x87Up
            · exact Or.inl hboth
            · exact Or.inr (no87 fun hx => h87 ⟨hx, hboth⟩)
          · split at h <;> simp_all [ReturnClass.values?]
      · cases h

theorem slots_sseUp (hlow : IsFirst e.low) (hhigh : e.high = sseUp) : e.slots = [widenSlot (slotOf e.low)] := by
  obtain ⟨low, high, overflow⟩ := e
  obtain rfl : high = sseUp := hhigh
  rcases hlow with rfl | rfl | rfl | rfl | rfl <;> rfl

theorem slots_none (hlow : IsFirst e.low) (hhigh : e.high = .none ∨ e.high = x87Up) : e.slots = [slotOf e.low] := by
  obtain ⟨low, high, overflow⟩ := e
  rcases hlow with rfl | rfl | rfl | rfl | rfl <;> rcases hhigh with rfl | rfl <;> rfl

/-- One slot carries the eightbytes that it reaches into. -/
theorem carriedBy_singleton {s : Slot} (hs : 8 * k < (s.layout Z).size) : CarriedBy Z t [s] k slot ↔ slot = s := by
  constructor
  · rintro ⟨i, p, hi, -⟩
    exact List.mem_singleton.1 (List.mem_of_getElem? hi)
  · rintro rfl
    refine ⟨0, 8 * k, rfl, by omega, ?_, ?_⟩
    all_goals
      rw [slotOffset_sysv]
      omega

/-- Two slots of one eightbyte each carry one each. -/
theorem carriedBy_pair {s s' : Slot} (hk : k < 2) (hs : 0 < (s.layout Z).size ∧ (s.layout Z).size ≤ 8)
    (hs' : 0 < (s'.layout Z).size ∧ (s'.layout Z).size ≤ 8) :
    CarriedBy Z t [s, s'] k slot ↔ slot = if k = 0 then s else s' := by
  constructor
  · rintro ⟨i, p, hi, rfl, hle, hlt⟩
    rw [slotOffset_sysv] at hle hlt
    have hlen : i < 2 := (List.getElem?_eq_some_iff.1 hi).1
    obtain rfl | rfl : i = 0 ∨ i = 1 := by omega
    · obtain rfl : s = slot := Option.some.inj hi
      rw [if_pos (by omega)]
    · obtain rfl : s' = slot := Option.some.inj hi
      rw [if_neg (by omega)]
  · rintro rfl
    obtain rfl | rfl : k = 0 ∨ k = 1 := by omega
    · refine ⟨0, 0, rfl, rfl, ?_, ?_⟩
      · rw [slotOffset_sysv]
      · rw [slotOffset_sysv]
        simp [hs.1]
    · refine ⟨1, 8, rfl, rfl, ?_, ?_⟩
      · rw [slotOffset_sysv]
      · rw [slotOffset_sysv]
        simp [hs'.1]

/-- Each eightbyte that has a class is carried by one slot. -/
theorem carriedBy_iff (hT : Z.target.Supported) (hX : Z.target.arch = .x86_64) (h : InRegisters Z t e slots)
    (hlow : IsFirst e.low) (hk : k < 2) (hhigh : k = 0 ∨ e.high ≠ .none) :
    CarriedBy Z t e.slots k slot ↔ slot = carrierOf e k := by
  have hmem := (of_eq_some h.classes).2.2.2.1
  have hpos : ∀ {c}, IsFirst c → 0 < ((slotOf c).layout Z).size := fun hc =>
    lt_slotOf hT hX hc (by omega) fun _ => by omega
  unfold carrierOf
  by_cases hup : e.high = sseUp
  · have hwide := le_widenSlot hT (slotOf e.low)
    rw [if_pos hup, slots_sseUp hlow hup]
    exact carriedBy_singleton (by omega)
  rw [if_neg hup]
  rcases h.unit with ⟨h87, hhigh87⟩ | ⟨h87, hhigh87, hup87⟩
  · have hwide := le_slotOf hT hX e.low
    rw [h87] at hwide
    rw [if_pos hhigh87, slots_none hlow (Or.inr hhigh87), h87]
    exact carriedBy_singleton (by dsimp only at hwide; omega)
  rw [if_neg hup87]
  by_cases hnone : e.high = .none
  · obtain rfl := hhigh.resolve_right (fun h => h hnone)
    rw [slots_none hlow (Or.inl hnone)]
    exact carriedBy_singleton (hpos hlow)
  · have hfirst := isFirst_of_ne hnone hup hup87 hmem
    have hle := slotOf_le_eight hT hX hlow h87
    have hle' := slotOf_le_eight hT hX hfirst hhigh87
    rw [slots_one hlow hfirst, carriedBy_pair hk ⟨hpos hlow, hle⟩ ⟨hpos hfirst, hle'⟩, Eightbytes.half]
    split <;> rfl

/-! ## The classes of eightbytes -/

theorem half_eq_mergeAll (he : Eightbytes.of? Z t = some e) (k : Nat) : e.half k = mergeAll (lent Z k (Z.scalars t)) := by
  obtain ⟨-, rfl, -⟩ := of_eq_some he
  exact half_classify Z t k

theorem half_ne_memory (he : Eightbytes.of? Z t = some e) (k : Nat) : e.half k ≠ memory := by
  obtain ⟨-, -, hlow, hhigh, -⟩ := of_eq_some he
  unfold Eightbytes.half
  split
  · exact hlow
  · exact hhigh

/-- Only an integer prevails over a class that stands alone. -/
theorem half_eq_of_standsAlone {a : EightbyteClass} (he : Eightbytes.of? Z t = some e) (ha : a.standsAlone = true)
    (hmem : a ∈ lent Z k (Z.scalars t)) (hint : e.half k ≠ integer) : e.half k = a := by
  have hmemory := half_ne_memory he k
  rw [half_eq_mergeAll he] at hint hmemory ⊢
  have hno : integer ∉ lent Z k (Z.scalars t) := fun hi => hint ((mergeAll_of_mem_integer hi).resolve_right hmemory)
  exact (mergeAll_of_mem_standsAlone ha hmem hno).resolve_right hmemory

section

variable (hZ : Z.Regular) (hE : Z.ErrorsAreCodes) (hI : Z.TagsAreIntegers) (hX : Z.target.arch = .x86_64)
  (h : InRegisters Z t e slots)

include hZ hE hI hX h

namespace InRegisters

theorem half_eq_none_iff (hk : k < 2) :
    e.half k = .none ↔ ∀ l, Z.Leaf t l → Reaches Z l k → k = 1 ∧ WideEnum Z l.ty := by
  have hs := (of_eq_some h.classes).1
  rw [half_eq_mergeAll h.classes, mergeAll_eq_none_iff, lent_eq_none_iff hZ hI hX hE h.notScalar hs hk]

/-- Integers prevail over floats and vectors. -/
theorem half_eq_integer_iff (hk : k < 2) : e.half k = integer ↔
    ∃ l, Z.Leaf t l ∧ isFloatLike Z l.ty = false ∧ Reaches Z l k ∧ ¬(k = 1 ∧ WideEnum Z l.ty) := by
  have hs := (of_eq_some h.classes).1
  have hmem := half_ne_memory h.classes k
  rw [← integer_mem_lent_iff hZ hI hX hE h.notScalar hs hk]
  rw [half_eq_mergeAll h.classes] at hmem ⊢
  exact ⟨mem_of_mergeAll_integer, fun hi => (mergeAll_of_mem_integer hi).resolve_right hmem⟩

/-- A wide enum reaches into both eightbytes, and makes the first one an integer. -/
theorem low_of_wideEnum (hl : Z.Leaf t l) (hw : WideEnum Z l.ty) : e.low = integer ∧ Reaches Z l 1 := by
  have hs := (of_eq_some h.classes).1
  obtain ⟨-, -, h0, h1⟩ := reaches_of_wide hZ hI hX hE h.notScalar hs hl hw.1
  have hint := (h.half_eq_integer_iff hZ hE hI hX (k := 0) (by decide)).2 ⟨l, hl, hw.not_isFloatLike, h0, by simp⟩
  exact ⟨hint, h1⟩

theorem isFirst_low (hl : Z.Leaf t l) (hr : Reaches Z l k) : IsFirst e.low := by
  have hs := (of_eq_some h.classes).1
  have hin := (Sizing.leaf_inside hZ hE (Nat.lt_of_le_of_lt hs (by decide)) hl).2
  obtain ⟨p, ⟨hle, hlt⟩, -⟩ := hr
  exact SysV.isFirst_low hZ hE hI hX h.classes (by omega)

omit hI hX in
theorem lt_two_of_reaches (hl : Z.Leaf t l) (hr : Reaches Z l k) : k < 2 := by
  have hs := (of_eq_some h.classes).1
  have hin := (Sizing.leaf_inside hZ hE (Nat.lt_of_le_of_lt hs (by decide)) hl).2
  obtain ⟨p, ⟨hle, hlt⟩, rfl⟩ := hr
  omega

/-- Where a float or vector of two eightbytes keeps its second one, an integer in the first is misplaced. -/
theorem misplaced_of_sseUp (hhigh : e.high = sseUp) (hlow : e.low = integer) : Misplaced Z t := by
  have hs := (of_eq_some h.classes).1
  have hup : e.half 1 = sseUp := hhigh
  obtain ⟨l₀, hl₀, hf₀, hr₀, -⟩ := (h.half_eq_integer_iff hZ hE hI hX (k := 0) (by decide)).1 hlow
  rw [half_eq_mergeAll h.classes] at hup
  have hmem := (eq_of_mergeAll_standsAlone rfl hup).1
  obtain ⟨l, hl, hf, h8⟩ := exists_wide_of_sseUp hZ hX hE h.notScalar hs hmem
  refine ⟨⟨l, hl, hf, ?_⟩, fun l' hl' hf' hr' => ?_, Or.inr ⟨⟨l₀, hl₀, hf₀, hr₀⟩, l, hl, hf, h8⟩⟩
  · exact (reaches_of_wide hZ hI hX hE h.notScalar hs hl h8).2.2.2
  · by_contra hno
    have hint := (h.half_eq_integer_iff hZ hE hI hX (k := 1) (by decide)).2 ⟨l', hl', hf', hr', by simp [hno]⟩
    rw [half_eq_mergeAll h.classes, hup] at hint
    cases hint

/-- So is a wide enum, where the second eightbyte has the class of floats. -/
theorem misplaced_of_wideEnum (hl : Z.Leaf t l) (hw : WideEnum Z l.ty) (hnone : e.high ≠ .none)
    (hint : e.high ≠ integer) : Misplaced Z t := by
  have hno : ∀ l, Z.Leaf t l → isFloatLike Z l.ty = false → Reaches Z l 1 → WideEnum Z l.ty := by
    intro l' hl' hf' hr'
    by_contra hw'
    exact hint ((h.half_eq_integer_iff hZ hE hI hX (k := 1) (by decide)).2 ⟨l', hl', hf', hr', by simp [hw']⟩)
  refine ⟨?_, hno, Or.inl ⟨l, hl, hw⟩⟩
  by_contra hfloat
  refine hnone ((h.half_eq_none_iff hZ hE hI hX (k := 1) (by decide)).2 fun l' hl' hr' => ⟨rfl, ?_⟩)
  refine hno l' hl' ?_ hr'
  by_contra hf'
  exact hfloat ⟨l', hl', by simpa using hf', hr'⟩

theorem not_none_of_isFloatLike (hl : Z.Leaf t l) (hr : Reaches Z l k) (hf : isFloatLike Z l.ty = true) :
    e.half k ≠ .none := by
  have hk := h.lt_two_of_reaches hZ hE hl hr
  intro hnone
  exact not_wideEnum_of_isFloatLike hf ((h.half_eq_none_iff hZ hE hI hX hk).1 hnone l hl hr).2

/-- Where only floats and vectors reach into an eightbyte, its class is not that of an integer. -/
theorem ne_integer_of_floats (hk : k < 2) (hall : ∀ l, Z.Leaf t l → Reaches Z l k → isFloatLike Z l.ty = true) :
    e.half k ≠ integer := by
  intro hint
  obtain ⟨l, hl, hf, hr, -⟩ := (h.half_eq_integer_iff hZ hE hI hX hk).1 hint
  rw [hall l hl hr] at hf
  cases hf

/-! ## One integer -/

theorem kindsAgree_of_isOneInteger (hone : e.isOneInteger = true) : KindsAgree Z t slots ∧ ¬Misplaced Z t := by
  have hvalues := h.values
  have hs := (of_eq_some h.classes).1
  rw [if_pos hone] at hvalues
  obtain ⟨hlow, hhigh⟩ : e.half 0 = integer ∧ e.half 1 = .none := by
    simpa [Eightbytes.isOneInteger, Eightbytes.half] using hone
  refine ⟨⟨fun k l hl hr hf => ⟨?_, ?_⟩, fun k hsome hall => ?_⟩, fun hmis => ?_⟩
  · obtain ⟨p, hp, hpk⟩ := hr
    have hin := (Sizing.leaf_inside hZ hE (Nat.lt_of_le_of_lt hs (by decide)) hl).2
    have hholds := @Carrier.holds_sizedInt Z t hZ.supported
    have hlt : p < (Z.target.machineInt ((Z.layout t).size * 8)).size :=
      Nat.lt_of_lt_of_le (Nat.lt_of_lt_of_le hp.2 hin) hholds
    refine ⟨_, 0, p, by rw [hvalues]; rfl, hpk, ?_, ?_⟩
    · rw [slotOffset_sysv]
      exact Nat.zero_le p
    · rw [slotOffset_sysv, Nat.mul_zero, Nat.zero_add]
      exact hlt
  · rintro slot ⟨i, p, hi, -⟩
    rw [hvalues] at hi
    rw [List.mem_singleton.1 (List.mem_of_getElem? hi)]
    rfl
  · obtain ⟨l, hl, hr⟩ := hsome
    have hk := h.lt_two_of_reaches hZ hE hl hr
    have hne := h.ne_integer_of_floats hZ hE hI hX hk hall
    have hnone := h.not_none_of_isFloatLike hZ hE hI hX hl hr (hall l hl hr)
    obtain rfl | rfl : k = 0 ∨ k = 1 := by omega
    · exact absurd hlow hne
    · exact absurd hhigh hnone
  · obtain ⟨l, hl, hf, hr⟩ := hmis.float
    exact h.not_none_of_isFloatLike hZ hE hI hX hl hr hf hhigh

/-! ## Several machine values -/

omit hE hI in
theorem carried_iff (hone : e.isOneInteger = false) (hlow : IsFirst e.low) (hk : k < 2)
    (hhigh : k = 0 ∨ e.high ≠ .none) (kind : Slot → Bool) :
    Carried Z t slots k kind ↔ kind (carrierOf e k) = true := by
  have hvalues := h.values
  rw [hone, if_neg Bool.false_ne_true] at hvalues
  have hiff := fun slot => @carriedBy_iff Z t k e slots slot hZ.supported hX h hlow hk hhigh
  rw [Carried, hvalues]
  constructor
  · rintro ⟨-, hall⟩
    exact hall _ ((hiff _).2 rfl)
  · intro hkind
    refine ⟨⟨_, (hiff _).2 rfl⟩, fun slot hslot => ?_⟩
    rw [(hiff slot).1 hslot]
    exact hkind

omit hZ hE hI hX in
theorem low_of_x87Up (hup : e.high = x87Up) : e.low = x87 := by
  rcases h.unit with ⟨h87, -⟩ | ⟨-, -, hno⟩
  · exact h87
  · exact absurd hup hno

omit hZ hE hI hX in
/-- The slot of an eightbyte is a float unless its class is that of an integer. -/
theorem isFloat_carrierOf (hne : e.half k ≠ integer) : (carrierOf e k).isFloat = true := by
  unfold carrierOf
  split
  · exact (isFloat_widenSlot _).1
  · split
    · rename_i hup
      rw [h.low_of_x87Up hup]
      rfl
    · exact (isFloat_slotOf _).2 hne

theorem kindsAgree_of_not_misplaced (hone : e.isOneInteger = false) (hno : ¬Misplaced Z t) : KindsAgree Z t slots := by
  constructor
  · intro k l hl hr hf
    have hk := h.lt_two_of_reaches hZ hE hl hr
    have hlow := h.isFirst_low hZ hE hI hX hl hr
    have hint : e.half k = integer := by
      by_cases hwide : k = 1 ∧ WideEnum Z l.ty
      · obtain ⟨rfl, hw⟩ := hwide
        have hlowint := (h.low_of_wideEnum hZ hE hI hX hl hw).1
        have hnone : e.high ≠ .none := by
          intro hnone
          simp [Eightbytes.isOneInteger, hlowint, hnone] at hone
        by_contra hint
        exact hno (h.misplaced_of_wideEnum hZ hE hI hX hl hw hnone hint)
      · exact (h.half_eq_integer_iff hZ hE hI hX hk).2 ⟨l, hl, hf, hr, hwide⟩
    obtain rfl | rfl : k = 0 ∨ k = 1 := by omega
    · have hlowint : e.low = integer := hint
      have hup : e.high ≠ sseUp := fun hup => hno (h.misplaced_of_sseUp hZ hE hI hX hup hlowint)
      have hup87 : e.high ≠ x87Up := by
        intro hup
        have h87 := h.low_of_x87Up hup
        rw [hlowint] at h87
        cases h87
      rw [h.carried_iff hZ hX hone hlow hk (Or.inl rfl), carrierOf, if_neg hup, if_neg hup87, hint]
      rfl
    · have hhighint : e.high = integer := hint
      rw [h.carried_iff hZ hX hone hlow hk (Or.inr (by simp [hhighint])), carrierOf, hhighint, hint]
      rfl
  · rintro k ⟨l, hl, hr⟩ hall
    have hk := h.lt_two_of_reaches hZ hE hl hr
    have hlow := h.isFirst_low hZ hE hI hX hl hr
    have hnone := h.not_none_of_isFloatLike hZ hE hI hX hl hr (hall l hl hr)
    have hhigh : k = 0 ∨ e.high ≠ .none := by
      obtain rfl | rfl : k = 0 ∨ k = 1 := by omega
      · exact Or.inl rfl
      · exact Or.inr hnone
    rw [h.carried_iff hZ hX hone hlow hk hhigh]
    exact h.isFloat_carrierOf (h.ne_integer_of_floats hZ hE hI hX hk hall)

/-- Where an integer is misplaced, a float carries it. -/
theorem not_kindsAgree_of_misplaced (hone : e.isOneInteger = false) (hmis : Misplaced Z t) : ¬KindsAgree Z t slots := by
  intro hagree
  obtain ⟨l₁, hl₁, hf₁, hr₁⟩ := hmis.float
  have hs := (of_eq_some h.classes).1
  have hlow := h.isFirst_low hZ hE hI hX hl₁ hr₁
  have hnone : e.high ≠ .none := h.not_none_of_isFloatLike hZ hE hI hX hl₁ hr₁ hf₁
  have hint : e.high ≠ integer := by
    intro hint
    obtain ⟨l, hl, hf, hr, hw⟩ := (h.half_eq_integer_iff hZ hE hI hX (k := 1) (by decide)).1 hint
    exact hw ⟨rfl, hmis.alone l hl hf hr⟩
  -- a float or a vector of floats carries both eightbytes, or else the second one
  have hsecond : (carrierOf e 1).isInteger = false := by
    have hfloat := h.isFloat_carrierOf (k := 1) hint
    cases hc : carrierOf e 1 <;> simp_all [Slot.isFloat, Slot.isInteger]
  rcases hmis.hidden with ⟨l, hl, hw⟩ | ⟨⟨l, hl, hf, hr⟩, l', hl', hf', h8⟩
  · obtain ⟨-, hr⟩ := h.low_of_wideEnum hZ hE hI hX hl hw
    have hcarried := (h.carried_iff hZ hX hone hlow (k := 1) (by decide) (Or.inr hnone) _).1
      (hagree.integers 1 l hl hr hw.not_isFloatLike)
    rw [hsecond] at hcarried
    cases hcarried
  · have hlowint : e.low = integer :=
      (h.half_eq_integer_iff hZ hE hI hX (k := 0) (by decide)).2 ⟨l, hl, hf, hr, by simp⟩
    have hup : e.high = sseUp := by
      obtain ⟨a, ha, hup⟩ := exists_standsAlone_of_wide hZ hI hX hE h.notScalar hs hl' hf' h8
      rcases hup with rfl | rfl
      · exact half_eq_of_standsAlone (k := 1) h.classes rfl ha hint
      · have h87 := h.low_of_x87Up (half_eq_of_standsAlone (k := 1) h.classes rfl ha hint)
        rw [hlowint] at h87
        cases h87
    have hcarried := (h.carried_iff hZ hX hone hlow (k := 0) (by decide) (Or.inl rfl) _).1
      (hagree.integers 0 l hl hr hf)
    rw [carrierOf, if_pos hup, (isFloat_widenSlot _).2] at hcarried
    cases hcarried

/-- A float of the x87 unit among floats and vectors is returned alone. -/
theorem values_of_x87 (hl : Z.Leaf t l) (hd : Z.get l.ty = .float 80)
    (hall : ∀ l, Z.Leaf t l → Reaches Z l 0 → isFloatLike Z l.ty = true) : slots = [.float .x86Fp80] := by
  have hs := (of_eq_some h.classes).1
  have h16 : (Z.layout l.ty).size = 16 := by
    rw [Sizing.layout_of_extent (Sizing.extent_of_get hd)]
    exact Target.size_floatLayout_x87 hZ.supported hX
  obtain ⟨hmem, hin, -, -⟩ := reaches_of_wide hZ hI hX hE h.notScalar hs hl (by omega)
  have hlent : x87 ∈ lent Z 0 (Z.scalars t) := List.mem_map.2 ⟨l, hmem, (hin.half_lone_of_x87 hZ hI hX hd).1⟩
  have hints := h.ne_integer_of_floats hZ hE hI hX Nat.two_pos hall
  have hlow : e.low = x87 := half_eq_of_standsAlone (k := 0) h.classes rfl hlent hints
  have hhigh : e.high = x87Up := by
    rcases h.unit with ⟨-, hup⟩ | ⟨hno, -⟩
    · exact hup
    · exact absurd hlow hno
  have hvalues := h.values
  rw [if_neg (by simp [Eightbytes.isOneInteger, hlow]), slots_none (by simp [IsFirst, hlow]) (Or.inr hhigh),
    hlow] at hvalues
  exact hvalues

end InRegisters

omit h in
/-- Eightbytes are carried by machine values of their kind, unless an integer is misplaced; and a float of the x87 unit
is returned as one. -/
theorem kindsAgree_iff
    (h : (classifyParam Z t).values? Z t = some slots ∨ (classifyReturn Z t).values? Z t = some slots) :
    (KindsAgree Z t slots ↔ ¬Misplaced Z t) ∧
      ∀ l, Z.Leaf t l → Z.get l.ty = .float 80 → (∀ l, Z.Leaf t l → Reaches Z l 0 → isFloatLike Z l.ty = true) →
        slots = [.float .x86Fp80] := by
  obtain ⟨e, he⟩ := exists_inRegisters h
  constructor
  · cases hone : e.isOneInteger with
    | true =>
      obtain ⟨hagree, hno⟩ := he.kindsAgree_of_isOneInteger hZ hE hI hX hone
      exact iff_of_true hagree hno
    | false =>
      exact ⟨fun hagree hmis => he.not_kindsAgree_of_misplaced hZ hE hI hX hone hmis hagree,
        he.kindsAgree_of_not_misplaced hZ hE hI hX hone⟩
  · intro l hl hd hall
    exact he.values_of_x87 hZ hE hI hX hl hd hall

end

/-! ## A long float and a word -/

/-- The slot of the word has become a vector of floats. -/
theorem classify_mixed : (classifyParam .mixing ⟨22⟩).values? .mixing ⟨22⟩ = some [.floatVector 4 .float] ∧
    (classifyReturn .mixing ⟨22⟩).values? .mixing ⟨22⟩ = some [.floatVector 4 .float] := by
  decide

theorem leaf_mixed : Sizing.mixing.Leaf ⟨22⟩ ⟨⟨10⟩, 0⟩ ∧ Reaches .mixing ⟨⟨10⟩, 0⟩ 0 ∧ isFloatLike .mixing ⟨10⟩ = false :=
  ⟨.member (m := ⟨⟨10⟩, 0⟩) (l := ⟨⟨10⟩, 0⟩) (by decide) (.self (by decide)), ⟨0, ⟨Nat.le_refl 0, by decide⟩, rfl⟩,
    by decide⟩

theorem kindsAgree_iff_mixed : (classifyParam .mixing ⟨22⟩).values? .mixing ⟨22⟩ = some [.floatVector 4 .float] ∧
    (KindsAgree .mixing ⟨22⟩ [.floatVector 4 .float] ↔ ¬Misplaced .mixing ⟨22⟩) := by
  have hvalues := classify_mixed.1
  exact ⟨hvalues, (kindsAgree_iff Sizing.regular_mixing Sizing.errorsAreCodes_mixing Sizing.tagsAreIntegers_mixing rfl
    (Or.inl hvalues)).1⟩

/-- A word below a float of two eightbytes is passed and returned in a vector of floats. -/
theorem exists_not_kindsAgree : ∃ (Z : Sizing) (t : TypeId) (slots : List Slot),
    Z.Regular ∧ Z.ErrorsAreCodes ∧ Z.TagsAreIntegers ∧ Z.target.arch = .x86_64 ∧
      (classifyParam Z t).values? Z t = some slots ∧ (classifyReturn Z t).values? Z t = some slots ∧
      ¬KindsAgree Z t slots := by
  refine ⟨.mixing, ⟨22⟩, [.floatVector 4 .float], Sizing.regular_mixing, Sizing.errorsAreCodes_mixing,
    Sizing.tagsAreIntegers_mixing, rfl, classify_mixed.1, classify_mixed.2, fun hagree => ?_⟩
  obtain ⟨hleaf, hreaches, hinteger⟩ := leaf_mixed
  obtain ⟨⟨slot, i, p, hi, hcarried⟩, hall⟩ := hagree.integers 0 _ hleaf hreaches hinteger
  obtain rfl : slot = .floatVector 4 .float := List.mem_singleton.1 (List.mem_of_getElem? hi)
  exact absurd (hall _ ⟨i, p, hi, hcarried⟩) (by decide)

end SysV

end MachineAbi
