import MachineAbi.Proofs.Passing.Coverage
import MachineAbi.Proofs.Passing.Lone

/-!
# Values in memory on x86-64

Aggregates of more than two eightbytes go to memory. Smaller ones should not, unless there is a float of the x87 unit in
them; and they do not, unless floats clash (`SysV.inMemory_iff_clashes`): before any integer comes in the second
eightbyte, there is a float or vector that goes on in it and another one that has its own place there (`SysV.Clashes`).

So it is because the second half of a float or vector goes to memory with any other class but an integer's
(`EightbyteClass.mergeAll_eq_memory_iff`), while the other classes do not.
-/

namespace MachineAbi.SysV

open EightbyteClass

variable {Z : Sizing} {t : TypeId} {l : Member} {k : Nat} {e : Eightbytes}

/-- Among the scalars before the first integer of the second eightbyte, there are a float or vector of more than one
eightbyte and a smaller one that reaches into the second. -/
def Clashes (Z : Sizing) (t : TypeId) : Prop :=
  ∃ before after, Z.scalars t = before ++ after ∧
    (∀ l ∈ before, isFloatLike Z l.ty = false → Reaches Z l 1 → WideEnum Z l.ty) ∧
    (∃ l ∈ before, isFloatLike Z l.ty = true ∧ 8 < (Z.layout l.ty).size) ∧
    ∃ l ∈ before, isFloatLike Z l.ty = true ∧ (Z.layout l.ty).size ≤ 8 ∧ Reaches Z l 1

/-! ## Memory from the eightbytes -/

/-- Where nothing of the x87 unit is left, values are in memory exactly if they have no eightbytes. -/
theorem inMemory_iff (ht : Z.isScalar t = false) (h87 : ∀ e, Eightbytes.of? Z t = some e → e.hasX87 = false) :
    ((∃ isMutable callerCopy, classifyParam Z t = .byReference isMutable callerCopy) ↔
        Eightbytes.of? Z t = Option.none) ∧
      (classifyReturn Z t = .sret ↔ Eightbytes.of? Z t = Option.none) := by
  unfold classifyParam classifyReturn
  rw [if_neg (by simp [ht]), if_neg (by simp [ht])]
  cases hof : Eightbytes.of? Z t with
  | none => simp
  | some e =>
    have hno := h87 e hof
    by_cases hone : e.isOneInteger = true <;> simp [hno, hone]

theorem of_eq_none_of_lt (h : 16 < (Z.layout t).size) : Eightbytes.of? Z t = Option.none := by
  rw [Eightbytes.of?, if_pos h]

section

variable (hZ : Z.Regular) (hE : Z.ErrorsAreCodes) (hI : Z.TagsAreIntegers) (hX : Z.target.arch = .x86_64)
  (ht : Z.isScalar t = false) (hs : (Z.layout t).size ≤ 16) (h80 : ∀ l, Z.Leaf t l → Z.get l.ty ≠ .float 80)

include hZ hE hI hX ht hs

theorem overflow_classify_eq_false : (Eightbytes.empty.classify Z t 0).overflow = false := by
  rw [overflow_classify, List.any_eq_false]
  intro l hl
  simp [(inside_of_mem_scalars hZ hE ht hs hl).overflow_lone hZ hI hX]

include h80

/-- The classes that stand alone are second halves, and these come from long floats and vectors. -/
theorem standsAlone_lone_iff (hl : l ∈ Z.scalars t) (hk : k < 2) : ((lone Z l).half k).standsAlone = true ↔
    k = 1 ∧ isFloatLike Z l.ty = true ∧ 8 < (Z.layout l.ty).size := by
  have hin := inside_of_mem_scalars hZ hE ht hs hl
  have hd := h80 l (Sizing.leaf_of_mem_scalars hl).1
  cases hf : isFloatLike Z l.ty with
  | false => rcases hin.half_lone_of_integer hZ hX hf hk with h | h <;> simp [h, standsAlone]
  | true =>
    rcases Nat.lt_or_ge 8 (Z.layout l.ty).size with h8 | hle
    · obtain ⟨hlow, hhigh⟩ := hin.half_lone_of_wide hZ hI hX hf h8 hd
      obtain rfl | rfl : k = 0 ∨ k = 1 := by omega
      · simp [hlow, standsAlone]
      · simp [hhigh, standsAlone, h8]
    · have hno : ¬8 < (Z.layout l.ty).size := Nat.not_lt.2 hle
      rcases hin.half_lone_of_short hZ hX hf hle hk with h | h | h <;> simp [h, standsAlone, hno]

theorem half_lone_of_standsAlone (hl : l ∈ Z.scalars t) (hs' : ((lone Z l).half 1).standsAlone = true) :
    (lone Z l).half 1 = sseUp := by
  obtain ⟨-, hf, h8⟩ := (standsAlone_lone_iff hZ hE hI hX ht hs h80 hl Nat.one_lt_two).1 hs'
  have hin := inside_of_mem_scalars hZ hE ht hs hl
  exact (hin.half_lone_of_wide hZ hI hX hf h8 (h80 l (Sizing.leaf_of_mem_scalars hl).1)).2

theorem clash_lent_iff {ls : List Member} (hsub : ∀ l ∈ ls, l ∈ Z.scalars t) : Clash (lent Z 1 ls) ↔
    (∃ l ∈ ls, isFloatLike Z l.ty = true ∧ 8 < (Z.layout l.ty).size) ∧
      ∃ l ∈ ls, isFloatLike Z l.ty = true ∧ (Z.layout l.ty).size ≤ 8 ∧ Reaches Z l 1 := by
  have hlone : ∀ l ∈ ls, _ := fun l hl => standsAlone_lone_iff hZ hE hI hX ht hs h80 (hsub l hl) Nat.one_lt_two
  have hup : ∀ l ∈ ls, _ := fun l hl => half_lone_of_standsAlone hZ hE hI hX ht hs h80 (hsub l hl)
  have hreach : ∀ l ∈ ls, _ := fun l hl =>
    (inside_of_mem_scalars hZ hE ht hs (hsub l hl)).half_lone_ne_none_iff hZ hI hX (k := 1) Nat.one_lt_two
  constructor
  · rintro ⟨a, ha, hsa, b, hb, hne, hnone, hint⟩
    obtain ⟨l, hl, rfl⟩ := List.mem_map.1 ha
    obtain ⟨l', hl', rfl⟩ := List.mem_map.1 hb
    have hin := inside_of_mem_scalars hZ hE ht hs (hsub l' hl')
    have hf : isFloatLike Z l'.ty = true := by
      by_contra hf
      rcases hin.half_lone_of_integer hZ hX (by simpa using hf) Nat.one_lt_two with h | h
      · exact hnone h
      · exact hint h
    refine ⟨⟨l, hl, ((hlone l hl).1 hsa).2⟩, l', hl', hf, Nat.le_of_not_lt fun h8 => hne ?_, ((hreach l' hl').1 hnone).1⟩
    rw [hup l hl hsa, hup l' hl' ((hlone l' hl').2 ⟨rfl, hf, h8⟩)]
  · rintro ⟨⟨l, hl, hf, h8⟩, l', hl', hf', hle, hr⟩
    have hin := inside_of_mem_scalars hZ hE ht hs (hsub l' hl')
    have hsa := (hlone l hl).2 ⟨rfl, hf, h8⟩
    have hnone := (hreach l' hl').2 ⟨hr, fun hw => not_wideEnum_of_isFloatLike hf' hw.2⟩
    refine ⟨_, List.mem_map_of_mem hl, hsa, _, List.mem_map_of_mem hl', ?_, hnone,
      hin.half_lone_ne_integer hZ hX hf' Nat.one_lt_two⟩
    rw [hup l hl hsa]
    rcases hin.half_lone_of_short hZ hX hf' hle Nat.one_lt_two with h | h | h
    · exact absurd h hnone
    · rw [h]
      decide
    · rw [h]
      decide

/-- The second eightbyte goes to memory exactly if floats clash. -/
theorem mergeAll_high_iff : mergeAll (lent Z 1 (Z.scalars t)) = memory ↔ Clashes Z t := by
  have hsimple : memory ∉ lent Z 1 (Z.scalars t) := fun h => (isSimple_of_mem_lent Nat.one_lt_two h).1 rfl
  have hints : ∀ {ls : List Member}, (∀ l ∈ ls, l ∈ Z.scalars t) → (integer ∉ lent Z 1 ls ↔
      ∀ l ∈ ls, isFloatLike Z l.ty = false → Reaches Z l 1 → WideEnum Z l.ty) := by
    intro ls hsub
    have hlone : ∀ l ∈ ls, _ := fun l hl =>
      (inside_of_mem_scalars hZ hE ht hs (hsub l hl)).half_lone_eq_integer_iff hZ hI hX (k := 1) Nat.one_lt_two
    constructor
    · intro hno l hl hf hr
      by_contra hw
      exact hno (List.mem_map.2 ⟨l, hl, (hlone l hl).2 ⟨hf, hr, fun h => hw h.2⟩⟩)
    · intro hall hmem
      obtain ⟨l, hl, hint⟩ := List.mem_map.1 hmem
      obtain ⟨hf, hr, hw⟩ := (hlone l hl).1 hint
      exact hw ⟨rfl, hall l hl hf hr⟩
  rw [mergeAll_eq_memory_iff hsimple]
  constructor
  · rintro ⟨before, after, heq, hi, hclash⟩
    obtain ⟨ls, ls', hls, rfl, rfl⟩ := List.map_eq_append_iff.1 heq
    have hsub : ∀ l ∈ ls, l ∈ Z.scalars t := fun l hl => hls ▸ List.mem_append_left _ hl
    exact ⟨ls, ls', hls, (hints hsub).1 hi, (clash_lent_iff hZ hE hI hX ht hs h80 hsub).1 hclash⟩
  · rintro ⟨ls, ls', hls, hno, hclash⟩
    have hsub : ∀ l ∈ ls, l ∈ Z.scalars t := fun l hl => hls ▸ List.mem_append_left _ hl
    refine ⟨lent Z 1 ls, lent Z 1 ls', ?_, (hints hsub).2 hno, (clash_lent_iff hZ hE hI hX ht hs h80 hsub).2 hclash⟩
    rw [hls, lent, lent, lent, List.map_append]

/-- No second half comes to lie in the first eightbyte. -/
theorem mergeAll_low : mergeAll (lent Z 0 (Z.scalars t)) ≠ memory ∧
    (mergeAll (lent Z 0 (Z.scalars t))).standsAlone = false := by
  have hno : ∀ c ∈ lent Z 0 (Z.scalars t), c.standsAlone = false := by
    intro c hc
    obtain ⟨l, hl, rfl⟩ := List.mem_map.1 hc
    by_contra hs'
    exact absurd ((standsAlone_lone_iff hZ hE hI hX ht hs h80 hl Nat.two_pos).1 (by simpa using hs')).1 (by decide)
  have hsimple : memory ∉ lent Z 0 (Z.scalars t) := fun h => (isSimple_of_mem_lent Nat.two_pos h).1 rfl
  constructor
  · rw [Ne, mergeAll_eq_memory_iff hsimple]
    rintro ⟨before, after, heq, -, a, ha, hsa, -⟩
    rw [hno a (heq ▸ List.mem_append_left _ ha)] at hsa
    cases hsa
  · by_contra hsa
    have hsa : (mergeAll (lent Z 0 (Z.scalars t))).standsAlone = true := by simpa using hsa
    rw [hno _ (eq_of_mergeAll_standsAlone hsa rfl).1] at hsa
    cases hsa

theorem hasX87_classify : (Eightbytes.empty.classify Z t 0).hasX87 = false := by
  have hlow := (mergeAll_low hZ hE hI hX ht hs h80).2
  have hup : ∀ {a : EightbyteClass}, mergeAll (lent Z 1 (Z.scalars t)) = a → a.standsAlone = true → a = sseUp := by
    intro a heq hsa
    obtain ⟨l, hl, rfl⟩ := List.mem_map.1 (eq_of_mergeAll_standsAlone hsa heq).1
    exact half_lone_of_standsAlone hZ hE hI hX ht hs h80 hl hsa
  rw [Eightbytes.hasX87, low_classify, high_classify, Bool.or_eq_false_iff]
  constructor
  · cases heq : mergeAll (lent Z 0 (Z.scalars t)) <;> simp_all [isX87, standsAlone]
  · cases heq : mergeAll (lent Z 1 (Z.scalars t)) with
    | x87 | x87Up => exact absurd (hup heq rfl) (by decide)
    | _ => rfl

theorem of_eq_none_iff : Eightbytes.of? Z t = Option.none ↔ Clashes Z t := by
  have h87 := hasX87_classify hZ hE hI hX ht hs h80
  have hlow : (Eightbytes.empty.classify Z t 0).low ≠ memory := by
    rw [low_classify]
    exact (mergeAll_low hZ hE hI hX ht hs h80).1
  have hup : (Eightbytes.empty.classify Z t 0).high ≠ x87Up := by
    intro hup
    simp [Eightbytes.hasX87, hup, isX87] at h87
  rw [← mergeAll_high_iff hZ hE hI hX ht hs h80, ← high_classify, Eightbytes.of?, if_neg (Nat.not_lt.2 hs)]
  simp [overflow_classify_eq_false hZ hE hI hX ht hs, hlow, hup]

end

/-- Aggregates of more than two eightbytes go to memory, smaller ones without floats of the x87 unit only where floats
clash. -/
theorem inMemory_iff_clashes (hZ : Z.Regular) (hE : Z.ErrorsAreCodes) (hI : Z.TagsAreIntegers)
    (hX : Z.target.arch = .x86_64) (ht : Z.isScalar t = false) :
    (16 < (Z.layout t).size → classifyParam Z t = .byReference false true ∧ classifyReturn Z t = .sret) ∧
      ((Z.layout t).size ≤ 16 → (∀ l, Z.Leaf t l → Z.get l.ty ≠ .float 80) →
        ((∃ isMutable callerCopy, classifyParam Z t = .byReference isMutable callerCopy) ↔ Clashes Z t) ∧
          (classifyReturn Z t = .sret ↔ Clashes Z t)) := by
  constructor
  · intro h
    have hof := of_eq_none_of_lt h
    simp [classifyParam, classifyReturn, ht, hof]
  · intro hs h80
    have h87 : ∀ e, Eightbytes.of? Z t = some e → e.hasX87 = false := by
      intro e he
      obtain ⟨-, rfl, -⟩ := of_eq_some he
      exact hasX87_classify hZ hE hI hX ht hs h80
    rw [← of_eq_none_iff hZ hE hI hX ht hs h80]
    exact inMemory_iff ht h87

/-! ## A long float and two doubles -/

/-- Nothing in the union is a float of the x87 unit. -/
theorem leaf_quads (l : Member) (hl : Sizing.mixing.Leaf ⟨23⟩ l) : Sizing.mixing.get l.ty ≠ .float 80 := by
  intro hd
  have hmem : l ∈ Sizing.mixing.scalars ⟨23⟩ :=
    (Sizing.mem_scalars_iff Sizing.errorsAreCodes_mixing).2 ⟨hl, by simp [Sizing.isAtom, hd]⟩
  have hall : ∀ l ∈ Sizing.mixing.scalars ⟨23⟩, Sizing.mixing.get l.ty ≠ .float 80 := by decide
  exact hall l hmem hd

theorem inMemory_iff_clashes_quads : (Sizing.mixing.layout ⟨23⟩).size ≤ 16 ∧
    (classifyReturn .mixing ⟨23⟩ = .sret ↔ Clashes .mixing ⟨23⟩) := by
  have hs : (Sizing.mixing.layout ⟨23⟩).size ≤ 16 := by decide
  have h := inMemory_iff_clashes (t := ⟨23⟩) Sizing.regular_mixing Sizing.errorsAreCodes_mixing
    Sizing.tagsAreIntegers_mixing rfl (by decide)
  exact ⟨hs, (h.2 hs leaf_quads).2⟩

/-- Two eightbytes of floats, none of the x87 unit, are passed and returned in memory. -/
theorem exists_inMemory : ∃ (Z : Sizing) (t : TypeId), Z.Regular ∧ Z.ErrorsAreCodes ∧ Z.TagsAreIntegers ∧
    Z.target.arch = .x86_64 ∧ Z.takesRoom t = true ∧ Z.isScalar t = false ∧
      (Z.isSlice t || Z.isOptionalSlice t) = false ∧ (Z.layout t).size ≤ 16 ∧
      (∀ l, Z.Leaf t l → Z.get l.ty ≠ .float 80) ∧
      classifyParam Z t = .byReference false true ∧ classifyReturn Z t = .sret :=
  ⟨.mixing, ⟨23⟩, Sizing.regular_mixing, Sizing.errorsAreCodes_mixing, Sizing.tagsAreIntegers_mixing, rfl, by decide,
    by decide, by decide, by decide, leaf_quads, by decide, by decide⟩

end MachineAbi.SysV
