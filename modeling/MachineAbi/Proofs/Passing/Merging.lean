import Mathlib.Data.List.Perm.Basic
import MachineAbi.Proofs.Passing.Eightbytes

/-!
# What the classes in one eightbyte merge to

Classes are merged in order, and the order matters: an integer prevails over what comes after it, but a class that
stands alone and another class have gone to memory before an integer comes.

* Integers and classes that stand alone are there if they are the result (`mem_of_mergeAll_integer`,
  `eq_of_mergeAll_standsAlone`).
* The result is memory exactly if two classes clash (`Clash`) before the first integer (`mergeAll_eq_memory_iff`).
* Otherwise, the order makes no difference (`mergeAll_perm`). A clash is one of half of a float of the x87 unit, or one
  of the upper half of a 16-byte float or vector (`clash_iff`).
-/

namespace MachineAbi.SysV.EightbyteClass

variable {a b c : EightbyteClass} {cs cs' : List EightbyteClass}

/-! ## Two classes -/

@[simp]
theorem none_merge (c : EightbyteClass) : merge none c = c := by
  cases c <;> rfl

@[simp]
theorem merge_none (c : EightbyteClass) : merge c none = c := by
  cases c <;> rfl

@[simp]
theorem memory_merge (c : EightbyteClass) : merge memory c = memory := by
  cases c <;> rfl

theorem merge_eq_integer : merge a b = integer → a = integer ∨ b = integer := by
  cases a <;> cases b <;> decide

/-- A class that stands alone has not been merged with another. -/
theorem merge_standsAlone :
    (merge a b).standsAlone = true → (a = merge a b ∨ a = none) ∧ (b = merge a b ∨ b = none) := by
  cases a <;> cases b <;> decide

/-- A class that stands alone goes to memory with any other but an integer. -/
theorem merge_of_standsAlone : a.standsAlone = true → b ≠ integer → merge a b = a ∨ merge a b = memory := by
  cases a <;> cases b <;> decide

theorem merge_eq_memory : merge a b = memory → a ≠ memory → b ≠ memory →
    a ≠ integer ∧ b ≠ integer ∧ a ≠ none ∧ b ≠ none ∧ a ≠ b ∧ (a.standsAlone = true ∨ b.standsAlone = true) := by
  cases a <;> cases b <;> decide

theorem merge_comm (a b : EightbyteClass) : merge a b = merge b a := by
  cases a <;> cases b <;> rfl

/-- A class that one value can give; the other two only come of merging. -/
def IsSimple (c : EightbyteClass) : Prop := c ≠ memory ∧ c ≠ floatCombine

/-- Two simple classes that are no integers can change places, whatever is there already. -/
theorem merge_right_comm (a : EightbyteClass) (hb : b.IsSimple) (hc : c.IsSimple) :
    b ≠ integer → c ≠ integer → merge (merge a b) c = merge (merge a c) b := by
  obtain ⟨hb, hb'⟩ := hb
  obtain ⟨hc, hc'⟩ := hc
  cases b <;> first | contradiction | (cases c <;> first | contradiction | (cases a <;> decide))

/-! ## Many classes -/

theorem mergeAll_append_memory (h : mergeAll cs = memory) (cs' : List EightbyteClass) :
    mergeAll (cs ++ cs') = memory := by
  induction cs' using List.reverseRecOn with
  | nil => rwa [List.append_nil]
  | append_singleton cs' c ih => rw [← List.append_assoc, mergeAll_concat, ih, memory_merge]

theorem mergeAll_eq_none_iff : mergeAll cs = none ↔ ∀ c ∈ cs, c = none := by
  induction cs using List.reverseRecOn with
  | nil => simp [mergeAll]
  | append_singleton cs c ih =>
    rw [mergeAll_concat]
    constructor
    · intro h b hb
      obtain ⟨hinit, hlast⟩ := merge_eq_none h
      rcases List.mem_append.1 hb with hb | hb
      · exact ih.1 hinit b hb
      · rw [List.mem_singleton.1 hb, hlast]
    · intro h
      rw [ih.2 fun b hb => h b (List.mem_append_left _ hb), none_merge]
      exact h c (by simp)

theorem mem_of_mergeAll_integer (h : mergeAll cs = integer) : integer ∈ cs := by
  induction cs using List.reverseRecOn with
  | nil => cases h
  | append_singleton cs c ih =>
    rw [mergeAll_concat] at h
    rcases merge_eq_integer h with h | rfl
    · exact List.mem_append_left _ (ih h)
    · simp

/-- Where a class that stands alone is the result, there is no other. -/
theorem eq_of_mergeAll_standsAlone (ha : a.standsAlone = true) (h : mergeAll cs = a) :
    a ∈ cs ∧ ∀ b ∈ cs, b = a ∨ b = none := by
  induction cs using List.reverseRecOn with
  | nil =>
    subst h
    cases ha
  | append_singleton cs c ih =>
    rw [mergeAll_concat] at h
    obtain ⟨hinit, hlast⟩ := merge_standsAlone (a := mergeAll cs) (b := c) (h ▸ ha)
    rw [h] at hinit hlast
    have hrest : ∀ b ∈ cs, b = a ∨ b = none := by
      intro b hb
      rcases hinit with hinit | hinit
      · exact (ih hinit).2 b hb
      · exact Or.inr (mergeAll_eq_none_iff.1 hinit b hb)
    constructor
    · rcases hlast with rfl | rfl
      · simp
      · rw [merge_none] at h
        exact List.mem_append_left _ (ih h).1
    · intro b hb
      rcases List.mem_append.1 hb with hb | hb
      · exact hrest b hb
      · rw [List.mem_singleton.1 hb]
        exact hlast

/-- Without integers, a class that stands alone is the result, or else memory is. -/
theorem mergeAll_of_mem_standsAlone (ha : a.standsAlone = true) (hm : a ∈ cs) (hi : integer ∉ cs) :
    mergeAll cs = a ∨ mergeAll cs = memory := by
  induction cs using List.reverseRecOn with
  | nil => exact absurd hm List.not_mem_nil
  | append_singleton cs c ih =>
    have hinit : integer ∉ cs := fun h => hi (List.mem_append_left _ h)
    have hlast : c ≠ integer := fun h => hi (by simp [h])
    rw [mergeAll_concat]
    rcases List.mem_append.1 hm with hm | hm
    · rcases ih hm hinit with h | h
      · rw [h]
        exact merge_of_standsAlone ha hlast
      · rw [h, memory_merge]
        exact Or.inr rfl
    · obtain rfl := List.mem_singleton.1 hm
      rw [merge_comm]
      exact merge_of_standsAlone ha fun h => hinit (mem_of_mergeAll_integer h)

/-! ## Memory -/

/-- A class that stands alone and another one that is no integer. -/
def Clash (cs : List EightbyteClass) : Prop :=
  ∃ a ∈ cs, a.standsAlone = true ∧ ∃ b ∈ cs, b ≠ a ∧ b ≠ none ∧ b ≠ integer

theorem Clash.mono (h : Clash cs) (hsub : cs ⊆ cs') : Clash cs' := by
  obtain ⟨a, ha, hs, b, hb, hne⟩ := h
  exact ⟨a, hsub ha, hs, b, hsub hb, hne⟩

theorem mergeAll_of_clash (h : Clash cs) (hi : integer ∉ cs) : mergeAll cs = memory := by
  obtain ⟨a, ha, hs, b, hb, hne, hnone, -⟩ := h
  refine (mergeAll_of_mem_standsAlone hs ha hi).resolve_left fun heq => ?_
  rcases (eq_of_mergeAll_standsAlone hs heq).2 b hb with h | h
  · exact hne h
  · exact hnone h

/-- Classes go to memory exactly if some of them clash before the first integer. -/
theorem mergeAll_eq_memory_iff (hm : memory ∉ cs) :
    mergeAll cs = memory ↔ ∃ before after, cs = before ++ after ∧ integer ∉ before ∧ Clash before := by
  constructor
  · intro h
    induction cs using List.reverseRecOn with
    | nil => cases h
    | append_singleton cs c ih =>
      have hmem : memory ∉ cs := fun h => hm (List.mem_append_left _ h)
      have hc : c ≠ memory := fun h => hm (by simp [h])
      by_cases hinit : mergeAll cs = memory
      · obtain ⟨before, after, rfl, hbefore⟩ := ih hmem hinit
        exact ⟨before, after ++ [c], by simp, hbefore⟩
      rw [mergeAll_concat] at h
      obtain ⟨hai, hci, hanone, hcnone, hne, hs⟩ := merge_eq_memory h hinit hc
      have hints : integer ∉ cs := fun hi => (mergeAll_of_mem_integer hi).elim hai hinit
      refine ⟨cs ++ [c], [], by simp, by simp [hints, hci.symm], ?_⟩
      rcases hs with hs | hs
      · have ha := (eq_of_mergeAll_standsAlone hs rfl).1
        exact ⟨_, List.mem_append_left _ ha, hs, c, by simp, hne.symm, hcnone, hci⟩
      · -- some class before is neither missing nor this one, or else this one would have been the result
        by_contra hno
        have hall : ∀ b ∈ cs, b = c ∨ b = none := by
          intro b hb
          by_contra hb'
          obtain ⟨hbc, hbnone⟩ := not_or.1 hb'
          exact hno ⟨c, by simp, hs, b, List.mem_append_left _ hb, hbc, hbnone, fun hi => hints (hi ▸ hb)⟩
        by_cases hmem : c ∈ cs
        · rcases mergeAll_of_mem_standsAlone hs hmem hints with heq | heq
          · exact hne heq
          · exact hinit heq
        · refine hanone (mergeAll_eq_none_iff.2 fun b hb => (hall b hb).resolve_left ?_)
          rintro rfl
          exact hmem hb
  · rintro ⟨before, after, rfl, hi, hclash⟩
    exact mergeAll_append_memory (mergeAll_of_clash hclash hi) after

/-! ## Other orders -/

/-- A clash of the class `a` with another one. -/
def ClashOf (a : EightbyteClass) (cs : List EightbyteClass) : Prop :=
  a ∈ cs ∧ ∃ b ∈ cs, b ≠ a ∧ b ≠ none ∧ b ≠ integer

/-- A clash of half of a float of the x87 unit. -/
def ClashOfX87 (cs : List EightbyteClass) : Prop := ClashOf x87 cs ∨ ClashOf x87Up cs

theorem clash_iff : Clash cs ↔ ClashOfX87 cs ∨ ClashOf sseUp cs := by
  constructor
  · rintro ⟨a, ha, hs, hb⟩
    cases a with
    | x87 => exact Or.inl (Or.inl ⟨ha, hb⟩)
    | x87Up => exact Or.inl (Or.inr ⟨ha, hb⟩)
    | sseUp => exact Or.inr ⟨ha, hb⟩
    | none | integer | sse | float | floatCombine | memory => cases hs
  · rintro ((⟨ha, hb⟩ | ⟨ha, hb⟩) | ⟨ha, hb⟩)
    all_goals exact ⟨_, ha, rfl, hb⟩

/-- Unless an integer meets a clash, the order of classes makes no difference. -/
theorem mergeAll_perm (h : cs.Perm cs') (hcs : ∀ c ∈ cs, c.IsSimple) (hno : integer ∈ cs → ¬Clash cs) :
    mergeAll cs = mergeAll cs' := by
  have hm : memory ∉ cs := fun hm => (hcs _ hm).1 rfl
  by_cases hi : integer ∈ cs
  · -- no clash, so integers prevail in any order
    have prevails : ∀ ds : List EightbyteClass, ds.Perm cs → mergeAll ds = integer := by
      intro ds hds
      refine (mergeAll_of_mem_integer (hds.mem_iff.2 hi)).resolve_right fun hmemory => ?_
      obtain ⟨before, after, rfl, -, hclash⟩ := (mergeAll_eq_memory_iff fun h => hm (hds.mem_iff.1 h)).1 hmemory
      exact hno hi (hclash.mono fun b hb => hds.mem_iff.1 (List.mem_append_left _ hb))
    rw [prevails cs (.refl cs), prevails cs' h.symm]
  · refine h.foldl_eq' (fun b hb c hc a => ?_) none
    exact merge_right_comm a (hcs b hb) (hcs c hc) (fun e => hi (e ▸ hb)) fun e => hi (e ▸ hc)

end MachineAbi.SysV.EightbyteClass
