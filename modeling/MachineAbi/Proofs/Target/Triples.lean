import Mathlib.Data.List.Basic
import MachineAbi.Target.Triple

/-!
# Triples are read as they are written

Every text is made of components without a dash, with a dash between each and the next, and of these only
(`Triple.splitsInto_iff`). It is read as a triple exactly if no component is empty and they are three or four, or two of
which the first starts with `wasm` (`Triple.parse_exact`).

The long form of a triple is made of its own components (`Triple.splitsInto_toString`), so what is read off a text is
read off its long form as well. Only the short form of two components is not its own long form, since it names no
vendor.
-/

namespace MachineAbi

namespace Triple

/-! ## Components -/

/-- The text is these components, with a dash between each and the next. -/
structure SplitsInto (text : String) (parts : List String) : Prop where
  ne_nil : parts ≠ []
  dashless : ∀ p ∈ parts, '-' ∉ p.toList
  text_eq : text = "-".intercalate parts

theorem splitDash_eq (cs : List Char) : splitDash cs = cs.splitOn '-' := by
  induction cs with
  | nil => rfl
  | cons c cs ih =>
    rw [List.splitOn_cons_eq_if_modifyHead]
    by_cases hc : c = '-'
    · subst hc
      rw [splitDash, ih]
      rfl
    · have hne : (c == '-') = false := by simpa using hc
      have hcons : splitDash (c :: cs) = (splitDash cs).modifyHead (c :: ·) := by
        rw [splitDash]
        · cases hs : splitDash cs with
          | nil => exact absurd (ih ▸ hs) (List.splitOn_ne_nil _ _)
          | cons p ps => rfl
        · exact hc
      rw [hcons, ih, hne]
      rfl

theorem dashless_splitDash (cs : List Char) : ∀ p ∈ splitDash cs, '-' ∉ p := by
  induction cs with
  | nil => simp [splitDash]
  | cons c cs ih =>
    by_cases hc : c = '-'
    · subst hc
      simpa [splitDash] using ih
    · rw [splitDash]
      · cases hs : splitDash cs with
        | nil => simpa using Ne.symm hc
        | cons p ps =>
          rw [hs, List.forall_mem_cons] at ih
          refine List.forall_mem_cons.2 ⟨fun h => ?_, ih.2⟩
          rcases List.mem_cons.1 h with h | h
          · exact hc h.symm
          · exact ih.1 h
      · exact hc

/-- The components of a text are those between its dashes. -/
theorem splitsInto_iff {text : String} {parts : List String} :
    SplitsInto text parts ↔ parts.map String.toList = splitDash text.toList := by
  constructor
  · intro h
    have hlist : ∀ p ∈ parts.map String.toList, '-' ∉ p := by simpa using h.dashless
    have htext : text.toList = ['-'].intercalate (parts.map String.toList) := by
      rw [h.text_eq, String.toList_intercalate]
      rfl
    rw [splitDash_eq, htext, List.splitOn_intercalate _ hlist (by simpa using h.ne_nil)]
  · intro h
    refine ⟨fun hnil => ?_, fun p hp => ?_, String.toList_injective ?_⟩
    · rw [hnil, splitDash_eq] at h
      exact List.splitOn_ne_nil _ _ h.symm
    · exact dashless_splitDash _ _ (h ▸ List.mem_map_of_mem hp)
    · rw [String.toList_intercalate, h, splitDash_eq]
      exact (List.intercalate_splitOn '-').symm

/-- A text has its components in one way only. -/
theorem SplitsInto.eq {text : String} {parts parts' : List String} (h : SplitsInto text parts)
    (h' : SplitsInto text parts') : parts = parts' := by
  have hmap : parts.map String.toList = parts'.map String.toList := by
    rw [splitsInto_iff.1 h, splitsInto_iff.1 h']
  exact List.map_injective_iff.2 (fun _ _ => String.toList_injective) hmap

theorem exists_splitsInto (text : String) : ∃ parts, SplitsInto text parts := by
  refine ⟨(splitDash text.toList).map String.ofList, splitsInto_iff.2 ?_⟩
  simp

/-! ## Triples of components -/

/-- Three or four components, or two of which the first starts with `wasm`. -/
def HasShape (parts : List String) : Prop :=
  parts.length = 3 ∨ parts.length = 4 ∨ ∃ arch os, parts = [arch, os] ∧ "wasm".toList <+: arch.toList

/-- The triple that components make up. The vendor of the short form is not known. -/
inductive MadeOf : List String → Triple → Prop
  | short {arch : String} (os : String) (h : "wasm".toList <+: arch.toList) :
      MadeOf [arch, os] ⟨arch, "unknown", os, none⟩
  | three (arch vendor os : String) : MadeOf [arch, vendor, os] ⟨arch, vendor, os, none⟩
  | four (arch vendor os env : String) : MadeOf [arch, vendor, os, env] ⟨arch, vendor, os, some env⟩

variable {text : String} {parts : List String} {c : Triple}

theorem ofComponents?_eq_some_iff : ofComponents? (parts.map String.toList) = some c ↔ MadeOf parts c := by
  constructor
  · intro h
    match parts, h with
    | [arch, os], h =>
      obtain ⟨hwasm, h⟩ := Option.ite_none_right_eq_some.1 h
      obtain rfl := Option.some.inj h
      simpa using MadeOf.short os (List.isPrefixOf_iff_prefix.1 hwasm)
    | [arch, vendor, os], h =>
      obtain rfl := Option.some.inj h
      simpa using MadeOf.three arch vendor os
    | [arch, vendor, os, env], h =>
      obtain rfl := Option.some.inj h
      simpa using MadeOf.four arch vendor os env
  · intro h
    cases h with
    | short os h =>
      simpa [ofComponents?] using h
    | three => simp [ofComponents?]
    | four => simp [ofComponents?]

theorem exists_madeOf_iff : (∃ c, MadeOf parts c) ↔ HasShape parts := by
  constructor
  · rintro ⟨c, h⟩
    cases h with
    | short os h => exact Or.inr (Or.inr ⟨_, os, rfl, h⟩)
    | three => exact Or.inl rfl
    | four => exact Or.inr (Or.inl rfl)
  · rintro (h | h | ⟨arch, os, rfl, h⟩)
    · obtain ⟨arch, vendor, os, rfl⟩ := List.length_eq_three.1 h
      exact ⟨_, .three arch vendor os⟩
    · match parts, h with
      | [arch, vendor, os, env], _ => exact ⟨_, .four arch vendor os env⟩
    · exact ⟨_, .short os h⟩

/-- What is read off a text is what its components make up, unless one is empty. -/
theorem parse_eq (h : SplitsInto text parts) :
    parse text =
      if "" ∈ parts then .error (.invalidTripleFormat text "empty component")
      else
        match ofComponents? (parts.map String.toList) with
        | some c => .ok c
        | none => .error (.invalidTripleFormat text "expected <arch>-<vendor>-<os>[-<env>]") := by
  have hempty : (splitDash text.toList).any List.isEmpty = true ↔ "" ∈ parts := by
    rw [← splitsInto_iff.1 h]
    simp
  rw [parse, parse?]
  simp only [← splitsInto_iff.1 h] at hempty ⊢
  by_cases he : "" ∈ parts
  · rw [if_pos he, if_pos (hempty.2 he)]
    rfl
  · rw [if_neg he, if_neg fun hany => he (hempty.1 hany)]
    cases ofComponents? (parts.map String.toList) <;> rfl

theorem parse_eq_ok_iff (h : SplitsInto text parts) : parse text = .ok c ↔ "" ∉ parts ∧ MadeOf parts c := by
  rw [parse_eq h, ← ofComponents?_eq_some_iff]
  split
  · simp_all
  · split <;> simp_all

theorem parse_eq_empty_iff (h : SplitsInto text parts) :
    parse text = .error (.invalidTripleFormat text "empty component") ↔ "" ∈ parts := by
  rw [parse_eq h]
  split
  · simp_all
  · split <;> simp_all

theorem parse_eq_wrongShape_iff (h : SplitsInto text parts) :
    parse text = .error (.invalidTripleFormat text "expected <arch>-<vendor>-<os>[-<env>]") ↔
      "" ∉ parts ∧ ¬HasShape parts := by
  rw [parse_eq h, ← exists_madeOf_iff]
  simp only [← ofComponents?_eq_some_iff]
  split
  · simp_all
  · split <;> simp_all

/-! ## Long forms -/

/-- The components of the long form. -/
def components (c : Triple) : List String := [c.arch, c.vendor, c.os] ++ c.env.toList

theorem madeOf_components (c : Triple) : MadeOf c.components c := by
  obtain ⟨arch, vendor, os, env⟩ := c
  cases env with
  | none => exact .three arch vendor os
  | some env => exact .four arch vendor os env

theorem toString_eq (c : Triple) : c.toString = "-".intercalate c.components := by
  obtain ⟨arch, vendor, os, env⟩ := c
  cases env <;> simp [toString, components, String.append_assoc]

/-- Every component of the long form is one of those given, or the vendor that stands for none. -/
theorem MadeOf.mem_components (h : MadeOf parts c) {p : String} (hp : p ∈ c.components) : p ∈ parts ∨ p = "unknown" := by
  cases h with
  | short | three | four =>
    simp only [components, Option.toList_none, Option.toList_some, List.append_nil, List.cons_append, List.nil_append,
      List.mem_cons, List.not_mem_nil, or_false] at hp ⊢
    tauto

theorem splitsInto_toString (h : SplitsInto text parts) (hc : MadeOf parts c) :
    SplitsInto c.toString c.components := by
  refine ⟨by simp [components], fun p hp => ?_, c.toString_eq⟩
  rcases hc.mem_components hp with hp | rfl
  · exact h.dashless p hp
  · decide

/-! ## Reading -/

/-- What is read off a text with these components: a triple exactly if they have the form of one, which is read off its
long form again, and an error that says what is wrong otherwise. -/
structure ReadExactly (text : String) (parts : List String) : Prop where
  accepted : (∃ c, parse text = .ok c) ↔ "" ∉ parts ∧ HasShape parts
  emptyComponent : parse text = .error (.invalidTripleFormat text "empty component") ↔ "" ∈ parts
  wrongShape : parse text = .error (.invalidTripleFormat text "expected <arch>-<vendor>-<os>[-<env>]") ↔
    "" ∉ parts ∧ ¬HasShape parts
  again : ∀ c, parse text = .ok c → parse c.toString = .ok c
  long : ∀ c, parse text = .ok c → parts.length = 3 ∨ parts.length = 4 → c.toString = text
  short : ∀ c arch os, parse text = .ok c → parts = [arch, os] → c.toString = arch ++ "-unknown-" ++ os

/-- Every text has its components in one way, and is read as a triple exactly if they have the form of one. What is read
is read off its long form again. -/
theorem parse_exact (text : String) :
    ∃ parts, SplitsInto text parts ∧ (∀ parts', SplitsInto text parts' → parts' = parts) ∧ ReadExactly text parts := by
  obtain ⟨parts, h⟩ := exists_splitsInto text
  refine ⟨parts, h, fun parts' h' => h'.eq h, ?_, parse_eq_empty_iff h, parse_eq_wrongShape_iff h, fun c hc => ?_,
    fun c hc hlong => ?_, fun c arch os hc hparts => ?_⟩
  · simp only [parse_eq_ok_iff h, exists_and_left, exists_madeOf_iff]
  · obtain ⟨hempty, hmade⟩ := (parse_eq_ok_iff h).1 hc
    refine (parse_eq_ok_iff (splitsInto_toString h hmade)).2 ⟨fun hmem => ?_, c.madeOf_components⟩
    rcases hmade.mem_components hmem with hmem | hunknown
    · exact hempty hmem
    · exact absurd hunknown (by decide)
  · cases ((parse_eq_ok_iff h).1 hc).2 with
    | short => simp at hlong
    | three | four => rw [h.text_eq, toString_eq]; rfl
  · cases hparts ▸ ((parse_eq_ok_iff h).1 hc).2 with
    | short => simp [toString, String.append_assoc]

/-- The short form becomes long, with `unknown` as its vendor. -/
example : (parse "wasm32-wasi").map toString = .ok "wasm32-unknown-wasi" := by decide

end Triple

end MachineAbi
