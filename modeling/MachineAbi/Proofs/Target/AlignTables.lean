import Mathlib.Data.List.Sort
import MachineAbi.Target.Descriptor

/-!
# Merged alignment tables

A merged table has each width once, in increasing order (`AlignTable.increasing_merge`), and under each width the last
override of it, or else the default (`AlignTable.find_merge`). In such a table an entry is told by its width
(`AlignTable.find_eq_some_iff`), and a table by what is found in it (`AlignTable.Increasing.eq_of_find_eq`). So

* the order in which entries are put in place does not matter: overwriting the defaults where they stand and sorting
  at the end gives the same table (`AlignTable.merge_eq_mergeSort`);
* what a table says beyond the defaults is enough to get it back (`AlignTable.merge_filter_differs`);
* the first entry that is wide enough is the narrowest one, and the last entry is the widest
  (`AlignTable.atLeast_eq_some_iff`).
-/

namespace MachineAbi.AlignTable

/-! ## One entry for each width -/

/-- The widths of the entries. -/
def widths (specs : List AlignSpec) : List Nat := specs.map AlignSpec.bits

section

variable {specs specs' : List AlignSpec} {s : AlignSpec} {bits : Nat}

theorem nodup_of_widths (h : (widths specs).Nodup) : specs.Nodup := h.of_map

/-- Where no width occurs twice, an entry is found under its width. -/
theorem find_eq_some_iff (h : (widths specs).Nodup) : find specs bits = some s ↔ s ∈ specs ∧ s.bits = bits := by
  constructor
  · intro hs
    exact ⟨List.mem_of_find?_eq_some hs, by simpa using List.find?_some hs⟩
  · rintro ⟨hmem, rfl⟩
    cases hf : find specs s.bits with
    | none => exact absurd (List.find?_eq_none.1 hf s hmem) (by simp)
    | some e =>
      have hbits : e.bits = s.bits := by simpa using List.find?_some hf
      exact congrArg some (List.inj_on_of_nodup_map h (List.mem_of_find?_eq_some hf) hmem hbits)

theorem mem_iff_find (h : (widths specs).Nodup) : s ∈ specs ↔ find specs s.bits = some s := by
  rw [find_eq_some_iff h]
  exact (and_iff_left rfl).symm

/-- The order of the entries does not matter for what is found. -/
theorem find_congr (h : (widths specs).Nodup) (h' : (widths specs').Nodup) (hmem : ∀ s, s ∈ specs ↔ s ∈ specs')
    (bits : Nat) : find specs bits = find specs' bits := by
  ext s
  rw [find_eq_some_iff h, find_eq_some_iff h', hmem]

theorem find_reverse (h : (widths specs).Nodup) (bits : Nat) : find specs.reverse bits = find specs bits := by
  refine find_congr ?_ h (fun _ => List.mem_reverse) bits
  rw [widths, List.map_reverse]
  exact List.nodup_reverse.2 h

theorem find_filter (h : (widths specs).Nodup) (p : AlignSpec → Bool) (bits : Nat) :
    find (specs.filter p) bits = (find specs bits).filter p := by
  have hsub : (widths (specs.filter p)).Nodup := h.sublist (List.filter_sublist.map _)
  ext s
  rw [find_eq_some_iff hsub, Option.filter_eq_some_iff, find_eq_some_iff h, List.mem_filter]
  tauto

end

/-! ## Increasing tables -/

/-- Each width once, in increasing order. -/
def Increasing (table : AlignTable) : Prop := table.Pairwise (·.bits < ·.bits)

namespace Increasing

variable {table table' : AlignTable}

theorem nodup_widths (h : table.Increasing) : (widths table).Nodup :=
  List.pairwise_map.2 (h.imp Nat.ne_of_lt)

theorem filter (h : table.Increasing) (p : AlignSpec → Bool) : Increasing (table.filter p) :=
  h.sublist List.filter_sublist

/-- A table is told by what is found in it. -/
theorem eq_of_find_eq (h : table.Increasing) (h' : table'.Increasing) (hf : ∀ bits, table.find bits = table'.find bits) :
    table = table' := by
  have hmem : ∀ s, s ∈ table ↔ s ∈ table' := fun s => by
    rw [mem_iff_find h.nodup_widths, mem_iff_find h'.nodup_widths, hf]
  have hperm : table.Perm table' :=
    (List.perm_ext_iff_of_nodup (nodup_of_widths h.nodup_widths) (nodup_of_widths h'.nodup_widths)).2 hmem
  exact hperm.eq_of_pairwise (fun _ _ _ _ hlt hgt => absurd hlt (Nat.lt_asymm hgt)) h h'

end Increasing

/-! ## Entering in order -/

section

variable {s e : AlignSpec} {table : AlignTable}

theorem eq_or_mem_of_mem_enter (h : e ∈ enter s table) : e = s ∨ e ∈ table := by
  induction table with
  | nil => exact Or.inl (List.mem_singleton.1 h)
  | cons d table ih =>
    unfold enter at h
    split at h
    · exact List.mem_cons.1 h
    · split at h
      · rcases List.mem_cons.1 h with rfl | h
        · exact Or.inl rfl
        · exact Or.inr (List.mem_cons_of_mem _ h)
      · rcases List.mem_cons.1 h with rfl | h
        · exact Or.inr List.mem_cons_self
        · exact (ih h).imp_right (List.mem_cons_of_mem _)

/-- A new entry keeps the order. -/
theorem Increasing.enter (h : table.Increasing) (s : AlignSpec) : (enter s table).Increasing := by
  induction table with
  | nil => exact List.pairwise_singleton _ _
  | cons d table ih =>
    obtain ⟨hd, htable⟩ := List.pairwise_cons.1 h
    unfold AlignTable.enter
    split
    · rename_i hlt
      refine List.pairwise_cons.2 ⟨fun e he => ?_, h⟩
      rcases List.mem_cons.1 he with rfl | he
      · exact hlt
      · exact Nat.lt_trans hlt (hd e he)
    · split
      · rename_i heq
        refine List.pairwise_cons.2 ⟨fun e he => ?_, htable⟩
        rw [heq]
        exact hd e he
      · refine List.pairwise_cons.2 ⟨fun e he => ?_, ih htable⟩
        rcases eq_or_mem_of_mem_enter he with rfl | he
        · omega
        · exact hd e he

end

/-! ## Putting entries in place -/

theorem find_cons (s : AlignSpec) (specs : List AlignSpec) (bits : Nat) :
    find (s :: specs) bits = if s.bits = bits then some s else find specs bits := by
  by_cases h : s.bits = bits <;> simp [find, h]

/-- In `specs'` the entry `s` is found under its width, and whatever is found in `specs` under the others. -/
def Puts (s : AlignSpec) (specs specs' : List AlignSpec) : Prop :=
  ∀ bits, find specs' bits = if s.bits = bits then some s else find specs bits

namespace Puts

variable {s e : AlignSpec} {specs specs' : List AlignSpec}

/-- In front of all others. -/
theorem front (s : AlignSpec) (specs : List AlignSpec) : Puts s specs (s :: specs) :=
  find_cons s specs

/-- In place of an entry of its width. -/
theorem onto (h : e.bits = s.bits) : Puts s (e :: specs) (s :: specs) := by
  intro bits
  rw [find_cons, find_cons, h]
  split <;> rfl

/-- Behind an entry of another width. -/
theorem behind (h : e.bits ≠ s.bits) (hs : Puts s specs specs') : Puts s (e :: specs) (e :: specs') := by
  intro bits
  rw [find_cons, find_cons, hs bits]
  split
  · rename_i he
    rw [if_neg fun hsb => h (he.trans hsb.symm)]
  · rfl

/-- Of the entries of one width the last one stays, however each of them is put in place. -/
theorem find_foldl {put : AlignSpec → List AlignSpec → List AlignSpec} (hput : ∀ s specs, Puts s specs (put s specs))
    (added specs : List AlignSpec) (bits : Nat) :
    find (added.foldl (fun specs s => put s specs) specs) bits = (find added.reverse bits).or (find specs bits) := by
  induction added generalizing specs with
  | nil => rfl
  | cons s added ih =>
    have hlast : find (s :: added).reverse bits = (find added.reverse bits).or (find [s] bits) := by
      rw [List.reverse_cons]
      exact List.find?_append
    rw [List.foldl_cons, ih, hput s specs bits, hlast, find_cons, Option.or_assoc]
    split <;> rfl

end Puts

theorem puts_enter (s : AlignSpec) (table : AlignTable) : Puts s table (enter s table) := by
  induction table with
  | nil => exact .front s []
  | cons e table ih =>
    unfold enter
    split
    · exact .front s (e :: table)
    · split
      · rename_i heq
        exact .onto heq.symm
      · rename_i hne
        exact ih.behind (Ne.symm hne)

/-! ## Merging -/

section

variable {defaults : List AlignSpec}

theorem increasing_merge (defaults overrides : List AlignSpec) : (merge defaults overrides).Increasing :=
  List.foldlRecOn (motive := Increasing) _ _ List.Pairwise.nil fun _ h s _ => h.enter s

/-- The last override of a width, or else the default. -/
theorem find_merge (hd : (widths defaults).Nodup) (overrides : List AlignSpec) (bits : Nat) :
    (merge defaults overrides).find bits = (find overrides.reverse bits).or (find defaults bits) := by
  have happend : find (defaults ++ overrides).reverse bits =
      (find overrides.reverse bits).or (find defaults.reverse bits) := by
    rw [List.reverse_append]
    exact List.find?_append
  rw [merge, Puts.find_foldl puts_enter, happend, find_reverse hd]
  exact Option.or_none

end

/-! ## Overwriting in place -/

/-- Writes `s` over the first entry of its width, or behind all entries if there is none. -/
def overwrite (s : AlignSpec) : List AlignSpec → List AlignSpec
  | [] => [s]
  | e :: es => if e.bits = s.bits then s :: es else e :: overwrite s es

section

variable {specs defaults : List AlignSpec}

theorem puts_overwrite (s : AlignSpec) (specs : List AlignSpec) : Puts s specs (overwrite s specs) := by
  induction specs with
  | nil => exact .front s []
  | cons e specs ih =>
    unfold overwrite
    split
    · rename_i heq
      exact .onto heq
    · rename_i hne
      exact ih.behind hne

/-- Only a width that was missing is added. -/
theorem widths_overwrite (s : AlignSpec) (specs : List AlignSpec) :
    widths (overwrite s specs) = if s.bits ∈ widths specs then widths specs else widths specs ++ [s.bits] := by
  induction specs with
  | nil => rfl
  | cons e specs ih =>
    unfold overwrite
    by_cases heq : e.bits = s.bits
    · simp [widths, heq]
    · have hcons : widths (e :: overwrite s specs) = e.bits :: widths (overwrite s specs) := rfl
      have hmem : s.bits ∈ widths (e :: specs) ↔ s.bits ∈ widths specs := by simp [widths, Ne.symm heq]
      rw [if_neg heq, hcons, ih]
      simp only [hmem]
      split <;> rfl

theorem nodup_widths_overwrite (h : (widths specs).Nodup) (s : AlignSpec) : (widths (overwrite s specs)).Nodup := by
  rw [widths_overwrite]
  split
  · exact h
  · rename_i hnew
    rw [← List.concat_eq_append]
    exact h.concat hnew

theorem nodup_foldl_overwrite (h : (widths specs).Nodup) (added : List AlignSpec) :
    (widths (added.foldl (fun specs s => overwrite s specs) specs)).Nodup :=
  List.foldlRecOn (motive := fun specs => (widths specs).Nodup) _ _ h fun _ h s _ => nodup_widths_overwrite h s

theorem increasing_mergeSort (h : (widths specs).Nodup) : Increasing (specs.mergeSort (·.bits ≤ ·.bits)) := by
  have hle : (specs.mergeSort (·.bits ≤ ·.bits)).Pairwise fun s e => decide (s.bits ≤ e.bits) = true :=
    List.pairwise_mergeSort (by simpa using fun _ _ _ => Nat.le_trans) (by simpa using fun _ _ => Nat.le_total _ _) specs
  have hne : (specs.mergeSort (·.bits ≤ ·.bits)).Pairwise fun s e => s.bits ≠ e.bits :=
    List.pairwise_map.1 (((List.mergeSort_perm specs _).map AlignSpec.bits).nodup_iff.2 h)
  exact hle.imp₂ (fun s e hle hne => Nat.lt_of_le_of_ne (by simpa using hle) hne) hne

/-- It does not matter whether each entry is put where it belongs, or all are sorted at the end. -/
theorem merge_eq_mergeSort (hd : (widths defaults).Nodup) (overrides : List AlignSpec) :
    merge defaults overrides =
      (overrides.foldl (fun specs s => overwrite s specs) defaults).mergeSort (·.bits ≤ ·.bits) := by
  have hnodup := nodup_foldl_overwrite hd overrides
  have hsorted := increasing_mergeSort hnodup
  refine (increasing_merge defaults overrides).eq_of_find_eq hsorted fun bits => ?_
  rw [find_merge hd, find_congr hsorted.nodup_widths hnodup fun _ => List.mem_mergeSort]
  exact (Puts.find_foldl puts_overwrite overrides defaults bits).symm

end

/-! ## What the defaults do not say -/

section

variable {defaults : List AlignSpec} {table : AlignTable}

theorem differs_eq_false_iff {s : AlignSpec} : s.differs defaults = false ↔ find defaults s.bits = some s := by
  simp [AlignSpec.differs, find]

/-- A table that has all default widths is the defaults with the entries that differ from them. -/
theorem merge_filter_differs (hd : (widths defaults).Nodup) (h : table.Increasing)
    (hall : ∀ bits, table.find bits = none → find defaults bits = none) :
    merge defaults (table.filter (·.differs defaults)) = table := by
  refine (increasing_merge _ _).eq_of_find_eq h fun bits => ?_
  rw [find_merge hd, find_reverse (h.filter _).nodup_widths, find_filter h.nodup_widths]
  cases hs : table.find bits with
  | none => exact hall bits hs
  | some s =>
    obtain ⟨-, rfl⟩ := (find_eq_some_iff h.nodup_widths).1 hs
    rw [Option.filter_some]
    cases hdiff : s.differs defaults with
    | true => rfl
    | false => exact differs_eq_false_iff.1 hdiff

end

/-! ## The entry for a width -/

/-- The entry that aligns integers of `bits` bits: the narrowest of those that are wide enough, or the widest of all if
none is. -/
inductive Governs (table : AlignTable) (bits : Nat) (s : AlignSpec) : Prop where
  | narrowest (mem : s ∈ table) (wide : bits ≤ s.bits) (least : ∀ e ∈ table, bits ≤ e.bits → s.bits ≤ e.bits)
  | widest (mem : s ∈ table) (narrow : ∀ e ∈ table, e.bits < bits) (greatest : ∀ e ∈ table, e.bits ≤ s.bits)

section

variable {table : AlignTable} {bits : Nat} {s e : AlignSpec}

theorem Governs.mem (h : table.Governs bits s) : s ∈ table := by
  cases h <;> assumption

theorem Governs.bits_eq (h : table.Governs bits s) (h' : table.Governs bits e) : s.bits = e.bits := by
  cases h with
  | narrowest mem wide least =>
    cases h' with
    | narrowest mem' wide' least' => exact Nat.le_antisymm (least e mem' wide') (least' s mem wide)
    | widest _ narrow' _ => exact absurd wide (Nat.not_le.2 (narrow' s mem))
  | widest mem narrow greatest =>
    cases h' with
    | narrowest mem' wide' _ => exact absurd wide' (Nat.not_le.2 (narrow e mem'))
    | widest mem' _ greatest' => exact Nat.le_antisymm (greatest' s mem) (greatest e mem')

theorem atLeast_eq_none_iff : table.atLeast bits = none ↔ table = [] := by
  rw [atLeast, Option.or_eq_none_iff, List.getLast?_eq_none_iff]
  exact ⟨And.right, fun h => ⟨by rw [h]; rfl, h⟩⟩

theorem governs_of_atLeast (h : table.Increasing) (hs : table.atLeast bits = some s) : table.Governs bits s := by
  rcases Option.or_eq_some_iff.1 hs with hs | ⟨hnone, hs⟩
  · obtain ⟨hwide, front, rest, rfl, hfront⟩ := List.find?_eq_some_iff_append.1 hs
    have hwide : bits ≤ s.bits := by simpa using hwide
    obtain ⟨hrest, -⟩ := List.pairwise_cons.1 (List.pairwise_append.1 h).2.1
    refine .narrowest (by simp) hwide fun e he hle => ?_
    rcases List.mem_append.1 he with he | he
    · exact absurd hle (by simpa using hfront e he)
    · rcases List.mem_cons.1 he with rfl | he
      · exact Nat.le_refl _
      · exact Nat.le_of_lt (hrest e he)
  · obtain ⟨front, rfl⟩ := List.getLast?_eq_some_iff.1 hs
    refine .widest (by simp) (fun e he => by simpa using List.find?_eq_none.1 hnone e he) fun e he => ?_
    rcases List.mem_append.1 he with he | he
    · exact Nat.le_of_lt ((List.pairwise_append.1 h).2.2 e he s List.mem_cons_self)
    · rw [List.mem_singleton.1 he]

/-- The entry that is looked up is the one that governs. -/
theorem atLeast_eq_some_iff (h : table.Increasing) : table.atLeast bits = some s ↔ table.Governs bits s := by
  refine ⟨governs_of_atLeast h, fun hs => ?_⟩
  cases he : table.atLeast bits with
  | none =>
    rw [atLeast_eq_none_iff.1 he] at hs
    exact absurd hs.mem List.not_mem_nil
  | some e =>
    have hgov := governs_of_atLeast h he
    exact congrArg some (List.inj_on_of_nodup_map h.nodup_widths hgov.mem hs.mem (hgov.bits_eq hs))

theorem exists_governs (h : table.Increasing) (hne : table ≠ []) (bits : Nat) : ∃ s, table.Governs bits s := by
  cases hs : table.atLeast bits with
  | none => exact absurd (atLeast_eq_none_iff.1 hs) hne
  | some s => exact ⟨s, governs_of_atLeast h hs⟩

end

/-- A table merged from defaults and overrides is the one in which each override is written over the entry of its width,
or behind all, and the whole is sorted. It has each width once, in increasing order, and under it the last override, or
else the default. What it says beyond the defaults is enough to get it back, and an integer is aligned by its narrowest
entry that is wide enough, or else by its widest. -/
theorem merge_roundTrip {defaults : List AlignSpec} (hd : (widths defaults).Nodup) (overrides : List AlignSpec) :
    merge defaults overrides =
      (overrides.foldl (fun specs s => overwrite s specs) defaults).mergeSort (·.bits ≤ ·.bits) ∧
    (merge defaults overrides).Pairwise (·.bits < ·.bits) ∧
    (∀ bits, (merge defaults overrides).find bits = (find overrides.reverse bits).or (find defaults bits)) ∧
    merge defaults ((merge defaults overrides).filter (·.differs defaults)) = merge defaults overrides ∧
    ∀ T : Target, T.intAligns = merge defaults overrides → ∀ bits,
      (T.intAligns = [] → T.intAlign bits = 1) ∧
      (T.intAligns ≠ [] → ∃ s, T.intAligns.Governs bits s) ∧
      ∀ s, T.intAligns.Governs bits s → T.intAlign bits = s.bytes := by
  have hinc := increasing_merge defaults overrides
  have hfind := find_merge hd overrides
  refine ⟨merge_eq_mergeSort hd overrides, hinc, hfind, merge_filter_differs hd hinc fun bits hnone => ?_,
    fun T hT bits => ?_⟩
  · rw [hfind] at hnone
    exact (Option.or_eq_none_iff.1 hnone).2
  · rw [← hT] at hinc
    refine ⟨fun hempty => ?_, fun hne => exists_governs hinc hne bits, fun s hs => ?_⟩
    · rw [Target.intAlign, atLeast_eq_none_iff.2 hempty]
      rfl
    · rw [Target.intAlign, (atLeast_eq_some_iff hinc).2 hs]
      rfl

/-- Defaults, not in order. -/
def unordered : List AlignSpec := [⟨64, 32, 64⟩, .natural 8 8, .natural 1 8]

/-- Overrides with repetitions; the last one for 64 bits is the default again. -/
def repeated : List AlignSpec := [.natural 64 64, .natural 128 128, ⟨8, 8, 32⟩, .natural 128 64, ⟨64, 32, 64⟩]

/-- A target with the merged table. -/
def layered : Target :=
  let triple : Triple := ⟨"x86_64", "unknown", "linux", some "gnu"⟩
  { Target.ofComponents "x86_64-unknown-linux-gnu" triple .x86_64 with intAligns := merge unordered repeated }

theorem merge_roundTrip_repeated :
    (widths unordered).Nodup ∧
    merge unordered repeated = [.natural 1 8, ⟨8, 8, 32⟩, ⟨64, 32, 64⟩, .natural 128 64] ∧
    merge unordered [⟨8, 8, 32⟩, .natural 128 64] = merge unordered repeated ∧
    layered.intAligns = merge unordered repeated ∧ layered.intAlign 9 = 4 ∧
    layered.intAlign 200 = 8 := by
  have hd : (widths unordered).Nodup := by decide
  obtain ⟨-, -, -, hback, halign⟩ := merge_roundTrip hd repeated
  refine ⟨hd, rfl, hback, rfl, ?_, ?_⟩
  · exact (halign layered rfl 9).2.2 ⟨64, 32, 64⟩ (.narrowest (by decide) (by decide) (by decide))
  · exact (halign layered rfl 200).2.2 (.natural 128 64) (.widest (by decide) (by decide) (by decide))

end MachineAbi.AlignTable
