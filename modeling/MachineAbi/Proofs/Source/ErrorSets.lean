import Mathlib.Data.List.Sort
import Mathlib.Data.String.Basic
import MachineAbi.Proofs.Source.Growth

/-!
# Error sets are sets of names

A pool stores the names of an error set in increasing order by code points, each once, however they were listed
(`ErrorSet.exists_ofNames`). Such a list is told by the names in it, so two lists of names are stored as one error set
exactly if they have the same names (`ErrorSet.ofNames_eq_iff`), and since a pool stores each set once, they then have
the same identity, whatever is called in between (`Pool.errorSet_identity`).
-/

namespace MachineAbi

/-! ## Repetitions in lists -/

section

variable {α : Type}

theorem eraseReps_loop [BEq α] (a : α) (as acc : List α) :
    List.eraseRepsBy.loop (· == ·) a as acc = acc.reverse ++ (a :: as).eraseReps := by
  induction as generalizing a acc with
  | nil => simp [List.eraseReps, List.eraseRepsBy, List.eraseRepsBy.loop]
  | cons b as ih =>
    rw [List.eraseReps, List.eraseRepsBy, List.eraseRepsBy.loop, List.eraseRepsBy.loop]
    split
    · rw [ih, ih, List.reverse_nil, List.nil_append]
    · rw [ih, ih]
      simp

theorem eraseReps_cons_cons [DecidableEq α] (a b : α) (as : List α) :
    (a :: b :: as).eraseReps = if a = b then (b :: as).eraseReps else a :: (b :: as).eraseReps := by
  rw [List.eraseReps, List.eraseRepsBy, List.eraseRepsBy.loop]
  split
  · simp_all [eraseReps_loop]
  · simp_all [eraseReps_loop]

theorem mem_eraseReps [DecidableEq α] {a : α} {as : List α} : a ∈ as.eraseReps ↔ a ∈ as := by
  induction as with
  | nil => rfl
  | cons b as ih =>
    cases as with
    | nil => rfl
    | cons c as =>
      rw [eraseReps_cons_cons]
      split
      · rename_i h
        rw [ih, h]
        simp
      · rw [List.mem_cons, List.mem_cons, ih]

/-- Without the repetitions, a list in order has each item once. -/
theorem pairwise_lt_eraseReps [LinearOrder α] {as : List α} (h : as.Pairwise (· ≤ ·)) :
    as.eraseReps.Pairwise (· < ·) := by
  induction as with
  | nil => exact .nil
  | cons a as ih =>
    cases as with
    | nil => exact List.pairwise_singleton _ _
    | cons b as =>
      obtain ⟨ha, hb⟩ := List.pairwise_cons.1 h
      rw [eraseReps_cons_cons]
      split
      · exact ih hb
      · rename_i hne
        refine List.pairwise_cons.2 ⟨fun c hc => ?_, ih hb⟩
        have hab : a < b := lt_of_le_of_ne (ha b List.mem_cons_self) hne
        rcases List.mem_cons.1 (mem_eraseReps.1 hc) with rfl | hc
        · exact hab
        · exact lt_of_lt_of_le hab ((List.pairwise_cons.1 hb).1 c hc)

end

/-! ## Names -/

/-- The code points of a name. -/
def codePoints (name : String) : List Nat := name.toList.map Char.toNat

theorem map_toNat_lt_iff {cs ds : List Char} : cs.map Char.toNat < ds.map Char.toNat ↔ cs < ds := by
  induction cs generalizing ds with
  | nil => cases ds <;> simp
  | cons c cs ih =>
    cases ds with
    | nil => simp
    | cons d ds =>
      rw [List.map_cons, List.map_cons, List.cons_lt_cons_iff, List.cons_lt_cons_iff, ih, Char.toNat_inj]
      exact Iff.rfl

theorem codePoints_lt_iff {a b : String} : codePoints a < codePoints b ↔ a < b :=
  map_toNat_lt_iff.trans String.lt_iff_toList_lt.symm

namespace ErrorSet

/-- The names of a set, in increasing order by code points and each once. -/
theorem exists_ofNames (names : List String) : ∃ sorted, ofNames names = .named sorted ∧
    sorted.Pairwise (fun a b => codePoints a < codePoints b) ∧ ∀ n, n ∈ sorted ↔ n ∈ names := by
  refine ⟨_, rfl, ?_, fun n => ?_⟩
  · simp only [codePoints_lt_iff]
    refine pairwise_lt_eraseReps ?_
    have hsorted : (names.mergeSort (· ≤ ·)).Pairwise fun a b => decide (a ≤ b) = true :=
      List.pairwise_mergeSort (by simpa using fun a b c => le_trans) (by simpa using le_total) names
    simpa using hsorted
  · rw [mem_eraseReps, List.mem_mergeSort]

theorem ofNames_eq_iff {xs ys : List String} : ofNames xs = ofNames ys ↔ ∀ n, n ∈ xs ↔ n ∈ ys := by
  obtain ⟨sorted, hx, hsorted, hmem⟩ := exists_ofNames xs
  obtain ⟨sorted', hy, hsorted', hmem'⟩ := exists_ofNames ys
  rw [hx, hy, ErrorSet.named.injEq]
  constructor
  · rintro rfl n
    rw [← hmem, hmem']
  · intro h
    simp only [codePoints_lt_iff] at hsorted hsorted'
    exact hsorted.eq_of_mem_iff hsorted' fun n => by rw [hmem, hmem', h]

end ErrorSet

/-! ## Identities -/

namespace Pool

variable {calls : List Call} {t : TypeId} {d d' : Ty}

/-- A type known by its structure is stored where the pool says. -/
theorem stores_intern (hd : d.isNominal = false) : ((after calls).intern d).2.Stores ((after calls).intern d).1 d := by
  have hindex := Indexed.mirrors_after calls
  unfold intern
  split
  next t hf => exact (hindex.find?_eq_some_iff hd).1 hf
  next => exact Store.getElem?_push_eq_some.2 (Or.inr ⟨rfl, rfl⟩)

/-- An identity is given again exactly to the type that is stored under it. -/
theorem intern_fst_eq_iff (ht : (after calls).Stores t d) (hd' : d'.isNominal = false) :
    ((after calls).intern d').1 = t ↔ d = d' := by
  constructor
  · rintro rfl
    have hkept : ((after calls).intern d').2.Stores ((after calls).intern d').1 d := ht.run (.intern d' hd')
    exact Option.some.inj (hkept.symm.trans (stores_intern hd'))
  · rintro rfl
    rw [intern, ((Indexed.mirrors_after calls).find?_eq_some_iff hd').2 ht]

/-- Two lists of names are given the same identity exactly if they have the same names, whatever is called in between.
They are stored in increasing order by code points, each once, and never as the set of all errors. -/
theorem errorSet_identity (before between : List Call) (xs ys : List String) :
    (((after before).errorSet xs).1 = ((after (before ++ .errorSet xs :: between)).errorSet ys).1 ↔
      ∀ n, n ∈ xs ↔ n ∈ ys) ∧
    (∃ names,
      (after (before ++ .errorSet xs :: between)).Stores ((after before).errorSet xs).1 (.errorSet (.named names)) ∧
      names.Pairwise (fun a b => codePoints a < codePoints b) ∧ ∀ n, n ∈ names ↔ n ∈ xs) ∧
    ((after before).errorSet xs).1 ≠ .anyError := by
  have hnew : ((after before).errorSet xs).2.Stores ((after before).errorSet xs).1 (.errorSet (.ofNames xs)) :=
    stores_intern rfl
  have hkept := hnew.grown_structural rfl between
  have hgrown : after (before ++ .errorSet xs :: between) = ((after before).errorSet xs).2.grown between :=
    after_append before (.errorSet xs :: between)
  rw [← hgrown] at hkept
  obtain ⟨names, hnames, hsorted, hmem⟩ := ErrorSet.exists_ofNames xs
  refine ⟨?_, ⟨names, hnames ▸ hkept, hsorted, hmem⟩, fun hany => ?_⟩
  · rw [eq_comm, errorSet, intern_fst_eq_iff hkept rfl, Ty.errorSet.injEq, ErrorSet.ofNames_eq_iff]
  · have hglobal := primitivesInPlace_after (before ++ .errorSet xs :: between) 19 (by decide)
    rw [hany, hnames] at hkept
    exact absurd (hkept.symm.trans hglobal) (by simp [primitiveTypes])

end Pool

end MachineAbi
