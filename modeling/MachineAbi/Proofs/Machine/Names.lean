import MachineAbi.Proofs.Decimal
import MachineAbi.Proofs.Machine.Frozen

/-!
# Names of structs

A named struct gets the name that it asks for, and with a number if others have asked for it before. Nobody keeps a
struct from asking for a name that looks numbered, so names can meet: three structs that ask for `Node`, `Node` and
`Node.1` are `Node`, `Node.1` and `Node.1`.

* `Table.titles_after`: the name of each struct, told by the names asked for up to then.
* `Table.namesApart_after_iff`: the names are all different exactly if none that is asked for is one that is given, with
  a number, to a struct that has asked for another.

Proof: each call adds a name or none (`Call.titles_run`). Names with different numbers differ, and so do numbered names
that ask for different ones, as no number has a dot in it (`numbered_inj`). So only a name without a number can meet one
with a number, and that is then asked for as it is.
-/

namespace MachineAbi.Table

/-! ## The names that are given -/

/-- A name with a number. -/
def numbered (stem : String) (n : Nat) : String := stem ++ "." ++ toString n

/-- The name of a struct that asks for `stem` after others have asked for names. -/
def title (before : List String) (stem : String) : String :=
  if before.count stem = 0 then stem else numbered stem (before.count stem)

/-- The name that a call asks for, if it declares a struct. -/
def Call.stem? : Call → Option String
  | declare stem => some stem
  | _ => none

/-- The names that calls ask for, in order. -/
def stems (calls : List Call) : List String := calls.filterMap Call.stem?

/-- The names asked for and given, in order. -/
def titles (t : Table) : List (String × String) := t.named.toList.map fun n => (n.stem, n.name)

variable {t : Table}

theorem nextName_eq (t : Table) (stem : String) : t.nextName stem = title (t.titles.map Prod.fst) stem := by
  have hcount : t.named.countP (·.stem = stem) = (t.titles.map Prod.fst).count stem := by
    rw [titles, List.map_map, List.count_eq_countP, List.countP_map, ← Array.countP_toList]
    rfl
  unfold nextName title numbered
  rw [hcount]
  cases (t.titles.map Prod.fst).count stem <;> rfl

theorem titles_of_named_eq {t' : Table} (h : t'.named = t.named) : t'.titles = t.titles := by
  rw [titles, titles, h]

/-- A body changes no name. -/
theorem titles_setBody (h : Handle) (body : StructBody) : (setBody h body t).2.titles = t.titles := by
  unfold setBody
  split
  case h_2 => rfl
  case h_1 id _ =>
    refine List.ext_getElem? fun i => ?_
    simp only [titles, List.getElem?_map, Array.getElem?_toList, Array.getElem?_modify]
    split
    · cases t.named[i]? with
      | none => rfl
      | some n => simp only [Option.map_some]; split <;> rfl
    · rfl

/-- A call that declares a struct adds its name, and no other call does. -/
theorem Call.titles_run (c : Call) :
    (c.run t).2.titles = t.titles ++ c.stem?.toList.map fun stem => (stem, title (t.titles.map Prod.fst) stem) := by
  -- All operations but two only add types that are not named structs.
  have adds : ∀ {act : StateM Table Handle} {post : Handle → Table → Prop},
      Ensures act t (fun h t' => t.Adds t' ∧ post h t') → ((some <$> act) t).2.titles = t.titles ++ [] := by
    intro act post h
    rw [List.append_nil]
    exact titles_of_named_eq h.1.named_eq
  cases c with
  | declare stem =>
    show (Table.declare stem t).2.titles = t.titles ++ [(stem, title (t.titles.map Prod.fst) stem)]
    rw [← nextName_eq]
    simp [titles, Table.declare, push]
  | setBody h body =>
    show (Table.setBody h body t).2.titles = t.titles ++ []
    rw [List.append_nil, titles_setBody]
  | bytes len => exact adds (bytes_adds len)
  | _ => exact adds (intern_adds (by trivial))

theorem stems_concat (calls : List Call) (c : Call) : stems (calls ++ [c]) = stems calls ++ c.stem?.toList := by
  rw [stems, List.filterMap_append]
  cases h : c.stem? <;> simp [stems, h]

theorem map_fst_titles_after (calls : List Call) : (after calls).titles.map Prod.fst = stems calls := by
  induction calls using List.reverseRecOn with
  | nil => rfl
  | append_singleton calls c ih =>
    rw [after_concat, c.titles_run, stems_concat, List.map_append, ih, List.map_map]
    cases c.stem? <;> rfl

/-- The name of each struct follows from the names asked for up to then. -/
theorem titles_after (calls : List Call) (i : Nat) :
    (after calls).titles[i]? = (stems calls)[i]?.map fun stem => (stem, title ((stems calls).take i) stem) := by
  induction calls using List.reverseRecOn with
  | nil => rfl
  | append_singleton calls c ih =>
    have hlength : (after calls).titles.length = (stems calls).length := by
      rw [← map_fst_titles_after, List.length_map]
    rw [after_concat, c.titles_run, stems_concat, map_fst_titles_after]
    rcases Nat.lt_or_ge i (stems calls).length with hi | hi
    · rw [List.getElem?_append_left (hlength ▸ hi), List.getElem?_append_left hi, ih,
        List.take_append_of_le_length (Nat.le_of_lt hi)]
    · rw [List.getElem?_append_right (hlength ▸ hi), List.getElem?_append_right hi, hlength]
      cases c.stem? with
      | none => rfl
      | some stem =>
        rcases Nat.eq_or_lt_of_le hi with rfl | hi
        · simp
        · rw [List.getElem?_eq_none (by simp; omega), List.getElem?_eq_none (by simp; omega)]
          rfl

/-! ## Names that meet -/

/-- No number has a dot in it, so the last dot ends the name asked for. -/
theorem numbered_inj {stem stem' : String} {m n : Nat} (h : numbered stem m = numbered stem' n) :
    stem = stem' ∧ m = n := by
  have hchars : (digits m).reverse ++ '.' :: stem.toList.reverse = (digits n).reverse ++ '.' :: stem'.toList.reverse := by
    have hlist := congrArg (fun s => s.toList.reverse) h
    simpa [numbered, digits] using hlist
  have hdot : ∀ (r : List Char), ∀ c ∈ ('.' :: r).head?, c.isDigit = false := by
    intro r c hc
    obtain rfl := Option.some.inj hc
    rfl
  have hdigit : ∀ k : Nat, ∀ c ∈ (digits k).reverse, c.isDigit = true :=
    fun k c hc => isDigit_of_mem_digits (List.mem_reverse.1 hc)
  obtain ⟨hdigits, hrest⟩ := append_inj_of_all (hdigit m) (hdigit n) (hdot _) (hdot _) hchars
  refine ⟨String.toList_inj.1 (List.reverse_inj.1 (List.cons.inj hrest).2), ?_⟩
  exact digits_inj (List.reverse_inj.1 hdigits)

theorem numbered_ne (stem : String) (n : Nat) : numbered stem n ≠ stem := by
  intro h
  have hlength := congrArg String.length h
  have hdot : ".".length = 1 := rfl
  rw [numbered, String.length_append, String.length_append, hdot] at hlength
  omega

section

variable {ss : List String} {stem stem' : String} {i j n : Nat}

/-- Whoever asks for a name later, finds more that have asked for it. -/
theorem count_take_lt (hi : ss[i]? = some stem) (hij : i < j) : (ss.take i).count stem < (ss.take j).count stem := by
  have hsub : (ss.take (i + 1)).Sublist (ss.take j) := List.take_sublist_take_left hij
  have htake : ss.take (i + 1) = ss.take i ++ [stem] := by rw [List.take_add_one, hi]; rfl
  have hle := hsub.count_le stem
  rw [htake, List.count_append, List.count_singleton_self] at hle
  omega

theorem eq_of_count_take (hi : ss[i]? = some stem) (hj : ss[j]? = some stem)
    (h : (ss.take i).count stem = (ss.take j).count stem) : i = j := by
  rcases Nat.lt_trichotomy i j with hlt | heq | hlt
  · exact absurd h (Nat.ne_of_lt (count_take_lt hi hlt))
  · exact heq
  · exact absurd h (Nat.ne_of_gt (count_take_lt hj hlt))

theorem count_take_lt_count (hi : ss[i]? = some stem) : (ss.take i).count stem < ss.count stem := by
  have hlt : i < ss.length := (List.getElem?_eq_some_iff.1 hi).1
  have h := count_take_lt hi hlt
  rwa [List.take_length] at h

/-- Each number below the count of a name belongs to one that asks for it. -/
theorem exists_count_take (h : n < ss.count stem) : ∃ i, ss[i]? = some stem ∧ (ss.take i).count stem = n := by
  induction ss using List.reverseRecOn with
  | nil => simp at h
  | append_singleton ss a ih =>
    by_cases hn : n < ss.count stem
    · obtain ⟨i, hi, hcount⟩ := ih hn
      have hlt : i < ss.length := (List.getElem?_eq_some_iff.1 hi).1
      refine ⟨i, by rw [List.getElem?_append_left hlt, hi], ?_⟩
      rw [List.take_append_of_le_length (Nat.le_of_lt hlt), hcount]
    · rw [List.count_append, List.count_singleton] at h
      have ha : a = stem := by
        by_contra hne
        simp [hne] at h
        omega
      refine ⟨ss.length, by simp [ha], ?_⟩
      rw [List.take_left]
      rw [if_pos (by simp [ha])] at h
      omega

/-- A name that is asked for is one that is given with a number to a struct that asks for another. -/
def Meet (ss : List String) : Prop := ∃ stem n, 0 < n ∧ n < ss.count stem ∧ numbered stem n ∈ ss

/-- Two structs have one name only if one of them has asked for the numbered name of the other. -/
theorem meet_of_title_eq (hi : ss[i]? = some stem) (hj : ss[j]? = some stem') (hij : i ≠ j)
    (h : title (ss.take i) stem = title (ss.take j) stem') : Meet ss := by
  unfold title at h
  split at h
  case isTrue hi0 =>
    split at h
    case isTrue hj0 =>
      subst h
      exact absurd (eq_of_count_take hi hj (hi0.trans hj0.symm)) hij
    case isFalse hj0 =>
      exact ⟨stem', _, Nat.pos_of_ne_zero hj0, count_take_lt_count hj, h ▸ List.mem_of_getElem? hi⟩
  case isFalse hi0 =>
    split at h
    case isTrue hj0 =>
      exact ⟨stem, _, Nat.pos_of_ne_zero hi0, count_take_lt_count hi, h ▸ List.mem_of_getElem? hj⟩
    case isFalse hj0 =>
      obtain ⟨rfl, hcount⟩ := numbered_inj h
      exact absurd (eq_of_count_take hi hj hcount) hij

theorem exists_title_eq (h : Meet ss) : ∃ (i j : Nat) (stem stem' : String), i ≠ j ∧ ss[i]? = some stem ∧
    ss[j]? = some stem' ∧ title (ss.take i) stem = title (ss.take j) stem' := by
  obtain ⟨stem, n, hpos, hlt, hmem⟩ := h
  obtain ⟨i, hi, hcount⟩ := exists_count_take hlt
  obtain ⟨j, hj, hfirst⟩ := exists_count_take (List.count_pos_iff.2 hmem)
  refine ⟨i, j, stem, numbered stem n, ?_, hi, hj, ?_⟩
  · rintro rfl
    exact numbered_ne stem n (Option.some.inj (hj.symm.trans hi))
  · rw [title, title, hcount, hfirst, if_neg (Nat.ne_of_gt hpos), if_pos rfl]

end

/-! ## Handles and names -/

/-- Different named structs have different names. -/
def NamesApart (t : Table) : Prop := ∀ h h' name, t.name? h = some name → t.name? h' = some name → h = h'

/-- The table is well-formed, and each of its named structs has a handle. -/
structure Listed (t : Table) : Prop extends WellFormed t where
  given : ∀ id, id < t.named.size → ∃ h, t.Stores h (.named id)

theorem Extends.listed {t' : Table} (h : t.Extends t') (hn : t'.named.size = t.named.size) (ht : t.Listed) :
    t'.Listed := by
  refine ⟨h.wellFormed ht.toWellFormed, fun id hid => ?_⟩
  obtain ⟨a, ha⟩ := ht.given id (hn ▸ hid)
  exact ⟨a, h.types a _ ha⟩

theorem listed_declare (ht : t.Listed) (stem : String) : (declare stem t).2.Listed := by
  obtain ⟨hext, hs, -⟩ := @declare_spec t stem
  refine ⟨hext.wellFormed ht.toWellFormed, fun id hid => ?_⟩
  rw [size_declare] at hid
  rcases Nat.eq_or_lt_of_le (Nat.le_of_lt_succ hid) with rfl | hid
  · exact ⟨_, hs⟩
  · obtain ⟨a, ha⟩ := ht.given id hid
    exact ⟨a, hext.types a _ ha⟩

theorem listed_setBody (ht : t.Listed) (h : Handle) (body : StructBody) : (setBody h body t).2.Listed := by
  unfold setBody
  split
  case h_2 => exact ht
  case h_1 id _ =>
    refine ⟨⟨ht.distinct, fun a id' hs => ?_⟩, fun id' hid => ?_⟩
    · rw [Array.size_modify]
      exact ht.known a id' hs
    · rw [Array.size_modify] at hid
      exact ht.given id' hid

theorem Call.listed_run (c : Call) (ht : t.Listed) : (c.run t).2.Listed := by
  have adds : ∀ {act : StateM Table Handle} {post : Handle → Table → Prop},
      Ensures act t (fun h t' => t.Adds t' ∧ post h t') → ((some <$> act) t).2.Listed := by
    intro act post h
    exact h.1.toExtends.listed (congrArg Array.size h.1.named_eq) ht
  cases c with
  | declare stem => exact listed_declare ht stem
  | setBody h body => exact listed_setBody ht h body
  | bytes len => exact adds (bytes_adds len)
  | _ => exact adds (intern_adds (by trivial))

theorem listed_after (calls : List Call) : (after calls).Listed := by
  induction calls using List.reverseRecOn with
  | nil => exact ⟨.empty, fun id hid => absurd hid (Nat.not_lt_zero _)⟩
  | append_singleton calls c ih =>
    rw [after_concat]
    exact c.listed_run ih

theorem nameAt?_eq (t : Table) (id : Nat) : t.nameAt? id = t.titles[id]?.map Prod.snd := by
  rw [nameAt?, titles, List.getElem?_map, Array.getElem?_toList, Option.map_map]
  rfl

/-- A handle has a name if it is that of a named struct. -/
theorem name?_eq_some_iff {h : Handle} {name : String} :
    t.name? h = some name ↔ ∃ id, t.Stores h (.named id) ∧ t.titles[id]?.map Prod.snd = some name := by
  constructor
  · intro hname
    cases hg : t.get h with
    | named id =>
      have hs : t.Stores h (.named id) := stores_of_get (by simp) hg
      rw [name?_of_named hs, nameAt?_eq] at hname
      exact ⟨id, hs, hname⟩
    | _ => simp [name?, namedStruct?, hg] at hname
  · rintro ⟨id, hs, hname⟩
    rw [name?_of_named hs, nameAt?_eq, hname]

/-- Handles have different names exactly if no two positions have one name. -/
theorem Listed.namesApart_iff (ht : t.Listed) : t.NamesApart ↔
    ∀ (i j : Nat) (e e' : String × String), t.titles[i]? = some e → t.titles[j]? = some e' → e.2 = e'.2 → i = j := by
  constructor
  · intro h i j e e' hi hj heq
    have hsize : ∀ {k : Nat} {e : String × String}, t.titles[k]? = some e → k < t.named.size := by
      intro k e hk
      simpa [titles] using (List.getElem?_eq_some_iff.1 hk).1
    obtain ⟨a, ha⟩ := ht.given i (hsize hi)
    obtain ⟨b, hb⟩ := ht.given j (hsize hj)
    have hab : a = b := h a b e.2 (name?_eq_some_iff.2 ⟨i, ha, by rw [hi]; rfl⟩)
      (name?_eq_some_iff.2 ⟨j, hb, by rw [hj, heq]; rfl⟩)
    subst hab
    exact MachineType.named.inj (ha.eq hb)
  · intro h a b name ha hb
    obtain ⟨i, hsa, hna⟩ := name?_eq_some_iff.1 ha
    obtain ⟨j, hsb, hnb⟩ := name?_eq_some_iff.1 hb
    obtain ⟨e, hi, hename⟩ := Option.map_eq_some_iff.1 hna
    obtain ⟨e', hj, hename'⟩ := Option.map_eq_some_iff.1 hnb
    obtain rfl := h i j e e' hi hj (hename.trans hename'.symm)
    exact ht.distinct a b _ hsa hsb

/-- The names of structs are all different, whatever is called, exactly if no name that is asked for is that of another
one with a number that is given. -/
theorem namesApart_after_iff (calls : List Call) : (after calls).NamesApart ↔
    ∀ stem n, 0 < n → n < (stems calls).count stem → numbered stem n ∉ stems calls := by
  have hmeet : (∀ stem n, 0 < n → n < (stems calls).count stem → numbered stem n ∉ stems calls) ↔
      ¬Meet (stems calls) := by
    simp only [Meet, not_exists, not_and]
  rw [hmeet, (listed_after calls).namesApart_iff]
  constructor
  · intro h hm
    obtain ⟨i, j, stem, stem', hij, hi, hj, heq⟩ := exists_title_eq hm
    exact hij (h i j _ _ (by rw [titles_after, hi]; rfl) (by rw [titles_after, hj]; rfl) heq)
  · intro hm i j e e' hi hj heq
    rw [titles_after] at hi hj
    obtain ⟨stem, hstem, rfl⟩ := Option.map_eq_some_iff.1 hi
    obtain ⟨stem', hstem', rfl⟩ := Option.map_eq_some_iff.1 hj
    by_contra hij
    exact hm (meet_of_title_eq hstem hstem' hij heq)

/-- Three structs of which the last one asks for the name that the second one is given. -/
def meetingCalls : List Call := [.declare "Node", .declare "Node", .declare "Node.1"]

theorem exists_not_namesApart : ¬(after meetingCalls).NamesApart := by
  intro h
  have hname : (after meetingCalls).name? ⟨1⟩ = some "Node.1" ∧ (after meetingCalls).name? ⟨2⟩ = some "Node.1" := by
    decide +kernel
  exact absurd (h ⟨1⟩ ⟨2⟩ _ hname.1 hname.2) (by decide)

end MachineAbi.Table
