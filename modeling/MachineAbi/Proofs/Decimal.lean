import Mathlib.Data.List.TakeWhile

/-!
# Numbers in decimal notation

A text that starts with a number and goes on with something else than a digit can be read in one way only
(`digits_append_inj`). So a number is told by its digits (`digits_inj`).
-/

namespace MachineAbi

/-- A list is cut in one way only into items that have a property and a rest that does not start with one. -/
theorem append_inj_of_all {α : Type} {p : α → Bool} {as bs r s : List α} (ha : ∀ a ∈ as, p a = true)
    (hb : ∀ b ∈ bs, p b = true) (hr : ∀ c ∈ r.head?, p c = false) (hs : ∀ c ∈ s.head?, p c = false)
    (h : as ++ r = bs ++ s) : as = bs ∧ r = s := by
  have cut : ∀ {xs rest : List α}, (∀ a ∈ xs, p a = true) → (∀ c ∈ rest.head?, p c = false) →
      (xs ++ rest).takeWhile p = xs := by
    intro xs rest hxs hrest
    rw [List.takeWhile_append_of_pos hxs]
    cases rest with
    | nil => simp
    | cons c rest => simp [hrest c rfl]
  have heads : as = bs := by rw [← cut ha hr, h, cut hb hs]
  exact ⟨heads, List.append_cancel_left (heads ▸ h)⟩

/-- The decimal digits of a number. -/
def digits (n : Nat) : List Char := (toString n).toList

theorem digits_eq (n : Nat) : digits n = Nat.toDigits 10 n := by
  rw [digits, Nat.toString_eq_repr, Nat.toList_repr]

theorem isDigit_of_mem_digits {n : Nat} {c : Char} (h : c ∈ digits n) : c.isDigit = true := by
  rw [digits_eq] at h
  exact Nat.isDigit_of_mem_toDigits (by decide) (by decide) h

theorem digits_ne_nil (n : Nat) : digits n ≠ [] := by
  rw [digits_eq]
  exact Nat.toDigits_ne_nil

theorem digits_inj {m n : Nat} (h : digits m = digits n) : m = n := by
  rw [digits_eq, digits_eq] at h
  calc
    m = Nat.ofDigitChars 10 (Nat.toDigits 10 m) 0 := Nat.ofDigitChars_ten_toDigits.symm
    _ = Nat.ofDigitChars 10 (Nat.toDigits 10 n) 0 := by rw [h]
    _ = n := Nat.ofDigitChars_ten_toDigits

/-- The rest of a text does not go on with a digit. -/
def EndsNumber (r : List Char) : Prop := ∀ c ∈ r.head?, c.isDigit = false

theorem digits_append_inj {m n : Nat} {r s : List Char} (hr : EndsNumber r) (hs : EndsNumber s)
    (h : digits m ++ r = digits n ++ s) : m = n ∧ r = s := by
  obtain ⟨hdigits, hrest⟩ := append_inj_of_all (fun _ => isDigit_of_mem_digits) (fun _ => isDigit_of_mem_digits) hr hs h
  exact ⟨digits_inj hdigits, hrest⟩

end MachineAbi
