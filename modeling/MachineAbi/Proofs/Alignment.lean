import MachineAbi.Layout

/-!
# Rounding up to powers of two

`alignUp` clears bits, and so rounds up only for alignments that are powers of two. For these, `alignUp offset align`
is a multiple of `align` (`dvd_alignUp`), not below `offset` (`le_alignUp`) and less than `align` above it
(`alignUp_lt`).

Of two powers of two the larger is a multiple of the smaller (`dvd_of_isPowerOfTwo_of_le`), so what is aligned for the
strictest of several alignments is aligned for all of them.
-/

namespace MachineAbi

/-! ## Powers of two -/

theorem dvd_of_isPowerOfTwo_of_le {a b : Nat} (ha : a.isPowerOfTwo) (hb : b.isPowerOfTwo) (h : a ≤ b) : a ∣ b := by
  obtain ⟨i, rfl⟩ := ha
  obtain ⟨j, rfl⟩ := hb
  exact Nat.pow_dvd_pow 2 ((Nat.pow_le_pow_iff_right (by decide)).1 h)

theorem isPowerOfTwo_max {a b : Nat} (ha : a.isPowerOfTwo) (hb : b.isPowerOfTwo) : (max a b).isPowerOfTwo := by
  rcases Nat.le_total a b with h | h
  · rwa [Nat.max_eq_right h]
  · rwa [Nat.max_eq_left h]

/-! ## Rounding up -/

section

variable {offset align : Nat}

theorem alignUp_eq (h : align.isPowerOfTwo) : alignUp offset align = (offset + (align - 1)) / align * align := by
  obtain ⟨k, rfl⟩ := h
  have hdiv := Nat.div_add_mod (offset + (2 ^ k - 1)) (2 ^ k)
  rw [Nat.mul_comm] at hdiv
  simp only [alignUp, Nat.and_two_pow_sub_one_eq_mod]
  omega

theorem dvd_alignUp (h : align.isPowerOfTwo) : align ∣ alignUp offset align := by
  rw [alignUp_eq h]
  exact Nat.dvd_mul_left align _

theorem le_alignUp (h : align.isPowerOfTwo) : offset ≤ alignUp offset align := by
  have hpos := Nat.pos_of_isPowerOfTwo h
  have hmod := Nat.mod_lt (offset + (align - 1)) hpos
  have hdiv := Nat.div_add_mod (offset + (align - 1)) align
  rw [Nat.mul_comm] at hdiv
  rw [alignUp_eq h]
  omega

theorem alignUp_lt (h : align.isPowerOfTwo) : alignUp offset align < offset + align := by
  have hpos := Nat.pos_of_isPowerOfTwo h
  have hdiv := Nat.div_mul_le_self (offset + (align - 1)) align
  rw [alignUp_eq h]
  omega

theorem alignUp_of_dvd (h : align.isPowerOfTwo) (hd : align ∣ offset) : alignUp offset align = offset := by
  have hpos := Nat.pos_of_isPowerOfTwo h
  obtain ⟨n, rfl⟩ := hd
  rw [alignUp_eq h, Nat.mul_add_div hpos, Nat.div_eq_of_lt (by omega), Nat.add_zero, Nat.mul_comm]

/-- No multiple of the alignment lies between an offset and the offset rounded up. -/
theorem alignUp_le {n : Nat} (h : align.isPowerOfTwo) (hd : align ∣ n) (hn : offset ≤ n) : alignUp offset align ≤ n := by
  obtain ⟨q, hq⟩ := @dvd_alignUp offset align h
  obtain ⟨r, rfl⟩ := hd
  have hlt : align * q < align * (r + 1) := by
    have := @alignUp_lt offset align h
    rw [Nat.mul_add, Nat.mul_one]
    omega
  rw [hq]
  exact Nat.mul_le_mul_left align (Nat.le_of_lt_succ (Nat.lt_of_mul_lt_mul_left hlt))

@[simp]
theorem alignUp_one (offset : Nat) : alignUp offset 1 = offset := by
  simp [alignUp]

@[simp]
theorem alignUp_zero (h : align.isPowerOfTwo) : alignUp 0 align = 0 := alignUp_of_dvd h (Nat.dvd_zero align)

end

end MachineAbi
