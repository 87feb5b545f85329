import Mathlib

/-!
# Words as sets of bit positions

A word of `w` bits is read as the set of positions at which its bit is one. The
central fact is what `x &&& (x - 1)` does: it removes the least element. From it
follow the two loops every bitboard program has, the one that counts the elements of
a word and the one that lists them in increasing order, and the test for a word with
exactly one element.
-/

set_option autoImplicit false

namespace BitWord

variable {w : ℕ}

/-- The position `i` is the least element of `x`. -/
structure IsLowest (x : BitVec w) (i : ℕ) : Prop where
  mem : x.getLsbD i = true
  least : ∀ j < i, x.getLsbD j = false

/-- The elements of `x` in increasing order. -/
def positions (x : BitVec w) : List ℕ := (List.range w).filter x.getLsbD

theorem toNat_pos {x : BitVec w} (hx : x ≠ 0) : 0 < x.toNat := by
  rcases Nat.eq_zero_or_pos x.toNat with h | h
  · exact absurd (BitVec.eq_of_toNat_eq (by simpa using h)) hx
  · exact h

/-- On a nonzero word the decrement does not wrap around. -/
theorem toNat_sub_one {x : BitVec w} (hx : x ≠ 0) : (x - 1).toNat = x.toNat - 1 := by
  have hpos := toNat_pos hx
  have hw : 1 < 2 ^ w := by
    have := x.isLt
    omega
  have hone : (1 : BitVec w).toNat = 1 := Nat.mod_eq_of_lt hw
  rw [BitVec.toNat_sub_of_le (by rw [BitVec.le_def, hone]; exact hpos), hone]

/-- Removing the least element makes a word smaller: the measure of both loops. -/
theorem and_sub_one_lt {x : BitVec w} (hx : x ≠ 0) : (x &&& (x - 1)).toNat < x.toNat := by
  have hpos := toNat_pos hx
  calc (x &&& (x - 1)).toNat ≤ (x - 1).toNat := by
        rw [BitVec.toNat_and]
        exact Nat.and_le_right
    _ < x.toNat := by
        rw [toNat_sub_one hx]
        omega

theorem exists_isLowest {x : BitVec w} (hx : x ≠ 0) : ∃ i, IsLowest x i := by
  have hex : ∃ i, x.getLsbD i = true := by
    by_contra hnone
    push Not at hnone
    apply hx
    apply BitVec.eq_of_getLsbD_eq
    intro i _
    simpa using hnone i
  exact ⟨Nat.find hex, Nat.find_spec hex, fun j hj => by simpa using Nat.find_min hex hj⟩

theorem IsLowest.lt {x : BitVec w} {i : ℕ} (h : IsLowest x i) : i < w :=
  BitVec.lt_of_getLsbD h.mem

/-- A number whose lowest one is at `i` is an even part above a single one. -/
private theorem toNat_split {x : BitVec w} {i : ℕ} (h : IsLowest x i) :
    x.toNat = 2 ^ (i + 1) * (x.toNat / 2 ^ (i + 1)) + 2 ^ i := by
  have hlow : x.toNat % 2 ^ (i + 1) = 2 ^ i := by
    apply Nat.eq_of_testBit_eq
    intro j
    rw [Nat.testBit_mod_two_pow, Nat.testBit_two_pow]
    rcases Nat.lt_trichotomy j i with hj | hj | hj
    · have := h.least j hj
      rw [BitVec.getLsbD] at this
      simp [this, hj.ne']
    · subst hj
      have := h.mem
      rw [BitVec.getLsbD] at this
      simp [this]
    · simp [show ¬ j < i + 1 by omega, show ¬ i = j by omega]
  have := Nat.div_add_mod x.toNat (2 ^ (i + 1))
  omega

/-- `x &&& (x - 1)` removes the least element of `x` and no other. -/
theorem getLsbD_and_sub_one {x : BitVec w} {i : ℕ} (h : IsLowest x i) (j : ℕ) :
    (x &&& (x - 1)).getLsbD j = (x.getLsbD j && decide (j ≠ i)) := by
  have hx : x ≠ 0 := by
    rintro rfl
    simpa using h.mem
  have hsplit := toNat_split h
  have hpow : 0 < 2 ^ i := by positivity
  -- below `i` the decrement has ones, at `i` a zero, and above it agrees with `x`
  have hdec : x.toNat - 1 = 2 ^ (i + 1) * (x.toNat / 2 ^ (i + 1)) + (2 ^ i - 1) := by omega
  rw [BitVec.getLsbD_and]
  simp only [BitVec.getLsbD, toNat_sub_one hx]
  rcases Nat.lt_trichotomy j i with hj | hj | hj
  · have := h.least j hj
    rw [BitVec.getLsbD] at this
    simp [this]
  · subst hj
    have hlt : 2 ^ j - 1 < 2 ^ (j + 1) := by rw [pow_succ]; omega
    rw [hdec, Nat.testBit_two_pow_mul_add _ hlt]
    simp [Nat.testBit_two_pow_sub_one]
  · have hlt : 2 ^ i - 1 < 2 ^ (i + 1) := by rw [pow_succ]; omega
    have hlt' : 2 ^ i < 2 ^ (i + 1) := by rw [pow_succ]; omega
    have hx' := Nat.testBit_two_pow_mul_add (x.toNat / 2 ^ (i + 1)) hlt' j
    rw [← hsplit] at hx'
    rw [hdec, Nat.testBit_two_pow_mul_add _ hlt, hx']
    simp [show ¬ j < i + 1 by omega, hj.ne']

/-- What `x &&& (x - 1)` removes is a single bit. -/
theorem xor_and_sub_one {x : BitVec w} {i : ℕ} (h : IsLowest x i) :
    x ^^^ (x &&& (x - 1)) = BitVec.twoPow w i := by
  apply BitVec.eq_of_getLsbD_eq
  intro j hj
  rw [BitVec.getLsbD_xor, getLsbD_and_sub_one h, BitVec.getLsbD_twoPow]
  by_cases hij : j = i
  · subst hij
    simp [h.mem, hj]
  · simp [hij, Ne.symm hij]

@[simp] theorem mem_positions (x : BitVec w) (i : ℕ) :
    i ∈ positions x ↔ x.getLsbD i = true := by
  rw [positions, List.mem_filter, List.mem_range]
  exact ⟨fun h => h.2, fun h => ⟨BitVec.lt_of_getLsbD h, h⟩⟩

theorem positions_sorted (x : BitVec w) : (positions x).Pairwise (· < ·) :=
  List.Pairwise.filter _ List.pairwise_lt_range

@[simp] theorem positions_zero : positions 0#w = [] := by
  simp [positions]

/-- The loops' recursion on the list of elements: the least one comes first. -/
theorem positions_of_isLowest {x : BitVec w} {i : ℕ} (h : IsLowest x i) :
    positions x = i :: positions (x &&& (x - 1)) := by
  have hsorted : (i :: positions (x &&& (x - 1))).Pairwise (· < ·) := by
    refine List.pairwise_cons.mpr ⟨?_, positions_sorted _⟩
    intro j hj
    rw [mem_positions, getLsbD_and_sub_one h] at hj
    simp only [Bool.and_eq_true, decide_eq_true_eq] at hj
    by_contra hle
    have hlt : j < i := by omega
    simp [h.least j hlt] at hj
  refine List.Perm.eq_of_pairwise (fun a b _ _ hab hba => absurd hab (lt_asymm hba))
    (positions_sorted x) hsorted ?_
  rw [List.perm_ext_iff_of_nodup ((positions_sorted x).imp ne_of_lt) (hsorted.imp ne_of_lt)]
  intro j
  rw [List.mem_cons, mem_positions, mem_positions, getLsbD_and_sub_one h]
  by_cases hij : j = i
  · simp [hij, h.mem]
  · simp [hij]

theorem positions_eq_nil_iff (x : BitVec w) : positions x = [] ↔ x = 0 := by
  constructor
  · intro h
    apply BitVec.eq_of_getLsbD_eq
    intro i _
    have hnot : i ∉ positions x := by
      rw [h]
      exact List.not_mem_nil
    rw [mem_positions] at hnot
    simpa using hnot
  · intro h
    rw [h]
    exact positions_zero

/-- The length of the list is the number of set bits. -/
theorem length_positions (x : BitVec w) :
    (positions x).length = (Finset.univ.filter fun i : Fin w => x.getLsbD i = true).card := by
  rw [← List.toFinset_card_of_nodup ((positions_sorted x).imp ne_of_lt),
    ← Finset.card_map Fin.valEmbedding]
  congr 1
  ext i
  rw [List.mem_toFinset, mem_positions, Finset.mem_map]
  constructor
  · intro hi
    exact ⟨⟨i, BitVec.lt_of_getLsbD hi⟩, Finset.mem_filter.mpr ⟨Finset.mem_univ _, hi⟩, rfl⟩
  · intro hi
    obtain ⟨j, hj, rfl⟩ := hi
    exact (Finset.mem_filter.mp hj).2

/-- The loops end: after `n` rounds nothing is left of a word exactly if it has no more than `n`
elements. -/
theorem iterate_and_sub_one_eq_zero_iff (x : BitVec w) (n : ℕ) :
    (fun y : BitVec w => y &&& (y - 1))^[n] x = 0 ↔ (positions x).length ≤ n := by
  induction n generalizing x with
  | zero => rw [Function.iterate_zero_apply, Nat.le_zero, List.length_eq_zero_iff,
      positions_eq_nil_iff]
  | succ n ih =>
    rw [Function.iterate_succ_apply, ih]
    by_cases hx : x = 0
    · subst hx
      simp
    · obtain ⟨i, hi⟩ := exists_isLowest hx
      rw [positions_of_isLowest hi, List.length_cons, Nat.add_le_add_iff_right]

/-- A shift by one position takes one off the bit length. -/
theorem size_toNat_ushiftRight_one {x : BitVec w} (hx : x ≠ 0) :
    Nat.size x.toNat = Nat.size (x >>> 1).toNat + 1 := by
  have hhalf : (x >>> 1).toNat = x.toNat / 2 := by
    rw [BitVec.toNat_ushiftRight, Nat.shiftRight_eq_div_pow, pow_one]
  rw [hhalf]
  obtain ⟨k, hk⟩ : ∃ k, Nat.size x.toNat = k + 1 :=
    Nat.exists_eq_add_one.mpr (Nat.size_pos.mpr (toNat_pos hx))
  have hwhole := Nat.lt_size_self x.toNat
  have hrest := Nat.lt_size_self (x.toNat / 2)
  apply le_antisymm
  · rw [Nat.size_le, pow_succ]
    omega
  · rw [hk, pow_succ] at hwhole
    rw [hk, Nat.add_le_add_iff_right, Nat.size_le]
    omega

/-- A mask test against a single bit is a membership test. -/
theorem twoPow_and_eq_zero_iff (x : BitVec w) (i : ℕ) :
    BitVec.twoPow w i &&& x = 0 ↔ x.getLsbD i = false := by
  constructor
  · intro h
    have hi := congrArg (fun y => y.getLsbD i) h
    by_cases hlt : i < w
    · simpa [BitVec.getLsbD_twoPow, hlt] using hi
    · exact BitVec.getLsbD_of_ge _ _ (by omega)
  · intro h
    apply BitVec.eq_of_getLsbD_eq
    intro j _
    rw [BitVec.getLsbD_and, BitVec.getLsbD_twoPow]
    by_cases hij : i = j
    · subst hij
      simp [h]
    · simp [hij]

/-- The test for exactly one set bit. -/
theorem and_sub_one_eq_zero_iff {x : BitVec w} (hx : x ≠ 0) :
    x &&& (x - 1) = 0 ↔ ∃ i < w, x = BitVec.twoPow w i := by
  obtain ⟨i, hi⟩ := exists_isLowest hx
  constructor
  · intro hzero
    refine ⟨i, hi.lt, ?_⟩
    rw [← xor_and_sub_one hi, hzero]
    exact (BitVec.xor_zero).symm
  · rintro ⟨k, hk, rfl⟩
    apply BitVec.eq_of_getLsbD_eq
    intro j _
    have hki : k = i := by
      have := hi.mem
      rw [BitVec.getLsbD_twoPow] at this
      simp only [Bool.and_eq_true, decide_eq_true_eq] at this
      exact this.2
    rw [getLsbD_and_sub_one hi, BitVec.getLsbD_twoPow]
    by_cases hij : j = i
    · simp [hij]
    · simp [hki, Ne.symm hij]

end BitWord
