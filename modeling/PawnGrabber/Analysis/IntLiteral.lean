import PawnGrabber.Analysis.FenSpelling

/-!
# Integer literals

The grammar of the texts that `SimpleAtoi` takes for an `int`, and that it takes no others: the
two digit loops return the value of the digits exactly if all characters are digits and the value
is an `int`, and white space is stripped at both ends.
-/

set_option autoImplicit false

namespace PawnGrabber

/-- White space only. -/
def Blank (text : StringView) : Prop := ∀ c ∈ text, asciiIsspace c = true

/-- One decimal digit or more. -/
def Digits (text : StringView) : Prop := text ≠ [] ∧ ∀ c ∈ text, c.isDigit = true

/-- The text is a decimal integer of the `int` range, with a sign or without, and with white
space at its ends or without. -/
structure IntLiteral (text : StringView) (value : ℤ) : Prop where
  inRange : -2147483648 ≤ value ∧ value ≤ 2147483647
  spelt : ∃ left sign digits right, text = left ++ (sign ++ digits) ++ right ∧
    Blank left ∧ Blank right ∧ Digits digits ∧
    (value = Nat.ofDigitChars 10 digits 0 ∧ (sign = [] ∨ sign = ['+']) ∨
      value = -(Nat.ofDigitChars 10 digits 0 : ℤ) ∧ sign = ['-'])

/-- The value of a literal fits into an `int`. -/
theorem IntLiteral.toInt_ofInt {text : StringView} {v : ℤ} (h : IntLiteral text v) :
    (Int32.ofInt v).toInt = v := by
  obtain ⟨hlow, hhigh⟩ := h.inRange
  exact Int32.toInt_ofInt_of_le (by omega) (by omega)

/-! ## The digit loops -/

theorem asciiToInt_eq_none {c : Char} (hc : c.isDigit ≠ true) : asciiToInt c = none := by
  rw [asciiToInt, if_neg]
  rintro ⟨hlow, hhigh⟩
  exact hc (Char.isDigit_iff_toNat.mpr
    ⟨UInt32.le_iff_toNat_le.mp hlow, UInt32.le_iff_toNat_le.mp hhigh⟩)

theorem safeParsePositiveInt_eq_some_iff (text : StringView) (value : ℕ)
    (hvalue : value ≤ 2147483647) (v : ℤ) :
    safeParsePositiveInt text value = some v ↔
      (∀ c ∈ text, c.isDigit = true) ∧ v = Nat.ofDigitChars 10 text value ∧ v ≤ 2147483647 := by
  induction text generalizing value with
  | nil =>
    rw [safeParsePositiveInt, Nat.ofDigitChars_nil, Option.some.injEq]
    constructor
    · rintro rfl
      exact ⟨List.forall_mem_nil _, rfl, by omega⟩
    · intro h
      exact h.2.1.symm
  | cons c text ih =>
    rw [safeParsePositiveInt, List.forall_mem_cons, Nat.ofDigitChars_cons]
    by_cases hc : c.isDigit = true
    · have hdigit := (asciiToInt_of_isDigit hc).1
      have hlow := le_ofDigitChars text (10 * value + (c.toNat - '0'.toNat))
      simp only [hdigit, hc, true_and]
      by_cases hfits : 10 * value + (c.toNat - '0'.toNat) ≤ 2147483647
      · rw [if_neg (by omega), if_neg (by omega), ← ih _ hfits]
        have hnext : (value : ℤ) * 10 + ((c.toNat - '0'.toNat : ℕ) : ℤ) =
            ((10 * value + (c.toNat - '0'.toNat) : ℕ) : ℤ) := by
          push_cast
          omega
        rw [hnext]
      · split_ifs with hten hsum
        · exact iff_of_false not_false (by omega)
        · exact iff_of_false not_false (by omega)
        · omega
    · simp only [asciiToInt_eq_none hc, hc]
      exact iff_of_false (Option.some_ne_none v).symm (by simp)

theorem safeParseNegativeInt_eq_some_iff (text : StringView) (value : ℕ)
    (hvalue : value ≤ 2147483648) (v : ℤ) :
    safeParseNegativeInt text (-(value : ℤ)) = some v ↔
      (∀ c ∈ text, c.isDigit = true) ∧ v = -(Nat.ofDigitChars 10 text value : ℤ) ∧
        -2147483648 ≤ v := by
  induction text generalizing value with
  | nil =>
    rw [safeParseNegativeInt, Nat.ofDigitChars_nil, Option.some.injEq]
    constructor
    · rintro rfl
      exact ⟨List.forall_mem_nil _, rfl, by omega⟩
    · intro h
      exact h.2.1.symm
  | cons c text ih =>
    rw [safeParseNegativeInt, List.forall_mem_cons, Nat.ofDigitChars_cons]
    by_cases hc : c.isDigit = true
    · have hdigit := (asciiToInt_of_isDigit hc).1
      have hlow := le_ofDigitChars text (10 * value + (c.toNat - '0'.toNat))
      simp only [hdigit, hc, true_and]
      by_cases hfits : 10 * value + (c.toNat - '0'.toNat) ≤ 2147483648
      · rw [if_neg (by omega), if_neg (by omega), ← ih _ hfits]
        have hnext : -(value : ℤ) * 10 - ((c.toNat - '0'.toNat : ℕ) : ℤ) =
            -((10 * value + (c.toNat - '0'.toNat) : ℕ) : ℤ) := by
          push_cast
          omega
        rw [hnext]
      · split_ifs with hten hsum
        · exact iff_of_false not_false (by omega)
        · exact iff_of_false not_false (by omega)
        · omega
    · simp only [asciiToInt_eq_none hc, hc]
      exact iff_of_false (Option.some_ne_none v).symm (by simp)

/-! ## White space -/

/-- Stripping takes white space off both ends. -/
theorem exists_stripAsciiWhitespace (text : StringView) :
    ∃ left right, text = left ++ stripAsciiWhitespace text ++ right ∧ Blank left ∧ Blank right := by
  refine ⟨text.takeWhile asciiIsspace, (text.dropWhile asciiIsspace).rtakeWhile asciiIsspace,
    ?_, ?_, ?_⟩
  · have hback := List.rdropWhile_append_rtakeWhile (p := asciiIsspace)
      (l := text.dropWhile asciiIsspace)
    have hfront := List.takeWhile_append_dropWhile (p := asciiIsspace) (l := text)
    change text = text.takeWhile asciiIsspace ++
      (text.dropWhile asciiIsspace).rdropWhile asciiIsspace ++ _
    rw [List.append_assoc, hback, hfront]
  · intro c hc
    exact List.mem_takeWhile_imp hc
  · intro c hc
    exact List.mem_rtakeWhile_imp hc

/-- Stripping stops at the first and the last character that are no white space. -/
theorem stripAsciiWhitespace_append {left core right : StringView} (hleft : Blank left)
    (hright : Blank right) (hne : core ≠ []) (hcore : ∀ c ∈ core, asciiIsspace c = false) :
    stripAsciiWhitespace (left ++ core ++ right) = core := by
  have hfront : (left ++ core ++ right).dropWhile asciiIsspace = core ++ right := by
    rw [List.append_assoc, List.dropWhile_append_of_pos hleft]
    cases core with
    | nil => exact absurd rfl hne
    | cons c core =>
      rw [List.cons_append, List.dropWhile_cons_of_neg (by simp [hcore c List.mem_cons_self])]
  have hback : (core ++ right).reverse.dropWhile asciiIsspace = core.reverse := by
    rw [List.reverse_append, List.dropWhile_append_of_pos
      (fun c hc => hright c (List.mem_reverse.mp hc))]
    cases hreverse : core.reverse with
    | nil => exact absurd (List.reverse_eq_nil_iff.mp hreverse) hne
    | cons c rest =>
      have hc : c ∈ core := List.mem_reverse.mp (hreverse ▸ List.mem_cons_self)
      rw [List.dropWhile_cons_of_neg (by simp [hcore c hc])]
  rw [stripAsciiWhitespace, hfront, hback, List.reverse_reverse]

/-! ## The grammar -/

/-- `SimpleAtoi` accepts exactly the integer literals, each with its value. -/
theorem simpleAtoi_eq_some_iff (text : StringView) (v : ℤ) :
    simpleAtoi text = some v ↔ IntLiteral text v := by
  have hpositive := fun digits => safeParsePositiveInt_eq_some_iff digits 0 (by decide) v
  have hnegative := fun digits => safeParseNegativeInt_eq_some_iff digits 0 (by decide) v
  simp only [Nat.cast_zero, neg_zero] at hpositive hnegative
  constructor
  · intro h
    obtain ⟨left, right, hsplit, hleft, hright⟩ := exists_stripAsciiWhitespace text
    rw [simpleAtoi] at h
    cases hcore : stripAsciiWhitespace text with
    | nil =>
      rw [hcore] at h
      cases h
    | cons c digits =>
      rw [hcore] at h hsplit
      simp only at h
      split_ifs at h with hminus hempty hplus hempty
      · obtain ⟨hdigits, hv, hle⟩ := (hnegative digits).mp h
        refine ⟨⟨hle, by omega⟩, left, ['-'], digits, right, by rw [hsplit, hminus]; rfl, hleft,
          hright, ⟨by simpa using hempty, hdigits⟩, Or.inr ⟨hv, rfl⟩⟩
      · obtain ⟨hdigits, hv, hle⟩ := (hpositive digits).mp h
        refine ⟨⟨by omega, hle⟩, left, ['+'], digits, right, by rw [hsplit, hplus]; rfl, hleft,
          hright, ⟨by simpa using hempty, hdigits⟩, Or.inl ⟨hv, Or.inr rfl⟩⟩
      · obtain ⟨hdigits, hv, hle⟩ := (hpositive (c :: digits)).mp h
        exact ⟨⟨by omega, hle⟩, left, [], c :: digits, right, hsplit, hleft, hright,
          ⟨List.cons_ne_nil _ _, hdigits⟩, Or.inl ⟨hv, Or.inl rfl⟩⟩
  · intro h
    obtain ⟨hrange, left, sign, digits, right, rfl, hleft, hright, ⟨hne, hdigits⟩, hvalue⟩ := h
    have hempty : digits.isEmpty = false := by simpa using hne
    have hspace : ∀ c ∈ digits, asciiIsspace c = false := by
      intro c hc
      exact (asciiToInt_of_isDigit (hdigits c hc)).2.1
    have hstrip : stripAsciiWhitespace (left ++ (sign ++ digits) ++ right) = sign ++ digits := by
      apply stripAsciiWhitespace_append hleft hright (List.append_ne_nil_of_right_ne_nil _ hne)
      intro c hc
      rcases List.mem_append.mp hc with hsign | hdigit
      · rcases hvalue with ⟨-, rfl | rfl⟩ | ⟨-, rfl⟩
        · exact absurd hsign List.not_mem_nil
        · rw [List.mem_singleton.mp hsign]
          rfl
        · rw [List.mem_singleton.mp hsign]
          rfl
      · exact hspace c hdigit
    rw [simpleAtoi, hstrip]
    rcases hvalue with ⟨hv, rfl | rfl⟩ | ⟨hv, rfl⟩
    · cases digits with
      | nil => exact absurd rfl hne
      | cons c digits =>
        obtain ⟨-, -, hminus, hplus, -⟩ :=
          asciiToInt_of_isDigit (hdigits c List.mem_cons_self)
        simp only [List.nil_append, if_neg hminus, if_neg hplus]
        exact (hpositive _).mpr ⟨hdigits, hv, hrange.2⟩
    · simp only [List.singleton_append, if_neg (show '+' ≠ '-' by decide), hempty, if_true]
      exact (hpositive _).mpr ⟨hdigits, hv, hrange.2⟩
    · simp only [List.singleton_append, hempty, if_true]
      exact (hnegative _).mpr ⟨hdigits, hv, hrange.1⟩

end PawnGrabber
