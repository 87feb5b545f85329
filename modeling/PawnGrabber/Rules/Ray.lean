import PawnGrabber.Rules.Position

/-!
# Rays

The squares in one direction from a square, in order of distance. A slider goes through
the empty ones up to the first occupied square, so `Slides` splits into the prefix of the
ray that is empty and the square that stops it.
-/

set_option autoImplicit false

namespace PawnGrabber

namespace Square

/-- The squares at `n`, `n + 1`, ... steps, `fuel` of them at most. -/
def rayFrom (s : Square) (v : ℤ × ℤ) : ℕ → ℕ → List Square
  | 0, _ => []
  | fuel + 1, n =>
    match s.shift (n * v.1) (n * v.2) with
    | none => []
    | some t => t :: rayFrom s v fuel (n + 1)

/-- The squares in direction `v` from `s`, nearest first. -/
def ray (s : Square) (v : ℤ × ℤ) : List Square := rayFrom s v 8 1

/-- A direction: a unit step along a file, a rank or a diagonal. -/
def IsDirection (v : ℤ × ℤ) : Prop := v ∈ orthogonals ++ diagonals

theorem IsDirection.cases {v : ℤ × ℤ} (h : IsDirection v) :
    (v.1 = 0 ∨ v.1 = 1 ∨ v.1 = -1) ∧ (v.2 = 0 ∨ v.2 = 1 ∨ v.2 = -1) ∧ (v.1 ≠ 0 ∨ v.2 ≠ 0) := by
  revert v
  unfold IsDirection
  decide

/-- Beyond the edge the ray does not come back. -/
theorem shift_mul_none {s : Square} {v : ℤ × ℤ} (hv : IsDirection v) {n j : ℕ} (hnj : n ≤ j)
    (h : s.shift (n * v.1) (n * v.2) = none) : s.shift (j * v.1) (j * v.2) = none := by
  rw [shift_eq_none_iff] at h ⊢
  have := s.file.isLt
  have := s.rank.isLt
  obtain ⟨h1, h2, -⟩ := hv.cases
  rcases h1 with h1 | h1 | h1 <;> rcases h2 with h2 | h2 | h2 <;> rw [h1, h2] at h ⊢ <;> omega

/-- No ray is longer than the board. -/
theorem shift_mul_none_of_lt {s : Square} {v : ℤ × ℤ} (hv : IsDirection v) {n : ℕ} (hn : 7 < n) :
    s.shift (n * v.1) (n * v.2) = none := by
  rw [shift_eq_none_iff]
  have := s.file.isLt
  have := s.rank.isLt
  obtain ⟨h1, h2, h3⟩ := hv.cases
  rcases h1 with h1 | h1 | h1 <;> rcases h2 with h2 | h2 | h2 <;> rw [h1, h2] at h3 ⊢ <;> omega

/-- The entry of a ray at position `j` is the square `n + j` steps away. -/
theorem getElem?_rayFrom {s : Square} {v : ℤ × ℤ} (hv : IsDirection v) {fuel n : ℕ}
    (hend : s.shift ((n + fuel : ℕ) * v.1) ((n + fuel : ℕ) * v.2) = none) (j : ℕ) :
    (s.rayFrom v fuel n)[j]? = s.shift ((n + j : ℕ) * v.1) ((n + j : ℕ) * v.2) := by
  induction fuel generalizing n j with
  | zero =>
    rw [shift_mul_none hv (Nat.le_add_right n j) hend]
    rfl
  | succ fuel ih =>
    rw [rayFrom]
    cases hsq : s.shift (n * v.1) (n * v.2) with
    | none =>
      rw [shift_mul_none hv (Nat.le_add_right n j) hsq]
      rfl
    | some t =>
      cases j with
      | zero => exact hsq.symm
      | succ j =>
        rw [List.getElem?_cons_succ, ih (by rwa [Nat.add_right_comm]), Nat.add_right_comm]
        rfl

theorem getElem?_ray (s : Square) {v : ℤ × ℤ} (hv : IsDirection v) (j : ℕ) :
    (s.ray v)[j]? = s.shift ((1 + j : ℕ) * v.1) ((1 + j : ℕ) * v.2) :=
  getElem?_rayFrom hv (shift_mul_none_of_lt hv (by decide)) j

/-- More rounds than the board has squares in a line make no ray longer. -/
theorem rayFrom_add {s : Square} {v : ℤ × ℤ} (hv : IsDirection v) {fuel n : ℕ}
    (hn : 7 < n + fuel) (extra : ℕ) : s.rayFrom v (fuel + extra) n = s.rayFrom v fuel n := by
  apply List.ext_getElem?
  intro j
  rw [getElem?_rayFrom hv (shift_mul_none_of_lt hv (by omega)),
    getElem?_rayFrom hv (shift_mul_none_of_lt hv hn)]

/-- A multiple of a direction determines the direction. -/
theorem IsDirection.sign_mul {v : ℤ × ℤ} (hv : IsDirection v) {n : ℕ} (hn : 0 < n) :
    ((n * v.1).sign, (n * v.2).sign) = v := by
  have hunit : ∀ x : ℤ, x = 0 ∨ x = 1 ∨ x = -1 → x.sign = x := by
    rintro x (rfl | rfl | rfl) <;> rfl
  obtain ⟨h1, h2, -⟩ := hv.cases
  rw [Int.sign_mul, Int.sign_mul, Int.sign_eq_one_of_pos (by omega), one_mul, one_mul,
    hunit v.1 h1, hunit v.2 h2]

/-- A square is on one ray from `s` at most, and on that one at one distance only. -/
theorem IsDirection.eq_of_shift {s t : Square} {v w : ℤ × ℤ} (hv : IsDirection v)
    (hw : IsDirection w) {m n : ℕ} (hm : 0 < m) (hn : 0 < n)
    (hmt : s.shift (m * v.1) (m * v.2) = some t) (hnt : s.shift (n * w.1) (n * w.2) = some t) :
    v = w ∧ m = n := by
  have hoff : ((m * v.1, m * v.2) : ℤ × ℤ) = (n * w.1, n * w.2) := offset_inj hmt hnt
  obtain ⟨hfile, hrank⟩ := Prod.mk.inj hoff
  have hvw : v = w := by
    calc v = ((m * v.1).sign, (m * v.2).sign) := (hv.sign_mul hm).symm
      _ = ((n * w.1).sign, (n * w.2).sign) := by rw [hfile, hrank]
      _ = w := hw.sign_mul hn
  subst hvw
  refine ⟨rfl, ?_⟩
  obtain ⟨-, -, hne | hne⟩ := hv.cases
  · exact Int.ofNat_inj.mp (mul_right_cancel₀ hne hfile)
  · exact Int.ofNat_inj.mp (mul_right_cancel₀ hne hrank)

theorem nodup_ray (s : Square) {v : ℤ × ℤ} (hv : IsDirection v) : (s.ray v).Nodup := by
  rw [List.nodup_iff_getElem?_ne_getElem?]
  intro i j hij hj heq
  have hjt := List.getElem?_eq_getElem hj
  rw [hjt, getElem?_ray s hv] at heq
  rw [getElem?_ray s hv] at hjt
  have := (hv.eq_of_shift hv (by omega) (by omega) heq hjt).2
  omega

/-- The squares of different rays from one square, and of one ray, are all different. -/
theorem nodup_rays (s : Square) {vs : List (ℤ × ℤ)} (hvs : vs.Nodup)
    (hdir : ∀ v ∈ vs, IsDirection v) : (vs.flatMap s.ray).Nodup := by
  rw [List.nodup_flatMap]
  constructor
  · intro v hv
    exact nodup_ray s (hdir v hv)
  · apply hvs.imp_of_mem
    intro v w hv hw hvw t htv htw
    obtain ⟨i, hi⟩ := List.mem_iff_getElem?.mp htv
    obtain ⟨j, hj⟩ := List.mem_iff_getElem?.mp htw
    rw [getElem?_ray s (hdir v hv)] at hi
    rw [getElem?_ray s (hdir w hw)] at hj
    exact hvw ((hdir v hv).eq_of_shift (hdir w hw) (by omega) (by omega) hi hj).1

end Square

/-! ## Scanning a list up to the first element that fails a test -/

section Scan

variable {α : Type} {p : α → Bool} {l : List α} {t : α}

/-- The elements in front of position `j` pass the test. -/
def PassesBefore (p : α → Bool) (l : List α) (j : ℕ) : Prop :=
  ∀ i < j, ∀ u ∈ l[i]?, p u = true

theorem passesBefore_zero : PassesBefore p l 0 := by
  intro i hi
  exact absurd hi (Nat.not_lt_zero i)

theorem passesBefore_cons (a : α) (j : ℕ) :
    PassesBefore p (a :: l) (j + 1) ↔ p a = true ∧ PassesBefore p l j := by
  constructor
  · intro h
    constructor
    · exact h 0 (Nat.succ_pos j) a rfl
    · intro i hi u hu
      exact h (i + 1) (Nat.succ_lt_succ hi) u hu
  · intro h i hi u hu
    cases i with
    | zero =>
      rw [← Option.some.inj hu]
      exact h.1
    | succ i => exact h.2 i (Nat.lt_of_succ_lt_succ hi) u hu

theorem mem_takeWhile_iff :
    t ∈ l.takeWhile p ↔ ∃ j, l[j]? = some t ∧ p t = true ∧ PassesBefore p l j := by
  induction l with
  | nil => simp
  | cons a l ih =>
    rw [List.takeWhile_cons]
    constructor
    · intro h
      split_ifs at h with ha
      · rcases List.mem_cons.mp h with heq | h
        · exact ⟨0, by rw [heq]; rfl, by rwa [heq], passesBefore_zero⟩
        · obtain ⟨j, hj, ht, hbefore⟩ := ih.mp h
          exact ⟨j + 1, hj, ht, (passesBefore_cons a j).mpr ⟨ha, hbefore⟩⟩
      · exact absurd h List.not_mem_nil
    · intro h
      obtain ⟨j, hj, ht, hbefore⟩ := h
      cases j with
      | zero =>
        rw [Option.some.inj hj, if_pos ht]
        exact List.mem_cons_self
      | succ j =>
        obtain ⟨ha, hbefore⟩ := (passesBefore_cons a j).mp hbefore
        rw [if_pos ha]
        exact List.mem_cons_of_mem a (ih.mpr ⟨j, hj, ht, hbefore⟩)

theorem head_dropWhile_iff :
    (l.dropWhile p).head? = some t ↔
      ∃ j, l[j]? = some t ∧ p t = false ∧ PassesBefore p l j := by
  induction l with
  | nil => simp
  | cons a l ih =>
    rw [List.dropWhile_cons]
    constructor
    · intro h
      split_ifs at h with ha
      · obtain ⟨j, hj, ht, hbefore⟩ := ih.mp h
        exact ⟨j + 1, hj, ht, (passesBefore_cons a j).mpr ⟨ha, hbefore⟩⟩
      · rw [List.head?_cons, Option.some.injEq] at h
        exact ⟨0, by rw [h]; rfl, by simpa [h] using ha, passesBefore_zero⟩
    · intro h
      obtain ⟨j, hj, ht, hbefore⟩ := h
      cases j with
      | zero =>
        rw [Option.some.inj hj, if_neg (by simp [ht])]
        rfl
      | succ j =>
        obtain ⟨ha, hbefore⟩ := (passesBefore_cons a j).mp hbefore
        rw [if_pos ha]
        exact ih.mpr ⟨j, hj, ht, hbefore⟩

end Scan

namespace Rules

open Square

variable {mb : Mailbox} {s t : Square} {v : ℤ × ℤ}

/-- A slider gets to the squares of the ray that have only empty ones in front of them. -/
theorem slides_iff (hv : IsDirection v) :
    Slides mb s v t ↔
      ∃ j, (s.ray v)[j]? = some t ∧ PassesBefore (fun u => (mb u).isNone) (s.ray v) j := by
  unfold PassesBefore
  simp only [getElem?_ray s hv, Option.isNone_iff_eq_none]
  constructor
  · intro h
    obtain ⟨n, -, hpos, hnt, hall⟩ := h
    obtain ⟨j, rfl⟩ : ∃ j, n = 1 + j := ⟨n - 1, by omega⟩
    refine ⟨j, hnt, ?_⟩
    intro i hi
    exact hall (1 + i) (by omega) (by omega)
  · intro h
    obtain ⟨j, hjt, hall⟩ := h
    refine ⟨1 + j, ?_, by omega, hjt, ?_⟩
    · by_contra hlt
      rw [shift_mul_none_of_lt hv (by omega)] at hjt
      cases hjt
    · intro m hm hpos
      obtain ⟨i, rfl⟩ : ∃ i, m = 1 + i := ⟨m - 1, by omega⟩
      exact hall i (by omega)

/-- A slider reaches the empty squares at the front of the ray. -/
theorem mem_takeWhile_ray (hv : IsDirection v) :
    t ∈ (s.ray v).takeWhile (fun u => (mb u).isNone) ↔ Slides mb s v t ∧ mb t = none := by
  rw [mem_takeWhile_iff, slides_iff hv]
  simp only [Option.isNone_iff_eq_none]
  constructor
  · intro h
    obtain ⟨j, hj, ht, hbefore⟩ := h
    exact ⟨⟨j, hj, hbefore⟩, ht⟩
  · intro h
    obtain ⟨⟨j, hj, hbefore⟩, ht⟩ := h
    exact ⟨j, hj, ht, hbefore⟩

/-- And it reaches the first occupied square behind them. -/
theorem head_dropWhile_ray (hv : IsDirection v) :
    ((s.ray v).dropWhile (fun u => (mb u).isNone)).head? = some t ↔
      Slides mb s v t ∧ mb t ≠ none := by
  rw [head_dropWhile_iff, slides_iff hv]
  simp only [Option.isNone_eq_false_iff, Option.isSome_iff_ne_none]
  constructor
  · intro h
    obtain ⟨j, hj, ht, hbefore⟩ := h
    exact ⟨⟨j, hj, hbefore⟩, ht⟩
  · intro h
    obtain ⟨⟨j, hj, hbefore⟩, ht⟩ := h
    exact ⟨j, hj, ht, hbefore⟩

end Rules

end PawnGrabber
