import PawnGrabber.Model.Board
import PawnGrabber.Library.ExceptFold
import PawnGrabber.Rules.Square

/-!
# Bitboards as sets of squares

The dictionary between the two layers. A square of the rules is the one-bit word
`Square.bit`, a bitboard is the set of squares `has` tells apart, and every function of
the program on single words becomes a statement about squares: the direction functions
are `shift`, `bitboardSplit` lists the squares of a mask, and the literals and masks at
the top of the source are the squares they name.
-/

set_option autoImplicit false

namespace PawnGrabber

open ExceptFold

namespace Square

/-- The bitboard with this square only. -/
def bit (s : Square) : Bitboard := BitVec.twoPow 64 s.index

end Square

/-- The bitboard of a square that may be off the board. -/
def bitOf : Option Square → Bitboard
  | none => 0
  | some s => s.bit

@[simp] theorem bitOf_none : bitOf none = 0#64 := rfl

@[simp] theorem bitOf_some (s : Square) : bitOf (some s) = s.bit := rfl

/-- The square `s` belongs to the bitboard. -/
def has (bb : Bitboard) (s : Square) : Bool := bb.getLsbD s.index

/-- The squares of a bitboard, in the order of their bits. -/
def squaresOf (bb : Bitboard) : List Square := Square.all.filter (has bb)

/-! ## Membership -/

theorem has_ext {x y : Bitboard} (h : ∀ s, has x s = has y s) : x = y := by
  apply BitVec.eq_of_getLsbD_eq
  intro i hi
  have := h (Square.ofIndex i)
  rwa [has, has, Square.index_ofIndex hi] at this

@[simp] theorem has_zero (s : Square) : has 0#64 s = false := by simp [has]

@[simp] theorem has_or (x y : Bitboard) (s : Square) : has (x ||| y) s = (has x s || has y s) :=
  BitVec.getLsbD_or

@[simp] theorem has_and (x y : Bitboard) (s : Square) : has (x &&& y) s = (has x s && has y s) :=
  BitVec.getLsbD_and

@[simp] theorem has_xor (x y : Bitboard) (s : Square) : has (x ^^^ y) s = (has x s ^^ has y s) :=
  BitVec.getLsbD_xor

@[simp] theorem has_not (x : Bitboard) (s : Square) : has (~~~x) s = !has x s := by
  simp [has, s.index_lt]

@[simp] theorem has_bit (s t : Square) : has s.bit t = decide (s = t) := by
  simp [has, Square.bit, BitVec.getLsbD_twoPow, s.index_lt]

@[simp] theorem bit_ne_zero (s : Square) : s.bit ≠ 0#64 := fun h => by
  have := has_bit s s
  rw [h, has_zero] at this
  simp at this

@[simp] theorem zero_ne_bit (s : Square) : 0#64 ≠ s.bit := (bit_ne_zero s).symm

@[simp] theorem bit_inj {s t : Square} : s.bit = t.bit ↔ s = t := by
  refine ⟨?_, fun h => h ▸ rfl⟩
  intro h
  have := has_bit s t
  rw [h, has_bit] at this
  simpa using this

@[simp] theorem toBool_bit (s : Square) : toBool s.bit = true := by
  simp [toBool]

@[simp] theorem toBool_zero : toBool 0#64 = false := rfl

@[simp] theorem toBool_bit_and (s : Square) (bb : Bitboard) :
    toBool (s.bit &&& bb) = has bb s := by
  rw [toBool, Square.bit, Bool.eq_iff_iff, bne_iff_ne, ne_eq, BitWord.twoPow_and_eq_zero_iff,
    Bool.not_eq_false, has]

@[simp] theorem toBool_and_bit (s : Square) (bb : Bitboard) :
    toBool (bb &&& s.bit) = has bb s := by
  rw [BitVec.and_comm, toBool_bit_and]

theorem toBool_eq_false_iff {bb : Bitboard} : toBool bb = false ↔ ∀ s, has bb s = false := by
  rw [toBool, bne_eq_false_iff_eq]
  exact ⟨fun h s => by simp [h], fun h => has_ext fun s => by simp [h s]⟩

theorem toBool_eq_true_iff {bb : Bitboard} : toBool bb = true ↔ ∃ s, has bb s = true := by
  rw [← Bool.not_eq_false, toBool_eq_false_iff]
  simp

theorem toBool_or (x y : Bitboard) : toBool (x ||| y) = (toBool x || toBool y) := by
  rw [Bool.eq_iff_iff, Bool.or_eq_true, toBool_eq_true_iff, toBool_eq_true_iff,
    toBool_eq_true_iff, ← exists_or]
  simp

/-- A mask collected in a loop has the squares of its start and of the words added to it. -/
theorem has_foldl_or {α : Type} (l : List α) (g : α → Bitboard) (acc : Bitboard) (t : Square) :
    has (l.foldl (fun acc a => acc ||| g a) acc) t = true ↔
      has acc t = true ∨ ∃ a ∈ l, has (g a) t = true := by
  induction l generalizing acc with
  | nil => simp
  | cons a l ih =>
    rw [List.foldl_cons, ih, has_or, Bool.or_eq_true, List.exists_mem_cons_iff, or_assoc]

/-! ## Single squares and lists of squares -/

/-- `isSquare` recognises exactly the one-bit words. -/
theorem isSquare_iff {bb : Bitboard} : isSquare bb = true ↔ ∃ s : Square, bb = s.bit := by
  unfold isSquare toBool
  by_cases hbb : bb = 0
  · subst hbb
    simp
  · simp only [Bool.and_eq_true, bne_iff_ne, ne_eq, hbb, not_false_eq_true, true_and,
      Bool.not_eq_true', bne_eq_false_iff_eq]
    rw [BitWord.and_sub_one_eq_zero_iff hbb]
    constructor
    · rintro ⟨i, hi, rfl⟩
      exact ⟨Square.ofIndex i, by rw [Square.bit, Square.index_ofIndex hi]⟩
    · rintro ⟨s, rfl⟩
      exact ⟨s.index, s.index_lt, rfl⟩

@[simp] theorem isSquare_bit (s : Square) : isSquare s.bit = true := isSquare_iff.mpr ⟨s, rfl⟩

theorem bit_and_bit {s t : Square} (hst : s ≠ t) : s.bit &&& t.bit = 0 := by
  apply has_ext
  intro u
  have hu : ¬(s = u ∧ t = u) := by
    rintro ⟨rfl, rfl⟩
    exact hst rfl
  simpa using hu

/-- The loop of `squareIdx` adds the bit length of its word. -/
theorem squareIdxLoop_eq (square : Bitboard) (res : ℤ) :
    squareIdxLoop square res = res + Nat.size square.toNat := by
  fun_induction squareIdxLoop square res with
  | case1 res => simp
  | case2 square res hsquare ih =>
    rw [ih, BitWord.size_toNat_ushiftRight_one hsquare]
    omega

/-- `squareIdx` of a single square is the number of its bit. -/
theorem squareIdx_bit (s : Square) : squareIdx s.bit = s.index := by
  rw [squareIdx, squareIdxLoop_eq, Square.bit, BitVec.toNat_twoPow,
    Nat.mod_eq_of_lt (Nat.pow_lt_pow_right Nat.one_lt_two s.index_lt), Nat.size_pow]
  omega

@[simp] theorem mem_squaresOf {bb : Bitboard} {s : Square} :
    s ∈ squaresOf bb ↔ has bb s = true := by
  simp [squaresOf]

theorem nodup_squaresOf (bb : Bitboard) : (squaresOf bb).Nodup :=
  Square.nodup_all.filter _

@[simp] theorem squaresOf_bit (s : Square) : squaresOf s.bit = [s] := by
  have hperm : (squaresOf s.bit).Perm [s] := by
    rw [List.perm_ext_iff_of_nodup (nodup_squaresOf _) (List.nodup_singleton s)]
    intro t
    simp [eq_comm]
  exact List.perm_singleton.mp hperm

theorem map_index_squaresOf (bb : Bitboard) :
    (squaresOf bb).map Square.index = BitWord.positions bb := by
  rw [BitWord.positions, ← Square.map_index_all, List.filter_map]
  rfl

/-- The loop of `bitboardSplit` appends the single bits of the mask. -/
theorem bitboardSplitLoop_eq (bb : Bitboard) (res : List Bitboard) :
    bitboardSplitLoop bb res = res ++ (BitWord.positions bb).map (BitVec.twoPow 64) := by
  fun_induction bitboardSplitLoop bb res with
  | case1 res => simp
  | case2 bb res hbb cleared onlyLsb ih =>
    obtain ⟨i, hi⟩ := BitWord.exists_isLowest hbb
    rw [ih, BitWord.positions_of_isLowest hi, List.map_cons]
    simp [onlyLsb, cleared, BitWord.xor_and_sub_one hi]

/-- `bitboardSplit` lists the squares of the mask. -/
theorem bitboardSplit_eq (bb : Bitboard) : bitboardSplit bb = (squaresOf bb).map Square.bit := by
  rw [bitboardSplit, bitboardSplitLoop_eq, List.nil_append, ← map_index_squaresOf, List.map_map]
  rfl

theorem popCountLoop_eq (bb : Bitboard) (res : ℕ) :
    popCountLoop bb res = res + (BitWord.positions bb).length := by
  fun_induction popCountLoop bb res with
  | case1 res => simp
  | case2 bb res hbb ih =>
    obtain ⟨i, hi⟩ := BitWord.exists_isLowest hbb
    rw [ih, BitWord.positions_of_isLowest hi, List.length_cons]
    omega

/-- `popCount` counts the squares of the mask. -/
theorem popCount_eq (bb : Bitboard) :
    popCount bb = (Finset.univ.filter fun s => has bb s = true).card := by
  rw [popCount, popCountLoop_eq, Nat.zero_add, ← map_index_squaresOf, List.length_map,
    ← List.toFinset_card_of_nodup (nodup_squaresOf bb)]
  congr 1
  ext s
  simp

/-! ## Directions -/

/-- The offset of one step in a direction. -/
def Direction.offset : Direction → ℤ × ℤ
  | .north => (0, 1)
  | .south => (0, -1)
  | .east => (1, 0)
  | .west => (-1, 0)
  | .northeast => (1, 1)
  | .northwest => (-1, 1)
  | .southeast => (1, -1)
  | .southwest => (-1, -1)

/-- Each direction function is one step on the board, off it the empty bitboard. -/
theorem directionToFunction_bit (d : Direction) (s : Square) :
    directionToFunction d s.bit = .ok (bitOf (s.shift d.offset.1 d.offset.2)) := by
  revert s
  rw [Square.forall_iff]
  cases d <;> decide +kernel

@[simp] theorem northOf_bit (s : Square) : northOf s.bit = .ok (bitOf (s.shift 0 1)) :=
  directionToFunction_bit .north s

@[simp] theorem southOf_bit (s : Square) : southOf s.bit = .ok (bitOf (s.shift 0 (-1))) :=
  directionToFunction_bit .south s

@[simp] theorem northeastOf_bit (s : Square) : northeastOf s.bit = .ok (bitOf (s.shift 1 1)) :=
  directionToFunction_bit .northeast s

@[simp] theorem northwestOf_bit (s : Square) : northwestOf s.bit = .ok (bitOf (s.shift (-1) 1)) :=
  directionToFunction_bit .northwest s

@[simp] theorem southeastOf_bit (s : Square) : southeastOf s.bit = .ok (bitOf (s.shift 1 (-1))) :=
  directionToFunction_bit .southeast s

@[simp] theorem southwestOf_bit (s : Square) :
    southwestOf s.bit = .ok (bitOf (s.shift (-1) (-1))) :=
  directionToFunction_bit .southwest s

theorem coordinatesToSquare_eq (s : Square) : coordinatesToSquare s.file s.rank = .ok s.bit := by
  revert s
  rw [Square.forall_iff]
  decide +kernel

/-! ## Literals and masks -/

/-- The algebraic name of a square. -/
def Square.name (s : Square) : StringView :=
  [Char.ofNat (97 + s.file), Char.ofNat (49 + s.rank)]

/-- `str_to_square` reads a name back. -/
theorem strToSquare_name (s : Square) : strToSquare s.name = .ok s.bit := by
  revert s
  rw [Square.forall_iff]
  decide +kernel

/-- A literal is the square it names. -/
theorem square_name (s : Square) : square s.name = s.bit := by
  rw [square, strToSquare_name]
  rfl

@[simp] theorem square_a1 : square ['a', '1'] = Square.bit ⟨0, 0⟩ :=
  square_name ⟨0, 0⟩

@[simp] theorem square_b1 : square ['b', '1'] = Square.bit ⟨1, 0⟩ :=
  square_name ⟨1, 0⟩

@[simp] theorem square_c1 : square ['c', '1'] = Square.bit ⟨2, 0⟩ :=
  square_name ⟨2, 0⟩

@[simp] theorem square_d1 : square ['d', '1'] = Square.bit ⟨3, 0⟩ :=
  square_name ⟨3, 0⟩

@[simp] theorem square_e1 : square ['e', '1'] = Square.bit ⟨4, 0⟩ :=
  square_name ⟨4, 0⟩

@[simp] theorem square_f1 : square ['f', '1'] = Square.bit ⟨5, 0⟩ :=
  square_name ⟨5, 0⟩

@[simp] theorem square_g1 : square ['g', '1'] = Square.bit ⟨6, 0⟩ :=
  square_name ⟨6, 0⟩

@[simp] theorem square_h1 : square ['h', '1'] = Square.bit ⟨7, 0⟩ :=
  square_name ⟨7, 0⟩

@[simp] theorem square_a8 : square ['a', '8'] = Square.bit ⟨0, 7⟩ :=
  square_name ⟨0, 7⟩

@[simp] theorem square_b8 : square ['b', '8'] = Square.bit ⟨1, 7⟩ :=
  square_name ⟨1, 7⟩

@[simp] theorem square_c8 : square ['c', '8'] = Square.bit ⟨2, 7⟩ :=
  square_name ⟨2, 7⟩

@[simp] theorem square_d8 : square ['d', '8'] = Square.bit ⟨3, 7⟩ :=
  square_name ⟨3, 7⟩

@[simp] theorem square_e8 : square ['e', '8'] = Square.bit ⟨4, 7⟩ :=
  square_name ⟨4, 7⟩

@[simp] theorem square_f8 : square ['f', '8'] = Square.bit ⟨5, 7⟩ :=
  square_name ⟨5, 7⟩

@[simp] theorem square_g8 : square ['g', '8'] = Square.bit ⟨6, 7⟩ :=
  square_name ⟨6, 7⟩

@[simp] theorem square_h8 : square ['h', '8'] = Square.bit ⟨7, 7⟩ :=
  square_name ⟨7, 7⟩

/-- A full byte shifted to the place of a rank holds the squares of that rank. -/
theorem has_rankMask (r : Fin 8) (s : Square) :
    has (0xff#64 <<< (8 * r.val)) s = decide (s.rank = r) := by
  have hrow : ∀ i : ℕ, (0xff#64).getLsbD i = decide (i < 8) := by
    intro i
    rw [BitVec.getLsbD, show (0xff#64).toNat = 2 ^ 8 - 1 from rfl, Nat.testBit_two_pow_sub_one]
  have hindex := s.index_lt
  rw [has, BitVec.getLsbD_shiftLeft, hrow, Bool.eq_iff_iff]
  simp only [Bool.and_eq_true, Bool.not_eq_true', decide_eq_true_eq, decide_eq_false_iff_not,
    Fin.ext_iff]
  unfold Square.index at *
  omega

@[simp] theorem has_seventhRankMask (s : Square) : has seventhRankMask s = decide (s.rank = 6) :=
  has_rankMask 6 s

@[simp] theorem has_secondRankMask (s : Square) : has secondRankMask s = decide (s.rank = 1) :=
  has_rankMask 1 s

@[simp] theorem has_thirdRankMask (s : Square) : has thirdRankMask s = decide (s.rank = 2) :=
  has_rankMask 2 s

end PawnGrabber
