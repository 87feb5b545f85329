import PawnGrabber.Analysis.FenSpelling

/-!
# Reading any string as a FEN

What the constructor does with a text that need not be a FEN at all. The cursor of
`init_bitboards` is a function of the characters behind it, and `offset` counts how far it
is from a8, so the shift of each round is 63 minus the offset. `Readable` collects what the
fields have to satisfy for nothing to go wrong unnoticed.
-/

set_option autoImplicit false

namespace PawnGrabber

open ExceptFold Rules

/-- The faults that are checks of the program's own. -/
def Fault.IsCheck : Fault → Prop
  | .rawCheck _ => True
  | .assertFailed => True
  | .shiftOutOfRange => False
  | .indexOutOfRange => False
  | .outOfFuel => False

namespace Board

variable {b : Board} {text : StringView}

/-! ## The placement field -/

/-- The `switch` has a case for the character. -/
def Known (c : Char) : Prop := ('1' ≤ c ∧ c ≤ '8') ∨ c = '/' ∨ fenPiece c ≠ none

/-- How many files a character of a rank moves the cursor. -/
def fileStep (c : Char) : ℕ := if '1' ≤ c ∧ c ≤ '8' then c.toNat - '0'.toNat else 1

/-- The file of the cursor behind these characters. -/
def filesPassed (text : StringView) : ℕ := ((text.rtakeWhile (· ≠ '/')).map fileStep).sum

/-- The distance of the cursor from a8, eight for each rank it has gone down. -/
def offset (text : StringView) : ℕ := 8 * text.count '/' + filesPassed text

/-- Every character that the loop gets to is met on one of the 64 squares; it gets to a
character if it knows all before it. -/
def CursorOnBoard (text : StringView) : Prop :=
  ∀ pre c, pre ++ [c] <+: text → (∀ x ∈ pre, Known x) → offset pre ≤ 63

/-- A letter of the piece `x` is met at this offset. -/
def LetterAt (text : StringView) (x : Color × Piece) (n : ℕ) : Prop :=
  ∃ pre c, pre ++ [c] <+: text ∧ fenPiece c = some x ∧ offset pre = n

/-- Letters of different pieces are never met at one offset. -/
def NoClash (text : StringView) : Prop :=
  ∀ n x y, LetterAt text x n → LetterAt text y n → x = y

theorem cursorOnBoard_concat (c : Char) :
    CursorOnBoard (text ++ [c]) ↔
      CursorOnBoard text ∧ ((∀ x ∈ text, Known x) → offset text ≤ 63) := by
  constructor
  · intro h
    constructor
    · intro pre d hpre
      exact h pre d (hpre.trans (List.prefix_append text [c]))
    · exact h text c (List.prefix_refl _)
  · intro h pre d hpre hknown
    rcases List.prefix_concat_iff.mp hpre with heq | hpre
    · obtain ⟨rfl, -⟩ := List.append_inj' heq rfl
      exact h.2 hknown
    · exact h.1 pre d hpre hknown

theorem letterAt_concat (c : Char) (x : Color × Piece) (n : ℕ) :
    LetterAt (text ++ [c]) x n ↔
      LetterAt text x n ∨ fenPiece c = some x ∧ offset text = n := by
  constructor
  · intro h
    obtain ⟨pre, d, hpre, hd, hn⟩ := h
    rcases List.prefix_concat_iff.mp hpre with heq | hpre
    · obtain ⟨rfl, hcd⟩ := List.append_inj' heq rfl
      rw [List.singleton_inj.mp hcd] at hd
      exact Or.inr ⟨hd, hn⟩
    · exact Or.inl ⟨pre, d, hpre, hd, hn⟩
  · intro h
    cases h with
    | inl h =>
      obtain ⟨pre, d, hpre, hd, hn⟩ := h
      exact ⟨pre, d, hpre.trans (List.prefix_append text [c]), hd, hn⟩
    | inr h => exact ⟨text, c, List.prefix_refl _, h⟩

theorem filesPassed_concat_slash (text : StringView) : filesPassed (text ++ ['/']) = 0 := by
  rw [filesPassed, List.rtakeWhile_concat_neg _ _ _ (by decide)]
  rfl

theorem filesPassed_concat {c : Char} (hc : c ≠ '/') :
    filesPassed (text ++ [c]) = filesPassed text + fileStep c := by
  rw [filesPassed, List.rtakeWhile_concat_pos _ _ _ (by simpa using hc), List.map_append,
    List.sum_append]
  simp [filesPassed]

/-- The loop state behind these characters. -/
def cursorAt (b : Board) (text : StringView) : FenCursor :=
  ⟨b, boardSize - 1 - (text.count '/' : ℕ), filesPassed text⟩

theorem cursorAt_concat {c : Char} (hc : c ≠ '/') :
    cursorAt b (text ++ [c]) =
      ⟨b, (cursorAt b text).rank, (cursorAt b text).file + fileStep c⟩ := by
  have hcount : [c].count '/' = 0 := List.count_eq_zero_of_not_mem (by simpa using hc.symm)
  rw [cursorAt, filesPassed_concat hc, List.count_append, hcount, Nat.add_zero, Nat.cast_add]
  rfl

theorem cursorAt_concat_slash :
    cursorAt b (text ++ ['/']) = ⟨b, (cursorAt b text).rank - 1, 0⟩ := by
  rw [cursorAt, filesPassed_concat_slash, List.count_append, List.count_singleton_self,
    Nat.cast_add, ← sub_sub]
  rfl

/-- The bitboards have a square exactly if one of their letters was met at its offset. -/
def Written (text : StringView) (b : Board) : Prop :=
  ∀ x s, has (b.bitboard x) s = true ↔ LetterAt text x (63 - s.index)

theorem shiftLsb_cursorAt (h : offset text ≤ 63) :
    shiftLsb ((cursorAt b text).rank * boardSize + boardSize - (cursorAt b text).file - 1) =
      .ok (Square.ofIndex (63 - offset text)).bit := by
  rw [← shiftLsb_cursor]
  congr 1
  simp only [cursorAt, Square.ofIndex, boardSize, offset] at h ⊢
  omega

theorem shiftLsb_cursorAt_error (h : ¬offset text ≤ 63) :
    shiftLsb ((cursorAt b text).rank * boardSize + boardSize - (cursorAt b text).file - 1) =
      .error .shiftOutOfRange := by
  rw [shiftLsb, if_neg]
  · rfl
  · simp only [cursorAt, boardSize, offset] at h ⊢
    omega

/-- One case of the `switch`. -/
theorem eq_pieceLetter_of_case {c letter : Char} {x y : Color × Piece}
    {rest : Option (Color × Piece)} (hletter : letter = pieceLetter y)
    (hrest : rest = some x → c = pieceLetter x) :
    (if c = letter then some y else rest) = some x → c = pieceLetter x := by
  intro h
  split_ifs at h with hc
  · rw [Option.some.injEq] at h
    rw [← h, hc, hletter]
  · exact hrest h

theorem eq_pieceLetter {c : Char} {x : Color × Piece} :
    fenPiece c = some x → c = pieceLetter x := by
  unfold fenPiece
  iterate 12 refine eq_pieceLetter_of_case rfl ?_
  intro h
  cases h

/-- A digit or a separator writes nothing. -/
theorem Written.concat_of_no_piece {c : Char} (hc : fenPiece c = none) (h : Written text b) :
    Written (text ++ [c]) b := by
  intro x s
  rw [h x s, letterAt_concat, hc]
  simp

/-- A piece letter writes the square of its offset. -/
theorem Written.concat_of_piece {c : Char} {x : Color × Piece} (hc : fenPiece c = some x)
    (hpre : offset text ≤ 63) (h : Written text b) :
    Written (text ++ [c])
      (b.setBitboard x (b.bitboard x ||| (Square.ofIndex (63 - offset text)).bit)) := by
  intro y s
  have hsquare : Square.ofIndex (63 - offset text) = s ↔ offset text = 63 - s.index := by
    have hlt := s.index_lt
    rw [← Square.index_inj, Square.index_ofIndex (by omega)]
    omega
  rw [bitboard_setBitboard, letterAt_concat, hc, ← h y s, Option.some.injEq]
  by_cases hy : y = x
  · subst hy
    simp [hsquare]
  · simp [hy, Ne.symm hy]

/-- One round at a known character, with the cursor on the board. -/
theorem initBitboardsStep_known {c : Char} (hpre : offset text ≤ 63) (hc : Known c)
    (h : Written text b) :
    ∃ b', initBitboardsStep (cursorAt b text) c = .ok (cursorAt b' (text ++ [c])) ∧
      Written (text ++ [c]) b' := by
  rw [initBitboardsStep]
  simp only [shiftLsb_cursorAt hpre, ok_bind]
  cases hpiece : fenPiece c with
  | some x =>
    have hletter := fenPiece_pieceLetter x
    rw [← eq_pieceLetter hpiece] at hletter
    obtain ⟨-, hdigit, hslash⟩ := hletter
    refine ⟨_, ?_, h.concat_of_piece hpiece hpre⟩
    rw [if_neg hdigit, if_neg hslash, cursorAt_concat hslash, fileStep, if_neg hdigit]
    rfl
  | none =>
    refine ⟨b, ?_, h.concat_of_no_piece hpiece⟩
    by_cases hdigit : '1' ≤ c ∧ c ≤ '8'
    · have hslash : c ≠ '/' := by
        rintro rfl
        exact absurd hdigit (by decide)
      have hzero : '0'.toNat ≤ c.toNat := (UInt32.le_iff_toNat_le.mp hdigit.1).trans' (by decide)
      rw [if_pos hdigit, cursorAt_concat hslash, fileStep, if_pos hdigit, Nat.cast_sub hzero]
      rfl
    · have hslash : c = '/' := by
        rcases hc with hc | hc | hc
        · exact absurd hc hdigit
        · exact hc
        · exact absurd hpiece hc
      rw [if_neg hdigit, if_pos hslash, hslash, cursorAt_concat_slash]
      rfl

/-- One round at an unknown character, with the cursor on the board. -/
theorem initBitboardsStep_unknown {c : Char} (hpre : offset text ≤ 63) (hc : ¬Known c) :
    initBitboardsStep (cursorAt b text) c = .error .assertFailed := by
  unfold Known at hc
  simp only [not_or, not_not] at hc
  obtain ⟨hdigit, hslash, hpiece⟩ := hc
  rw [initBitboardsStep]
  simp only [shiftLsb_cursorAt hpre, ok_bind]
  rw [if_neg hdigit, if_neg hslash, hpiece]
  rfl

/-- One round with the cursor past the board. -/
theorem initBitboardsStep_past {c : Char} (hpre : ¬offset text ≤ 63) :
    initBitboardsStep (cursorAt b text) c = .error .shiftOutOfRange := by
  rw [initBitboardsStep]
  simp only [shiftLsb_cursorAt_error hpre, error_bind]

/-- The loop writes the letters of a text that it knows and that keeps its cursor on the
board; otherwise it stops, at the first character that is unknown or that it meets past the
board. -/
theorem foldlM_initBitboardsStep (b : Board) (hb : Written [] b) (text : StringView) :
    (CursorOnBoard text ∧ (∀ c ∈ text, Known c) ∧ ∃ b',
      text.foldlM initBitboardsStep (cursorAt b []) = .ok (cursorAt b' text) ∧
        Written text b') ∨
    (CursorOnBoard text ∧ (¬∀ c ∈ text, Known c) ∧
      text.foldlM initBitboardsStep (cursorAt b []) = .error .assertFailed) ∨
    (¬CursorOnBoard text ∧
      text.foldlM initBitboardsStep (cursorAt b []) = .error .shiftOutOfRange) := by
  induction text using List.reverseRecOn with
  | nil =>
    refine Or.inl ⟨?_, List.forall_mem_nil _, b, rfl, hb⟩
    intro pre c hpre
    exact absurd (List.prefix_nil.mp hpre) (List.append_ne_nil_of_right_ne_nil _ (by simp))
  | append_singleton text c ih =>
    have hall : (∀ d ∈ text ++ [c], Known d) ↔ (∀ d ∈ text, Known d) ∧ Known c := by
      rw [List.forall_mem_append, List.forall_mem_singleton]
    rw [cursorOnBoard_concat, hall, List.foldlM_append]
    rcases ih with ⟨hcursor, hknown, b', hfold, hwritten⟩ | ⟨hcursor, hunknown, hfold⟩ |
      ⟨hcursor, hfold⟩
    · rw [hfold, ok_bind, List.foldlM_cons]
      by_cases hpre : offset text ≤ 63
      · by_cases hc : Known c
        · obtain ⟨b'', hstep, hwritten'⟩ := initBitboardsStep_known hpre hc hwritten
          rw [hstep, ok_bind]
          exact Or.inl ⟨⟨hcursor, fun _ => hpre⟩, ⟨hknown, hc⟩, b'', rfl, hwritten'⟩
        · rw [initBitboardsStep_unknown hpre hc]
          exact Or.inr (Or.inl ⟨⟨hcursor, fun _ => hpre⟩, fun h => hc h.2, rfl⟩)
      · rw [initBitboardsStep_past hpre]
        exact Or.inr (Or.inr ⟨fun h => hpre (h.2 hknown), rfl⟩)
    · rw [hfold]
      exact Or.inr (Or.inl ⟨⟨hcursor, fun h => absurd h hunknown⟩, fun h => hunknown h.1, rfl⟩)
    · rw [hfold]
      exact Or.inr (Or.inr ⟨fun h => hcursor h.1, rfl⟩)

/-- A letter that is met stands on a square of the board. -/
theorem LetterAt.le {x : Color × Piece} {n : ℕ} (h : LetterAt text x n)
    (hcursor : CursorOnBoard text) (hknown : ∀ c ∈ text, Known c) : n ≤ 63 := by
  obtain ⟨pre, c, hpre, -, rfl⟩ := h
  apply hcursor pre c hpre
  intro d hd
  exact hknown d (hpre.subset (List.mem_append_left [c] hd))

theorem Written.disjoint_iff (h : Written text b) (hcursor : CursorOnBoard text)
    (hknown : ∀ c ∈ text, Known c) : b.Disjoint ↔ NoClash text := by
  rw [Board.disjoint_iff]
  constructor
  · intro hdisj n x y hx hy
    have hle := hx.le hcursor hknown
    have hindex : 63 - (Square.ofIndex (63 - n)).index = n := by
      rw [Square.index_ofIndex (by omega)]
      omega
    apply hdisj (Square.ofIndex (63 - n)) x y
    · rwa [h, hindex]
    · rwa [h, hindex]
  · intro hclash s x y hx hy
    exact hclash (63 - s.index) x y ((h x s).mp hx) ((h y s).mp hy)

theorem written_zeroAllBitboards (b : Board) : Written [] b.zeroAllBitboards := by
  intro x s
  rw [bitboard_zeroAllBitboards]
  constructor
  · intro hs
    simp at hs
  · intro hletter
    obtain ⟨pre, c, hpre, -⟩ := hletter
    exact absurd (List.prefix_nil.mp hpre) (by simp)

/-! ## The other fields -/

/-- The text begins with the name of a square. -/
def NamesSquare (text : StringView) : Prop := ∃ s : Square, s.name <+: text

/-- What the constructor checks of a field before it goes on to the next one. -/
def PassesCheck (fields : List StringView) : ℕ → Prop
  | 0 => ∀ c ∈ fields.getD 0 [], Known c
  | 1 => fields.getD 1 [] = ['w'] ∨ fields.getD 1 [] = ['b']
  | 3 => fields.getD 3 [] = ['-'] ∨ NamesSquare (fields.getD 3 [])
  | 4 => (simpleAtoi (fields.getD 4 [])).isSome = true
  | 5 => (simpleAtoi (fields.getD 5 [])).isSome = true
  | _ => True

/-- The texts that are read without an access or a shift out of range, and onto disjoint
bitboards. As long as all fields before pass their checks, the next one has to be there; an
en passant field other than `-` has two characters at least; and if all checks pass, no two
pieces fall on one square. -/
structure Readable (fields : List StringView) : Prop where
  placement : CursorOnBoard (fields.getD 0 [])
  present : ∀ i < 6, (∀ j < i, PassesCheck fields j) → i < fields.length
  enPassant : (∀ j < 3, PassesCheck fields j) →
    fields.getD 3 [] = ['-'] ∨ 2 ≤ (fields.getD 3 []).length
  noClash : (∀ j < 6, PassesCheck fields j) → NoClash (fields.getD 0 [])

/-! ## The constructor, field by field -/

section Stages

variable {Q : Board → Prop} {q : Prop}

theorem wp_fieldAt (fields : List StringView) (i : ℕ) (P : StringView → Prop) :
    Wp Fault.IsCheck (fieldAt fields i) P ↔ i < fields.length ∧ P (fields.getD i []) := by
  rw [fieldAt, List.getD_eq_getElem?_getD]
  by_cases hi : i < fields.length
  · simp [hi]
  · simp [hi, Fault.IsCheck]

theorem wp_rawCheck (condition : Bool) (message : String) (P : Unit → Prop) :
    Wp Fault.IsCheck (rawCheck condition message) P ↔ (condition = true → P ()) := by
  cases condition <;> simp [rawCheck, Fault.IsCheck]

theorem wp_initBitboards (hQ : CursorOnBoard text → (∀ c ∈ text, Known c) →
      ∀ b', Written text b' → (Q b' ↔ q)) :
    Wp Fault.IsCheck (b.initBitboards text) Q ↔
      CursorOnBoard text ∧ ((∀ c ∈ text, Known c) → q) := by
  have hstart : (⟨b.zeroAllBitboards, boardSize - 1, 0⟩ : FenCursor) =
      cursorAt b.zeroAllBitboards [] := rfl
  rw [initBitboards, hstart]
  rcases foldlM_initBitboardsStep b.zeroAllBitboards (written_zeroAllBitboards b) text with
    ⟨hcursor, hknown, b', hfold, hwritten⟩ | ⟨hcursor, hunknown, hfold⟩ | ⟨hcursor, hfold⟩
  · rw [hfold, ok_bind, pure_eq_ok, wp_ok, and_iff_right hcursor, imp_iff_right hknown]
    exact hQ hcursor hknown b' hwritten
  · rw [hfold]
    exact iff_of_true trivial ⟨hcursor, fun hknown => absurd hknown hunknown⟩
  · rw [hfold]
    exact iff_of_false id fun h => hcursor h.1

theorem wp_initIsWhitesMove (hQ : ∀ b', b'.bitboard = b.bitboard → (Q b' ↔ q)) :
    Wp Fault.IsCheck (b.initIsWhitesMove text) Q ↔ (text = ['w'] ∨ text = ['b'] → q) := by
  have hside : (text == ['w'] || text == ['b']) = true ↔ text = ['w'] ∨ text = ['b'] := by
    rw [Bool.or_eq_true, beq_iff_eq, beq_iff_eq]
  rw [initIsWhitesMove, wp_bind, wp_rawCheck, hside, pure_eq_ok, wp_ok]
  apply imp_congr_right
  intro _
  apply hQ
  split_ifs <;> rfl

theorem exists_ofNat_of_range {c : Char} {low : ℕ} (hlow : low ≤ c.toNat)
    (hhigh : c.toNat ≤ low + 7) : ∃ k : Fin 8, Char.ofNat (low + k) = c := by
  refine ⟨⟨c.toNat - low, by omega⟩, ?_⟩
  rw [Nat.add_sub_cancel' hlow, Char.ofNat_toNat]

theorem strToSquare_of_namesSquare (h : NamesSquare text) :
    ∃ sq, strToSquare text = .ok sq := by
  obtain ⟨s, rest, rfl⟩ := h
  refine ⟨s.bit, ?_⟩
  rw [← strToSquare_name]
  rfl

/-- A text of two characters or more that names no square stops at a check. -/
theorem strToSquare_of_not_namesSquare (hlength : 2 ≤ text.length) (h : ¬NamesSquare text) :
    ∃ message, strToSquare text = .error (.rawCheck message) := by
  obtain _ | ⟨fileChar, _ | ⟨rankChar, rest⟩⟩ := text
  · exact absurd hlength (by decide)
  · exact absurd hlength (by simp)
  have hread : ∀ i c, (fileChar :: rankChar :: rest)[i]? = some c →
      charAt (fileChar :: rankChar :: rest) i = .ok c := by
    intro i c hc
    rw [charAt, hc]
    rfl
  rw [strToSquare, hread 0 fileChar rfl, ok_bind, hread 1 rankChar rfl, ok_bind]
  by_cases hfile : 'a' ≤ fileChar ∧ fileChar ≤ 'h'
  · by_cases hrank : '1' ≤ rankChar ∧ rankChar ≤ '8'
    · exfalso
      apply h
      obtain ⟨f, hf⟩ := exists_ofNat_of_range (UInt32.le_iff_toNat_le.mp hfile.1)
        (UInt32.le_iff_toNat_le.mp hfile.2)
      obtain ⟨r, hr⟩ := exists_ofNat_of_range (UInt32.le_iff_toNat_le.mp hrank.1)
        (UInt32.le_iff_toNat_le.mp hrank.2)
      refine ⟨⟨f, r⟩, rest, ?_⟩
      rw [← hf, ← hr]
      rfl
    · refine ⟨"Invalid rank.", ?_⟩
      have hcheck : ('1' ≤ rankChar && rankChar ≤ '8') = false := by simpa using hrank
      simp [rawCheck, hfile, hcheck]
  · refine ⟨"Invalid file.", ?_⟩
    have hcheck : ('a' ≤ fileChar && fileChar ≤ 'h') = false := by simpa using hfile
    simp [rawCheck, hcheck]

theorem strToSquare_of_length_lt (hlength : ¬2 ≤ text.length) :
    strToSquare text = .error .indexOutOfRange := by
  cases text with
  | nil => rfl
  | cons c text =>
    cases text with
    | nil => rfl
    | cons d text =>
      exfalso
      simp at hlength

theorem wp_initEnPassant (hQ : ∀ b', b'.bitboard = b.bitboard → (Q b' ↔ q)) :
    Wp Fault.IsCheck (b.initEnPassant text) Q ↔
      (text = ['-'] ∨ 2 ≤ text.length) ∧ (text = ['-'] ∨ NamesSquare text → q) := by
  rw [initEnPassant]
  by_cases hdash : text = ['-']
  · simp only [hdash, beq_self_eq_true, if_true, true_or, true_and, true_imp_iff]
    exact hQ _ rfl
  · have hcond : (text == ['-']) = false := by simpa using hdash
    simp only [hcond, hdash, false_or, Bool.false_eq_true, if_false]
    by_cases hlength : 2 ≤ text.length
    · rw [and_iff_right hlength]
      by_cases hname : NamesSquare text
      · obtain ⟨sq, hsq⟩ := strToSquare_of_namesSquare hname
        rw [hsq, ok_bind, pure_eq_ok, wp_ok, imp_iff_right hname]
        exact hQ _ rfl
      · obtain ⟨message, hmessage⟩ := strToSquare_of_not_namesSquare hlength hname
        rw [hmessage]
        exact iff_of_true trivial fun h => absurd h hname
    · rw [strToSquare_of_length_lt hlength]
      exact iff_of_false id fun h => hlength h.1

end Stages

theorem disjoint_of_bitboard_eq {b' : Board} (h : b'.bitboard = b.bitboard) :
    b'.Disjoint ↔ b.Disjoint := by
  rw [Board.Disjoint, Board.Disjoint, h]

/-- The conditions in the order in which the constructor comes to them. -/
theorem readable_iff (fields : List StringView) :
    Readable fields ↔
      0 < fields.length ∧ CursorOnBoard (fields.getD 0 []) ∧
        (PassesCheck fields 0 → 1 < fields.length ∧
          (PassesCheck fields 1 → 2 < fields.length ∧ 3 < fields.length ∧
            (fields.getD 3 [] = ['-'] ∨ 2 ≤ (fields.getD 3 []).length) ∧
            (PassesCheck fields 3 → 4 < fields.length ∧
              (PassesCheck fields 4 → 5 < fields.length ∧
                (PassesCheck fields 5 → NoClash (fields.getD 0 [])))))) := by
  have hnext : ∀ k, (∀ j < k, PassesCheck fields j) → PassesCheck fields k →
      ∀ j < k + 1, PassesCheck fields j := by
    intro k hall hk
    exact Nat.forall_lt_succ_right.mpr ⟨hall, hk⟩
  constructor
  · intro h
    have hall₀ : ∀ j < 0, PassesCheck fields j := by
      intro j hj
      exact absurd hj (Nat.not_lt_zero j)
    refine ⟨h.present 0 (by decide) hall₀, h.placement, ?_⟩
    intro h₀
    have hall₁ := hnext 0 hall₀ h₀
    refine ⟨h.present 1 (by decide) hall₁, ?_⟩
    intro h₁
    have hall₂ := hnext 1 hall₁ h₁
    have hall₃ := hnext 2 hall₂ trivial
    refine ⟨h.present 2 (by decide) hall₂, h.present 3 (by decide) hall₃,
      h.enPassant hall₃, ?_⟩
    intro h₃
    have hall₄ := hnext 3 hall₃ h₃
    refine ⟨h.present 4 (by decide) hall₄, ?_⟩
    intro h₄
    have hall₅ := hnext 4 hall₄ h₄
    refine ⟨h.present 5 (by decide) hall₅, ?_⟩
    intro h₅
    exact h.noClash (hnext 5 hall₅ h₅)
  · intro h
    obtain ⟨hlength, hcursor, h⟩ := h
    refine ⟨hcursor, ?_, ?_, ?_⟩
    · intro i hi hall
      interval_cases i
      · exact hlength
      · exact (h (hall 0 (by decide))).1
      · exact ((h (hall 0 (by decide))).2 (hall 1 (by decide))).1
      · exact ((h (hall 0 (by decide))).2 (hall 1 (by decide))).2.1
      · exact (((h (hall 0 (by decide))).2 (hall 1 (by decide))).2.2.2 (hall 3 (by decide))).1
      · exact ((((h (hall 0 (by decide))).2 (hall 1 (by decide))).2.2.2
          (hall 3 (by decide))).2 (hall 4 (by decide))).1
    · intro hall
      exact ((h (hall 0 (by decide))).2 (hall 1 (by decide))).2.2.1
    · intro hall
      exact ((((h (hall 0 (by decide))).2 (hall 1 (by decide))).2.2.2
        (hall 3 (by decide))).2 (hall 4 (by decide))).2 (hall 5 (by decide))

/-- The constructor stops at a check or builds a board with disjoint bitboards exactly on the
readable texts. -/
theorem wp_ofFen (fen : StringView) :
    Wp Fault.IsCheck (ofFen fen) Board.Disjoint ↔ Readable (fen.splitOn ' ') := by
  rw [readable_iff, ofFen]
  simp only [wp_bind, wp_fieldAt, wp_rawCheck, pure_eq_ok, wp_ok]
  apply and_congr_right
  intro _
  apply wp_initBitboards
  intro hcursor hknown b₁ hb₁
  apply and_congr_right
  intro _
  apply wp_initIsWhitesMove
  intro b₂ hb₂
  apply and_congr_right
  intro _
  apply and_congr_right
  intro _
  apply wp_initEnPassant
  intro b₃ hb₃
  apply and_congr_right
  intro _
  apply imp_congr_right
  intro _
  apply and_congr_right
  intro _
  apply imp_congr_right
  intro _
  rw [← hb₁.disjoint_iff hcursor hknown]
  apply disjoint_of_bitboard_eq
  exact hb₃.trans hb₂

end Board

end PawnGrabber
