import PawnGrabber.Model.Fen
import PawnGrabber.Analysis.BoardUpdates

/-!
# Spelling a board in FEN

A `FenSpelling` of a board is a choice of how to write it: which runs of empty squares each
rank is cut into, and in which order the castling letters stand. Reading any spelling gives
the board back. The placement field is read with a cursor; `Placed` says that the squares
the cursor has passed hold their pieces and the others are still empty.
-/

set_option autoImplicit false

namespace PawnGrabber

open ExceptFold Rules

/-! ## What a spelling is -/

/-- A character of a rank: a piece, or a run of one to eight empty squares. -/
inductive RankToken
  | piece (x : Color × Piece)
  | gap (run : Fin 8)

def pieceLetter : Color × Piece → Char
  | (.white, .pawn) => 'P'
  | (.white, .rook) => 'R'
  | (.white, .knight) => 'N'
  | (.white, .bishop) => 'B'
  | (.white, .queen) => 'Q'
  | (.white, .king) => 'K'
  | (.black, .pawn) => 'p'
  | (.black, .rook) => 'r'
  | (.black, .knight) => 'n'
  | (.black, .bishop) => 'b'
  | (.black, .queen) => 'q'
  | (.black, .king) => 'k'

def castlingLetter : Color × Wing → Char
  | (.white, .kingside) => 'K'
  | (.white, .queenside) => 'Q'
  | (.black, .kingside) => 'k'
  | (.black, .queenside) => 'q'

namespace RankToken

/-- The squares the character stands for, from west to east; `gap n` is a run of `n + 1`. -/
def squares : RankToken → List (Option (Color × Piece))
  | piece x => [some x]
  | gap run => List.replicate (run + 1) none

def char : RankToken → Char
  | piece x => pieceLetter x
  | gap run => Char.ofNat (49 + run)

end RankToken

/-- The occupants of a rank from the a file to the h file. -/
def rankContents (mb : Mailbox) (r : Fin 8) : List (Option (Color × Piece)) :=
  (List.finRange 8).map fun f => mb ⟨f, r⟩

/-- A way to write the board in FEN. -/
structure FenSpelling (b : Board) where
  row : Fin 8 → List RankToken
  row_spells : ∀ r, (row r).flatMap RankToken.squares = rankContents b.mailbox r
  castling : List (Color × Wing)
  castling_nodup : castling.Nodup
  castling_spells : ∀ c w, (c, w) ∈ castling ↔ b.rights c w = true

namespace FenSpelling

variable {b : Board} (s : FenSpelling b)

/-- The spelling that writes every empty square as a run of its own. -/
def plain (b : Board) : FenSpelling b where
  row r := (rankContents b.mailbox r).map fun x => x.elim (.gap ⟨0, Nat.zero_lt_succ 7⟩) .piece
  row_spells r := by
    rw [List.flatMap_map]
    have hsquares : ∀ x : Option (Color × Piece),
        (x.elim (.gap ⟨0, Nat.zero_lt_succ 7⟩) .piece : RankToken).squares = [x] := by
      rintro (_ | _) <;> rfl
    simp only [hsquares, List.flatMap_singleton']
  castling := [(.white, .kingside), (.white, .queenside), (.black, .kingside),
    (.black, .queenside)].filter fun x => b.rights x.1 x.2
  castling_nodup := List.Nodup.filter _ (by decide)
  castling_spells c w := by
    cases c <;> cases w <;> simp

/-- The ranks from 8 to 1, separated by slashes. -/
def placement : StringView :=
  ['/'].intercalate ((List.finRange 8).reverse.map fun r => (s.row r).map RankToken.char)

def sideField (b : Board) : StringView := if b.isWhitesMove then ['w'] else ['b']

def castlingField : StringView :=
  if s.castling = [] then ['-'] else s.castling.map castlingLetter

def enPassantField (b : Board) : StringView :=
  match b.position.enPassant with
  | none => ['-']
  | some t => t.name

/-- The six fields of the string; the counters are in decimal. -/
def fields : List StringView :=
  [s.placement, sideField b, s.castlingField, enPassantField b,
    Nat.toDigits 10 b.fiftyMoveClock.toInt.toNat, Nat.toDigits 10 b.numMoves.toInt.toNat]

def fen : StringView := [' '].intercalate s.fields

end FenSpelling

/-- The symbol of an occupant; a space for an empty square. -/
def unicodeSymbol : Option (Color × Piece) → String
  | some (.white, .pawn) => "♙"
  | some (.white, .rook) => "♖"
  | some (.white, .knight) => "♘"
  | some (.white, .bishop) => "♗"
  | some (.white, .queen) => "♕"
  | some (.white, .king) => "♔"
  | some (.black, .pawn) => "♟"
  | some (.black, .rook) => "♜"
  | some (.black, .knight) => "♞"
  | some (.black, .bishop) => "♝"
  | some (.black, .queen) => "♛"
  | some (.black, .king) => "♚"
  | none => " "

namespace Board

variable {b b' : Board} {mb : Mailbox}

/-! ## One character of the placement field -/

/-- The letters of the pieces are read back and are neither digits nor separators. -/
theorem fenPiece_pieceLetter (x : Color × Piece) :
    fenPiece (pieceLetter x) = some x ∧ ¬('1' ≤ pieceLetter x ∧ pieceLetter x ≤ '8') ∧
      pieceLetter x ≠ '/' := by
  revert x
  decide

theorem gap_char (run : Fin 8) :
    ('1' ≤ Char.ofNat (49 + run) ∧ Char.ofNat (49 + run) ≤ '8') ∧
      (Char.ofNat (49 + run)).toNat = 49 + run := by
  revert run
  decide

/-- At a square of the board the mask is that square. -/
theorem shiftLsb_cursor (s : Square) :
    shiftLsb ((s.rank : ℤ) * boardSize + boardSize - s.file - 1) = .ok s.bit :=
  coordinatesToSquare_eq s

theorem initBitboardsStep_piece (s : Square) (x : Color × Piece) :
    initBitboardsStep ⟨b, s.rank, s.file⟩ (pieceLetter x) =
      .ok ⟨b.setBitboard x (b.bitboard x ||| s.bit), s.rank, s.file + 1⟩ := by
  obtain ⟨hpiece, hdigit, hslash⟩ := fenPiece_pieceLetter x
  rw [initBitboardsStep]
  simp only [shiftLsb_cursor, ok_bind, if_neg hdigit, if_neg hslash, hpiece]
  rfl

theorem initBitboardsStep_gap (s : Square) (run : Fin 8) :
    initBitboardsStep ⟨b, s.rank, s.file⟩ (Char.ofNat (49 + run)) =
      .ok ⟨b, s.rank, s.file + (run + 1)⟩ := by
  obtain ⟨hdigit, hvalue⟩ := gap_char run
  rw [initBitboardsStep]
  simp only [shiftLsb_cursor, ok_bind, if_pos hdigit, hvalue, pure_eq_ok]
  congr 2
  push_cast
  have : (('0'.toNat : ℕ) : ℤ) = 48 := rfl
  omega

/-- At a separator the cursor stands behind the h file; the mask is computed all the same,
and as there is a rank left its shift is in range. -/
theorem initBitboardsStep_separator {r : ℕ} (hr : r + 1 < 8) :
    initBitboardsStep ⟨b, ((r + 1 : ℕ) : ℤ), 8⟩ '/' = .ok ⟨b, r, 0⟩ := by
  have hshift : shiftLsb (((r + 1 : ℕ) : ℤ) * boardSize + boardSize - 8 - 1) =
      .ok (lsbBitboard <<< (((r + 1 : ℕ) : ℤ) * boardSize + boardSize - 8 - 1).toNat) := by
    rw [shiftLsb, if_pos]
    · rfl
    · unfold boardSize
      omega
  rw [initBitboardsStep]
  simp only [hshift, ok_bind]
  rw [if_neg (by decide), if_pos trivial, pure_eq_ok]
  congr 2
  push_cast
  omega

/-! ## The cursor -/

/-- The squares above rank `r`, and those of rank `r` before file `f`, hold what they should;
the others are still empty. -/
structure Placed (mb : Mailbox) (r f : ℕ) (b : Board) : Prop where
  disjoint : b.Disjoint
  mailbox : ∀ s : Square, b.mailbox s =
    if r < s.rank ∨ (s.rank : ℕ) = r ∧ (s.file : ℕ) < f then mb s else none

/-- Empty squares are passed without a write. -/
theorem Placed.skip {r f f' : ℕ} (h : Placed mb r f b) (hf : f ≤ f')
    (hempty : ∀ s : Square, (s.rank : ℕ) = r → f ≤ s.file → (s.file : ℕ) < f' → mb s = none) :
    Placed mb r f' b := by
  refine ⟨h.disjoint, ?_⟩
  intro s
  rw [h.mailbox]
  split_ifs with h₁ h₂ h₂
  · rfl
  · omega
  · exact (hempty s (by omega) (by omega) (by omega)).symm
  · rfl

/-- A piece is written onto the square at the cursor. -/
theorem Placed.write {s : Square} {x : Color × Piece} (h : Placed mb s.rank s.file b)
    (hx : mb s = some x) :
    Placed mb s.rank (s.file + 1) (b.setBitboard x (b.bitboard x ||| s.bit)) := by
  have hempty : b.mailbox s = none := by
    rw [h.mailbox, if_neg]
    omega
  obtain ⟨hdisj, hmailbox⟩ := setBitboard_or_spec h.disjoint hempty x
  refine ⟨hdisj, ?_⟩
  intro t
  rw [hmailbox, Mailbox.put_apply, h.mailbox]
  by_cases ht : t = s
  · subst ht
    rw [if_pos rfl, if_pos (Or.inr ⟨rfl, Nat.lt_succ_self _⟩), hx]
  · rw [if_neg ht]
    have hne : ¬((t.rank : ℕ) = s.rank ∧ (t.file : ℕ) = s.file) := by
      rw [Square.ext_iff, Fin.ext_iff, Fin.ext_iff] at ht
      tauto
    congr 1
    rw [eq_iff_iff]
    omega

theorem length_rankContents (r : Fin 8) : (rankContents mb r).length = 8 := by
  rw [rankContents, List.length_map, List.length_finRange]

/-- What a spelled rank says about its first token: it fits on the rank, it says what stands on its
squares, and the rest of the tokens spells the rest of the rank. -/
theorem spells_cons {r : Fin 8} {token : RankToken} {tokens : List RankToken} {f : ℕ} (hf : f ≤ 8)
    (hspell : (token :: tokens).flatMap RankToken.squares = (rankContents mb r).drop f) :
    f + token.squares.length ≤ 8 ∧
      (∀ g : Fin 8, f ≤ g → (g : ℕ) < f + token.squares.length →
        token.squares[(g : ℕ) - f]? = some (mb ⟨g, r⟩)) ∧
      tokens.flatMap RankToken.squares = (rankContents mb r).drop (f + token.squares.length) := by
  rw [List.flatMap_cons] at hspell
  have hlength := congrArg List.length hspell
  rw [List.length_append, List.length_drop, length_rankContents] at hlength
  refine ⟨by omega, ?_, ?_⟩
  · intro g hle hlt
    have hat := congrArg (fun l => l[(g : ℕ) - f]?) hspell
    simp only [List.getElem?_drop] at hat
    rw [List.getElem?_append_left (by omega), Nat.add_sub_cancel' hle] at hat
    rw [hat]
    simp [rankContents]
  · have htail := congrArg (List.drop token.squares.length) hspell
    rwa [List.drop_left, List.drop_drop] at htail

/-- A rank's characters carry the cursor from file `f` to the end of the rank. -/
theorem foldlM_row {r : Fin 8} {tokens : List RankToken} {f : ℕ} (hf : f ≤ 8)
    (hspell : tokens.flatMap RankToken.squares = (rankContents mb r).drop f)
    (h : Placed mb r f b) :
    ∃ b', (tokens.map RankToken.char).foldlM initBitboardsStep ⟨b, ((r : ℕ) : ℤ), (f : ℤ)⟩ =
      .ok ⟨b', ((r : ℕ) : ℤ), 8⟩ ∧ Placed mb r 8 b' := by
  induction tokens generalizing f b with
  | nil =>
    have hend := List.drop_eq_nil_iff.mp hspell.symm
    rw [length_rankContents] at hend
    have hf8 : f = 8 := le_antisymm hf hend
    subst hf8
    exact ⟨b, rfl, h⟩
  | cons token tokens ih =>
    obtain ⟨hfits, hat, hrest⟩ := spells_cons hf hspell
    cases token with
    | piece x =>
      have hx : mb ⟨⟨f, hfits⟩, r⟩ = some x := by
        have hfirst := hat ⟨f, hfits⟩ le_rfl (Nat.lt_succ_self f)
        rw [Nat.sub_self] at hfirst
        exact (Option.some.inj hfirst).symm
      obtain ⟨b', hfold, hplaced⟩ := ih hfits hrest (h.write (s := ⟨⟨f, hfits⟩, r⟩) hx)
      refine ⟨b', ?_, hplaced⟩
      have hstep := initBitboardsStep_piece (b := b) ⟨⟨f, hfits⟩, r⟩ x
      rw [List.map_cons, List.foldlM_cons, RankToken.char, hstep, ok_bind]
      exact_mod_cast hfold
    | gap run =>
      rw [RankToken.squares, List.length_replicate] at hfits hat hrest
      have hlt : f < 8 := by omega
      have hempty : ∀ s : Square, (s.rank : ℕ) = r → f ≤ s.file →
          (s.file : ℕ) < f + (run + 1) → mb s = none := by
        intro s hrank hle hfile
        have hnone := hat s.file hle hfile
        rw [List.getElem?_replicate, if_pos (by omega), Option.some.injEq] at hnone
        rw [hnone]
        congr 1
        exact Square.ext rfl (Fin.ext hrank)
      obtain ⟨b', hfold, hplaced⟩ := ih hfits hrest (h.skip (by omega) hempty)
      refine ⟨b', ?_, hplaced⟩
      have hstep := initBitboardsStep_gap (b := b) ⟨⟨f, hlt⟩, r⟩ run
      rw [List.map_cons, List.foldlM_cons, RankToken.char, hstep, ok_bind]
      exact_mod_cast hfold

/-- The texts of the ranks from `r` down, separated by slashes. -/
def joinDown (text : ℕ → StringView) : ℕ → StringView
  | 0 => text 0
  | r + 1 => text (r + 1) ++ '/' :: joinDown text r

/-- The ranks from `r` down carry the cursor to the end of the board. -/
theorem foldlM_joinDown {row : Fin 8 → List RankToken}
    (hrow : ∀ r, (row r).flatMap RankToken.squares = rankContents mb r) {r : ℕ} (hr : r < 8)
    (h : Placed mb r 0 b) :
    ∃ b', (joinDown (fun r => (row (Fin.ofNat 8 r)).map RankToken.char) r).foldlM
      initBitboardsStep ⟨b, (r : ℤ), 0⟩ = .ok ⟨b', 0, 8⟩ ∧ Placed mb 0 8 b' := by
  induction r generalizing b with
  | zero =>
    have hspell : (row (Fin.ofNat 8 0)).flatMap RankToken.squares =
        (rankContents mb (Fin.ofNat 8 0)).drop 0 := hrow _
    exact foldlM_row (by omega) hspell h
  | succ r ih =>
    have hrank : ((Fin.ofNat 8 (r + 1) : Fin 8) : ℕ) = r + 1 := Nat.mod_eq_of_lt hr
    have hspell : (row (Fin.ofNat 8 (r + 1))).flatMap RankToken.squares =
        (rankContents mb (Fin.ofNat 8 (r + 1))).drop 0 := hrow _
    obtain ⟨b₁, hfold₁, hplaced₁⟩ := foldlM_row (b := b) (by omega) hspell (by rwa [hrank])
    rw [hrank] at hfold₁ hplaced₁
    -- past the h file of one rank is before the a file of the next
    have hnext : Placed mb r 0 b₁ := by
      refine ⟨hplaced₁.disjoint, ?_⟩
      intro s
      rw [hplaced₁.mailbox]
      congr 1
      rw [eq_iff_iff]
      omega
    obtain ⟨b', hfold, hplaced⟩ := ih (by omega) hnext
    refine ⟨b', ?_, hplaced⟩
    rw [joinDown, List.foldlM_append]
    change (((row (Fin.ofNat 8 (r + 1))).map RankToken.char).foldlM initBitboardsStep
      ⟨b, ((r + 1 : ℕ) : ℤ), ((0 : ℕ) : ℤ)⟩ >>= _) = _
    rw [hfold₁, ok_bind, List.foldlM_cons, initBitboardsStep_separator hr, ok_bind, hfold]

theorem bitboard_zeroAllBitboards (b : Board) (ptr : BitboardPtr) :
    b.zeroAllBitboards.bitboard ptr = 0#64 := by
  rcases ptr with ⟨_ | _, _ | _ | _ | _ | _ | _⟩ <;> rfl

theorem placed_zeroAllBitboards (mb : Mailbox) (b : Board) :
    Placed mb 7 0 b.zeroAllBitboards := by
  constructor
  · intro p q _
    rw [bitboard_zeroAllBitboards, bitboard_zeroAllBitboards]
    rfl
  · intro s
    rw [if_neg (by omega), mailbox_eq_none_iff]
    intro ptr
    rw [bitboard_zeroAllBitboards]
    exact has_zero s

theorem placement_eq_joinDown (s : FenSpelling b) :
    s.placement = joinDown (fun r => (s.row (Fin.ofNat 8 r)).map RankToken.char) 7 := by
  have hranks : (List.finRange 8).reverse = [7, 6, 5, 4, 3, 2, 1, 0].map (Fin.ofNat 8) := by
    decide
  rw [FenSpelling.placement, hranks]
  simp only [joinDown, List.map_cons, List.map_nil, List.intercalate_cons_cons,
    List.intercalate_singleton, List.append_assoc, List.singleton_append]

/-- `init_bitboards` reads any spelling of a placement. -/
theorem initBitboards_spelling (b₀ : Board) (hb : b.Disjoint) (s : FenSpelling b) :
    ∃ b', b₀.initBitboards s.placement = .ok b' ∧ ∀ ptr, b'.bitboard ptr = b.bitboard ptr := by
  obtain ⟨b', hfold, hplaced⟩ :=
    foldlM_joinDown s.row_spells (by decide) (placed_zeroAllBitboards b.mailbox b₀)
  refine ⟨b', ?_, bitboard_eq_of_mailbox_eq hplaced.disjoint hb ?_⟩
  · have hrank : ((boardSize : ℕ) : ℤ) - 1 = ((7 : ℕ) : ℤ) := rfl
    rw [initBitboards, placement_eq_joinDown, hrank, hfold]
    rfl
  · funext t
    rw [hplaced.mailbox, if_pos]
    omega

end Board

/-! ## The counters -/

/-- A decimal digit has its value and is no white space. -/
theorem asciiToInt_of_isDigit {c : Char} (hc : c.isDigit = true) :
    asciiToInt c = some (((c.toNat - '0'.toNat : ℕ) : ℤ)) ∧ asciiIsspace c = false ∧
      c ≠ '-' ∧ c ≠ '+' ∧ c ≠ ' ' := by
  have hrange : 48 ≤ c.toNat ∧ c.toNat ≤ 57 := Char.isDigit_iff_toNat.mp hc
  have hzero : '0'.toNat = 48 := rfl
  refine ⟨?_, ?_, ?_, ?_, ?_⟩
  · have hle : '0' ≤ c ∧ c ≤ '9' :=
      ⟨UInt32.le_iff_toNat_le.mpr hrange.1, UInt32.le_iff_toNat_le.mpr hrange.2⟩
    rw [asciiToInt, if_pos hle, hzero, Nat.cast_sub hrange.1]
    rfl
  · have hne : c ≠ ' ' := by
      rintro rfl
      exact absurd hrange.1 (by decide)
    have hhigh : ¬c.toNat ≤ 13 := by omega
    simp [asciiIsspace, hne, hhigh]
  all_goals
    rintro rfl
    exact absurd hrange (by decide)

theorem le_ofDigitChars (text : List Char) (value : ℕ) :
    value ≤ Nat.ofDigitChars 10 text value := by
  rw [Nat.ofDigitChars_eq_ofDigitChars_zero]
  exact (Nat.le_mul_of_pos_left value (by positivity)).trans (Nat.le_add_right _ _)

/-- The digit loop returns the value of the digits as long as it is an `int`. -/
theorem safeParsePositiveInt_eq {text : StringView} (hdigits : ∀ c ∈ text, c.isDigit = true)
    (value : ℕ) (hle : Nat.ofDigitChars 10 text value ≤ 2147483647) :
    safeParsePositiveInt text value = some ((Nat.ofDigitChars 10 text value : ℕ) : ℤ) := by
  induction text generalizing value with
  | nil => rw [Nat.ofDigitChars_nil, safeParsePositiveInt]
  | cons c text ih =>
    obtain ⟨hc, htext⟩ := List.forall_mem_cons.mp hdigits
    rw [Nat.ofDigitChars_cons] at hle ⊢
    have hnext := (le_ofDigitChars text _).trans hle
    rw [safeParsePositiveInt, (asciiToInt_of_isDigit hc).1]
    simp only
    rw [if_neg (by omega), if_neg (by omega), ← ih htext _ hle]
    congr 1
    push_cast
    omega

/-- Without white space there is nothing to strip. -/
theorem stripAsciiWhitespace_eq {text : StringView}
    (h : ∀ c ∈ text, asciiIsspace c = false) : stripAsciiWhitespace text = text := by
  have hdrop : ∀ l : StringView, (∀ c ∈ l, asciiIsspace c = false) →
      l.dropWhile asciiIsspace = l := by
    intro l hl
    cases l with
    | nil => rfl
    | cons c l => rw [List.dropWhile_cons_of_neg (by simp [hl c List.mem_cons_self])]
  have hreverse : ∀ c ∈ text.reverse, asciiIsspace c = false :=
    fun c hc => h c (List.mem_reverse.mp hc)
  rw [stripAsciiWhitespace, hdrop text h, hdrop text.reverse hreverse, List.reverse_reverse]

theorem isDigit_of_mem_toDigits {n : ℕ} {c : Char} (hc : c ∈ Nat.toDigits 10 n) :
    c.isDigit = true := Nat.isDigit_of_mem_toDigits (by decide) (by decide) hc

/-- `SimpleAtoi` reads back the decimal expansion of every non-negative `int`. -/
theorem simpleAtoi_toDigits {n : ℕ} (hn : n ≤ 2147483647) :
    simpleAtoi (Nat.toDigits 10 n) = some (n : ℤ) := by
  have hparse : safeParsePositiveInt (Nat.toDigits 10 n) 0 = some (n : ℤ) := by
    have hle : Nat.ofDigitChars 10 (Nat.toDigits 10 n) 0 ≤ 2147483647 := by
      rwa [Nat.ofDigitChars_ten_toDigits]
    have h := safeParsePositiveInt_eq (fun c hc => isDigit_of_mem_toDigits hc) 0 hle
    rwa [Nat.ofDigitChars_ten_toDigits] at h
  rw [simpleAtoi, stripAsciiWhitespace_eq
    fun c hc => (asciiToInt_of_isDigit (isDigit_of_mem_toDigits hc)).2.1]
  cases hdigits : Nat.toDigits 10 n with
  | nil => exact absurd hdigits Nat.toDigits_ne_nil
  | cons c digits =>
    obtain ⟨-, -, hminus, hplus, -⟩ :=
      asciiToInt_of_isDigit (isDigit_of_mem_toDigits (hdigits ▸ List.mem_cons_self))
    simp only [if_neg hminus, if_neg hplus]
    rw [← hdigits, hparse]

/-! ## The fields -/

namespace FenSpelling

variable {b : Board} (s : FenSpelling b)

theorem space_not_mem_char (t : RankToken) : t.char ≠ ' ' := by
  cases t with
  | piece x =>
    revert x
    decide
  | gap run =>
    revert run
    decide

theorem space_not_mem_joinDown {text : ℕ → StringView} (h : ∀ r, ' ' ∉ text r) (r : ℕ) :
    ' ' ∉ Board.joinDown text r := by
  induction r with
  | zero => exact h 0
  | succ r ih =>
    rw [Board.joinDown, List.mem_append, List.mem_cons]
    have := h (r + 1)
    have hslash : ' ' ≠ '/' := by decide
    tauto

theorem space_not_mem_castlingField : ' ' ∉ s.castlingField := by
  rw [castlingField]
  split_ifs
  · decide
  · intro hmem
    obtain ⟨x, -, hx⟩ := List.mem_map.mp hmem
    revert hx
    revert x
    decide

theorem space_not_mem_enPassantField : ' ' ∉ enPassantField b := by
  rw [enPassantField]
  cases b.position.enPassant with
  | none => decide
  | some t =>
    revert t
    rw [Square.forall_iff]
    decide

/-- No field contains a space, so splitting at spaces gives the fields. -/
theorem splitOn_fen : s.fen.splitOn ' ' = s.fields := by
  refine List.splitOn_intercalate ' ' ?_ (List.cons_ne_nil _ _)
  intro l hl
  simp only [fields, List.mem_cons, List.not_mem_nil, or_false] at hl
  have hdigits : ∀ n, ' ' ∉ Nat.toDigits 10 n := fun n hmem =>
    (asciiToInt_of_isDigit (isDigit_of_mem_toDigits hmem)).2.2.2.2 rfl
  rcases hl with rfl | rfl | rfl | rfl | rfl | rfl
  · rw [Board.placement_eq_joinDown]
    refine space_not_mem_joinDown ?_ 7
    intro r hmem
    obtain ⟨t, -, ht⟩ := List.mem_map.mp hmem
    exact space_not_mem_char t ht
  · rw [sideField]
    split_ifs <;> decide
  · exact s.space_not_mem_castlingField
  · exact space_not_mem_enPassantField
  · exact hdigits _
  · exact hdigits _

/-- A castling letter is in the field exactly if its right is held. -/
theorem contains_castlingField (c : Color) (w : Wing) :
    s.castlingField.contains (castlingLetter (c, w)) = b.rights c w := by
  rw [Bool.eq_iff_iff, List.contains_iff_mem, ← s.castling_spells, castlingField]
  have hdash : ∀ x, castlingLetter x ≠ '-' := by
    intro x
    revert x
    decide
  have hinj : Function.Injective castlingLetter := by
    intro x y
    revert x y
    decide
  split_ifs with hnil
  · rw [hnil]
    simp [hdash]
  · exact List.mem_map_of_injective hinj

end FenSpelling

namespace Board

variable {b : Board}

theorem initIsWhitesMove_sideField (b₀ : Board) :
    b₀.initIsWhitesMove (FenSpelling.sideField b) =
      .ok { b₀ with isWhitesMove := b.isWhitesMove } := by
  rw [FenSpelling.sideField]
  cases b.isWhitesMove <;> rfl

theorem initCastlingRights_castlingField (s : FenSpelling b) (b₀ : Board) :
    b₀.initCastlingRights s.castlingField =
      { b₀ with
        whiteHasRightToCastleKingside := b.whiteHasRightToCastleKingside
        whiteHasRightToCastleQueenside := b.whiteHasRightToCastleQueenside
        blackHasRightToCastleKingside := b.blackHasRightToCastleKingside
        blackHasRightToCastleQueenside := b.blackHasRightToCastleQueenside } := by
  have h := s.contains_castlingField
  rw [initCastlingRights, show s.castlingField.contains 'K' = b.whiteHasRightToCastleKingside
      from h .white .kingside,
    show s.castlingField.contains 'Q' = b.whiteHasRightToCastleQueenside from h .white .queenside,
    show s.castlingField.contains 'k' = b.blackHasRightToCastleKingside from h .black .kingside,
    show s.castlingField.contains 'q' = b.blackHasRightToCastleQueenside from h .black .queenside]

theorem initEnPassant_enPassantField
    (hep : ∀ sq ∈ b.enPassantSquare, isSquare sq = true) (b₀ : Board) :
    b₀.initEnPassant (FenSpelling.enPassantField b) =
      .ok { b₀ with enPassantSquare := b.enPassantSquare } := by
  rw [enPassantSquare_eq hep, FenSpelling.enPassantField]
  cases b.position.enPassant with
  | none => rfl
  | some t =>
    have hdash : (t.name == ['-']) = false := by
      simp [Square.name]
    simp only [initEnPassant, hdash, strToSquare_name]
    rfl

/-- Reading a spelling of `b` gives `b`. -/
theorem ofFen_spelling (hb : b.Disjoint) (hep : ∀ sq ∈ b.enPassantSquare, isSquare sq = true)
    (hfifty : 0 ≤ b.fiftyMoveClock) (hnum : 0 ≤ b.numMoves) (s : FenSpelling b) :
    ofFen s.fen = .ok b := by
  obtain ⟨b₁, hinit, hbits⟩ := initBitboards_spelling uninitializedBoard hb s
  have hcounter : ∀ counter : Int32, 0 ≤ counter →
      simpleAtoi (Nat.toDigits 10 counter.toInt.toNat) = some counter.toInt := by
    intro counter hnonneg
    have hlt := counter.toInt_lt
    rw [Int32.le_iff_toInt_le, Int32.toInt_zero] at hnonneg
    rw [simpleAtoi_toDigits (by omega), Int.toNat_of_nonneg hnonneg]
  rw [ofFen, s.splitOn_fen]
  simp only [FenSpelling.fields, fieldAt, List.getElem?_cons_zero, List.getElem?_cons_succ,
    pure_eq_ok, ok_bind, hinit, initIsWhitesMove_sideField, initCastlingRights_castlingField,
    initEnPassant_enPassantField hep, hcounter _ hfifty, hcounter _ hnum, rawCheck,
    Option.isSome_some, if_true, Option.getD_some, Int32.ofInt_toInt]
  refine congrArg Except.ok (ext_of_status ?_ rfl)
  intro ptr
  rw [← hbits ptr]
  rcases ptr with ⟨_ | _, _ | _ | _ | _ | _ | _⟩ <;> rfl

/-- The symbol shown at a square is its occupant's. -/
theorem occupiersUnicodeSymbol_eq (hb : b.Disjoint) (s : Square) :
    b.occupiersUnicodeSymbol s.file s.rank = .ok (unicodeSymbol (b.mailbox s)) := by
  have hhas : ∀ ptr, toBool (s.bit &&& b.bitboard ptr) = decide (b.mailbox s = some ptr) := by
    intro ptr
    rw [toBool_bit_and, hb.has_bitboard]
  rw [occupiersUnicodeSymbol, coordinatesToSquare_eq, ok_bind]
  simp only [members_eq b, hhas]
  rcases b.mailbox s with _ | ⟨_ | _, _ | _ | _ | _ | _ | _⟩ <;> rfl

end Board

end PawnGrabber
