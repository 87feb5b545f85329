import PawnGrabber.Model.Board

/-!
# Reading a FEN string

The constructors of `Board`, the `init_*` methods they call and
`occupiers_unicode_symbol`. `absl::StrSplit` on one space is `List.splitOn`, and
`absl::SimpleAtoi` into an `int` follows `safe_strto32_base` of the vendored
`numbers.cc`: white space around the number, an optional sign, decimal digits and an
overflow test at every digit.
-/

set_option autoImplicit false

namespace PawnGrabber

/-- `ascii_isspace`. -/
def asciiIsspace (c : Char) : Bool := c == ' ' || (9 ≤ c.toNat && c.toNat ≤ 13)

/-- The value of a decimal digit. -/
def asciiToInt (c : Char) : Option ℤ :=
  if '0' ≤ c ∧ c ≤ '9' then some ((c.toNat : ℤ) - 48) else none

/-- The digit loop of `safe_parse_positive_int<int32_t>` in base 10. -/
def safeParsePositiveInt : StringView → ℤ → Option ℤ
  | [], value => some value
  | c :: text, value =>
    match asciiToInt c with
    | none => none
    | some digit =>
      if value > 214748364 then none
      else if value * 10 > 2147483647 - digit then none
      else safeParsePositiveInt text (value * 10 + digit)

/-- The digit loop of `safe_parse_negative_int<int32_t>` in base 10. -/
def safeParseNegativeInt : StringView → ℤ → Option ℤ
  | [], value => some value
  | c :: text, value =>
    match asciiToInt c with
    | none => none
    | some digit =>
      if value < -214748364 then none
      else if value * 10 < -2147483648 + digit then none
      else safeParseNegativeInt text (value * 10 - digit)

/-- The two ends of `safe_parse_sign_and_base` that consume white space. -/
def stripAsciiWhitespace (text : StringView) : StringView :=
  ((text.dropWhile asciiIsspace).reverse.dropWhile asciiIsspace).reverse

/-- `absl::SimpleAtoi(text, &int)`: the parsed value, or `none` where it returns false. -/
def simpleAtoi (text : StringView) : Option ℤ :=
  match stripAsciiWhitespace text with
  | [] => none
  | c :: digits =>
    if c = '-' then if digits.isEmpty then none else safeParseNegativeInt digits 0
    else if c = '+' then if digits.isEmpty then none else safeParsePositiveInt digits 0
    else safeParsePositiveInt (c :: digits) 0

/-- `view[i]` on the vector of fields, defined inside it only. -/
def fieldAt (fields : List StringView) (i : ℕ) : Checked StringView :=
  match fields[i]? with
  | some field => pure field
  | none => throw .indexOutOfRange

/-- A board before its constructor has assigned any field. -/
def uninitializedBoard : Board :=
  { whitePawns := 0, whiteRooks := 0, whiteKnights := 0, whiteBishops := 0, whiteQueens := 0,
    whiteKing := 0, blackPawns := 0, blackRooks := 0, blackKnights := 0, blackBishops := 0,
    blackQueens := 0, blackKing := 0, isWhitesMove := false, enPassantSquare := none,
    whiteHasRightToCastleKingside := false, whiteHasRightToCastleQueenside := false,
    blackHasRightToCastleKingside := false, blackHasRightToCastleQueenside := false,
    fiftyMoveClock := 0, numMoves := 0 }

namespace Board

def zeroAllBitboards (b : Board) : Board :=
  { b with
    whitePawns := 0, whiteRooks := 0, whiteKnights := 0, whiteBishops := 0, whiteQueens := 0,
    whiteKing := 0, blackPawns := 0, blackRooks := 0, blackKnights := 0, blackBishops := 0,
    blackQueens := 0, blackKing := 0 }

/-- The loop state of `init_bitboards`: the board and the cursor. -/
structure FenCursor where
  board : Board
  rank : ℤ
  file : ℤ

/-- The twelve piece letters of the `switch`, with the bitboard each one writes to. -/
def fenPiece (c : Char) : Option BitboardPtr :=
  if c = 'P' then some (.white, .pawn)
  else if c = 'R' then some (.white, .rook)
  else if c = 'N' then some (.white, .knight)
  else if c = 'B' then some (.white, .bishop)
  else if c = 'Q' then some (.white, .queen)
  else if c = 'K' then some (.white, .king)
  else if c = 'p' then some (.black, .pawn)
  else if c = 'r' then some (.black, .rook)
  else if c = 'n' then some (.black, .knight)
  else if c = 'b' then some (.black, .bishop)
  else if c = 'q' then some (.black, .queen)
  else if c = 'k' then some (.black, .king)
  else none

/-- One character of the placement field. The mask is computed before the `switch`, for
digits and separators too. -/
def initBitboardsStep (cursor : FenCursor) (c : Char) : Checked FenCursor := do
  let ⟨b, rank, file⟩ := cursor
  let squareMask ← shiftLsb (rank * boardSize + boardSize - file - 1)
  if '1' ≤ c ∧ c ≤ '8' then
    -- If the next character is a number, skip that many files.
    pure ⟨b, rank, file + ((c.toNat : ℤ) - ('0'.toNat : ℤ))⟩
  else if c = '/' then pure ⟨b, rank - 1, 0⟩
  else
    match fenPiece c with
    | some ptr => pure ⟨b.setBitboard ptr (b.bitboard ptr ||| squareMask), rank, file + 1⟩
    | none => throw .assertFailed

def initBitboards (b : Board) (piecesFen : StringView) : Checked Board := do
  let cursor ← piecesFen.foldlM initBitboardsStep ⟨b.zeroAllBitboards, boardSize - 1, 0⟩
  pure cursor.board

def initIsWhitesMove (b : Board) (sideToMove : StringView) : Checked Board := do
  rawCheck (sideToMove == ['w'] || sideToMove == ['b'])
    "Invalid FEN. Side to move must be either w or b"
  pure (if sideToMove == ['w'] then { b with isWhitesMove := true }
    else if sideToMove == ['b'] then { b with isWhitesMove := false }
    else b)

def initCastlingRights (b : Board) (castlingRightsFen : StringView) : Board :=
  { b with
    whiteHasRightToCastleKingside := castlingRightsFen.contains 'K'
    whiteHasRightToCastleQueenside := castlingRightsFen.contains 'Q'
    blackHasRightToCastleKingside := castlingRightsFen.contains 'k'
    blackHasRightToCastleQueenside := castlingRightsFen.contains 'q' }

def initEnPassant (b : Board) (algebraicSquare : StringView) : Checked Board :=
  if algebraicSquare == ['-'] then pure { b with enPassantSquare := none }
  else do
    let epSquare ← strToSquare algebraicSquare
    pure { b with enPassantSquare := some epSquare }

/-- `Board::Board(fen)`. -/
def ofFen (fen : StringView) : Checked Board := do
  let splitFen := fen.splitOn ' '
  let b ← initBitboards uninitializedBoard (← fieldAt splitFen 0)
  let b ← b.initIsWhitesMove (← fieldAt splitFen 1)
  let b := b.initCastlingRights (← fieldAt splitFen 2)
  let b ← b.initEnPassant (← fieldAt splitFen 3)
  let fiftyMoveClock := simpleAtoi (← fieldAt splitFen 4)
  rawCheck fiftyMoveClock.isSome "FEN invalid: Fifty move clock not convertible to integer."
  let b := { b with fiftyMoveClock := Int32.ofInt (fiftyMoveClock.getD 0) }
  let numMoves := simpleAtoi (← fieldAt splitFen 5)
  rawCheck numMoves.isSome "FEN invalid: Number of moves not convertible to integer."
  pure { b with numMoves := Int32.ofInt (numMoves.getD 0) }

def startFen : StringView :=
  "rnbqkbnr/pppppppp/8/8/8/8/PPPPPPPP/RNBQKBNR w KQkq - 0 1".toList

/-- `Board::Board()`. -/
def start : Checked Board := ofFen startFen

def occupiersUnicodeSymbol (b : Board) (file rank : ℤ) : Checked String := do
  let square ← coordinatesToSquare file rank
  pure (
    if toBool (square &&& b.whitePawns) then "♙"
    else if toBool (square &&& b.whiteRooks) then "♖"
    else if toBool (square &&& b.whiteKnights) then "♘"
    else if toBool (square &&& b.whiteBishops) then "♗"
    else if toBool (square &&& b.whiteQueens) then "♕"
    else if toBool (square &&& b.whiteKing) then "♔"
    else if toBool (square &&& b.blackPawns) then "♟"
    else if toBool (square &&& b.blackRooks) then "♜"
    else if toBool (square &&& b.blackKnights) then "♞"
    else if toBool (square &&& b.blackBishops) then "♝"
    else if toBool (square &&& b.blackQueens) then "♛"
    else if toBool (square &&& b.blackKing) then "♚"
    else " ")

end Board

end PawnGrabber
