import PawnGrabber.Model.Board

/-!
# Making and unmaking a move

`Board::do_move`, the six `do_*` methods it dispatches to, and `undo_move`. Methods that
change the board in place return the changed board.
-/

set_option autoImplicit false

namespace PawnGrabber

namespace Board

/-- The first part of `adjust_castling_rights`: four `if`s on the destination, each about
another field. -/
def adjustForDestination (b : Board) (move : Move) : Board :=
  { b with
    whiteHasRightToCastleQueenside :=
      if move.dstSquare = square ['a', '1'] then false else b.whiteHasRightToCastleQueenside
    blackHasRightToCastleQueenside :=
      if move.dstSquare = square ['a', '8'] then false else b.blackHasRightToCastleQueenside
    whiteHasRightToCastleKingside :=
      if move.dstSquare = square ['h', '1'] then false else b.whiteHasRightToCastleKingside
    blackHasRightToCastleKingside :=
      if move.dstSquare = square ['h', '8'] then false else b.blackHasRightToCastleKingside }

/-- The second part: a king that moves. -/
def adjustForKing (b : Board) (move : Move) : Board :=
  if move.pieceMoving = .king then
    if move.srcSquare = square ['e', '1'] then
      { b with whiteHasRightToCastleKingside := false, whiteHasRightToCastleQueenside := false }
    else if move.srcSquare = square ['e', '8'] then
      { b with blackHasRightToCastleKingside := false, blackHasRightToCastleQueenside := false }
    else b
  else b

/-- The third part: a rook that moves. -/
def adjustForRook (b : Board) (move : Move) : Board :=
  if move.pieceMoving = .rook then
    if move.srcSquare = square ['a', '1'] then
      { b with whiteHasRightToCastleQueenside := false }
    else if move.srcSquare = square ['h', '1'] then
      { b with whiteHasRightToCastleKingside := false }
    else if move.srcSquare = square ['a', '8'] then
      { b with blackHasRightToCastleQueenside := false }
    else if move.srcSquare = square ['h', '8'] then
      { b with blackHasRightToCastleKingside := false }
    else b
  else b

def adjustCastlingRights (b : Board) (move : Move) : Board :=
  ((b.adjustForDestination move).adjustForKing move).adjustForRook move

/-- The first of the twelve bitboards that has the square `sq`, as the `for` loops of
`remove_piece_on` and `move_piece` find it. -/
def findBitboard (b : Board) (sq : Bitboard) : Option BitboardPtr :=
  allBitboards.find? fun ptr => toBool (sq &&& b.bitboard ptr)

def removePieceOn (b : Board) (sq : Bitboard) : Board :=
  match b.findBitboard sq with
  | some ptr => b.setBitboard ptr (b.bitboard ptr ^^^ sq)
  | none => b

def movePiece (b : Board) (fromSq toSq : Bitboard) : Checked Board :=
  match b.findBitboard fromSq with
  | some ptr => pure (b.setBitboard ptr ((b.bitboard ptr ^^^ fromSq) ||| toSq))
  | none => throw (.rawCheck "Move not valid.")

/-- `enemy_pawn_square` of `do_en_passant_move`. -/
def enemyPawnSquare (move : Move) : Checked Bitboard :=
  if toBool (move.dstSquare &&& thirdRankMask) then northOf move.dstSquare
  else southOf move.dstSquare

def doEnPassantMove (b : Board) (move : Move) : Checked Board := do
  rawCheck (b.enPassantSquare == some move.dstSquare)
    "Move type is en passant. But the e.p. square is not set."
  let enemyPawnSquare ← enemyPawnSquare move
  let b := b.removePieceOn enemyPawnSquare
  let b ← b.movePiece move.srcSquare move.dstSquare
  pure { b with enPassantSquare := none }

/-- The second half of `do_castle_move`, which also needs to move the rook. -/
def moveCastlingRook (b : Board) (move : Move) : Checked Board :=
  match move.moveType with
  | .castleKingside =>
    if b.isWhitesMove then b.movePiece (square ['h', '1']) (square ['f', '1'])
    else b.movePiece (square ['h', '8']) (square ['f', '8'])
  | .castleQueenside =>
    if b.isWhitesMove then b.movePiece (square ['a', '1']) (square ['d', '1'])
    else b.movePiece (square ['a', '8']) (square ['d', '8'])
  | _ => throw (.rawCheck "Castle move has wrong move type.")

def doCastleMove (b : Board) (move : Move) : Checked Board := do
  let b ← b.movePiece move.srcSquare move.dstSquare
  let b ← b.moveCastlingRook move
  pure ({ b with enPassantSquare := none }.adjustCastlingRights move)

/-- The `switch` of `do_promotion_move`. -/
def placePromoted (b : Board) (move : Move) : Checked Board :=
  match move.moveType with
  | .promotionToRook => pure (
    if b.isWhitesMove then { b with whiteRooks := b.whiteRooks ||| move.dstSquare }
    else { b with blackRooks := b.blackRooks ||| move.dstSquare })
  | .promotionToBishop => pure (
    if b.isWhitesMove then { b with whiteBishops := b.whiteBishops ||| move.dstSquare }
    else { b with blackBishops := b.blackBishops ||| move.dstSquare })
  | .promotionToKnight => pure (
    if b.isWhitesMove then { b with whiteKnights := b.whiteKnights ||| move.dstSquare }
    else { b with blackKnights := b.blackKnights ||| move.dstSquare })
  | .promotionToQueen => pure (
    if b.isWhitesMove then { b with whiteQueens := b.whiteQueens ||| move.dstSquare }
    else { b with blackQueens := b.blackQueens ||| move.dstSquare })
  | _ => throw (.rawCheck "Promotion move has wrong move type.")

def doPromotionMove (b : Board) (move : Move) : Checked Board := do
  let b := b.removePieceOn move.srcSquare
  let b := b.removePieceOn move.dstSquare
  let b ← b.placePromoted move
  pure ({ b with enPassantSquare := none }.adjustCastlingRights move)

def doCaptureMove (b : Board) (move : Move) : Checked Board := do
  let b := b.removePieceOn move.dstSquare
  let b ← b.movePiece move.srcSquare move.dstSquare
  pure ({ b with enPassantSquare := none }.adjustCastlingRights move)

/-- The new en passant square of `do_two_step_pawn_move`. -/
def passedSquare (move : Move) : Checked Bitboard :=
  if toBool (move.srcSquare &&& secondRankMask) then northOf move.srcSquare
  else southOf move.srcSquare

def doTwoStepPawnMove (b : Board) (move : Move) : Checked Board := do
  let b ← b.movePiece move.srcSquare move.dstSquare
  let epSquare ← passedSquare move
  pure { b with enPassantSquare := some epSquare }

def doSimpleMove (b : Board) (move : Move) : Checked Board := do
  let b ← b.movePiece move.srcSquare move.dstSquare
  pure ({ b with enPassantSquare := none }.adjustCastlingRights move)

def undoMove (_b : Board) (move : Move) : Board := move.boardState

/-- The lines of `do_move` after the `switch`. -/
def passTurn (b : Board) : Board :=
  let isWhitesMove := !b.isWhitesMove
  { b with isWhitesMove := isWhitesMove, numMoves := b.numMoves + if isWhitesMove then 1 else 0 }

/-- The `switch` of `do_move`. -/
def dispatchMove (b : Board) (move : Move) : Checked Board :=
  match move.moveType with
  | .simple => b.doSimpleMove move
  | .twoStepPawn => b.doTwoStepPawnMove move
  | .capture => b.doCaptureMove move
  | .enPassant => b.doEnPassantMove move
  | .castleKingside | .castleQueenside => b.doCastleMove move
  | .promotionToRook | .promotionToBishop | .promotionToKnight | .promotionToQueen =>
    b.doPromotionMove move

def doMove (b : Board) (move : Move) : Checked Board := do
  rawCheck (isSquare move.srcSquare && isSquare move.dstSquare) "Not a valid move."
  let b ← b.dispatchMove move
  pure b.passTurn

end Board

end PawnGrabber
