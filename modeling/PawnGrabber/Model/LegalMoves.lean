import PawnGrabber.Model.MoveGeneration
import PawnGrabber.Model.MakeMove

/-!
# Legal moves

Castling, the king-safety filter and the two lists built from them: `legal_moves` and
`legal_capture_moves`. `std::remove_if` with a predicate that may stop at a check is
`List.filterM`.
-/

set_option autoImplicit false

namespace PawnGrabber

def castleKingsideMove (color : Color) (board : Board) : Move :=
  if color = .white then
    ⟨square ['e', '1'], square ['g', '1'], .king, .castleKingside, board⟩
  else
    ⟨square ['e', '8'], square ['g', '8'], .king, .castleKingside, board⟩

def castleQueensideMove (color : Color) (board : Board) : Move :=
  if color = .white then
    ⟨square ['e', '1'], square ['c', '1'], .king, .castleQueenside, board⟩
  else
    ⟨square ['e', '8'], square ['c', '8'], .king, .castleQueenside, board⟩

namespace Board

/-- `is_whites_move_ ? Color::white : Color::black`. -/
def sideToMove (b : Board) : Color := if b.isWhitesMove then .white else .black

/-- `!has_right_to_castle || is_king_attacked(side_to_move)`, the first test of both methods
below. -/
def cannotCastle (b : Board) (hasRightToCastle : Bool) : Checked Bool :=
  if !hasRightToCastle then pure true else b.isKingAttacked b.sideToMove

def isCastleKingsideLegal (b : Board) : Checked Bool := do
  let hasRightToCastle :=
    if b.isWhitesMove then b.whiteHasRightToCastleKingside
    else b.blackHasRightToCastleKingside
  if ← b.cannotCastle hasRightToCastle then pure false
  else
    let castleSquares :=
      if b.isWhitesMove then whiteCastleKingsideMask else blackCastleKingsideMask
    let enemyAttackSquares ← b.attackSquares (flipColor b.sideToMove)
    let castleSquaresClear := !toBool (castleSquares &&& b.allPieces)
    let castleSquaresAttacked := toBool (castleSquares &&& enemyAttackSquares)
    pure (castleSquaresClear && !castleSquaresAttacked)

def isCastleQueensideLegal (b : Board) : Checked Bool := do
  let hasRightToCastle :=
    if b.isWhitesMove then b.whiteHasRightToCastleQueenside
    else b.blackHasRightToCastleQueenside
  if ← b.cannotCastle hasRightToCastle then pure false
  else
    let castleSquares :=
      if b.isWhitesMove then whiteCastleQueensideMask else blackCastleQueensideMask
    let enemyAttackSquares ← b.attackSquares (if b.isWhitesMove then .black else .white)
    let castleSquaresAttacked := toBool (castleSquares &&& enemyAttackSquares)
    -- When castling queenside the square on the b file can be attacked but must
    -- not be occupied.
    let bFileSquare := if b.isWhitesMove then square ['b', '1'] else square ['b', '8']
    let castleSquaresWithBFile := castleSquares ||| bFileSquare
    let castleSquaresBlocked := toBool (castleSquaresWithBFile &&& b.allPieces)
    pure (!castleSquaresBlocked && !castleSquaresAttacked)

def appendCastlingMoves (b : Board) (res : List Move) : Checked (List Move) := do
  let kingside ← b.isCastleKingsideLegal
  let res := if kingside then res ++ [castleKingsideMove b.sideToMove b] else res
  let queenside ← b.isCastleQueensideLegal
  pure (if queenside then res ++ [castleQueensideMove b.sideToMove b] else res)

def isPseudolegalMoveLegal (b : Board) (move : Move) : Checked Bool := do
  let thisCopy ← b.doMove move
  let kingAttacked ← thisCopy.isKingAttacked b.sideToMove
  pure !kingAttacked

def legalMoves (b : Board) : Checked (List Move) := do
  let res ← b.pseudolegalMoves b.sideToMove
  let res ← res.filterM b.isPseudolegalMoveLegal
  b.appendCastlingMoves res

def isCaptureMove (b : Board) (move : Move) : Bool :=
  toBool (move.dstSquare &&& b.enemies b.sideToMove)

def legalCaptureMoves (b : Board) : Checked (List Move) := do
  let res ← b.legalMoves
  pure (res.filter b.isCaptureMove)

end Board

end PawnGrabber
