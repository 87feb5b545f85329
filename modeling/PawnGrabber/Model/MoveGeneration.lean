import PawnGrabber.Model.Board

/-!
# Generation of pseudolegal moves

The `append_pseudolegal_*` methods of `board.cc`. Each takes the vector `res` and
returns it with its moves appended; the range-based loops are folds over the list they
run through. `appendPseudolegalSlidingMoves` has the only open-ended loop: it is given
`boardSize` rounds, and `appendSlidingLoop_fuel` in the analysis shows that more change nothing.
-/

set_option autoImplicit false

namespace PawnGrabber

namespace Board

/-- The `while` loop of `append_pseudolegal_sliding_moves` and the capture after it. -/
def appendSlidingLoop (b : Board) (directionFn : Bitboard → Checked Bitboard) (side : Color)
    (srcSquare : Bitboard) (pieceMoving : Piece) :
    ℕ → Bitboard → List Move → Checked (List Move)
  | fuel, currSquare, res =>
    if toBool currSquare && !toBool (currSquare &&& b.allPieces) then
      match fuel with
      | 0 => throw .outOfFuel
      | fuel + 1 => do
        let nextSquare ← directionFn currSquare
        b.appendSlidingLoop directionFn side srcSquare pieceMoving fuel nextSquare
          (res ++ [⟨srcSquare, currSquare, pieceMoving, .simple, b⟩])
    else if toBool (currSquare &&& b.enemies side) then
      pure (res ++ [⟨srcSquare, currSquare, pieceMoving, .capture, b⟩])
    else pure res

def appendPseudolegalSlidingMoves (b : Board) (direction : Direction) (side : Color)
    (srcSquare : Bitboard) (pieceMoving : Piece) (res : List Move) : Checked (List Move) := do
  rawCheck (toBool (srcSquare &&& b.friends side))
    "src_square must have a piece with the correct color on it."
  let directionFn := directionToFunction direction
  let currSquare ← directionFn srcSquare
  b.appendSlidingLoop directionFn side srcSquare pieceMoving boardSize currSquare res

def appendPseudolegalBishopMoves (b : Board) (side : Color) (res : List Move) :
    Checked (List Move) :=
  let bishops := if side = .white then b.whiteBishops else b.blackBishops
  (bitboardSplit bishops).foldlM (fun res bishopSq =>
    bishopMoveDirections.foldlM (fun res dir =>
      b.appendPseudolegalSlidingMoves dir side bishopSq .bishop res) res) res

def appendPseudolegalRookMoves (b : Board) (side : Color) (res : List Move) :
    Checked (List Move) :=
  let rooks := if side = .white then b.whiteRooks else b.blackRooks
  (bitboardSplit rooks).foldlM (fun res rookSq =>
    rookMoveDirections.foldlM (fun res dir =>
      b.appendPseudolegalSlidingMoves dir side rookSq .rook res) res) res

def appendPseudolegalQueenMoves (b : Board) (side : Color) (res : List Move) :
    Checked (List Move) :=
  let queens := if side = .white then b.whiteQueens else b.blackQueens
  (bitboardSplit queens).foldlM (fun res queenSq =>
    allDirections.foldlM (fun res dir =>
      b.appendPseudolegalSlidingMoves dir side queenSq .queen res) res) res

def appendPseudolegalSimplePawnMoves (b : Board) (side : Color) (res : List Move) :
    Checked (List Move) :=
  if side = .white then
    let whitePawnsExcludingSeventh := b.whitePawns &&& ~~~seventhRankMask
    (bitboardSplit whitePawnsExcludingSeventh).foldlM (fun res singlePawn => do
      let northOfPawn ← northOf singlePawn
      let blocked := toBool (b.allPieces &&& northOfPawn)
      pure (if !blocked then res ++ [⟨singlePawn, northOfPawn, .pawn, .simple, b⟩] else res)) res
  else
    let blackPawnsExcludingSecond := b.blackPawns &&& ~~~secondRankMask
    (bitboardSplit blackPawnsExcludingSecond).foldlM (fun res singlePawn => do
      let southOfPawn ← southOf singlePawn
      let blocked := toBool (b.allPieces &&& southOfPawn)
      pure (if !blocked then res ++ [⟨singlePawn, southOfPawn, .pawn, .simple, b⟩] else res)) res

def appendPseudolegalTwoStepPawnMoves (b : Board) (side : Color) (res : List Move) :
    Checked (List Move) :=
  if side = .white then
    let whitePawnsOnSecond := b.whitePawns &&& secondRankMask
    (bitboardSplit whitePawnsOnSecond).foldlM (fun res singlePawn => do
      let northOfPawn ← northOf singlePawn
      let twoNorthOfPawn ← northOf northOfPawn
      let blocked :=
        toBool (b.allPieces &&& northOfPawn) || toBool (b.allPieces &&& twoNorthOfPawn)
      pure (if !blocked then res ++ [⟨singlePawn, twoNorthOfPawn, .pawn, .twoStepPawn, b⟩]
        else res)) res
  else
    let blackPawnsOnSeventh := b.blackPawns &&& seventhRankMask
    (bitboardSplit blackPawnsOnSeventh).foldlM (fun res singlePawn => do
      let southOfPawn ← southOf singlePawn
      let twoSouthOfPawn ← southOf southOfPawn
      let blocked :=
        toBool (b.allPieces &&& southOfPawn) || toBool (b.allPieces &&& twoSouthOfPawn)
      pure (if !blocked then res ++ [⟨singlePawn, twoSouthOfPawn, .pawn, .twoStepPawn, b⟩]
        else res)) res

def appendPseudolegalEnPassantMoves (b : Board) (side : Color) (res : List Move) :
    Checked (List Move) :=
  match b.enPassantSquare with
  | none => pure res
  | some epSquare =>
    if side = .white then do
      let southeastOfEpSquare ← southeastOf epSquare
      let southwestOfEpSquare ← southwestOf epSquare
      let res := if toBool (southwestOfEpSquare &&& b.whitePawns) then
        res ++ [⟨southwestOfEpSquare, epSquare, .pawn, .enPassant, b⟩] else res
      pure (if toBool (southeastOfEpSquare &&& b.whitePawns) then
        res ++ [⟨southeastOfEpSquare, epSquare, .pawn, .enPassant, b⟩] else res)
    else do
      let northeastOfEpSquare ← northeastOf epSquare
      let northwestOfEpSquare ← northwestOf epSquare
      let res := if toBool (northwestOfEpSquare &&& b.blackPawns) then
        res ++ [⟨northwestOfEpSquare, epSquare, .pawn, .enPassant, b⟩] else res
      pure (if toBool (northeastOfEpSquare &&& b.blackPawns) then
        res ++ [⟨northeastOfEpSquare, epSquare, .pawn, .enPassant, b⟩] else res)

def appendPseudolegalPromotions (b : Board) (side : Color) (res : List Move) :
    Checked (List Move) :=
  if side = .white then
    let whitePawnsOnSeventh := b.whitePawns &&& seventhRankMask
    (bitboardSplit whitePawnsOnSeventh).foldlM (fun res singlePawn =>
      promotionMoveTypes.foldlM (fun res promotionPiece => do
        let northOfPawn ← northOf singlePawn
        let blocked := toBool (b.allPieces &&& northOfPawn)
        let res := if !blocked then res ++ [⟨singlePawn, northOfPawn, .pawn, promotionPiece, b⟩]
          else res
        let northeastOfPawn ← northeastOf singlePawn
        let blackPieceNortheast := toBool (b.blackPieces &&& northeastOfPawn)
        let res := if blackPieceNortheast then
          res ++ [⟨singlePawn, northeastOfPawn, .pawn, promotionPiece, b⟩] else res
        let northwestOfPawn ← northwestOf singlePawn
        let blackPieceNorthwest := toBool (b.blackPieces &&& northwestOfPawn)
        pure (if blackPieceNorthwest then
          res ++ [⟨singlePawn, northwestOfPawn, .pawn, promotionPiece, b⟩] else res)) res) res
  else
    let blackPawnsOnSecond := b.blackPawns &&& secondRankMask
    (bitboardSplit blackPawnsOnSecond).foldlM (fun res singlePawn =>
      promotionMoveTypes.foldlM (fun res promotionPiece => do
        let southOfPawn ← southOf singlePawn
        let blocked := toBool (b.allPieces &&& southOfPawn)
        let res := if !blocked then res ++ [⟨singlePawn, southOfPawn, .pawn, promotionPiece, b⟩]
          else res
        let southeastOfPawn ← southeastOf singlePawn
        let whitePieceSoutheast := toBool (b.whitePieces &&& southeastOfPawn)
        let res := if whitePieceSoutheast then
          res ++ [⟨singlePawn, southeastOfPawn, .pawn, promotionPiece, b⟩] else res
        let southwestOfPawn ← southwestOf singlePawn
        let whitePieceSouthwest := toBool (b.whitePieces &&& southwestOfPawn)
        pure (if whitePieceSouthwest then
          res ++ [⟨singlePawn, southwestOfPawn, .pawn, promotionPiece, b⟩] else res)) res) res

def appendPseudolegalPawnCaptures (b : Board) (side : Color) (res : List Move) :
    Checked (List Move) :=
  if side = .white then
    let whitePawnsExcludingSeventh := b.whitePawns &&& ~~~seventhRankMask
    (bitboardSplit whitePawnsExcludingSeventh).foldlM (fun res singlePawn => do
      let northeastOfPawn ← northeastOf singlePawn
      let canCaptureNortheast := toBool (b.blackPieces &&& northeastOfPawn)
      let res := if canCaptureNortheast then
        res ++ [⟨singlePawn, northeastOfPawn, .pawn, .capture, b⟩] else res
      let northwestOfPawn ← northwestOf singlePawn
      let canCaptureNorthwest := toBool (b.blackPieces &&& northwestOfPawn)
      pure (if canCaptureNorthwest then
        res ++ [⟨singlePawn, northwestOfPawn, .pawn, .capture, b⟩] else res)) res
  else
    let blackPawnsExcludingSeventh := b.blackPawns &&& ~~~secondRankMask
    (bitboardSplit blackPawnsExcludingSeventh).foldlM (fun res singlePawn => do
      let southeastOfPawn ← southeastOf singlePawn
      let canCaptureSoutheast := toBool (b.whitePieces &&& southeastOfPawn)
      let res := if canCaptureSoutheast then
        res ++ [⟨singlePawn, southeastOfPawn, .pawn, .capture, b⟩] else res
      let southwestOfPawn ← southwestOf singlePawn
      let canCaptureSouthwest := toBool (b.whitePieces &&& southwestOfPawn)
      pure (if canCaptureSouthwest then
        res ++ [⟨singlePawn, southwestOfPawn, .pawn, .capture, b⟩] else res)) res

def appendPseudolegalPawnMoves (b : Board) (side : Color) (res : List Move) :
    Checked (List Move) := do
  let res ← b.appendPseudolegalSimplePawnMoves side res
  let res ← b.appendPseudolegalTwoStepPawnMoves side res
  let res ← b.appendPseudolegalPawnCaptures side res
  let res ← b.appendPseudolegalEnPassantMoves side res
  b.appendPseudolegalPromotions side res

def appendPseudolegalKingMoves (b : Board) (side : Color) (res : List Move) :
    Checked (List Move) :=
  let kingSq := if side = .white then b.whiteKing else b.blackKing
  let friendsMask := b.friends side
  allDirections.foldlM (fun res dir => do
    let dstSquare ← directionToFunction dir kingSq
    let friendlyPieceOnDstSquare := toBool (dstSquare &&& friendsMask)
    pure (if toBool dstSquare && !friendlyPieceOnDstSquare then
      let enemyPieceOnDstSquare := toBool (dstSquare &&& b.enemies side)
      let moveType := if enemyPieceOnDstSquare then MoveType.capture else .simple
      res ++ [⟨kingSq, dstSquare, .king, moveType, b⟩]
    else res)) res

def appendPseudolegalKnightMoves (b : Board) (side : Color) (res : List Move) :
    Checked (List Move) :=
  let knights := if side = .white then b.whiteKnights else b.blackKnights
  let friendsMask := b.friends side
  (bitboardSplit knights).foldlM (fun res knightSq =>
    knightMoveDirections.foldlM (fun res dir1Dir2 => do
      let firstStep ← directionToFunction dir1Dir2.1 knightSq
      if toBool firstStep then do
        let dstSquare ← directionToFunction dir1Dir2.2 firstStep
        let friendlyPieceOnDstSquare := toBool (dstSquare &&& friendsMask)
        pure (if toBool dstSquare && !friendlyPieceOnDstSquare then
          let enemyPieceOnDstSquare := toBool (dstSquare &&& b.enemies side)
          let moveType := if enemyPieceOnDstSquare then MoveType.capture else .simple
          res ++ [⟨knightSq, dstSquare, .knight, moveType, b⟩]
        else res)
      else pure res) res) res

def pseudolegalMoves (b : Board) (side : Color) : Checked (List Move) := do
  let res ← b.appendPseudolegalBishopMoves side []
  let res ← b.appendPseudolegalRookMoves side res
  let res ← b.appendPseudolegalQueenMoves side res
  let res ← b.appendPseudolegalPawnMoves side res
  let res ← b.appendPseudolegalKingMoves side res
  b.appendPseudolegalKnightMoves side res

def pawnAttackSquares (b : Board) (side : Color) : Checked Bitboard :=
  if side = .white then
    (bitboardSplit b.whitePawns).foldlM (fun res singlePawn => do
      let northeastOfPawn ← northeastOf singlePawn
      let res := res ||| northeastOfPawn
      let northwestOfPawn ← northwestOf singlePawn
      pure (res ||| northwestOfPawn)) 0
  else
    (bitboardSplit b.blackPawns).foldlM (fun res singlePawn => do
      let southeastOfPawn ← southeastOf singlePawn
      let res := res ||| southeastOfPawn
      let southwestOfPawn ← southwestOf singlePawn
      pure (res ||| southwestOfPawn)) 0

def attackSquares (b : Board) (side : Color) : Checked Bitboard := do
  let moves ← b.pseudolegalMoves side
  let withoutPawnsAttackSquares := moves.foldl (fun acc move => acc ||| move.dstSquare) 0
  let pawnAttacks ← b.pawnAttackSquares side
  pure (withoutPawnsAttackSquares ||| pawnAttacks)

def isKingAttacked (b : Board) (side : Color) : Checked Bool := do
  let king := if side = .white then b.whiteKing else b.blackKing
  let enemyAttacks ← b.attackSquares (flipColor side)
  pure (toBool (king &&& enemyAttacks))

end Board

end PawnGrabber
