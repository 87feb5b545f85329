import PawnGrabber.Model.LegalMoves

/-!
# Evaluation, search and perft

`static_evaluation`, the two search functions with the principal variation they fill,
and `number_of_moves`. A search function returns its score together with the vector
`*pv` as it leaves it. `quiescence_search` has no depth limit; its recursion is bounded
by `fuel` here, and running out of it is a fault. Scores and windows are C++ `int`s; they
are integers here, which is the same as long as both ends of a window can be negated.
-/

set_option autoImplicit false

namespace PawnGrabber

namespace Board

def staticEvaluation (b : Board) : Checked ℤ := do
  let moves ← b.legalMoves
  if moves.length = 0 then pure (if b.isWhitesMove then -1000 else 1000)
  else
    let pawnValue : ℤ := 1
    let rookValue : ℤ := 5
    let knightValue : ℤ := 3
    let bishopValue : ℤ := 3
    let queenValue : ℤ := 9
    pure (
      pawnValue * ((popCount b.whitePawns : ℤ) - popCount b.blackPawns) +
      rookValue * ((popCount b.whiteRooks : ℤ) - popCount b.blackRooks) +
      knightValue * ((popCount b.whiteKnights : ℤ) - popCount b.blackKnights) +
      bishopValue * ((popCount b.whiteBishops : ℤ) - popCount b.blackBishops) +
      queenValue * ((popCount b.whiteQueens : ℤ) - popCount b.blackQueens))

end Board

/-- The `for` loop over the moves that `alpha_beta` and `quiescence_search` share, word for
word: `recurse` is the call on the child board with the fresh vector `line`. -/
def searchLoop (recurse : Board → ℤ → ℤ → Checked (ℤ × List Move)) (board : Board) (beta : ℤ) :
    List Move → ℤ → List Move → Checked (ℤ × List Move)
  | [], alpha, pv => pure (alpha, pv)
  | move :: moves, alpha, pv => do
    let childBoard ← board.doMove move
    let (childScore, line) ← recurse childBoard (-beta) (-alpha)
    let score := -childScore
    if score ≥ beta then pure (beta, pv)
    else if score > alpha then searchLoop recurse board beta moves score (move :: line)
    else searchLoop recurse board beta moves alpha pv

def quiescenceSearch : ℕ → Board → ℤ → ℤ → List Move → Checked (ℤ × List Move)
  | 0, _, _, _, _ => throw .outOfFuel
  | fuel + 1, board, alpha, beta, pv => do
    let evaluation ← board.staticEvaluation
    let score := evaluation * (if board.isWhitesMove then 1 else -1)
    if score ≥ beta then pure (beta, pv)
    else do
      let alpha := if score > alpha then score else alpha
      let moves ← board.legalCaptureMoves
      searchLoop (fun child a b => quiescenceSearch fuel child a b []) board beta moves alpha pv

/-- `alpha_beta` at a depth of at least 0; `fuel` bounds the capture search at the leaves. -/
def alphaBeta (fuel : ℕ) : ℕ → Board → ℤ → ℤ → List Move → Checked (ℤ × List Move)
  | 0, board, alpha, beta, pv => do
    rawCheck pv.isEmpty "pv not empty"
    let _moves ← board.legalMoves
    quiescenceSearch fuel board alpha beta pv
  | depth + 1, board, alpha, beta, pv => do
    rawCheck pv.isEmpty "pv not empty"
    let moves ← board.legalMoves
    if moves.length = 0 then quiescenceSearch fuel board alpha beta pv
    else
      searchLoop (fun child a b => alphaBeta fuel depth child a b []) board beta moves alpha pv

def evaluation (fuel : ℕ) (board : Board) (depth : ℕ) (pv : List Move) :
    Checked (ℤ × List Move) :=
  alphaBeta fuel depth board (-1000000) 1000000 pv

section NumberOfMoves

variable {N : Type} [Add N]

/-- One round of the loop of `number_of_moves`, on the board and the count so far. -/
def numberOfMovesRound (recurse : Board → Checked N) (state : Board × N) (move : Move) :
    Checked (Board × N) := do
  let (board, res) := state
  let board ← board.doMove move
  let count ← recurse board
  pure (board.undoMove move, res + count)

/-- `number_of_moves` with the numbers of `N` as its counts. -/
def numberOfMovesIn [OfNat N 0] [OfNat N 1] (board : Board) : ℕ → Checked N
  | 0 => pure 1
  | halfMoveDepth + 1 => do
    let moves ← board.legalMoves
    let (_, res) ←
      moves.foldlM (numberOfMovesRound fun child => numberOfMovesIn child halfMoveDepth) (board, 0)
    pure res

end NumberOfMoves

/-- `number_of_moves` with the `int64_t` it returns. -/
def numberOfMovesInt64 (board : Board) (halfMoveDepth : ℕ) : Checked Int64 :=
  numberOfMovesIn board halfMoveDepth

/-- `number_of_moves` with exact integers for its counts. -/
def numberOfMoves (board : Board) (halfMoveDepth : ℕ) : Checked ℤ :=
  numberOfMovesIn board halfMoveDepth

end PawnGrabber
