import PawnGrabber.Model.Fen

/-!
# The perft driver

`main` of `perft.cc`: the move counts of seven positions are compared, depth by depth, with
a table of known ones. `number_of_moves` is a parameter here, so that the driver can be
judged on its own. A `std::array` is a function on its indices; a read of the clock and the
time it prints are left out.
-/

set_option autoImplicit false

namespace PawnGrabber

def numBoards : ℕ := 7

def maxDepth : ℕ := 8

/-- What the driver prints. -/
inductive PerftLine
  /-- `"Depth " << depth << ".\n"` -/
  | depth (depth : ℕ)
  /-- `"\tPos " << board_idx << ":\n"` -/
  | pos (boardIdx : ℕ)
  /-- `"\t\tNo info.\n"` -/
  | noInfo
  /-- `"\t\tComputed result: " << computed_res << ".\n"` -/
  | computedResult (computedRes : Int32)
  /-- `"\t\tCorrect result:  " << correct_res << ".\n"` -/
  | correctResult (correctRes : Int32)
  /-- `"\033[0;31mIncorrect results!\n"` -/
  | incorrectResults
  deriving DecidableEq

/-- One round of the inner loop, on what has been printed so far. Both counts are stored in
an `int`, which keeps an `int64_t` modulo 2^32; `return 0` is `.error`. -/
def perftRound (numberOfMoves : Board → ℕ → Int64) (boards : Fin numBoards → Board)
    (numNodes : Fin numBoards → Fin maxDepth → Int64) (depth : Fin maxDepth)
    (output : List PerftLine) (boardIdx : Fin numBoards) :
    Except (List PerftLine) (List PerftLine) :=
  let correctRes : Int32 := (numNodes boardIdx depth).toInt32
  if correctRes = -1 then pure (output ++ [.pos boardIdx, .noInfo])
  else
    let computedRes : Int32 := (numberOfMoves (boards boardIdx) depth).toInt32
    let output := output ++
      [.pos boardIdx, .computedResult computedRes, .correctResult correctRes]
    if computedRes ≠ correctRes then throw (output ++ [.incorrectResults])
    else pure output

/-- The double loop: `.ok` with all that is printed if it runs to its end. -/
def perftLoop (numberOfMoves : Board → ℕ → Int64) (boards : Fin numBoards → Board)
    (numNodes : Fin numBoards → Fin maxDepth → Int64) :
    Except (List PerftLine) (List PerftLine) :=
  (List.finRange maxDepth).foldlM (fun output depth =>
    (List.finRange numBoards).foldlM (perftRound numberOfMoves boards numNodes depth)
      (output ++ [.depth depth])) []

/-- The positions after the first, which is the start position. -/
def perftFens : List StringView :=
  ["r3k2r/p1ppqpb1/bn2pnp1/3PN3/1p2P3/2N2Q1p/PPPBBPPP/R3K2R w KQkq - 0 1".toList,
    "8/2p5/3p4/KP5r/1R3p1k/8/4P1P1/8 w - - 0 1".toList,
    "r3k2r/Pppp1ppp/1b3nbN/nP6/BBP1P3/q4N2/Pp1P2PP/R2Q1RK1 w kq - 0 1".toList,
    "rnbq1k1r/pp1Pbppp/2p5/8/2B5/8/PPP1NnPP/RNBQK2R w KQ - 1 8".toList,
    "r4rk1/1pp1qppp/p1np1n2/2b1p1B1/2B1P1b1/P1NP1N2/1PP1QPPP/R4RK1 w - - 0 10".toList,
    "n1n5/PPPk4/8/8/8/8/4Kppp/5N1N b - - 0 1".toList]

def perftBoards : Checked (List Board) := do
  let board ← Board.start
  let boards ← perftFens.mapM Board.ofFen
  pure (board :: boards)

def perftNumNodes : List (List Int64) :=
  [[1, 20, 400, 8902, 197281, 4865609, 119060324, 3195901860],
    [1, 48, 2039, 97862, 4085603, 193690690, 8031647685, -1],
    [1, 14, 191, 2812, 43238, 674624, 11030083, 178633661],
    [1, 6, 264, 9467, 422333, 15833292, 706045033, -1],
    [1, 44, 1486, 62379, 2103487, 89941194, -1, -1],
    [1, 46, 2079, 89890, 3894594, 164075551, 6923051137, 287188994746],
    [1, 24, 496, 9483, 182838, 3605103, 71179139, -1]]

/-- `main`, for any function in place of `number_of_moves`. -/
def perftMain (numberOfMoves : Board → ℕ → Int64) :
    Checked (Except (List PerftLine) (List PerftLine)) := do
  let boards ← perftBoards
  pure (perftLoop numberOfMoves (fun boardIdx => boards.getD boardIdx uninitializedBoard)
    fun boardIdx depth => (perftNumNodes.getD boardIdx []).getD depth (-1))

end PawnGrabber
