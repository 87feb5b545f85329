import PawnGrabber.Model.Fen
import PawnGrabber.Model.Search

/-!
# What the program prints

`square_to_str`, the pretty strings of moves, boards and bitboards, and `main` of `eval.cc`.
Strings are built by appending, as in the source; `main` returns the lines it writes. The two
texts in which it shows the clock are parameters.
-/

set_option autoImplicit false

namespace PawnGrabber

/-! ## Squares and moves -/

def rankIdx (square : Bitboard) : ℤ := (squareIdx square).tdiv 8

/-- `c + offset` on characters. -/
def charPlus (c : Char) (offset : ℤ) : Char := Char.ofNat ((c.toNat : ℤ) + offset).toNat

def squareToStr (sq : Bitboard) : Checked StringView := do
  rawCheck (isSquare sq) "Not a square."
  let rank := rankIdx sq
  let file := fileIdx sq
  pure ([charPlus 'a' file] ++ [charPlus '1' rank])

def Move.toPrettyStr (move : Move) : Checked StringView := do
  pure ((← squareToStr move.srcSquare) ++ (← squareToStr move.dstSquare))

/-! ## Boards -/

def horizontal : String := "─"

def vertical : String := "│"

/-- The loops that append three horizontal lines and a joint for each column but the last. -/
def appendJoints (joint : String) (res : String) : String :=
  (List.range (boardSize - 1)).foldl
    (fun res _ => res ++ (horizontal ++ horizontal ++ horizontal) ++ joint) res

namespace Board

/-- The loop over the files of a row of pieces. -/
def appendRow (b : Board) (rank : ℕ) (res : String) : Checked String :=
  (List.range boardSize).foldlM (fun res (file : ℕ) => do
    let symbol ← b.occupiersUnicodeSymbol file rank
    pure (res ++ " " ++ symbol ++ " " ++ vertical)) res

/-- One round of the loop over the ranks: a row of pieces, and a dividing line unless it is the
last rank. -/
def appendRank (b : Board) (res : String) (rank : ℕ) : Checked String := do
  let res := res ++ String.singleton (charPlus '1' rank) ++ " " ++ vertical
  let res ← b.appendRow rank res
  let res := res ++ "\n"
  pure (
    if rank ≠ 0 then
      appendJoints "┼" (res ++ "  " ++ "├") ++ (horizontal ++ horizontal ++ horizontal ++ "┤") ++
        "\n"
    else res)

def toPrettyStr (b : Board) : Checked String := do
  let res := ""
  -- do top of board
  let res := appendJoints "┬" (res ++ "  " ++ "┌")
  let res := res ++ (horizontal ++ horizontal ++ horizontal) ++ "┐" ++ "\n"
  -- do rows
  let res ← (List.range boardSize).reverse.foldlM b.appendRank res
  -- do bottom of board
  let res := appendJoints "┴" (res ++ "  " ++ "└")
  let res := res ++ (horizontal ++ horizontal ++ horizontal) ++ "┘" ++ "\n"
  let res := res ++ "   "
  let res := (List.range (boardSize - 1)).foldl
    (fun res (i : ℕ) => res ++ " " ++ String.singleton (charPlus 'a' i) ++ "  ") res
  pure (res ++ " " ++ "h" ++ "\n")

end Board

def bbToPrettyStr (bb : Bitboard) : Checked String := do
  let board ← Board.start
  let board := board.zeroAllBitboards
  { board with blackPawns := bb }.toPrettyStr

/-! ## The evaluation program -/

/-- The number that `std::atoi` reads: the digits after white space and a sign, up to the first
other character. -/
def atoiValue (text : StringView) : ℤ :=
  match text.dropWhile asciiIsspace with
  | [] => 0
  | c :: rest =>
    if c = '-' then -(Nat.ofDigitChars 10 (rest.takeWhile Char.isDigit) 0 : ℤ)
    else if c = '+' then Nat.ofDigitChars 10 (rest.takeWhile Char.isDigit) 0
    else Nat.ofDigitChars 10 ((c :: rest).takeWhile Char.isDigit) 0

/-- `std::atoi`. A number that is no `int` is taken modulo 2^32; the standard leaves it open. -/
def atoi (text : StringView) : Int32 := Int32.ofInt (atoiValue text)

/-- `alpha_beta` for any `int` as its depth. A negative depth moves away from 0, so `bound` limits
the recursion here; running out of it is a fault. -/
def alphaBetaInt (fuel : ℕ) : ℕ → Int32 → Board → ℤ → ℤ → List Move → Checked (ℤ × List Move)
  | 0, _, _, _, _, _ => throw .outOfFuel
  | bound + 1, depth, board, alpha, beta, pv => do
    rawCheck pv.isEmpty "pv not empty"
    let moves ← board.legalMoves
    if depth = 0 ∨ moves.length = 0 then quiescenceSearch fuel board alpha beta pv
    else
      searchLoop (fun child a b => alphaBetaInt fuel bound (depth - 1) child a b []) board beta
        moves alpha pv

/-- The lines that `main` of `eval.cc` writes for the arguments `fen` and `depthText`, if the
clock shows `start` and the search takes `taken`. -/
def evalMain (fuel bound : ℕ) (start taken fen depthText : StringView) :
    Checked (List StringView) := do
  let board ← Board.ofFen fen
  let depth := atoi depthText
  let (eval, pv) ← alphaBetaInt fuel bound depth board (-1000000) 1000000 []
  let moves ← pv.mapM Move.toPrettyStr
  pure (["Depth: ".toList ++ (toString depth).toList,
    "Starting evaluation at time: ".toList ++ start,
    "Evaluation: ".toList ++ (toString eval).toList,
    "Principal variation: ".toList] ++ moves.map (fun move => '\t' :: move) ++
    ["Time taken: ".toList ++ taken])

end PawnGrabber
