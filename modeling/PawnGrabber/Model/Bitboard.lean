import Mathlib
import PawnGrabber.Library.BitWord

/-!
# Bitboards, squares and directions

The types of `board.h` and the free functions of `board.cc` on a single 64-bit
word: a bitboard has one bit per square, a8 the most significant and h1 the least.
The eight direction functions, `strToSquare` and everything built on them may stop
at an `ABSL_RAW_CHECK`, so they return a `Checked` value; a shift outside 0..63 or a
string access out of range, which C++ leaves undefined, is a fault as well.
-/

set_option autoImplicit false

namespace PawnGrabber

/-- The ways in which a run of the program fails to return. -/
inductive Fault
  /-- An `ABSL_RAW_CHECK` with this message. -/
  | rawCheck (message : String)
  /-- The `assert(false)` on an unknown character of the placement field. -/
  | assertFailed
  /-- A shift by less than 0 or more than 63. -/
  | shiftOutOfRange
  /-- An access past the end of a string or a vector. -/
  | indexOutOfRange
  /-- The recursion bound of the model is used up; the program would still be running. -/
  | outOfFuel
  deriving DecidableEq, Repr

/-- A computation that returns a value or stops at a fault. -/
abbrev Checked (α : Type) := Except Fault α

/-- `ABSL_RAW_CHECK(condition, message)`. -/
def rawCheck (condition : Bool) (message : String) : Checked Unit :=
  if condition then pure () else throw (.rawCheck message)

abbrev Bitboard := BitVec 64

/-- A string view, as the characters it holds. -/
abbrev StringView := List Char

inductive Color
  | white
  | black
  deriving DecidableEq, Repr

inductive Piece
  | pawn
  | rook
  | knight
  | bishop
  | queen
  | king
  deriving DecidableEq, Repr

inductive MoveType
  | simple
  | enPassant
  | castleKingside
  | castleQueenside
  | capture
  | twoStepPawn
  | promotionToRook
  | promotionToBishop
  | promotionToKnight
  | promotionToQueen
  deriving DecidableEq, Repr

inductive Direction
  | north
  | south
  | east
  | west
  | northeast
  | northwest
  | southeast
  | southwest
  deriving DecidableEq, Repr

instance : Fintype Color := ⟨{.white, .black}, by rintro (_ | _) <;> decide⟩

instance : Fintype Piece :=
  ⟨{.pawn, .rook, .knight, .bishop, .queen, .king},
    by rintro (_ | _ | _ | _ | _ | _) <;> decide⟩

def boardSize : ℕ := 8

def lsbBitboard : Bitboard := 1

def promotionMoveTypes : List MoveType :=
  [.promotionToRook, .promotionToBishop, .promotionToKnight, .promotionToQueen]

def allDirections : List Direction :=
  [.north, .south, .east, .west, .northeast, .northwest, .southeast, .southwest]

def knightMoveDirections : List (Direction × Direction) :=
  [(.north, .northwest), (.north, .northeast), (.west, .northwest), (.west, .southwest),
    (.east, .northeast), (.east, .southeast), (.south, .southeast), (.south, .southwest)]

def bishopMoveDirections : List Direction :=
  [.northeast, .northwest, .southeast, .southwest]

def rookMoveDirections : List Direction :=
  [.north, .south, .east, .west]

/-- `static_cast<bool>`: a mask is true when it has a set bit. -/
def toBool (bb : Bitboard) : Bool := bb != 0

/-- The loop of `popCount`: `res` counts the bits cleared so far. -/
def popCountLoop (bb : Bitboard) (res : ℕ) : ℕ :=
  if _h : bb = 0 then res else popCountLoop (bb &&& (bb - 1)) (res + 1)
termination_by bb.toNat
decreasing_by exact BitWord.and_sub_one_lt _h

def popCount (bb : Bitboard) : ℕ := popCountLoop bb 0

/-- Check that the bitboard has exactly one bit set. -/
def isSquare (square : Bitboard) : Bool :=
  let hasMoreThanOneSetBit := toBool (square &&& (square - 1))
  toBool square && !hasMoreThanOneSetBit

/-- The loop of `squareIdx`: `res` counts the shifts so far, from -1. -/
def squareIdxLoop (square : Bitboard) (res : ℤ) : ℤ :=
  if _h : square = 0 then res else squareIdxLoop (square >>> 1) (res + 1)
termination_by square.toNat
decreasing_by
  have : square.toNat ≠ 0 := by simpa [BitVec.toNat_eq] using _h
  rw [BitVec.toNat_ushiftRight, Nat.shiftRight_eq_div_pow]
  omega

def squareIdx (square : Bitboard) : ℤ := squareIdxLoop square (-1)

def fileIdx (square : Bitboard) : ℤ := 7 - (squareIdx square).tmod 8

def onAFile (square : Bitboard) : Bool := fileIdx square == 0

def onHFile (square : Bitboard) : Bool := fileIdx square == 7

def northOf (square : Bitboard) : Checked Bitboard := do
  rawCheck (isSquare square) "Is not square."
  pure (square <<< boardSize)

def southOf (square : Bitboard) : Checked Bitboard := do
  rawCheck (isSquare square) "Is not square."
  pure (square >>> boardSize)

def eastOf (square : Bitboard) : Checked Bitboard := do
  rawCheck (isSquare square) "Is not square."
  pure (if onHFile square then 0 else square >>> 1)

def westOf (square : Bitboard) : Checked Bitboard := do
  rawCheck (isSquare square) "Is not square."
  pure (if onAFile square then 0 else square <<< 1)

def northeastOf (square : Bitboard) : Checked Bitboard := do
  rawCheck (isSquare square) "Is not square."
  let northSquare ← northOf square
  if toBool northSquare then eastOf northSquare else pure 0

def northwestOf (square : Bitboard) : Checked Bitboard := do
  rawCheck (isSquare square) "Is not square."
  let northSquare ← northOf square
  if toBool northSquare then westOf northSquare else pure 0

def southeastOf (square : Bitboard) : Checked Bitboard := do
  rawCheck (isSquare square) "Is not square."
  let southSquare ← southOf square
  if toBool southSquare then eastOf southSquare else pure 0

def southwestOf (square : Bitboard) : Checked Bitboard := do
  rawCheck (isSquare square) "Is not square."
  let southSquare ← southOf square
  if toBool southSquare then westOf southSquare else pure 0

def directionToFunction : Direction → Bitboard → Checked Bitboard
  | .north => northOf
  | .south => southOf
  | .east => eastOf
  | .west => westOf
  | .northeast => northeastOf
  | .northwest => northwestOf
  | .southeast => southeastOf
  | .southwest => southwestOf

/-- `lsb_bitboard << amount`, defined for amounts from 0 to 63 only. -/
def shiftLsb (amount : ℤ) : Checked Bitboard :=
  if 0 ≤ amount ∧ amount < 64 then pure (lsbBitboard <<< amount.toNat)
  else throw .shiftOutOfRange

def coordinatesToSquare (file rank : ℤ) : Checked Bitboard :=
  shiftLsb (rank * boardSize + boardSize - file - 1)

/-- `view[i]`, defined inside the view only. -/
def charAt (view : StringView) (i : ℕ) : Checked Char :=
  match view[i]? with
  | some c => pure c
  | none => throw .indexOutOfRange

def strToSquare (algebraicSquare : StringView) : Checked Bitboard := do
  let fileChar ← charAt algebraicSquare 0
  let rankChar ← charAt algebraicSquare 1
  rawCheck ('a' ≤ fileChar && fileChar ≤ 'h') "Invalid file."
  rawCheck ('1' ≤ rankChar && rankChar ≤ '8') "Invalid rank."
  let file : ℤ := (fileChar.toNat : ℤ) - ('a'.toNat : ℤ)
  let rank : ℤ := (rankChar.toNat : ℤ) - ('1'.toNat : ℤ)
  coordinatesToSquare file rank

/-- `strToSquare` of a string literal of the source. The program computes these before `main`;
the analysis shows for each literal it uses that no check fails. -/
def square (literal : StringView) : Bitboard := (strToSquare literal).toOption.getD 0

/-- The loop of `bitboardSplit`, which takes the lowest set bit off in each round. -/
def bitboardSplitLoop (bb : Bitboard) (res : List Bitboard) : List Bitboard :=
  if _h : bb = 0 then res
  else
    let bbWithLsbCleared := bb &&& (bb - 1)
    let bbWithOnlyLsb := bb ^^^ bbWithLsbCleared
    bitboardSplitLoop bbWithLsbCleared (res ++ [bbWithOnlyLsb])
termination_by bb.toNat
decreasing_by exact BitWord.and_sub_one_lt _h

def bitboardSplit (bb : Bitboard) : List Bitboard := bitboardSplitLoop bb []

def flipColor (color : Color) : Color := if color = .white then .black else .white

@[simp] theorem flipColor_white : flipColor .white = .black := rfl

@[simp] theorem flipColor_black : flipColor .black = .white := rfl

@[simp] theorem flipColor_flipColor (c : Color) : flipColor (flipColor c) = c := by
  cases c <;> rfl

@[simp] theorem flipColor_ne (c : Color) : flipColor c ≠ c := by
  cases c <;> decide

@[simp] theorem ne_flipColor (c : Color) : c ≠ flipColor c := (flipColor_ne c).symm

end PawnGrabber
