import PawnGrabber.Model.Bitboard

/-!
# The board, moves and masks

`struct Board` and `struct Move` of `board.h`, the list of the twelve bitboards, the
masks of all pieces of a colour and the rank and castling masks at the top of
`board.cc`. The counters are C++ `int`s, 32 bits wide.
-/

set_option autoImplicit false

namespace PawnGrabber

structure Board where
  whitePawns : Bitboard
  whiteRooks : Bitboard
  whiteKnights : Bitboard
  whiteBishops : Bitboard
  whiteQueens : Bitboard
  whiteKing : Bitboard
  blackPawns : Bitboard
  blackRooks : Bitboard
  blackKnights : Bitboard
  blackBishops : Bitboard
  blackQueens : Bitboard
  blackKing : Bitboard
  isWhitesMove : Bool
  enPassantSquare : Option Bitboard
  whiteHasRightToCastleKingside : Bool
  whiteHasRightToCastleQueenside : Bool
  blackHasRightToCastleKingside : Bool
  blackHasRightToCastleQueenside : Bool
  fiftyMoveClock : Int32
  numMoves : Int32
  deriving DecidableEq, Repr

structure Move where
  srcSquare : Bitboard
  dstSquare : Bitboard
  pieceMoving : Piece
  moveType : MoveType
  boardState : Board
  deriving DecidableEq, Repr

/-- `Bitboard*` into a board: which of the twelve fields it points to. -/
abbrev BitboardPtr := Color × Piece

/-- The pointers of `all_bitboards()`, in its order. -/
def allBitboards : List BitboardPtr :=
  [(.white, .pawn), (.white, .rook), (.white, .bishop), (.white, .knight),
    (.white, .queen), (.white, .king), (.black, .pawn), (.black, .rook),
    (.black, .bishop), (.black, .knight), (.black, .queen), (.black, .king)]

namespace Board

/-- `*ptr`. -/
def bitboard (b : Board) : BitboardPtr → Bitboard
  | (.white, .pawn) => b.whitePawns
  | (.white, .rook) => b.whiteRooks
  | (.white, .knight) => b.whiteKnights
  | (.white, .bishop) => b.whiteBishops
  | (.white, .queen) => b.whiteQueens
  | (.white, .king) => b.whiteKing
  | (.black, .pawn) => b.blackPawns
  | (.black, .rook) => b.blackRooks
  | (.black, .knight) => b.blackKnights
  | (.black, .bishop) => b.blackBishops
  | (.black, .queen) => b.blackQueens
  | (.black, .king) => b.blackKing

/-- `*ptr = bb`. -/
def setBitboard (b : Board) (ptr : BitboardPtr) (bb : Bitboard) : Board :=
  match ptr with
  | (.white, .pawn) => { b with whitePawns := bb }
  | (.white, .rook) => { b with whiteRooks := bb }
  | (.white, .knight) => { b with whiteKnights := bb }
  | (.white, .bishop) => { b with whiteBishops := bb }
  | (.white, .queen) => { b with whiteQueens := bb }
  | (.white, .king) => { b with whiteKing := bb }
  | (.black, .pawn) => { b with blackPawns := bb }
  | (.black, .rook) => { b with blackRooks := bb }
  | (.black, .knight) => { b with blackKnights := bb }
  | (.black, .bishop) => { b with blackBishops := bb }
  | (.black, .queen) => { b with blackQueens := bb }
  | (.black, .king) => { b with blackKing := bb }

def whitePieces (b : Board) : Bitboard :=
  b.whitePawns ||| b.whiteKnights ||| b.whiteBishops ||| b.whiteRooks ||| b.whiteQueens |||
    b.whiteKing

def blackPieces (b : Board) : Bitboard :=
  b.blackPawns ||| b.blackKnights ||| b.blackBishops ||| b.blackRooks ||| b.blackQueens |||
    b.blackKing

def allPieces (b : Board) : Bitboard := b.whitePieces ||| b.blackPieces

def friends (b : Board) (side : Color) : Bitboard :=
  if side = .white then b.whitePieces else b.blackPieces

def enemies (b : Board) (side : Color) : Bitboard :=
  if side = .white then b.blackPieces else b.whitePieces

end Board

def seventhRankMask : Bitboard :=
  square ['a', '7'] ||| square ['b', '7'] ||| square ['c', '7'] ||| square ['d', '7'] |||
    square ['e', '7'] ||| square ['f', '7'] ||| square ['g', '7'] ||| square ['h', '7']

def secondRankMask : Bitboard :=
  square ['a', '2'] ||| square ['b', '2'] ||| square ['c', '2'] ||| square ['d', '2'] |||
    square ['e', '2'] ||| square ['f', '2'] ||| square ['g', '2'] ||| square ['h', '2']

def thirdRankMask : Bitboard :=
  square ['a', '3'] ||| square ['b', '3'] ||| square ['c', '3'] ||| square ['d', '3'] |||
    square ['e', '3'] ||| square ['f', '3'] ||| square ['g', '3'] ||| square ['h', '3']

def whiteCastleKingsideMask : Bitboard := square ['f', '1'] ||| square ['g', '1']

def whiteCastleQueensideMask : Bitboard := square ['d', '1'] ||| square ['c', '1']

def blackCastleKingsideMask : Bitboard := square ['f', '8'] ||| square ['g', '8']

def blackCastleQueensideMask : Bitboard := square ['d', '8'] ||| square ['c', '8']

end PawnGrabber
