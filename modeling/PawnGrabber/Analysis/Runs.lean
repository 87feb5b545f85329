import PawnGrabber.Model.Fen
import PawnGrabber.Analysis.LegalMovesSpec

/-!
# Runs of play

`LegalRun` is play with the program's own operations: each move is taken from `legal_moves()`
of the current board and made with `do_move`. One step keeps a board well-formed, so every
run does, and along a run the boards stand for the positions of the rules.
-/

set_option autoImplicit false

namespace PawnGrabber

open ExceptFold Rules

/-- The moves of the list, each taken from `legal_moves()` and made with `do_move`, lead from
the first board to the last. -/
inductive LegalRun : Board → List Move → Board → Prop
  | nil (b : Board) : LegalRun b [] b
  | cons {b b₁ b' : Board} {move : Move} {moves line : List Move}
      (legal : b.legalMoves = .ok moves) (mem : move ∈ moves) (made : b.doMove move = .ok b₁)
      (rest : LegalRun b₁ line b') : LegalRun b (move :: line) b'

namespace Board

variable {b b' : Board}

/-- One step of play, in the terms of the rules. -/
theorem WellFormed.step (h : b.WellFormed) {moves : List Move} {move : Move} {b₁ : Board}
    (hlegal : b.legalMoves = .ok moves) (hmem : move ∈ moves) (hmade : b.doMove move = .ok b₁) :
    ∃ m, move = b.encode m ∧ b.position.Legal m ∧ b₁.position = b.position.play m ∧
      b₁.WellFormed := by
  obtain ⟨m, hm, rfl⟩ := (mem_legalMoves_iff h hlegal).mp hmem
  obtain ⟨b₂, hdo, hwf, hposition⟩ := doMove_of_legal h hm
  rw [hdo, Except.ok.injEq] at hmade
  subst hmade
  exact ⟨m, rfl, hm, hposition, hwf⟩

/-- Whatever a step of play preserves on well-formed boards holds at the end of a run. -/
theorem WellFormed.run {P : Board → List Move → Board → Prop}
    (hnil : ∀ b, P b [] b)
    (hcons : ∀ {b b₁ b' : Board} {m : ChessMove} {line : List Move}, b.WellFormed →
      b.position.Legal m → b₁.position = b.position.play m → b₁.WellFormed →
      P b₁ line b' → P b (b.encode m :: line) b')
    {line : List Move} (h : b.WellFormed) (run : LegalRun b line b') : P b line b' := by
  induction run with
  | nil b => exact hnil b
  | cons legal mem made _ ih =>
    obtain ⟨m, rfl, hm, hposition, hwf⟩ := h.step legal mem made
    exact hcons h hm hposition hwf (ih hwf)

theorem encode_mem_of_legal (h : b.WellFormed) {m : ChessMove} (hm : b.position.Legal m) :
    b.encode m ∈ (legalList b.position).map b.encode :=
  List.mem_map_of_mem ((mem_legalList h.position).mpr hm)

end Board

/-- A legal move is a run of one move. -/
theorem LegalRun.of_legal {b : Board} (h : b.WellFormed) {m : ChessMove}
    (hm : b.position.Legal m) : ∃ b', LegalRun b [b.encode m] b' := by
  obtain ⟨b', hdo, -⟩ := Board.doMove_of_legal h hm
  exact ⟨b', .cons (Board.legalMoves_eq h) (Board.encode_mem_of_legal h hm) hdo (.nil b')⟩

/-! ## Boards -/

/-- The start position, as its fields. -/
def startBoard : Board :=
  { whitePawns := 0xff00, whiteRooks := 0x81, whiteKnights := 0x42, whiteBishops := 0x24,
    whiteQueens := 0x10, whiteKing := 0x8, blackPawns := 0xff000000000000,
    blackRooks := 0x8100000000000000, blackKnights := 0x4200000000000000,
    blackBishops := 0x2400000000000000, blackQueens := 0x1000000000000000,
    blackKing := 0x800000000000000, isWhitesMove := true, enPassantSquare := none,
    whiteHasRightToCastleKingside := true, whiteHasRightToCastleQueenside := true,
    blackHasRightToCastleKingside := true, blackHasRightToCastleQueenside := true,
    fiftyMoveClock := 0, numMoves := 1 }

theorem start_eq : Board.start = .ok startBoard := rfl

theorem startBoard_wellFormed : startBoard.WellFormed := by decide +kernel

/-- 1. e4, from bit 11 to bit 27: the move the examples of play start with. -/
def kingsPawn : ChessMove := ⟨Square.ofIndex 11, Square.ofIndex 27, .pawn, .twoStepPawn⟩

theorem kingsPawn_legal : startBoard.position.Legal kingsPawn := by decide +kernel

theorem kingsPawn_run : ∃ b, LegalRun startBoard [startBoard.encode kingsPawn] b :=
  LegalRun.of_legal startBoard_wellFormed kingsPawn_legal

/-- The two kings at home and nothing else, with Black to move. -/
def kingsBoard (numMoves : Int32) : Board :=
  { uninitializedBoard with
    whiteKing := 0x8, blackKing := 0x800000000000000, isWhitesMove := false, numMoves := numMoves }

theorem ofFen_kingsBoard :
    Board.ofFen "4k3/8/8/8/8/8/8/4K3 b - - 0 2147483647".toList = .ok (kingsBoard 2147483647) :=
  rfl

/-- The black king goes from e8 to e7. -/
def kingStep : ChessMove := ⟨Square.ofIndex 59, Square.ofIndex 51, .king, .simple⟩

theorem kingStep_legal (numMoves : Int32) :
    (kingsBoard numMoves).WellFormed ∧ (kingsBoard numMoves).position.Legal kingStep := by
  have hone : (kingsBoard 1).WellFormed ∧ (kingsBoard 1).position.Legal kingStep := by
    decide +kernel
  exact ⟨⟨hone.1.disjoint, hone.1.epSquare, hone.1.position⟩, hone.2⟩

/-- White king b6 and rook h1 against black king a8, with White to move. -/
def mateBoard : Board :=
  { uninitializedBoard with
    whiteRooks := 0x1, whiteKing := 0x400000000000, blackKing := 0x8000000000000000,
    isWhitesMove := true, numMoves := 1 }

/-- The rook goes from h1 to h8. -/
def rookMates : ChessMove := ⟨Square.ofIndex 0, Square.ofIndex 56, .rook, .simple⟩

theorem rookMates_legal : mateBoard.WellFormed ∧ mateBoard.position.Legal rookMates ∧
    legalList (mateBoard.position.play rookMates) = [] := by
  decide +kernel

/-- White king e1, rooks a1 and h1, knight e3 and pawn b7 against black king g8, rooks a8 and e7,
bishop d5 and pawn c3. White may castle on both wings, the knight is pinned, the rook on a1 looks up
an open file at the rook on a8, and there bxa8, Bxa8, Rxa8 are captures one after the other. -/
def tacticalBoard : Board :=
  { uninitializedBoard with
    whitePawns := 0x40000000000000, whiteRooks := 0x81, whiteKnights := 0x80000, whiteKing := 0x8,
    blackPawns := 0x200000, blackRooks := 0x8008000000000000, blackBishops := 0x1000000000,
    blackKing := 0x200000000000000, isWhitesMove := true, whiteHasRightToCastleKingside := true,
    whiteHasRightToCastleQueenside := true, numMoves := 1 }

/-- The pawn on b7 takes the rook on a8 and becomes a queen. -/
def pawnTakesRook : ChessMove := ⟨Square.ofIndex 54, Square.ofIndex 63, .pawn, .promotionToQueen⟩

theorem tacticalBoard_facts : tacticalBoard.WellFormed ∧
    (∀ w, MayCastle tacticalBoard.position .white w) ∧
    tacticalBoard.position.Legal pawnTakesRook := by
  decide +kernel

theorem tacticalBoard_wellFormed : tacticalBoard.WellFormed := tacticalBoard_facts.1

theorem tacticalBoard_mayCastle (w : Wing) : MayCastle tacticalBoard.position .white w :=
  tacticalBoard_facts.2.1 w

theorem pawnTakesRook_legal : tacticalBoard.position.Legal pawnTakesRook :=
  tacticalBoard_facts.2.2

/-- The bishop takes what the pawn on a8 has become. -/
def bishopTakesQueen : ChessMove := ⟨Square.ofIndex 36, Square.ofIndex 63, .bishop, .capture⟩

/-- The rook on a1 takes the bishop. -/
def rookTakesBishop : ChessMove := ⟨Square.ofIndex 7, Square.ofIndex 63, .rook, .capture⟩

/-- The three captures on a8 are legal in turn, and each takes a piece on its destination. -/
theorem exchange_legal :
    Holds tacticalBoard.position.mailbox .black pawnTakesRook.dst ∧
      ((tacticalBoard.position.play pawnTakesRook).Legal bishopTakesQueen ∧
        Holds (tacticalBoard.position.play pawnTakesRook).mailbox .white bishopTakesQueen.dst) ∧
      ((tacticalBoard.position.play pawnTakesRook).play bishopTakesQueen).Legal rookTakesBishop ∧
        Holds ((tacticalBoard.position.play pawnTakesRook).play bishopTakesQueen).mailbox .black
          rookTakesBishop.dst := by
  decide +kernel

theorem pawnTakesRook_run :
    ∃ b, LegalRun tacticalBoard [tacticalBoard.encode pawnTakesRook] b :=
  LegalRun.of_legal tacticalBoard_wellFormed pawnTakesRook_legal

end PawnGrabber
