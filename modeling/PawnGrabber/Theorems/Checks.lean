import PawnGrabber.Rules.Check
import PawnGrabber.Analysis.Runs

/-!
# Checks and pins

`is_pseudolegal_move_legal` makes a move on a copy of the board and asks whether the king is
attacked there. The answer is decided by the lines of the board before the move; in particular
every legal move answers every check.
-/

set_option autoImplicit false

namespace PawnGrabber

namespace Board

open ExceptFold Rules Square

variable {b : Board} {m : ChessMove}

/-- The filter lets a pseudolegal move through exactly if every enemy piece that attacks the king
(on its new square, for a move of the king) once the moving piece is lifted off the board is
captured or cut off by the arrival of that piece. -/
theorem isPseudolegalMoveLegal_iff_lines (h : b.WellFormed)
    (hm : PseudoLegal b.position b.sideToMove m) {k : Square}
    (hk : b.mailbox k = some (b.sideToMove, .king)) :
    ∃ r, b.isPseudolegalMoveLegal (b.encode m) = .ok r ∧
      (r = true ↔ ∀ s, AttackedFrom (lifted b.position m) (flipColor b.sideToMove) s
        (kingAfter m k) → s = m.dst ∨ Between s m.dst (kingAfter m k)) := by
  have hperform : Performable b.position m := Or.inl hm
  have hcastle : ∀ w, m ≠ castleMove b.position.side w := by
    rintro w rfl
    exact not_pseudoLegal_castleMove _ w hm
  refine ⟨_, isPseudolegalMoveLegal_eq h hperform, ?_⟩
  rw [Bool.not_eq_true', decide_eq_false_iff_not]
  rw [show KingAttacked (b.position.mailboxAfter m) b.sideToMove ↔ _ from
    hperform.kingAttacked_after_iff h.position hcastle hk]
  simp only [not_exists, not_and, not_not, position_side, ← or_iff_not_imp_left, ne_eq]

/-- The knight on e3, which the rook on e7 pins, goes to c4. -/
def knightStep : ChessMove := ⟨Square.ofIndex 19, Square.ofIndex 29, .knight, .simple⟩

theorem isPseudolegalMoveLegal_iff_lines_pinned :
    tacticalBoard.isPseudolegalMoveLegal (tacticalBoard.encode knightStep) = .ok false ∧
      AttackedFrom (lifted tacticalBoard.position knightStep) .black (Square.ofIndex 51)
        (kingHome .white) := by
  have hattacked : AttackedFrom (lifted tacticalBoard.position knightStep) .black
      (Square.ofIndex 51) (kingHome .white) := by
    decide
  have hm : PseudoLegal tacticalBoard.position .white knightStep := by decide
  obtain ⟨r, hr, hiff⟩ := isPseudolegalMoveLegal_iff_lines tacticalBoard_wellFormed hm
    (k := kingHome .white) rfl
  have hfalse : r = false := by
    rw [← Bool.not_eq_true, hiff]
    intro hall
    have hcut := hall (Square.ofIndex 51) hattacked
    revert hcut
    decide
  rw [hfalse] at hr
  exact ⟨hr, hattacked⟩

/-- In check a legal move is a move of the king, or it takes the attacker, also en passant, or it
goes between the attacker and the king. Two attackers at once leave moves of the king and en
passant captures only. -/
theorem legalMoves_answer_check (h : b.WellFormed) {moves : List Move}
    (hmoves : b.legalMoves = .ok moves) {move : Move} (hmem : move ∈ moves)
    (hpiece : move.pieceMoving ≠ .king) :
    ∃ m, move = b.encode m ∧ ∀ k, b.mailbox k = some (b.sideToMove, .king) →
      (∀ s, AttackedFrom b.mailbox (flipColor b.sideToMove) s k →
        TakesOn b.position m s ∨ Between s m.dst k) ∧
      ∀ s s', AttackedFrom b.mailbox (flipColor b.sideToMove) s k →
        AttackedFrom b.mailbox (flipColor b.sideToMove) s' k → s ≠ s' →
          move.moveType = .enPassant := by
  obtain ⟨m, hm, rfl⟩ := (mem_legalMoves_iff h hmoves).mp hmem
  refine ⟨m, rfl, fun k hk => ⟨?_, ?_⟩⟩
  · intro s hs
    exact hm.answers_check h.position hpiece hk hs
  · intro s s' hs hs' hne
    exact hm.answers_double_check h.position hpiece hk hs hs' hne

/-- White king e1 and rook a4 against black king h8 and rook e8, which gives check. -/
def checkBoard : Board :=
  { uninitializedBoard with
    whiteRooks := 0x80000000, whiteKing := 0x8, blackRooks := 0x800000000000000,
    blackKing := 0x100000000000000, isWhitesMove := true, numMoves := 1 }

/-- The rook goes from a4 to e4, between the black rook and the king. -/
def rookLift : ChessMove := ⟨Square.ofIndex 31, Square.ofIndex 27, .rook, .simple⟩

theorem legalMoves_answer_check_rookLift :
    ∃ m, checkBoard.encode rookLift = checkBoard.encode m ∧
      ∀ k, checkBoard.mailbox k = some (checkBoard.sideToMove, .king) →
      (∀ s, AttackedFrom checkBoard.mailbox (flipColor checkBoard.sideToMove) s k →
        TakesOn checkBoard.position m s ∨ Between s m.dst k) ∧
      ∀ s s', AttackedFrom checkBoard.mailbox (flipColor checkBoard.sideToMove) s k →
        AttackedFrom checkBoard.mailbox (flipColor checkBoard.sideToMove) s' k → s ≠ s' →
          (checkBoard.encode rookLift).moveType = .enPassant := by
  obtain ⟨hwf, hlegal⟩ : checkBoard.WellFormed ∧ checkBoard.position.Legal rookLift := by
    decide +kernel
  have hpiece : rookLift.piece ≠ .king := by decide
  exact legalMoves_answer_check hwf (legalMoves_eq hwf) (encode_mem_of_legal hwf hlegal) hpiece

end Board

end PawnGrabber
