import PawnGrabber.Analysis.Captures

/-!
# Captures

The theorems about the capture filter and the search that sees only what it lets through: it
misses en passant captures and nothing else, and each call of `quiescence_search` nested in
another is for a board with one piece fewer that is not a king.
-/

set_option autoImplicit false

namespace PawnGrabber

open ExceptFold Rules

namespace Board

variable {b : Board}

/-! ## The filter -/

/-- `legal_capture_moves()` is the sublist of `legal_moves()` of the moves that take an enemy
piece off the board exactly if no en passant capture is legal. -/
theorem legalCaptureMoves_exact_iff (h : b.WellFormed) :
    ∃ moves captures, b.legalMoves = .ok moves ∧ b.legalCaptureMoves = .ok captures ∧
      (captures = moves.filter b.removesEnemy ↔
        ∀ m, b.position.Legal m → m.type ≠ .enPassant) :=
  ⟨_, _, legalMoves_eq h, legalCaptureMoves_eq_filter h, filter_isCaptureMove_iff h⟩

theorem pawnTakesRook_mem_captures {captures : List Move}
    (hcaptures : tacticalBoard.legalCaptureMoves = .ok captures) :
    tacticalBoard.encode pawnTakesRook ∈ captures := by
  rw [mem_legalCaptureMoves tacticalBoard_wellFormed hcaptures]
  refine ⟨pawnTakesRook, pawnTakesRook_legal, rfl, ?_⟩
  rw [isCaptureMove_encode tacticalBoard_wellFormed.disjoint]
  decide

/-- There are captures, and no en passant square. -/
theorem legalCaptureMoves_exact_iff_tactical :
    ∃ moves captures, tacticalBoard.legalMoves = .ok moves ∧
      tacticalBoard.legalCaptureMoves = .ok captures ∧
      captures = moves.filter tacticalBoard.removesEnemy ∧
      tacticalBoard.encode pawnTakesRook ∈ captures := by
  obtain ⟨moves, captures, hmoves, hcaptures, hiff⟩ :=
    legalCaptureMoves_exact_iff tacticalBoard_wellFormed
  refine ⟨moves, captures, hmoves, hcaptures, hiff.mpr ?_, ?_⟩
  · intro m hm htype
    cases hm.performable.enPassant_target htype
  · exact pawnTakesRook_mem_captures hcaptures

/-- White pawn e5, black pawn d5 after its double step, and the two kings at home. -/
def enPassantBoard : Board :=
  { uninitializedBoard with
    whitePawns := 0x800000000, whiteKing := 0x8, blackPawns := 0x1000000000,
    blackKing := 0x800000000000000, isWhitesMove := true,
    enPassantSquare := some 0x100000000000, numMoves := 2 }

/-- exd6 is legal and takes the pawn on d5, but `legal_capture_moves()` leaves it out. -/
theorem legalCaptureMoves_of_enPassantBoard :
    enPassantBoard.WellFormed ∧ ∃ moves captures, enPassantBoard.legalMoves = .ok moves ∧
      enPassantBoard.legalCaptureMoves = .ok captures ∧
      captures ≠ moves.filter enPassantBoard.removesEnemy := by
  obtain ⟨hwf, hlegal⟩ : enPassantBoard.WellFormed ∧
      enPassantBoard.position.Legal
        ⟨Square.ofIndex 35, Square.ofIndex 44, .pawn, .enPassant⟩ := by
    decide +kernel
  refine ⟨hwf, _, _, legalMoves_eq hwf, legalCaptureMoves_eq_filter hwf, ?_⟩
  intro heq
  exact (filter_isCaptureMove_iff hwf).mp heq _ hlegal rfl

/-! ## The capture search -/

/-- `quiescence_search` comes to an end although nothing limits its depth: a capture it
follows removes one piece of the opponent that is not its king and none of the mover's, so a
chain of nested calls has at most as many members as there are pieces besides the kings, and
that many rounds of recursion are enough for any window. -/
theorem quiescenceSearch_terminates (h : b.WellFormed) :
    (∀ captures, b.legalCaptureMoves = .ok captures → ∀ move ∈ captures,
      ∃ b', b.doMove move = .ok b' ∧ b'.WellFormed ∧
        b'.nonKingCount (flipColor b.sideToMove) + 1 =
          b.nonKingCount (flipColor b.sideToMove) ∧
        b'.nonKingCount b.sideToMove = b.nonKingCount b.sideToMove) ∧
    (∀ line b', CaptureRun b line b' →
      line.length ≤ b.nonKingCount .white + b.nonKingCount .black) ∧
    ∀ (α β : ℤ) (pv : List Move), ∃ r, ∀ fuel,
      b.nonKingCount .white + b.nonKingCount .black < fuel →
        quiescenceSearch fuel b α β pv = .ok r := by
  refine ⟨?_, fun line b' run => run.length_le h,
    ?_⟩
  · intro captures hcaptures move hmem
    obtain ⟨m, hm, rfl, hcapture⟩ := (mem_legalCaptureMoves h hcaptures).mp hmem
    exact nonKingCount_of_capture h hm hcapture
  · intro α β pv
    obtain ⟨r, hr⟩ : ∃ r, quiescenceSearch (b.nonKingCount .white + b.nonKingCount .black + 1)
        b α β pv = .ok r := exists_quiescenceSearch h (Nat.lt_succ_self _)
    exact ⟨r, fun fuel hfuel => quiescenceSearch_mono hfuel hr⟩

/-- A chain of three captures on a8. -/
theorem captureRun_tactical : ∃ line b', CaptureRun tacticalBoard line b' ∧ line.length = 3 := by
  obtain ⟨hd, ⟨hm₁, hd₁⟩, hm₂, hd₂⟩ := exchange_legal
  obtain ⟨b₁, h₁, hp₁, step⟩ :=
    CaptureRun.step tacticalBoard_wellFormed pawnTakesRook_legal hd
  obtain ⟨b₂, h₂, hp₂, step₁⟩ := CaptureRun.step h₁ (m := bishopTakesQueen)
    (by rw [hp₁]; exact hm₁) (by rw [hp₁]; exact hd₁)
  obtain ⟨b₃, -, -, step₂⟩ := CaptureRun.step h₂ (m := rookTakesBishop)
    (by rw [hp₂, hp₁]; exact hm₂) (by rw [hp₂, hp₁]; exact hd₂)
  exact ⟨_, b₃, step (step₁ (step₂ (.nil b₃))), rfl⟩

/-- The pawn takes a rook, and the queen it has become is taken and retaken. -/
theorem quiescenceSearch_terminates_tactical :
    (∃ b', tacticalBoard.doMove (tacticalBoard.encode pawnTakesRook) = .ok b' ∧ b'.WellFormed ∧
      b'.nonKingCount .black + 1 = tacticalBoard.nonKingCount .black ∧
      b'.nonKingCount .white = tacticalBoard.nonKingCount .white) ∧
    (∃ line b', CaptureRun tacticalBoard line b' ∧ line.length = 3 ∧
      line.length ≤ tacticalBoard.nonKingCount .white + tacticalBoard.nonKingCount .black) ∧
    ∀ (α β : ℤ) (pv : List Move), ∃ r, ∀ fuel,
      tacticalBoard.nonKingCount .white + tacticalBoard.nonKingCount .black < fuel →
        quiescenceSearch fuel tacticalBoard α β pv = .ok r := by
  obtain ⟨hcapture, hlength, hreturns⟩ := quiescenceSearch_terminates tacticalBoard_wellFormed
  obtain ⟨line, b', run, hthree⟩ := captureRun_tactical
  have hcaptures := legalCaptureMoves_eq_filter tacticalBoard_wellFormed
  exact ⟨hcapture _ hcaptures _ (pawnTakesRook_mem_captures hcaptures),
    ⟨line, b', run, hthree, hlength line b' run⟩, hreturns⟩

end Board

end PawnGrabber
