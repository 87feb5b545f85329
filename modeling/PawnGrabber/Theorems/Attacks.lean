import PawnGrabber.Analysis.Runs

/-!
# Attacks and castling

The attack mask is collected from the destinations of moves, so it holds the targets of pawn
pushes besides the attacked squares. It is exact where the program looks for pieces under
attack, and castling, which asks it about empty squares, is decided as if it were exact.
-/

set_option autoImplicit false

namespace PawnGrabber

open ExceptFold Rules

namespace Board

variable {b : Board}

/-- On the squares of the other side `attack_squares` is exact, so `is_king_attacked` is; it
holds every attacked empty square, and what else it holds are the targets of pawn pushes. -/
theorem attackSquares_exact (h : b.Sound) (c : Color) :
    (∃ mask, b.attackSquares c = .ok mask ∧
      (∀ t, Holds b.mailbox (flipColor c) t →
        (has mask t = true ↔ AttackedBy b.mailbox c t)) ∧
      (∀ t, b.mailbox t = none → AttackedBy b.mailbox c t → has mask t = true) ∧
      ∀ t, b.mailbox t = none → has mask t = true → ¬AttackedBy b.mailbox c t →
        ∃ m, PseudoLegal b.position c m ∧ m.piece = .pawn ∧ m.dst = t ∧ m.src.file = t.file ∧
          (m.type = .simple ∨ m.type = .twoStepPawn ∨ m.type ∈ promotionMoveTypes)) ∧
    b.isKingAttacked c = .ok (decide (KingAttacked b.mailbox c)) := by
  obtain ⟨mask, hmask, hhas⟩ := attackSquares_spec h c
  refine ⟨⟨mask, hmask, ?_, ?_, ?_⟩,
    isKingAttacked_eq h c⟩
  · intro t ht
    rw [hhas]
    exact inAttackMask_iff ht
  · intro t ht ha
    rw [hhas]
    exact AttackedBy.inAttackMask ha fun hh => hh.ne_none ht
  · intro t _ hin hnot
    have hpush := ((hhas t).mp hin).attacked_or_push.resolve_left hnot
    exact hpush.exists_push

theorem attackSquares_exact_start :
    (∃ mask, startBoard.attackSquares .black = .ok mask ∧
      (∀ t, Holds startBoard.mailbox .white t →
        (has mask t = true ↔ AttackedBy startBoard.mailbox .black t)) ∧
      (∀ t, startBoard.mailbox t = none → AttackedBy startBoard.mailbox .black t →
        has mask t = true) ∧
      ∀ t, startBoard.mailbox t = none → has mask t = true →
        ¬AttackedBy startBoard.mailbox .black t →
        ∃ m, PseudoLegal startBoard.position .black m ∧ m.piece = .pawn ∧ m.dst = t ∧
          m.src.file = t.file ∧
          (m.type = .simple ∨ m.type = .twoStepPawn ∨ m.type ∈ promotionMoveTypes)) ∧
    startBoard.isKingAttacked .black = .ok (decide (KingAttacked startBoard.mailbox .black)) :=
  attackSquares_exact startBoard_wellFormed.sound .black

/-- The castling tests answer as if the mask held the attacked squares only, and a castling
they allow passes the king-safety filter although it is not sent through it. -/
theorem castlingTests_exact (h : b.WellFormed) :
    ∃ kingside queenside, b.isCastleKingsideLegal = .ok kingside ∧
      b.isCastleQueensideLegal = .ok queenside ∧
      (kingside = true ↔ CastlingTest b.position b.sideToMove .kingside
        (AttackedBy b.mailbox (flipColor b.sideToMove))) ∧
      (queenside = true ↔ CastlingTest b.position b.sideToMove .queenside
        (AttackedBy b.mailbox (flipColor b.sideToMove))) ∧
      (kingside = true →
        b.isPseudolegalMoveLegal (castleKingsideMove b.sideToMove b) = .ok true) ∧
      (queenside = true →
        b.isPseudolegalMoveLegal (castleQueensideMove b.sideToMove b) = .ok true) := by
  have hiff := fun w => mayCastle_iff h.position.toSound (h.position.castling b.sideToMove w)
  refine ⟨_, _, isCastleKingsideLegal_eq h, isCastleQueensideLegal_eq h, ?_, ?_, ?_, ?_⟩
  · rw [decide_eq_true_eq]
    exact hiff .kingside
  · rw [decide_eq_true_eq]
    exact hiff .queenside
  · intro hcastle
    rw [castleKingsideMove_eq]
    exact isPseudolegalMoveLegal_castleMove h (of_decide_eq_true hcastle)
  · intro hcastle
    rw [castleQueensideMove_eq]
    exact isPseudolegalMoveLegal_castleMove h (of_decide_eq_true hcastle)

/-- Castling is allowed on both wings, with the target of a black pawn push on c2. -/
theorem castlingTests_exact_tactical :
    tacticalBoard.isCastleKingsideLegal = .ok true ∧
      tacticalBoard.isCastleQueensideLegal = .ok true ∧
      CastlingTest tacticalBoard.position .white .kingside
        (AttackedBy tacticalBoard.mailbox .black) ∧
      CastlingTest tacticalBoard.position .white .queenside
        (AttackedBy tacticalBoard.mailbox .black) ∧
      tacticalBoard.isPseudolegalMoveLegal (castleKingsideMove .white tacticalBoard) = .ok true ∧
      tacticalBoard.isPseudolegalMoveLegal (castleQueensideMove .white tacticalBoard) =
        .ok true := by
  obtain ⟨kingside, queenside, hkingside, hqueenside, hkingsideTest, hqueensideTest,
    hkingsideFilter, hqueensideFilter⟩ := castlingTests_exact tacticalBoard_wellFormed
  have hmay := fun w => decide_eq_true (tacticalBoard_mayCastle w)
  obtain rfl : kingside = true := by
    rw [isCastleKingsideLegal_eq tacticalBoard_wellFormed, Except.ok.injEq] at hkingside
    exact hkingside.symm.trans (hmay .kingside)
  obtain rfl : queenside = true := by
    rw [isCastleQueensideLegal_eq tacticalBoard_wellFormed, Except.ok.injEq] at hqueenside
    exact hqueenside.symm.trans (hmay .queenside)
  exact ⟨hkingside, hqueenside, hkingsideTest.mp rfl, hqueensideTest.mp rfl, hkingsideFilter rfl,
    hqueensideFilter rfl⟩

end Board

end PawnGrabber
