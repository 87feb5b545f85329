import PawnGrabber.Analysis.MirrorBoard
import PawnGrabber.Theorems.GameTree

/-!
# White and Black play by the same rules

Generating moves, making them, evaluating and searching commute with mirroring the board,
although the program writes most of it twice, once for each colour, and lists the moves of
the two colours in different orders.
-/

set_option autoImplicit false

namespace PawnGrabber

namespace Board

/-- The mirrored board has the mirrored legal moves in some order, each with the mirrored
effect up to the number of moves, the negated static evaluation and the same value at every
depth. -/
theorem mirror_symmetric {b : Board} (h : b.WellFormed) :
    (∃ moves moves', b.legalMoves = .ok moves ∧ b.mirror.legalMoves = .ok moves' ∧
      moves'.Perm (moves.map Move.mirror) ∧
      ∀ move ∈ moves, ∃ b₁ b₁', b.doMove move = .ok b₁ ∧
        b.mirror.doMove move.mirror = .ok b₁' ∧
        { b₁' with numMoves := b₁.numMoves } = b₁.mirror) ∧
    (∃ v, b.staticEvaluation = .ok v ∧ b.mirror.staticEvaluation = .ok (-v)) ∧
    ∀ d fuel, 64 < fuel → ∃ v pv pv', evaluation fuel b d [] = .ok (v, pv) ∧
      evaluation fuel b.mirror d [] = .ok (v, pv') := by
  refine ⟨?_, staticEvaluation_mirror h, ?_⟩
  · obtain ⟨moves, moves', hmoves, hmoves', hperm⟩ := legalMoves_mirror h
    refine ⟨moves, moves', hmoves, hmoves', hperm, ?_⟩
    intro move hmem
    obtain ⟨m, hm, rfl⟩ := (mem_legalMoves_iff h hmoves).mp hmem
    rw [encode_mirror]
    exact doMove_mirror h hm
  · intro d fuel hfuel
    have himage : IsMirrorImage ⟨b, h⟩ ⟨b.mirror, h.mirror⟩ :=
      position_mirror h.disjoint h.epSquare
    have hvalue : unprunedValue d ⟨b, h⟩ = unprunedValue d ⟨b.mirror, h.mirror⟩ :=
      isBisimulation_isMirrorImage.negamax_eq d himage
    have hb := evaluation_eq hfuel ⟨b, h⟩ d
    rw [hvalue] at hb
    exact ⟨_, _, _, hb, evaluation_eq hfuel ⟨b.mirror, h.mirror⟩ d⟩

theorem mirror_symmetric_start :
    (∃ moves moves', startBoard.legalMoves = .ok moves ∧
      startBoard.mirror.legalMoves = .ok moves' ∧ moves'.Perm (moves.map Move.mirror) ∧
      ∀ move ∈ moves, ∃ b₁ b₁', startBoard.doMove move = .ok b₁ ∧
        startBoard.mirror.doMove move.mirror = .ok b₁' ∧
        { b₁' with numMoves := b₁.numMoves } = b₁.mirror) ∧
    (∃ v, startBoard.staticEvaluation = .ok v ∧
      startBoard.mirror.staticEvaluation = .ok (-v)) ∧
    ∀ d fuel, 64 < fuel → ∃ v pv pv', evaluation fuel startBoard d [] = .ok (v, pv) ∧
      evaluation fuel startBoard.mirror d [] = .ok (v, pv') :=
  mirror_symmetric startBoard_wellFormed

end Board

end PawnGrabber
