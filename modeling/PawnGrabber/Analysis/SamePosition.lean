import PawnGrabber.Library.Lockstep
import PawnGrabber.Analysis.SearchResult

/-!
# Boards that stand for one position

Two boards of one position differ in their counters only. They offer the same moves in the same
order, and the boards after them stand for one position again, so the search goes through both in
lockstep.
-/

set_option autoImplicit false

namespace PawnGrabber

open ExceptFold Rules GameSearch

/-- The same move, possibly saved with different boards. -/
def Move.SameMove (move other : Move) : Prop :=
  { move with boardState := other.boardState } = other

theorem Board.sameMove_encode (b b' : Board) (m : ChessMove) :
    (b.encode m).SameMove (b'.encode m) := rfl

namespace Board

/-- The board with other counters. -/
def withCounters (b : Board) (fiftyMoveClock numMoves : Int32) : Board :=
  { b with fiftyMoveClock := fiftyMoveClock, numMoves := numMoves }

theorem WellFormed.withCounters {b : Board} (h : b.WellFormed) (fiftyMoveClock numMoves : Int32) :
    (b.withCounters fiftyMoveClock numMoves).WellFormed :=
  ⟨h.disjoint, h.epSquare, h.position⟩

end Board

namespace PlayBoard

variable {g h : PlayBoard}

/-- The children of a board are its legal moves, in their order, with the boards after them. -/
theorem forall₂_children (g : PlayBoard) :
    List.Forall₂ (fun x m => x.1 = g.1.encode m ∧ x.2.1.position = g.1.position.play m)
      g.children (legalList g.1.position) := by
  have hmoves : g.children.map Prod.fst = (legalList g.1.position).map g.1.encode := by
    rw [map_fst_children]
    exact Except.ok.inj (g.legalMoves_eq.symm.trans (Board.legalMoves_eq g.2))
  have hpairs : List.Forall₂ (fun x m => x.1 = g.1.encode m) g.children
      (legalList g.1.position) := by
    rw [← List.forall₂_map_left_iff (f := Prod.fst) (R := fun x m => x = g.1.encode m), hmoves,
      List.forall₂_map_left_iff, List.forall₂_same]
    exact fun _ _ => rfl
  rw [← List.map_id g.children, ← List.map_id (legalList g.1.position)]
  apply forall₂_map_of_mem hpairs
  intro x hx m hm
  obtain ⟨m', -, heq, hposition⟩ := exists_of_mem_children hx
  rw [hm, g.1.encode_injective.eq_iff] at heq
  exact ⟨hm, by rw [id, id, hposition, heq]⟩

/-- The children of two boards of one position, side by side. -/
theorem forall₂_children_of_position (hgh : g.1.position = h.1.position) :
    List.Forall₂ (fun x y => ∃ m, x.1 = g.1.encode m ∧ y.1 = h.1.encode m ∧
      x.2.1.position = y.2.1.position) g.children h.children := by
  have hchildren := h.forall₂_children
  rw [← hgh] at hchildren
  refine (forall₂_of_common g.forall₂_children hchildren).imp ?_
  rintro x y ⟨m, ⟨hx, hxposition⟩, hy, hyposition⟩
  exact ⟨m, hx, hy, hxposition.trans hyposition.symm⟩

end PlayBoard

/-- The search sees no difference between boards of one position. -/
theorem chessGame_lockstep :
    Game.InLockstep chessGame chessGame
      (fun g h : PlayBoard => g.1.position = h.1.position) Move.SameMove where
  eval g h hgh := by
    obtain ⟨v, hv, hg⟩ := staticEvaluation_mul_moverSign g
    obtain ⟨w, hw, hh⟩ := staticEvaluation_mul_moverSign h
    rw [Board.staticEvaluation_eq g.2, Except.ok.injEq] at hv
    rw [Board.staticEvaluation_eq h.2, ← hgh, hv, Except.ok.injEq] at hw
    have hside : g.1.sideToMove = h.1.sideToMove := congrArg Position.side hgh
    change g.eval = h.eval
    rw [← hg, ← hh, hw, Board.moverSign, Board.moverSign, Board.isWhitesMove_eq,
      Board.isWhitesMove_eq, hside]
  children g h hgh := by
    refine (PlayBoard.forall₂_children_of_position hgh).imp ?_
    rintro x y ⟨m, hx, hy, hposition⟩
    rw [hx, hy]
    exact ⟨Board.sameMove_encode g.1 h.1 m, hposition⟩
  captures g h hgh := by
    have hfilter := List.rel_filter (p := fun x => g.1.isCaptureMove x.1)
      (q := fun y => h.1.isCaptureMove y.1) ?_ (PlayBoard.forall₂_children_of_position hgh)
    · refine hfilter.imp ?_
      rintro x y ⟨m, hx, hy, hposition⟩
      rw [hx, hy]
      exact ⟨Board.sameMove_encode g.1 h.1 m, hposition⟩
    · rintro x y ⟨m, hx, hy, -⟩
      change g.1.isCaptureMove x.1 = true ↔ h.1.isCaptureMove y.1 = true
      rw [hx, hy, PlayBoard.isCaptureMove_iff, PlayBoard.isCaptureMove_iff, hgh]

end PawnGrabber
