import PawnGrabber.Model.Search
import PawnGrabber.Library.GameSearch
import PawnGrabber.Rules.Evaluation
import PawnGrabber.Analysis.Runs

/-!
# The game the search explores

The well-formed boards with the program's own `legal_moves`, `legal_capture_moves`, `do_move`
and `static_evaluation` form a game in the sense of `GameSearch`, since none of these can
fail on a well-formed board and a capture leaves fewer pieces. On it `alpha_beta` and
`quiescence_search` are the searches of that library.
-/

set_option autoImplicit false

namespace PawnGrabber

open ExceptFold Rules GameSearch

/-! ## Static evaluation -/

namespace Board

variable {b : Board}

theorem Disjoint.popCount_eq (hb : b.Disjoint) (ptr : BitboardPtr) :
    (popCount (b.bitboard ptr) : ℤ) = ∑ s : Square, if b.mailbox s = some ptr then 1 else 0 := by
  rw [PawnGrabber.popCount_eq, Finset.card_filter]
  push_cast
  apply Finset.sum_congr rfl
  intro s _
  rw [hb.has_bitboard]
  simp

/-- The weighted piece counts are the material of the mailbox. -/
theorem Disjoint.material_eq (hb : b.Disjoint) :
    (1 : ℤ) * ((popCount b.whitePawns : ℤ) - popCount b.blackPawns) +
      5 * ((popCount b.whiteRooks : ℤ) - popCount b.blackRooks) +
      3 * ((popCount b.whiteKnights : ℤ) - popCount b.blackKnights) +
      3 * ((popCount b.whiteBishops : ℤ) - popCount b.blackBishops) +
      9 * ((popCount b.whiteQueens : ℤ) - popCount b.blackQueens) = material b.mailbox := by
  have hcount := hb.popCount_eq
  simp only [members_eq b, hcount, ← Finset.sum_sub_distrib, Finset.mul_sum,
    ← Finset.sum_add_distrib]
  apply Finset.sum_congr rfl
  intro s _
  rcases b.mailbox s with _ | ⟨_ | _, _ | _ | _ | _ | _ | _⟩ <;> rfl

theorem staticEvaluation_eq (h : b.WellFormed) :
    b.staticEvaluation = .ok b.position.staticValue := by
  rw [staticEvaluation, legalMoves_eq h, ok_bind, Position.staticValue, position_mailbox,
    ← h.disjoint.material_eq]
  simp only [List.length_map, List.length_eq_zero_iff, position_side, sideToMove]
  split_ifs <;> first | rfl | simp_all

/-- The sign of `is_whites_move_ ? 1 : -1`. -/
def moverSign (b : Board) : ℤ := if b.isWhitesMove then 1 else -1

end Board

/-! ## The game -/

/-- A board that satisfies the invariant of play. -/
abbrev PlayBoard := {b : Board // b.WellFormed}

namespace PlayBoard

variable (g : PlayBoard)

/-- What `legal_moves()` returns. -/
def legalMoves : List Move := g.1.legalMoves.toOption.getD []

theorem legalMoves_eq : g.1.legalMoves = .ok g.legalMoves := by
  rw [legalMoves, Board.legalMoves_eq g.2]
  rfl

theorem mem_legalMoves {move : Move} :
    move ∈ g.legalMoves ↔ ∃ m, g.1.position.Legal m ∧ move = g.1.encode m :=
  Board.mem_legalMoves_iff g.2 g.legalMoves_eq

theorem exists_doMove {move : Move} (h : move ∈ g.legalMoves) :
    ∃ b', g.1.doMove move = .ok b' ∧ b'.WellFormed := by
  obtain ⟨m, hm, rfl⟩ := g.mem_legalMoves.mp h
  obtain ⟨b', hdo, hwf, -⟩ := Board.doMove_of_legal g.2 hm
  exact ⟨b', hdo, hwf⟩

/-- The board after a legal move. -/
def after (move : Move) (h : move ∈ g.legalMoves) : PlayBoard :=
  ⟨(g.1.doMove move).toOption.getD g.1, by
    obtain ⟨b', hdo, hwf⟩ := g.exists_doMove h
    rw [hdo]
    exact hwf⟩

theorem doMove_eq (move : Move) (h : move ∈ g.legalMoves) :
    g.1.doMove move = .ok (g.after move h).1 := by
  obtain ⟨b', hdo, -⟩ := g.exists_doMove h
  change g.1.doMove move = .ok ((g.1.doMove move).toOption.getD g.1)
  rw [hdo]
  rfl

/-- The legal moves with the boards they lead to. -/
def children : List (Move × PlayBoard) :=
  g.legalMoves.attach.map fun move => (move.1, g.after move.1 move.2)

/-- The children the capture search looks at. -/
def captures : List (Move × PlayBoard) := g.children.filter fun x => g.1.isCaptureMove x.1

/-- `static_evaluation()` from the mover's point of view. -/
def eval : ℤ := g.1.staticEvaluation.toOption.getD 0 * g.1.moverSign

variable {g} {x : Move × PlayBoard}

theorem mem_children : x ∈ g.children ↔ ∃ h : x.1 ∈ g.legalMoves, x.2 = g.after x.1 h := by
  rw [children, List.mem_map]
  constructor
  · rintro ⟨⟨move, hmove⟩, -, rfl⟩
    exact ⟨hmove, rfl⟩
  · intro ⟨h, hx⟩
    exact ⟨⟨x.1, h⟩, List.mem_attach _ _, Prod.ext rfl hx.symm⟩

theorem map_fst_children : g.children.map Prod.fst = g.legalMoves := by
  rw [children, List.map_map]
  exact List.attach_map_subtype_val g.legalMoves

theorem legalMoves_of_no_children (h : g.children = []) : g.1.legalMoves = .ok [] := by
  rw [g.legalMoves_eq, ← map_fst_children, h]
  rfl

/-- A child is the board after a legal move of the rules. -/
theorem exists_of_mem_children (h : x ∈ g.children) :
    ∃ m, g.1.position.Legal m ∧ x.1 = g.1.encode m ∧
      x.2.1.position = g.1.position.play m := by
  obtain ⟨hmem, hx⟩ := mem_children.mp h
  obtain ⟨m, heq, hm, hposition, -⟩ :=
    g.2.step g.legalMoves_eq hmem (g.doMove_eq x.1 hmem)
  exact ⟨m, hm, heq, by rw [hx, hposition]⟩

theorem doMove_of_mem_children (h : x ∈ g.children) : g.1.doMove x.1 = .ok x.2.1 := by
  obtain ⟨hmem, hx⟩ := mem_children.mp h
  rw [g.doMove_eq x.1 hmem, hx]

/-- A capture takes a piece off the board. -/
theorem card_occupied_lt_of_mem_captures (h : x ∈ g.captures) :
    (occupied x.2.1.mailbox).card < (occupied g.1.mailbox).card := by
  obtain ⟨hchild, hcapture⟩ := List.mem_filter.mp h
  obtain ⟨m, hm, heq, hposition⟩ := exists_of_mem_children hchild
  have hmailbox : x.2.1.mailbox = g.1.position.mailboxAfter m :=
    congrArg Position.mailbox hposition
  rw [heq, Board.isCaptureMove, Board.encode_dstSquare, toBool_bit_and,
    g.2.disjoint.has_enemies, decide_eq_true_eq] at hcapture
  rw [hmailbox]
  exact hm.performable.card_occupied_lt g.2.position hcapture.ne_none

end PlayBoard

/-- The game of chess as the search sees it. -/
def chessGame : Game PlayBoard Move ℤ where
  children := PlayBoard.children
  captures := PlayBoard.captures
  eval := PlayBoard.eval
  rank g := (occupied g.1.mailbox).card
  captures_subset _ _ := List.mem_of_mem_filter
  rank_lt _ _ := PlayBoard.card_occupied_lt_of_mem_captures

theorem chessGame_rank_lt {fuel : ℕ} (hfuel : 64 < fuel) (g : PlayBoard) :
    chessGame.rank g < fuel := by
  have := card_occupied_lt g.1.mailbox
  change (occupied g.1.mailbox).card < fuel
  omega

/-! ## The search functions on it -/

section Search

variable {g : PlayBoard} {α β : ℤ}

theorem legalCaptureMoves_eq (g : PlayBoard) :
    g.1.legalCaptureMoves = .ok (g.captures.map Prod.fst) := by
  rw [Board.legalCaptureMoves, g.legalMoves_eq, ok_bind, ← PlayBoard.map_fst_children,
    List.filter_map]
  rfl

theorem staticEvaluation_mul_moverSign (g : PlayBoard) :
    ∃ v, g.1.staticEvaluation = .ok v ∧ v * g.1.moverSign = g.eval := by
  refine ⟨_, Board.staticEvaluation_eq g.2, ?_⟩
  rw [PlayBoard.eval, Board.staticEvaluation_eq g.2]
  rfl

/-- The program's loop over children on which the recursive call returns. -/
theorem searchLoop_eq {recurse : Board → ℤ → ℤ → Checked (ℤ × List Move)}
    {search : PlayBoard → ℤ → ℤ → ℤ × List Move} {xs : List (Move × PlayBoard)}
    (hsub : xs ⊆ g.children)
    (hrec : ∀ x ∈ xs, ∀ α β, recurse x.2.1 α β = .ok (search x.2 α β)) (pv : List Move) :
    searchLoop recurse g.1 β (xs.map Prod.fst) α pv = .ok (Game.searchLoop search β xs α pv) := by
  induction xs generalizing α pv with
  | nil => rfl
  | cons x xs ih =>
    obtain ⟨hchild, hrest⟩ := List.cons_subset.mp hsub
    obtain ⟨hx, hxs⟩ := List.forall_mem_cons.mp hrec
    rw [List.map_cons, searchLoop, PlayBoard.doMove_of_mem_children hchild, ok_bind, hx, ok_bind,
      Game.searchLoop]
    simp only [ge_iff_le, gt_iff_lt]
    split_ifs
    · rfl
    · exact ih hrest hxs _
    · exact ih hrest hxs _

theorem quiescenceSearch_eq {fuel : ℕ} (hfuel : chessGame.rank g < fuel) :
    quiescenceSearch fuel g.1 α β [] = .ok (chessGame.quiescenceSearch fuel g α β) := by
  induction fuel generalizing g α β with
  | zero => exact absurd hfuel (Nat.not_lt_zero _)
  | succ fuel ih =>
    obtain ⟨v, hv, heval⟩ := staticEvaluation_mul_moverSign g
    have hscore : v * (if g.1.isWhitesMove then 1 else -1) = chessGame.eval g := heval
    have hmax : (if chessGame.eval g > α then chessGame.eval g else α) =
        max α (chessGame.eval g) := by
      rw [max_def]
      split_ifs <;> omega
    rw [quiescenceSearch, hv, ok_bind, Game.quiescenceSearch]
    simp only [hscore, ge_iff_le, hmax, legalCaptureMoves_eq, ok_bind]
    split_ifs
    · rfl
    · refine searchLoop_eq (chessGame.captures_subset g) ?_ []
      intro x hx α β
      exact ih (by have := chessGame.rank_lt g x hx; omega)

theorem alphaBeta_eq {fuel : ℕ} (hfuel : 64 < fuel) (d : ℕ) (g : PlayBoard) (α β : ℤ) :
    alphaBeta fuel d g.1 α β [] = .ok (chessGame.alphaBeta fuel d g α β) := by
  induction d generalizing g α β with
  | zero =>
    rw [alphaBeta, g.legalMoves_eq]
    exact quiescenceSearch_eq (chessGame_rank_lt hfuel g)
  | succ d ih =>
    rw [alphaBeta, g.legalMoves_eq, Game.alphaBeta]
    have hlength : g.legalMoves.length = 0 ↔ (chessGame.children g).isEmpty = true := by
      rw [← PlayBoard.map_fst_children, List.length_map, List.length_eq_zero_iff,
        List.isEmpty_iff]
      rfl
    change (if g.legalMoves.length = 0 then _ else _) = _
    by_cases hc : (chessGame.children g).isEmpty = true
    · rw [if_pos hc, if_pos (hlength.mpr hc)]
      exact quiescenceSearch_eq (chessGame_rank_lt hfuel g)
    · rw [if_neg hc, if_neg (mt hlength.mp hc), ← PlayBoard.map_fst_children]
      exact searchLoop_eq (List.Subset.refl _) (fun x _ α β => ih x.2 α β) []

end Search

/-! ## Lines -/

theorem moverSign_of_mem_children {g : PlayBoard} {x : Move × PlayBoard} (h : x ∈ g.children) :
    x.2.1.moverSign = -g.1.moverSign := by
  obtain ⟨m, -, -, hposition⟩ := PlayBoard.exists_of_mem_children h
  have hside : x.2.1.sideToMove = flipColor g.1.sideToMove := congrArg Position.side hposition
  rw [Board.moverSign, Board.moverSign, Board.isWhitesMove_eq, Board.isWhitesMove_eq, hside]
  cases g.1.sideToMove <;> rfl

/-- A line that realises a value is a run of legal moves to a board with that static value. -/
theorem legalRun_of_realises {g : PlayBoard} {line : List Move} {v : ℤ}
    (h : chessGame.Realises g line v) :
    ∃ f s, LegalRun g.1 line f ∧ f.staticEvaluation = .ok s ∧ s * g.1.moverSign = v := by
  induction h with
  | stand g =>
    obtain ⟨s, hs, hv⟩ := staticEvaluation_mul_moverSign g
    exact ⟨g.1, s, .nil g.1, hs, hv⟩
  | @move g x line v mem _ ih =>
    obtain ⟨f, s, hrun, hs, hv⟩ := ih
    obtain ⟨hlegal, -⟩ := PlayBoard.mem_children.mp mem
    refine ⟨f, s, .cons g.legalMoves_eq hlegal (PlayBoard.doMove_of_mem_children mem) hrun, hs, ?_⟩
    rw [← hv, moverSign_of_mem_children mem, mul_neg, neg_neg]

/-- The static value from the mover's side stays within 1000 points. -/
theorem chessGame_eval_bound (g : PlayBoard) :
    -1000 ≤ chessGame.eval g ∧ chessGame.eval g ≤ 1000 := by
  have hbound := abs_le.mp (Position.abs_staticValue_le g.1.position)
  have heval : chessGame.eval g = g.1.position.staticValue * g.1.moverSign := by
    change g.1.staticEvaluation.toOption.getD 0 * g.1.moverSign = _
    rw [Board.staticEvaluation_eq g.2]
    rfl
  rw [heval, Board.moverSign]
  split_ifs <;> omega

end PawnGrabber
