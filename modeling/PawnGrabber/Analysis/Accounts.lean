import PawnGrabber.Rules.Material
import PawnGrabber.Analysis.Captures
import PawnGrabber.Analysis.SearchResult

/-!
# What a run does to the board

Along a run of legal moves the clocks, the piece counts and the promotable material follow from
the moves: one step changes them by what the move says, and a run by what its moves say together.
-/

set_option autoImplicit false

namespace PawnGrabber

open ExceptFold Rules GameSearch

/-! ## Pieces -/

namespace Move

/-- The pieces the move takes off its board: an en passant capture the enemy pawn, any other move
what stands on its destination, and a promotion also the pawn. -/
def removed (move : Move) : List BitboardPtr :=
  (if move.moveType = .enPassant then [(flipColor move.boardState.sideToMove, .pawn)]
    else (move.boardState.findBitboard move.dstSquare).toList) ++
    if move.moveType ∈ promotionMoveTypes then [(move.boardState.sideToMove, .pawn)] else []

/-- The pieces the move puts on its board: what a pawn is promoted to. -/
def added (move : Move) : List BitboardPtr :=
  match move.moveType with
  | .promotionToRook => [(move.boardState.sideToMove, .rook)]
  | .promotionToBishop => [(move.boardState.sideToMove, .bishop)]
  | .promotionToKnight => [(move.boardState.sideToMove, .knight)]
  | .promotionToQueen => [(move.boardState.sideToMove, .queen)]
  | _ => []

end Move

namespace Board

variable {b b' : Board} {m : ChessMove} {line : List Move}

theorem removed_encode (h : b.WellFormed) (hm : b.position.Legal m) :
    (b.encode m).removed = Rules.removed b.position m := by
  have hcaptured : (captured b.position m).toList =
      if m.type = .enPassant then [(flipColor b.sideToMove, .pawn)]
      else (b.findBitboard m.dst.bit).toList := by
    split_ifs with htype
    · rw [captured_of_enPassant h.position hm.performable htype]
      rfl
    · rw [captured, if_neg htype]
      rfl
  rw [Rules.removed, hcaptured]
  rfl

theorem added_encode (b : Board) (m : ChessMove) :
    (b.encode m).added = Rules.added b.position m := by
  rw [Rules.added, Move.added, encode_moveType, ChessMove.placed]
  cases m.type <;> rfl

theorem Disjoint.popCount_bitboard (hb : b.Disjoint) (ptr : BitboardPtr) :
    popCount (b.bitboard ptr) = count (· == ptr) b.mailbox := by
  apply popCount_eq_count
  intro s
  rw [hb.has_bitboard]
  cases b.mailbox s with
  | none => rfl
  | some x => by_cases hx : x = ptr <;> simp [hx]

theorem WellFormed.of_run (h : b.WellFormed) (run : LegalRun b line b') : b'.WellFormed := by
  induction run with
  | nil b => exact h
  | cons legal mem made _ ih =>
    obtain ⟨-, -, -, -, hwf⟩ := h.step legal mem made
    exact ih hwf

/-- Over a run every bitboard loses what the moves take off and gains what they put on. -/
theorem WellFormed.run_popCount (h : b.WellFormed) (run : LegalRun b line b')
    (ptr : BitboardPtr) :
    popCount (b'.bitboard ptr) + (line.flatMap Move.removed).count ptr =
      popCount (b.bitboard ptr) + (line.flatMap Move.added).count ptr := by
  refine h.run (P := fun b line b' =>
    popCount (b'.bitboard ptr) + (line.flatMap Move.removed).count ptr =
      popCount (b.bitboard ptr) + (line.flatMap Move.added).count ptr) (fun _ => by simp) ?_ run
  intro b b₁ b' m line hwf hm hposition hwf₁ ih
  have hmailbox : b₁.mailbox = b.position.mailboxAfter m := congrArg Position.mailbox hposition
  have hstep := hm.performable.count_piece hwf.position ptr
  rw [← hmailbox, position_mailbox, ← hwf₁.disjoint.popCount_bitboard,
    ← hwf.disjoint.popCount_bitboard] at hstep
  rw [List.flatMap_cons, List.flatMap_cons, List.count_append, List.count_append,
    removed_encode hwf hm, added_encode]
  omega

/-- Whatever is promoted has been a pawn, and no pawn is ever put on the board. -/
theorem count_added_le (line : List Move) (c : Color) :
    (line.flatMap Move.added).count (c, .pawn) = 0 ∧
      (line.flatMap Move.added).count (c, .rook) + (line.flatMap Move.added).count (c, .bishop) +
          (line.flatMap Move.added).count (c, .knight) +
          (line.flatMap Move.added).count (c, .queen) ≤
        (line.flatMap Move.removed).count (c, .pawn) := by
  induction line with
  | nil => simp
  | cons move line ih =>
    have hmove : move.added.count (c, .pawn) = 0 ∧
        move.added.count (c, .rook) + move.added.count (c, .bishop) +
          move.added.count (c, .knight) + move.added.count (c, .queen) ≤
        move.removed.count (c, .pawn) := by
      unfold Move.added Move.removed
      cases move.moveType <;> cases c <;> cases move.boardState.sideToMove <;>
        simp [promotionMoveTypes, List.count_append]
    simp only [List.flatMap_cons, List.count_append]
    omega

/-- A run creates no pieces. -/
theorem WellFormed.run_nonKingCount_le (h : b.WellFormed) (run : LegalRun b line b')
    (c : Color) : b'.nonKingCount c ≤ b.nonKingCount c := by
  refine h.run (P := fun b _ b' => b'.nonKingCount c ≤ b.nonKingCount c) (fun _ => le_rfl) ?_ run
  intro b b₁ b' m line hwf hm hposition hwf₁ ih
  have hmailbox : b₁.mailbox = b.position.mailboxAfter m := congrArg Position.mailbox hposition
  have hcount := hm.performable.count_after hwf.position
    fun x => decide (x.1 = c) && decide (x.2 ≠ .king)
  simp only [decide_eq_decide.mpr (not_congr hm.performable.placed_eq_king_iff), ← hmailbox,
    position_mailbox, ne_eq] at hcount
  have hstep : b₁.nonKingCount c ≤ b.nonKingCount c := by
    rw [hwf₁.disjoint.nonKingCount_eq, hwf.disjoint.nonKingCount_eq]
    simp only [ne_eq]
    omega
  exact ih.trans hstep

/-! ## Promotable material -/

/-- The material of one side with every pawn counted as a queen. -/
def promotableMaterial (b : Board) (c : Color) : ℤ :=
  9 * (popCount (b.bitboard (c, .pawn)) : ℤ) + 5 * popCount (b.bitboard (c, .rook)) +
    3 * popCount (b.bitboard (c, .knight)) + 3 * popCount (b.bitboard (c, .bishop)) +
    9 * popCount (b.bitboard (c, .queen))

theorem Disjoint.promotableMaterial_eq (hb : b.Disjoint) (c : Color) :
    b.promotableMaterial c = promotable c b.mailbox := by
  have hcolors : (Finset.univ : Finset Color) = {.white, .black} := rfl
  have hpieces : (Finset.univ : Finset Piece) =
      {.pawn, .rook, .knight, .bishop, .queen, .king} := rfl
  rw [promotable, weight_eq_sum_count, promotableMaterial, Fintype.sum_prod_type, hcolors,
    hpieces]
  simp only [hb.popCount_bitboard]
  cases c <;> simp [promotableValue, pieceValue] <;> ring

theorem WellFormed.run_promotable_le (h : b.WellFormed) (run : LegalRun b line b') (c : Color) :
    promotable c b'.mailbox ≤ promotable c b.mailbox := by
  refine h.run (P := fun b _ b' => promotable c b'.mailbox ≤ promotable c b.mailbox)
    (fun _ => le_rfl) ?_ run
  intro b b₁ b' m line hwf hm hposition _ ih
  have hmailbox : b₁.mailbox = b.position.mailboxAfter m := congrArg Position.mailbox hposition
  rw [hmailbox] at ih
  exact ih.trans (hm.performable.promotable_le hwf.position c)

/-! ## Clocks -/

/-- The number of the moves of Black among `n` moves in turn. -/
def blackMoves (b : Board) (n : ℕ) : ℕ := (n + if b.isWhitesMove then 0 else 1) / 2

/-- Over a run of `n` moves the sides take turns, the move number grows with every move of Black,
modulo 2^32, and the fifty move clock stands still. -/
theorem WellFormed.run_clocks (h : b.WellFormed) (run : LegalRun b line b') :
    b'.isWhitesMove = (b.isWhitesMove ^^ decide (line.length % 2 = 1)) ∧
      b'.numMoves = b.numMoves + Int32.ofNat (b.blackMoves line.length) ∧
      b'.fiftyMoveClock = b.fiftyMoveClock := by
  induction run with
  | nil b => cases hside : b.isWhitesMove <;> simp [blackMoves, hside]
  | @cons b b₁ b' move moves line legal mem made _ ih =>
    obtain ⟨m, rfl, hm, hposition, hwf⟩ := h.step legal mem made
    obtain ⟨b₂, hdo, -, -, hfifty, hnum⟩ := doMove_spec h hm.performable
    rw [hdo, Except.ok.injEq] at made
    subst made
    have hside : b₂.isWhitesMove = !b.isWhitesMove := by
      rw [isWhitesMove_eq, isWhitesMove_eq, show b₂.sideToMove = flipColor b.sideToMove from
        congrArg Position.side hposition]
      cases b.sideToMove <;> rfl
    obtain ⟨hside', hnum', hfifty'⟩ := ih hwf
    have hblack : b.blackMoves (line.length + 1) =
        (if b.sideToMove = .black then 1 else 0) + b₂.blackMoves line.length := by
      rw [blackMoves, blackMoves, hside, sideToMove]
      cases b.isWhitesMove
      · simp
        omega
      · simp
    rw [List.length_cons, hside', hnum', hfifty', hside, hnum, hfifty, hblack]
    refine ⟨?_, ?_, rfl⟩
    · rw [Bool.eq_iff_iff]
      cases b.isWhitesMove <;> simp <;> omega
    · rw [Int32.ofNat_add, ← Int32.add_assoc]
      split_ifs <;> rfl

end Board

/-! ## Lines of the search -/

theorem captureRun_of_leadsByCaptures {g f : PlayBoard} {line : List Move}
    (h : chessGame.LeadsByCaptures g line f) : CaptureRun g.1 line f.1 := by
  induction h with
  | nil g => exact .nil g.1
  | @cons g f x line mem _ ih =>
    have hchild := chessGame.captures_subset g mem
    exact .cons (legalCaptureMoves_eq g) (List.mem_map_of_mem mem)
      (PlayBoard.doMove_of_mem_children hchild) ih

/-- A board without a decisive value has the value of its material. -/
theorem staticEvaluation_of_not_decisive {b : Board} (h : b.WellFormed) {s : ℤ}
    (hs : b.staticEvaluation = .ok s) (hdecisive : |s| ≠ 1000) : s = material b.mailbox := by
  rw [Board.staticEvaluation_eq h, Except.ok.injEq] at hs
  subst hs
  by_cases hstuck : ∀ m, ¬b.position.Legal m
  · refine absurd ?_ hdecisive
    rw [Position.staticValue_of_no_legal h.position hstuck]
    split_ifs <;> rfl
  · push Not at hstuck
    obtain ⟨m, hm⟩ := hstuck
    exact Position.staticValue_of_legal h.position hm

end PawnGrabber
