import PawnGrabber.Rules.Mirror
import PawnGrabber.Analysis.ChessGame

/-!
# Mirrored boards

`Board.mirror` swaps the colours of a board field by field and reverses the ranks of every
bitboard. It stands for the mirrored position, and since a board is determined by its
position and its counters, everything the rules say about mirrored positions carries over to
the program's operations.
-/

set_option autoImplicit false

namespace PawnGrabber

open ExceptFold Rules GameSearch

/-- The mask with every square moved to the opposite rank. -/
def reverseRanks (bb : Bitboard) : Bitboard :=
  (squaresOf bb).foldl (fun acc s => acc ||| s.mirror.bit) 0

@[simp] theorem has_reverseRanks (bb : Bitboard) (s : Square) :
    has (reverseRanks bb) s.mirror = has bb s := by
  rw [Bool.eq_iff_iff, reverseRanks, has_foldl_or]
  simp

@[simp] theorem reverseRanks_bit (s : Square) : reverseRanks s.bit = s.mirror.bit := by
  rw [reverseRanks, squaresOf_bit]
  simp

namespace Board

variable {b b' : Board}

/-- The board with the colours swapped and the ranks reversed; the counters stay. -/
def mirror (b : Board) : Board where
  whitePawns := reverseRanks b.blackPawns
  whiteRooks := reverseRanks b.blackRooks
  whiteKnights := reverseRanks b.blackKnights
  whiteBishops := reverseRanks b.blackBishops
  whiteQueens := reverseRanks b.blackQueens
  whiteKing := reverseRanks b.blackKing
  blackPawns := reverseRanks b.whitePawns
  blackRooks := reverseRanks b.whiteRooks
  blackKnights := reverseRanks b.whiteKnights
  blackBishops := reverseRanks b.whiteBishops
  blackQueens := reverseRanks b.whiteQueens
  blackKing := reverseRanks b.whiteKing
  isWhitesMove := !b.isWhitesMove
  enPassantSquare := b.enPassantSquare.map reverseRanks
  whiteHasRightToCastleKingside := b.blackHasRightToCastleKingside
  whiteHasRightToCastleQueenside := b.blackHasRightToCastleQueenside
  blackHasRightToCastleKingside := b.whiteHasRightToCastleKingside
  blackHasRightToCastleQueenside := b.whiteHasRightToCastleQueenside
  fiftyMoveClock := b.fiftyMoveClock
  numMoves := b.numMoves

theorem bitboard_mirror (c : Color) (k : Piece) :
    b.mirror.bitboard (flipColor c, k) = reverseRanks (b.bitboard (c, k)) := by
  cases c <;> cases k <;> rfl

theorem Disjoint.mirror (hb : b.Disjoint) :
    b.mirror.Disjoint ∧ b.mirror.mailbox = b.mailbox.mirror := by
  apply disjoint_and_mailbox_of_has _
  intro s ptr
  obtain ⟨u, rfl⟩ := Square.mirror_involutive.surjective s
  obtain ⟨c, k⟩ := ptr
  rw [← flipColor_flipColor c, bitboard_mirror, has_reverseRanks, hb.has_bitboard,
    decide_eq_true_eq, Mailbox.mirror_eq_some_iff]

theorem position_mirror (hb : b.Disjoint)
    (hep : ∀ sq ∈ b.enPassantSquare, isSquare sq = true) :
    b.mirror.position = b.position.mirror := by
  have hside : b.mirror.sideToMove = flipColor b.sideToMove := by
    unfold sideToMove mirror
    cases b.isWhitesMove <;> rfl
  have hrights : b.mirror.rights = fun c w => b.rights (flipColor c) w := by
    funext c w
    cases c <;> cases w <;> rfl
  have henPassant : b.mirror.position.enPassant = b.position.enPassant.map Square.mirror := by
    have heq := enPassantSquare_eq hep
    have hmirror : b.mirror.enPassantSquare =
        (b.position.enPassant.map Square.mirror).map Square.bit := by
      change b.enPassantSquare.map reverseRanks = _
      rw [heq, Option.map_map, Option.map_map]
      congr 1
      funext s
      exact reverseRanks_bit s
    rw [position, hmirror]
    cases b.position.enPassant <;> simp
  rw [Position.mirror, position, Position.mk.injEq]
  exact ⟨hb.mirror.2, hside, hrights, henPassant⟩

theorem isSquare_of_mem_mirror (hep : ∀ sq ∈ b.enPassantSquare, isSquare sq = true) :
    ∀ sq ∈ b.mirror.enPassantSquare, isSquare sq = true := by
  intro sq hsq
  obtain ⟨sq₀, hsq₀, rfl⟩ := Option.map_eq_some_iff.mp hsq
  obtain ⟨s, rfl⟩ := isSquare_iff.mp (hep sq₀ hsq₀)
  rw [reverseRanks_bit, isSquare_bit]

theorem WellFormed.mirror (h : b.WellFormed) : b.mirror.WellFormed where
  disjoint := h.disjoint.mirror.1
  epSquare := isSquare_of_mem_mirror h.epSquare
  position := by
    rw [position_mirror h.disjoint h.epSquare]
    exact h.position.mirror

/-- A board is determined by its position and its counters. -/
theorem eq_of_position_eq (hb : b.Disjoint) (hb' : b'.Disjoint)
    (hep : ∀ sq ∈ b.enPassantSquare, isSquare sq = true)
    (hep' : ∀ sq ∈ b'.enPassantSquare, isSquare sq = true) (hposition : b.position = b'.position)
    (hfifty : b.fiftyMoveClock = b'.fiftyMoveClock) (hnum : b.numMoves = b'.numMoves) :
    b = b' := by
  have hmailbox : b.mailbox = b'.mailbox := congrArg Position.mailbox hposition
  have hside : b.sideToMove = b'.sideToMove := congrArg Position.side hposition
  refine ext_of_status (bitboard_eq_of_mailbox_eq hb hb' hmailbox)
    (status_eq_iff.mpr ⟨?_, ?_, congrArg Position.rights hposition, hfifty, hnum⟩)
  · rw [isWhitesMove_eq, isWhitesMove_eq, hside]
  · rw [enPassantSquare_eq hep, enPassantSquare_eq hep', hposition]

end Board

/-- The move with the ranks of its squares reversed, on the mirrored board. -/
def Move.mirror (move : Move) : Move :=
  ⟨reverseRanks move.srcSquare, reverseRanks move.dstSquare, move.pieceMoving, move.moveType,
    move.boardState.mirror⟩

theorem encode_mirror (b : Board) (m : ChessMove) :
    (b.encode m).mirror = b.mirror.encode m.mirror := by
  simp [Move.mirror, Board.encode, ChessMove.mirror]

namespace Board

variable {b : Board}

/-- The legal moves of the mirrored board are the mirrored legal moves, in some order. -/
theorem legalMoves_mirror (h : b.WellFormed) :
    ∃ moves moves', b.legalMoves = .ok moves ∧ b.mirror.legalMoves = .ok moves' ∧
      moves'.Perm (moves.map Move.mirror) := by
  refine ⟨_, _, legalMoves_eq h, legalMoves_eq h.mirror, ?_⟩
  have hmap : ((legalList b.position).map b.encode).map Move.mirror =
      ((legalList b.position).map ChessMove.mirror).map b.mirror.encode := by
    rw [List.map_map, List.map_map]
    exact List.map_congr_left fun m _ => encode_mirror b m
  rw [hmap]
  apply List.Perm.map
  rw [List.perm_ext_iff_of_nodup nodup_legalList
    (nodup_legalList.map ChessMove.mirror_involutive.injective)]
  intro m
  rw [position_mirror h.disjoint h.epSquare, mem_legalList h.position.mirror,
    ← ChessMove.mirror_mirror m, legal_mirror,
    List.mem_map_of_injective ChessMove.mirror_involutive.injective, mem_legalList h.position]

/-- Making the mirrored move on the mirrored board gives the mirrored board, but for the
number of moves. -/
theorem doMove_mirror (h : b.WellFormed) {m : ChessMove} (hm : b.position.Legal m) :
    ∃ b₁ b₁', b.doMove (b.encode m) = .ok b₁ ∧
      b.mirror.doMove (b.mirror.encode m.mirror) = .ok b₁' ∧
      { b₁' with numMoves := b₁.numMoves } = b₁.mirror := by
  have hposition := position_mirror h.disjoint h.epSquare
  have hm' : b.mirror.position.Legal m.mirror := by
    rw [hposition]
    exact legal_mirror.mpr hm
  obtain ⟨b₁, hdo, hsound, hplay, hfifty, -⟩ := doMove_spec h hm.performable
  obtain ⟨b₁', hdo', hsound', hplay', hfifty', -⟩ := doMove_spec h.mirror hm'.performable
  refine ⟨b₁, b₁', hdo, hdo', ?_⟩
  have hbit : ∀ ptr, ({ b₁' with numMoves := b₁.numMoves } : Board).bitboard ptr =
      b₁'.bitboard ptr := by
    rintro ⟨_ | _, _ | _ | _ | _ | _ | _⟩ <;> rfl
  have hpos : ({ b₁' with numMoves := b₁.numMoves } : Board).position = b₁'.position := by
    rw [position, mailbox_congr hbit]
    rfl
  refine eq_of_position_eq (hsound'.disjoint.congr hbit) hsound.disjoint.mirror.1
    hsound'.epSquare (isSquare_of_mem_mirror hsound.epSquare) ?_ ?_ rfl
  · rw [hpos, hplay', hposition, position_mirror hsound.disjoint hsound.epSquare, hplay,
      play_mirror]
  · rw [show ({ b₁' with numMoves := b₁.numMoves } : Board).fiftyMoveClock = b₁'.fiftyMoveClock
      from rfl, hfifty', show b₁.mirror.fiftyMoveClock = b₁.fiftyMoveClock from rfl, hfifty]
    rfl

theorem staticEvaluation_mirror (h : b.WellFormed) :
    ∃ v, b.staticEvaluation = .ok v ∧ b.mirror.staticEvaluation = .ok (-v) := by
  refine ⟨_, staticEvaluation_eq h, ?_⟩
  rw [staticEvaluation_eq h.mirror, position_mirror h.disjoint h.epSquare,
    staticValue_mirror h.position]

end Board

/-! ## The game tree -/

/-- `g'` stands for the mirror image of the position of `g`. -/
def IsMirrorImage (g g' : PlayBoard) : Prop := g'.1.position = g.1.position.mirror

/-- Every child has a mirror image among the children of the mirror image, and both are
captures or neither is. -/
theorem IsMirrorImage.child {g g' : PlayBoard} (h : IsMirrorImage g g') {x : Move × PlayBoard}
    (hx : x ∈ g.children) :
    ∃ y ∈ g'.children, IsMirrorImage x.2 y.2 ∧
      g'.1.isCaptureMove y.1 = g.1.isCaptureMove x.1 := by
  obtain ⟨m, hm, heq, hposition⟩ := PlayBoard.exists_of_mem_children hx
  have hm' : g'.1.position.Legal m.mirror := by
    rw [h]
    exact legal_mirror.mpr hm
  have hmem : g'.1.encode m.mirror ∈ g'.legalMoves := g'.mem_legalMoves.mpr ⟨_, hm', rfl⟩
  obtain ⟨m', heq', -, hposition', -⟩ :=
    g'.2.step g'.legalMoves_eq hmem (g'.doMove_eq _ hmem)
  rw [g'.1.encode_injective.eq_iff] at heq'
  refine ⟨(g'.1.encode m.mirror, g'.after _ hmem), PlayBoard.mem_children.mpr ⟨hmem, rfl⟩, ?_, ?_⟩
  · change (g'.after _ hmem).1.position = x.2.1.position.mirror
    rw [hposition', hposition, ← heq', h, play_mirror]
  · have hmailbox : g'.1.mailbox = g.1.mailbox.mirror := congrArg Position.mailbox h
    have hside : g'.1.sideToMove = flipColor g.1.sideToMove := congrArg Position.side h
    rw [heq, Board.isCaptureMove, Board.isCaptureMove, Board.encode_dstSquare,
      Board.encode_dstSquare, toBool_bit_and, toBool_bit_and, g.2.disjoint.has_enemies,
      g'.2.disjoint.has_enemies, decide_eq_decide, hmailbox, hside, ChessMove.mirror,
      holds_mirror]

theorem IsMirrorImage.symm {g g' : PlayBoard} (h : IsMirrorImage g g') : IsMirrorImage g' g := by
  unfold IsMirrorImage at h ⊢
  rw [h, Position.mirror_mirror]

theorem IsMirrorImage.eval_eq {g g' : PlayBoard} (h : IsMirrorImage g g') :
    chessGame.eval g = chessGame.eval g' := by
  have hside : g'.1.sideToMove = flipColor g.1.sideToMove := congrArg Position.side h
  obtain ⟨v, hv, heval⟩ := staticEvaluation_mul_moverSign g
  obtain ⟨v', hv', heval'⟩ := staticEvaluation_mul_moverSign g'
  rw [Board.staticEvaluation_eq g.2, Except.ok.injEq] at hv
  rw [Board.staticEvaluation_eq g'.2, h, staticValue_mirror g.2.position, hv,
    Except.ok.injEq] at hv'
  have hsign : g'.1.moverSign = -g.1.moverSign := by
    rw [Board.moverSign, Board.moverSign, Board.isWhitesMove_eq, Board.isWhitesMove_eq, hside]
    cases g.1.sideToMove <;> rfl
  change g.eval = g'.eval
  rw [← heval, ← heval', ← hv', hsign, neg_mul_neg]

/-- Mirror images have the same game tree up to the order of the moves. -/
theorem isBisimulation_isMirrorImage : chessGame.IsBisimulation IsMirrorImage where
  eval _ _ h := h.eval_eq
  children _ _ h x hx := by
    obtain ⟨y, hy, hxy, -⟩ := h.child hx
    exact ⟨y, hy, hxy⟩
  children_symm _ _ h y hy := by
    obtain ⟨x, hx, hyx, -⟩ := h.symm.child hy
    exact ⟨x, hx, hyx.symm⟩
  captures _ _ h x hx := by
    obtain ⟨hchild, hcapture⟩ := List.mem_filter.mp hx
    obtain ⟨y, hy, hxy, hsame⟩ := h.child hchild
    exact ⟨y, List.mem_filter.mpr ⟨hy, hsame.trans hcapture⟩, hxy⟩
  captures_symm _ _ h y hy := by
    obtain ⟨hchild, hcapture⟩ := List.mem_filter.mp hy
    obtain ⟨x, hx, hyx, hsame⟩ := h.symm.child hchild
    exact ⟨x, List.mem_filter.mpr ⟨hx, hsame.trans hcapture⟩, hyx.symm⟩

end PawnGrabber
