import PawnGrabber.Analysis.Runs

/-!
# Move generation

The theorems about the generators on their own: a slider's moves follow the geometric ray on
any bitboards, the pseudolegal moves of the side to move are those of the rules, and the en
passant generator captures enemy pawns for the side to move but not always for the other.
-/

set_option autoImplicit false

namespace PawnGrabber

open ExceptFold Rules

namespace Board

/-! ## Sliding pieces -/

/-- Whatever the twelve bitboards are, a slider gets the squares of the geometric ray up to
the first occupied one, and that one as a capture if an enemy stands on it. -/
theorem slidingMoves_along_ray (b : Board) (direction : Direction) (side : Color)
    (piece : Piece) {src : Bitboard} (hsquare : isSquare src = true)
    (hside : toBool (src &&& b.friends side) = true) (res : List Move) :
    ∃ (s : Square) (ray : List Square), src = s.bit ∧
      (∀ (j : ℕ) (t : Square), ray[j]? = some t ↔
        (t.file : ℤ) = s.file + (1 + j) * direction.offset.1 ∧
          (t.rank : ℤ) = s.rank + (1 + j) * direction.offset.2) ∧
      b.appendPseudolegalSlidingMoves direction side src piece res = .ok (res ++
        ((ray.takeWhile fun t => !has b.allPieces t).map
            fun t => ⟨src, t.bit, piece, .simple, b⟩) ++
          ((ray.dropWhile fun t => !has b.allPieces t).head?.toList.filter
            (has (b.enemies side))).map fun t => ⟨src, t.bit, piece, .capture, b⟩) := by
  obtain ⟨s, rfl⟩ := isSquare_iff.mp hsquare
  rw [toBool_bit_and] at hside
  refine ⟨s, s.ray direction.offset, rfl, ?_, ?_⟩
  · intro j t
    rw [Square.getElem?_ray s (offset_isDirection direction), Square.shift_eq_some_iff]
    push_cast
    rfl
  · rw [appendPseudolegalSlidingMoves_eq b direction piece hside, slidesAlong, List.append_assoc]

/-- The rook on a1 has six squares in front of the rook on a8. -/
theorem slidingMoves_along_ray_tactical :
    ∃ (s : Square) (ray : List Square), (0x80 : Bitboard) = s.bit ∧
      (∀ (j : ℕ) (t : Square), ray[j]? = some t ↔
        (t.file : ℤ) = s.file + (1 + j) * Direction.north.offset.1 ∧
          (t.rank : ℤ) = s.rank + (1 + j) * Direction.north.offset.2) ∧
      tacticalBoard.appendPseudolegalSlidingMoves .north .white 0x80 .rook [] = .ok ([] ++
        ((ray.takeWhile fun t => !has tacticalBoard.allPieces t).map
            fun t => ⟨0x80, t.bit, .rook, .simple, tacticalBoard⟩) ++
          ((ray.dropWhile fun t => !has tacticalBoard.allPieces t).head?.toList.filter
            (has (tacticalBoard.enemies .white))).map
              fun t => ⟨0x80, t.bit, .rook, .capture, tacticalBoard⟩) :=
  slidingMoves_along_ray tacticalBoard .north .white .rook (by decide) (by decide) []

/-! ## Pseudolegal moves -/

/-- `pseudolegal_moves` of the side to move lists its moves by the way the pieces move, each
once; a pawn one step from the last rank has promotions only, always all four. -/
theorem pseudolegalMoves_exact {b : Board} (h : b.Sound) :
    ∃ moves, b.pseudolegalMoves b.sideToMove = .ok moves ∧ moves.Nodup ∧
      (∀ move, move ∈ moves ↔ ∃ m : ChessMove, PseudoLegal b.position b.sideToMove m ∧
        move = ⟨m.src.bit, m.dst.bit, m.piece, m.type, b⟩) ∧
      ∀ move ∈ moves, ∀ s : Square, move.srcSquare = s.bit → move.pieceMoving = .pawn →
        s.rank = pawnRank (flipColor b.sideToMove) →
        move.moveType ∈ promotionMoveTypes ∧
          ∀ type ∈ promotionMoveTypes, { move with moveType := type } ∈ moves := by
  have hmem : ∀ move, move ∈ (pseudoMoves b.position b.sideToMove).map b.encode ↔
      ∃ m : ChessMove, PseudoLegal b.position b.sideToMove m ∧
        move = ⟨m.src.bit, m.dst.bit, m.piece, m.type, b⟩ := by
    intro move
    simp only [List.mem_map, mem_pseudoMoves]
    exact exists_congr fun m => and_congr_right fun _ => eq_comm
  refine ⟨_, pseudolegalMoves_eq h b.sideToMove, nodup_pseudoMoves.map b.encode_injective, hmem,
    ?_⟩
  intro move hmove s hs hpiece hrank
  obtain ⟨m, hm, rfl⟩ := (hmem move).mp hmove
  rw [bit_inj] at hs
  subst hs
  obtain ⟨htype, hall⟩ := hm.promotion_of_rank h.position hpiece hrank
  exact ⟨htype, fun type ht => (hmem _).mpr ⟨{ m with type := type }, hall type ht, rfl⟩⟩

theorem pseudolegalMoves_exact_start :
    ∃ moves, startBoard.pseudolegalMoves startBoard.sideToMove = .ok moves ∧ moves.Nodup ∧
      (∀ move, move ∈ moves ↔
        ∃ m : ChessMove, PseudoLegal startBoard.position startBoard.sideToMove m ∧
          move = ⟨m.src.bit, m.dst.bit, m.piece, m.type, startBoard⟩) ∧
      ∀ move ∈ moves, ∀ s : Square, move.srcSquare = s.bit → move.pieceMoving = .pawn →
        s.rank = pawnRank (flipColor startBoard.sideToMove) →
        move.moveType ∈ promotionMoveTypes ∧
          ∀ type ∈ promotionMoveTypes, { move with moveType := type } ∈ moves :=
  pseudolegalMoves_exact startBoard_wellFormed.sound

/-! ## En passant -/

/-- The move takes an enemy pawn: a pawn of `s` goes to an empty square, and the square
`do_en_passant_move` clears for it holds a pawn of the other side. -/
def IsEnPassantCapture (b : Board) (s : Color) (move : Move) : Prop :=
  ∃ src dst cleared : Square, move.srcSquare = src.bit ∧ move.dstSquare = dst.bit ∧
    b.mailbox src = some (s, .pawn) ∧ b.mailbox dst = none ∧
    enemyPawnSquare move = .ok cleared.bit ∧ b.mailbox cleared = some (flipColor s, .pawn)

/-- The board after 1. e4, with Black to move and e3 as the en passant square. -/
def openedBoard : Board :=
  { startBoard with
    whitePawns := 0x800f700, isWhitesMove := false, enPassantSquare := some 0x80000 }

theorem openedBoard_wellFormed : openedBoard.WellFormed := by decide +kernel

/-- After 1. e4 the generator called for White emits dxe3 and fxe3, which would clear White's
own pawn on e4. -/
theorem enPassantMoves_of_openedBoard :
    openedBoard.WellFormed ∧ ∃ moves,
      openedBoard.appendPseudolegalEnPassantMoves .white [] = .ok moves ∧
      ¬∀ move ∈ moves, openedBoard.IsEnPassantCapture .white move := by
  refine ⟨openedBoard_wellFormed, _,
    appendPseudolegalEnPassantMoves_eq openedBoard_wellFormed.sound .white [], ?_⟩
  intro hall
  obtain ⟨src, dst, cleared, -, -, -, -, hcleared, hpawn⟩ :=
    hall (openedBoard.encode ⟨Square.ofIndex 12, Square.ofIndex 19, .pawn, .enPassant⟩)
      (List.mem_map_of_mem (by decide))
  have hown : enemyPawnSquare (openedBoard.encode
      ⟨Square.ofIndex 12, Square.ofIndex 19, .pawn, .enPassant⟩) =
      .ok (Square.ofIndex 27).bit := by decide
  rw [hown, Except.ok.injEq, bit_inj] at hcleared
  subst hcleared
  exact absurd hpawn (by decide)

/-- What the en passant generator emits are captures of enemy pawns exactly if it is called
for the side to move, or no pawn of the side it is called for stands diagonally behind the
en passant square. -/
theorem enPassantMoves_capture_iff {b : Board} (h : b.WellFormed) (s : Color) :
    ∃ moves, (∀ res, b.appendPseudolegalEnPassantMoves s res = .ok (res ++ moves)) ∧
      ((∀ move ∈ moves, b.IsEnPassantCapture s move) ↔
        s = b.sideToMove ∨ ∀ t u, b.position.enPassant = some t → PawnAttacks s u t →
          b.mailbox u ≠ some (s, .pawn)) := by
  refine ⟨_, appendPseudolegalEnPassantMoves_eq h.sound s, ?_⟩
  simp only [List.forall_mem_map, mem_enPassantMoves]
  constructor
  · intro hall
    refine or_iff_not_imp_left.mpr fun hs t u ht ha hu => hs ?_
    -- the pawn behind the square is the one that has just moved, of the same colour
    obtain ⟨src, dst, cleared, -, hdst, -, -, hbehind, hpawn⟩ :=
      hall ⟨u, t, .pawn, .enPassant⟩ ⟨rfl, rfl, hu, ha, ht⟩
    obtain ⟨-, hrank, v, hv, hmoved⟩ := h.position.enPassant t ht
    have hclear := enemyPawnSquare_eq (encode_dstSquare b ⟨u, t, .pawn, .enPassant⟩) hrank hv
    rw [hclear, Except.ok.injEq, bit_inj] at hbehind
    subst hbehind
    rw [position_mailbox, hpawn, position_side, Option.some.injEq, Prod.mk.injEq] at hmoved
    rw [← flipColor_flipColor s, hmoved.1, flipColor_flipColor]
  · rintro (rfl | hnone) m ⟨-, -, hsrc, ha, ht⟩
    · obtain ⟨hempty, hrank, v, hv, hmoved⟩ := h.position.enPassant m.dst ht
      exact ⟨m.src, m.dst, v, rfl, rfl, hsrc, hempty,
        enemyPawnSquare_eq (encode_dstSquare b m) hrank hv, hmoved⟩
    · exact absurd hsrc (hnone m.dst m.src ht ha)

/-- After 1. e4 the pawns on d2 and f2 stand diagonally behind the en passant square. -/
theorem enPassantMoves_capture_iff_opened :
    ∃ moves,
      (∀ res, openedBoard.appendPseudolegalEnPassantMoves .white res = .ok (res ++ moves)) ∧
      ((∀ move ∈ moves, openedBoard.IsEnPassantCapture .white move) ↔
        .white = openedBoard.sideToMove ∨ ∀ t u, openedBoard.position.enPassant = some t →
          PawnAttacks .white u t → openedBoard.mailbox u ≠ some (.white, .pawn)) :=
  enPassantMoves_capture_iff openedBoard_wellFormed .white

end Board

end PawnGrabber
