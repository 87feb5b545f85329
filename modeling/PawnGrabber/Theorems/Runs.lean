import PawnGrabber.Analysis.Accounts
import PawnGrabber.Analysis.MirrorRuns
import PawnGrabber.Theorems.SearchResult

/-!
# What a run of play can change

Along every run of legal moves each piece that leaves or enters a bitboard is accounted for by a
move, the clocks follow from the number of moves, and the mirrored run can be played from the
mirrored board. For the search this bounds the score by what the two sides can still come to have,
and the length of the principal variation by the depth and the number of pieces.
-/

set_option autoImplicit false

namespace PawnGrabber

open ExceptFold Rules GameSearch

/-! ## Accounts -/

/-- Over a run every bitboard loses as many pieces as the moves take off the board by capture, by
en passant or by promoting a pawn, and gains as many as they promote to. -/
theorem legalRun_conserves_pieces {b b' : Board} {line : List Move} (h : b.WellFormed)
    (run : LegalRun b line b') (ptr : BitboardPtr) :
    popCount (b'.bitboard ptr) + (line.flatMap Move.removed).count ptr =
      popCount (b.bitboard ptr) + (line.flatMap Move.added).count ptr :=
  h.run_popCount run ptr

/-- The pawn that takes the rook on a8 becomes a queen. -/
theorem legalRun_conserves_pieces_tactical :
    ∃ b, LegalRun tacticalBoard [tacticalBoard.encode pawnTakesRook] b ∧
      popCount b.blackRooks + 1 = popCount tacticalBoard.blackRooks ∧
      popCount b.whitePawns + 1 = popCount tacticalBoard.whitePawns ∧
      popCount b.whiteQueens = popCount tacticalBoard.whiteQueens + 1 := by
  obtain ⟨b, run⟩ := pawnTakesRook_run
  have hcount := legalRun_conserves_pieces tacticalBoard_wellFormed run
  exact ⟨b, run, hcount (.black, .rook), hcount (.white, .pawn), hcount (.white, .queen)⟩

/-- Every rook, bishop, knight or queen that a side has more than at the start of a run cost it a
pawn, and its pawns never become more. -/
theorem legalRun_promotions_cost_pawns {b b' : Board} {line : List Move} (h : b.WellFormed)
    (run : LegalRun b line b') (c : Color) :
    popCount (b'.bitboard (c, .pawn)) +
        (popCount (b'.bitboard (c, .rook)) - popCount (b.bitboard (c, .rook)) +
          (popCount (b'.bitboard (c, .bishop)) - popCount (b.bitboard (c, .bishop))) +
          (popCount (b'.bitboard (c, .knight)) - popCount (b.bitboard (c, .knight))) +
          (popCount (b'.bitboard (c, .queen)) - popCount (b.bitboard (c, .queen)))) ≤
      popCount (b.bitboard (c, .pawn)) := by
  obtain ⟨hnone, hpromoted⟩ := Board.count_added_le line c
  have hpawn := h.run_popCount run (c, .pawn)
  have hrook := h.run_popCount run (c, .rook)
  have hbishop := h.run_popCount run (c, .bishop)
  have hknight := h.run_popCount run (c, .knight)
  have hqueen := h.run_popCount run (c, .queen)
  omega

/-- The queen on a8 costs the pawn on b7. -/
theorem legalRun_promotions_cost_pawns_tactical :
    ∃ b, LegalRun tacticalBoard [tacticalBoard.encode pawnTakesRook] b ∧
      popCount b.whitePawns +
          (popCount b.whiteRooks - popCount tacticalBoard.whiteRooks +
            (popCount b.whiteBishops - popCount tacticalBoard.whiteBishops) +
            (popCount b.whiteKnights - popCount tacticalBoard.whiteKnights) +
            (popCount b.whiteQueens - popCount tacticalBoard.whiteQueens)) ≤
        popCount tacticalBoard.whitePawns := by
  obtain ⟨b, run⟩ := pawnTakesRook_run
  exact ⟨b, run, legalRun_promotions_cost_pawns tacticalBoard_wellFormed run .white⟩

/-- After a run of `n` moves the side to move is the same one exactly if `n` is even, the move
number has grown by one for each move of Black, if it stays below the end of the `int` range, and
the fifty move clock is what it was. -/
theorem legalRun_clocks {b b' : Board} {line : List Move} (h : b.WellFormed)
    (run : LegalRun b line b') :
    b'.isWhitesMove = (b.isWhitesMove ^^ decide (line.length % 2 = 1)) ∧
      (b.numMoves.toInt + b.blackMoves line.length < 2 ^ 31 →
        b'.numMoves.toInt = b.numMoves.toInt + b.blackMoves line.length) ∧
      b'.fiftyMoveClock = b.fiftyMoveClock := by
  obtain ⟨hside, hnum, hfifty⟩ := h.run_clocks run
  refine ⟨hside, fun hfits => ?_, hfifty⟩
  rw [hnum]
  exact Board.toInt_counter_add hfits

/-- A move of Black ends the first full move. -/
theorem legalRun_clocks_kings :
    ∃ b, LegalRun (kingsBoard 1) [(kingsBoard 1).encode kingStep] b ∧ b.isWhitesMove = true ∧
      b.numMoves.toInt = 2 ∧ b.fiftyMoveClock = 0 := by
  obtain ⟨hwf, hlegal⟩ := kingStep_legal 1
  obtain ⟨b, run⟩ := LegalRun.of_legal hwf hlegal
  obtain ⟨hside, hnum, hfifty⟩ := legalRun_clocks hwf run
  exact ⟨b, run, hside, hnum (by decide), hfifty⟩

/-! ## Mirrored games -/

/-- From the mirrored board the mirrored moves can be played in the same order and lead to the
mirrored board, counters apart, and perft counts the same to every depth. -/
theorem legalRun_mirror {b f : Board} {line : List Move} (h : b.WellFormed)
    (run : LegalRun b line f) :
    (∃ line' f', LegalRun b.mirror line' f' ∧
      List.Forall₂ Move.SameMove (line.map Move.mirror) line' ∧
      f'.withCounters f.fiftyMoveClock f.numMoves = f.mirror) ∧
    ∀ d, ∃ n, numberOfMoves b d = .ok n ∧ numberOfMoves b.mirror d = .ok n := by
  have hposition := Board.position_mirror h.disjoint h.epSquare
  constructor
  · obtain ⟨line', f', run', hline, hwf', hf⟩ := Board.exists_run_mirror h run h.mirror hposition
    have hwf := h.of_run run
    refine ⟨line', f', run', hline, hwf'.withCounters_eq hwf.mirror ?_⟩
    rw [hf, Board.position_mirror hwf.disjoint hwf.epSquare]
  · intro d
    refine ⟨_, numberOfMoves_eq h d, ?_⟩
    rw [numberOfMoves_eq h.mirror, hposition, length_lines_mirror h.position]

theorem legalRun_mirror_start :
    ∃ f, LegalRun startBoard [startBoard.encode kingsPawn] f ∧
      (∃ line' f', LegalRun startBoard.mirror line' f' ∧
        List.Forall₂ Move.SameMove ([startBoard.encode kingsPawn].map Move.mirror) line' ∧
        f'.withCounters f.fiftyMoveClock f.numMoves = f.mirror) ∧
      ∀ d, ∃ n, numberOfMoves startBoard d = .ok n ∧ numberOfMoves startBoard.mirror d = .ok n := by
  obtain ⟨f, run⟩ := kingsPawn_run
  exact ⟨f, run, legalRun_mirror startBoard_wellFormed run⟩

/-! ## The score -/

/-- A score that is not decisive lies between what the opponent and what the side to move can come
to have when every pawn on the board becomes a queen. -/
theorem evaluation_within_material {fuel : ℕ} (hfuel : 64 < fuel) (g : PlayBoard) (d : ℕ) :
    ∃ v pv, evaluation fuel g.1 d [] = .ok (v, pv) ∧
      (|v| = 1000 ∨ -g.1.promotableMaterial (flipColor g.1.sideToMove) ≤ v ∧
        v ≤ g.1.promotableMaterial g.1.sideToMove) := by
  refine ⟨_, _, evaluation_eq hfuel g d, ?_⟩
  have hbound := abs_le.mp (abs_unprunedValue_le d g)
  obtain ⟨f, s, run, hs, hv⟩ := legalRun_of_realises
    ((Game.alphaBeta_failHard (chessGame_rank_lt hfuel) d g).line (-1000000) 1000000
      (show -1000000 < unprunedValue d g by omega) (show unprunedValue d g < 1000000 by omega))
  have hwf := g.2.of_run run
  have hmoves := fun c => g.2.run_promotable_le run c
  obtain ⟨hblack, hwhite⟩ := material_bounds f.mailbox
  rw [or_iff_not_imp_left]
  intro hdecisive
  change s * g.1.moverSign = unprunedValue d g at hv
  rw [← hv] at hdecisive ⊢
  rw [g.2.disjoint.promotableMaterial_eq, g.2.disjoint.promotableMaterial_eq, Board.sideToMove]
  rw [Board.moverSign] at hdecisive ⊢
  cases hside : g.1.isWhitesMove with
  | true =>
    rw [hside, if_pos rfl, mul_one] at hdecisive
    rw [staticEvaluation_of_not_decisive hwf hs hdecisive]
    have := hmoves .white
    have := hmoves .black
    simp only [if_true, flipColor_white, mul_one]
    omega
  | false =>
    rw [hside, if_neg (by decide), mul_neg_one, abs_neg] at hdecisive
    rw [staticEvaluation_of_not_decisive hwf hs hdecisive]
    have := hmoves .white
    have := hmoves .black
    simp only [Bool.false_eq_true, if_false, flipColor_black, mul_neg_one]
    omega

theorem evaluation_within_material_start :
    ∃ v pv, evaluation 65 startGame.1 2 [] = .ok (v, pv) ∧
      (|v| = 1000 ∨ -startGame.1.promotableMaterial (flipColor startGame.1.sideToMove) ≤ v ∧
        v ≤ startGame.1.promotableMaterial startGame.1.sideToMove) :=
  evaluation_within_material (by decide) startGame 2

/-! ## The shape of the principal variation -/

/-- The principal variation is a run of legal moves, one for each ply of the depth, followed by a
run of captures. It has fewer moves than plies only if it ends the game, and beyond the depth no
more moves than there are pieces besides the kings. -/
theorem evaluation_pv_shape {fuel : ℕ} (hfuel : 64 < fuel) (g : PlayBoard) (d : ℕ) :
    ∃ v pv, evaluation fuel g.1 d [] = .ok (v, pv) ∧
      (∃ b f, LegalRun g.1 (pv.take d) b ∧ CaptureRun b (pv.drop d) f ∧
        (pv.length < d → b.legalMoves = .ok [])) ∧
      pv.length ≤ d + (g.1.nonKingCount .white + g.1.nonKingCount .black) := by
  refine ⟨_, _, evaluation_eq_plainSearch hfuel g d, ?_⟩
  obtain ⟨e, f, hleads, hcaptures, hshort⟩ := Game.plainSearch_shape (A := chessGame) d g
  have run := legalRun_of_leads hleads
  have captureRun := captureRun_of_leadsByCaptures hcaptures
  refine ⟨⟨e.1, f.1, run, captureRun, ?_⟩, ?_⟩
  · intro hlt
    exact PlayBoard.legalMoves_of_no_children (hshort hlt)
  · have hlength := captureRun.length_le e.2
    have hwhite := g.2.run_nonKingCount_le run .white
    have hblack := g.2.run_nonKingCount_le run .black
    rw [List.length_drop] at hlength
    omega

theorem evaluation_pv_shape_start :
    ∃ v pv, evaluation 65 startGame.1 2 [] = .ok (v, pv) ∧
      (∃ b f, LegalRun startGame.1 (pv.take 2) b ∧ CaptureRun b (pv.drop 2) f ∧
        (pv.length < 2 → b.legalMoves = .ok [])) ∧
      pv.length ≤ 2 + (startGame.1.nonKingCount .white + startGame.1.nonKingCount .black) :=
  evaluation_pv_shape (by decide) startGame 2

end PawnGrabber
