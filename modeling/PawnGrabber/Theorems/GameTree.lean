import PawnGrabber.Analysis.Perft

/-!
# Search and perft

The theorems about the game tree below a well-formed board: no internal check ever fires, a
lost score means checkmate outside stalemate, pruning does not change the result of the
search, the principal variation is a line that realises the score, and perft counts the legal
lines.
-/

set_option autoImplicit false

namespace PawnGrabber

open ExceptFold Rules GameSearch

/-- The unpruned capture search: the greatest of the board's own value for the mover and the
negated values of the boards after `legal_capture_moves()`. -/
def unprunedCaptureValue (g : PlayBoard) : ℤ := chessGame.quiesce g

/-- The unpruned value at depth `d`: the greatest of the negated values of the boards after
`legal_moves()`, and the capture search at depth 0 or without a legal move. -/
def unprunedValue (d : ℕ) (g : PlayBoard) : ℤ := chessGame.negamax d g

/-- The start position, as a board of the game. -/
def startGame : PlayBoard := ⟨startBoard, startBoard_wellFormed⟩

theorem abs_unprunedValue_le (d : ℕ) (g : PlayBoard) : |unprunedValue d g| ≤ 1000 :=
  abs_le.mpr (Game.negamax_bound chessGame_eval_bound d g)

theorem evaluation_eq {fuel : ℕ} (hfuel : 64 < fuel) (g : PlayBoard) (d : ℕ) :
    evaluation fuel g.1 d [] =
      .ok (unprunedValue d g, (chessGame.alphaBeta fuel d g (-1000000) 1000000).2) := by
  have hbound := abs_le.mp (abs_unprunedValue_le d g)
  have hscore := (Game.alphaBeta_failHard (chessGame_rank_lt hfuel) d g).score
    (-1000000) 1000000 (by decide)
  rw [evaluation, alphaBeta_eq hfuel, Except.ok.injEq]
  refine Prod.ext ?_ rfl
  rw [hscore]
  change max (-1000000) (min 1000000 (unprunedValue d g)) = unprunedValue d g
  omega

/-! ## Safety -/

/-- Nothing the search or perft executes on a well-formed board stops at a check. -/
theorem search_never_faults {b : Board} (h : b.WellFormed) (d : ℕ) {fuel : ℕ}
    (hfuel : 64 < fuel) :
    (∃ moves, b.legalMoves = .ok moves) ∧ (∃ moves, b.legalCaptureMoves = .ok moves) ∧
      (∃ v, b.staticEvaluation = .ok v) ∧ (∀ c, ∃ mask, b.attackSquares c = .ok mask) ∧
      (∃ n, numberOfMoves b d = .ok n) ∧ ∃ v pv, evaluation fuel b d [] = .ok (v, pv) :=
  ⟨⟨_, Board.legalMoves_eq h⟩, ⟨_, legalCaptureMoves_eq ⟨b, h⟩⟩, ⟨_, Board.staticEvaluation_eq h⟩,
    fun c => (Board.attackSquares_spec h.sound c).imp fun _ => And.left,
    ⟨_, numberOfMoves_eq h d⟩, ⟨_, _, evaluation_eq hfuel ⟨b, h⟩ d⟩⟩

theorem search_never_faults_start :
    (∃ moves, startBoard.legalMoves = .ok moves) ∧
      (∃ moves, startBoard.legalCaptureMoves = .ok moves) ∧
      (∃ v, startBoard.staticEvaluation = .ok v) ∧
      (∀ c, ∃ mask, startBoard.attackSquares c = .ok mask) ∧
      (∃ n, numberOfMoves startBoard 3 = .ok n) ∧
      ∃ v pv, evaluation 65 startBoard 3 [] = .ok (v, pv) :=
  search_never_faults startBoard_wellFormed 3 (by decide)

/-! ## The static value -/

/-- The static value is decisive against the side to move exactly on checkmate, and is the
material balance within 999 points when there is a legal move, unless the side to move is
stalemated. -/
theorem staticEvaluation_exact_iff {b : Board} (h : b.WellFormed) :
    ∃ v, b.staticEvaluation = .ok v ∧
      (((v = (if b.isWhitesMove then -1000 else 1000) ↔ b.position.Checkmate) ∧
          ((∃ m, b.position.Legal m) → v = material b.mailbox ∧ |v| < 1000)) ↔
        ¬b.position.Stalemate) := by
  refine ⟨_, Board.staticEvaluation_eq h, ?_⟩
  have hdecisive : b.position.staticValue = (if b.isWhitesMove then -1000 else 1000) ↔
      ∀ m, ¬b.position.Legal m := by
    rw [← Position.staticValue_decisive_iff h.position, Board.position_side, Board.sideToMove]
    cases b.isWhitesMove <;> simp
  have hmaterial : (∃ m, b.position.Legal m) →
      b.position.staticValue = material b.mailbox ∧ |b.position.staticValue| < 1000 := by
    intro hlegal
    obtain ⟨m, hm⟩ := hlegal
    rw [Position.staticValue_of_legal h.position hm, Board.position_mailbox]
    exact ⟨rfl, (abs_material_le b.mailbox).trans_lt (by decide)⟩
  rw [hdecisive, and_iff_left hmaterial, Position.Checkmate, Position.Stalemate]
  tauto

theorem staticEvaluation_exact_iff_start :
    ∃ v, startBoard.staticEvaluation = .ok v ∧
      (((v = (if startBoard.isWhitesMove then -1000 else 1000) ↔
            startBoard.position.Checkmate) ∧
          ((∃ m, startBoard.position.Legal m) → v = material startBoard.mailbox ∧ |v| < 1000)) ↔
        ¬startBoard.position.Stalemate) :=
  staticEvaluation_exact_iff startBoard_wellFormed

/-- White king g6 and queen f7 against the black king on h8. -/
def stalemateBoard : Board :=
  { uninitializedBoard with
    whiteQueens := 0x4000000000000, whiteKing := 0x20000000000,
    blackKing := 0x100000000000000, isWhitesMove := false, numMoves := 1 }

/-- Black is stalemated, and the value is that of a lost game. -/
theorem staticEvaluation_of_stalemateBoard :
    stalemateBoard.WellFormed ∧ stalemateBoard.staticEvaluation = .ok 1000 ∧
      ¬stalemateBoard.position.Checkmate := by
  obtain ⟨hwf, hvalue, hsafe⟩ : stalemateBoard.WellFormed ∧
      stalemateBoard.staticEvaluation = .ok 1000 ∧
      ¬KingAttacked stalemateBoard.position.mailbox .black := by
    decide +kernel
  exact ⟨hwf, hvalue, fun hmate => hsafe hmate.2⟩

/-! ## Pruning -/

/-- Alpha-beta and the capture search return the unpruned value cut to their window, static
values stay within 1000 points, and `evaluation` returns the unpruned value itself. -/
theorem search_eq_unpruned {fuel : ℕ} (hfuel : 64 < fuel) (g : PlayBoard) (d : ℕ) :
    (∀ α β : ℤ, α < β → ∃ pv, alphaBeta fuel d g.1 α β [] =
      .ok (max α (min β (unprunedValue d g)), pv)) ∧
    (∀ α β : ℤ, α < β → ∃ pv, quiescenceSearch fuel g.1 α β [] =
      .ok (max α (min β (unprunedCaptureValue g)), pv)) ∧
    (∃ v, g.1.staticEvaluation = .ok v ∧ |v| ≤ 1000) ∧
    ∃ pv, evaluation fuel g.1 d [] = .ok (unprunedValue d g, pv) := by
  refine ⟨?_, ?_, ?_, ⟨_, evaluation_eq hfuel g d⟩⟩
  · intro α β hαβ
    have hscore := (Game.alphaBeta_failHard (chessGame_rank_lt hfuel) d g).score α β hαβ
    rw [alphaBeta_eq hfuel]
    exact ⟨_, congrArg Except.ok (Prod.ext hscore rfl)⟩
  · intro α β hαβ
    have hscore :=
      (Game.quiescenceSearch_failHard g (chessGame_rank_lt hfuel g)).score α β hαβ
    rw [quiescenceSearch_eq (chessGame_rank_lt hfuel g)]
    exact ⟨_, congrArg Except.ok (Prod.ext hscore rfl)⟩
  · exact ⟨_, Board.staticEvaluation_eq g.2, Position.abs_staticValue_le _⟩

theorem search_eq_unpruned_start :
    (∀ α β : ℤ, α < β → ∃ pv, alphaBeta 65 2 startGame.1 α β [] =
      .ok (max α (min β (unprunedValue 2 startGame)), pv)) ∧
    (∀ α β : ℤ, α < β → ∃ pv, quiescenceSearch 65 startGame.1 α β [] =
      .ok (max α (min β (unprunedCaptureValue startGame)), pv)) ∧
    (∃ v, startGame.1.staticEvaluation = .ok v ∧ |v| ≤ 1000) ∧
    ∃ pv, evaluation 65 startGame.1 2 [] = .ok (unprunedValue 2 startGame, pv) :=
  search_eq_unpruned (by decide) startGame 2

/-! ## The principal variation -/

/-- The principal variation is a run of legal moves to a board whose static value is the
score, and it begins with the first of the best moves. -/
theorem evaluation_pv {fuel : ℕ} (hfuel : 64 < fuel) (g : PlayBoard) (d : ℕ) :
    ∃ v pv, evaluation fuel g.1 d [] = .ok (v, pv) ∧
      (∃ f s, LegalRun g.1 pv f ∧ f.staticEvaluation = .ok s ∧
        s * (if g.1.isWhitesMove then 1 else -1) = v) ∧
      ∀ n, d = n + 1 → g.legalMoves ≠ [] → ∃ x line, pv = x.1 :: line ∧
        IsFirstMax (fun x : Move × PlayBoard => -unprunedValue n x.2) g.children x := by
  have hbound := abs_le.mp (abs_unprunedValue_le d g)
  have hlow : (-1000000 : ℤ) < unprunedValue d g := by omega
  have hhigh : unprunedValue d g < 1000000 := by omega
  refine ⟨_, _, evaluation_eq hfuel g d, ?_, ?_⟩
  · exact legalRun_of_realises
      ((Game.alphaBeta_failHard (chessGame_rank_lt hfuel) d g).line _ _ hlow hhigh)
  · intro n hn hmoves
    subst hn
    have hchildren : chessGame.children g ≠ [] := by
      intro hnil
      apply hmoves
      rw [← PlayBoard.map_fst_children]
      exact List.map_eq_nil_iff.mpr hnil
    obtain ⟨x, line, hfirst, hpv⟩ :=
      Game.alphaBeta_head (chessGame_rank_lt hfuel) hchildren hlow hhigh
    exact ⟨x, line, hpv, hfirst⟩

theorem evaluation_pv_start :
    ∃ v pv, evaluation 65 startGame.1 2 [] = .ok (v, pv) ∧
      (∃ f s, LegalRun startGame.1 pv f ∧ f.staticEvaluation = .ok s ∧
        s * (if startGame.1.isWhitesMove then 1 else -1) = v) ∧
      ∀ n, 2 = n + 1 → startGame.legalMoves ≠ [] → ∃ x line, pv = x.1 :: line ∧
        IsFirstMax (fun x : Move × PlayBoard => -unprunedValue n x.2) startGame.children x :=
  evaluation_pv (by decide) startGame 2

/-! ## Perft -/

/-- `number_of_moves` returns the number of legal lines of the given length, every round of
its loop leaves the board as it was, and unmaking a move restores every field. -/
theorem numberOfMoves_counts_lines {b : Board} (h : b.WellFormed) (d : ℕ) :
    (∃ lines : Finset (List ChessMove),
      (∀ line, line ∈ lines ↔ line.length = d ∧ LegalLine b.position line) ∧
      numberOfMoves b d = .ok (lines.card : ℤ)) ∧
    ∃ moves, b.legalMoves = .ok moves ∧
      (∀ pre, pre <+: moves → ∃ n,
        pre.foldlM (numberOfMovesRound fun child => numberOfMoves child d) (b, 0) = .ok (b, n)) ∧
      ∀ move ∈ moves, ∃ child, b.doMove move = .ok child ∧ child.undoMove move = b := by
  refine ⟨⟨(lines d b.position).toFinset, ?_, ?_⟩, _, Board.legalMoves_eq h,
    ?_, ?_⟩
  · intro line
    rw [List.mem_toFinset, mem_lines h.position]
  · rw [numberOfMoves_eq h, List.toFinset_card_of_nodup (nodup_lines d b.position)]
  · intro pre hpre
    obtain ⟨ms, hms, rfl⟩ := List.prefix_map_iff.mp hpre
    refine ⟨_, foldlM_numberOfMovesRound h (fun p => ((lines d p).length : ℤ)) ?_
      (fun child hchild => numberOfMoves_eq hchild d) 0⟩
    intro m hm
    exact (mem_legalList h.position).mp (hms.subset hm)
  · intro move hmem
    obtain ⟨child, hdo, -⟩ := PlayBoard.exists_doMove ⟨b, h⟩
      (by rw [PlayBoard.legalMoves, Board.legalMoves_eq h]; exact hmem)
    exact ⟨child, hdo, undoMove_of_mem h (Board.legalMoves_eq h) hmem child⟩

theorem numberOfMoves_counts_lines_start :
    (∃ lines : Finset (List ChessMove),
      (∀ line, line ∈ lines ↔ line.length = 2 ∧ LegalLine startBoard.position line) ∧
      numberOfMoves startBoard 2 = .ok (lines.card : ℤ)) ∧
    ∃ moves, startBoard.legalMoves = .ok moves ∧
      (∀ pre, pre <+: moves → ∃ n,
        pre.foldlM (numberOfMovesRound fun child => numberOfMoves child 2) (startBoard, 0) =
          .ok (startBoard, n)) ∧
      ∀ move ∈ moves, ∃ child, startBoard.doMove move = .ok child ∧
        child.undoMove move = startBoard :=
  numberOfMoves_counts_lines startBoard_wellFormed 2

end PawnGrabber
