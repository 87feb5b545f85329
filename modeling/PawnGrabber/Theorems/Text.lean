import PawnGrabber.Analysis.BoardText
import PawnGrabber.Analysis.EvalMain
import PawnGrabber.Analysis.Faults
import PawnGrabber.Theorems.SearchResult

/-!
# Text in and text out

What exactly the readers accept and what it means, that squares, boards and runs of play can be
read off what the program prints, and what `main` of `eval.cc` prints for its two arguments.
-/

set_option autoImplicit false

namespace PawnGrabber

open ExceptFold Rules GameSearch

/-! ## Reading -/

/-- `SimpleAtoi` into an `int` accepts the integer literals of the `int` range, each with its
value, and nothing else. -/
theorem simpleAtoi_accepts_iff (text : StringView) (v : ℤ) :
    simpleAtoi text = some v ↔ IntLiteral text v :=
  simpleAtoi_eq_some_iff text v

/-- The constructor builds a board from a text exactly if the fields of the text mean it. A text
that makes it shift or read out of range counts as one it does not build a board from. -/
theorem ofFen_accepts_iff (fen : StringView) (b : Board) :
    Board.ofFen fen = .ok b ↔ Board.FenMeans (fen.splitOn ' ') b :=
  ⟨Board.fenMeans_of_ofFen, Board.FenMeans.ofFen_eq⟩

/-! ## Squares and moves -/

/-- `square_to_str` writes exactly the single squares, `str_to_square` reads them back, and it
reads nothing else than texts that begin with what `square_to_str` writes. -/
theorem squareToStr_strToSquare_inverse :
    (∀ sq, (∃ text, squareToStr sq = .ok text) ↔ isSquare sq = true) ∧
      (∀ sq text, squareToStr sq = .ok text → strToSquare text = .ok sq) ∧
      ∀ text sq, strToSquare text = .ok sq → squareToStr sq = .ok (text.take 2) := by
  refine ⟨?_, ?_, ?_⟩
  · intro sq
    rw [isSquare_iff]
    constructor
    · intro h
      obtain ⟨text, h⟩ := h
      obtain ⟨s, hs, -⟩ := squareToStr_eq_ok_iff.mp h
      exact ⟨s, hs⟩
    · intro h
      obtain ⟨s, rfl⟩ := h
      exact ⟨s.name, squareToStr_bit s⟩
  · intro sq text h
    obtain ⟨s, rfl, rfl⟩ := squareToStr_eq_ok_iff.mp h
    exact strToSquare_name s
  · intro text sq h
    obtain ⟨s, hs, rfl⟩ := Board.strToSquare_eq_ok_iff.mp h
    have htake : text.take 2 = s.name := (List.prefix_iff_eq_take.mp hs).symm
    rw [htake, squareToStr_bit]

/-- The text of a legal move has four characters, and the legal moves with that text are the
move alone or, if it is a promotion, the four promotions between its squares. -/
theorem legalMoves_of_text {b : Board} (h : b.WellFormed) {moves : List Move}
    (hmoves : b.legalMoves = .ok moves) {move : Move} (hmem : move ∈ moves) :
    ∃ text, move.toPrettyStr = .ok text ∧ text.length = 4 ∧
      (moves.filter fun other => other.toPrettyStr = .ok text).Perm
        (if move.moveType ∈ promotionMoveTypes then
          promotionMoveTypes.map fun type => { move with moveType := type }
        else [move]) := by
  obtain ⟨m, hm, rfl⟩ := (Board.mem_legalMoves_iff h hmoves).mp hmem
  refine ⟨m.text, Board.toPrettyStr_encode b m, rfl, ?_⟩
  have hnodup : moves.Nodup := by
    rw [Board.legalMoves_eq h, Except.ok.injEq] at hmoves
    rw [← hmoves]
    exact nodup_legalList.map b.encode_injective
  apply (List.perm_ext_iff_of_nodup (hnodup.filter _) (Board.nodup_sameText (b.encode m))).mpr
  intro other
  rw [List.mem_filter, decide_eq_true_eq, ← Board.legal_text_iff h hm,
    Board.mem_legalMoves_iff h hmoves]
  constructor
  · rintro ⟨⟨m', hm', rfl⟩, htext⟩
    rw [Board.toPrettyStr_encode, Except.ok.injEq] at htext
    exact ⟨m', hm', rfl, htext⟩
  · rintro ⟨m', hm', rfl, htext⟩
    exact ⟨⟨m', hm', rfl⟩, by rw [Board.toPrettyStr_encode, htext]⟩

theorem legalMoves_of_text_start :
    ∃ text, (startBoard.encode kingsPawn).toPrettyStr = .ok text ∧ text.length = 4 ∧
      (((legalList startBoard.position).map startBoard.encode).filter
        fun other => other.toPrettyStr = .ok text).Perm
        (if (startBoard.encode kingsPawn).moveType ∈ promotionMoveTypes then
          promotionMoveTypes.map fun type =>
            { startBoard.encode kingsPawn with moveType := type }
        else [startBoard.encode kingsPawn]) :=
  legalMoves_of_text startBoard_wellFormed (Board.legalMoves_eq startBoard_wellFormed)
    (Board.encode_mem_of_legal startBoard_wellFormed kingsPawn_legal)

/-- Two runs of legal moves from one board with the same texts and the same promotions are the
same run. -/
theorem legalRun_of_texts {b f f' : Board} {line line' : List Move} (h : b.WellFormed)
    (run : LegalRun b line f) (run' : LegalRun b line' f')
    (htexts : line.map Move.toPrettyStr = line'.map Move.toPrettyStr)
    (hpromotions : line.map Board.promotionType = line'.map Board.promotionType) :
    line = line' ∧ f = f' := by
  induction run generalizing line' f' with
  | nil b =>
    cases run' with
    | nil => exact ⟨rfl, rfl⟩
    | cons => cases htexts
  | @cons b b₁ f move moves line legal mem made rest ih =>
    cases run' with
    | nil => cases htexts
    | @cons _ b₁' _ move' moves' line' legal' mem' made' rest' =>
      rw [List.map_cons, List.map_cons, List.cons.injEq] at htexts hpromotions
      obtain ⟨m, rfl, hm, -, hwf⟩ := h.step legal mem made
      obtain ⟨m', rfl, hm', -, -⟩ := h.step legal' mem' made'
      have hmove := Board.eq_of_text h hm hm' htexts.1 hpromotions.1
      subst hmove
      rw [made, Except.ok.injEq] at made'
      subst made'
      obtain ⟨hline, hf⟩ := ih hwf rest' htexts.2 hpromotions.2
      exact ⟨by rw [hline], hf⟩

theorem legalRun_of_texts_start :
    ∃ b, LegalRun startBoard [startBoard.encode kingsPawn] b ∧
      [startBoard.encode kingsPawn] = [startBoard.encode kingsPawn] ∧ b = b := by
  obtain ⟨b, run⟩ := kingsPawn_run
  exact ⟨b, run, legalRun_of_texts startBoard_wellFormed run run rfl rfl⟩

/-! ## Boards -/

/-- The printed text of a board with disjoint bitboards shows exactly what stands on its squares,
and `bb_to_pretty_str` prints different words differently. -/
theorem toPrettyStr_exact {b b' : Board} (hb : b.Disjoint) (hb' : b'.Disjoint) :
    (∃ text, b.toPrettyStr = .ok text) ∧
      (b.toPrettyStr = b'.toPrettyStr ↔ ∀ s, b.mailbox s = b'.mailbox s) ∧
      ∀ bb, ∃ text, bbToPrettyStr bb = .ok text ∧
        ∀ bb', bbToPrettyStr bb' = .ok text ↔ bb' = bb := by
  obtain ⟨text, htext, -⟩ := Board.toPrettyStr_text hb
  refine ⟨⟨text, htext⟩, ?_, ?_⟩
  · rw [Board.toPrettyStr_eq_iff hb hb', funext_iff]
  · intro bb
    obtain ⟨text, htext, -⟩ := Board.toPrettyStr_text (Board.disjoint_pawnsOnly bb)
    refine ⟨text, by rw [Board.bbToPrettyStr_eq, htext], ?_⟩
    intro bb'
    rw [Board.bbToPrettyStr_eq, ← htext, Board.toPrettyStr_eq_iff (Board.disjoint_pawnsOnly bb')
      (Board.disjoint_pawnsOnly bb), Board.mailbox_pawnsOnly_inj]

theorem toPrettyStr_exact_tactical :
    (∃ text, startBoard.toPrettyStr = .ok text) ∧
      startBoard.toPrettyStr ≠ tacticalBoard.toPrettyStr ∧
      ∀ bb, ∃ text, bbToPrettyStr bb = .ok text ∧
        ∀ bb', bbToPrettyStr bb' = .ok text ↔ bb' = bb := by
  obtain ⟨hprints, hiff, hword⟩ :=
    toPrettyStr_exact startBoard_wellFormed.disjoint tacticalBoard_wellFormed.disjoint
  refine ⟨hprints, fun heq => ?_, hword⟩
  -- a white pawn stands on a2 in one of them only
  have hsquare := hiff.mp heq (Square.ofIndex 15)
  revert hsquare
  decide

/-! ## The evaluation program -/

/-- For a text that means a well-formed board and a depth that is not negative `main` prints the
depth, the unpruned value, and the moves of the unpruned line one by one. -/
theorem evalMain_prints {fuel bound d : ℕ} (hfuel : 64 < fuel) (hbound : d < bound)
    {g : PlayBoard} {fen depthText : StringView} (hfen : Board.FenMeans (fen.splitOn ' ') g.1)
    (hdepth : IntLiteral depthText d) (start taken : StringView) :
    ∃ texts, (unprunedSearch d g).2.mapM Move.toPrettyStr = .ok texts ∧
      evalMain fuel bound start taken fen depthText = .ok (
        ["Depth: ".toList ++ (toString (d : ℤ)).toList,
          "Starting evaluation at time: ".toList ++ start,
          "Evaluation: ".toList ++ (toString (unprunedSearch d g).1).toList,
          "Principal variation: ".toList] ++ texts.map (fun text => '\t' :: text) ++
        ["Time taken: ".toList ++ taken]) := by
  obtain ⟨f, hleads, -⟩ := Game.plainSearch_drop (A := chessGame) (d := d) (g := g) le_rfl
  rw [List.take_length] at hleads
  obtain ⟨texts, htexts⟩ := exists_texts g.2 (legalRun_of_leads hleads)
  refine ⟨texts, htexts, ?_⟩
  have hsearch : alphaBetaInt fuel bound (atoi depthText) g.1 (-1000000) 1000000 [] =
      .ok (unprunedSearch d g) := by
    rw [alphaBetaInt_eq_alphaBeta hdepth.toInt_atoi hbound]
    exact evaluation_eq_plainSearch hfuel g d
  have hprinted : toString (atoi depthText) = toString (d : ℤ) :=
    congrArg toString hdepth.toInt_atoi
  rw [evalMain, hfen.ofFen_eq, ok_bind]
  simp only [hsearch, hprinted, ok_bind]
  change ((chessGame.plainSearch d g).2.mapM Move.toPrettyStr >>= _) = _
  rw [htexts]
  rfl

theorem startFen_means :
    Board.FenMeans ((FenSpelling.plain startBoard).fen.splitOn ' ') startBoard :=
  Board.fenMeans_of_ofFen (Board.ofFen_spelling startBoard_wellFormed.disjoint
    startBoard_wellFormed.epSquare (by decide) (by decide) (FenSpelling.plain startBoard))

theorem evalMain_prints_start :
    ∃ texts, (unprunedSearch 2 startGame).2.mapM Move.toPrettyStr = .ok texts ∧
      evalMain 65 3 [] [] (FenSpelling.plain startBoard).fen ['2'] = .ok (
        ["Depth: ".toList ++ (toString ((2 : ℕ) : ℤ)).toList,
          "Starting evaluation at time: ".toList ++ [],
          "Evaluation: ".toList ++ (toString (unprunedSearch 2 startGame).1).toList,
          "Principal variation: ".toList] ++ texts.map (fun text => '\t' :: text) ++
        ["Time taken: ".toList ++ []]) :=
  evalMain_prints (g := startGame) (by decide) (by decide) startFen_means
    ((simpleAtoi_eq_some_iff _ _).mp (by decide)) [] []

/-- With a negative depth `main` prints a result only if some line of legal moves, shorter than
the bound on the recursion, ends the game: the depth itself does not end the search before it
reaches the end of the `int` range. -/
theorem evalMain_negative_depth {fuel bound : ℕ} {g : PlayBoard} {fen depthText : StringView}
    {d : ℤ} (hfen : Board.FenMeans (fen.splitOn ' ') g.1) (hdepth : IntLiteral depthText d)
    (hneg : d < 0) (hbound : bound ≤ d + 2 ^ 31) {start taken : StringView}
    {lines : List StringView}
    (hprints : evalMain fuel bound start taken fen depthText = .ok lines) :
    ∃ line f, LegalRun g.1 line f ∧ f.legalMoves = .ok [] ∧ line.length < bound := by
  rw [← hdepth.toInt_atoi] at hneg hbound
  rw [evalMain, hfen.ofFen_eq, ok_bind] at hprints
  obtain ⟨r, hsearch, -⟩ := bind_eq_ok.mp hprints
  exact exists_run_of_alphaBetaInt hneg hbound g hsearch

/-- White king h1 and pawns a7, b6 and c6 against black king a8 and queen g2, with White to move:
Kxg2 is the only move, and leaves Black without one. -/
def forcedFen : StringView := "k7/P7/1PP5/8/8/8/6q1/7K w - - 0 1".toList

theorem evalMain_negative_depth_forced :
    ∃ g : PlayBoard, Board.ofFen forcedFen = .ok g.1 ∧ g.1.legalMoves ≠ .ok [] ∧
      ∃ line f, LegalRun g.1 line f ∧ f.legalMoves = .ok [] ∧ line.length < 2 := by
  obtain ⟨hread, hprints⟩ :
      (Board.ofFen forcedFen).toOption.any
        (fun b => b.WellFormed ∧ b.legalMoves ≠ .ok []) = true ∧
      (evalMain 1 2 [] [] forcedFen ['-', '1']).toOption.any (fun _ => true) = true := by
    decide +kernel
  obtain ⟨b, hb, hfacts⟩ := exists_ok_of_any hread
  obtain ⟨hwf, hmoves⟩ := of_decide_eq_true hfacts
  obtain ⟨lines, hlines, -⟩ := exists_ok_of_any hprints
  refine ⟨⟨b, hwf⟩, hb, hmoves, evalMain_negative_depth (Board.fenMeans_of_ofFen hb)
    ((simpleAtoi_eq_some_iff _ _).mp (show simpleAtoi ['-', '1'] = some (-1) by decide))
    (by decide) (by decide) hlines⟩

end PawnGrabber
