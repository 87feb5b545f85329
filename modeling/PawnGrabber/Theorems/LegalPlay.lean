import PawnGrabber.Analysis.Runs

/-!
# Play follows the rules

The theorems about a single position and about runs of play: `legal_moves` is exact,
`do_move` refines the mailbox rules, well-formedness is an invariant, and a castling right
is held exactly as long as its king and rook have not been touched.
-/

set_option autoImplicit false

namespace PawnGrabber

open ExceptFold Rules

namespace Board

/-! ## Legal moves -/

/-- `legal_moves()` lists the legal moves of chess, each exactly once. -/
theorem legalMoves_exact {b : Board} (h : b.WellFormed) :
    ∃ moves, b.legalMoves = .ok moves ∧ moves.Nodup ∧
      ∀ move, move ∈ moves ↔ ∃ m : ChessMove, b.position.Legal m ∧
        move = ⟨m.src.bit, m.dst.bit, m.piece, m.type, b⟩ :=
  ⟨_, legalMoves_eq h, nodup_legalList.map b.encode_injective,
    fun _ => mem_legalMoves_iff h (legalMoves_eq h)⟩

theorem legalMoves_exact_start :
    ∃ moves, startBoard.legalMoves = .ok moves ∧ moves.Nodup ∧
      ∀ move, move ∈ moves ↔ ∃ m : ChessMove, startBoard.position.Legal m ∧
        move = ⟨m.src.bit, m.dst.bit, m.piece, m.type, startBoard⟩ :=
  legalMoves_exact startBoard_wellFormed

/-! ## The invariant -/

/-- The start position is well-formed, every legal move can be made and leaves a well-formed
board, and so every run of legal moves ends on a well-formed board with one king a side. -/
theorem wellFormed_invariant :
    (∃ b₀, Board.start = .ok b₀ ∧ b₀.WellFormed) ∧
    (∀ b : Board, b.WellFormed → ∃ moves, b.legalMoves = .ok moves ∧
      ∀ move ∈ moves, ∃ b', b.doMove move = .ok b' ∧ b'.WellFormed) ∧
    ∀ (b b' : Board) (line : List Move), b.WellFormed → LegalRun b line b' →
      b'.WellFormed ∧ isSquare b'.whiteKing = true ∧ isSquare b'.blackKing = true := by
  refine ⟨⟨_, start_eq, startBoard_wellFormed⟩, fun b h => ⟨_, legalMoves_eq h, ?_⟩, ?_⟩
  · intro move hmem
    obtain ⟨m, hm, rfl⟩ := (mem_legalMoves_iff h (legalMoves_eq h)).mp hmem
    obtain ⟨b', hdo, hwf, -⟩ := doMove_of_legal h hm
    exact ⟨b', hdo, hwf⟩
  · intro b b' line h run
    have hwf : b'.WellFormed :=
      h.run (P := fun b _ b' => b.WellFormed → b'.WellFormed) (fun _ h => h)
        (fun _ _ _ hwf ih _ => ih hwf) run h
    exact ⟨hwf, hwf.sound.isSquare_king .white, hwf.sound.isSquare_king .black⟩

theorem wellFormed_invariant_start :
    (∃ b₀, Board.start = .ok b₀ ∧ b₀.WellFormed) ∧
    ∃ b, LegalRun startBoard [startBoard.encode kingsPawn] b ∧
      b.WellFormed ∧ isSquare b.whiteKing = true ∧ isSquare b.blackKing = true := by
  obtain ⟨hstart, -, hruns⟩ := wellFormed_invariant
  obtain ⟨b, run⟩ := kingsPawn_run
  exact ⟨hstart, b, run, hruns startBoard b _ startBoard_wellFormed run⟩

/-! ## The effect of a move -/

/-- `do_move` of a legal move is the update of the mailbox rules: `mailboxAfter` for the
occupants, on disjoint bitboards again, the square passed over by a two-step pawn move or nothing
for the en passant field, the other side to move, and a full move counted when Black has moved,
unless the counter is at the end of the `int` range. -/
theorem doMove_refines_rules {b : Board} (h : b.WellFormed) {moves : List Move}
    (hmoves : b.legalMoves = .ok moves) {move : Move} (hmem : move ∈ moves) :
    ∃ (m : ChessMove) (b' : Board), move = b.encode m ∧ b.position.Legal m ∧
      b.doMove move = .ok b' ∧ b'.Disjoint ∧ b'.mailbox = b.position.mailboxAfter m ∧
      (m.type = .twoStepPawn → ∃ u, m.src.shift 0 (forward b.sideToMove) = some u ∧
        b'.enPassantSquare = some u.bit) ∧
      (m.type ≠ .twoStepPawn → b'.enPassantSquare = none) ∧
      b'.isWhitesMove = !b.isWhitesMove ∧
      (b.isWhitesMove = true → b'.numMoves = b.numMoves) ∧
      (b.isWhitesMove = false → b.numMoves.toInt < 2147483647 →
        b'.numMoves.toInt = b.numMoves.toInt + 1) := by
  obtain ⟨m, hm, rfl⟩ := (mem_legalMoves_iff h hmoves).mp hmem
  obtain ⟨b', hdo, hsound, hposition, -, hnum⟩ := doMove_spec h hm.performable
  have hep := enPassantSquare_eq hsound.epSquare
  rw [hposition, Position.play] at hep
  have hside : b'.sideToMove = flipColor b.sideToMove := congrArg Position.side hposition
  refine ⟨m, b', rfl, hm, hdo, hsound.disjoint, congrArg Position.mailbox hposition, ?_, ?_, ?_, ?_,
    ?_⟩
  · intro htype
    obtain ⟨-, moves⟩ := hm.performable.pawnMoves (Or.inl htype)
    rw [htype] at moves
    obtain ⟨-, ⟨u, hu, -⟩, -⟩ := moves
    rw [Option.mem_def] at hu
    refine ⟨u, hu, ?_⟩
    rw [hep, if_pos htype, hu, Option.map_some]
  · intro htype
    rw [hep, if_neg htype, Option.map_none]
  · rw [isWhitesMove_eq, isWhitesMove_eq, hside]
    cases b.sideToMove <;> rfl
  · intro hwhite
    rw [hnum, sideToMove, hwhite]
    exact Int32.add_zero b.numMoves
  · intro hblack hfits
    rw [hnum, sideToMove, hblack]
    exact toInt_counter_add (n := 1) (by omega)

/-- A king steps forward, and the first full move is over. -/
theorem doMove_refines_rules_kings :
    ∃ (m : ChessMove) (b' : Board), (kingsBoard 1).encode kingStep = (kingsBoard 1).encode m ∧
      (kingsBoard 1).position.Legal m ∧
      (kingsBoard 1).doMove ((kingsBoard 1).encode kingStep) = .ok b' ∧ b'.Disjoint ∧
      b'.mailbox = (kingsBoard 1).position.mailboxAfter m ∧
      b'.enPassantSquare = none ∧ b'.isWhitesMove = true ∧ b'.numMoves.toInt = 2 := by
  obtain ⟨hwf, hlegal⟩ := kingStep_legal 1
  obtain ⟨m, b', hmove, hm, hdo, hdisj, hmailbox, -, hep, hside, -, hnum⟩ :=
    doMove_refines_rules hwf (legalMoves_eq hwf) (encode_mem_of_legal hwf hlegal)
  have htype : m.type = .simple := (congrArg Move.moveType hmove).symm
  exact ⟨m, b', hmove, hm, hdo, hdisj, hmailbox, hep (by simp [htype]), hside,
    hnum rfl (by decide)⟩

/-- A full move number at the end of the `int` range does not grow by one when Black moves. -/
theorem doMove_of_kingsBoard :
    ofFen "4k3/8/8/8/8/8/8/4K3 b - - 0 2147483647".toList = .ok (kingsBoard 2147483647) ∧
      (kingsBoard 2147483647).WellFormed ∧ (kingsBoard 2147483647).isWhitesMove = false ∧
      ∃ moves b', (kingsBoard 2147483647).legalMoves = .ok moves ∧
        (kingsBoard 2147483647).encode kingStep ∈ moves ∧
        (kingsBoard 2147483647).doMove ((kingsBoard 2147483647).encode kingStep) = .ok b' ∧
        b'.numMoves.toInt = -2147483648 ∧
        b'.numMoves.toInt ≠ (kingsBoard 2147483647).numMoves.toInt + 1 := by
  obtain ⟨hwf, hlegal⟩ := kingStep_legal 2147483647
  obtain ⟨b', hdo, -, -, -, hnum⟩ := doMove_spec hwf hlegal.performable
  have hwrapped : b'.numMoves = -2147483648 := hnum
  refine ⟨ofFen_kingsBoard, hwf, rfl, _, b', legalMoves_eq hwf, encode_mem_of_legal hwf hlegal, hdo,
    ?_, ?_⟩
  · rw [hwrapped]
    rfl
  · rw [hwrapped]
    decide

/-! ## Castling rights -/

/-- A castling right is held at the end of a run exactly if it was held at its start and no
move of the run left the king's or the rook's home square or arrived on the rook's. -/
theorem rights_of_legalRun {b₀ b : Board} {line : List Move} (h : b₀.WellFormed)
    (run : LegalRun b₀ line b) (c : Color) (w : Wing) :
    b.rights c w = true ↔ b₀.rights c w = true ∧ ∀ move ∈ line,
      move.srcSquare ≠ (kingHome c).bit ∧ move.srcSquare ≠ (rookHome c w).bit ∧
        move.dstSquare ≠ (rookHome c w).bit := by
  refine h.run (P := fun b₀ line b => b.rights c w = true ↔ b₀.rights c w = true ∧ ∀ move ∈ line,
    move.srcSquare ≠ (kingHome c).bit ∧ move.srcSquare ≠ (rookHome c w).bit ∧
      move.dstSquare ≠ (rookHome c w).bit) (fun b => by simp) ?_ run
  intro b b₁ b' m line _ _ hposition _ ih
  have hright : b₁.rights c w = true ↔ b.rights c w = true ∧ ¬Position.ForfeitsRight m c w := by
    rw [show b₁.rights c w = (b.position.play m).rights c w from
      congrArg (fun p => p.rights c w) hposition]
    simp [Position.play]
  rw [ih, hright, List.forall_mem_cons, Position.ForfeitsRight]
  simp only [encode_srcSquare, encode_dstSquare, ne_eq, bit_inj]
  tauto

theorem rights_of_legalRun_start :
    ∃ b, LegalRun startBoard [startBoard.encode kingsPawn] b ∧
      (b.rights .white .kingside = true ↔ startBoard.rights .white .kingside = true ∧
        ∀ move ∈ [startBoard.encode kingsPawn],
          move.srcSquare ≠ (kingHome .white).bit ∧
          move.srcSquare ≠ (rookHome .white .kingside).bit ∧
          move.dstSquare ≠ (rookHome .white .kingside).bit) := by
  obtain ⟨b, run⟩ := kingsPawn_run
  exact ⟨b, run, rights_of_legalRun startBoard_wellFormed run .white .kingside⟩

end Board

end PawnGrabber
