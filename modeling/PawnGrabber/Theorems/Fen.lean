import PawnGrabber.Analysis.FenText
import PawnGrabber.Analysis.Runs

/-!
# Reading a FEN

Reading inverts writing, and on a text that is no FEN the constructor stops at one of its
checks or builds a board with disjoint bitboards, unless the text is one of those that
`Readable` rules out.
-/

set_option autoImplicit false

namespace PawnGrabber

open ExceptFold

namespace Board

/-- The constructor reads every spelling of a board back, with all shifts in range, and the
symbol shown at a square is that of what the placement field names there. -/
theorem ofFen_inverts_spelling {b : Board} (hb : b.Disjoint)
    (hep : ∀ sq ∈ b.enPassantSquare, isSquare sq = true)
    (hfifty : 0 ≤ b.fiftyMoveClock) (hnum : 0 ≤ b.numMoves) (s : FenSpelling b) :
    ofFen s.fen = .ok b ∧ ∀ file rank : Fin 8, ∃ x,
      ((s.row rank).flatMap RankToken.squares)[(file : ℕ)]? = some x ∧
        b.occupiersUnicodeSymbol (file : ℕ) (rank : ℕ) = .ok (unicodeSymbol x) := by
  refine ⟨ofFen_spelling hb hep hfifty hnum s, ?_⟩
  intro file rank
  refine ⟨b.mailbox ⟨file, rank⟩, ?_, occupiersUnicodeSymbol_eq hb ⟨file, rank⟩⟩
  rw [s.row_spells, rankContents]
  simp

theorem ofFen_inverts_spelling_start :
    ofFen (FenSpelling.plain startBoard).fen = .ok startBoard ∧ ∀ file rank : Fin 8, ∃ x,
      (((FenSpelling.plain startBoard).row rank).flatMap RankToken.squares)[(file : ℕ)]? =
        some x ∧
        startBoard.occupiersUnicodeSymbol (file : ℕ) (rank : ℕ) = .ok (unicodeSymbol x) :=
  ofFen_inverts_spelling startBoard_wellFormed.disjoint startBoard_wellFormed.epSquare
    (by decide) (by decide) (FenSpelling.plain startBoard)

/-- Any text at all is stopped at a check or read onto disjoint bitboards, with all accesses
and shifts in range, exactly if it is readable. -/
theorem ofFen_rejects_malformed_iff (fen : StringView) :
    ((∃ fault, ofFen fen = .error fault ∧ fault.IsCheck) ∨
      ∃ b, ofFen fen = .ok b ∧ b.Disjoint) ↔ Readable (fen.splitOn ' ') := by
  rw [← wp_iff]
  exact wp_ofFen fen

/-- A rook and a pawn are put on a7; a ninth rank makes the shift negative; the empty text has
no second field. -/
theorem ofFen_misreads_malformed :
    (∃ b, ofFen "8R/p7/8/8/8/8/8/8 w - - 0 1".toList = .ok b ∧ ¬b.Disjoint) ∧
      ofFen "8/8/8/8/8/8/8/8/8 w - - 0 1".toList = .error .shiftOutOfRange ∧
      ofFen "".toList = .error .indexOutOfRange := by
  have hclash : (ofFen "8R/p7/8/8/8/8/8/8 w - - 0 1".toList).toOption.any
      (fun b => !decide b.Disjoint) = true := by
    decide +kernel
  obtain ⟨b, hread, hb⟩ := exists_ok_of_any hclash
  refine ⟨⟨b, hread, ?_⟩, by decide +kernel, by decide⟩
  simpa using hb

end Board

end PawnGrabber
