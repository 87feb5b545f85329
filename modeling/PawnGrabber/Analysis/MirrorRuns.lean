import PawnGrabber.Analysis.MirrorBoard
import PawnGrabber.Analysis.SamePosition
import PawnGrabber.Analysis.Perft

/-!
# Mirrored games

A run of the mirrored board, move for move, leads to the mirrored end, and there are as many runs
of every length. The counters differ, because the move number grows with the moves of Black.
-/

set_option autoImplicit false

namespace PawnGrabber

open ExceptFold Rules

namespace Rules

variable {p : Position}

theorem legalList_mirror (hp : p.WellFormed) :
    (legalList p.mirror).Perm ((legalList p).map ChessMove.mirror) := by
  rw [List.perm_ext_iff_of_nodup nodup_legalList
    (nodup_legalList.map ChessMove.mirror_involutive.injective)]
  intro m
  rw [mem_legalList hp.mirror, ← ChessMove.mirror_mirror m, legal_mirror,
    List.mem_map_of_injective ChessMove.mirror_involutive.injective, mem_legalList hp]

/-- There are as many legal lines from the mirrored position. -/
theorem length_lines_mirror (hp : p.WellFormed) (d : ℕ) :
    (lines d p.mirror).length = (lines d p).length := by
  refine Lines.length_ofLength_eq (R := fun q q' => q.WellFormed ∧ q' = q.mirror) legalList
    Position.play (fun _ => ChessMove.mirror) ?_ ?_ d ⟨hp, rfl⟩
  · rintro q q' ⟨hq, rfl⟩
    exact legalList_mirror hq
  · rintro q q' ⟨hq, rfl⟩ m hm
    exact ⟨((mem_legalList hq).mp hm).wellFormed hq, play_mirror⟩

end Rules

namespace Board

variable {b f : Board} {line : List Move}

/-- Boards with the same position are the same board, counters apart. -/
theorem WellFormed.withCounters_eq {b b' : Board} (h : b.WellFormed) (h' : b'.WellFormed)
    (hposition : b.position = b'.position) :
    b.withCounters b'.fiftyMoveClock b'.numMoves = b' := by
  have hwith := h.withCounters b'.fiftyMoveClock b'.numMoves
  exact eq_of_position_eq hwith.disjoint h'.disjoint hwith.epSquare h'.epSquare hposition rfl rfl

/-- From a board with the mirrored position the mirrored moves can be played. -/
theorem exists_run_mirror (h : b.WellFormed) (run : LegalRun b line f) {b' : Board}
    (h' : b'.WellFormed) (hposition : b'.position = b.position.mirror) :
    ∃ line' f', LegalRun b' line' f' ∧ List.Forall₂ Move.SameMove (line.map Move.mirror) line' ∧
      f'.WellFormed ∧ f'.position = f.position.mirror := by
  induction run generalizing b' with
  | nil b => exact ⟨[], b', .nil b', .nil, h', hposition⟩
  | @cons b b₁ f move moves line legal mem made _ ih =>
    obtain ⟨m, rfl, hm, hplay, hwf⟩ := h.step legal mem made
    have hm' : b'.position.Legal m.mirror := by
      rw [hposition]
      exact legal_mirror.mpr hm
    obtain ⟨b₁', hdo, hwf', hplay'⟩ := doMove_of_legal h' hm'
    obtain ⟨line', f', rest, hline, hf⟩ := ih hwf hwf' (by
      rw [hplay', hposition, play_mirror, hplay])
    refine ⟨b'.encode m.mirror :: line', f', ?_, ?_, hf⟩
    · exact .cons (legalMoves_eq h')
        (List.mem_map_of_mem ((mem_legalList h'.position).mpr hm')) hdo rest
    · rw [List.map_cons, encode_mirror]
      exact .cons (sameMove_encode _ _ _) hline

end Board

end PawnGrabber
