import PawnGrabber.Library.Lines
import PawnGrabber.Analysis.ChessGame

/-!
# Counting games

`number_of_moves` makes and unmakes every move on one board. Each move carries the board it
was generated on, so unmaking restores that board whole, the loop is back at its start after
every round, and the count is the number of lines of the rules.
-/

set_option autoImplicit false

namespace PawnGrabber

open ExceptFold Rules

namespace Rules

/-- The moves of the sequence are legal one after the other. -/
def LegalLine : Position → List ChessMove → Prop
  | _, [] => True
  | p, m :: line => p.Legal m ∧ LegalLine (p.play m) line

/-- The legal lines of a given length. -/
def lines (d : ℕ) (p : Position) : List (List ChessMove) :=
  Lines.ofLength legalList Position.play d p

theorem playable_iff_legalLine {p : Position} (hp : p.WellFormed) (line : List ChessMove) :
    Lines.Playable legalList Position.play p line ↔ LegalLine p line := by
  induction line generalizing p with
  | nil => exact Iff.rfl
  | cons m line ih =>
    rw [Lines.Playable, LegalLine, mem_legalList hp]
    exact and_congr_right fun hm => ih (hm.wellFormed hp)

theorem mem_lines {p : Position} (hp : p.WellFormed) {d : ℕ} {line : List ChessMove} :
    line ∈ lines d p ↔ line.length = d ∧ LegalLine p line := by
  rw [lines, Lines.mem_ofLength, playable_iff_legalLine hp]

theorem nodup_lines (d : ℕ) (p : Position) : (lines d p).Nodup :=
  Lines.nodup_ofLength _ _ (fun _ => nodup_legalList) d p

end Rules

/-- Unmaking a legal move restores every field of the board it was generated on. -/
theorem undoMove_of_mem {b : Board} (h : b.WellFormed) {moves : List Move}
    (hmoves : b.legalMoves = .ok moves) {move : Move} (hmem : move ∈ moves) (child : Board) :
    child.undoMove move = b := by
  obtain ⟨m, -, rfl⟩ := (Board.mem_legalMoves_iff h hmoves).mp hmem
  rfl

/-- The rounds of the loop add up the counts of the children and leave the board as it was. -/
theorem foldlM_numberOfMovesRound {b : Board} (h : b.WellFormed) {recurse : Board → Checked ℤ}
    (count : Position → ℤ) {ms : List ChessMove} (hms : ∀ m ∈ ms, b.position.Legal m)
    (hrec : ∀ child : Board, child.WellFormed → recurse child = .ok (count child.position))
    (res : ℤ) :
    (ms.map b.encode).foldlM (numberOfMovesRound recurse) (b, res) =
      .ok (b, res + (ms.map fun m => count (b.position.play m)).sum) := by
  induction ms generalizing res with
  | nil => simp
  | cons m ms ih =>
    obtain ⟨hm, hms⟩ := List.forall_mem_cons.mp hms
    obtain ⟨child, hdo, hwf, hposition⟩ := Board.doMove_of_legal h hm
    have hround : numberOfMovesRound recurse (b, res) (b.encode m) =
        .ok (b, res + count (b.position.play m)) := by
      rw [numberOfMovesRound]
      simp only [hdo, ok_bind, hrec child hwf, hposition]
      rfl
    rw [List.map_cons, List.foldlM_cons, hround, ok_bind, ih hms, List.map_cons, List.sum_cons,
      add_assoc]

theorem numberOfMoves_succ (b : Board) (d : ℕ) :
    numberOfMoves b (d + 1) = b.legalMoves >>= fun moves =>
      moves.foldlM (numberOfMovesRound fun child => numberOfMoves child d) (b, 0) >>=
        fun state => pure state.2 := rfl

theorem numberOfMoves_eq {b : Board} (h : b.WellFormed) (d : ℕ) :
    numberOfMoves b d = .ok ((lines d b.position).length : ℤ) := by
  induction d generalizing b with
  | zero => rfl
  | succ d ih =>
    rw [numberOfMoves_succ, Board.legalMoves_eq h, ok_bind,
      foldlM_numberOfMovesRound h (fun p => ((lines d p).length : ℤ))
        (fun m hm => (mem_legalList h.position).mp hm) (fun child hchild => ih hchild) 0, ok_bind]
    rw [lines, Lines.length_ofLength_succ, zero_add]
    push_cast
    rw [List.map_map]
    rfl

end PawnGrabber
