import PawnGrabber.Rules.Counting
import PawnGrabber.Rules.LegalList

/-!
# The static value of a position

Material counted square by square, and 1000 points against the side that cannot move. The
value of a position is never more than 1000 in either direction, because 64 squares hold at
most 9 points each.
-/

set_option autoImplicit false

namespace PawnGrabber

namespace Rules

def pieceValue : Piece → ℤ
  | .pawn => 1
  | .rook => 5
  | .knight => 3
  | .bishop => 3
  | .queen => 9
  | .king => 0

/-- What the occupant of a square adds to White's score. -/
def squareValue : Option (Color × Piece) → ℤ
  | none => 0
  | some (.white, k) => pieceValue k
  | some (.black, k) => -pieceValue k

def material (mb : Mailbox) : ℤ := ∑ s : Square, squareValue (mb s)

/-- The static value from White's point of view. -/
def Position.staticValue (p : Position) : ℤ :=
  if legalList p = [] then (if p.side = .white then -1000 else 1000) else material p.mailbox

theorem abs_squareValue_le (x : Option (Color × Piece)) : |squareValue x| ≤ 9 := by
  revert x
  decide

theorem abs_material_le (mb : Mailbox) : |material mb| ≤ 576 := by
  calc |material mb| ≤ ∑ s : Square, |squareValue (mb s)| := Finset.abs_sum_le_sum_abs _ _
    _ ≤ ∑ _s : Square, (9 : ℤ) := Finset.sum_le_sum fun s _ => abs_squareValue_le (mb s)
    _ = 576 := by
      rw [Finset.sum_const, Finset.card_univ, Square.card_square]
      rfl

theorem Position.abs_staticValue_le (p : Position) : |p.staticValue| ≤ 1000 := by
  unfold Position.staticValue
  split_ifs
  · decide
  · decide
  · exact (abs_material_le p.mailbox).trans (by decide)

/-- The side to move cannot move and its king is attacked. -/
def Position.Checkmate (p : Position) : Prop :=
  (∀ m, ¬p.Legal m) ∧ KingAttacked p.mailbox p.side

/-- The side to move cannot move, although its king is not attacked. -/
def Position.Stalemate (p : Position) : Prop :=
  (∀ m, ¬p.Legal m) ∧ ¬KingAttacked p.mailbox p.side

theorem Position.staticValue_of_legal {p : Position} {m : ChessMove} (hp : p.WellFormed)
    (h : p.Legal m) : p.staticValue = material p.mailbox := by
  have hmem : m ∈ legalList p := (mem_legalList hp).mpr h
  rw [Position.staticValue, if_neg (List.ne_nil_of_mem hmem)]

theorem Position.staticValue_of_no_legal {p : Position} (hp : p.WellFormed)
    (h : ∀ m, ¬p.Legal m) :
    p.staticValue = if p.side = .white then -1000 else 1000 := by
  rw [Position.staticValue, if_pos ((legalList_eq_nil_iff hp).mpr h)]

/-- The decisive value against the side to move says that it cannot move, and no more. -/
theorem Position.staticValue_decisive_iff {p : Position} (hp : p.WellFormed) :
    p.staticValue = (if p.side = .white then -1000 else 1000) ↔ ∀ m, ¬p.Legal m := by
  constructor
  · intro hvalue m hm
    have hbound := abs_le.mp (abs_material_le p.mailbox)
    rw [Position.staticValue_of_legal hp hm] at hvalue
    split_ifs at hvalue <;> omega
  · exact Position.staticValue_of_no_legal hp

/-- The occupied squares. -/
def occupied (mb : Mailbox) : Finset Square := Finset.univ.filter fun s => (mb s).isSome = true

theorem card_occupied_lt (mb : Mailbox) : (occupied mb).card < 65 := by
  have := Finset.card_le_univ (occupied mb)
  rw [Square.card_square] at this
  omega

/-- A move onto an enemy piece leaves fewer pieces on the board. -/
theorem Performable.card_occupied_lt {p : Position} {m : ChessMove} (hp : p.WellFormed)
    (h : Performable p m) (hd : p.mailbox m.dst ≠ none) :
    (occupied (p.mailboxAfter m)).card < (occupied p.mailbox).card := by
  have hcount := h.count_after hp fun _ => true
  have hoccupied : ∀ mb, count (fun _ => true) mb = (occupied mb).card := by
    intro mb
    rw [count, occupied]
    exact congrArg Finset.card (Finset.filter_congr fun s _ => by cases mb s <;> simp)
  obtain ⟨x, hx⟩ := Option.ne_none_iff_exists'.mp hd
  rw [captured_of_dst hp h hd, hx, hoccupied, hoccupied] at hcount
  simp only [Option.any_some, Bool.toNat_true] at hcount
  omega

end Rules

end PawnGrabber
