import PawnGrabber.Rules.Evaluation

/-!
# Forced wins

What the program takes for a won game: the opponent is left without a legal move, by checkmate
or by stalemate. `Forces d` says that the side to move can bring this about against every
defence within `d` plies, or right after them by taking a piece on the square it goes to, which
leaves out en passant; `Succumbs d` that it cannot avoid it itself.
-/

set_option autoImplicit false

namespace PawnGrabber

namespace Rules

namespace Position

/-- The side to move has no legal move. -/
def Stuck (p : Position) : Prop := ∀ m, ¬p.Legal m

theorem stuck_iff {p : Position} : p.Stuck ↔ p.Checkmate ∨ p.Stalemate := by
  unfold Stuck Checkmate Stalemate
  tauto

mutual

def Forces : ℕ → Position → Prop
  | 0, p => ∃ m, p.Legal m ∧ Holds p.mailbox (flipColor p.side) m.dst ∧ (p.play m).Stuck
  | d + 1, p => ∃ m, p.Legal m ∧ Succumbs d (p.play m)

def Succumbs : ℕ → Position → Prop
  | 0, p => p.Stuck
  | d + 1, p => ∀ m, p.Legal m → Forces d (p.play m)

end

end Position

end Rules

end PawnGrabber
