import PawnGrabber.Rules.Invariant

/-!
# The legal moves as a list

The pseudolegal moves that leave the king safe, in their order, then the castlings the rules
allow. On a well-formed position these are exactly the legal moves, each once.
-/

set_option autoImplicit false

namespace PawnGrabber

namespace Rules

variable {p : Position} {m : ChessMove}

instance (p : Position) (c : Color) (w : Wing) : Decidable (MayCastle p c w) :=
  inferInstanceAs (Decidable (_ ∧ _ ∧ _ ∧ _ ∧ _))

instance (p : Position) (c : Color) (m : ChessMove) : Decidable (PseudoLegal p c m) :=
  decidable_of_iff (m ∈ pseudoMoves p c) mem_pseudoMoves

instance (p : Position) (m : ChessMove) : Decidable (p.Legal m) :=
  inferInstanceAs (Decidable
    ((PseudoLegal p p.side m ∨ ∃ w, MayCastle p p.side w ∧ m = castleMove p.side w) ∧
      ¬KingAttacked (p.play m).mailbox p.side))

/-- The castlings of `c`, kingside first. -/
def castlings (p : Position) (c : Color) : List ChessMove :=
  ([Wing.kingside, .queenside].filter fun w => MayCastle p c w).map (castleMove c)

def legalList (p : Position) : List ChessMove :=
  ((pseudoMoves p p.side).filter fun m => !decide (KingAttacked (p.mailboxAfter m) p.side)) ++
    castlings p p.side

theorem mem_castlings {c : Color} :
    m ∈ castlings p c ↔ ∃ w, MayCastle p c w ∧ m = castleMove c w := by
  have hwing : ∀ w : Wing, w ∈ [Wing.kingside, .queenside] := by decide
  simp only [castlings, List.mem_map, List.mem_filter, decide_eq_true_eq]
  exact ⟨fun ⟨w, ⟨_, h⟩, heq⟩ => ⟨w, h, heq.symm⟩, fun ⟨w, h, heq⟩ => ⟨w, ⟨hwing w, h⟩, heq.symm⟩⟩

theorem mem_legalList (hp : p.WellFormed) : m ∈ legalList p ↔ p.Legal m := by
  rw [legalList, List.mem_append, List.mem_filter, mem_pseudoMoves, mem_castlings]
  simp only [Bool.not_eq_true', decide_eq_false_iff_not]
  constructor
  · rintro (⟨hm, hsafe⟩ | ⟨w, hw, rfl⟩)
    · exact ⟨Or.inl hm, hsafe⟩
    · exact hw.legal hp
  · rintro ⟨hm | hm, hsafe⟩
    · exact Or.inl ⟨hm, hsafe⟩
    · exact Or.inr hm

theorem legalList_eq_nil_iff (hp : p.WellFormed) : legalList p = [] ↔ ∀ m, ¬p.Legal m := by
  rw [List.eq_nil_iff_forall_not_mem]
  exact forall_congr' fun m => not_congr (mem_legalList hp)

theorem nodup_legalList : (legalList p).Nodup := by
  rw [legalList, List.nodup_append']
  refine ⟨nodup_pseudoMoves.filter _, ?_, ?_⟩
  · exact (List.Nodup.filter _ (by decide)).map (castleMove_injective p.side)
  · intro m hm hm'
    obtain ⟨w, -, rfl⟩ := mem_castlings.mp hm'
    exact not_pseudoLegal_castleMove p.side w (mem_pseudoMoves.mp (List.mem_of_mem_filter hm))

end Rules

end PawnGrabber
