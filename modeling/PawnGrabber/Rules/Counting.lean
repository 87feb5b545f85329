import PawnGrabber.Rules.Invariant

/-!
# Counting pieces

How many pieces of a kind stand on the board before and after a move. Every update of a
mailbox changes one square, so a count changes by what leaves that square and what arrives,
and a performable move moves one piece, perhaps into another, and takes at most one.
-/

set_option autoImplicit false

namespace PawnGrabber

namespace Rules

/-- The number of squares whose occupant satisfies `q`. -/
def count (q : Color × Piece → Bool) (mb : Mailbox) : ℕ :=
  (Finset.univ.filter fun s => (mb s).any q = true).card

section Count

variable (q : Color × Piece → Bool) (mb : Mailbox)

/-- Changing one square changes a count by what leaves it and what arrives. -/
theorem count_update (s : Square) (x : Option (Color × Piece)) :
    count q (Function.update mb s x) + ((mb s).any q).toNat = count q mb + (x.any q).toNat := by
  have hsum : ∀ mb : Mailbox, count q mb = ∑ t, ((mb t).any q).toNat := by
    intro mb
    rw [count, Finset.card_filter]
    exact Finset.sum_congr rfl fun t _ => by cases (mb t).any q <;> rfl
  have hupdate : (fun t => ((Function.update mb s x t).any q).toNat) =
      Function.update (fun t => ((mb t).any q).toNat) s (x.any q).toNat :=
    Function.comp_update (fun y => (Option.any q y).toNat) mb s x
  have hsplit := Finset.add_sum_erase Finset.univ (fun t => ((mb t).any q).toNat)
    (Finset.mem_univ s)
  rw [hsum, hsum, hupdate, Finset.sum_update_of_mem (Finset.mem_univ s),
    Finset.sdiff_singleton_eq_erase]
  omega

theorem count_clear (s : Square) :
    count q (mb.clear s) + ((mb s).any q).toNat = count q mb :=
  count_update q mb s none

theorem count_put (s : Square) (x : Color × Piece) :
    count q (mb.put s x) + ((mb s).any q).toNat = count q mb + (q x).toNat :=
  count_update q mb s (some x)

/-- A piece that goes from one square to another takes what stood there. -/
theorem count_put_clear {s t : Square} (hst : t ≠ s) (x : Color × Piece) :
    count q ((mb.clear s).put t x) + ((mb s).any q).toNat + ((mb t).any q).toNat =
      count q mb + (q x).toNat := by
  have hput := count_put q (mb.clear s) t x
  have hclear := count_clear q mb s
  rw [Mailbox.clear_apply, if_neg hst] at hput
  omega

end Count

variable {p : Position} {m : ChessMove}

/-- What a move takes: the occupant of its destination, or with en passant the pawn directly
behind it. -/
def captured (p : Position) (m : ChessMove) : Option (Color × Piece) :=
  if m.type = .enPassant then (m.dst.shift 0 (-forward p.side)).bind p.mailbox
  else p.mailbox m.dst

/-- An en passant capture moves the pawn and takes the one behind its destination. -/
theorem count_enPassant (hp : p.WellFormed) (h : Performable p m) {u : Square}
    (htype : m.type = .enPassant) (target : p.mailbox m.dst = none)
    (behind : m.dst.shift 0 (-forward p.side) = some u)
    (hpawn : p.mailbox u = some (flipColor p.side, .pawn)) (q : Color × Piece → Bool) :
    count q (((p.mailbox.clear m.src).put m.dst (p.side, m.placed)).clear u) +
        (q (p.side, m.piece)).toNat + ((captured p m).any q).toNat =
      count q p.mailbox + (q (p.side, m.placed)).toNat := by
  have hud : u ≠ m.dst := by
    intro heq
    rw [heq, target] at hpawn
    simp at hpawn
  have hus : u ≠ m.src := by
    intro heq
    rw [heq, h.src, Option.some.injEq, Prod.mk.injEq] at hpawn
    exact flipColor_ne p.side hpawn.1.symm
  have hmove := count_put_clear q p.mailbox (h.src_ne_dst hp).symm (p.side, m.placed)
  have hclear := count_clear q ((p.mailbox.clear m.src).put m.dst (p.side, m.placed)) u
  rw [Mailbox.put_apply, if_neg hud, Mailbox.clear_apply, if_neg hus] at hclear
  rw [target, h.src] at hmove
  rw [captured, if_pos htype, behind, Option.bind_some]
  simp only [Option.any_none, Option.any_some, Bool.toNat_false] at hmove
  omega

/-- Castling takes nothing. -/
theorem captured_castleMove {w : Wing} (may : MayCastle p p.side w) :
    captured p (castleMove p.side w) = none := by
  rw [captured, if_neg]
  · exact may.targets_empty.1
  · cases w <;> simp [castleMove, castleType]

/-- Castling moves two pieces onto empty squares. -/
theorem count_castleMove {w : Wing} (may : MayCastle p p.side w) (q : Color × Piece → Bool) :
    count q (p.mailboxAfter (castleMove p.side w)) = count q p.mailbox := by
  obtain ⟨hkingTarget, hrookTarget⟩ := may.targets_empty
  obtain ⟨h₁, h₂, h₃, h₄, h₅, h₆⟩ := castling_squares_ne p.side w
  obtain ⟨-, hking, hrook, -⟩ := may
  have hkingMove := count_put_clear q p.mailbox h₁ (p.side, .king)
  have hrookMove := count_put_clear q
    ((p.mailbox.clear (kingHome p.side)).put (kingTarget p.side w) (p.side, .king)) h₆
    (p.side, .rook)
  simp only [Mailbox.put_apply, Mailbox.clear_apply, if_neg h₂, if_neg h₃, if_neg h₄, if_neg h₅,
    hrookTarget, hrook, Option.any_none, Option.any_some, Bool.toNat_false] at hrookMove
  simp only [hking, hkingTarget, Option.any_none, Option.any_some, Bool.toNat_false] at hkingMove
  rw [mailboxAfter_castleMove]
  omega

/-- A count after a move: the moved piece leaves, the piece it is or becomes arrives, and the
captured one is gone. -/
theorem Performable.count_after (hp : p.WellFormed) (h : Performable p m)
    (q : Color × Piece → Bool) :
    count q (p.mailboxAfter m) + (q (p.side, m.piece)).toNat + ((captured p m).any q).toNat =
      count q p.mailbox + (q (p.side, m.placed)).toNat := by
  cases h.mailboxChange hp with
  | plain type after =>
    have hmove := count_put_clear q p.mailbox (h.src_ne_dst hp).symm (p.side, m.placed)
    rw [h.src, Option.any_some] at hmove
    rwa [after, captured, if_neg type]
  | enPassant u type target behind pawn after =>
    rw [after]
    exact count_enPassant hp h type target behind pawn q
  | castle w may eq _ =>
    have hplaced : (castleMove p.side w).placed = .king := by cases w <;> rfl
    rw [eq, captured_castleMove may, count_castleMove may q, hplaced]
    rfl

/-- A move onto an occupied square takes what stands there. -/
theorem captured_of_dst (hp : p.WellFormed) (h : Performable p m)
    (hd : p.mailbox m.dst ≠ none) : captured p m = p.mailbox m.dst := by
  rw [captured, if_neg]
  intro htype
  exact hd (hp.enPassant _ (h.enPassant_target htype)).1

/-- En passant takes a pawn. -/
theorem captured_of_enPassant (hp : p.WellFormed) (h : Performable p m)
    (htype : m.type = .enPassant) : captured p m = some (flipColor p.side, .pawn) := by
  obtain ⟨-, -, u, hu, hpawn⟩ := hp.enPassant _ (h.enPassant_target htype)
  rw [Option.mem_def] at hu
  rw [captured, if_pos htype, hu, Option.bind_some, hpawn]

/-- Only pieces of the other side are taken, and never its king. -/
theorem Performable.of_captured (hp : p.WellFormed) (h : Performable p m) {c : Color} {k : Piece}
    (hx : captured p m = some (c, k)) : c = flipColor p.side ∧ k ≠ .king := by
  by_cases htype : m.type = .enPassant
  · rw [captured_of_enPassant hp h htype, Option.some.injEq, Prod.mk.injEq] at hx
    exact ⟨hx.1.symm, by rw [← hx.2]; simp⟩
  · rw [captured, if_neg htype] at hx
    constructor
    · have hne : p.mailbox m.dst ≠ none := by simp [hx]
      obtain ⟨k', hk'⟩ := (holds_or_holds p.side hne).resolve_left (h.dst hp)
      rw [hx, Option.some.injEq, Prod.mk.injEq] at hk'
      exact hk'.1
    · rintro rfl
      exact h.dst_ne_king hp c hx

end Rules

end PawnGrabber
