import PawnGrabber.Rules.Evaluation

/-!
# The colours play by the same rules

Mirroring swaps the colours and reverses the order of the ranks. Every notion of the rules is
carried along: a mirrored piece attacks the mirrored squares, mirrored moves are legal in
mirrored positions and lead to mirrored positions, and the static value changes sign.
-/

set_option autoImplicit false

namespace PawnGrabber

/-! ## Squares -/

namespace Square

/-- The square on the same file and the opposite rank. -/
def mirror (s : Square) : Square := ⟨s.file, s.rank.rev⟩

@[simp] theorem mirror_mirror (s : Square) : s.mirror.mirror = s := by simp [mirror]

theorem mirror_involutive : Function.Involutive mirror := mirror_mirror

@[simp] theorem mirror_inj {s t : Square} : s.mirror = t.mirror ↔ s = t :=
  mirror_involutive.injective.eq_iff

/-- Steps north become steps south. -/
@[simp] theorem shift_mirror_iff {s t : Square} {df dr : ℤ} :
    s.mirror.shift df (-dr) = some t.mirror ↔ s.shift df dr = some t := by
  rw [shift_eq_some_iff, shift_eq_some_iff]
  simp only [mirror, Fin.val_rev]
  omega

theorem shift_mirror (s : Square) (df dr : ℤ) :
    s.mirror.shift df (-dr) = (s.shift df dr).map mirror := by
  ext t
  obtain ⟨u, rfl⟩ := mirror_involutive.surjective t
  rw [shift_mirror_iff, Option.map_eq_some_iff]
  constructor
  · intro h
    exact ⟨u, h, rfl⟩
  · intro ⟨v, hv, heq⟩
    rwa [← mirror_inj.mp heq]

end Square

namespace Rules

open Square

variable {mb : Mailbox} {p : Position} {m : ChessMove} {c : Color} {k : Piece} {w : Wing}
  {s t : Square} {v : ℤ × ℤ} {type : MoveType}

/-! ## Geometry -/

theorem forward_flipColor (c : Color) : forward (flipColor c) = -forward c := by
  cases c <;> rfl

theorem kingHome_flipColor (c : Color) : kingHome (flipColor c) = (kingHome c).mirror := by
  cases c <;> rfl

theorem rookHome_flipColor (c : Color) (w : Wing) :
    rookHome (flipColor c) w = (rookHome c w).mirror := by
  cases c <;> cases w <;> rfl

theorem kingTarget_flipColor (c : Color) (w : Wing) :
    kingTarget (flipColor c) w = (kingTarget c w).mirror := by
  cases c <;> cases w <;> rfl

theorem rookTarget_flipColor (c : Color) (w : Wing) :
    rookTarget (flipColor c) w = (rookTarget c w).mirror := by
  cases c <;> cases w <;> rfl

theorem castlingGap_flipColor (c : Color) (w : Wing) :
    castlingGap (flipColor c) w = (castlingGap c w).map mirror := by
  cases c <;> cases w <;> rfl

theorem mirror_rank_eq_iff (s : Square) (c : Color) :
    (s.mirror.rank = lastRank (flipColor c) ↔ s.rank = lastRank c) ∧
      (s.mirror.rank = pawnRank (flipColor c) ↔ s.rank = pawnRank c) ∧
      (s.mirror.rank = enPassantRank (flipColor c) ↔ s.rank = enPassantRank c) := by
  have hranks : ∀ (c : Color) (r : Fin 8), (r.rev = lastRank (flipColor c) ↔ r = lastRank c) ∧
      (r.rev = pawnRank (flipColor c) ↔ r = pawnRank c) ∧
      (r.rev = enPassantRank (flipColor c) ↔ r = enPassantRank c) := by decide
  exact hranks c s.rank

/-! ## Occupants -/

/-- The occupants with the colours swapped and the ranks reversed. -/
def Mailbox.mirror (mb : Mailbox) : Mailbox := fun s =>
  (mb s.mirror).map fun x => (flipColor x.1, x.2)

@[simp] theorem Mailbox.mirror_mirror (mb : Mailbox) : mb.mirror.mirror = mb := by
  funext s
  rw [Mailbox.mirror, Mailbox.mirror, Square.mirror_mirror, Option.map_map]
  refine (Option.map_congr ?_).trans Option.map_id_apply
  intro x _
  simp

theorem flipColor_inj {c d : Color} : flipColor c = flipColor d ↔ c = d := by
  cases c <;> cases d <;> decide

@[simp] theorem Mailbox.mirror_eq_some_iff :
    mb.mirror s.mirror = some (flipColor c, k) ↔ mb s = some (c, k) := by
  rw [Mailbox.mirror, Square.mirror_mirror, Option.map_eq_some_iff]
  constructor
  · intro ⟨x, hx, heq⟩
    rw [Prod.mk.injEq, flipColor_inj] at heq
    rw [hx, ← heq.1, ← heq.2]
  · intro h
    exact ⟨_, h, rfl⟩

@[simp] theorem Mailbox.mirror_eq_none_iff : mb.mirror s.mirror = none ↔ mb s = none := by
  simp [Mailbox.mirror]

theorem Mailbox.mirror_clear (mb : Mailbox) (s : Square) :
    (mb.clear s).mirror = mb.mirror.clear s.mirror := by
  funext t
  obtain ⟨u, rfl⟩ := mirror_involutive.surjective t
  rw [Mailbox.clear_apply, Mailbox.mirror, Mailbox.mirror, Square.mirror_mirror,
    Mailbox.clear_apply]
  simp only [mirror_inj]
  split_ifs <;> rfl

theorem Mailbox.mirror_put (mb : Mailbox) (s : Square) (x : Color × Piece) :
    (mb.put s x).mirror = mb.mirror.put s.mirror (flipColor x.1, x.2) := by
  funext t
  obtain ⟨u, rfl⟩ := mirror_involutive.surjective t
  rw [Mailbox.put_apply, Mailbox.mirror, Mailbox.mirror, Square.mirror_mirror, Mailbox.put_apply]
  simp only [mirror_inj]
  split_ifs <;> rfl

@[simp] theorem holds_mirror : Holds mb.mirror (flipColor c) s.mirror ↔ Holds mb c s :=
  exists_congr fun _ => Mailbox.mirror_eq_some_iff

/-! ## Attacks -/

theorem exists_square_mirror {P : Square → Prop} : (∃ s, P s) ↔ ∃ s : Square, P s.mirror :=
  mirror_involutive.surjective.exists

theorem forall_square_mirror {P : Square → Prop} : (∀ s, P s) ↔ ∀ s : Square, P s.mirror :=
  mirror_involutive.surjective.forall

theorem slides_mirror :
    Slides mb.mirror s.mirror (v.1, -v.2) t.mirror ↔ Slides mb s v t := by
  unfold Slides
  simp only [mul_neg, shift_mirror_iff]
  refine exists_congr fun n => and_congr_right fun _ => and_congr_right fun _ =>
    and_congr_right fun _ => forall_congr' fun j => imp_congr_right fun _ =>
      imp_congr_right ?_
  intro _
  rw [forall_square_mirror]
  apply forall_congr'
  intro u
  rw [Option.mem_def, Option.mem_def, shift_mirror_iff, Mailbox.mirror_eq_none_iff]

/-- A set of directions that is closed under reversing the ranks may be searched mirrored. -/
theorem exists_mem_reverse {l : List (ℤ × ℤ)} (hl : ∀ v ∈ l, (v.1, -v.2) ∈ l)
    {P : ℤ × ℤ → Prop} : (∃ v ∈ l, P v) ↔ ∃ v ∈ l, P (v.1, -v.2) := by
  constructor
  · intro ⟨v, hv, h⟩
    exact ⟨_, hl v hv, by simpa using h⟩
  · intro ⟨v, hv, h⟩
    exact ⟨_, hl v hv, h⟩

theorem pawnAttacks_mirror :
    PawnAttacks (flipColor c) s.mirror t.mirror ↔ PawnAttacks c s t := by
  rw [PawnAttacks, PawnAttacks, forward_flipColor, shift_mirror_iff, shift_mirror_iff]

theorem attacks_mirror :
    Attacks mb.mirror (flipColor c) k s.mirror t.mirror ↔ Attacks mb c k s t := by
  cases k with
  | pawn => exact pawnAttacks_mirror
  | knight =>
    refine (exists_mem_reverse (by decide)).trans ?_
    simp only [shift_mirror_iff]
    exact Iff.rfl
  | king =>
    refine (exists_mem_reverse (by decide)).trans ?_
    simp only [shift_mirror_iff]
    exact Iff.rfl
  | bishop =>
    refine (exists_mem_reverse (by decide)).trans ?_
    simp only [slides_mirror]
    exact Iff.rfl
  | rook =>
    refine (exists_mem_reverse (by decide)).trans ?_
    simp only [slides_mirror]
    exact Iff.rfl
  | queen =>
    refine (exists_mem_reverse (by decide)).trans ?_
    simp only [slides_mirror]
    exact Iff.rfl

theorem attackedBy_mirror : AttackedBy mb.mirror (flipColor c) t.mirror ↔ AttackedBy mb c t := by
  rw [AttackedBy, exists_square_mirror]
  apply exists_congr
  intro s
  apply exists_congr
  intro k
  rw [Mailbox.mirror_eq_some_iff, attacks_mirror]

theorem kingAttacked_mirror : KingAttacked mb.mirror (flipColor c) ↔ KingAttacked mb c := by
  rw [KingAttacked, exists_square_mirror]
  apply exists_congr
  intro t
  rw [Mailbox.mirror_eq_some_iff, attackedBy_mirror]

/-! ## Moves -/

/-- The position with the colours swapped and the ranks reversed. -/
def Position.mirror (p : Position) : Position where
  mailbox := p.mailbox.mirror
  side := flipColor p.side
  rights c w := p.rights (flipColor c) w
  enPassant := p.enPassant.map Square.mirror

def ChessMove.mirror (m : ChessMove) : ChessMove := ⟨m.src.mirror, m.dst.mirror, m.piece, m.type⟩

@[simp] theorem ChessMove.mirror_mirror (m : ChessMove) : m.mirror.mirror = m := by
  simp [ChessMove.mirror]

theorem ChessMove.mirror_involutive : Function.Involutive ChessMove.mirror :=
  ChessMove.mirror_mirror

@[simp] theorem Position.mirror_mailbox : p.mirror.mailbox = p.mailbox.mirror := rfl

@[simp] theorem Position.mirror_side : p.mirror.side = flipColor p.side := rfl

theorem Position.mirror_mirror (p : Position) : p.mirror.mirror = p := by
  have hrights : (fun c w => p.rights (flipColor (flipColor c)) w) = p.rights := by
    funext c w
    rw [flipColor_flipColor]
  have hep : (p.enPassant.map Square.mirror).map Square.mirror = p.enPassant := by
    rw [Option.map_map, mirror_involutive.comp_self, Option.map_id_apply]
  rw [Position.mirror, Position.mk.injEq]
  exact ⟨Mailbox.mirror_mirror p.mailbox, flipColor_flipColor p.side, hrights, hep⟩

@[simp] theorem Position.mirror_enPassant_eq_iff :
    p.mirror.enPassant = some t.mirror ↔ p.enPassant = some t := by
  simp only [Position.mirror, Option.map_eq_some_iff, mirror_inj, exists_eq_right]

theorem pawnMoves_mirror :
    PawnMoves p.mirror (flipColor c) s.mirror t.mirror type ↔ PawnMoves p c s t type := by
  obtain ⟨hlast, hpawn, -⟩ := mirror_rank_eq_iff t c
  obtain ⟨-, hhome, -⟩ := mirror_rank_eq_iff s c
  have hpassed : (∃ u ∈ s.mirror.shift 0 (forward (flipColor c)), p.mirror.mailbox u = none) ↔
      ∃ u ∈ s.shift 0 (forward c), p.mailbox u = none := by
    rw [exists_square_mirror, forward_flipColor]
    simp only [Option.mem_def, shift_mirror_iff, Position.mirror_mailbox,
      Mailbox.mirror_eq_none_iff]
  unfold PawnMoves
  simp only [hlast, hhome, hpassed, ne_eq, pawnAttacks_mirror, Position.mirror_enPassant_eq_iff]
  simp only [forward_flipColor, mul_neg, shift_mirror_iff, Position.mirror_mailbox,
    Mailbox.mirror_eq_none_iff, holds_mirror]

theorem pseudoLegal_mirror : PseudoLegal p.mirror (flipColor c) m.mirror ↔ PseudoLegal p c m := by
  unfold PseudoLegal PieceMoves
  simp only [ChessMove.mirror, Position.mirror_mailbox, Mailbox.mirror_eq_some_iff,
    pawnMoves_mirror, attacks_mirror, Mailbox.mirror_eq_none_iff, holds_mirror]

theorem mayCastle_mirror : MayCastle p.mirror (flipColor c) w ↔ MayCastle p c w := by
  unfold MayCastle
  rw [castlingGap_flipColor, kingHome_flipColor, rookHome_flipColor, rookTarget_flipColor,
    kingTarget_flipColor]
  simp only [Position.mirror_mailbox, Mailbox.mirror_eq_some_iff, List.forall_mem_map,
    Mailbox.mirror_eq_none_iff, List.forall_mem_cons, List.not_mem_nil, IsEmpty.forall_iff,
    implies_true, attackedBy_mirror, and_true]
  simp only [Position.mirror, flipColor_flipColor]

theorem castleMove_flipColor (c : Color) (w : Wing) :
    castleMove (flipColor c) w = (castleMove c w).mirror := by
  rw [castleMove, kingHome_flipColor, kingTarget_flipColor]
  rfl

theorem forfeitsRight_mirror :
    Position.ForfeitsRight m.mirror (flipColor c) w ↔ Position.ForfeitsRight m c w := by
  unfold Position.ForfeitsRight ChessMove.mirror
  rw [kingHome_flipColor, rookHome_flipColor]
  simp only [mirror_inj]

/-- The occupants after a mirrored move. -/
theorem mailboxAfter_mirror :
    p.mirror.mailboxAfter m.mirror = (p.mailboxAfter m).mirror := by
  have hput : ((p.mirror.mailbox.clear m.mirror.src).put m.mirror.dst
      (p.mirror.side, m.mirror.placed)) =
      ((p.mailbox.clear m.src).put m.dst (p.side, m.placed)).mirror := by
    rw [Mailbox.mirror_put, Mailbox.mirror_clear]
    rfl
  unfold Position.mailboxAfter
  simp only [hput]
  have htype : m.mirror.type = m.type := rfl
  rw [htype]
  cases m.type with
  | enPassant =>
    funext s
    obtain ⟨u, rfl⟩ := mirror_involutive.surjective s
    simp only [ChessMove.mirror, Position.mirror_side, forward_flipColor, shift_mirror_iff]
    simp only [Mailbox.mirror, Square.mirror_mirror]
    split_ifs <;> rfl
  | castleKingside =>
    simp only [Position.mirror_side, rookHome_flipColor, rookTarget_flipColor,
      Mailbox.mirror_put, Mailbox.mirror_clear]
  | castleQueenside =>
    simp only [Position.mirror_side, rookHome_flipColor, rookTarget_flipColor,
      Mailbox.mirror_put, Mailbox.mirror_clear]
  | _ => rfl

/-- Playing commutes with mirroring. -/
theorem play_mirror : p.mirror.play m.mirror = (p.play m).mirror := by
  have hrights : (fun c w => p.mirror.rights c w && !decide (Position.ForfeitsRight m.mirror c w)) =
      fun c w => (p.play m).rights (flipColor c) w := by
    funext c w
    have hforfeits := forfeitsRight_mirror (m := m) (c := flipColor c) (w := w)
    rw [flipColor_flipColor] at hforfeits
    simp only [Position.mirror, Position.play, hforfeits]
  have hep : (if m.mirror.type = .twoStepPawn then m.mirror.src.shift 0 (forward p.mirror.side)
      else none) = (p.play m).enPassant.map Square.mirror := by
    rw [Position.mirror_side, forward_flipColor, ChessMove.mirror, shift_mirror, Position.play]
    split_ifs <;> rfl
  rw [Position.play, Position.mirror, Position.mk.injEq]
  exact ⟨mailboxAfter_mirror, rfl, hrights, hep⟩

/-- A move is legal exactly if its mirror image is legal in the mirrored position. -/
theorem legal_mirror : p.mirror.Legal m.mirror ↔ p.Legal m := by
  unfold Position.Legal
  rw [play_mirror, Position.mirror_mailbox, Position.mirror_side, kingAttacked_mirror,
    pseudoLegal_mirror]
  simp only [mayCastle_mirror, castleMove_flipColor, ChessMove.mirror_involutive.injective.eq_iff]

/-! ## The invariant -/

theorem Position.WellFormed.mirror (h : p.WellFormed) : p.mirror.WellFormed where
  king c := by
    obtain ⟨s, hs, huniq⟩ := h.king (flipColor c)
    refine ⟨s.mirror, ?_, ?_⟩
    · have := Mailbox.mirror_eq_some_iff.mpr hs
      rwa [flipColor_flipColor] at this
    · intro t ht
      obtain ⟨u, rfl⟩ := mirror_involutive.surjective t
      rw [← flipColor_flipColor c] at ht
      exact congrArg Square.mirror (huniq u (Mailbox.mirror_eq_some_iff.mp ht))
  pawns c s hs := by
    obtain ⟨u, rfl⟩ := mirror_involutive.surjective s
    rw [← flipColor_flipColor c] at hs
    have := h.pawns _ u (Mailbox.mirror_eq_some_iff.mp hs)
    simp only [Square.mirror, ne_eq, Fin.ext_iff, Fin.val_rev] at this ⊢
    simp at this ⊢
    omega
  enPassant t ht := by
    obtain ⟨u, rfl⟩ := mirror_involutive.surjective t
    obtain ⟨h₁, h₂, v, hv, h₃⟩ := h.enPassant u (Position.mirror_enPassant_eq_iff.mp ht)
    refine ⟨Mailbox.mirror_eq_none_iff.mpr h₁, (mirror_rank_eq_iff u p.side).2.2.mpr h₂,
      v.mirror, ?_, Mailbox.mirror_eq_some_iff.mpr h₃⟩
    rw [Option.mem_def, Position.mirror_side, forward_flipColor, shift_mirror_iff]
    exact hv
  castling c w hright := by
    obtain ⟨hk, hr⟩ := h.castling (flipColor c) w hright
    have hking := Mailbox.mirror_eq_some_iff.mpr hk
    have hrook := Mailbox.mirror_eq_some_iff.mpr hr
    rw [← kingHome_flipColor, flipColor_flipColor] at hking
    rw [← rookHome_flipColor, flipColor_flipColor] at hrook
    exact ⟨hking, hrook⟩
  safe := by
    rw [Position.mirror_side, Position.mirror_mailbox, kingAttacked_mirror]
    exact h.safe

/-! ## The static value -/

theorem squareValue_mirror (x : Option (Color × Piece)) :
    squareValue (x.map fun x => (flipColor x.1, x.2)) = -squareValue x := by
  revert x
  decide

theorem material_mirror (mb : Mailbox) : material mb.mirror = -material mb := by
  unfold material Mailbox.mirror
  simp only [squareValue_mirror]
  rw [Finset.sum_neg_distrib]
  congr 1
  exact Equiv.sum_comp mirror_involutive.toPerm fun s => squareValue (mb s)

theorem legalList_mirror_eq_nil (h : p.WellFormed) :
    legalList p.mirror = [] ↔ legalList p = [] := by
  rw [legalList_eq_nil_iff h, legalList_eq_nil_iff h.mirror,
    ChessMove.mirror_involutive.surjective.forall]
  apply forall_congr'
  intro m
  rw [legal_mirror]

theorem staticValue_mirror (h : p.WellFormed) : p.mirror.staticValue = -p.staticValue := by
  have hside : flipColor p.side = .white ↔ ¬p.side = .white := by
    cases p.side <;> decide
  unfold Position.staticValue
  simp only [legalList_mirror_eq_nil h, Position.mirror_mailbox, material_mirror,
    Position.mirror_side, hside]
  split_ifs <;> rfl

end Rules

end PawnGrabber
