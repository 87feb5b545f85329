import PawnGrabber.Rules.Invariant

/-!
# What source and destination say about a move

The squares a move starts from and arrives on determine its type, promotions apart. A pawn that
arrives on the last rank has four moves between the same squares, which differ only in the piece
that is placed; either all of them leave the king safe or none.
-/

set_option autoImplicit false

namespace PawnGrabber

namespace Rules

open Square

variable {p : Position} {m m' : ChessMove} {c : Color} {s t : Square}

/-! ## The type -/

/-- The type of a move of the piece `k` between two squares, if it is no promotion. -/
def plainType (p : Position) (k : Piece) (s t : Square) : MoveType :=
  if p.mailbox t ≠ none then .capture
  else if k = .pawn ∧ t.file ≠ s.file then .enPassant
  else if k = .pawn ∧ s.shift 0 (2 * forward p.side) = some t then .twoStepPawn
  else if k = .king ∧ s.shift 2 0 = some t then .castleKingside
  else if k = .king ∧ s.shift (-2) 0 = some t then .castleQueenside
  else .simple

/-- A pawn's step forward stays on its file and is not a double step. -/
theorem not_double_of_push (h : s.shift 0 (forward c) = some t) :
    t.file = s.file ∧ s.shift 0 (2 * forward c) ≠ some t := by
  rw [Ne, shift_eq_some_iff, Fin.ext_iff]
  rw [shift_eq_some_iff] at h
  cases c <;> simp only [forward] at h ⊢ <;> omega

theorem PawnAttacks.file_ne (h : PawnAttacks c s t) : t.file ≠ s.file := by
  rw [PawnAttacks, shift_eq_some_iff, shift_eq_some_iff] at h
  rw [Ne, Fin.ext_iff]
  omega

/-- A king's step is not as wide as a castling. -/
theorem not_castle_of_step {v : ℤ × ℤ} (hv : v ∈ orthogonals ++ diagonals)
    (h : s.shift v.1 v.2 = some t) : s.shift 2 0 ≠ some t ∧ s.shift (-2) 0 ≠ some t := by
  have hnot : ∀ w ∈ orthogonals ++ diagonals, w ≠ (2, 0) ∧ w ≠ (-2, 0) := by decide
  constructor
  · intro hcastle
    exact (hnot v hv).1 (offset_inj h hcastle)
  · intro hcastle
    exact (hnot v hv).2 (offset_inj h hcastle)

/-- Castling takes the king two files to the east or to the west. -/
theorem kingTarget_shift (c : Color) :
    (kingHome c).shift 2 0 = some (kingTarget c .kingside) ∧
      (kingHome c).shift (-2) 0 = some (kingTarget c .queenside) ∧
      (kingHome c).shift 2 0 ≠ some (kingTarget c .queenside) := by
  cases c <;> decide

/-- A move is a promotion of a pawn to the last rank, or its squares determine its type, and it
is no pawn's move to the last rank. -/
theorem Performable.type_cases (hp : p.WellFormed) (h : Performable p m) :
    (m.type ∈ promotionMoveTypes ∧ m.piece = .pawn ∧ m.dst.rank = lastRank p.side) ∨
      (m.type = plainType p m.piece m.src m.dst ∧ m.type ∉ promotionMoveTypes ∧
        ¬(m.piece = .pawn ∧ m.dst.rank = lastRank p.side)) := by
  cases h.shape with
  | promotion type piece _ rank => exact Or.inl ⟨type, piece, rank⟩
  | castle w may eq =>
    right
    have hempty := may.targets_empty.1
    obtain ⟨hking, hqueen, hnot⟩ := kingTarget_shift p.side
    subst eq
    cases w with
    | kingside => simp [plainType, castleMove, castleType, hempty, hking, promotionMoveTypes]
    | queenside =>
      simp [plainType, castleMove, castleType, hempty, hqueen, hnot, promotionMoveTypes]
  | twoStepPawn type piece moves =>
    right
    obtain ⟨hrank, -, hdst, hempty⟩ := moves
    have hcoords := shift_eq_some_iff.mp hdst
    have hfile : m.dst.file = m.src.file := by
      rw [Fin.ext_iff]
      omega
    refine ⟨?_, by rw [type]; decide, ?_⟩
    · simp [plainType, type, piece, hempty, hfile, hdst]
    · rintro ⟨-, hlast⟩
      rw [hlast, hrank] at hcoords
      cases hc : p.side <;> simp [hc, lastRank, backRank, pawnRank, forward] at hcoords
  | enPassant type piece attacks target =>
    right
    obtain ⟨hempty, hrank, -⟩ := hp.enPassant _ target
    refine ⟨?_, by rw [type]; decide, ?_⟩
    · simp [plainType, type, piece, hempty, attacks.file_ne]
    · rintro ⟨-, hlast⟩
      rw [hlast] at hrank
      cases hc : p.side <;> simp [hc, lastRank, backRank, enPassantRank] at hrank
  | capture type target =>
    right
    refine ⟨?_, by rw [type]; decide, ?_⟩
    · simp [plainType, type, target.ne_none]
    · rintro ⟨hpawn, hlast⟩
      rcases h with ⟨-, hm⟩ | ⟨w, -, rfl⟩
      · rw [if_pos hpawn, type] at hm
        exact hm.2 hlast
      · simp [castleMove] at hpawn
  | simple type target =>
    right
    have hcastle : ¬∃ w, MayCastle p p.side w ∧ m = castleMove p.side w := by
      rintro ⟨w, -, rfl⟩
      cases w <;> simp [castleMove, castleType] at type
    obtain ⟨-, hm⟩ := h.resolve_right hcastle
    by_cases hpawn : m.piece = .pawn
    · rw [if_pos hpawn, type] at hm
      obtain ⟨⟨hpush, -⟩, hrank⟩ := hm
      obtain ⟨hfile, hdouble⟩ := not_double_of_push hpush
      refine ⟨?_, by rw [type]; decide, fun hlast => hrank hlast.2⟩
      simp [plainType, type, hpawn, target, hfile, hdouble]
    · rw [if_neg hpawn] at hm
      refine ⟨?_, by rw [type]; decide, fun hlast => hpawn hlast.1⟩
      by_cases hking : m.piece = .king
      · rw [hking] at hm
        obtain ⟨⟨v, hv, hstep⟩, -⟩ := hm
        obtain ⟨h₁, h₂⟩ := not_castle_of_step hv hstep
        simp [plainType, type, hking, target, h₁, h₂]
      · simp [plainType, type, hpawn, hking, target]

/-- Two moves between the same squares are the same move, or promotions that differ in type. -/
theorem Performable.eq_of_squares (hp : p.WellFormed) (h : Performable p m)
    (h' : Performable p m') (hsrc : m'.src = m.src) (hdst : m'.dst = m.dst) :
    m' = m ∧ m.type ∉ promotionMoveTypes ∨
      m.type ∈ promotionMoveTypes ∧ m'.type ∈ promotionMoveTypes ∧
        m' = { m with type := m'.type } := by
  have hpiece : m'.piece = m.piece := by
    have heq := h'.src
    rw [hsrc, h.src, Option.some.injEq, Prod.mk.injEq] at heq
    exact heq.2.symm
  rcases h.type_cases hp with ⟨htype, hpawn, hrank⟩ | ⟨htype, hnot, hplain⟩
  · rcases h'.type_cases hp with ⟨htype', -⟩ | ⟨-, -, hplain'⟩
    · right
      refine ⟨htype, htype', ?_⟩
      rw [← hsrc, ← hdst, ← hpiece]
    · rw [hpiece, hdst] at hplain'
      exact absurd ⟨hpawn, hrank⟩ hplain'
  · rcases h'.type_cases hp with ⟨-, hpawn', hrank'⟩ | ⟨htype', -⟩
    · rw [hpiece] at hpawn'
      rw [hdst] at hrank'
      exact absurd ⟨hpawn', hrank'⟩ hplain
    · left
      rw [hpiece, hsrc, hdst, ← htype] at htype'
      refine ⟨?_, hnot⟩
      obtain ⟨src, dst, piece, type⟩ := m
      obtain ⟨src', dst', piece', type'⟩ := m'
      simp only [ChessMove.mk.injEq]
      exact ⟨hsrc, hdst, hpiece, htype'⟩

/-! ## Promotions -/

/-- An attack goes through on a board with fewer obstacles. -/
theorem Attacks.of_empty {mb mb' : Mailbox} {k : Piece}
    (hempty : ∀ u, mb u = none → mb' u = none) (h : Attacks mb c k s t) :
    Attacks mb' c k s t := by
  have hslides : ∀ v, Slides mb s v t → Slides mb' s v t := by
    rintro v ⟨n, hn, hpos, hshift, hclear⟩
    exact ⟨n, hn, hpos, hshift, fun i hi hi0 u hu => hempty u (hclear i hi hi0 u hu)⟩
  cases k with
  | pawn => exact h
  | knight => exact h
  | king => exact h
  | bishop =>
    obtain ⟨v, hv, h⟩ := h
    exact ⟨v, hv, hslides v h⟩
  | rook =>
    obtain ⟨v, hv, h⟩ := h
    exact ⟨v, hv, hslides v h⟩
  | queen =>
    obtain ⟨v, hv, h⟩ := h
    exact ⟨v, hv, hslides v h⟩

/-- It makes no difference to the safety of a king what kinds the other pieces of its colour
are. -/
theorem KingAttacked.of_kinds {mb mb' : Mailbox}
    (hkinds : ∀ u, mb u = mb' u ∨
      ∃ k k', mb u = some (c, k) ∧ mb' u = some (c, k') ∧ k ≠ .king)
    (h : KingAttacked mb c) : KingAttacked mb' c := by
  obtain ⟨t, ht, s, k, hs, ha⟩ := h
  refine ⟨t, ?_, s, k, ?_, ha.of_empty ?_⟩
  · rcases hkinds t with heq | ⟨k₁, -, hk₁, -, hne⟩
    · rw [← heq, ht]
    · rw [ht, Option.some.injEq, Prod.mk.injEq] at hk₁
      exact absurd hk₁.2.symm hne
  · rcases hkinds s with heq | ⟨k₁, -, hk₁, -, -⟩
    · rw [← heq, hs]
    · rw [hs, Option.some.injEq, Prod.mk.injEq] at hk₁
      exact absurd hk₁.1 (flipColor_ne c)
  · intro u hu
    rcases hkinds u with heq | ⟨k₁, -, hk₁, -, -⟩
    · rw [← heq, hu]
    · rw [hu] at hk₁
      cases hk₁

theorem pawnMoves_of_promotion {type : MoveType} (htype : type ∈ promotionMoveTypes) :
    PawnMoves p c s t type ↔
      (s.shift 0 (forward c) = some t ∧ p.mailbox t = none ∨
        PawnAttacks c s t ∧ Holds p.mailbox (flipColor c) t) ∧ t.rank = lastRank c := by
  simp only [promotionMoveTypes, List.mem_cons, List.not_mem_nil, or_false] at htype
  rcases htype with rfl | rfl | rfl | rfl <;> exact Iff.rfl

/-- What a promotion leaves, and that no king is placed. -/
theorem mailboxAfter_of_promotion (htype : m.type ∈ promotionMoveTypes) :
    p.mailboxAfter m = (p.mailbox.clear m.src).put m.dst (p.side, m.placed) ∧
      m.placed ≠ .king := by
  obtain ⟨src, dst, piece, type⟩ := m
  simp only [promotionMoveTypes, List.mem_cons, List.not_mem_nil, or_false] at htype
  rcases htype with rfl | rfl | rfl | rfl <;> exact ⟨rfl, by simp [ChessMove.placed]⟩

/-- With one promotion the other three between its squares are legal too. -/
theorem Position.Legal.promotions (h : p.Legal m) (htype : m.type ∈ promotionMoveTypes)
    {type : MoveType} (htype' : type ∈ promotionMoveTypes) : p.Legal { m with type := type } := by
  obtain ⟨hm, hsafe⟩ := h
  have hcastle : ¬∃ w, MayCastle p p.side w ∧ m = castleMove p.side w := by
    rintro ⟨w, -, rfl⟩
    cases w <;> simp [castleMove, castleType, promotionMoveTypes] at htype
  obtain ⟨hsrc, hm⟩ := hm.resolve_right hcastle
  have hpawn : m.piece = .pawn := by
    by_contra hne
    rw [if_neg hne, pieceMoves_iff] at hm
    rcases hm.2 with ⟨hsimple, -⟩ | ⟨hcapture, -⟩
    · simp [hsimple, promotionMoveTypes] at htype
    · simp [hcapture, promotionMoveTypes] at htype
  rw [if_pos hpawn, pawnMoves_of_promotion htype] at hm
  refine ⟨Or.inl ⟨hsrc, ?_⟩, ?_⟩
  · rw [if_pos hpawn]
    exact (pawnMoves_of_promotion htype').mpr hm
  · intro hattacked
    apply hsafe
    obtain ⟨hafter, -⟩ := mailboxAfter_of_promotion (p := p) htype
    obtain ⟨hafter', hking⟩ := mailboxAfter_of_promotion (p := p) (m := { m with type := type })
      htype'
    refine KingAttacked.of_kinds ?_ hattacked
    intro u
    change p.mailboxAfter { m with type := type } u = p.mailboxAfter m u ∨
      ∃ k k', p.mailboxAfter { m with type := type } u = some (p.side, k) ∧
        p.mailboxAfter m u = some (p.side, k') ∧ k ≠ .king
    rw [hafter, hafter', Mailbox.put_apply, Mailbox.put_apply]
    by_cases hu : u = m.dst
    · rw [if_pos hu, if_pos hu]
      exact Or.inr ⟨_, _, rfl, rfl, hking⟩
    · rw [if_neg hu, if_neg hu]
      exact Or.inl rfl

end Rules

end PawnGrabber
