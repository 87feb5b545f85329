import PawnGrabber.Rules.MoveLists

/-!
# What a move does to a position

The moves a side performs are its pseudolegal ones and castling. Here they are sorted by
the shape of what they do (`MoveShape`), and from that follows what stands on a square
after the move: the moved or promoted piece on the destination, the rook of a castling, and
otherwise what stood there before.
-/

set_option autoImplicit false

namespace PawnGrabber

namespace Rules

open Square

namespace Mailbox

theorem clear_apply (mb : Mailbox) (s t : Square) :
    mb.clear s t = if t = s then none else mb t := Function.update_apply _ _ _ _

theorem put_apply (mb : Mailbox) (s : Square) (x : Color × Piece) (t : Square) :
    mb.put s x t = if t = s then some x else mb t := Function.update_apply _ _ _ _

end Mailbox

section Performable

variable {p : Position} {m : ChessMove} {c : Color} {s : Square}

/-- A pseudolegal move goes to an attacked square or is a pawn push. -/
theorem PseudoLegal.attacks_or_push (h : PseudoLegal p c m) :
    Attacks p.mailbox c m.piece m.src m.dst ∨ m.piece = .pawn ∧ p.mailbox m.dst = none ∧
      (m.src.shift 0 (forward c) = some m.dst ∨ m.src.shift 0 (2 * forward c) = some m.dst) := by
  obtain ⟨-, hm⟩ := h
  by_cases hp : m.piece = .pawn
  · rw [if_pos hp] at hm
    rw [hp]
    unfold PawnMoves at hm
    cases htype : m.type <;> simp only [htype] at hm <;> unfold Attacks <;> tauto
  · rw [if_neg hp] at hm
    exact Or.inl hm.1

/-- A pawn one step from the last rank has promotions only, and of each all four. -/
theorem PseudoLegal.promotion_of_rank (hp : p.Sound) (h : PseudoLegal p c m)
    (hpiece : m.piece = .pawn) (hrank : m.src.rank = pawnRank (flipColor c)) :
    m.type ∈ promotionMoveTypes ∧
      ∀ type ∈ promotionMoveTypes, PseudoLegal p c { m with type := type } := by
  obtain ⟨hsrc, hm⟩ := h
  rw [if_pos hpiece] at hm
  have hattacks : PawnAttacks c m.src m.dst → m.dst.rank = lastRank c :=
    fun ha => (rank_eq_lastRank_of_attacks ha).mpr hrank
  have hpromotes : (m.src.shift 0 (forward c) = some m.dst ∧ p.mailbox m.dst = none ∨
      PawnAttacks c m.src m.dst ∧ Holds p.mailbox (flipColor c) m.dst) ∧
      m.dst.rank = lastRank c →
      ∀ type ∈ promotionMoveTypes, PseudoLegal p c { m with type := type } := by
    intro hm type htype
    refine ⟨hsrc, ?_⟩
    rw [if_pos hpiece]
    simp only [promotionMoveTypes, List.mem_cons, List.not_mem_nil, or_false] at htype
    rcases htype with rfl | rfl | rfl | rfl <;> exact hm
  unfold PawnMoves at hm
  cases htype : m.type <;> simp only [htype] at hm
  case simple => exact absurd ((rank_eq_lastRank_iff hm.1.1).mpr hrank) hm.2
  case capture => exact absurd (hattacks hm.1.1) hm.2
  case twoStepPawn =>
    have hhome := hrank.symm.trans hm.1
    cases c <;> simp [pawnRank] at hhome
  case enPassant =>
    have hep := (hattacks hm.1).symm.trans (hp.enPassant _ hm.2).2.1
    cases c <;> cases hside : p.side <;> rw [hside] at hep <;>
      simp [lastRank, backRank, enPassantRank] at hep
  all_goals exact ⟨by decide, hpromotes hm⟩

/-- The moves the program performs: pseudolegal ones of the side to move, and castling. -/
def Performable (p : Position) (m : ChessMove) : Prop :=
  PseudoLegal p p.side m ∨ ∃ w, MayCastle p p.side w ∧ m = castleMove p.side w

theorem Position.Legal.performable (h : p.Legal m) : Performable p m := h.1

/-- The mover's piece stands on the source. -/
theorem Performable.src (h : Performable p m) : p.mailbox m.src = some (p.side, m.piece) := by
  rcases h with h | ⟨w, h, rfl⟩
  · exact h.1
  · exact h.2.1

theorem castleMove_injective (c : Color) : Function.Injective (castleMove c) := by
  intro w w'
  revert c w w'
  decide

/-- A castling is not among the pseudolegal moves. -/
theorem not_pseudoLegal_castleMove (c : Color) (w : Wing) : ¬PseudoLegal p c (castleMove c w) := by
  rintro ⟨-, h⟩
  rw [if_neg (by simp [castleMove])] at h
  cases w <;> exact h.2

/-- Castling is performed only where the rules allow it. -/
theorem Performable.mayCastle {w : Wing} (h : Performable p (castleMove p.side w)) :
    MayCastle p p.side w := by
  rcases h with h | ⟨w', h, heq⟩
  · exact absurd h (not_pseudoLegal_castleMove p.side w)
  · rwa [castleMove_injective p.side heq]

/-- The shapes of a performable move. -/
inductive MoveShape (p : Position) (m : ChessMove) : Prop
  | simple (type : m.type = .simple) (target : p.mailbox m.dst = none)
  | capture (type : m.type = .capture) (target : Holds p.mailbox (flipColor p.side) m.dst)
  | twoStepPawn (type : m.type = .twoStepPawn) (piece : m.piece = .pawn)
      (moves : PawnMoves p p.side m.src m.dst .twoStepPawn)
  | enPassant (type : m.type = .enPassant) (piece : m.piece = .pawn)
      (attacks : PawnAttacks p.side m.src m.dst) (target : p.enPassant = some m.dst)
  | promotion (type : m.type ∈ promotionMoveTypes) (piece : m.piece = .pawn)
      (target : p.mailbox m.dst = none ∨ Holds p.mailbox (flipColor p.side) m.dst)
      (rank : m.dst.rank = lastRank p.side)
  | castle (w : Wing) (may : MayCastle p p.side w) (eq : m = castleMove p.side w)

/-- Every performable move has one of the shapes. -/
theorem Performable.shape (h : Performable p m) : MoveShape p m := by
  rcases h with ⟨-, hm⟩ | ⟨w, h, rfl⟩
  · by_cases hk : m.piece = .pawn
    · rw [if_pos hk] at hm
      have hpromotion : (m.src.shift 0 (forward p.side) = some m.dst ∧ p.mailbox m.dst = none ∨
          PawnAttacks p.side m.src m.dst ∧ Holds p.mailbox (flipColor p.side) m.dst) ∧
          m.dst.rank = lastRank p.side → m.type ∈ promotionMoveTypes → MoveShape p m :=
        fun hm htype => .promotion htype hk (hm.1.imp And.right And.right) hm.2
      cases htype : m.type <;> simp only [htype] at hm
      case simple => exact .simple htype hm.1.2
      case enPassant => exact .enPassant htype hk hm.1 hm.2
      case castleKingside => exact hm.elim
      case castleQueenside => exact hm.elim
      case capture => exact .capture htype hm.1.2
      case twoStepPawn => exact .twoStepPawn htype hk hm
      all_goals exact hpromotion hm (by rw [htype]; decide)
    · rw [if_neg hk, pieceMoves_iff] at hm
      rcases hm.2 with ⟨htype, hd⟩ | ⟨htype, hd⟩
      · exact .simple htype hd
      · exact .capture htype hd
  · exact .castle w h rfl

/-- A double step and an en passant capture are moves of a pawn. -/
theorem Performable.pawnMoves (h : Performable p m)
    (htype : m.type = .twoStepPawn ∨ m.type = .enPassant) :
    m.piece = .pawn ∧ PawnMoves p p.side m.src m.dst m.type := by
  rcases h with ⟨-, hm⟩ | ⟨w, -, rfl⟩
  · by_cases hk : m.piece = .pawn
    · rw [if_pos hk] at hm
      exact ⟨hk, hm⟩
    · rw [if_neg hk] at hm
      rcases htype with htype | htype <;> rw [htype] at hm <;> exact hm.2.elim
  · cases w <;> simp [castleMove, castleType] at htype

/-- An en passant capture goes to the en passant square. -/
theorem Performable.enPassant_target (h : Performable p m) (htype : m.type = .enPassant) :
    p.enPassant = some m.dst := by
  have hm := (h.pawnMoves (Or.inr htype)).2
  rw [htype] at hm
  exact hm.2

theorem targets_mem_castlingGap (c : Color) (w : Wing) :
    kingTarget c w ∈ castlingGap c w ∧ rookTarget c w ∈ castlingGap c w := by
  cases w <;> simp [kingTarget, rookTarget, castlingGap]

/-- King and rook castle onto empty squares. -/
theorem MayCastle.targets_empty {c : Color} {w : Wing} (h : MayCastle p c w) :
    p.mailbox (kingTarget c w) = none ∧ p.mailbox (rookTarget c w) = none := by
  obtain ⟨-, -, -, hgap, -⟩ := h
  have hmem := targets_mem_castlingGap c w
  exact ⟨hgap _ hmem.1, hgap _ hmem.2⟩

/-- The mover's own pieces are never on the destination. -/
theorem Performable.dst (hp : p.WellFormed) (h : Performable p m) :
    ¬Holds p.mailbox p.side m.dst := by
  intro hd
  cases h.shape with
  | simple _ target => exact hd.ne_none target
  | capture _ target => exact hd.not_flip target
  | twoStepPawn _ _ moves => exact hd.ne_none moves.2.2.2
  | enPassant _ _ _ target => exact hd.ne_none (hp.enPassant _ target).1
  | promotion _ _ target _ => exact target.elim hd.ne_none hd.not_flip
  | castle w may eq =>
    rw [eq] at hd
    exact hd.ne_none may.targets_empty.1

theorem Performable.src_ne_dst (hp : p.WellFormed) (h : Performable p m) : m.src ≠ m.dst := by
  intro heq
  exact h.dst hp (heq ▸ ⟨m.piece, h.src⟩)

/-- No king is ever captured: a king on the destination would be in check already. -/
theorem Performable.dst_ne_king (hp : p.WellFormed) (h : Performable p m) (c : Color) :
    p.mailbox m.dst ≠ some (c, .king) := by
  intro hd
  have hown := h.dst hp
  have hc : c = flipColor p.side := by
    by_contra hc
    have : c = p.side := by revert hc; cases c <;> cases p.side <;> decide
    exact hown ⟨.king, this ▸ hd⟩
  subst hc
  rcases h with h | ⟨w, h, rfl⟩
  · rcases h.attacks_or_push with ha | ⟨-, hnone, -⟩
    · refine hp.safe ⟨m.dst, hd, m.src, m.piece, ?_, ?_⟩
      · rw [flipColor_flipColor]
        exact h.1
      · rwa [flipColor_flipColor]
    · rw [hnone] at hd
      cases hd
  · exact absurd (h.targets_empty.1.symm.trans hd) (by simp)

/-! ## The occupants afterwards -/

/-- What a move that is neither en passant nor castling leaves. -/
theorem mailboxAfter_of_plain (h₁ : m.type ≠ .enPassant) (h₂ : m.type ≠ .castleKingside)
    (h₃ : m.type ≠ .castleQueenside) :
    p.mailboxAfter m = (p.mailbox.clear m.src).put m.dst (p.side, m.placed) := by
  unfold Position.mailboxAfter
  cases htype : m.type <;> first | rfl | contradiction

theorem mailboxAfter_of_enPassant (h : m.type = .enPassant) {u : Square}
    (hu : m.dst.shift 0 (-forward p.side) = some u) :
    p.mailboxAfter m = ((p.mailbox.clear m.src).put m.dst (p.side, m.piece)).clear u := by
  unfold Position.mailboxAfter
  rw [ChessMove.placed]
  funext s
  simp only [h, hu, Option.some.injEq, Mailbox.clear_apply, eq_comm]

theorem mailboxAfter_castleMove (w : Wing) :
    p.mailboxAfter (castleMove p.side w) =
      (((p.mailbox.clear (kingHome p.side)).put (kingTarget p.side w) (p.side, .king)).clear
        (rookHome p.side w)).put (rookTarget p.side w) (p.side, .rook) := by
  cases w <;> rfl

/-- The squares of a castling are four different ones. -/
theorem castling_squares_ne (c : Color) (w : Wing) :
    kingTarget c w ≠ kingHome c ∧ rookHome c w ≠ kingHome c ∧ rookTarget c w ≠ kingHome c ∧
      rookHome c w ≠ kingTarget c w ∧ rookTarget c w ≠ kingTarget c w ∧
      rookTarget c w ≠ rookHome c w := by
  revert c w
  decide

/-- What a move does to the mailbox: it puts the piece on its destination, and besides that en
passant clears the square of the captured pawn and castling moves the rook. -/
inductive MailboxChange (p : Position) (m : ChessMove) : Prop
  | plain (type : m.type ≠ .enPassant)
      (after : p.mailboxAfter m = (p.mailbox.clear m.src).put m.dst (p.side, m.placed))
  | enPassant (u : Square) (type : m.type = .enPassant) (target : p.mailbox m.dst = none)
      (behind : m.dst.shift 0 (-forward p.side) = some u)
      (pawn : p.mailbox u = some (flipColor p.side, .pawn))
      (after : p.mailboxAfter m =
        ((p.mailbox.clear m.src).put m.dst (p.side, m.placed)).clear u)
  | castle (w : Wing) (may : MayCastle p p.side w) (eq : m = castleMove p.side w)
      (after : p.mailboxAfter m = (((p.mailbox.clear m.src).put m.dst (p.side, m.placed)).clear
        (rookHome p.side w)).put (rookTarget p.side w) (p.side, .rook))

theorem Performable.mailboxChange (hp : p.WellFormed) (h : Performable p m) :
    MailboxChange p m := by
  have hplain : m.type ≠ .enPassant → m.type ≠ .castleKingside → m.type ≠ .castleQueenside →
      MailboxChange p m := by
    intro h₁ h₂ h₃
    exact .plain h₁ (mailboxAfter_of_plain h₁ h₂ h₃)
  cases h.shape with
  | simple type _ => exact hplain (by simp [type]) (by simp [type]) (by simp [type])
  | capture type _ => exact hplain (by simp [type]) (by simp [type]) (by simp [type])
  | twoStepPawn type _ _ => exact hplain (by simp [type]) (by simp [type]) (by simp [type])
  | promotion type _ _ _ =>
    apply hplain
    all_goals
      intro htype
      simp [htype, promotionMoveTypes] at type
  | enPassant type _ _ target =>
    obtain ⟨hempty, -, u, hu, hpawn⟩ := hp.enPassant _ target
    have hplaced : m.placed = m.piece := by rw [ChessMove.placed, type]
    refine .enPassant u type hempty hu hpawn ?_
    rw [mailboxAfter_of_enPassant type hu, hplaced]
  | castle w may eq =>
    refine .castle w may eq ?_
    subst eq
    rw [mailboxAfter_castleMove]
    cases w <;> rfl

/-- The moved or promoted piece stands on the destination. -/
theorem Performable.mailboxAfter_dst (hp : p.WellFormed) (h : Performable p m) :
    p.mailboxAfter m m.dst = some (p.side, m.placed) := by
  cases h.mailboxChange hp with
  | plain _ after => rw [after, Mailbox.put_apply, if_pos rfl]
  | enPassant u _ target _ pawn after =>
    have hne : m.dst ≠ u := by
      rintro rfl
      exact absurd (target.symm.trans pawn) (by simp)
    rw [after, Mailbox.clear_apply, if_neg hne, Mailbox.put_apply, if_pos rfl]
  | castle w _ eq after =>
    obtain ⟨-, -, -, h₁, h₂, -⟩ := castling_squares_ne p.side w
    have hdst : m.dst = kingTarget p.side w := by rw [eq, castleMove]
    rw [after, Mailbox.put_apply, if_neg (by rw [hdst]; exact h₂.symm), Mailbox.clear_apply,
      if_neg (by rw [hdst]; exact h₁.symm), Mailbox.put_apply, if_pos rfl]

/-- Whatever stands on a square afterwards is the moved piece on the destination, the rook of
a castling, or what stood there before. -/
theorem Performable.of_mailboxAfter (hp : p.WellFormed) (h : Performable p m) {x : Color × Piece}
    (hx : p.mailboxAfter m s = some x) :
    s = m.dst ∧ x = (p.side, m.placed) ∨ s ≠ m.dst ∧ s ≠ m.src ∧ p.mailbox s = some x ∨
      ∃ w, m = castleMove p.side w ∧ s = rookTarget p.side w ∧ x = (p.side, .rook) := by
  by_cases hd : s = m.dst
  · subst hd
    rw [h.mailboxAfter_dst hp, Option.some.injEq] at hx
    exact Or.inl ⟨rfl, hx.symm⟩
  have hput : ((p.mailbox.clear m.src).put m.dst (p.side, m.placed)) s = some x →
      s ≠ m.dst ∧ s ≠ m.src ∧ p.mailbox s = some x := by
    rw [Mailbox.put_apply, if_neg hd, Mailbox.clear_apply]
    intro hx
    by_cases hs : s = m.src
    · rw [if_pos hs] at hx
      cases hx
    · rw [if_neg hs] at hx
      exact ⟨hd, hs, hx⟩
  cases h.mailboxChange hp with
  | plain _ after =>
    rw [after] at hx
    exact Or.inr (Or.inl (hput hx))
  | enPassant u _ _ _ _ after =>
    rw [after, Mailbox.clear_apply] at hx
    split_ifs at hx
    exact Or.inr (Or.inl (hput hx))
  | castle w _ eq after =>
    rw [after, Mailbox.put_apply] at hx
    split_ifs at hx with hs
    · exact Or.inr (Or.inr ⟨w, eq, hs, (Option.some.inj hx).symm⟩)
    · rw [Mailbox.clear_apply] at hx
      split_ifs at hx
      exact Or.inr (Or.inl (hput hx))

/-- A piece that does not move, is not captured and is not the rook of a castling stays. -/
theorem Performable.mailboxAfter_of_ne (hp : p.WellFormed) (h : Performable p m)
    {x : Color × Piece} (hx : p.mailbox s = some x) (hs : s ≠ m.src) (hd : s ≠ m.dst)
    (hpawn : x ≠ (flipColor p.side, .pawn))
    (hrook : ∀ w, m = castleMove p.side w → s ≠ rookHome p.side w) :
    p.mailboxAfter m s = some x := by
  have hput : ((p.mailbox.clear m.src).put m.dst (p.side, m.placed)) s = some x := by
    rw [Mailbox.put_apply, if_neg hd, Mailbox.clear_apply, if_neg hs, hx]
  cases h.mailboxChange hp with
  | plain _ after => rw [after, hput]
  | enPassant u _ _ _ pawn after =>
    have hne : s ≠ u := by
      rintro rfl
      exact hpawn (Option.some.inj (hx.symm.trans pawn))
    rw [after, Mailbox.clear_apply, if_neg hne, hput]
  | castle w may eq after =>
    have htarget : s ≠ rookTarget p.side w := by
      rintro rfl
      exact absurd (may.targets_empty.2.symm.trans hx) (by simp)
    rw [after, Mailbox.put_apply, if_neg htarget, Mailbox.clear_apply, if_neg (hrook w eq), hput]

end Performable

end Rules

end PawnGrabber
