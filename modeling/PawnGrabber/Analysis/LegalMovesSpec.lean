import PawnGrabber.Rules.LegalList
import PawnGrabber.Analysis.AttackMask
import PawnGrabber.Analysis.MakeMoveSpec

/-!
# `legal_moves` lists the legal moves

The king-safety filter is exact because `do_move` plays the move and `is_king_attacked` is
exact. The castling tests read the attack mask on empty squares, where it also holds the
targets of pawn pushes; but a pawn that could be pushed onto the square the king passes or
reaches attacks the neighbouring square on the king's way, so castling is refused anyway.
-/

set_option autoImplicit false

namespace PawnGrabber

open ExceptFold Rules Square

namespace Rules

variable {p : Position} {c : Color} {t : Square}

/-- A pawn pushed onto its enemy's back rank comes from the square in front of it. -/
theorem PushTarget.pawn_in_front (h : PushTarget p (flipColor c) t) (ht : t.rank = backRank c) :
    ∃ s, p.mailbox s = some (flipColor c, .pawn) ∧ s.shift 0 (forward (flipColor c)) = some t := by
  obtain ⟨-, m, ⟨hsrc, hm⟩, hpiece, rfl, hpush⟩ := h
  rw [hpiece] at hsrc
  refine ⟨m.src, hsrc, hpush.resolve_right ?_⟩
  intro htwo
  rw [if_pos hpiece] at hm
  have := m.src.rank.isLt
  unfold PawnMoves PawnAttacks at hm
  rw [Fin.ext_iff] at ht
  rw [shift_eq_some_iff] at htwo
  cases htype : m.type <;> simp only [htype, shift_eq_some_iff, Fin.ext_iff] at hm <;>
    cases c <;>
    simp only [forward, backRank, pawnRank, lastRank, flipColor_white, flipColor_black]
      at hm ht htwo <;> simp at hm ht htwo <;> omega

/-- The castling test of the source, made with any set of attacked squares: the right is held,
the king is not attacked, the gap is empty, and the squares the king crosses and lands on are
not in the set. -/
def CastlingTest (p : Position) (c : Color) (w : Wing) (attacked : Square → Prop) : Prop :=
  p.rights c w = true ∧ ¬KingAttacked p.mailbox c ∧
    (∀ s ∈ castlingGap c w, p.mailbox s = none) ∧
    ¬attacked (rookTarget c w) ∧ ¬attacked (kingTarget c w)

/-- A king at home is attacked if its home square is. -/
theorem kingAttacked_iff (hp : p.Sound) (hk : p.mailbox (kingHome c) = some (c, .king)) :
    KingAttacked p.mailbox c ↔ AttackedBy p.mailbox (flipColor c) (kingHome c) := by
  constructor
  · rintro ⟨t, ht, ha⟩
    rwa [(hp.king c).unique hk ht]
  · intro ha
    exact ⟨_, hk, ha⟩

/-- The test comes out the same with the attack mask and with the squares truly attacked: a
pawn that could be pushed onto the square the king crosses or reaches attacks the neighbour of
that square on the king's way. -/
theorem castlingTest_iff (hp : p.Sound) {w : Wing}
    (hking : p.rights c w = true → p.mailbox (kingHome c) = some (c, .king)) :
    CastlingTest p c w (InAttackMask p (flipColor c)) ↔
      CastlingTest p c w (AttackedBy p.mailbox (flipColor c)) := by
  have hpush : ∀ t u : Square, t.rank = backRank c → u.rank = backRank c →
      ((u.file : ℤ) = t.file + 1 ∨ (u.file : ℤ) = t.file - 1) →
      PushTarget p (flipColor c) t → AttackedBy p.mailbox (flipColor c) u := by
    intro t u ht hu hfile hpush
    obtain ⟨s, hs, hstep⟩ := hpush.pawn_in_front ht
    refine ⟨s, .pawn, hs, ?_⟩
    unfold Attacks PawnAttacks
    rw [← ht, Fin.ext_iff] at hu
    simp only [shift_eq_some_iff] at hstep ⊢
    omega
  have hmem := targets_mem_castlingGap c w
  constructor
  · rintro ⟨hright, hsafe, hgap, hrook, htarget⟩
    refine ⟨hright, hsafe, hgap, ?_, ?_⟩
    · intro h
      apply hrook
      apply h.inAttackMask
      intro hholds
      exact hholds.ne_none (hgap _ hmem.2)
    · intro h
      apply htarget
      apply h.inAttackMask
      intro hholds
      exact hholds.ne_none (hgap _ hmem.1)
  · rintro ⟨hright, hsafe, hgap, hrook, htarget⟩
    refine ⟨hright, hsafe, hgap, ?_, ?_⟩
    · intro h
      rcases h.attacked_or_push with h | h
      · exact hrook h
      · rw [kingAttacked_iff hp (hking hright)] at hsafe
        refine hsafe (hpush _ (kingHome c) ?_ rfl ?_ h) <;> cases w <;>
          simp [rookTarget, kingHome]
    · intro h
      rcases h.attacked_or_push with h | h
      · exact htarget h
      · refine hrook (hpush _ (rookTarget c w) ?_ ?_ ?_ h) <;> cases w <;>
          simp [rookTarget, kingTarget]

/-- With the squares truly attacked the test is the rule. -/
theorem mayCastle_iff (hp : p.Sound) {w : Wing}
    (hhome : p.rights c w = true →
      p.mailbox (kingHome c) = some (c, .king) ∧ p.mailbox (rookHome c w) = some (c, .rook)) :
    MayCastle p c w ↔ CastlingTest p c w (AttackedBy p.mailbox (flipColor c)) := by
  unfold MayCastle CastlingTest
  simp only [List.mem_cons, List.not_mem_nil, or_false, forall_eq_or_imp, forall_eq]
  constructor
  · rintro ⟨hright, hking, -, hgap, hsafe, hrook, htarget⟩
    exact ⟨hright, fun h => hsafe ((kingAttacked_iff hp hking).mp h), hgap, hrook, htarget⟩
  · rintro ⟨hright, hsafe, hgap, hrook, htarget⟩
    obtain ⟨hk, hr⟩ := hhome hright
    exact ⟨hright, hk, hr, hgap, fun h => hsafe ((kingAttacked_iff hp hk).mpr h), hrook, htarget⟩

end Rules

namespace Board

variable {b : Board}

theorem cannotCastle_eq (h : b.Sound) (hasRight : Bool) :
    b.cannotCastle hasRight =
      .ok (!hasRight || decide (KingAttacked b.mailbox b.sideToMove)) := by
  rw [cannotCastle, isKingAttacked_eq h]
  cases hasRight <;> rfl

/-- The question a castling mask of two squares asks. -/
theorem toBool_bits_and (s t : Square) (bb : Bitboard) :
    toBool ((s.bit ||| t.bit) &&& bb) = (has bb s || has bb t) := by
  rw [BitVec.and_comm, BitVec.and_or_distrib_left, toBool_or, toBool_and_bit, toBool_and_bit]

/-- The two castling tests differ in their masks only: the gap that must be empty and the two
squares that must not be attacked. -/
theorem castle_decision (h : b.WellFormed) {w : Wing} {mask : Bitboard} (blocked : Bool)
    (hhas : ∀ t, has mask t = true ↔ InAttackMask b.position (flipColor b.sideToMove) t)
    (hblocked : blocked = false ↔ ∀ s ∈ castlingGap b.sideToMove w, b.mailbox s = none) :
    (if (!b.rights b.sideToMove w || decide (KingAttacked b.mailbox b.sideToMove)) = true
      then false
      else !blocked && !toBool (((rookTarget b.sideToMove w).bit |||
        (kingTarget b.sideToMove w).bit) &&& mask)) =
      decide (MayCastle b.position b.sideToMove w) := by
  have hhome := h.position.castling b.sideToMove w
  have hiff := (mayCastle_iff h.position.toSound hhome).trans
    (castlingTest_iff h.position.toSound fun hright => (hhome hright).1).symm
  simp only [CastlingTest, ← hhas, position_rights, position_mailbox] at hiff
  rw [toBool_bits_and, Bool.eq_iff_iff, decide_eq_true_eq, hiff, ← hblocked]
  cases b.rights b.sideToMove w <;> simp

/-- The kingside test is exact. -/
theorem isCastleKingsideLegal_eq (h : b.WellFormed) :
    b.isCastleKingsideLegal =
      .ok (decide (MayCastle b.position b.sideToMove .kingside)) := by
  obtain ⟨mask, hmask, hhas⟩ := attackSquares_spec h.sound (flipColor b.sideToMove)
  have hright : (if b.isWhitesMove then b.whiteHasRightToCastleKingside
      else b.blackHasRightToCastleKingside) = b.rights b.sideToMove .kingside := by
    rw [sideToMove]
    cases b.isWhitesMove <;> rfl
  have hsquares : (if b.isWhitesMove then whiteCastleKingsideMask else blackCastleKingsideMask) =
      (rookTarget b.sideToMove .kingside).bit ||| (kingTarget b.sideToMove .kingside).bit := by
    rw [sideToMove]
    cases b.isWhitesMove <;>
      simp [whiteCastleKingsideMask, blackCastleKingsideMask, rookTarget, kingTarget, backRank]
  rw [isCastleKingsideLegal, hright, hsquares, cannotCastle_eq h.sound, ok_bind, hmask, ok_bind,
    ← castle_decision h (has b.allPieces (rookTarget b.sideToMove .kingside) ||
      has b.allPieces (kingTarget b.sideToMove .kingside)) hhas, ← toBool_bits_and]
  · split_ifs <;> rfl
  · simp [has_allPieces, castlingGap, rookTarget, kingTarget]

/-- The queenside test is exact; the b file square must be empty but may be attacked. -/
theorem isCastleQueensideLegal_eq (h : b.WellFormed) :
    b.isCastleQueensideLegal =
      .ok (decide (MayCastle b.position b.sideToMove .queenside)) := by
  obtain ⟨mask, hmask, hhas⟩ := attackSquares_spec h.sound (flipColor b.sideToMove)
  have hright : (if b.isWhitesMove then b.whiteHasRightToCastleQueenside
      else b.blackHasRightToCastleQueenside) = b.rights b.sideToMove .queenside := by
    rw [sideToMove]
    cases b.isWhitesMove <;> rfl
  have hsquares : (if b.isWhitesMove then whiteCastleQueensideMask
      else blackCastleQueensideMask) =
      (rookTarget b.sideToMove .queenside).bit ||| (kingTarget b.sideToMove .queenside).bit := by
    rw [sideToMove]
    cases b.isWhitesMove <;>
      simp [whiteCastleQueensideMask, blackCastleQueensideMask, rookTarget, kingTarget, backRank]
  have henemy : (if b.isWhitesMove then Color.black else .white) = flipColor b.sideToMove := by
    rw [sideToMove]
    cases b.isWhitesMove <;> rfl
  have hbFile : (if b.isWhitesMove then square ['b', '1'] else square ['b', '8']) =
      Square.bit ⟨1, backRank b.sideToMove⟩ := by
    rw [sideToMove]
    cases b.isWhitesMove <;> simp [backRank]
  rw [isCastleQueensideLegal, hright, hsquares, henemy, hbFile, cannotCastle_eq h.sound, ok_bind,
    hmask, ok_bind,
    ← castle_decision h (toBool (((rookTarget b.sideToMove .queenside).bit |||
      (kingTarget b.sideToMove .queenside).bit ||| Square.bit ⟨1, backRank b.sideToMove⟩) &&&
        b.allPieces)) hhas]
  · split_ifs <;> rfl
  · rw [BitVec.and_comm, BitVec.and_or_distrib_left, toBool_or, BitVec.and_comm, toBool_bits_and,
      toBool_and_bit]
    simp [has_allPieces, castlingGap, rookTarget, kingTarget, and_assoc]

theorem castleKingsideMove_eq :
    castleKingsideMove b.sideToMove b = b.encode (castleMove b.sideToMove .kingside) := by
  unfold castleKingsideMove encode
  cases b.sideToMove <;> simp [castleMove, castleType, kingHome, kingTarget, backRank]

theorem castleQueensideMove_eq :
    castleQueensideMove b.sideToMove b = b.encode (castleMove b.sideToMove .queenside) := by
  unfold castleQueensideMove encode
  cases b.sideToMove <;> simp [castleMove, castleType, kingHome, kingTarget, backRank]

theorem appendCastlingMoves_eq (h : b.WellFormed) (res : List Move) :
    b.appendCastlingMoves res =
      .ok (res ++ (castlings b.position b.sideToMove).map b.encode) := by
  rw [appendCastlingMoves, isCastleKingsideLegal_eq h, ok_bind, isCastleQueensideLegal_eq h,
    ok_bind, castleKingsideMove_eq, castleQueensideMove_eq, castlings]
  by_cases hk : MayCastle b.position b.sideToMove .kingside <;>
    by_cases hq : MayCastle b.position b.sideToMove .queenside <;>
    simp [hk, hq]

/-- The king-safety filter is exact on performable moves. -/
theorem isPseudolegalMoveLegal_eq (h : b.WellFormed) {m : ChessMove}
    (hm : Performable b.position m) :
    b.isPseudolegalMoveLegal (b.encode m) =
      .ok (!decide (KingAttacked (b.position.mailboxAfter m) b.sideToMove)) := by
  obtain ⟨b', hdo, hsound, hposition, -⟩ := doMove_spec h hm
  have hmailbox : b'.mailbox = b.position.mailboxAfter m := congrArg Position.mailbox hposition
  rw [isPseudolegalMoveLegal, hdo, ok_bind, isKingAttacked_eq hsound, hmailbox]
  rfl

/-- `legal_moves` returns the legal moves of the position, each once. -/
theorem legalMoves_eq (h : b.WellFormed) :
    b.legalMoves = .ok ((legalList b.position).map b.encode) := by
  have hfilter : ((pseudoMoves b.position b.sideToMove).map b.encode).filterM
      b.isPseudolegalMoveLegal =
      .ok (((pseudoMoves b.position b.sideToMove).map b.encode).filter fun move =>
        (b.isPseudolegalMoveLegal move).toOption.getD false) := by
    apply filterM_ok
    intro move hmove
    obtain ⟨m, hm, rfl⟩ := List.mem_map.mp hmove
    rw [isPseudolegalMoveLegal_eq h (Or.inl (mem_pseudoMoves.mp hm))]
    rfl
  rw [legalMoves, pseudolegalMoves_eq h.sound, ok_bind, hfilter, ok_bind,
    appendCastlingMoves_eq h, legalList, List.map_append, List.filter_map]
  congr 3
  apply List.filter_congr
  intro m hm
  rw [Function.comp_apply, isPseudolegalMoveLegal_eq h (Or.inl (mem_pseudoMoves.mp hm))]
  rfl

/-- A castling passes the filter it is not sent through. -/
theorem isPseudolegalMoveLegal_castleMove (h : b.WellFormed) {w : Wing}
    (hcastle : MayCastle b.position b.sideToMove w) :
    b.isPseudolegalMoveLegal (b.encode (castleMove b.sideToMove w)) = .ok true := by
  have hsafe : ¬KingAttacked (b.position.mailboxAfter (castleMove b.sideToMove w)) b.sideToMove :=
    MayCastle.king_safe h.position hcastle
  have hm : Performable b.position (castleMove b.sideToMove w) := Or.inr ⟨w, hcastle, rfl⟩
  rw [isPseudolegalMoveLegal_eq h hm, decide_eq_false hsafe]
  rfl

theorem mem_legalMoves_iff (h : b.WellFormed) {moves : List Move}
    (hmoves : b.legalMoves = .ok moves) {move : Move} :
    move ∈ moves ↔ ∃ m, b.position.Legal m ∧ move = b.encode m := by
  rw [legalMoves_eq h, Except.ok.injEq] at hmoves
  subst hmoves
  simp only [List.mem_map, mem_legalList h.position]
  exact exists_congr fun m => and_congr_right fun _ => eq_comm

/-- A legal move is performed and leaves a well-formed board. -/
theorem doMove_of_legal (h : b.WellFormed) {m : ChessMove} (hm : b.position.Legal m) :
    ∃ b', b.doMove (b.encode m) = .ok b' ∧ b'.WellFormed ∧ b'.position = b.position.play m := by
  obtain ⟨b', hdo, hsound, hposition, -⟩ := doMove_spec h hm.performable
  refine ⟨b', hdo, ⟨hsound.disjoint, hsound.epSquare, ?_⟩, hposition⟩
  rw [hposition]
  exact hm.wellFormed h.position

end Board

end PawnGrabber
