import PawnGrabber.Rules.Invariant
import PawnGrabber.Analysis.BoardUpdates
import PawnGrabber.Analysis.Generation

/-!
# `do_move` plays the move

On a well-formed board, `do_move` of a pseudolegal or castling move returns a board that
stands for `Position.play` of that move. `Moved` says what the `switch` achieves before the
turn passes; there is one lemma for each of the six operations. The castling rights need
the invariant: the program tests which piece moves, the rules only which squares are
touched, and the two agree because a held right has its king and rook at home.
-/

set_option autoImplicit false

namespace PawnGrabber

open ExceptFold Rules

namespace Rules

variable {p : Position} {m : ChessMove} {c : Color}

/-- Where a right is held, the program's test for it agrees with the rules'. -/
theorem clearsRight_iff (hp : p.WellFormed) (h : Performable p m) {w : Wing}
    (hright : p.rights c w = true) :
    Board.ClearsRight m.piece m.src m.dst c w ↔ Position.ForfeitsRight m c w := by
  obtain ⟨hking, hrook⟩ := hp.castling c w hright
  have hsrc := h.src
  unfold Board.ClearsRight Position.ForfeitsRight
  constructor
  · rintro (ht | ⟨-, hs⟩ | ⟨-, hs⟩)
    · exact Or.inr (Or.inr ht)
    · exact Or.inl hs
    · exact Or.inr (Or.inl hs)
  · rintro (hs | hs | ht)
    · rw [hs, hking, Option.some.injEq, Prod.mk.injEq] at hsrc
      exact Or.inr (Or.inl ⟨hsrc.2.symm, hs⟩)
    · rw [hs, hrook, Option.some.injEq, Prod.mk.injEq] at hsrc
      exact Or.inr (Or.inr ⟨hsrc.2.symm, hs⟩)
    · exact Or.inl ht

/-- A pawn's move to an empty square takes no right away. -/
theorem not_forfeitsRight_of_pawn (hp : p.WellFormed) (hm : p.mailbox m.src = some (p.side, .pawn))
    (ht : p.mailbox m.dst = none) {w : Wing} (hright : p.rights c w = true) :
    ¬Position.ForfeitsRight m c w := by
  obtain ⟨hking, hrook⟩ := hp.castling c w hright
  rintro (hs | hs | hd)
  · simp [hs, hking] at hm
  · simp [hs, hrook] at hm
  · simp [hd, hrook] at ht

end Rules

namespace Board

variable {b b₁ : Board} {m : ChessMove}

/-- What the `switch` of `do_move` makes of `b`. -/
structure Moved (b b' : Board) (m : ChessMove) : Prop where
  disjoint : b'.Disjoint
  mailbox : b'.mailbox = b.position.mailboxAfter m
  isWhitesMove : b'.isWhitesMove = b.isWhitesMove
  rights : ∀ c w, b'.rights c w = (b.rights c w && !decide (Position.ForfeitsRight m c w))
  enPassantSquare : b'.enPassantSquare = (b.position.play m).enPassant.map Square.bit
  fiftyMoveClock : b'.fiftyMoveClock = b.fiftyMoveClock
  numMoves : b'.numMoves = b.numMoves

theorem status_eq_iff :
    b₁.status = b.status ↔ b₁.isWhitesMove = b.isWhitesMove ∧
      b₁.enPassantSquare = b.enPassantSquare ∧ b₁.rights = b.rights ∧
      b₁.fiftyMoveClock = b.fiftyMoveClock ∧ b₁.numMoves = b.numMoves := by
  have hrights : b₁.rights = b.rights ↔
      b₁.whiteHasRightToCastleKingside = b.whiteHasRightToCastleKingside ∧
      b₁.whiteHasRightToCastleQueenside = b.whiteHasRightToCastleQueenside ∧
      b₁.blackHasRightToCastleKingside = b.blackHasRightToCastleKingside ∧
      b₁.blackHasRightToCastleQueenside = b.blackHasRightToCastleQueenside := by
    constructor
    · intro h
      exact ⟨congrFun (congrFun h .white) .kingside, congrFun (congrFun h .white) .queenside,
        congrFun (congrFun h .black) .kingside, congrFun (congrFun h .black) .queenside⟩
    · rintro ⟨h1, h2, h3, h4⟩
      funext c w
      cases c <;> cases w
      · exact h1
      · exact h2
      · exact h3
      · exact h4
  rw [hrights]
  simp only [status, Prod.mk.injEq]

/-- A write to the en passant field leaves everything else alone. -/
theorem mailbox_with_enPassantSquare (b : Board) (ep : Option Bitboard) :
    ({ b with enPassantSquare := ep } : Board).mailbox = b.mailbox :=
  mailbox_congr (by rintro ⟨_ | _, _ | _ | _ | _ | _ | _⟩ <;> rfl)

theorem Disjoint.with_enPassantSquare (hb : b.Disjoint) (ep : Option Bitboard) :
    ({ b with enPassantSquare := ep } : Board).Disjoint :=
  hb.congr (by rintro ⟨_ | _, _ | _ | _ | _ | _ | _⟩ <;> rfl)

/-- The common end of four of the operations: the en passant square is cleared and the
castling rights are adjusted. -/
theorem Moved.of_adjust (h : b.WellFormed) (hm : Performable b.position m)
    (htype : m.type ≠ .twoStepPawn) (hdisj : b₁.Disjoint)
    (hmailbox : b₁.mailbox = b.position.mailboxAfter m) (hstatus : b₁.status = b.status) :
    Moved b ({ b₁ with enPassantSquare := none }.adjustCastlingRights (b.encode m)) m := by
  obtain ⟨hturn, -, hrights, hfifty, hnum⟩ := status_eq_iff.mp hstatus
  have hrest := adjustCastlingRights_rest { b₁ with enPassantSquare := none } (b.encode m)
  refine ⟨(hdisj.with_enPassantSquare none).congr hrest.bitboard, ?_,
    hrest.isWhitesMove.trans hturn, ?_, ?_, hrest.fiftyMoveClock.trans hfifty,
    hrest.numMoves.trans hnum⟩
  · rw [mailbox_congr hrest.bitboard, mailbox_with_enPassantSquare, hmailbox]
  · intro c w
    rw [rights_adjustCastlingRights _ rfl rfl]
    have hb₁ : ({ b₁ with enPassantSquare := none } : Board).rights c w = b.rights c w :=
      congrFun (congrFun hrights c) w
    rw [hb₁]
    cases hright : b.rights c w with
    | false => rfl
    | true =>
      rw [Bool.true_and, Bool.true_and]
      congr 1
      exact decide_eq_decide.mpr (clearsRight_iff h.position hm hright)
  · rw [hrest.enPassantSquare]
    simp [Position.play, htype]

/-- The common end of the other two, which move a pawn onto an empty square and write the en
passant square. -/
theorem Moved.of_pawn (h : b.WellFormed) {ep : Option Bitboard}
    (hsrc : b.mailbox m.src = some (b.sideToMove, .pawn)) (hdst : b.mailbox m.dst = none)
    (hdisj : b₁.Disjoint) (hmailbox : b₁.mailbox = b.position.mailboxAfter m)
    (hstatus : b₁.status = b.status) (hep : ep = (b.position.play m).enPassant.map Square.bit) :
    Moved b { b₁ with enPassantSquare := ep } m := by
  obtain ⟨hturn, -, hrights, hfifty, hnum⟩ := status_eq_iff.mp hstatus
  refine ⟨hdisj.with_enPassantSquare ep, ?_, hturn, ?_, hep, hfifty, hnum⟩
  · rw [mailbox_with_enPassantSquare, hmailbox]
  · intro c w
    have hb₁ : ({ b₁ with enPassantSquare := ep } : Board).rights c w = b.rights c w :=
      congrFun (congrFun hrights c) w
    rw [hb₁]
    cases hright : b.rights c w with
    | false => rfl
    | true => simp [not_forfeitsRight_of_pawn h.position hsrc hdst hright]

variable (h : b.WellFormed)

include h

theorem doSimpleMove_spec (hm : Performable b.position m) (htype : m.type = .simple)
    (hdst : b.mailbox m.dst = none) :
    ∃ b', b.doSimpleMove (b.encode m) = .ok b' ∧ Moved b b' m := by
  obtain ⟨b₁, hmove, hdisj, hmailbox, hstatus⟩ :=
    movePiece_spec h.disjoint (s := m.src) hm.src hdst
  refine ⟨_, by rw [doSimpleMove, encode, hmove]; rfl, ?_⟩
  refine Moved.of_adjust h hm (by simp [htype]) hdisj ?_ hstatus
  rw [hmailbox, Position.mailboxAfter, ChessMove.placed, htype]
  rfl

theorem doCaptureMove_spec (hm : Performable b.position m) (htype : m.type = .capture) :
    ∃ b', b.doCaptureMove (b.encode m) = .ok b' ∧ Moved b b' m := by
  have hne := hm.src_ne_dst h.position
  obtain ⟨hdisj₀, hmailbox₀, hstatus₀⟩ := removePieceOn_spec h.disjoint m.dst
  obtain ⟨b₁, hmove, hdisj, hmailbox, hstatus⟩ :=
    movePiece_spec hdisj₀ (s := m.src) (t := m.dst) (x := (b.sideToMove, m.piece))
      (by rw [hmailbox₀, Mailbox.clear_apply, if_neg hne]; exact hm.src)
      (by rw [hmailbox₀, Mailbox.clear_apply, if_pos rfl])
  refine ⟨_, by rw [doCaptureMove, encode, hmove]; rfl, ?_⟩
  refine Moved.of_adjust h hm (by simp [htype]) hdisj ?_ (hstatus.trans hstatus₀)
  rw [hmailbox, hmailbox₀, Position.mailboxAfter, ChessMove.placed, htype]
  funext u
  simp only [Mailbox.put_apply, Mailbox.clear_apply, position_mailbox, position_side]
  split_ifs <;> rfl

theorem doTwoStepPawnMove_spec (hm : Performable b.position m) (htype : m.type = .twoStepPawn)
    (hpiece : m.piece = .pawn)
    (hmoves : PawnMoves b.position b.sideToMove m.src m.dst .twoStepPawn) :
    ∃ b', b.doTwoStepPawnMove (b.encode m) = .ok b' ∧ Moved b b' m := by
  obtain ⟨hrank, ⟨u, hu, -⟩, -, hdst⟩ := hmoves
  have hsrc : b.mailbox m.src = some (b.sideToMove, .pawn) := hpiece ▸ hm.src
  obtain ⟨b₁, hmove, hdisj, hmailbox, hstatus⟩ :=
    movePiece_spec h.disjoint (s := m.src) (t := m.dst) hsrc hdst
  rw [Option.mem_def] at hu
  -- the rank of the source tells the colour of the pawn
  have hep : passedSquare (b.encode m) = .ok u.bit := by
    rw [passedSquare, encode_srcSquare, toBool_bit_and, has_secondRankMask, hrank]
    cases hc : b.sideToMove with
    | white =>
      rw [hc] at hu
      rw [if_pos (by decide), northOf_forward hu]
    | black =>
      rw [hc] at hu
      rw [if_neg (by decide), southOf_forward hu]
  refine ⟨{ b₁ with enPassantSquare := some u.bit }, ?_, ?_⟩
  · rw [doTwoStepPawnMove, hep]
    simp only [encode]
    rw [hmove]
    rfl
  · apply Moved.of_pawn h hsrc hdst hdisj _ hstatus
    · simp only [Position.play, htype, if_true, position_side, hu, Option.map_some]
    · rw [hmailbox, Position.mailboxAfter, ChessMove.placed, htype, hpiece]
      rfl

omit h in
/-- The rank of the destination tells which side has just moved, and so where its pawn is. -/
theorem enemyPawnSquare_eq {move : Move} {t u : Square} (hdst : move.dstSquare = t.bit)
    (hrank : t.rank = enPassantRank b.sideToMove) (hu : u ∈ t.shift 0 (-forward b.sideToMove)) :
    enemyPawnSquare move = .ok u.bit := by
  rw [enemyPawnSquare, hdst, toBool_bit_and, has_thirdRankMask, hrank]
  rw [Option.mem_def] at hu
  cases hc : b.sideToMove with
  | white =>
    rw [hc] at hu
    rw [if_neg (by decide), southOf_forward hu]
  | black =>
    rw [hc] at hu
    rw [if_pos (by decide), northOf_forward hu]

theorem doEnPassantMove_spec (hm : Performable b.position m) (htype : m.type = .enPassant)
    (hpiece : m.piece = .pawn) (hep : b.position.enPassant = some m.dst) :
    ∃ b', b.doEnPassantMove (b.encode m) = .ok b' ∧ Moved b b' m := by
  obtain ⟨hdst, hrank, u, hu, hpawn⟩ := h.position.enPassant m.dst hep
  have hsrc : b.mailbox m.src = some (b.sideToMove, .pawn) := hpiece ▸ hm.src
  have husrc : m.src ≠ u := by
    rintro rfl
    have := hsrc.symm.trans hpawn
    simp at this
  have hudst : m.dst ≠ u := by
    rintro heq
    rw [heq] at hdst
    have := hdst.symm.trans hpawn
    simp at this
  obtain ⟨hdisj₀, hmailbox₀, hstatus₀⟩ := removePieceOn_spec h.disjoint u
  obtain ⟨b₁, hmove, hdisj, hmailbox, hstatus⟩ :=
    movePiece_spec hdisj₀ (s := m.src) (t := m.dst) (x := (b.sideToMove, .pawn))
      (by rw [hmailbox₀, Mailbox.clear_apply, if_neg husrc]; exact hsrc)
      (by rw [hmailbox₀, Mailbox.clear_apply, if_neg hudst]; exact hdst)
  have hbehind : enemyPawnSquare (b.encode m) = .ok u.bit :=
    enemyPawnSquare_eq (encode_dstSquare b m) hrank hu
  have hset : (b.enPassantSquare == some m.dst.bit) = true := by
    rw [enPassantSquare_eq h.epSquare, hep]
    simp
  refine ⟨{ b₁ with enPassantSquare := none }, ?_, ?_⟩
  · rw [doEnPassantMove, hbehind]
    simp only [encode, hset, rawCheck, if_true, pure_eq_ok, ok_bind]
    rw [hmove]
    rfl
  apply Moved.of_pawn h hsrc hdst hdisj _ (hstatus.trans hstatus₀)
  · simp [Position.play, htype]
  · rw [hmailbox, hmailbox₀, Position.mailboxAfter, ChessMove.placed, htype, hpiece]
    rw [Option.mem_def, position_side] at hu
    funext v
    simp only [hu, Option.some.injEq, Mailbox.put_apply, Mailbox.clear_apply, position_mailbox,
      position_side]
    by_cases hvu : v = u
    · simp [hvu, Ne.symm hudst]
    · simp [hvu, Ne.symm hvu]

/-- A castling move carries the king, then the rook of the same wing. -/
theorem doCastleMove_spec {w : Wing} (hcastle : MayCastle b.position b.sideToMove w)
    (hm : m = castleMove b.sideToMove w) :
    ∃ b', b.doCastleMove (b.encode m) = .ok b' ∧ Moved b b' m := by
  have hperf : Performable b.position m := Or.inr ⟨w, hcastle, hm⟩
  obtain ⟨htarget, hpassed⟩ := hcastle.targets_empty
  obtain ⟨-, hking, hrook, -⟩ := hcastle
  obtain ⟨b₁, hmove₁, hdisj₁, hmailbox₁, hstatus₁⟩ :=
    movePiece_spec h.disjoint (s := kingHome b.sideToMove) (t := kingTarget b.sideToMove w)
      hking htarget
  obtain ⟨-, hhomes, htargetHome, hhomeTarget, htargets, -⟩ :=
    castling_squares_ne b.sideToMove w
  obtain ⟨b₂, hmove₂, hdisj₂, hmailbox₂, hstatus₂⟩ :=
    movePiece_spec hdisj₁ (s := rookHome b.sideToMove w) (t := rookTarget b.sideToMove w)
      (x := (b.sideToMove, .rook))
      (by rw [hmailbox₁, Mailbox.put_apply, Mailbox.clear_apply, if_neg hhomeTarget,
            if_neg hhomes]
          exact hrook)
      (by rw [hmailbox₁, Mailbox.put_apply, Mailbox.clear_apply, if_neg htargets,
            if_neg htargetHome]
          exact hpassed)
  have hrookMove : b₁.moveCastlingRook (b.encode m) = .ok b₂ := by
    have hturn : b₁.isWhitesMove = b.isWhitesMove := (status_eq_iff.mp hstatus₁).1
    rw [← hmove₂, moveCastlingRook, encode_moveType, hm, hturn, sideToMove]
    cases w <;> cases b.isWhitesMove <;>
      simp [castleMove, castleType, rookHome, rookTarget, backRank]
  have hmove : b.movePiece m.src.bit m.dst.bit = .ok b₁ := by
    rw [hm]
    exact hmove₁
  refine ⟨_, by rw [doCastleMove, encode_srcSquare, encode_dstSquare, hmove, ok_bind, hrookMove]
                rfl, ?_⟩
  refine Moved.of_adjust h hperf (by rw [hm]; cases w <;> simp [castleMove, castleType]) hdisj₂ ?_
    (hstatus₂.trans hstatus₁)
  rw [hmailbox₂, hmailbox₁, hm, Position.mailboxAfter]
  cases w <;> rfl

omit h in
/-- The `switch` of `do_promotion_move` writes the chosen piece in the mover's colour. -/
theorem placePromoted_eq (b₁ : Board) (hturn : b₁.isWhitesMove = b.isWhitesMove)
    (htype : m.type ∈ promotionMoveTypes) :
    b₁.placePromoted (b.encode m) = .ok (b₁.setBitboard (b.sideToMove, m.placed)
      (b₁.bitboard (b.sideToMove, m.placed) ||| m.dst.bit)) := by
  rw [placePromoted, encode_moveType, sideToMove, ← hturn]
  cases hc : b₁.isWhitesMove <;> cases ht : m.type <;>
    simp_all [promotionMoveTypes, setBitboard, bitboard, ChessMove.placed]

theorem doPromotionMove_spec (hm : Performable b.position m)
    (htype : m.type ∈ promotionMoveTypes) :
    ∃ b', b.doPromotionMove (b.encode m) = .ok b' ∧ Moved b b' m := by
  obtain ⟨hdisj₀, hmailbox₀, hstatus₀⟩ := removePieceOn_spec h.disjoint m.src
  obtain ⟨hdisj₁, hmailbox₁, hstatus₁⟩ := removePieceOn_spec hdisj₀ m.dst
  have hempty : ((b.removePieceOn m.src.bit).removePieceOn m.dst.bit).mailbox m.dst = none := by
    rw [hmailbox₁, Mailbox.clear_apply, if_pos rfl]
  obtain ⟨hdisj₂, hmailbox₂⟩ := setBitboard_or_spec hdisj₁ hempty (b.sideToMove, m.placed)
  have hstatus := hstatus₁.trans hstatus₀
  have hplace := placePromoted_eq (b := b) _ (status_eq_iff.mp hstatus).1 htype
  refine ⟨_, by rw [doPromotionMove, encode_srcSquare, encode_dstSquare, hplace]; rfl, ?_⟩
  have hnot : m.type ≠ .twoStepPawn := by
    intro heq
    rw [heq] at htype
    exact absurd htype (by decide)
  refine Moved.of_adjust h hm hnot hdisj₂ ?_ ((status_setBitboard _ _).trans hstatus)
  rw [hmailbox₂, hmailbox₁, hmailbox₀]
  have hafter : b.position.mailboxAfter m =
      (b.mailbox.clear m.src).put m.dst (b.sideToMove, m.placed) := by
    unfold Position.mailboxAfter
    cases ht : m.type <;> simp_all [promotionMoveTypes]
  rw [hafter]
  funext u
  simp only [Mailbox.put_apply, Mailbox.clear_apply]
  split_ifs <;> rfl

/-- The `switch` of `do_move` does what the rules say. -/
theorem dispatchMove_spec (hm : Performable b.position m) :
    ∃ b', b.dispatchMove (b.encode m) = .ok b' ∧ Moved b b' m := by
  rw [dispatchMove, encode_moveType]
  cases hm.shape with
  | simple type target =>
    rw [type]
    exact doSimpleMove_spec h hm type target
  | capture type _ =>
    rw [type]
    exact doCaptureMove_spec h hm type
  | twoStepPawn type piece moves =>
    rw [type]
    exact doTwoStepPawnMove_spec h hm type piece moves
  | enPassant type piece _ target =>
    rw [type]
    exact doEnPassantMove_spec h hm type piece target
  | promotion type _ _ _ =>
    have hdo := doPromotionMove_spec h hm type
    simp only [promotionMoveTypes, List.mem_cons, List.not_mem_nil, or_false] at type
    rcases type with type | type | type | type <;> rw [type] <;> exact hdo
  | castle w may eq =>
    have hdo := doCastleMove_spec h may eq
    rw [eq] at hdo ⊢
    cases w <;> exact hdo

omit h in
/-- Counting on from a counter that stays below the end of the `int` range. -/
theorem toInt_counter_add {counter : Int32} {n : ℕ} (hfits : counter.toInt + n < 2 ^ 31) :
    (counter + Int32.ofNat n).toInt = counter.toInt + n := by
  have hlow := counter.le_toInt
  have hsum : counter + Int32.ofNat n = Int32.ofInt (counter.toInt + n) := by
    rw [Int32.ofInt_add, Int32.ofInt_toInt, Int32.ofInt_eq_ofNat]
  rw [hsum, Int32.toInt_ofInt_of_le (by omega) hfits]

/-- `do_move` of a performable move returns a sound board that stands for the position after
the move. -/
theorem doMove_spec (hm : Performable b.position m) :
    ∃ b', b.doMove (b.encode m) = .ok b' ∧ b'.Sound ∧ b'.position = b.position.play m ∧
      b'.fiftyMoveClock = b.fiftyMoveClock ∧
      b'.numMoves = b.numMoves + if b.sideToMove = .black then 1 else 0 := by
  obtain ⟨b₁, hdispatch, hmoved⟩ := dispatchMove_spec h hm
  have hdo : b.doMove (b.encode m) = .ok b₁.passTurn := by
    rw [doMove, hdispatch, encode_srcSquare, encode_dstSquare, isSquare_bit, isSquare_bit]
    rfl
  have hep : ∀ sq ∈ b₁.passTurn.enPassantSquare, isSquare sq = true := by
    rw [show b₁.passTurn.enPassantSquare = b₁.enPassantSquare from rfl, hmoved.enPassantSquare]
    intro sq hsq
    obtain ⟨t, -, rfl⟩ := Option.map_eq_some_iff.mp hsq
    exact isSquare_bit t
  have hturn : b₁.passTurn.isWhitesMove = !b.isWhitesMove := by
    rw [passTurn, hmoved.isWhitesMove]
  have hposition : b₁.passTurn.position = b.position.play m := by
    have hmailbox : b₁.passTurn.mailbox = b.position.mailboxAfter m := hmoved.mailbox
    have hside : b₁.passTurn.sideToMove = flipColor b.sideToMove := by
      rw [sideToMove, sideToMove, hturn]
      cases b.isWhitesMove <;> rfl
    have hrights : b₁.passTurn.rights = (b.position.play m).rights :=
      funext fun c => funext fun w => hmoved.rights c w
    have henPassant : b₁.passTurn.position.enPassant = (b.position.play m).enPassant := by
      have h₁ := enPassantSquare_eq hep
      rw [show b₁.passTurn.enPassantSquare = b₁.enPassantSquare from rfl,
        hmoved.enPassantSquare] at h₁
      exact Option.map_injective (fun _ _ => bit_inj.mp) h₁.symm
    rw [Position.mk.injEq]
    exact ⟨hmailbox, hside, hrights, henPassant⟩
  refine ⟨_, hdo, ⟨hmoved.disjoint, hep, ?_⟩, hposition, hmoved.fiftyMoveClock, ?_⟩
  · rw [hposition]
    exact hm.sound h.position
  · rw [passTurn, hmoved.isWhitesMove, hmoved.numMoves, sideToMove]
    cases b.isWhitesMove <;> rfl

end Board

end PawnGrabber
