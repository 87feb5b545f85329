import PawnGrabber.Rules.Performable
import PawnGrabber.Analysis.Mailbox

/-!
# The primitive updates of a board

`remove_piece_on`, `move_piece`, the writes of a promotion and `adjust_castling_rights`,
each as what it does to the mailbox and to the castling rights. On disjoint bitboards an
exclusive or takes exactly one occupant off and an inclusive or puts exactly one on, and
the result is disjoint again.
-/

set_option autoImplicit false

namespace PawnGrabber

open ExceptFold Rules

namespace Board

variable {b b' : Board}

/-- A board whose bitboards agree with a mailbox is disjoint and stands for it. -/
theorem disjoint_and_mailbox_of_has (mb : Mailbox)
    (h : ∀ s ptr, has (b.bitboard ptr) s = true ↔ mb s = some ptr) :
    b.Disjoint ∧ b.mailbox = mb := by
  have hb : b.Disjoint := disjoint_iff.mpr fun s p q hp hq => by
    rw [h] at hp hq
    exact Option.some.inj (hp.symm.trans hq)
  refine ⟨hb, ?_⟩
  funext s
  apply Option.ext
  intro ptr
  rw [hb.mailbox_eq_some_iff, h]

/-- Boards with the same bitboards stand for the same mailbox. -/
theorem mailbox_congr (h : ∀ ptr, b'.bitboard ptr = b.bitboard ptr) : b'.mailbox = b.mailbox :=
  funext fun s => by simp only [mailbox_eq_find, h]

theorem Disjoint.congr (hb : b.Disjoint) (h : ∀ ptr, b'.bitboard ptr = b.bitboard ptr) :
    b'.Disjoint := fun p q hne => by rw [h, h, hb p q hne]

/-! ## Taking a piece off and putting one on -/

theorem removePieceOn_spec (hb : b.Disjoint) (s : Square) :
    (b.removePieceOn s.bit).Disjoint ∧
      (b.removePieceOn s.bit).mailbox = b.mailbox.clear s ∧
      (b.removePieceOn s.bit).status = b.status := by
  have hfind : b.findBitboard s.bit = b.mailbox s := rfl
  rw [removePieceOn, hfind]
  cases hs : b.mailbox s with
  | none =>
    refine ⟨hb, ?_, rfl⟩
    funext t
    rw [Mailbox.clear_apply]
    split_ifs with hts
    · rw [hts, hs]
    · rfl
  | some x =>
    have hmailbox := disjoint_and_mailbox_of_has
      (b := b.setBitboard x (b.bitboard x ^^^ s.bit)) (b.mailbox.clear s) ?_
    · exact ⟨hmailbox.1, hmailbox.2, status_setBitboard _ _⟩
    intro t ptr
    rw [bitboard_setBitboard, Mailbox.clear_apply]
    by_cases hptr : ptr = x
    · subst hptr
      rw [if_pos rfl, has_xor, has_bit, hb.has_bitboard]
      by_cases hts : t = s
      · subst hts
        simp [hs]
      · simp [hts, Ne.symm hts]
    · rw [if_neg hptr, hb.has_bitboard]
      by_cases hts : t = s
      · subst hts
        simp [hs, Ne.symm hptr]
      · simp [hts]

/-- Writing a square into a bitboard puts that piece on it. -/
theorem setBitboard_or_spec (hb : b.Disjoint) {t : Square} (ht : b.mailbox t = none)
    (x : Color × Piece) :
    (b.setBitboard x (b.bitboard x ||| t.bit)).Disjoint ∧
      (b.setBitboard x (b.bitboard x ||| t.bit)).mailbox = b.mailbox.put t x := by
  apply disjoint_and_mailbox_of_has _
  intro u ptr
  rw [bitboard_setBitboard, Mailbox.put_apply]
  by_cases hptr : ptr = x
  · subst hptr
    rw [if_pos rfl, has_or, has_bit, hb.has_bitboard]
    by_cases hut : u = t
    · simp [hut]
    · simp [hut, Ne.symm hut]
  · rw [if_neg hptr, hb.has_bitboard]
    by_cases hut : u = t
    · subst hut
      simp [ht, Ne.symm hptr]
    · simp [hut]

/-- `move_piece` finds the piece on its source and carries it over. -/
theorem movePiece_spec (hb : b.Disjoint) {s t : Square} {x : Color × Piece}
    (hs : b.mailbox s = some x) (ht : b.mailbox t = none) :
    ∃ b', b.movePiece s.bit t.bit = .ok b' ∧ b'.Disjoint ∧
      b'.mailbox = (b.mailbox.clear s).put t x ∧ b'.status = b.status := by
  have hfind : b.findBitboard s.bit = some x := hs
  have hst : s ≠ t := by
    rintro rfl
    rw [hs] at ht
    cases ht
  rw [movePiece, hfind]
  refine ⟨_, rfl, ?_⟩
  have hmailbox := disjoint_and_mailbox_of_has
    (b := b.setBitboard x ((b.bitboard x ^^^ s.bit) ||| t.bit))
    ((b.mailbox.clear s).put t x) ?_
  · exact ⟨hmailbox.1, hmailbox.2, status_setBitboard _ _⟩
  intro u ptr
  rw [bitboard_setBitboard, Mailbox.put_apply, Mailbox.clear_apply]
  by_cases hptr : ptr = x
  · subst hptr
    rw [if_pos rfl, has_or, has_xor, has_bit, has_bit, hb.has_bitboard]
    by_cases hut : u = t
    · simp [hut]
    · by_cases hus : u = s
      · subst hus
        simp [hs, hut, Ne.symm hut]
      · simp [hut, hus, Ne.symm hut, Ne.symm hus]
  · rw [if_neg hptr, hb.has_bitboard]
    by_cases hut : u = t
    · subst hut
      simp [ht, Ne.symm hptr]
    · by_cases hus : u = s
      · subst hus
        simp [hs, hut, Ne.symm hptr]
      · simp [hut, hus]

/-! ## Castling rights -/

/-- The test `adjust_castling_rights` makes for one right, on a move from `s` to `t`. -/
def ClearsRight (k : Piece) (s t : Square) (c : Color) (w : Wing) : Prop :=
  t = rookHome c w ∨ k = .king ∧ s = kingHome c ∨ k = .rook ∧ s = rookHome c w

instance (k : Piece) (s t : Square) (c : Color) (w : Wing) : Decidable (ClearsRight k s t c w) :=
  inferInstanceAs (Decidable (_ ∨ _ ∨ _))

/-- The twelve bitboards and the other fields stay as they are. -/
structure SameExceptRights (b' b : Board) : Prop where
  bitboard : ∀ ptr, b'.bitboard ptr = b.bitboard ptr
  isWhitesMove : b'.isWhitesMove = b.isWhitesMove
  enPassantSquare : b'.enPassantSquare = b.enPassantSquare
  fiftyMoveClock : b'.fiftyMoveClock = b.fiftyMoveClock
  numMoves : b'.numMoves = b.numMoves

/-- A change of the rights only. -/
theorem sameExceptRights_with (b : Board) (wk wq bk bq : Bool) :
    SameExceptRights
      { b with
        whiteHasRightToCastleKingside := wk, whiteHasRightToCastleQueenside := wq,
        blackHasRightToCastleKingside := bk, blackHasRightToCastleQueenside := bq } b :=
  ⟨by rintro ⟨_ | _, _ | _ | _ | _ | _ | _⟩ <;> rfl, rfl, rfl, rfl, rfl⟩

theorem SameExceptRights.trans {b₁ b₂ b₃ : Board} (h : SameExceptRights b₁ b₂)
    (h' : SameExceptRights b₂ b₃) : SameExceptRights b₁ b₃ :=
  ⟨fun ptr => (h.bitboard ptr).trans (h'.bitboard ptr), h.isWhitesMove.trans h'.isWhitesMove,
    h.enPassantSquare.trans h'.enPassantSquare, h.fiftyMoveClock.trans h'.fiftyMoveClock,
    h.numMoves.trans h'.numMoves⟩

/-- `adjust_castling_rights` changes the rights only. -/
theorem adjustCastlingRights_rest (b : Board) (move : Move) :
    SameExceptRights (b.adjustCastlingRights move) b := by
  have hdst : SameExceptRights (b.adjustForDestination move) b := sameExceptRights_with b _ _ _ _
  have hking : ∀ b' : Board, SameExceptRights (b'.adjustForKing move) b' := fun b' => by
    unfold adjustForKing
    split_ifs <;> exact sameExceptRights_with b' _ _ _ _
  have hrook : ∀ b' : Board, SameExceptRights (b'.adjustForRook move) b' := fun b' => by
    unfold adjustForRook
    split_ifs <;> exact sameExceptRights_with b' _ _ _ _
  exact ((hrook _).trans (hking _)).trans hdst

section Rights

variable {move : Move} {s t : Square}

theorem rights_adjustForDestination (b : Board) (ht : move.dstSquare = t.bit) (c : Color)
    (w : Wing) :
    (b.adjustForDestination move).rights c w = (b.rights c w && !decide (t = rookHome c w)) := by
  rw [Bool.eq_iff_iff, Bool.and_eq_true, Bool.not_eq_true', decide_eq_false_iff_not]
  cases c <;> cases w <;>
    simp [rights, adjustForDestination, ht, rookHome, backRank, and_comm]

theorem rights_adjustForKing (b : Board) (hs : move.srcSquare = s.bit) (c : Color) (w : Wing) :
    (b.adjustForKing move).rights c w =
      (b.rights c w && !decide (move.pieceMoving = .king ∧ s = kingHome c)) := by
  unfold adjustForKing
  simp only [hs, square_e1, square_e8, bit_inj]
  cases c <;> cases w <;> split_ifs <;> simp_all [rights, kingHome, backRank]

theorem rights_adjustForRook (b : Board) (hs : move.srcSquare = s.bit) (c : Color) (w : Wing) :
    (b.adjustForRook move).rights c w =
      (b.rights c w && !decide (move.pieceMoving = .rook ∧ s = rookHome c w)) := by
  unfold adjustForRook
  simp only [hs, square_a1, square_h1, square_a8, square_h8, bit_inj]
  cases c <;> cases w <;> split_ifs <;> simp_all [rights, rookHome, backRank]

/-- Each right is cleared by its own test and by nothing else. -/
theorem rights_adjustCastlingRights (b : Board) (hs : move.srcSquare = s.bit)
    (ht : move.dstSquare = t.bit) (c : Color) (w : Wing) :
    (b.adjustCastlingRights move).rights c w =
      (b.rights c w && !decide (ClearsRight move.pieceMoving s t c w)) := by
  rw [adjustCastlingRights, rights_adjustForRook _ hs, rights_adjustForKing _ hs,
    rights_adjustForDestination _ ht]
  rw [Bool.eq_iff_iff]
  simp only [Bool.and_eq_true, Bool.not_eq_true', decide_eq_false_iff_not, and_assoc]
  rw [ClearsRight, not_or, not_or]

end Rights

end Board

end PawnGrabber
