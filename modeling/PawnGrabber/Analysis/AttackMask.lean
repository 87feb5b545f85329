import PawnGrabber.Rules.Performable
import PawnGrabber.Analysis.PawnGeneration

/-!
# What the attack mask contains

`attack_squares` collects the destinations of pseudolegal moves and the squares pawns
attack. The destinations of pawn pushes are in the mask although they are not attacked,
but a push goes to an empty square only: on an occupied square, in particular on the
king's, the mask is exact.
-/

set_option autoImplicit false

namespace PawnGrabber

open ExceptFold Rules Square

namespace Rules

variable {p : Position} {c : Color} {t : Square}

/-- `t` is where a pawn of `c` may be pushed to: by one step, by two, or to promote. -/
def PushTarget (p : Position) (c : Color) (t : Square) : Prop :=
  p.mailbox t = none ∧ ∃ m, PseudoLegal p c m ∧ m.piece = .pawn ∧ m.dst = t ∧
    (m.src.shift 0 (forward c) = some t ∨ m.src.shift 0 (2 * forward c) = some t)

/-- What `attack_squares` collects. -/
def InAttackMask (p : Position) (c : Color) (t : Square) : Prop :=
  (∃ m, PseudoLegal p c m ∧ m.dst = t) ∨
    ∃ s, p.mailbox s = some (c, .pawn) ∧ PawnAttacks c s t

/-- An attacked square without a friend on it is in the mask. -/
theorem AttackedBy.inAttackMask (h : AttackedBy p.mailbox c t) (ht : ¬Holds p.mailbox c t) :
    InAttackMask p c t := by
  obtain ⟨s, k, hs, ha⟩ := h
  by_cases hk : k = .pawn
  · subst hk
    exact Or.inr ⟨s, hs, ha⟩
  · refine Or.inl ⟨⟨s, t, k, if p.mailbox t = none then .simple else .capture⟩, ⟨hs, ?_⟩, rfl⟩
    rw [if_neg hk, pieceMoves_iff]
    refine ⟨ha, ?_⟩
    by_cases hn : p.mailbox t = none
    · exact Or.inl ⟨if_pos hn, hn⟩
    · exact Or.inr ⟨if_neg hn, (holds_or_holds c hn).resolve_left ht⟩

/-- A square in the mask is attacked or the target of a push. -/
theorem InAttackMask.attacked_or_push (h : InAttackMask p c t) :
    AttackedBy p.mailbox c t ∨ PushTarget p c t := by
  rcases h with ⟨m, hm, rfl⟩ | ⟨s, hs, ha⟩
  · rcases hm.attacks_or_push with ha | ⟨hp, hn, hpush⟩
    · exact Or.inl ⟨m.src, m.piece, hm.1, ha⟩
    · exact Or.inr ⟨hn, m, hm, hp, rfl, hpush⟩
  · exact Or.inl ⟨s, .pawn, hs, ha⟩

/-- A pawn that moves straight ahead makes a single step, a double step or a promotion. -/
theorem PseudoLegal.type_of_straight {m : ChessMove} (h : PseudoLegal p c m)
    (hpiece : m.piece = .pawn) (hfile : m.src.file = m.dst.file) :
    m.type = .simple ∨ m.type = .twoStepPawn ∨ m.type ∈ promotionMoveTypes := by
  have hdiagonal : ¬PawnAttacks c m.src m.dst := by
    unfold PawnAttacks
    simp only [shift_eq_some_iff, hfile]
    omega
  have hm := h.2
  rw [if_pos hpiece] at hm
  unfold PawnMoves at hm
  cases htype : m.type <;> simp only [htype] at hm <;> simp [promotionMoveTypes]
  case capture => exact hdiagonal hm.1.1
  case enPassant => exact hdiagonal hm.1

/-- A push target is where a single step, a double step or a promotion goes straight ahead. -/
theorem PushTarget.exists_push (h : PushTarget p c t) :
    ∃ m, PseudoLegal p c m ∧ m.piece = .pawn ∧ m.dst = t ∧ m.src.file = t.file ∧
      (m.type = .simple ∨ m.type = .twoStepPawn ∨ m.type ∈ promotionMoveTypes) := by
  obtain ⟨-, m, hm, hpiece, rfl, hpush⟩ := h
  have hfile : m.src.file = m.dst.file := by
    simp only [shift_eq_some_iff] at hpush
    rw [Fin.ext_iff]
    omega
  exact ⟨m, hm, hpiece, rfl, hfile, hm.type_of_straight hpiece hfile⟩

/-- On an enemy's square the mask is exact. -/
theorem inAttackMask_iff (ht : Holds p.mailbox (flipColor c) t) :
    InAttackMask p c t ↔ AttackedBy p.mailbox c t := by
  constructor
  · intro h
    exact h.attacked_or_push.resolve_right fun hpush => ht.ne_none hpush.1
  · intro h
    apply h.inAttackMask
    intro hc
    exact hc.not_flip ht

end Rules

namespace Board

variable {b : Board}

/-- The two squares a pawn attacks, as the mask `pawn_attack_squares` adds for it. -/
theorem has_pawnAttacks (c : Color) (s t : Square) :
    has (bitOf (s.shift 1 (forward c)) ||| bitOf (s.shift (-1) (forward c))) t = true ↔
      PawnAttacks c s t := by
  have hbit : ∀ o : Option Square, has (bitOf o) t = true ↔ o = some t := by
    rintro (_ | u) <;> simp
  rw [has_or, Bool.or_eq_true, hbit, hbit, PawnAttacks]

/-- The loop of `pawn_attack_squares`, for either colour. -/
theorem pawnAttackSquares_loop (hb : b.Disjoint) (c : Color)
    {f : Bitboard → Bitboard → Checked Bitboard}
    (hf : ∀ (s : Square) (acc : Bitboard), f acc s.bit = .ok
      (acc ||| bitOf (s.shift 1 (forward c)) ||| bitOf (s.shift (-1) (forward c)))) :
    ∃ mask, (bitboardSplit (b.bitboard (c, .pawn))).foldlM f 0 = .ok mask ∧
      ∀ t, has mask t = true ↔ ∃ s, b.mailbox s = some (c, .pawn) ∧ PawnAttacks c s t := by
  refine ⟨(squaresOf (b.bitboard (c, .pawn))).foldl (fun acc s => acc |||
    (bitOf (s.shift 1 (forward c)) ||| bitOf (s.shift (-1) (forward c)))) 0, ?_, ?_⟩
  · rw [bitboardSplit_eq, List.foldlM_map]
    exact foldlM_ok (g := fun acc (s : Square) => acc |||
      (bitOf (s.shift 1 (forward c)) ||| bitOf (s.shift (-1) (forward c))))
      (fun s _ acc => by rw [hf, BitVec.or_assoc]) 0
  · intro t
    rw [has_foldl_or, hb.squaresOf_bitboard]
    simp [has_pawnAttacks, -has_or]

theorem pawnAttackSquares_spec (hb : b.Disjoint) (c : Color) :
    ∃ mask, b.pawnAttackSquares c = .ok mask ∧
      ∀ t, has mask t = true ↔ ∃ s, b.mailbox s = some (c, .pawn) ∧ PawnAttacks c s t := by
  unfold pawnAttackSquares
  cases c with
  | white =>
    rw [if_pos rfl]
    exact pawnAttackSquares_loop hb .white fun s acc => by
      rw [northeastOf_bit, ok_bind, northwestOf_bit]
      rfl
  | black =>
    rw [if_neg (by decide)]
    exact pawnAttackSquares_loop hb .black fun s acc => by
      rw [southeastOf_bit, ok_bind, southwestOf_bit]
      rfl

/-- `attack_squares` returns the mask of `InAttackMask`, for either colour. -/
theorem attackSquares_spec (h : b.Sound) (c : Color) :
    ∃ mask, b.attackSquares c = .ok mask ∧
      ∀ t, has mask t = true ↔ InAttackMask b.position c t := by
  obtain ⟨pawns, hpawns, hhas⟩ := pawnAttackSquares_spec h.disjoint c
  refine ⟨((pseudoMoves b.position c).map b.encode).foldl
    (fun acc move => acc ||| move.dstSquare) 0 ||| pawns, ?_, ?_⟩
  · rw [attackSquares, pseudolegalMoves_eq h, ok_bind, hpawns]
    rfl
  · intro t
    rw [has_or, Bool.or_eq_true, hhas, has_foldl_or, InAttackMask]
    refine or_congr ?_ Iff.rfl
    simp only [has_zero, Bool.false_eq_true, false_or, List.mem_map, BitVec.ofNat_eq_ofNat]
    constructor
    · rintro ⟨_, ⟨m, hm, rfl⟩, ht⟩
      rw [encode, has_bit, decide_eq_true_eq] at ht
      exact ⟨m, mem_pseudoMoves.mp hm, ht⟩
    · rintro ⟨m, hm, rfl⟩
      exact ⟨b.encode m, ⟨m, mem_pseudoMoves.mpr hm, rfl⟩, by simp [encode]⟩

/-- `is_king_attacked` is exact. -/
theorem isKingAttacked_eq (h : b.Sound) (c : Color) :
    b.isKingAttacked c = .ok (decide (KingAttacked b.mailbox c)) := by
  obtain ⟨s, hs, hbit⟩ := h.king_eq c
  obtain ⟨mask, hmask, hhas⟩ := attackSquares_spec h (flipColor c)
  have hking : (if c = .white then b.whiteKing else b.blackKing) = s.bit := by
    rw [← hbit]
    cases c <;> rfl
  have hholds : Holds b.position.mailbox (flipColor (flipColor c)) s := by
    rw [flipColor_flipColor]
    exact ⟨.king, hs⟩
  rw [isKingAttacked, hmask, hking, ok_bind, pure_eq_ok, toBool_bit_and]
  congr 1
  rw [Bool.eq_iff_iff, hhas, inAttackMask_iff hholds, decide_eq_true_eq]
  constructor
  · intro ha
    exact ⟨s, hs, ha⟩
  · rintro ⟨t, ht, ha⟩
    rwa [(h.position.king c).unique hs ht]

end Board

end PawnGrabber
