import PawnGrabber.Analysis.Generation

/-!
# The pawn generators

The five generators of pawn moves are written out twice in the source, once for each
colour. The emission lemmas are stated for either colour; in each generator the two
branches then differ only in which direction functions and which mask stand for them.
-/

set_option autoImplicit false

namespace PawnGrabber

open ExceptFold Rules Square

namespace Board

variable {b : Board}

/-! ## What the `if`s append -/

/-- An `if (!blocked)` block. -/
theorem emit_push (c : Color) (s : Square) (type : MoveType) {t : Square}
    (ht : s.shift 0 (forward c) = some t) (res : List Move) :
    (if (!toBool (b.allPieces &&& t.bit)) = true then res ++ [⟨s.bit, t.bit, .pawn, type, b⟩]
    else res) = res ++ (pushMoves b.mailbox c s type).map b.encode := by
  rw [toBool_and_bit, has_allPieces, pushMoves, ht]
  cases hm : b.mailbox t <;> simp [hm, encode]

/-- An `if (can_capture)` block, for the file `df` to the east. -/
theorem emit_capture (hb : b.Disjoint) (c : Color) (s : Square) (df : ℤ) (type : MoveType)
    (res : List Move) :
    (if toBool (b.enemies c &&& bitOf (s.shift df (forward c))) = true then
      res ++ [⟨s.bit, bitOf (s.shift df (forward c)), .pawn, type, b⟩]
    else res) = res ++ (captureMoves b.mailbox c s df type).map b.encode := by
  unfold captureMoves
  cases s.shift df (forward c) with
  | none => simp
  | some t =>
    rw [bitOf_some, toBool_and_bit, hb.has_enemies]
    by_cases hh : Holds b.mailbox (flipColor c) t <;> simp [hh, encode]

/-- An `if` of the en passant generator, for the pawn `df` files to the east of the square. -/
theorem emit_enPassant (hb : b.Disjoint) (c : Color) (t : Square) (df : ℤ) (res : List Move) :
    (if toBool (bitOf (t.shift df (-forward c)) &&& b.bitboard (c, .pawn)) = true then
      res ++ [⟨bitOf (t.shift df (-forward c)), t.bit, .pawn, .enPassant, b⟩]
    else res) = res ++ (enPassantFrom b.mailbox c t df).map b.encode := by
  unfold enPassantFrom
  cases t.shift df (-forward c) with
  | none => simp
  | some s =>
    rw [bitOf_some, toBool_bit_and, hb.has_bitboard]
    by_cases hh : b.mailbox s = some (c, .pawn) <;> simp [hh, encode]

/-! ## Which pawns a generator looks at -/

/-- The mask of the enemy's pawn rank: a pawn of `c` on it promotes with its next step. -/
def promotionMask (c : Color) : Bitboard :=
  if c = .white then seventhRankMask else secondRankMask

/-- The mask of the rank on which the pawns of `c` start. -/
def homeMask (c : Color) : Bitboard :=
  if c = .white then secondRankMask else seventhRankMask

theorem has_promotionMask (c : Color) (s : Square) :
    has (promotionMask c) s = decide (s.rank = pawnRank (flipColor c)) := by
  cases c with
  | white => exact has_seventhRankMask s
  | black => exact has_secondRankMask s

theorem has_homeMask (c : Color) (s : Square) :
    has (homeMask c) s = decide (s.rank = pawnRank c) := by
  cases c with
  | white => exact has_secondRankMask s
  | black => exact has_seventhRankMask s

theorem Disjoint.squaresOf_otherPawns (hb : b.Disjoint) (c : Color) :
    squaresOf (b.bitboard (c, .pawn) &&& ~~~promotionMask c) = otherPawns b.mailbox c :=
  hb.squaresOf_and fun s => by rw [has_not, has_promotionMask, decide_not]

theorem Disjoint.squaresOf_pawnsAboutToPromote (hb : b.Disjoint) (c : Color) :
    squaresOf (b.bitboard (c, .pawn) &&& promotionMask c) = pawnsAboutToPromote b.mailbox c :=
  hb.squaresOf_and (has_promotionMask c)

theorem Disjoint.squaresOf_pawnsAtHome (hb : b.Disjoint) (c : Color) :
    squaresOf (b.bitboard (c, .pawn) &&& homeMask c) = pawnsAtHome b.mailbox c :=
  hb.squaresOf_and (has_homeMask c)

/-- A pawn that is not on an end rank has a square in front of it. -/
theorem exists_shift_forward {s : Square} (hs : s.rank ≠ 0 ∧ s.rank ≠ 7) (c : Color) :
    ∃ t, s.shift 0 (forward c) = some t := by
  rw [← Option.ne_none_iff_exists', ne_eq, shift_eq_none_iff, not_not]
  have := s.file.isLt
  have := s.rank.isLt
  obtain ⟨h0, h7⟩ := hs
  rw [ne_eq, Fin.ext_iff] at h0 h7
  cases c <;> simp only [forward] <;> omega

/-- A pawn on its starting rank has two. -/
theorem exists_shift_two_forward {s : Square} {c : Color} (hs : s.rank = pawnRank c) :
    ∃ t u, s.shift 0 (forward c) = some t ∧ t.shift 0 (forward c) = some u ∧
      s.shift 0 (2 * forward c) = some u := by
  have hends : s.rank ≠ 0 ∧ s.rank ≠ 7 := by
    rw [hs]
    cases c <;> decide
  obtain ⟨t, ht⟩ := exists_shift_forward hends c
  have htwo : t.shift 0 (forward c) = s.shift 0 (2 * forward c) := by
    rw [shift_shift ht]
    congr 1
    ring
  obtain ⟨u, hu⟩ : ∃ u, s.shift 0 (2 * forward c) = some u := by
    rw [← Option.ne_none_iff_exists', ne_eq, shift_eq_none_iff, not_not]
    have := s.file.isLt
    rw [Fin.ext_iff] at hs
    cases c <;> simp only [forward, pawnRank] at hs ⊢ <;> omega
  exact ⟨t, u, ht, htwo.trans hu, hu⟩

theorem Sound.exists_shift_forward (h : b.Sound) {c : Color} {s : Square}
    (hs : b.mailbox s = some (c, .pawn)) : ∃ t, s.shift 0 (forward c) = some t :=
  Board.exists_shift_forward (h.position.pawns c s hs) c

/-- What a mask selects from a bitboard still stands on it. -/
theorem Disjoint.mailbox_of_has_and (hb : b.Disjoint) (ptr : BitboardPtr) {mask : Bitboard}
    {s : Square} (hs : has (b.bitboard ptr &&& mask) s = true) : b.mailbox s = some ptr := by
  rw [has_and, Bool.and_eq_true] at hs
  exact hb.mailbox_eq_some_iff.mpr hs.1

/-! ## The five generators -/

theorem appendPseudolegalSimplePawnMoves_eq (h : b.Sound) (c : Color) (res : List Move) :
    b.appendPseudolegalSimplePawnMoves c res =
      .ok (res ++ (simplePawnMoves b.position c).map b.encode) := by
  have hb := h.disjoint
  unfold appendPseudolegalSimplePawnMoves simplePawnMoves
  rw [position_mailbox, ← hb.squaresOf_otherPawns c]
  cases c with
  | white =>
    refine foldlM_split ?_ res
    intro s hs res
    obtain ⟨t, ht⟩ := h.exists_shift_forward (hb.mailbox_of_has_and (.white, .pawn) hs)
    rw [northOf_forward ht, ok_bind]
    exact congrArg _ (emit_push .white s .simple ht res)
  | black =>
    refine foldlM_split ?_ res
    intro s hs res
    obtain ⟨t, ht⟩ := h.exists_shift_forward (hb.mailbox_of_has_and (.black, .pawn) hs)
    rw [southOf_forward ht, ok_bind]
    exact congrArg _ (emit_push .black s .simple ht res)

/-- The `if` of the two-step generator. -/
theorem emit_doubleStep (c : Color) {s t u : Square} (ht : s.shift 0 (forward c) = some t)
    (hu : s.shift 0 (2 * forward c) = some u) (res : List Move) :
    (if (!(toBool (b.allPieces &&& t.bit) || toBool (b.allPieces &&& u.bit))) = true then
      res ++ [⟨s.bit, u.bit, .pawn, .twoStepPawn, b⟩]
    else res) = res ++ (doubleStepMoves b.mailbox c s).map b.encode := by
  rw [toBool_and_bit, toBool_and_bit, has_allPieces, has_allPieces, doubleStepMoves, ht, hu]
  cases hmt : b.mailbox t <;> cases hmu : b.mailbox u <;> simp [hmt, hmu, encode]

theorem appendPseudolegalTwoStepPawnMoves_eq (hb : b.Disjoint) (c : Color) (res : List Move) :
    b.appendPseudolegalTwoStepPawnMoves c res =
      .ok (res ++ (twoStepPawnMoves b.position c).map b.encode) := by
  have hhome : ∀ s, has (b.bitboard (c, .pawn) &&& homeMask c) s = true →
      s.rank = pawnRank c := fun s hs => by
    rw [has_and, Bool.and_eq_true, has_homeMask, decide_eq_true_eq] at hs
    exact hs.2
  unfold appendPseudolegalTwoStepPawnMoves twoStepPawnMoves
  rw [position_mailbox, ← hb.squaresOf_pawnsAtHome c]
  cases c with
  | white =>
    refine foldlM_split ?_ res
    intro s hs res
    obtain ⟨t, u, ht, htu, hu⟩ := exists_shift_two_forward (hhome s hs)
    rw [northOf_forward ht, ok_bind, northOf_forward htu, ok_bind]
    exact congrArg _ (emit_doubleStep .white ht hu res)
  | black =>
    refine foldlM_split ?_ res
    intro s hs res
    obtain ⟨t, u, ht, htu, hu⟩ := exists_shift_two_forward (hhome s hs)
    rw [southOf_forward ht, ok_bind, southOf_forward htu, ok_bind]
    exact congrArg _ (emit_doubleStep .black ht hu res)

/-- The two capture blocks in a row. -/
theorem emit_captures (hb : b.Disjoint) (c : Color) (s : Square) (type : MoveType)
    (res : List Move) :
    (if toBool (b.enemies c &&& bitOf (s.shift (-1) (forward c))) = true then
      (if toBool (b.enemies c &&& bitOf (s.shift 1 (forward c))) = true then
        res ++ [⟨s.bit, bitOf (s.shift 1 (forward c)), .pawn, type, b⟩]
      else res) ++ [⟨s.bit, bitOf (s.shift (-1) (forward c)), .pawn, type, b⟩]
    else
      (if toBool (b.enemies c &&& bitOf (s.shift 1 (forward c))) = true then
        res ++ [⟨s.bit, bitOf (s.shift 1 (forward c)), .pawn, type, b⟩]
      else res)) =
    res ++ (captureMoves b.mailbox c s 1 type ++
      captureMoves b.mailbox c s (-1) type).map b.encode := by
  rw [emit_capture hb c s 1 type res, emit_capture hb c s (-1) type, List.map_append,
    List.append_assoc]

theorem appendPseudolegalPawnCaptures_eq (hb : b.Disjoint) (c : Color) (res : List Move) :
    b.appendPseudolegalPawnCaptures c res =
      .ok (res ++ (pawnCaptures b.position c).map b.encode) := by
  unfold appendPseudolegalPawnCaptures pawnCaptures
  rw [position_mailbox, ← hb.squaresOf_otherPawns c]
  cases c with
  | white =>
    refine foldlM_split ?_ res
    intro s _ res
    rw [northeastOf_bit, ok_bind, northwestOf_bit, ok_bind]
    exact congrArg _ (emit_captures hb .white s .capture res)
  | black =>
    refine foldlM_split ?_ res
    intro s _ res
    rw [southeastOf_bit, ok_bind, southwestOf_bit, ok_bind]
    exact congrArg _ (emit_captures hb .black s .capture res)

theorem appendPseudolegalEnPassantMoves_eq (h : b.Sound) (c : Color) (res : List Move) :
    b.appendPseudolegalEnPassantMoves c res =
      .ok (res ++ (enPassantMoves b.position c).map b.encode) := by
  have hb := h.disjoint
  unfold appendPseudolegalEnPassantMoves enPassantMoves
  rw [enPassantSquare_eq h.epSquare]
  cases b.position.enPassant with
  | none => simp
  | some t =>
    simp only [Option.map_some, position_mailbox, List.map_append]
    cases c with
    | white =>
      rw [if_pos rfl, southeastOf_bit, ok_bind, southwestOf_bit, ok_bind]
      rw [← List.append_assoc, ← emit_enPassant hb .white t (-1) res,
        ← emit_enPassant hb .white t 1]
      rfl
    | black =>
      rw [if_neg (by decide), northeastOf_bit, ok_bind, northwestOf_bit, ok_bind]
      rw [← List.append_assoc, ← emit_enPassant hb .black t (-1) res,
        ← emit_enPassant hb .black t 1]
      rfl

/-- The three blocks for one pawn and one kind of promotion. -/
theorem emit_promotion (hb : b.Disjoint) (c : Color) {s t : Square} (type : MoveType)
    (ht : s.shift 0 (forward c) = some t) (res : List Move) :
    (if toBool (b.enemies c &&& bitOf (s.shift (-1) (forward c))) = true then
      (if toBool (b.enemies c &&& bitOf (s.shift 1 (forward c))) = true then
        (if (!toBool (b.allPieces &&& t.bit)) = true then
          res ++ [⟨s.bit, t.bit, .pawn, type, b⟩] else res) ++
          [⟨s.bit, bitOf (s.shift 1 (forward c)), .pawn, type, b⟩]
      else
        (if (!toBool (b.allPieces &&& t.bit)) = true then
          res ++ [⟨s.bit, t.bit, .pawn, type, b⟩] else res)) ++
        [⟨s.bit, bitOf (s.shift (-1) (forward c)), .pawn, type, b⟩]
    else
      (if toBool (b.enemies c &&& bitOf (s.shift 1 (forward c))) = true then
        (if (!toBool (b.allPieces &&& t.bit)) = true then
          res ++ [⟨s.bit, t.bit, .pawn, type, b⟩] else res) ++
          [⟨s.bit, bitOf (s.shift 1 (forward c)), .pawn, type, b⟩]
      else
        (if (!toBool (b.allPieces &&& t.bit)) = true then
          res ++ [⟨s.bit, t.bit, .pawn, type, b⟩] else res))) =
    res ++ (pushMoves b.mailbox c s type ++ captureMoves b.mailbox c s 1 type ++
      captureMoves b.mailbox c s (-1) type).map b.encode := by
  rw [emit_push c s type ht res, emit_captures hb c s type]
  simp only [List.map_append, List.append_assoc]

theorem appendPseudolegalPromotions_eq (h : b.Sound) (c : Color) (res : List Move) :
    b.appendPseudolegalPromotions c res =
      .ok (res ++ (promotions b.position c).map b.encode) := by
  have hb := h.disjoint
  unfold appendPseudolegalPromotions promotions
  rw [position_mailbox, ← hb.squaresOf_pawnsAboutToPromote c]
  cases c with
  | white =>
    refine foldlM_split ?_ res
    intro s hs res
    obtain ⟨t, ht⟩ := h.exists_shift_forward (hb.mailbox_of_has_and (.white, .pawn) hs)
    rw [List.map_flatMap]
    refine foldlM_append ?_ res
    intro type _ res
    rw [northOf_forward ht, ok_bind, northeastOf_bit, ok_bind, northwestOf_bit, ok_bind]
    exact congrArg _ (emit_promotion hb .white type ht res)
  | black =>
    refine foldlM_split ?_ res
    intro s hs res
    obtain ⟨t, ht⟩ := h.exists_shift_forward (hb.mailbox_of_has_and (.black, .pawn) hs)
    rw [List.map_flatMap]
    refine foldlM_append ?_ res
    intro type _ res
    rw [southOf_forward ht, ok_bind, southeastOf_bit, ok_bind, southwestOf_bit, ok_bind]
    exact congrArg _ (emit_promotion hb .black type ht res)

theorem appendPseudolegalPawnMoves_eq (h : b.Sound) (c : Color) (res : List Move) :
    b.appendPseudolegalPawnMoves c res =
      .ok (res ++ (kindMoves b.position c .pawn).map b.encode) := by
  rw [appendPseudolegalPawnMoves, appendPseudolegalSimplePawnMoves_eq h, ok_bind,
    appendPseudolegalTwoStepPawnMoves_eq h.disjoint, ok_bind,
    appendPseudolegalPawnCaptures_eq h.disjoint, ok_bind,
    appendPseudolegalEnPassantMoves_eq h, ok_bind, appendPseudolegalPromotions_eq h, kindMoves,
    pawnMoves]
  simp only [List.map_append, List.append_assoc]

/-- `pseudolegal_moves` lists the pseudolegal moves of the position. -/
theorem pseudolegalMoves_eq (h : b.Sound) (c : Color) :
    b.pseudolegalMoves c = .ok ((pseudoMoves b.position c).map b.encode) := by
  have hb := h.disjoint
  rw [pseudolegalMoves, appendPseudolegalBishopMoves_eq hb, ok_bind,
    appendPseudolegalRookMoves_eq hb, ok_bind, appendPseudolegalQueenMoves_eq hb, ok_bind,
    appendPseudolegalPawnMoves_eq h, ok_bind, appendPseudolegalKingMoves_eq h, ok_bind,
    appendPseudolegalKnightMoves_eq hb]
  simp only [pseudoMoves, List.flatMap_cons, List.flatMap_nil, List.append_nil, List.nil_append,
    List.map_append, List.append_assoc]

end Board

end PawnGrabber
