import PawnGrabber.Analysis.Mailbox
import PawnGrabber.Rules.MoveLists

/-!
# The generators append the pseudolegal moves

Each `append_pseudolegal_*` method, run on a board whose bitboards are disjoint and whose
pawns keep off the end ranks, returns normally and appends one of the lists of
`Rules.MoveLists`, written as moves of the program. The emission lemmas say what one `if`
of a generator appends; the rest is running through the loops.
-/

set_option autoImplicit false

namespace PawnGrabber

open ExceptFold Rules Square

namespace Board

/-- A move of the rules as the program writes it, with its snapshot of the board. -/
def encode (b : Board) (m : ChessMove) : Move :=
  ⟨m.src.bit, m.dst.bit, m.piece, m.type, b⟩

@[simp] theorem encode_srcSquare (b : Board) (m : ChessMove) :
    (b.encode m).srcSquare = m.src.bit := rfl

@[simp] theorem encode_dstSquare (b : Board) (m : ChessMove) :
    (b.encode m).dstSquare = m.dst.bit := rfl

@[simp] theorem encode_moveType (b : Board) (m : ChessMove) : (b.encode m).moveType = m.type := rfl

theorem encode_injective (b : Board) : Function.Injective b.encode := by
  rintro ⟨s, t, k, ty⟩ ⟨s', t', k', ty'⟩ h
  simpa [encode] using h

variable {b : Board}

/-- White's pawns go north. -/
theorem northOf_forward {s t : Square} (h : s.shift 0 (forward .white) = some t) :
    northOf s.bit = .ok t.bit := by
  have hshift : s.shift 0 1 = some t := h
  rw [northOf_bit, hshift, bitOf_some]

/-- Black's pawns go south. -/
theorem southOf_forward {s t : Square} (h : s.shift 0 (forward .black) = some t) :
    southOf s.bit = .ok t.bit := by
  have hshift : s.shift 0 (-1) = some t := h
  rw [southOf_bit, hshift, bitOf_some]

/-! ## Loops over squares and directions -/

theorem foldlM_split {bb : Bitboard} {f : List Move → Bitboard → Checked (List Move)}
    {g : Square → List ChessMove}
    (h : ∀ s, has bb s = true → ∀ res, f res s.bit = .ok (res ++ (g s).map b.encode))
    (res : List Move) :
    (bitboardSplit bb).foldlM f res = .ok (res ++ ((squaresOf bb).flatMap g).map b.encode) := by
  rw [bitboardSplit_eq, List.foldlM_map, foldlM_append (g := fun s => (g s).map b.encode)
    fun s hs res => h s (mem_squaresOf.mp hs) res, List.map_flatMap]

theorem foldlM_directions {α : Type} {dirs : List α} {offset : α → ℤ × ℤ}
    {f : List Move → α → Checked (List Move)} {g : ℤ × ℤ → List ChessMove}
    (h : ∀ d ∈ dirs, ∀ res, f res d = .ok (res ++ (g (offset d)).map b.encode))
    (res : List Move) :
    dirs.foldlM f res = .ok (res ++ ((dirs.map offset).flatMap g).map b.encode) := by
  rw [foldlM_append (g := fun d => (g (offset d)).map b.encode) h, List.map_flatMap,
    List.flatMap_map]

/-- The squares of one of the twelve bitboards. -/
theorem Disjoint.squaresOf_bitboard (hb : b.Disjoint) (c : Color) (k : Piece) :
    squaresOf (b.bitboard (c, k)) = squaresHolding b.mailbox c k := by
  rw [squaresOf, squaresHolding]
  exact List.filter_congr fun s _ => hb.has_bitboard (c, k) s

/-- The squares of a bitboard that satisfy a condition given by a mask. -/
theorem Disjoint.squaresOf_and (hb : b.Disjoint) {c : Color} {k : Piece} {mask : Bitboard}
    {q : Square → Bool} (hq : ∀ s, has mask s = q s) :
    squaresOf (b.bitboard (c, k) &&& mask) = (squaresHolding b.mailbox c k).filter q := by
  rw [squaresOf, squaresHolding, List.filter_filter]
  apply List.filter_congr
  intro s _
  rw [has_and, hb.has_bitboard, hq, Bool.and_comm]

/-! ## Sliding pieces -/

theorem offset_isDirection (d : Direction) : IsDirection d.offset := by
  cases d <;> simp [IsDirection, Direction.offset, orthogonals, diagonals]

/-- What the loop of `append_pseudolegal_sliding_moves` appends on its way along a list of
squares: a simple move to each empty one in front, and a capture of the one behind them if an
enemy stands on it. -/
def slidesAlong (b : Board) (c : Color) (k : Piece) (s : Square) (r : List Square) : List Move :=
  (r.takeWhile fun t => !has b.allPieces t).map (fun t => ⟨s.bit, t.bit, k, .simple, b⟩) ++
    ((r.dropWhile fun t => !has b.allPieces t).head?.toList.filter (has (b.enemies c))).map
      fun t => ⟨s.bit, t.bit, k, .capture, b⟩

section Sliding

variable {c : Color} {k : Piece} {s t : Square} {r : List Square}

theorem slidesAlong_nil : b.slidesAlong c k s [] = [] := rfl

theorem slidesAlong_cons_empty (ht : has b.allPieces t = false) :
    b.slidesAlong c k s (t :: r) = ⟨s.bit, t.bit, k, .simple, b⟩ :: b.slidesAlong c k s r := by
  simp [slidesAlong, ht]

theorem slidesAlong_cons_occupied (ht : has b.allPieces t = true) :
    b.slidesAlong c k s (t :: r) =
      if has (b.enemies c) t then [⟨s.bit, t.bit, k, .capture, b⟩] else [] := by
  cases he : has (b.enemies c) t <;> simp [slidesAlong, ht, he]

/-- On disjoint bitboards these are the moves of the rules. -/
theorem Disjoint.slidesAlong_eq (hb : b.Disjoint) :
    b.slidesAlong c k s r = (slideMovesAlong b.mailbox c k s r).map b.encode := by
  have hempty : ∀ t, (!has b.allPieces t) = (b.mailbox t).isNone := by
    intro t
    rw [has_allPieces]
    cases b.mailbox t <;> rfl
  have henemy : ∀ t, has (b.enemies c) t = decide (Holds b.mailbox (flipColor c) t) :=
    fun t => hb.has_enemies c t
  rw [slidesAlong, slideMovesAlong, List.map_append, List.map_map, List.map_map]
  simp only [hempty, funext henemy]
  rfl

end Sliding

/-- The loop of `append_pseudolegal_sliding_moves`, entered `n` steps from the source with
more rounds than there are squares left: each round moves `currSquare` one step on, and the
first occupied square or the edge ends it. -/
theorem appendSlidingLoop_eq (b : Board) (d : Direction) (c : Color) (k : Piece)
    (s : Square) (fuel n : ℕ)
    (hend : s.shift ((n + fuel : ℕ) * d.offset.1) ((n + fuel : ℕ) * d.offset.2) = none)
    (res : List Move) :
    b.appendSlidingLoop (directionToFunction d) c s.bit k fuel
        (bitOf (s.shift (n * d.offset.1) (n * d.offset.2))) res =
      .ok (res ++ b.slidesAlong c k s (s.rayFrom d.offset fuel n)) := by
  induction fuel generalizing n res with
  | zero =>
    rw [Nat.add_zero] at hend
    rw [hend, appendSlidingLoop]
    simp [rayFrom, slidesAlong_nil]
  | succ fuel ih =>
    rw [rayFrom, appendSlidingLoop]
    cases hsq : s.shift (n * d.offset.1) (n * d.offset.2) with
    | none => simp [slidesAlong_nil]
    | some t =>
      simp only [bitOf_some, toBool_bit, toBool_bit_and, Bool.true_and]
      cases ht : has b.allPieces t with
      | false =>
        have hnext : t.shift d.offset.1 d.offset.2 =
            s.shift ((n + 1 : ℕ) * d.offset.1) ((n + 1 : ℕ) * d.offset.2) := by
          rw [shift_shift hsq]
          congr 1 <;> push_cast <;> ring
        have hend' : s.shift ((n + 1 + fuel : ℕ) * d.offset.1)
            ((n + 1 + fuel : ℕ) * d.offset.2) = none := by
          rwa [show n + 1 + fuel = n + (fuel + 1) by omega]
        simp only [Bool.not_false, if_true]
        rw [directionToFunction_bit, ok_bind, hnext, ih (n + 1) hend', slidesAlong_cons_empty ht]
        simp
      | true =>
        simp only [Bool.not_true, Bool.false_eq_true, if_false]
        rw [slidesAlong_cons_occupied ht]
        split_ifs <;> simp

/-- More rounds than a ray can have squares make no difference. -/
theorem appendSlidingLoop_fuel (b : Board) (d : Direction) (c : Color) (k : Piece)
    (s : Square) {fuel : ℕ} (hfuel : boardSize ≤ fuel) (res : List Move) :
    b.appendSlidingLoop (directionToFunction d) c s.bit k fuel
        (bitOf (s.shift d.offset.1 d.offset.2)) res =
      b.appendSlidingLoop (directionToFunction d) c s.bit k boardSize
        (bitOf (s.shift d.offset.1 d.offset.2)) res := by
  have hone : s.shift d.offset.1 d.offset.2 =
      s.shift ((1 : ℕ) * d.offset.1) ((1 : ℕ) * d.offset.2) := by simp
  have hsize : boardSize = 8 := rfl
  rw [hone, appendSlidingLoop_eq, appendSlidingLoop_eq]
  · obtain ⟨extra, rfl⟩ := Nat.exists_eq_add_of_le hfuel
    rw [rayFrom_add (offset_isDirection d) (by omega)]
  · exact shift_mul_none_of_lt (offset_isDirection d) (by omega)
  · exact shift_mul_none_of_lt (offset_isDirection d) (by omega)

/-- One direction of a sliding piece, on any bitboards. -/
theorem appendPseudolegalSlidingMoves_eq (b : Board) (d : Direction) {c : Color} (k : Piece)
    {s : Square} (hs : has (b.friends c) s = true) (res : List Move) :
    b.appendPseudolegalSlidingMoves d c s.bit k res =
      .ok (res ++ b.slidesAlong c k s (s.ray d.offset)) := by
  have hone : s.shift d.offset.1 d.offset.2 =
      s.shift ((1 : ℕ) * d.offset.1) ((1 : ℕ) * d.offset.2) := by simp
  rw [appendPseudolegalSlidingMoves, toBool_bit_and, hs]
  simp only [rawCheck, if_true, pure_eq_ok, ok_bind, directionToFunction_bit]
  rw [hone, appendSlidingLoop_eq]
  · rfl
  · exact shift_mul_none_of_lt (offset_isDirection d) (by decide)

/-- The moves of all sliders of one kind. -/
theorem foldlM_sliders (hb : b.Disjoint) (c : Color) (k : Piece) (dirs : List Direction)
    (res : List Move) :
    ((bitboardSplit (b.bitboard (c, k))).foldlM (fun res sq =>
        dirs.foldlM (fun res dir => b.appendPseudolegalSlidingMoves dir c sq k res) res) res) =
      .ok (res ++ ((squaresHolding b.mailbox c k).flatMap fun s =>
        (dirs.map Direction.offset).flatMap (slideMoves b.mailbox c k s)).map b.encode) := by
  rw [foldlM_split (g := fun s => (dirs.map Direction.offset).flatMap
    (slideMoves b.mailbox c k s)) ?_, hb.squaresOf_bitboard]
  intro s hs res
  have hfriend : has (b.friends c) s = true := (has_pieces_iff s c).mpr ⟨k, hs⟩
  refine foldlM_directions ?_ res
  intro d _ res
  rw [appendPseudolegalSlidingMoves_eq b d k hfriend, hb.slidesAlong_eq]
  rfl

theorem appendPseudolegalBishopMoves_eq (hb : b.Disjoint) (c : Color) (res : List Move) :
    b.appendPseudolegalBishopMoves c res =
      .ok (res ++ (kindMoves b.position c .bishop).map b.encode) := by
  rw [appendPseudolegalBishopMoves, show (if c = .white then b.whiteBishops
    else b.blackBishops) = b.bitboard (c, .bishop) by cases c <;> rfl]
  exact foldlM_sliders hb c .bishop bishopMoveDirections res

theorem appendPseudolegalRookMoves_eq (hb : b.Disjoint) (c : Color) (res : List Move) :
    b.appendPseudolegalRookMoves c res =
      .ok (res ++ (kindMoves b.position c .rook).map b.encode) := by
  rw [appendPseudolegalRookMoves, show (if c = .white then b.whiteRooks
    else b.blackRooks) = b.bitboard (c, .rook) by cases c <;> rfl]
  exact foldlM_sliders hb c .rook rookMoveDirections res

theorem appendPseudolegalQueenMoves_eq (hb : b.Disjoint) (c : Color) (res : List Move) :
    b.appendPseudolegalQueenMoves c res =
      .ok (res ++ (kindMoves b.position c .queen).map b.encode) := by
  rw [appendPseudolegalQueenMoves, show (if c = .white then b.whiteQueens
    else b.blackQueens) = b.bitboard (c, .queen) by cases c <;> rfl]
  exact foldlM_sliders hb c .queen allDirections res

/-! ## Kings and knights -/

/-- What one round of the king's or a knight's loop appends. -/
theorem emit_step (hb : b.Disjoint) (c : Color) (k : Piece) (s : Square) (v : ℤ × ℤ)
    (res : List Move) :
    (if toBool (bitOf (s.shift v.1 v.2)) && !toBool (bitOf (s.shift v.1 v.2) &&& b.friends c) then
      res ++ [⟨s.bit, bitOf (s.shift v.1 v.2), k,
        if toBool (bitOf (s.shift v.1 v.2) &&& b.enemies c) then .capture else .simple, b⟩]
    else res) = res ++ (stepMoves b.mailbox c k s v).map b.encode := by
  unfold stepMoves
  cases s.shift v.1 v.2 with
  | none => simp
  | some t =>
    simp only [bitOf_some, toBool_bit, toBool_bit_and, hb.has_friends, hb.has_enemies,
      Bool.true_and, Bool.not_eq_true', decide_eq_false_iff_not, decide_eq_true_eq]
    by_cases hf : Holds b.mailbox c t <;> by_cases he : Holds b.mailbox (flipColor c) t <;>
      simp [hf, he, encode]

theorem appendPseudolegalKingMoves_eq (h : b.Sound) (c : Color) (res : List Move) :
    b.appendPseudolegalKingMoves c res =
      .ok (res ++ (kindMoves b.position c .king).map b.encode) := by
  obtain ⟨s, hs, hbit⟩ := h.king_eq c
  have hsq : squaresHolding b.mailbox c .king = [s] := by
    rw [← h.disjoint.squaresOf_bitboard, hbit, squaresOf_bit]
  rw [appendPseudolegalKingMoves, show (if c = .white then b.whiteKing else b.blackKing) = s.bit by
    rw [← hbit]; cases c <;> rfl]
  simp only [directionToFunction_bit, ok_bind, pure_eq_ok]
  rw [foldlM_directions (g := stepMoves b.mailbox c .king s)
    fun d _ res => congrArg _ (emit_step h.disjoint c .king s d.offset res)]
  rw [kindMoves, position_mailbox, hsq]
  simp [allDirections, orthogonals, diagonals, Direction.offset]

/-- The two steps of a knight's move add up to a leap. -/
def leapOffset (d : Direction × Direction) : ℤ × ℤ :=
  (d.1.offset.1 + d.2.offset.1, d.1.offset.2 + d.2.offset.2)

/-- Where the first of the two steps leaves the board, so does the leap. -/
theorem shift_leap_none {d : Direction × Direction} (hd : d ∈ knightMoveDirections) {s : Square}
    (h : s.shift d.1.offset.1 d.1.offset.2 = none) :
    s.shift (leapOffset d).1 (leapOffset d).2 = none := by
  rw [shift_eq_none_iff] at h ⊢
  have := s.file.isLt
  have := s.rank.isLt
  simp only [knightMoveDirections, List.mem_cons, List.not_mem_nil, or_false] at hd
  rcases hd with rfl | rfl | rfl | rfl | rfl | rfl | rfl | rfl <;>
    simp only [leapOffset, Direction.offset] at h ⊢ <;> omega

theorem appendPseudolegalKnightMoves_eq (hb : b.Disjoint) (c : Color) (res : List Move) :
    b.appendPseudolegalKnightMoves c res =
      .ok (res ++ (kindMoves b.position c .knight).map b.encode) := by
  rw [appendPseudolegalKnightMoves, show (if c = .white then b.whiteKnights
    else b.blackKnights) = b.bitboard (c, .knight) by cases c <;> rfl]
  rw [foldlM_split (g := fun s => (knightMoveDirections.map leapOffset).flatMap
    (stepMoves b.mailbox c .knight s)) ?_, hb.squaresOf_bitboard]
  · rfl
  · intro s _ res
    refine foldlM_directions ?_ res
    intro d hd res
    rw [directionToFunction_bit, ok_bind]
    cases hfirst : s.shift d.1.offset.1 d.1.offset.2 with
    | none =>
      have hleap := shift_leap_none hd hfirst
      simp [stepMoves, hleap]
    | some u =>
      have hleap : u.shift d.2.offset.1 d.2.offset.2 =
          s.shift (leapOffset d).1 (leapOffset d).2 := shift_shift hfirst _ _
      rw [bitOf_some, toBool_bit, if_pos rfl, directionToFunction_bit, ok_bind, hleap]
      exact congrArg _ (emit_step hb c .knight s (leapOffset d) res)

end Board

end PawnGrabber
