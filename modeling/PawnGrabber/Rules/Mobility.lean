import PawnGrabber.Rules.Counting
import PawnGrabber.Rules.LegalList

/-!
# How many moves there are

No piece has more than the 27 moves of a queen in the middle of the board, so a side with `n` pieces
has at most `27 * n` legal moves. No move adds a piece, and the bound holds along a whole game.
-/

set_option autoImplicit false

namespace PawnGrabber

namespace Rules

open Square

theorem length_flatMap_le {α β : Type} {f : α → List β} {l : List α} {n : ℕ}
    (h : ∀ a ∈ l, (f a).length ≤ n) : (l.flatMap f).length ≤ l.length * n := by
  rw [List.length_flatMap]
  calc (l.map fun a => (f a).length).sum
      ≤ (l.map fun a => (f a).length).length • n :=
        List.sum_le_card_nsmul _ n (List.forall_mem_map.mpr h)
    _ = l.length * n := by rw [List.length_map, smul_eq_mul]

variable {mb : Mailbox} {p : Position} {c : Color} {k : Piece} {s : Square} {m : ChessMove}

/-! ## One piece -/

/-- A slider has at most one move for every square of its rays. -/
theorem length_slideMoves_le (vs : List (ℤ × ℤ)) :
    (vs.flatMap (slideMoves mb c k s)).length ≤ (vs.flatMap s.ray).length := by
  have hray : ∀ r : List Square, (slideMovesAlong mb c k s r).length ≤ r.length := by
    intro r
    have hfilter : ((r.dropWhile fun u => (mb u).isNone).head?.toList.filter
        fun t => Holds mb (flipColor c) t).length ≤
        (r.dropWhile fun u => (mb u).isNone).length := by
      refine (List.length_filter_le _ _).trans ?_
      cases r.dropWhile fun u => (mb u).isNone <;> simp
    have hsplit := congrArg List.length
      (List.takeWhile_append_dropWhile (p := fun u => (mb u).isNone) (l := r))
    rw [List.length_append] at hsplit
    rw [slideMovesAlong, List.length_append, List.length_map, List.length_map]
    omega
  rw [List.length_flatMap, List.length_flatMap]
  exact List.sum_le_sum fun v _ => hray (s.ray v)

/-- The first square of a ray that is off the board bounds its length. -/
theorem length_ray_le (s : Square) {v : ℤ × ℤ} (hv : IsDirection v) {n : ℕ}
    (h : s.shift ((1 + n : ℕ) * v.1) ((1 + n : ℕ) * v.2) = none) : (s.ray v).length ≤ n := by
  rw [← List.getElem?_eq_none_iff, getElem?_ray s hv]
  exact h

/-- From no square does a queen reach more than 27 squares. -/
theorem length_rays_le (s : Square) :
    (orthogonals.flatMap s.ray).length + (diagonals.flatMap s.ray).length ≤ 27 := by
  have hfile := s.file.isLt
  have hrank := s.rank.isLt
  have hray : ∀ v ∈ orthogonals ++ diagonals, ∀ n : ℕ,
      s.shift ((1 + n : ℕ) * v.1) ((1 + n : ℕ) * v.2) = none → (s.ray v).length ≤ n :=
    fun v hv n h => length_ray_le s hv h
  simp only [shift_eq_none_iff] at hray
  -- how far the edge is in each direction
  have hnorth := hray (0, 1) (by decide) (7 - s.rank) (by simp; omega)
  have hsouth := hray (0, -1) (by decide) s.rank (by simp)
  have heast := hray (1, 0) (by decide) (7 - s.file) (by simp; omega)
  have hwest := hray (-1, 0) (by decide) s.file (by simp)
  have hne := hray (1, 1) (by decide) (min (7 - s.file) (7 - s.rank)) (by simp; omega)
  have hnw := hray (-1, 1) (by decide) (min s.file (7 - s.rank)) (by simp; omega)
  have hse := hray (1, -1) (by decide) (min (7 - s.file) s.rank) (by simp; omega)
  have hsw := hray (-1, -1) (by decide) (min s.file s.rank) (by simp; omega)
  simp only [orthogonals, diagonals, List.flatMap_cons, List.flatMap_nil, List.length_append,
    List.length_nil]
  omega

theorem length_stepMoves_le (v : ℤ × ℤ) : (stepMoves mb c k s v).length ≤ 1 := by
  unfold stepMoves
  split
  · exact Nat.zero_le 1
  · split_ifs <;> simp

theorem length_pushMoves_le (type : MoveType) : (pushMoves mb c s type).length ≤ 1 := by
  rw [pushMoves, List.length_map]
  refine (List.length_filter_le _ _).trans ?_
  cases s.shift 0 (forward c) <;> simp

theorem length_doubleStepMoves_le : (doubleStepMoves mb c s).length ≤ 1 := by
  rw [doubleStepMoves, List.length_map]
  refine (List.length_filter_le _ _).trans ?_
  cases s.shift 0 (2 * forward c) <;> simp

theorem length_captureMoves_le (df : ℤ) (type : MoveType) :
    (captureMoves mb c s df type).length ≤ 1 := by
  rw [captureMoves, List.length_map]
  refine (List.length_filter_le _ _).trans ?_
  cases s.shift df (forward c) <;> simp

/-- There is no en passant capture without a pawn. -/
theorem length_enPassantFrom_le (df : ℤ) :
    (enPassantFrom mb c s df).length ≤ (squaresHolding mb c .pawn).length := by
  rw [enPassantFrom, List.length_map]
  cases s.shift df (-forward c) with
  | none => simp
  | some t =>
    by_cases ht : mb t = some (c, .pawn)
    · have hmem : t ∈ squaresHolding mb c .pawn := mem_squaresHolding.mpr ht
      exact (List.length_filter_le _ _).trans (List.length_pos_of_mem hmem)
    · simp [ht]

/-! ## One side -/

theorem length_pawnMoves_le :
    (pawnMoves p c).length ≤ (squaresHolding p.mailbox c .pawn).length * 27 := by
  have hother : (otherPawns p.mailbox c).length ≤ (squaresHolding p.mailbox c .pawn).length :=
    List.length_filter_le _ _
  have hhome : (pawnsAtHome p.mailbox c).length ≤ (squaresHolding p.mailbox c .pawn).length :=
    List.length_filter_le _ _
  have habout : (pawnsAboutToPromote p.mailbox c).length ≤
      (squaresHolding p.mailbox c .pawn).length := List.length_filter_le _ _
  have hsimple : (simplePawnMoves p c).length ≤ (otherPawns p.mailbox c).length * 1 :=
    length_flatMap_le fun s _ => length_pushMoves_le .simple
  have hdouble : (twoStepPawnMoves p c).length ≤ (pawnsAtHome p.mailbox c).length * 1 :=
    length_flatMap_le fun s _ => length_doubleStepMoves_le
  have hcaptures : (pawnCaptures p c).length ≤ (otherPawns p.mailbox c).length * 2 := by
    apply length_flatMap_le
    intro s _
    rw [List.length_append]
    exact Nat.add_le_add (length_captureMoves_le 1 .capture) (length_captureMoves_le (-1) .capture)
  have hpassant : (enPassantMoves p c).length ≤
      (squaresHolding p.mailbox c .pawn).length * 2 := by
    unfold enPassantMoves
    split
    · exact Nat.zero_le _
    · rw [List.length_append, mul_two]
      exact Nat.add_le_add (length_enPassantFrom_le (-1)) (length_enPassantFrom_le 1)
  have hpromotions : (promotions p c).length ≤
      (pawnsAboutToPromote p.mailbox c).length * (promotionMoveTypes.length * 3) := by
    apply length_flatMap_le
    intro s _
    apply length_flatMap_le
    intro type _
    rw [List.length_append, List.length_append]
    exact Nat.add_le_add (Nat.add_le_add (length_pushMoves_le type)
      (length_captureMoves_le 1 type)) (length_captureMoves_le (-1) type)
  have htypes : promotionMoveTypes.length = 4 := rfl
  rw [htypes] at hpromotions
  rw [pawnMoves, List.length_append, List.length_append, List.length_append, List.length_append]
  omega

/-- The moves of the pieces of one kind; kings and knights have at most 8. -/
theorem length_kindMoves_le (p : Position) (c : Color) (k : Piece) :
    (kindMoves p c k).length ≤
      (squaresHolding p.mailbox c k).length * if k = .king then 8 else 27 := by
  cases k with
  | pawn => exact length_pawnMoves_le
  | bishop =>
    apply length_flatMap_le
    intro s _
    have := length_rays_le s
    exact (length_slideMoves_le diagonals).trans (by simp only [reduceCtorEq, if_false]; omega)
  | rook =>
    apply length_flatMap_le
    intro s _
    have := length_rays_le s
    exact (length_slideMoves_le orthogonals).trans (by simp only [reduceCtorEq, if_false]; omega)
  | queen =>
    apply length_flatMap_le
    intro s _
    refine (length_slideMoves_le (orthogonals ++ diagonals)).trans ?_
    rw [List.flatMap_append, List.length_append]
    exact length_rays_le s
  | king =>
    apply length_flatMap_le
    intro s _
    exact length_flatMap_le (n := 1) fun v _ => length_stepMoves_le v
  | knight =>
    apply length_flatMap_le
    intro s _
    have hleaps : (knightLeaps.flatMap (stepMoves p.mailbox c .knight s)).length ≤
        knightLeaps.length * 1 := length_flatMap_le fun v _ => length_stepMoves_le v
    exact hleaps.trans (by decide)

theorem length_squaresHolding (mb : Mailbox) (c : Color) (k : Piece) :
    (squaresHolding mb c k).length = count (· == (c, k)) mb := by
  rw [← List.toFinset_card_of_nodup nodup_squaresHolding, count]
  congr 1
  ext s
  rw [List.mem_toFinset, mem_squaresHolding, Finset.mem_filter, Option.any_eq_true]
  simp

theorem count_eq_sum (q : Color × Piece → Bool) (mb : Mailbox) :
    count q mb = ∑ s, ((mb s).any q).toNat := by
  rw [count, Finset.card_filter]
  apply Finset.sum_congr rfl
  intro s _
  cases (mb s).any q <;> rfl

/-- The pieces of a side, kind by kind. -/
theorem count_color (mb : Mailbox) (c : Color) :
    count (fun x => decide (x.1 = c)) mb =
      count (· == (c, .pawn)) mb + count (· == (c, .rook)) mb + count (· == (c, .knight)) mb +
        count (· == (c, .bishop)) mb + count (· == (c, .queen)) mb +
        count (· == (c, .king)) mb := by
  simp only [count_eq_sum, ← Finset.sum_add_distrib]
  apply Finset.sum_congr rfl
  intro s _
  have hsquare : ∀ (c : Color) (x : Option (Color × Piece)),
      (x.any fun x => decide (x.1 = c)).toNat =
        (x.any (· == (c, .pawn))).toNat + (x.any (· == (c, .rook))).toNat +
          (x.any (· == (c, .knight))).toNat + (x.any (· == (c, .bishop))).toNat +
          (x.any (· == (c, .queen))).toNat + (x.any (· == (c, .king))).toNat := by
    decide
  exact hsquare c (mb s)

/-- A side has at most 27 legal moves for each of its pieces. -/
theorem length_legalList_le (hp : p.WellFormed) :
    (legalList p).length ≤ 27 * count (fun x => decide (x.1 = p.side)) p.mailbox := by
  have hking : 1 ≤ (squaresHolding p.mailbox p.side .king).length := by
    obtain ⟨s, hs, -⟩ := hp.king p.side
    exact List.length_pos_of_mem (mem_squaresHolding.mpr hs)
  have hcastlings : (castlings p p.side).length ≤ 2 := by
    rw [castlings, List.length_map]
    exact List.length_filter_le _ _
  have hfilter := List.length_filter_le
    (fun m => !decide (KingAttacked (p.mailboxAfter m) p.side)) (pseudoMoves p p.side)
  have hkind := length_kindMoves_le p p.side
  have hpawn := hkind .pawn
  have hrook := hkind .rook
  have hknight := hkind .knight
  have hbishop := hkind .bishop
  have hqueen := hkind .queen
  have hkings := hkind .king
  have hpseudo : (pseudoMoves p p.side).length = (kindMoves p p.side .bishop).length +
      ((kindMoves p p.side .rook).length + ((kindMoves p p.side .queen).length +
        ((kindMoves p p.side .pawn).length + ((kindMoves p p.side .king).length +
          ((kindMoves p p.side .knight).length + 0))))) := by
    rw [pseudoMoves, List.length_flatMap]
    rfl
  simp only [reduceCtorEq, if_false, if_true] at hpawn hrook hknight hbishop hqueen hkings
  rw [count_color, legalList, List.length_append]
  simp only [← length_squaresHolding]
  omega

/-! ## A whole game -/

/-- A move gives neither side another piece. -/
theorem Performable.count_color_le (hp : p.WellFormed) (h : Performable p m) (c : Color) :
    count (fun x => decide (x.1 = c)) (p.mailboxAfter m) ≤
      count (fun x => decide (x.1 = c)) p.mailbox := by
  have hcount := h.count_after hp fun x => decide (x.1 = c)
  simp only at hcount
  omega

end Rules

end PawnGrabber
