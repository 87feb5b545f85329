import PawnGrabber.Rules.Evaluation

/-!
# Material over the course of a game

A move takes pieces off the board and puts pieces on it: a captured piece disappears, and with a
promotion a pawn does and another piece appears. Counted with a weight for every piece, the board
loses what disappears and gains what appears. With a pawn counted as the queen it may become, no
move makes a side richer.
-/

set_option autoImplicit false

namespace PawnGrabber

namespace Rules

variable {p : Position} {m : ChessMove}

/-! ## What disappears and what appears -/

/-- The pieces a move takes off the board: the captured one, and a promoted pawn. -/
def removed (p : Position) (m : ChessMove) : List (Color × Piece) :=
  (captured p m).toList ++ if m.type ∈ promotionMoveTypes then [(p.side, .pawn)] else []

/-- The pieces a move puts on the board: what a pawn is promoted to. -/
def added (p : Position) (m : ChessMove) : List (Color × Piece) :=
  if m.type ∈ promotionMoveTypes then [(p.side, m.placed)] else []

/-- Only a promotion changes the piece that moves. -/
theorem Performable.placed_cases (h : Performable p m) :
    m.type ∈ promotionMoveTypes ∧ m.piece = .pawn ∨
      m.type ∉ promotionMoveTypes ∧ m.placed = m.piece := by
  unfold ChessMove.placed
  cases h.shape with
  | simple type _ => simp [type, promotionMoveTypes]
  | capture type _ => simp [type, promotionMoveTypes]
  | twoStepPawn type _ _ => simp [type, promotionMoveTypes]
  | enPassant type _ _ _ => simp [type, promotionMoveTypes]
  | promotion type piece _ _ => exact Or.inl ⟨type, piece⟩
  | castle w _ eq => cases w <;> simp [eq, castleMove, castleType, promotionMoveTypes]

/-- The number of pieces of one kind after a move. -/
theorem Performable.count_piece (hp : p.WellFormed) (h : Performable p m) (x : Color × Piece) :
    count (· == x) (p.mailboxAfter m) + (removed p m).count x =
      count (· == x) p.mailbox + (added p m).count x := by
  have hcount := h.count_after hp (· == x)
  have hcaptured : (captured p m).toList.count x = ((captured p m).any (· == x)).toNat := by
    cases captured p m with
    | none => rfl
    | some y =>
      rw [Option.toList_some, Option.any_some, List.count_singleton]
      cases y == x <;> rfl
  have hsingle : ∀ y : Color × Piece, [y].count x = (y == x).toNat := by
    intro y
    rw [List.count_singleton]
    cases y == x <;> rfl
  rw [removed, added, List.count_append, hcaptured]
  rcases h.placed_cases with ⟨htype, hpiece⟩ | ⟨htype, hplaced⟩
  · rw [if_pos htype, if_pos htype, hsingle, hsingle]
    rw [hpiece] at hcount
    omega
  · rw [if_neg htype, if_neg htype, List.count_nil]
    rw [hplaced] at hcount
    omega

/-! ## Weights -/

/-- The sum of the weights of all pieces. -/
def weight (w : Color × Piece → ℤ) (mb : Mailbox) : ℤ := ∑ s : Square, (mb s).elim 0 w

theorem weight_eq_sum_count (w : Color × Piece → ℤ) (mb : Mailbox) :
    weight w mb = ∑ x : Color × Piece, (count (· == x) mb : ℤ) * w x := by
  have hcount : ∀ x : Color × Piece, (count (· == x) mb : ℤ) * w x =
      ∑ s : Square, if mb s = some x then w x else 0 := by
    intro x
    rw [count, Finset.card_filter]
    push_cast
    rw [Finset.sum_mul]
    apply Finset.sum_congr rfl
    intro s _
    cases mb s with
    | none => simp
    | some y => by_cases hy : y = x <;> simp [hy]
  simp only [hcount]
  rw [Finset.sum_comm, weight]
  apply Finset.sum_congr rfl
  intro s _
  cases mb s with
  | none => simp
  | some y => simp

theorem sum_count_mul (w : Color × Piece → ℤ) (l : List (Color × Piece)) :
    ∑ x : Color × Piece, (l.count x : ℤ) * w x = (l.map w).sum := by
  induction l with
  | nil => simp
  | cons y l ih =>
    have hsplit : ∀ x, ((y :: l).count x : ℤ) * w x =
        (l.count x : ℤ) * w x + if y = x then w x else 0 := by
      intro x
      rw [List.count_cons]
      by_cases hy : y = x
      · simp [hy, add_mul]
      · simp [hy]
    simp only [hsplit, Finset.sum_add_distrib, ih]
    rw [Finset.sum_ite_eq, if_pos (Finset.mem_univ y), List.map_cons, List.sum_cons, add_comm]

/-- The weight of the board after a move. -/
theorem Performable.weight_after (hp : p.WellFormed) (h : Performable p m)
    (w : Color × Piece → ℤ) :
    weight w (p.mailboxAfter m) + ((removed p m).map w).sum =
      weight w p.mailbox + ((added p m).map w).sum := by
  rw [weight_eq_sum_count, weight_eq_sum_count, ← sum_count_mul, ← sum_count_mul,
    ← Finset.sum_add_distrib, ← Finset.sum_add_distrib]
  apply Finset.sum_congr rfl
  intro x _
  have hcount := h.count_piece hp x
  rw [← add_mul, ← add_mul]
  congr 1
  exact_mod_cast hcount

/-! ## Promotable material -/

/-- What a piece may be worth in the end: a pawn counts as the queen it may become. -/
def promotableValue : Piece → ℤ
  | .pawn => 9
  | k => pieceValue k

/-- The promotable material of one side. -/
def promotable (c : Color) (mb : Mailbox) : ℤ :=
  weight (fun x => if x.1 = c then promotableValue x.2 else 0) mb

theorem promotableValue_nonneg (k : Piece) : 0 ≤ promotableValue k ∧ promotableValue k ≤ 9 := by
  cases k <;> decide

/-- No move makes a side richer. -/
theorem Performable.promotable_le (hp : p.WellFormed) (h : Performable p m) (c : Color) :
    promotable c (p.mailboxAfter m) ≤ promotable c p.mailbox := by
  have hafter := h.weight_after hp fun x => if x.1 = c then promotableValue x.2 else 0
  have hcaptured : 0 ≤ ((captured p m).toList.map
      fun x => if x.1 = c then promotableValue x.2 else 0).sum := by
    apply List.sum_nonneg
    intro v hv
    obtain ⟨x, -, rfl⟩ := List.mem_map.mp hv
    split_ifs
    · exact (promotableValue_nonneg x.2).1
    · exact le_rfl
  have hplaced := (promotableValue_nonneg m.placed).2
  have hpawn : promotableValue .pawn = 9 := rfl
  rw [removed, added, List.map_append, List.sum_append] at hafter
  unfold promotable
  by_cases htype : m.type ∈ promotionMoveTypes
  · rw [if_pos htype, if_pos htype, List.map_singleton, List.map_singleton, List.sum_singleton,
      List.sum_singleton] at hafter
    by_cases hc : p.side = c
    · simp only [hc, if_true, hpawn] at hafter
      omega
    · simp only [hc, if_false] at hafter
      omega
  · rw [if_neg htype, if_neg htype] at hafter
    simp only [List.map_nil, List.sum_nil] at hafter
    omega

/-- The material balance is no more than what either side may come to have. -/
theorem material_bounds (mb : Mailbox) :
    -promotable .black mb ≤ material mb ∧ material mb ≤ promotable .white mb := by
  have hsquare : ∀ x : Option (Color × Piece),
      -(x.elim 0 fun x => if x.1 = .black then promotableValue x.2 else 0) ≤ squareValue x ∧
        squareValue x ≤ x.elim 0 fun x => if x.1 = .white then promotableValue x.2 else 0 := by
    decide
  constructor
  · rw [promotable, weight, ← Finset.sum_neg_distrib]
    exact Finset.sum_le_sum fun s _ => (hsquare (mb s)).1
  · exact Finset.sum_le_sum fun s _ => (hsquare (mb s)).2

end Rules

end PawnGrabber
