import PawnGrabber.Rules.Counting
import PawnGrabber.Analysis.ChessGame

/-!
# Captures and what they remove

The capture filter looks at the destination of a move, `do_move` at its type. The two agree
on every legal move but en passant captures, which arrive on an empty square. A move that the
filter lets through removes one piece other than a king, so the recursion of
`quiescence_search`, which has no depth limit, is no deeper than there are such pieces.
-/

set_option autoImplicit false

namespace PawnGrabber

open ExceptFold Rules

namespace Board

variable {b b' : Board} {m : ChessMove}

/-! ## Piece counts -/

/-- The number of pieces of `c` besides its king. -/
def nonKingCount (b : Board) (c : Color) : ℕ :=
  popCount (b.friends c &&& ~~~b.bitboard (c, .king))

/-- `do_move` of the move leaves the enemy with one piece fewer. -/
def removesEnemy (b : Board) (move : Move) : Bool :=
  match b.doMove move with
  | .ok b' => popCount (b'.enemies b.sideToMove) + 1 == popCount (b.enemies b.sideToMove)
  | .error _ => false

theorem popCount_eq_count {mask : Bitboard} {q : Color × Piece → Bool}
    (h : ∀ s, has mask s = (b.mailbox s).any q) : popCount mask = count q b.mailbox := by
  rw [popCount_eq, count]
  exact congrArg Finset.card (Finset.filter_congr fun s _ => by rw [h])

theorem Disjoint.popCount_friends (hb : b.Disjoint) (c : Color) :
    popCount (b.friends c) = count (fun x => decide (x.1 = c)) b.mailbox := by
  apply popCount_eq_count
  intro s
  rw [hb.has_friends, Bool.eq_iff_iff, decide_eq_true_eq]
  unfold Holds
  rcases b.mailbox s with _ | ⟨c', k⟩ <;> simp

theorem Disjoint.nonKingCount_eq (hb : b.Disjoint) (c : Color) :
    b.nonKingCount c =
      count (fun x => decide (x.1 = c) && decide (x.2 ≠ .king)) b.mailbox := by
  apply popCount_eq_count
  intro s
  rw [has_and, has_not, hb.has_friends, hb.has_bitboard, Bool.eq_iff_iff, Bool.and_eq_true,
    decide_eq_true_eq]
  unfold Holds
  rcases b.mailbox s with _ | ⟨c', k⟩
  · simp
  · by_cases hc : c' = c <;> simp [hc]

/-! ## The capture filter -/

/-- A legal move removes an enemy piece if it takes anything. -/
theorem removesEnemy_encode (h : b.WellFormed) (hm : b.position.Legal m) :
    b.removesEnemy (b.encode m) = (captured b.position m).isSome := by
  obtain ⟨b', hdo, hwf, hposition⟩ := doMove_of_legal h hm
  have hmailbox : b'.mailbox = b.position.mailboxAfter m := congrArg Position.mailbox hposition
  have hcount := hm.performable.count_after h.position
    fun x => decide (x.1 = flipColor b.sideToMove)
  rw [removesEnemy, hdo]
  simp only [enemies_eq, hwf.disjoint.popCount_friends, h.disjoint.popCount_friends, hmailbox]
  rw [Bool.eq_iff_iff, beq_iff_eq]
  cases hx : captured b.position m with
  | none =>
    rw [hx] at hcount
    simp at hcount ⊢
    omega
  | some x =>
    obtain ⟨hcolor, -⟩ := hm.performable.of_captured h.position (k := x.2) hx
    rw [hx] at hcount
    simp [hcolor] at hcount ⊢
    omega

theorem legalCaptureMoves_eq_filter (h : b.WellFormed) :
    b.legalCaptureMoves = .ok (((legalList b.position).map b.encode).filter b.isCaptureMove) := by
  rw [legalCaptureMoves, legalMoves_eq h]
  rfl

theorem isCaptureMove_encode (hb : b.Disjoint) (m : ChessMove) :
    b.isCaptureMove (b.encode m) =
      decide (Holds b.mailbox (flipColor b.sideToMove) m.dst) := by
  rw [isCaptureMove, encode_dstSquare, toBool_bit_and, hb.has_enemies]

/-- The filter and `do_move` agree on all legal moves but en passant captures. -/
theorem isCaptureMove_eq_removesEnemy_iff (h : b.WellFormed) (hm : b.position.Legal m) :
    b.isCaptureMove (b.encode m) = b.removesEnemy (b.encode m) ↔ m.type ≠ .enPassant := by
  rw [isCaptureMove_encode h.disjoint, removesEnemy_encode h hm]
  constructor
  · intro heq htype
    have hempty : b.mailbox m.dst = none :=
      (h.position.enPassant _ (hm.performable.enPassant_target htype)).1
    rw [captured_of_enPassant h.position hm.performable htype, Option.isSome_some,
      decide_eq_true_eq] at heq
    exact heq.ne_none hempty
  · intro htype
    rw [captured, if_neg htype, Bool.eq_iff_iff, decide_eq_true_eq, Option.isSome_iff_ne_none]
    constructor
    · exact Holds.ne_none
    · intro hd
      exact (holds_or_holds b.sideToMove hd).resolve_left (hm.performable.dst h.position)

/-- Two filters of a list agree if their tests do on its members. -/
theorem filter_eq_filter_iff {α : Type} {q q' : α → Bool} {l : List α} :
    l.filter q = l.filter q' ↔ ∀ x ∈ l, q x = q' x := by
  refine ⟨?_, List.filter_congr⟩
  intro heq x hx
  have hmem : x ∈ l.filter q ↔ x ∈ l.filter q' := by rw [heq]
  rw [List.mem_filter, List.mem_filter] at hmem
  rw [Bool.eq_iff_iff]
  tauto

/-- `legal_capture_moves` lists the moves that remove an enemy piece unless one of them is an
en passant capture. -/
theorem filter_isCaptureMove_iff (h : b.WellFormed) :
    ((legalList b.position).map b.encode).filter b.isCaptureMove =
        ((legalList b.position).map b.encode).filter b.removesEnemy ↔
      ∀ m, b.position.Legal m → m.type ≠ .enPassant := by
  rw [filter_eq_filter_iff, List.forall_mem_map]
  simp only [mem_legalList h.position]
  exact forall₂_congr fun m hm => isCaptureMove_eq_removesEnemy_iff h hm

/-! ## What a capture removes -/

/-- A move that passes the filter removes one piece of the other side, not its king, and
leaves the mover with as many pieces as before. -/
theorem nonKingCount_of_capture (h : b.WellFormed) (hm : b.position.Legal m)
    (hcapture : b.isCaptureMove (b.encode m) = true) :
    ∃ b', b.doMove (b.encode m) = .ok b' ∧ b'.WellFormed ∧
      b'.nonKingCount (flipColor b.sideToMove) + 1 =
        b.nonKingCount (flipColor b.sideToMove) ∧
      b'.nonKingCount b.sideToMove = b.nonKingCount b.sideToMove := by
  obtain ⟨b', hdo, hwf, hposition⟩ := doMove_of_legal h hm
  have hmailbox : b'.mailbox = b.position.mailboxAfter m := congrArg Position.mailbox hposition
  rw [isCaptureMove_encode h.disjoint, decide_eq_true_eq] at hcapture
  obtain ⟨k, hk⟩ := hcapture
  have hcaptured : captured b.position m = some (flipColor b.sideToMove, k) := by
    rw [captured_of_dst h.position hm.performable (by simp [hk])]
    exact hk
  have hking := (hm.performable.of_captured h.position hcaptured).2
  have hcount := fun c => hm.performable.count_after h.position
    fun x => decide (x.1 = c) && decide (x.2 ≠ .king)
  simp only [hcaptured, Option.any_some, ← hmailbox,
    position_mailbox, position_side] at hcount
  refine ⟨b', hdo, hwf, ?_, ?_⟩
  · have henemy := hcount (flipColor b.sideToMove)
    rw [hwf.disjoint.nonKingCount_eq, h.disjoint.nonKingCount_eq]
    simp [hking] at henemy ⊢
    omega
  · have hmover := hcount b.sideToMove
    rw [hwf.disjoint.nonKingCount_eq, h.disjoint.nonKingCount_eq]
    simp [decide_eq_decide.mpr hm.performable.placed_eq_king_iff] at hmover ⊢
    omega

theorem mem_legalCaptureMoves (h : b.WellFormed) {captures : List Move}
    (hcaptures : b.legalCaptureMoves = .ok captures) {move : Move} :
    move ∈ captures ↔ ∃ m, b.position.Legal m ∧ move = b.encode m ∧
      b.isCaptureMove (b.encode m) = true := by
  rw [legalCaptureMoves_eq_filter h, Except.ok.injEq] at hcaptures
  subst hcaptures
  rw [List.mem_filter, mem_legalMoves_iff h (legalMoves_eq h)]
  constructor
  · rintro ⟨⟨m, hm, rfl⟩, hcapture⟩
    exact ⟨m, hm, rfl, hcapture⟩
  · rintro ⟨m, hm, rfl, hcapture⟩
    exact ⟨⟨m, hm, rfl⟩, hcapture⟩

/-- A capture leaves a well-formed board with one piece other than a king fewer. -/
theorem exists_of_mem_captures (h : b.WellFormed) {captures : List Move}
    (hcaptures : b.legalCaptureMoves = .ok captures) {move : Move} (hmem : move ∈ captures) :
    ∃ b', b.doMove move = .ok b' ∧ b'.WellFormed ∧
      b'.nonKingCount .white + b'.nonKingCount .black + 1 =
        b.nonKingCount .white + b.nonKingCount .black := by
  obtain ⟨m, hm, rfl, hcapture⟩ := (mem_legalCaptureMoves h hcaptures).mp hmem
  obtain ⟨b', hdo, hwf, henemy, hmover⟩ := nonKingCount_of_capture h hm hcapture
  refine ⟨b', hdo, hwf, ?_⟩
  cases hside : b.sideToMove <;> rw [hside] at henemy hmover <;>
    simp only [flipColor_white, flipColor_black] at henemy <;> omega

end Board

/-! ## The recursion of `quiescence_search` -/

/-- The boards of nested calls of `quiescence_search`: each further call is for the board
after a move of `legal_capture_moves()`. -/
inductive CaptureRun : Board → List Move → Board → Prop
  | nil (b : Board) : CaptureRun b [] b
  | cons {b b₁ b' : Board} {move : Move} {captures line : List Move}
      (legal : b.legalCaptureMoves = .ok captures) (mem : move ∈ captures)
      (made : b.doMove move = .ok b₁) (rest : CaptureRun b₁ line b') :
      CaptureRun b (move :: line) b'

/-- A legal move onto an enemy piece is followed by the search. -/
theorem CaptureRun.step {b : Board} (h : b.WellFormed) {m : ChessMove} (hm : b.position.Legal m)
    (hd : Holds b.position.mailbox (flipColor b.position.side) m.dst) :
    ∃ b₁, b₁.WellFormed ∧ b₁.position = b.position.play m ∧
      ∀ {line b'}, CaptureRun b₁ line b' → CaptureRun b (b.encode m :: line) b' := by
  obtain ⟨b₁, hdo, hwf, hposition⟩ := Board.doMove_of_legal h hm
  refine ⟨b₁, hwf, hposition, fun rest => ?_⟩
  have hcaptures := Board.legalCaptureMoves_eq_filter h
  refine .cons hcaptures ((Board.mem_legalCaptureMoves h hcaptures).mpr ⟨m, hm, rfl, ?_⟩) hdo rest
  rw [Board.isCaptureMove_encode h.disjoint]
  exact decide_eq_true hd

theorem CaptureRun.length_le {b b' : Board} {line : List Move} (h : b.WellFormed)
    (run : CaptureRun b line b') :
    line.length ≤ b.nonKingCount .white + b.nonKingCount .black := by
  induction run with
  | nil b => exact Nat.zero_le _
  | @cons b b₁ _ move captures _ legal mem made _ ih =>
    obtain ⟨b₂, hdo, hwf, hcount⟩ := Board.exists_of_mem_captures h legal mem
    rw [hdo, Except.ok.injEq] at made
    subst made
    have := ih hwf
    rw [List.length_cons]
    omega

section Fuel

variable {recurse recurse' : Board → ℤ → ℤ → Checked (ℤ × List Move)} {b : Board} {α β : ℤ}
  {moves pv : List Move}

/-- The loop returns if every move can be made and every call below returns. -/
theorem exists_searchLoop (h : ∀ move ∈ moves, ∃ child, b.doMove move = .ok child ∧
      ∀ α β, ∃ r, recurse child α β = .ok r) :
    ∃ r, searchLoop recurse b β moves α pv = .ok r := by
  induction moves generalizing α pv with
  | nil => exact ⟨_, rfl⟩
  | cons move moves ih =>
    obtain ⟨⟨child, hdo, hrec⟩, hrest⟩ := List.forall_mem_cons.mp h
    obtain ⟨⟨score, line⟩, hr⟩ := hrec (-β) (-α)
    rw [searchLoop, hdo, ok_bind, hr, ok_bind]
    simp only
    split_ifs
    · exact ⟨_, rfl⟩
    · exact ih hrest
    · exact ih hrest

/-- The loop returns the same if the calls below do. -/
theorem searchLoop_mono (hrec : ∀ child α β r, recurse child α β = .ok r →
      recurse' child α β = .ok r) {r : ℤ × List Move}
    (h : searchLoop recurse b β moves α pv = .ok r) :
    searchLoop recurse' b β moves α pv = .ok r := by
  induction moves generalizing α pv with
  | nil => exact h
  | cons move moves ih =>
    rw [searchLoop] at h ⊢
    obtain ⟨child, hdo, h⟩ := bind_eq_ok.mp h
    obtain ⟨result, hresult, h⟩ := bind_eq_ok.mp h
    rw [hdo, ok_bind, hrec _ _ _ _ hresult, ok_bind]
    simp only at h ⊢
    split_ifs at h ⊢
    · exact h
    · exact ih h
    · exact ih h

/-- A capture search that returns does not depend on the recursion bound. -/
theorem quiescenceSearch_mono {fuel fuel' : ℕ} (hle : fuel ≤ fuel') {r : ℤ × List Move}
    (h : quiescenceSearch fuel b α β pv = .ok r) :
    quiescenceSearch fuel' b α β pv = .ok r := by
  induction fuel generalizing fuel' b α β pv r with
  | zero => cases h
  | succ fuel ih =>
    obtain ⟨fuel', rfl⟩ : ∃ n, fuel' = n + 1 := ⟨fuel' - 1, by omega⟩
    rw [quiescenceSearch] at h ⊢
    obtain ⟨evaluation, heval, h⟩ := bind_eq_ok.mp h
    rw [heval, ok_bind]
    by_cases hcut : evaluation * (if b.isWhitesMove = true then 1 else -1) ≥ β
    · rw [if_pos hcut] at h ⊢
      exact h
    · rw [if_neg hcut] at h ⊢
      obtain ⟨moves, hmoves, h⟩ := bind_eq_ok.mp h
      rw [hmoves, ok_bind]
      apply searchLoop_mono _ h
      intro child α β r hr
      exact ih (by omega) hr

/-- More rounds of recursion than there are pieces to take are enough. -/
theorem exists_quiescenceSearch {fuel : ℕ} (h : b.WellFormed)
    (hfuel : b.nonKingCount .white + b.nonKingCount .black < fuel) :
    ∃ r, quiescenceSearch fuel b α β pv = .ok r := by
  induction fuel generalizing b α β pv with
  | zero => exact absurd hfuel (Nat.not_lt_zero _)
  | succ fuel ih =>
    obtain ⟨captures, hcaptures⟩ : ∃ captures, b.legalCaptureMoves = .ok captures :=
      ⟨_, Board.legalCaptureMoves_eq_filter h⟩
    rw [quiescenceSearch, Board.staticEvaluation_eq h, ok_bind, hcaptures]
    by_cases hcut : b.position.staticValue * (if b.isWhitesMove = true then 1 else -1) ≥ β
    · rw [if_pos hcut]
      exact ⟨_, rfl⟩
    · rw [if_neg hcut, ok_bind]
      apply exists_searchLoop
      intro move hmem
      obtain ⟨child, hdo, hwf, hcount⟩ := Board.exists_of_mem_captures h hcaptures hmem
      exact ⟨child, hdo, fun α β => ih hwf (by omega)⟩

end Fuel

end PawnGrabber
