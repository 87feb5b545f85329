import PawnGrabber.Library.DecisiveValue
import PawnGrabber.Rules.ForcedWin
import PawnGrabber.Analysis.ChessGame

/-!
# What the search returns

The library's facts about values and lines, in the terms of the program: a child is a legal
move, a decisive value a forced outcome under the rules, and a line of the game a run of
`legal_moves()` and `do_move`.
-/

set_option autoImplicit false

namespace PawnGrabber

open ExceptFold Rules GameSearch

namespace PlayBoard

variable {g : PlayBoard} {m : ChessMove}

theorem exists_mem_children (hm : g.1.position.Legal m) :
    ∃ x ∈ g.children, x.1 = g.1.encode m ∧ x.2.1.position = g.1.position.play m := by
  have hmem : g.1.encode m ∈ g.legalMoves := g.mem_legalMoves.mpr ⟨m, hm, rfl⟩
  have hchild : (g.1.encode m, g.after _ hmem) ∈ g.children := mem_children.mpr ⟨hmem, rfl⟩
  obtain ⟨m', -, heq, hposition⟩ := exists_of_mem_children hchild
  rw [g.1.encode_injective.eq_iff] at heq
  exact ⟨_, hchild, rfl, by rw [hposition, heq]⟩

theorem children_eq_nil_iff : g.children = [] ↔ g.1.position.Stuck := by
  constructor
  · intro hnil m hm
    obtain ⟨x, hx, -⟩ := exists_mem_children hm
    rw [hnil] at hx
    exact absurd hx List.not_mem_nil
  · intro hstuck
    rw [List.eq_nil_iff_forall_not_mem]
    intro x hx
    obtain ⟨m, hm, -⟩ := exists_of_mem_children hx
    exact hstuck m hm

/-- The filter of the capture search looks at what stands on the destination. -/
theorem isCaptureMove_iff :
    g.1.isCaptureMove (g.1.encode m) = true ↔
      Holds g.1.position.mailbox (flipColor g.1.position.side) m.dst := by
  rw [Board.isCaptureMove, Board.encode_dstSquare, toBool_bit_and, g.2.disjoint.has_enemies,
    decide_eq_true_eq]
  rfl

end PlayBoard

/-! ## Decisive values -/

theorem chessGame_decisive : chessGame.Decisive 1000 where
  pos := by decide
  stuck g hc := by
    have hvalue := Position.staticValue_of_no_legal g.2.position
      (PlayBoard.children_eq_nil_iff.mp hc)
    obtain ⟨v, hv, heval⟩ := staticEvaluation_mul_moverSign g
    rw [Board.staticEvaluation_eq g.2, hvalue, Except.ok.injEq] at hv
    change g.eval = -1000
    rw [← heval, ← hv, Board.moverSign, Board.position_side, Board.sideToMove]
    cases g.1.isWhitesMove <;> rfl
  inside g hc := by
    have hlegal : ∃ m, g.1.position.Legal m := by
      by_contra hnone
      push Not at hnone
      exact hc (PlayBoard.children_eq_nil_iff.mpr hnone)
    obtain ⟨m, hm⟩ := hlegal
    have hbound := abs_le.mp (abs_material_le g.1.position.mailbox)
    obtain ⟨v, hv, heval⟩ := staticEvaluation_mul_moverSign g
    rw [Board.staticEvaluation_eq g.2, Position.staticValue_of_legal g.2.position hm,
      Except.ok.injEq] at hv
    change -1000 < g.eval ∧ g.eval < 1000
    rw [← heval, ← hv, Board.moverSign]
    split_ifs <;> omega

/-- The forced outcomes of the game are those of the rules. -/
theorem chessGame_forced_iff (d : ℕ) (g : PlayBoard) :
    (chessGame.Wins d g ↔ g.1.position.Forces d) ∧
      (chessGame.Loses d g ↔ g.1.position.Succumbs d) := by
  induction d generalizing g with
  | zero =>
    rw [Game.Wins, Game.Loses, Position.Forces, Position.Succumbs]
    refine ⟨?_, PlayBoard.children_eq_nil_iff⟩
    constructor
    · intro hwins
      obtain ⟨x, hx, hstuck⟩ := hwins
      obtain ⟨hchild, hcapture⟩ := List.mem_filter.mp hx
      obtain ⟨m, hm, heq, hposition⟩ := PlayBoard.exists_of_mem_children hchild
      rw [heq, PlayBoard.isCaptureMove_iff] at hcapture
      exact ⟨m, hm, hcapture, hposition ▸ PlayBoard.children_eq_nil_iff.mp hstuck⟩
    · intro hforces
      obtain ⟨m, hm, hcapture, hstuck⟩ := hforces
      obtain ⟨x, hx, heq, hposition⟩ := PlayBoard.exists_mem_children hm
      refine ⟨x, List.mem_filter.mpr ⟨hx, ?_⟩, PlayBoard.children_eq_nil_iff.mpr ?_⟩
      · rw [heq, PlayBoard.isCaptureMove_iff]
        exact hcapture
      · rwa [hposition]
  | succ d ih =>
    rw [Game.Wins, Game.Loses, Position.Forces, Position.Succumbs]
    constructor
    · constructor
      · intro hwins
        obtain ⟨x, hx, hloses⟩ := hwins
        obtain ⟨m, hm, -, hposition⟩ := PlayBoard.exists_of_mem_children hx
        exact ⟨m, hm, hposition ▸ (ih x.2).2.mp hloses⟩
      · intro hforces
        obtain ⟨m, hm, hsuccumbs⟩ := hforces
        obtain ⟨x, hx, -, hposition⟩ := PlayBoard.exists_mem_children hm
        exact ⟨x, hx, (ih x.2).2.mpr (hposition ▸ hsuccumbs)⟩
    · constructor
      · intro hloses m hm
        obtain ⟨x, hx, -, hposition⟩ := PlayBoard.exists_mem_children hm
        exact hposition ▸ (ih x.2).1.mp (hloses x hx)
      · intro hsuccumbs x hx
        obtain ⟨m, hm, -, hposition⟩ := PlayBoard.exists_of_mem_children hx
        exact (ih x.2).1.mpr (hposition ▸ hsuccumbs m hm)

/-! ## Lines -/

/-- A line of the game is a run of legal moves. -/
theorem legalRun_of_leads {g f : PlayBoard} {line : List Move} (h : chessGame.Leads g line f) :
    LegalRun g.1 line f.1 := by
  induction h with
  | nil g => exact .nil g.1
  | @cons g f x line mem _ ih =>
    obtain ⟨hlegal, -⟩ := PlayBoard.mem_children.mp mem
    exact .cons g.legalMoves_eq hlegal (PlayBoard.doMove_of_mem_children mem) ih

/-- The whole window of `evaluation` contains every value. -/
theorem evaluation_eq_plainSearch {fuel : ℕ} (hfuel : 64 < fuel) (g : PlayBoard) (d : ℕ) :
    evaluation fuel g.1 d [] = .ok (chessGame.plainSearch d g) := by
  have hbound := Game.negamax_bound chessGame_eval_bound d g
  rw [← Game.plainSearch_fst] at hbound
  rw [evaluation, alphaBeta_eq hfuel]
  exact congrArg Except.ok ((Game.alphaBeta_returns (chessGame_rank_lt hfuel) d g).eq
    (by omega) (by omega))

end PawnGrabber
