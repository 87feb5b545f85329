import PawnGrabber.Theorems.GameTree
import PawnGrabber.Analysis.SamePosition

/-!
# Scores and lines of the search

Pruning does not change the principal variation either, each board along the variation is
searched to the same score and the rest of the variation, and a decisive score is a forced
outcome under the rules, which no deeper search revises and which the variation plays out. Of a
board the search sees only the position, not the counters.
-/

set_option autoImplicit false

namespace PawnGrabber

open ExceptFold Rules GameSearch

/-! ## Pruning -/

/-- The unpruned capture search with its line: the board's own value and no move, or the first of
the best captures followed by the line of the board after it. -/
def unprunedCaptureSearch (g : PlayBoard) : ℤ × List Move := chessGame.plainQuiesce g

/-- The unpruned search with its line: the first of the best moves followed by the line of the
board after it, and the capture search at depth 0 or without a legal move. -/
def unprunedSearch (d : ℕ) (g : PlayBoard) : ℤ × List Move := chessGame.plainSearch d g

/-- In every window that contains the unpruned value and has two ends that an `int` can negate,
alpha-beta and the capture search return the unpruned score and the unpruned line; `evaluation`
always does. -/
theorem search_line_eq_unpruned {fuel : ℕ} (hfuel : 64 < fuel) (g : PlayBoard) (d : ℕ) :
    (∀ α β : ℤ, -2147483647 ≤ α → β ≤ 2147483647 →
      α < (unprunedSearch d g).1 → (unprunedSearch d g).1 < β →
      alphaBeta fuel d g.1 α β [] = .ok (unprunedSearch d g)) ∧
    (∀ α β : ℤ, -2147483647 ≤ α → β ≤ 2147483647 →
      α < (unprunedCaptureSearch g).1 → (unprunedCaptureSearch g).1 < β →
      quiescenceSearch fuel g.1 α β [] = .ok (unprunedCaptureSearch g)) ∧
    evaluation fuel g.1 d [] = .ok (unprunedSearch d g) := by
  refine ⟨?_, ?_, evaluation_eq_plainSearch hfuel g d⟩
  · intro α β _ _ hα hβ
    rw [alphaBeta_eq hfuel]
    exact congrArg Except.ok ((Game.alphaBeta_returns (chessGame_rank_lt hfuel) d g).eq hα hβ)
  · intro α β _ _ hα hβ
    have hrank := chessGame_rank_lt hfuel g
    rw [quiescenceSearch_eq hrank]
    exact congrArg Except.ok ((Game.quiescenceSearch_returns g hrank).eq hα hβ)

theorem search_line_eq_unpruned_start :
    (∀ α β : ℤ, -2147483647 ≤ α → β ≤ 2147483647 →
      α < (unprunedSearch 2 startGame).1 → (unprunedSearch 2 startGame).1 < β →
      alphaBeta 65 2 startGame.1 α β [] = .ok (unprunedSearch 2 startGame)) ∧
    (∀ α β : ℤ, -2147483647 ≤ α → β ≤ 2147483647 →
      α < (unprunedCaptureSearch startGame).1 → (unprunedCaptureSearch startGame).1 < β →
      quiescenceSearch 65 startGame.1 α β [] = .ok (unprunedCaptureSearch startGame)) ∧
    evaluation 65 startGame.1 2 [] = .ok (unprunedSearch 2 startGame) :=
  search_line_eq_unpruned (by decide) startGame 2

/-! ## The principal variation -/

/-- After any number of moves of the principal variation, searching the board reached to the
remaining depth gives the same score, seen from the side to move there, and the rest of the
variation. -/
theorem evaluation_along_pv {fuel : ℕ} (hfuel : 64 < fuel) (g : PlayBoard) (d : ℕ) :
    ∃ v pv, evaluation fuel g.1 d [] = .ok (v, pv) ∧
      ∀ k ≤ pv.length, ∃ b, LegalRun g.1 (pv.take k) b ∧
        evaluation fuel b (d - k) [] = .ok ((-1) ^ k * v, pv.drop k) := by
  refine ⟨_, _, evaluation_eq_plainSearch hfuel g d, ?_⟩
  intro k hk
  obtain ⟨f, hleads, hsearch⟩ := Game.plainSearch_drop hk
  refine ⟨f.1, legalRun_of_leads hleads, ?_⟩
  rw [evaluation_eq_plainSearch hfuel, hsearch, smul_eq_mul]

theorem evaluation_along_pv_start :
    ∃ v pv, evaluation 65 startGame.1 2 [] = .ok (v, pv) ∧
      ∀ k ≤ pv.length, ∃ b, LegalRun startGame.1 (pv.take k) b ∧
        evaluation 65 b (2 - k) [] = .ok ((-1) ^ k * v, pv.drop k) :=
  evaluation_along_pv (by decide) startGame 2

/-! ## Decisive scores -/

/-- The score is 1000 exactly if the side to move can leave the opponent without a legal move,
against every defence, within `d` plies or by a move of `legal_capture_moves()` right after them,
which an en passant capture is not, and -1000 exactly if the opponent can do so. Every other score
lies between. -/
theorem evaluation_decisive_iff {fuel : ℕ} (hfuel : 64 < fuel) (g : PlayBoard) (d : ℕ) :
    ∃ v pv, evaluation fuel g.1 d [] = .ok (v, pv) ∧ |v| ≤ 1000 ∧
      (v = 1000 ↔ g.1.position.Forces d) ∧ (v = -1000 ↔ g.1.position.Succumbs d) := by
  refine ⟨_, _, evaluation_eq_plainSearch hfuel g d, ?_, ?_, ?_⟩
  · rw [Game.plainSearch_fst]
    exact abs_unprunedValue_le d g
  · rw [Game.plainSearch_fst, (chessGame_decisive.negamax_eq_iff d g).1,
      (chessGame_forced_iff d g).1]
  · rw [Game.plainSearch_fst, (chessGame_decisive.negamax_eq_iff d g).2,
      (chessGame_forced_iff d g).2]

theorem evaluation_decisive_iff_start :
    ∃ v pv, evaluation 65 startGame.1 2 [] = .ok (v, pv) ∧ |v| ≤ 1000 ∧
      (v = 1000 ↔ startGame.1.position.Forces 2) ∧
      (v = -1000 ↔ startGame.1.position.Succumbs 2) :=
  evaluation_decisive_iff (by decide) startGame 2

/-- A decisive score stands at every greater depth, and its principal variation is a run of at
most `d + 1` moves to a board without legal moves: of the opponent after a win, of the side to
move at the root after a loss. -/
theorem evaluation_decisive_line {fuel : ℕ} (hfuel : 64 < fuel) (g : PlayBoard) {d d' : ℕ}
    (hd : d ≤ d') :
    ∃ v pv v' pv', evaluation fuel g.1 d [] = .ok (v, pv) ∧
      evaluation fuel g.1 d' [] = .ok (v', pv') ∧
      (|v| = 1000 → v' = v ∧ ∃ b, LegalRun g.1 pv b ∧ b.legalMoves = .ok [] ∧
        pv.length ≤ d + 1 ∧ (Odd pv.length ↔ v = 1000)) := by
  refine ⟨_, _, _, _, evaluation_eq_plainSearch hfuel g d, evaluation_eq_plainSearch hfuel g d',
    ?_⟩
  have hstable := chessGame_decisive.negamax_stable hd g
  have hline := chessGame_decisive.plainSearch_line
    (Prod.mk.eta (p := chessGame.plainSearch d g)).symm
  rw [← Game.plainSearch_fst, ← Game.plainSearch_fst] at hstable
  intro habs
  rcases (abs_eq (by decide)).mp habs with hv | hv
  · obtain ⟨f, hleads, hf, hodd, hlength⟩ := hline.1 hv
    refine ⟨by rw [hv, hstable.1 hv], f.1, legalRun_of_leads hleads,
      PlayBoard.legalMoves_of_no_children hf, hlength, ?_⟩
    exact iff_of_true hodd hv
  · obtain ⟨f, hleads, hf, heven, hlength⟩ := hline.2 hv
    refine ⟨by rw [hv, hstable.2 hv], f.1, legalRun_of_leads hleads,
      PlayBoard.legalMoves_of_no_children hf, hlength, ?_⟩
    exact iff_of_false (Nat.not_odd_iff_even.mpr heven) (by rw [hv]; decide)

/-- The rook mates on h8. -/
theorem evaluation_decisive_line_mate :
    ∃ pv pv', evaluation 65 mateBoard 1 [] = .ok (1000, pv) ∧
      evaluation 65 mateBoard 2 [] = .ok (1000, pv') ∧
      ∃ b, LegalRun mateBoard pv b ∧ b.legalMoves = .ok [] ∧ pv.length ≤ 1 + 1 ∧ Odd pv.length := by
  obtain ⟨hwf, hlegal, hnone⟩ := rookMates_legal
  let g : PlayBoard := ⟨mateBoard, hwf⟩
  have hforces : g.1.position.Forces 1 :=
    ⟨rookMates, hlegal, (legalList_eq_nil_iff (hlegal.wellFormed hwf.position)).mp hnone⟩
  have hfuel : 64 < 65 := by decide
  have hdepth : 1 ≤ 2 := by decide
  obtain ⟨v, pv, v', pv', heval, heval', hline⟩ := evaluation_decisive_line hfuel g hdepth
  have hvalue : v = 1000 := by
    have hsearch := heval.symm.trans (evaluation_eq_plainSearch (by decide) g 1)
    rw [Except.ok.injEq] at hsearch
    rw [show v = (chessGame.plainSearch 1 g).1 from congrArg Prod.fst hsearch, Game.plainSearch_fst]
    exact (chessGame_decisive.negamax_eq_iff 1 g).1.mpr ((chessGame_forced_iff 1 g).1.mpr hforces)
  subst hvalue
  obtain ⟨rfl, b, run, hend, hlength, hodd⟩ := hline (by decide)
  exact ⟨pv, pv', heval, heval', b, run, hend, hlength, hodd.mpr rfl⟩

/-! ## Counters -/

/-- The fifty move clock and the move number have no influence: with any others the legal moves are
the same ones in the same order, `evaluation` gives the same score and the same principal variation
move by move, and perft counts the same. -/
theorem evaluation_ignores_counters {fuel : ℕ} (hfuel : 64 < fuel) (g : PlayBoard)
    (fiftyMoveClock numMoves : Int32) (d : ℕ) :
    (∃ moves moves', g.1.legalMoves = .ok moves ∧
      (g.1.withCounters fiftyMoveClock numMoves).legalMoves = .ok moves' ∧
      List.Forall₂ Move.SameMove moves moves') ∧
    (∃ v pv pv', evaluation fuel g.1 d [] = .ok (v, pv) ∧
      evaluation fuel (g.1.withCounters fiftyMoveClock numMoves) d [] = .ok (v, pv') ∧
      List.Forall₂ Move.SameMove pv pv') ∧
    ∃ n, numberOfMoves g.1 d = .ok n ∧
      numberOfMoves (g.1.withCounters fiftyMoveClock numMoves) d = .ok n := by
  let h : PlayBoard := ⟨_, g.2.withCounters fiftyMoveClock numMoves⟩
  have hposition : g.1.position = h.1.position := rfl
  obtain ⟨hvalue, hline⟩ := chessGame_lockstep.plainSearch d hposition
  have hsearch := evaluation_eq_plainSearch hfuel h d
  refine ⟨⟨_, _, g.legalMoves_eq, h.legalMoves_eq, ?_⟩,
    ⟨_, _, _, evaluation_eq_plainSearch hfuel g d, ?_, hline⟩,
    ⟨_, numberOfMoves_eq g.2 d, ?_⟩⟩
  · rw [← PlayBoard.map_fst_children, ← PlayBoard.map_fst_children]
    apply forall₂_map_of_mem (chessGame_lockstep.children g h hposition)
    intro x _ y hxy
    exact hxy.1
  · rw [hvalue]
    exact hsearch
  · rw [hposition]
    exact numberOfMoves_eq h.2 d

theorem evaluation_ignores_counters_start :
    (∃ moves moves', startGame.1.legalMoves = .ok moves ∧
      (startGame.1.withCounters 99 7).legalMoves = .ok moves' ∧
      List.Forall₂ Move.SameMove moves moves') ∧
    (∃ v pv pv', evaluation 65 startGame.1 2 [] = .ok (v, pv) ∧
      evaluation 65 (startGame.1.withCounters 99 7) 2 [] = .ok (v, pv') ∧
      List.Forall₂ Move.SameMove pv pv') ∧
    ∃ n, numberOfMoves startGame.1 2 = .ok n ∧
      numberOfMoves (startGame.1.withCounters 99 7) 2 = .ok n :=
  evaluation_ignores_counters (by decide) startGame 99 7 2

end PawnGrabber
