import PawnGrabber.Analysis.Captures
import PawnGrabber.Analysis.Divide
import PawnGrabber.Theorems.Perft

/-!
# Counting games

`number_of_moves` counts the runs of the program's own operations and divides over their
beginnings, and the perft driver compares the numbers of legal lines with its table.
-/

set_option autoImplicit false

namespace PawnGrabber

open ExceptFold Rules

/-! ## Dividing a count -/

/-- `number_of_moves` is the number of runs of `legal_moves()` and `do_move` of the given length, as
an `int64_t`, and to a greater depth the sum of what it returns for the boards these runs end on. -/
theorem numberOfMoves_divides {b : Board} (h : b.WellFormed) (d e : ℕ) :
    ∃ runs : List (List Move × Board), runs.Nodup ∧
      (∀ line f, (line, f) ∈ runs ↔ line.length = d ∧ LegalRun b line f) ∧
      (∃ v, numberOfMovesInt64 b d = .ok v ∧ v.toInt ≡ runs.length [ZMOD 2 ^ 64] ∧
        (runs.length < 2 ^ 63 → v.toInt = runs.length)) ∧
      ∃ counts, runs.mapM (fun run => numberOfMovesInt64 run.2 e) = .ok counts ∧
        numberOfMovesInt64 b (d + e) = .ok counts.sum := by
  let g : PlayBoard := ⟨b, h⟩
  let count : Board → ℤ := fun f => ((lines e f.position).length : ℤ)
  refine ⟨(g.runs d).map (Prod.map id Subtype.val), PlayBoard.nodup_runs d g,
    fun line f => PlayBoard.mem_runs, ⟨_, numberOfMovesInt64_eq h d, ?_⟩,
    (((g.runs d).map (Prod.map id Subtype.val)).map fun run => count run.2).map Int64.ofInt, ?_, ?_⟩
  · have hlength : ((g.runs d).map (Prod.map id Subtype.val)).length =
        (lines d b.position).length := by
      rw [List.length_map, PlayBoard.runs, List.length_map, PlayBoard.length_ofLength]
    rw [hlength]
    exact ⟨toInt_ofInt_modEq _, fun hfits => Int64.toInt_ofInt_of_le (by omega) (by omega)⟩
  · rw [List.map_map]
    apply mapM_ok
    intro run hrun
    obtain ⟨r, -, rfl⟩ := List.mem_map.mp hrun
    exact numberOfMovesInt64_eq r.2.2 e
  · rw [numberOfMovesInt64_eq h, sum_map_ofInt, PlayBoard.length_runs_add d e g, List.map_map]
    push_cast
    rw [List.map_map]
    rfl

theorem numberOfMoves_divides_start :
    ∃ runs : List (List Move × Board), runs.Nodup ∧
      (∀ line f, (line, f) ∈ runs ↔ line.length = 2 ∧ LegalRun startBoard line f) ∧
      (∃ v, numberOfMovesInt64 startBoard 2 = .ok v ∧ v.toInt ≡ runs.length [ZMOD 2 ^ 64] ∧
        (runs.length < 2 ^ 63 → v.toInt = runs.length)) ∧
      ∃ counts, runs.mapM (fun run => numberOfMovesInt64 run.2 3) = .ok counts ∧
        numberOfMovesInt64 startBoard (2 + 3) = .ok counts.sum :=
  numberOfMoves_divides startBoard_wellFormed 2 3

/-! ## Overflow -/

theorem length_lines_le_of_friends {b : Board} (h : b.WellFormed) {n : ℕ}
    (hn : ∀ c, popCount (b.friends c) ≤ n) (d : ℕ) :
    (lines d b.position).length ≤ (27 * n) ^ d := by
  refine length_lines_le h.position ?_ d
  intro c
  rw [Board.position_mailbox, ← h.disjoint.popCount_friends]
  exact hn c

/-- With at most `n` pieces on either side `number_of_moves` returns at most `27 * n` to the power
of the depth. -/
theorem numberOfMoves_le_pow {b : Board} (h : b.WellFormed) {n : ℕ}
    (hn : ∀ c, popCount (b.friends c) ≤ n) (d : ℕ) :
    ∃ v, numberOfMoves b d = .ok v ∧ 0 ≤ v ∧ v ≤ (27 * n) ^ d := by
  refine ⟨_, numberOfMoves_eq h d, Int.natCast_nonneg _, ?_⟩
  exact_mod_cast length_lines_le_of_friends h hn d

theorem numberOfMoves_le_pow_start :
    ∃ v, numberOfMoves startBoard 3 = .ok v ∧ 0 ≤ v ∧ v ≤ (27 * 16) ^ 3 := by
  have hpieces : ∀ c, popCount (startBoard.friends c) ≤ 16 := by
    intro c
    rw [startBoard_wellFormed.disjoint.popCount_friends]
    cases c <;> decide
  exact numberOfMoves_le_pow startBoard_wellFormed hpieces 3

/-! ## The driver with the program's own count -/

/-- `number_of_moves` as the driver calls it. -/
def countMoves (board : Board) (depth : ℕ) : Int64 :=
  (numberOfMovesInt64 board depth).toOption.getD 0

theorem countMoves_modEq {b : Board} (h : b.WellFormed) (d : ℕ) :
    (countMoves b d).toInt ≡ ((lines d b.position).length : ℤ) [ZMOD 2 ^ 32] := by
  rw [countMoves, numberOfMovesInt64_eq h]
  exact (toInt_ofInt_modEq _).of_dvd (by decide)

/-- With at most 16 pieces on either side no count of up to 7 plies overflows. -/
theorem countMoves_eq {b : Board} (h : b.WellFormed) (hn : ∀ c, popCount (b.friends c) ≤ 16)
    {d : ℕ} (hd : d < maxDepth) :
    ∃ v, numberOfMoves b d = .ok v ∧ (countMoves b d).toInt = v := by
  have hfits : (lines d b.position).length ≤ 432 ^ 7 := by
    calc (lines d b.position).length ≤ (27 * 16) ^ d := length_lines_le_of_friends h hn d
      _ ≤ 432 ^ 7 := Nat.pow_le_pow_right (by decide) (Nat.le_of_lt_succ hd)
  refine ⟨_, numberOfMoves_eq h d, ?_⟩
  rw [countMoves, numberOfMovesInt64_eq h]
  change (Int64.ofInt (lines d b.position).length).toInt = _
  exact Int64.toInt_ofInt_of_le (by omega) (by omega)

/-- The counts that `main` of `perft.cc` computes are exact as `int64_t`, and it ends without a
report exactly if every known entry of its table is, modulo 2^32, the number of legal lines of its
depth from its position. -/
theorem perftMain_checks_lines :
    ∃ boards, perftBoards = .ok boards ∧
      (∀ board ∈ boards, ∀ d < maxDepth, ∃ v, numberOfMoves board d = .ok v ∧
        (countMoves board d).toInt = v) ∧
      ((∃ output, perftMain countMoves = .ok (.ok output) ∧
          PerftLine.incorrectResults ∉ output) ↔
        ∀ (depth : Fin maxDepth) (boardIdx : Fin numBoards),
          (perftNumNodes.getD boardIdx []).getD depth (-1) ≠ -1 →
          ∃ lines : Finset (List ChessMove),
            (∀ line, line ∈ lines ↔ line.length = depth ∧
              LegalLine (boards.getD boardIdx uninitializedBoard).position line) ∧
            (lines.card : ℤ) ≡
              ((perftNumNodes.getD boardIdx []).getD depth (-1)).toInt [ZMOD 2 ^ 32]) := by
  obtain ⟨boards, hboards, hlength, hlisted⟩ := perftBoards_wellFormed
  obtain ⟨boards', hboards', hiff⟩ := perftMain_accepts_iff countMoves
  rw [hboards, Except.ok.injEq] at hboards'
  subst hboards'
  refine ⟨boards, hboards, fun board hmem d hd => countMoves_eq (hlisted board hmem).1
    (hlisted board hmem).2 hd,
    hiff.trans (forall₂_congr fun depth boardIdx => imp_congr_right ?_)⟩
  intro _
  have hlt : (boardIdx : ℕ) < boards.length := by
    rw [hlength]
    exact boardIdx.isLt
  have hboard : (boards.getD boardIdx uninitializedBoard).WellFormed := by
    rw [List.getD_eq_getElem _ _ hlt]
    exact (hlisted _ (List.getElem_mem hlt)).1
  have hcount := countMoves_modEq hboard depth
  rw [exists_finset_lines_iff hboard.position (P := fun n => (n : ℤ) ≡ _ [ZMOD 2 ^ 32])]
  exact ⟨fun hentry => hcount.symm.trans hentry, fun hentry => hcount.trans hentry⟩

end PawnGrabber
