import PawnGrabber.Model.Perft
import PawnGrabber.Analysis.Mailbox
import PawnGrabber.Library.ExceptFold

/-!
# What the perft driver accepts

The driver narrows both the table entry and the computed count to 32 bits before it looks at
them, so it decides equality modulo 2^32 and takes every entry that is -1 modulo 2^32 for an
unknown one.
-/

set_option autoImplicit false

namespace PawnGrabber

open ExceptFold

/-- Narrowing to an `int` keeps a count modulo 2^32. -/
theorem toInt32_eq_iff (x y : Int64) :
    x.toInt32 = y.toInt32 ↔ x.toInt ≡ y.toInt [ZMOD 2 ^ 32] := by
  rw [← Int32.toInt_inj, Int64.toInt_toInt32, Int64.toInt_toInt32,
    Int.bmod_eq_bmod_iff_bmod_sub_eq_zero, ← Int.dvd_iff_bmod_eq_zero, Int.modEq_comm,
    Int.modEq_iff_dvd]
  norm_num

section Driver

variable (numberOfMoves : Board → ℕ → Int64) (boards : Fin numBoards → Board)
  (numNodes : Fin numBoards → Fin maxDepth → Int64)

/-- The driver sees nothing wrong with an entry: it is -1 modulo 2^32, or the count agrees
with it modulo 2^32. -/
def PassesUnseen (depth : Fin maxDepth) (boardIdx : Fin numBoards) : Prop :=
  (numNodes boardIdx depth).toInt ≡ -1 [ZMOD 2 ^ 32] ∨
    (numberOfMoves (boards boardIdx) depth).toInt ≡ (numNodes boardIdx depth).toInt [ZMOD 2 ^ 32]

theorem perftRound_runsIff (depth : Fin maxDepth) (boardIdx : Fin numBoards) :
    RunsIff (fun output => PerftLine.incorrectResults ∉ output)
      (PassesUnseen numberOfMoves boards numNodes depth boardIdx)
      fun output => perftRound numberOfMoves boards numNodes depth output boardIdx := by
  intro output hnot
  have hsentinel : (numNodes boardIdx depth).toInt32 = -1 ↔
      (numNodes boardIdx depth).toInt ≡ -1 [ZMOD 2 ^ 32] :=
    toInt32_eq_iff (numNodes boardIdx depth) (-1)
  have hequal := toInt32_eq_iff (numberOfMoves (boards boardIdx) depth) (numNodes boardIdx depth)
  unfold PassesUnseen perftRound
  rw [← hsentinel, ← hequal]
  by_cases hs : (numNodes boardIdx depth).toInt32 = -1
  · simp [hs, hnot]
  · by_cases he : (numberOfMoves (boards boardIdx) depth).toInt32 =
        (numNodes boardIdx depth).toInt32
    · simp [hs, he, hnot]
    · simp [hs, he]

/-- The driver runs to its end without a report exactly if every entry passes. -/
theorem perftLoop_accepts_iff :
    (∃ output, perftLoop numberOfMoves boards numNodes = .ok output ∧
      PerftLine.incorrectResults ∉ output) ↔
      ∀ depth boardIdx, PassesUnseen numberOfMoves boards numNodes depth boardIdx := by
  have hinner : ∀ depth : Fin maxDepth, RunsIff
      (fun output => PerftLine.incorrectResults ∉ output)
      (∀ boardIdx ∈ List.finRange numBoards,
        PassesUnseen numberOfMoves boards numNodes depth boardIdx)
      fun output => (List.finRange numBoards).foldlM
        (perftRound numberOfMoves boards numNodes depth) (output ++ [.depth depth]) := by
    intro depth output hnot
    exact RunsIff.foldlM
      (fun boardIdx _ => perftRound_runsIff numberOfMoves boards numNodes depth boardIdx)
      (output ++ [.depth depth]) (by simp [hnot])
  obtain ⟨hiff, hkeeps⟩ := RunsIff.foldlM (l := List.finRange maxDepth)
    (fun depth _ => hinner depth) [] List.not_mem_nil
  simp only [List.mem_finRange, true_imp_iff] at hiff
  rw [← hiff]
  constructor
  · rintro ⟨output, hrun, -⟩
    exact ⟨output, hrun⟩
  · rintro ⟨output, hrun⟩
    exact ⟨output, hrun, hkeeps output hrun⟩

/-- Every known count is right: it is the table's entry, as 64-bit numbers. -/
def CountsRight : Prop :=
  ∀ boardIdx depth, numNodes boardIdx depth ≠ -1 →
    numberOfMoves (boards boardIdx) depth = numNodes boardIdx depth

variable {numberOfMoves boards numNodes}

theorem CountsRight.passesUnseen (h : CountsRight numberOfMoves boards numNodes)
    (depth : Fin maxDepth) (boardIdx : Fin numBoards) :
    PassesUnseen numberOfMoves boards numNodes depth boardIdx := by
  by_cases hs : numNodes boardIdx depth = -1
  · left
    rw [hs]
    rfl
  · right
    rw [h boardIdx depth hs]

variable (numberOfMoves boards numNodes)

/-- A wrong count of a known entry is hidden from the driver by the narrowing. -/
def Hidden (depth : Fin maxDepth) (boardIdx : Fin numBoards) : Prop :=
  numNodes boardIdx depth ≠ -1 ∧
    numberOfMoves (boards boardIdx) depth ≠ numNodes boardIdx depth ∧
    PassesUnseen numberOfMoves boards numNodes depth boardIdx

/-- The driver accepts exactly the right counts if no wrong one is hidden from it, or if another
entry gives the run away; otherwise it does not. -/
theorem perftLoop_exact_iff :
    ((∃ output, perftLoop numberOfMoves boards numNodes = .ok output ∧
        PerftLine.incorrectResults ∉ output) ↔
      CountsRight numberOfMoves boards numNodes) ↔
      (∀ depth boardIdx, ¬Hidden numberOfMoves boards numNodes depth boardIdx) ∨
        ∃ depth boardIdx, ¬PassesUnseen numberOfMoves boards numNodes depth boardIdx := by
  rw [perftLoop_accepts_iff]
  constructor
  · intro hiff
    by_cases hall : ∀ depth boardIdx, PassesUnseen numberOfMoves boards numNodes depth boardIdx
    · left
      intro depth boardIdx hhidden
      exact hhidden.2.1 (hiff.mp hall boardIdx depth hhidden.1)
    · right
      simpa only [not_forall] using hall
  · rintro (hnone | ⟨depth, boardIdx, hseen⟩)
    · refine ⟨fun hall boardIdx depth hknown => ?_, fun hright => hright.passesUnseen⟩
      by_contra hwrong
      exact hnone depth boardIdx ⟨hknown, hwrong, hall depth boardIdx⟩
    · exact ⟨fun hall => absurd (hall depth boardIdx) hseen,
        fun hright => absurd (hright.passesUnseen depth boardIdx) hseen⟩

end Driver

/-- The listed positions are read without a fault, and they are well-formed boards with at most 16
pieces on either side. -/
theorem perftBoards_wellFormed : ∃ boards, perftBoards = .ok boards ∧ boards.length = numBoards ∧
    ∀ board ∈ boards, board.WellFormed ∧ ∀ c, popCount (board.friends c) ≤ 16 := by
  have hread : perftBoards.toOption.any (fun boards => boards.length = numBoards ∧
      ∀ board ∈ boards, board.WellFormed ∧ ∀ c, popCount (board.friends c) ≤ 16) = true := by
    decide +kernel
  obtain ⟨boards, hboards, hlist⟩ := exists_ok_of_any hread
  exact ⟨boards, hboards, of_decide_eq_true hlist⟩

/-- No known entry of the program's own table is taken for an unknown one. -/
theorem perftNumNodes_sentinel_iff (depth : Fin maxDepth) (boardIdx : Fin numBoards) :
    ((perftNumNodes.getD boardIdx []).getD depth (-1)).toInt ≡ -1 [ZMOD 2 ^ 32] ↔
      (perftNumNodes.getD boardIdx []).getD depth (-1) = -1 := by
  revert depth boardIdx
  decide

/-- With the program's own positions and table, `main` ends without a report exactly if every
known count is right modulo 2^32. -/
theorem perftMain_accepts_iff (numberOfMoves : Board → ℕ → Int64) :
    ∃ boards, perftBoards = .ok boards ∧
      ((∃ output, perftMain numberOfMoves = .ok (.ok output) ∧
          PerftLine.incorrectResults ∉ output) ↔
        ∀ (depth : Fin maxDepth) (boardIdx : Fin numBoards),
          (perftNumNodes.getD boardIdx []).getD depth (-1) ≠ -1 →
          (numberOfMoves (boards.getD boardIdx uninitializedBoard) depth).toInt ≡
            ((perftNumNodes.getD boardIdx []).getD depth (-1)).toInt [ZMOD 2 ^ 32]) := by
  obtain ⟨boards, hboards, -⟩ := perftBoards_wellFormed
  refine ⟨boards, hboards, ?_⟩
  have hmain : perftMain numberOfMoves = .ok (perftLoop numberOfMoves
      (fun boardIdx => boards.getD boardIdx uninitializedBoard)
      fun boardIdx depth => (perftNumNodes.getD boardIdx []).getD depth (-1)) := by
    rw [perftMain, hboards, ok_bind, pure_eq_ok]
  simp only [hmain, Except.ok.injEq]
  rw [perftLoop_accepts_iff]
  apply forall_congr'
  intro depth
  apply forall_congr'
  intro boardIdx
  rw [PassesUnseen, perftNumNodes_sentinel_iff, or_iff_not_imp_left]

/-- On the listed positions a count of 2^32 + 1 passes for the entry 1. -/
theorem perftLoop_accepts_wrong_counts : ∃ boards, perftBoards = .ok boards ∧
    (∃ output, perftLoop (fun _ _ => 4294967297)
        (fun boardIdx => boards.getD boardIdx uninitializedBoard) (fun _ _ => 1) = .ok output ∧
      PerftLine.incorrectResults ∉ output) ∧
    ¬CountsRight (fun _ _ => 4294967297)
      (fun boardIdx => boards.getD boardIdx uninitializedBoard) (fun _ _ => 1) := by
  obtain ⟨boards, hboards, -⟩ := perftBoards_wellFormed
  refine ⟨boards, hboards, ?_, ?_⟩
  · rw [perftLoop_accepts_iff]
    intro depth boardIdx
    have hcount : (4294967297 : Int64).toInt ≡ (1 : Int64).toInt [ZMOD 2 ^ 32] := by decide
    exact Or.inr hcount
  · intro hright
    have hequal := hright ⟨0, Nat.zero_lt_succ 6⟩ ⟨0, Nat.zero_lt_succ 7⟩ (by decide)
    have hdiffer : (4294967297 : Int64) ≠ 1 := by decide
    exact hdiffer hequal

end PawnGrabber
