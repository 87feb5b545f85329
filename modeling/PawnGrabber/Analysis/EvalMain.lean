import PawnGrabber.Analysis.IntLiteral
import PawnGrabber.Analysis.MoveText
import PawnGrabber.Analysis.SearchResult

/-!
# The run of the evaluation program

`main` of `eval.cc` reads its two arguments, searches and prints. A depth that is not negative
bounds the recursion of `alpha_beta`; a negative one never comes to 0, and then the recursion
ends only where no move is left.
-/

set_option autoImplicit false

namespace PawnGrabber

open ExceptFold Rules GameSearch

/-! ## The depth argument -/

theorem IntLiteral.atoiValue_eq {text : StringView} {v : ℤ} (h : IntLiteral text v) :
    atoiValue text = v := by
  obtain ⟨-, left, sign, digits, right, rfl, hleft, hright, ⟨hne, hdigits⟩, hvalue⟩ := h
  have htake : (digits ++ right).takeWhile Char.isDigit = digits := by
    rw [List.takeWhile_append_of_pos hdigits]
    cases right with
    | nil => simp
    | cons c right =>
      have hc : c.isDigit ≠ true := by
        intro hdigit
        have hspace := (asciiToInt_of_isDigit hdigit).2.1
        rw [hright c List.mem_cons_self] at hspace
        cases hspace
      rw [List.takeWhile_cons_of_neg hc, List.append_nil]
  have hdrop : (left ++ (sign ++ digits) ++ right).dropWhile asciiIsspace =
      (sign ++ (digits ++ right)).dropWhile asciiIsspace := by
    rw [List.append_assoc, List.dropWhile_append_of_pos hleft, List.append_assoc]
  rw [atoiValue, hdrop]
  rcases hvalue with ⟨rfl, rfl | rfl⟩ | ⟨rfl, rfl⟩
  · cases digits with
    | nil => exact absurd rfl hne
    | cons c digits =>
      obtain ⟨-, hspace, hminus, hplus, -⟩ :=
        asciiToInt_of_isDigit (hdigits c List.mem_cons_self)
      rw [List.nil_append, List.cons_append, List.dropWhile_cons_of_neg (by simp [hspace])]
      simp only [if_neg hminus, if_neg hplus]
      rw [← List.cons_append, htake]
  · rw [List.singleton_append, List.dropWhile_cons_of_neg (by decide)]
    simp only [if_neg (show '+' ≠ '-' by decide), if_true, htake]
  · rw [List.singleton_append, List.dropWhile_cons_of_neg (by decide)]
    simp only [if_true, htake]

/-- `atoi` reads the integer literals that `SimpleAtoi` accepts. -/
theorem IntLiteral.toInt_atoi {text : StringView} {v : ℤ} (h : IntLiteral text v) :
    (atoi text).toInt = v := by
  rw [atoi, h.atoiValue_eq, h.toInt_ofInt]

/-! ## The depth of the search -/

theorem toInt_depth_sub_one {depth : Int32} (h : -2 ^ 31 < depth.toInt) :
    (depth - 1).toInt = depth.toInt - 1 := by
  have hhigh := depth.toInt_lt
  rw [Int32.toInt_sub, Int32.toInt_one]
  exact Int.bmod_eq_of_le (by omega) (by omega)

/-- With a depth that is not negative the recursion is as deep as that. -/
theorem alphaBetaInt_eq_alphaBeta {fuel d bound : ℕ} {depth : Int32} (hdepth : depth.toInt = d)
    (hbound : d < bound) (board : Board) (α β : ℤ) (pv : List Move) :
    alphaBetaInt fuel bound depth board α β pv = alphaBeta fuel d board α β pv := by
  have hzero : depth = 0 ↔ d = 0 := by
    rw [← Int32.toInt_inj, hdepth, Int32.toInt_zero, Int.natCast_eq_zero]
  induction d generalizing bound depth board α β pv with
  | zero =>
    obtain ⟨bound, rfl⟩ := Nat.exists_eq_succ_of_ne_zero (Nat.ne_of_gt hbound)
    rw [alphaBetaInt, alphaBeta]
    simp [hzero.mpr rfl]
  | succ d ih =>
    obtain ⟨bound, rfl⟩ := Nat.exists_eq_succ_of_ne_zero (Nat.ne_zero_of_lt hbound)
    have hpred : (depth - 1).toInt = d := by
      rw [toInt_depth_sub_one (by omega)]
      omega
    have hne : ¬depth = 0 := fun h => Nat.succ_ne_zero d (hzero.mp h)
    have hrecurse : (fun child a b => alphaBetaInt fuel bound (depth - 1) child a b []) =
        fun child a b => alphaBeta fuel d child a b [] := by
      funext child a b
      refine ih hpred (Nat.lt_of_succ_lt_succ hbound) child a b [] ?_
      rw [← Int32.toInt_inj, hpred, Int32.toInt_zero, Int.natCast_eq_zero]
    rw [alphaBetaInt, alphaBeta]
    simp only [hne, false_or, hrecurse]

/-- At a negative depth the search returns only if a line of legal moves ends the game, as long as
the depth has not come to the end of the `int` range. -/
theorem exists_run_of_alphaBetaInt {fuel bound : ℕ} {depth : Int32} (h : depth.toInt < 0)
    (hbound : bound ≤ depth.toInt + 2 ^ 31) (g : PlayBoard)
    {α β : ℤ} {pv : List Move} {r : ℤ × List Move}
    (hreturns : alphaBetaInt fuel bound depth g.1 α β pv = .ok r) :
    ∃ line f, LegalRun g.1 line f ∧ f.legalMoves = .ok [] ∧ line.length < bound := by
  induction bound generalizing depth g α β pv r with
  | zero => cases hreturns
  | succ bound ih =>
    rw [alphaBetaInt, bind_eq_ok] at hreturns
    obtain ⟨_, -, hreturns⟩ := hreturns
    rw [g.legalMoves_eq, ok_bind] at hreturns
    cases hmoves : g.children with
    | nil =>
      exact ⟨[], g.1, .nil g.1, PlayBoard.legalMoves_of_no_children hmoves, Nat.succ_pos bound⟩
    | cons x xs =>
      have hx : x ∈ g.children := hmoves ▸ List.mem_cons_self
      have hpred : (depth - 1).toInt = depth.toInt - 1 := toInt_depth_sub_one (by omega)
      have hne : ¬depth = 0 := by
        rintro rfl
        rw [Int32.toInt_zero] at h
        omega
      rw [← PlayBoard.map_fst_children, hmoves, List.map_cons, List.length_cons,
        if_neg (by simp [hne]), searchLoop, PlayBoard.doMove_of_mem_children hx, ok_bind,
        bind_eq_ok] at hreturns
      obtain ⟨r', hchild, -⟩ := hreturns
      obtain ⟨line, f, hrun, hend, hlength⟩ := ih (by omega) (by omega) x.2 hchild
      obtain ⟨hlegal, -⟩ := PlayBoard.mem_children.mp hx
      exact ⟨x.1 :: line, f,
        .cons g.legalMoves_eq hlegal (PlayBoard.doMove_of_mem_children hx) hrun, hend,
        Nat.succ_lt_succ hlength⟩

/-! ## The printed line -/

/-- Every move of a run has a text. -/
theorem exists_texts {b f : Board} {line : List Move} (h : b.WellFormed)
    (run : LegalRun b line f) : ∃ texts, line.mapM Move.toPrettyStr = .ok texts := by
  refine h.run (P := fun _ line _ => ∃ texts, line.mapM Move.toPrettyStr = .ok texts)
    (fun _ => ⟨[], rfl⟩) ?_ run
  intro b b₁ b' m line _ _ _ _ ih
  obtain ⟨texts, htexts⟩ := ih
  refine ⟨m.text :: texts, ?_⟩
  rw [List.mapM_cons, Board.toPrettyStr_encode, ok_bind, htexts, ok_bind]
  rfl

end PawnGrabber
