import PawnGrabber.Model.Output
import PawnGrabber.Analysis.FenSpelling
import PawnGrabber.Analysis.Runs

/-!
# The printed board

`to_pretty_str` writes a frame of line drawing symbols with one symbol for each square. All
fields have a fixed width, so the text determines what stands on every square.
-/

set_option autoImplicit false

namespace PawnGrabber

open ExceptFold Rules

/-! ## Fields of a fixed width -/

/-- Texts put together from fields of equal widths are equal only if all fields are. -/
theorem flatMap_inj_of_length {α β : Type} {f g : α → List β} {l : List α}
    (hlength : ∀ a, (f a).length = (g a).length) :
    l.flatMap f = l.flatMap g ↔ ∀ a ∈ l, f a = g a := by
  induction l with
  | nil => simp
  | cons a l ih =>
    rw [List.flatMap_cons, List.flatMap_cons, List.forall_mem_cons, ← ih]
    constructor
    · intro h
      exact List.append_inj h (hlength a)
    · intro h
      rw [h.1, h.2]

/-- A loop whose rounds append a text each. -/
theorem foldlM_append_text {f : String → ℕ → Checked String} {g : ℕ → List Char} {l : List ℕ}
    (h : ∀ a ∈ l, ∀ res, ∃ text, f res a = .ok text ∧ text.toList = res.toList ++ g a)
    (res : String) :
    ∃ text, l.foldlM f res = .ok text ∧ text.toList = res.toList ++ l.flatMap g := by
  induction l generalizing res with
  | nil => exact ⟨res, rfl, by simp⟩
  | cons a l ih =>
    obtain ⟨text, hround, htext⟩ := h a List.mem_cons_self res
    obtain ⟨text', hrest, htext'⟩ := ih (fun a' ha' => h a' (List.mem_cons_of_mem _ ha')) text
    refine ⟨text', ?_, ?_⟩
    · rw [List.foldlM_cons, hround, ok_bind, hrest]
    · rw [htext', htext, List.flatMap_cons, List.append_assoc]

/-- A loop whose rounds append leaves the text it started with in front. -/
theorem foldl_append_text {f : String → ℕ → String}
    (h : ∀ res tail a, f (res ++ tail) a = res ++ f tail a) (l : List ℕ) (res tail : String) :
    l.foldl f (res ++ tail) = res ++ l.foldl f tail := by
  induction l generalizing tail with
  | nil => rfl
  | cons a l ih => rw [List.foldl_cons, List.foldl_cons, h, ih]

/-! ## The text -/

/-- The field of a square: its symbol between blanks, and the line to its right. -/
def cellText (x : Option (Color × Piece)) : List Char :=
  [' '] ++ (unicodeSymbol x).toList ++ [' '] ++ vertical.toList

def squareAt (file rank : ℕ) : Square := ⟨⟨file % 8, by omega⟩, ⟨rank % 8, by omega⟩⟩

/-- The row of pieces of a rank, and the dividing line below it. -/
def rankText (mb : Mailbox) (rank : ℕ) : List Char :=
  ([charPlus '1' rank] ++ [' '] ++ vertical.toList) ++
    (List.range boardSize).flatMap (fun file => cellText (mb (squareAt file rank))) ++ ['\n'] ++
    (if rank ≠ 0 then
      (appendJoints "┼" ("  " ++ "├") ++ (horizontal ++ horizontal ++ horizontal ++ "┤") ++
        "\n").toList
    else [])

/-- What stands above the ranks. -/
def topText : String :=
  appendJoints "┬" ("" ++ "  " ++ "┌") ++ (horizontal ++ horizontal ++ horizontal) ++ "┐" ++ "\n"

/-- What stands below the ranks. -/
def bottomText : String :=
  (List.range (boardSize - 1)).foldl
    (fun res (i : ℕ) => res ++ " " ++ String.singleton (charPlus 'a' i) ++ "  ")
    (appendJoints "┴" ("  " ++ "└") ++ (horizontal ++ horizontal ++ horizontal) ++ "┘" ++ "\n" ++
      "   ") ++ " " ++ "h" ++ "\n"

def boardText (mb : Mailbox) : List Char :=
  topText.toList ++ (List.range boardSize).reverse.flatMap (rankText mb) ++ bottomText.toList

theorem appendJoints_append (joint res tail : String) :
    appendJoints joint (res ++ tail) = res ++ appendJoints joint tail := by
  apply foldl_append_text
  intro res tail i
  simp only [String.append_assoc]

namespace Board

variable {b b' : Board}

theorem appendRow_text (hb : b.Disjoint) {rank : ℕ} (hrank : rank < 8) (res : String) :
    ∃ text, b.appendRow rank res = .ok text ∧ text.toList = res.toList ++
      (List.range boardSize).flatMap fun file => cellText (b.mailbox (squareAt file rank)) := by
  apply foldlM_append_text
  intro file hfile res
  have hlt : file < 8 := List.mem_range.mp hfile
  have hsquare := occupiersUnicodeSymbol_eq hb (squareAt file rank)
  have hcoords : ((squareAt file rank).file : ℕ) = file ∧ ((squareAt file rank).rank : ℕ) = rank :=
    ⟨Nat.mod_eq_of_lt hlt, Nat.mod_eq_of_lt hrank⟩
  rw [hcoords.1, hcoords.2] at hsquare
  refine ⟨_, by rw [hsquare, ok_bind, pure_eq_ok], ?_⟩
  simp [cellText]

theorem appendRank_text (hb : b.Disjoint) {rank : ℕ} (hrank : rank < 8) (res : String) :
    ∃ text, b.appendRank res rank = .ok text ∧
      text.toList = res.toList ++ rankText b.mailbox rank := by
  obtain ⟨row, hrow, htext⟩ := appendRow_text hb hrank
    (res ++ String.singleton (charPlus '1' rank) ++ " " ++ vertical)
  refine ⟨_, by rw [appendRank, hrow, ok_bind, pure_eq_ok], ?_⟩
  rw [rankText]
  split_ifs
  · have hdivider := appendJoints_append "┼" (row ++ "\n") ("  " ++ "├")
    rw [← String.append_assoc] at hdivider
    rw [hdivider]
    simp [htext]
  · simp [htext]

/-- On a board with disjoint bitboards `to_pretty_str` returns, and its text is a function of
the occupants. -/
theorem toPrettyStr_text (hb : b.Disjoint) :
    ∃ text, b.toPrettyStr = .ok text ∧ text.toList = boardText b.mailbox := by
  obtain ⟨rows, hrows, htext⟩ := foldlM_append_text (f := b.appendRank) (g := rankText b.mailbox)
    (l := (List.range boardSize).reverse)
    (fun rank hrank => appendRank_text hb (List.mem_range.mp (List.mem_reverse.mp hrank))) topText
  have hrows' : (List.range boardSize).reverse.foldlM b.appendRank (appendJoints "┬"
      ("" ++ "  " ++ "┌") ++ (horizontal ++ horizontal ++ horizontal) ++ "┐" ++ "\n") = .ok rows :=
    hrows
  refine ⟨_, by rw [toPrettyStr, hrows', ok_bind, pure_eq_ok], ?_⟩
  have hbottom := appendJoints_append "┴" rows ("  " ++ "└")
  rw [← String.append_assoc] at hbottom
  rw [hbottom]
  simp only [String.append_assoc]
  rw [foldl_append_text (by intro res tail a; simp only [String.append_assoc])]
  rw [String.append_assoc, String.toList_append, htext, boardText, List.append_assoc,
    List.append_assoc]
  simp only [bottomText, String.append_assoc]

end Board

/-! ## Reading the text back -/

theorem length_cellText (x : Option (Color × Piece)) : (cellText x).length = 4 := by
  revert x
  decide

theorem cellText_injective : Function.Injective cellText := by
  intro x y
  revert x y
  decide

theorem squareAt_file_rank (s : Square) : squareAt s.file s.rank = s :=
  Square.ext (Fin.ext (Nat.mod_eq_of_lt s.file.isLt)) (Fin.ext (Nat.mod_eq_of_lt s.rank.isLt))

theorem length_rankText (mb mb' : Mailbox) (rank : ℕ) :
    (rankText mb rank).length = (rankText mb' rank).length := by
  simp only [rankText, List.length_append, List.length_flatMap, length_cellText]

theorem rankText_inj {mb mb' : Mailbox} {rank : ℕ} (h : rankText mb rank = rankText mb' rank)
    {file : ℕ} (hfile : file < 8) : mb (squareAt file rank) = mb' (squareAt file rank) := by
  unfold rankText at h
  rw [List.append_left_inj, List.append_left_inj, List.append_right_inj] at h
  have hcells := (flatMap_inj_of_length fun file => by
    rw [length_cellText, length_cellText]).mp h
  exact cellText_injective (hcells file (List.mem_range.mpr hfile))

/-- The text shows what stands on every square. -/
theorem boardText_inj {mb mb' : Mailbox} : boardText mb = boardText mb' ↔ mb = mb' := by
  constructor
  · intro h
    unfold boardText at h
    rw [List.append_left_inj, List.append_right_inj] at h
    have hranks := (flatMap_inj_of_length (length_rankText mb mb')).mp h
    funext s
    rw [← squareAt_file_rank s]
    apply rankText_inj _ s.file.isLt
    exact hranks s.rank (List.mem_reverse.mpr (List.mem_range.mpr s.rank.isLt))
  · rintro rfl
    rfl

namespace Board

variable {b b' : Board}

theorem toPrettyStr_eq_iff (hb : b.Disjoint) (hb' : b'.Disjoint) :
    b.toPrettyStr = b'.toPrettyStr ↔ b.mailbox = b'.mailbox := by
  obtain ⟨text, hread, htext⟩ := toPrettyStr_text hb
  obtain ⟨text', hread', htext'⟩ := toPrettyStr_text hb'
  rw [hread, hread', Except.ok.injEq, ← String.toList_inj, htext, htext', boardText_inj]

/-! ## A single bitboard -/

/-- The board on which `bb_to_pretty_str` shows a bitboard as black pawns. -/
def pawnsOnly (bb : Bitboard) : Board := { startBoard.zeroAllBitboards with blackPawns := bb }

theorem bitboard_pawnsOnly (bb : Bitboard) (ptr : BitboardPtr) :
    (pawnsOnly bb).bitboard ptr = if ptr = (.black, .pawn) then bb else 0#64 := by
  rcases ptr with ⟨_ | _, _ | _ | _ | _ | _ | _⟩ <;> rfl

theorem disjoint_pawnsOnly (bb : Bitboard) : (pawnsOnly bb).Disjoint := by
  intro x y hxy
  rw [bitboard_pawnsOnly, bitboard_pawnsOnly]
  split_ifs with hx hy
  · exact absurd (hx.trans hy.symm) hxy
  · exact BitVec.and_zero
  · exact BitVec.zero_and
  · exact BitVec.zero_and

theorem mailbox_pawnsOnly_inj {bb bb' : Bitboard} :
    (pawnsOnly bb).mailbox = (pawnsOnly bb').mailbox ↔ bb = bb' := by
  constructor
  · intro h
    exact bitboard_eq_of_mailbox_eq (disjoint_pawnsOnly bb) (disjoint_pawnsOnly bb') h
      (.black, .pawn)
  · rintro rfl
    rfl

theorem bbToPrettyStr_eq (bb : Bitboard) : bbToPrettyStr bb = (pawnsOnly bb).toPrettyStr := by
  rw [bbToPrettyStr, start_eq, ok_bind]
  rfl

end Board

end PawnGrabber
