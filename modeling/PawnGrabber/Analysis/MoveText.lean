import PawnGrabber.Model.Output
import PawnGrabber.Analysis.FenMeaning
import PawnGrabber.Analysis.Runs
import PawnGrabber.Rules.PlainType

/-!
# The text of a move

`square_to_str` writes the name of a square and `str_to_square` reads it. The pretty string of a
move is the names of its two squares, so in a position it stands for one legal move or for the
four promotions of one pawn.
-/

set_option autoImplicit false

namespace PawnGrabber

open ExceptFold Rules

/-! ## Squares -/

theorem rankIdx_bit (s : Square) : rankIdx s.bit = s.rank := by
  have := s.file.isLt
  rw [rankIdx, squareIdx_bit, Int.tdiv_eq_ediv_of_nonneg (by omega), Square.index]
  omega

theorem fileIdx_bit (s : Square) : fileIdx s.bit = s.file := by
  have := s.file.isLt
  rw [fileIdx, squareIdx_bit, Int.tmod_eq_emod_of_nonneg (by omega), Square.index]
  omega

theorem squareToStr_bit (s : Square) : squareToStr s.bit = .ok s.name := by
  have hfile : charPlus 'a' s.file = Char.ofNat (97 + s.file) := by
    rw [charPlus]
    exact congrArg Char.ofNat (by simp; omega)
  have hrank : charPlus '1' s.rank = Char.ofNat (49 + s.rank) := by
    rw [charPlus]
    exact congrArg Char.ofNat (by simp; omega)
  rw [squareToStr, isSquare_bit, rankIdx_bit, fileIdx_bit]
  simp only [hfile, hrank]
  rfl

theorem squareToStr_eq_ok_iff {sq : Bitboard} {text : StringView} :
    squareToStr sq = .ok text ↔ ∃ s : Square, sq = s.bit ∧ text = s.name := by
  constructor
  · intro h
    have hsquare : isSquare sq = true := by
      rw [squareToStr, bind_eq_ok] at h
      obtain ⟨u, hcheck, -⟩ := h
      exact Board.rawCheck_eq_ok_iff.mp hcheck
    obtain ⟨s, rfl⟩ := isSquare_iff.mp hsquare
    rw [squareToStr_bit, Except.ok.injEq] at h
    exact ⟨s, rfl, h.symm⟩
  · rintro ⟨s, rfl, rfl⟩
    exact squareToStr_bit s

@[simp] theorem Square.name_inj {s t : Square} : s.name = t.name ↔ s = t := by
  constructor
  · intro h
    have hread := strToSquare_name s
    rw [h, strToSquare_name, Except.ok.injEq, bit_inj] at hread
    exact hread.symm
  · rintro rfl
    rfl

/-! ## Moves -/

/-- The names of source and destination. -/
def Rules.ChessMove.text (m : ChessMove) : StringView := m.src.name ++ m.dst.name

theorem text_inj {m m' : ChessMove} : m.text = m'.text ↔ m.src = m'.src ∧ m.dst = m'.dst := by
  constructor
  · intro h
    obtain ⟨hsrc, hdst⟩ := List.append_inj h rfl
    exact ⟨Square.name_inj.mp hsrc, Square.name_inj.mp hdst⟩
  · rintro ⟨hsrc, hdst⟩
    rw [ChessMove.text, ChessMove.text, hsrc, hdst]

namespace Board

variable {b : Board} {m m' : ChessMove}

theorem toPrettyStr_encode (b : Board) (m : ChessMove) :
    (b.encode m).toPrettyStr = .ok m.text := by
  rw [Move.toPrettyStr, encode_srcSquare, encode_dstSquare, squareToStr_bit, squareToStr_bit]
  rfl

/-- The moves that a text can stand for: the move itself, or the promotions between its squares. -/
def sameText (move : Move) : List Move :=
  if move.moveType ∈ promotionMoveTypes then
    promotionMoveTypes.map fun type => { move with moveType := type }
  else [move]

theorem mem_sameText {move other : Move} :
    other ∈ sameText move ↔ other = move ∧ move.moveType ∉ promotionMoveTypes ∨
      move.moveType ∈ promotionMoveTypes ∧ other.moveType ∈ promotionMoveTypes ∧
        other = { move with moveType := other.moveType } := by
  rw [sameText]
  split_ifs with htype
  · rw [List.mem_map]
    constructor
    · rintro ⟨type, hmem, rfl⟩
      exact Or.inr ⟨htype, hmem, rfl⟩
    · rintro (⟨-, hnot⟩ | ⟨-, hmem, heq⟩)
      · exact absurd htype hnot
      · exact ⟨_, hmem, heq.symm⟩
  · rw [List.mem_singleton]
    constructor
    · intro heq
      exact Or.inl ⟨heq, htype⟩
    · rintro (⟨heq, -⟩ | ⟨hmem, -⟩)
      · exact heq
      · exact absurd hmem htype

theorem nodup_sameText (move : Move) : (sameText move).Nodup := by
  rw [sameText]
  split_ifs
  · apply List.Nodup.map
    · intro type type' heq
      exact congrArg Move.moveType heq
    · decide
  · exact List.nodup_singleton move

/-- A legal move has the text of another exactly if it is one that the text can stand for. -/
theorem legal_text_iff (h : b.WellFormed) (hm : b.position.Legal m) (other : Move) :
    (∃ m', b.position.Legal m' ∧ other = b.encode m' ∧ m'.text = m.text) ↔
      other ∈ sameText (b.encode m) := by
  rw [mem_sameText]
  constructor
  · rintro ⟨m', hm', rfl, htext⟩
    obtain ⟨hsrc, hdst⟩ := text_inj.mp htext
    rcases hm.performable.eq_of_squares h.position hm'.performable hsrc hdst with
      ⟨rfl, hnot⟩ | ⟨htype, htype', heq⟩
    · exact Or.inl ⟨rfl, hnot⟩
    · exact Or.inr ⟨htype, htype', congrArg b.encode heq⟩
  · rintro (⟨rfl, -⟩ | ⟨htype, htype', heq⟩)
    · exact ⟨m, hm, rfl, rfl⟩
    · exact ⟨_, hm.promotions htype htype', heq, rfl⟩

/-! ## Promotions -/

/-- What a pawn is promoted to by a move, as a move type. -/
def promotionType (move : Move) : Option MoveType :=
  if move.moveType ∈ promotionMoveTypes then some move.moveType else none

theorem promotionType_of_mem (htype : m.type ∈ promotionMoveTypes) :
    promotionType (b.encode m) = some m.type := if_pos htype

/-- Text and promotion identify a legal move. -/
theorem eq_of_text (h : b.WellFormed) (hm : b.position.Legal m) (hm' : b.position.Legal m')
    (htext : (b.encode m).toPrettyStr = (b.encode m').toPrettyStr)
    (hpromotion : promotionType (b.encode m) = promotionType (b.encode m')) : m = m' := by
  rw [toPrettyStr_encode, toPrettyStr_encode, Except.ok.injEq, text_inj] at htext
  rcases hm'.performable.eq_of_squares h.position hm.performable htext.1 htext.2 with
    ⟨heq, -⟩ | ⟨htype', htype, heq⟩
  · exact heq
  · rw [promotionType_of_mem htype, promotionType_of_mem htype', Option.some.injEq] at hpromotion
    rw [heq, hpromotion]

end Board

end PawnGrabber
