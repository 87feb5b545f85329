import PawnGrabber.Analysis.FenText
import PawnGrabber.Analysis.IntLiteral

/-!
# What an accepted text says

`FenMeans` is the meaning of six fields as a board: the letters of the placement at their
offsets, the side to move, a castling right for each of its letters, a square for the en passant
field and integer literals for the counters. The constructor accepts a text exactly if its fields
mean some board, and then builds that board.
-/

set_option autoImplicit false

namespace PawnGrabber

open ExceptFold Rules

namespace Board

variable {b b' : Board} {text : StringView}

/-- The fields of a text mean the board. Fields after the sixth mean nothing, nor do the
characters behind the name of the en passant square, nor characters of the castling field other
than the four letters. -/
structure FenMeans (fields : List StringView) (b : Board) : Prop where
  length : 6 ≤ fields.length
  known : ∀ c ∈ fields.getD 0 [], Known c
  onBoard : CursorOnBoard (fields.getD 0 [])
  placement : Written (fields.getD 0 []) b
  sideToMove : fields.getD 1 [] = if b.isWhitesMove then ['w'] else ['b']
  castling : ∀ c w, b.rights c w = true ↔ castlingLetter (c, w) ∈ fields.getD 2 []
  enPassant : (fields.getD 3 [] = ['-'] ∧ b.enPassantSquare = none) ∨
    ∃ s : Square, s.name <+: fields.getD 3 [] ∧ b.enPassantSquare = some s.bit
  fiftyMoveClock : IntLiteral (fields.getD 4 []) b.fiftyMoveClock.toInt
  numMoves : IntLiteral (fields.getD 5 []) b.numMoves.toInt

/-! ## The fields -/

theorem fieldAt_eq_ok_iff {fields : List StringView} {i : ℕ} {field : StringView} :
    fieldAt fields i = .ok field ↔ i < fields.length ∧ fields.getD i [] = field := by
  rw [fieldAt, List.getD_eq_getElem?_getD]
  by_cases hi : i < fields.length
  · simp [hi]
  · simp [hi]

/-- A placement is read if all characters are known and met on the board, and the letters it
writes are the whole content of the bitboards. -/
theorem initBitboards_eq_ok (h : b.initBitboards text = .ok b') :
    CursorOnBoard text ∧ (∀ c ∈ text, Known c) ∧ Written text b' := by
  change (text.foldlM initBitboardsStep (cursorAt b.zeroAllBitboards []) >>= _) = _ at h
  obtain ⟨cursor, hfold, hboard⟩ := bind_eq_ok.mp h
  rcases foldlM_initBitboardsStep b.zeroAllBitboards (written_zeroAllBitboards b) text with
    ⟨honBoard, hknown, b'', hok, hwritten⟩ | ⟨-, -, herror⟩ | ⟨-, herror⟩
  · rw [hok, Except.ok.injEq] at hfold
    rw [← hfold, pure_eq_ok, Except.ok.injEq] at hboard
    exact ⟨honBoard, hknown, hboard ▸ hwritten⟩
  · rw [herror] at hfold
    cases hfold
  · rw [herror] at hfold
    cases hfold

theorem exists_initBitboards (b : Board) (honBoard : CursorOnBoard text)
    (hknown : ∀ c ∈ text, Known c) :
    ∃ b', b.initBitboards text = .ok b' ∧ Written text b' := by
  rcases foldlM_initBitboardsStep b.zeroAllBitboards (written_zeroAllBitboards b) text with
    ⟨-, -, b', hok, hwritten⟩ | ⟨-, hunknown, -⟩ | ⟨hpast, -⟩
  · refine ⟨b', ?_, hwritten⟩
    change (text.foldlM initBitboardsStep (cursorAt b.zeroAllBitboards []) >>= _) = _
    rw [hok]
    rfl
  · exact absurd hknown hunknown
  · exact absurd honBoard hpast

/-- The placement determines the bitboards. -/
theorem Written.bitboard_eq (h : Written text b) (h' : Written text b') :
    b.bitboard = b'.bitboard := by
  funext x
  apply has_ext
  intro s
  rw [Bool.eq_iff_iff, h x s, h' x s]

theorem initIsWhitesMove_eq_ok_iff :
    b.initIsWhitesMove text = .ok b' ↔
      ∃ white, text = (if white = true then ['w'] else ['b']) ∧
        b' = { b with isWhitesMove := white } := by
  rw [Bool.exists_bool]
  by_cases hw : text = ['w']
  · subst hw
    simp [initIsWhitesMove, rawCheck, eq_comm]
  · by_cases hb : text = ['b']
    · subst hb
      simp [initIsWhitesMove, rawCheck, eq_comm]
    · simp [initIsWhitesMove, rawCheck, hw, hb]

theorem strToSquare_eq_ok_iff {sq : Bitboard} :
    strToSquare text = .ok sq ↔ ∃ s : Square, s.name <+: text ∧ sq = s.bit := by
  constructor
  · intro h
    have hname : NamesSquare text := by
      by_contra hnot
      by_cases hlength : 2 ≤ text.length
      · obtain ⟨message, hmessage⟩ := strToSquare_of_not_namesSquare hlength hnot
        rw [hmessage] at h
        cases h
      · rw [strToSquare_of_length_lt hlength] at h
        cases h
    obtain ⟨s, hs⟩ := hname
    obtain ⟨rest, rfl⟩ := hs
    refine ⟨s, List.prefix_append _ _, ?_⟩
    have hread : strToSquare (s.name ++ rest) = .ok s.bit := by
      rw [← strToSquare_name]
      rfl
    rw [hread, Except.ok.injEq] at h
    exact h.symm
  · rintro ⟨s, ⟨rest, rfl⟩, rfl⟩
    rw [← strToSquare_name]
    rfl

theorem initEnPassant_eq_ok_iff :
    b.initEnPassant text = .ok b' ↔
      ∃ ep, ((text = ['-'] ∧ ep = none) ∨ ∃ s : Square, s.name <+: text ∧ ep = some s.bit) ∧
        b' = { b with enPassantSquare := ep } := by
  rw [initEnPassant]
  by_cases hdash : text = ['-']
  · subst hdash
    have hname : ∀ s : Square, ¬s.name <+: ['-'] := by
      intro s hs
      have hlength := hs.length_le
      simp [Square.name] at hlength
    simp [hname, eq_comm]
  · rw [if_neg (by simpa using hdash), bind_eq_ok]
    simp only [strToSquare_eq_ok_iff, pure_eq_ok, Except.ok.injEq, hdash, false_and, false_or]
    constructor
    · rintro ⟨sq, ⟨s, hs, rfl⟩, rfl⟩
      exact ⟨_, ⟨s, hs, rfl⟩, rfl⟩
    · rintro ⟨ep, ⟨s, hs, rfl⟩, rfl⟩
      exact ⟨_, ⟨s, hs, rfl⟩, rfl⟩

theorem rights_initCastlingRights (b : Board) (c : Color) (w : Wing) :
    (b.initCastlingRights text).rights c w = true ↔ castlingLetter (c, w) ∈ text := by
  rw [← List.contains_iff_mem]
  cases c <;> cases w <;> rfl

theorem rawCheck_eq_ok_iff {condition : Bool} {message : String} {u : Unit} :
    rawCheck condition message = .ok u ↔ condition = true := by
  cases condition <;> simp [rawCheck]

/-! ## The constructor -/

/-- A board that is read is what the text means. -/
theorem fenMeans_of_ofFen {fen : StringView} (h : ofFen fen = .ok b) :
    FenMeans (fen.splitOn ' ') b := by
  rw [ofFen] at h
  simp only [bind_eq_ok, fieldAt_eq_ok_iff, initIsWhitesMove_eq_ok_iff, initEnPassant_eq_ok_iff,
    rawCheck_eq_ok_iff, pure_eq_ok, Except.ok.injEq, Option.isSome_iff_exists] at h
  obtain ⟨_, ⟨-, rfl⟩, b₁, hplacement, h⟩ := h
  obtain ⟨_, ⟨-, rfl⟩, _, ⟨white, hside, rfl⟩, _, ⟨-, rfl⟩, h⟩ := h
  obtain ⟨_, ⟨-, rfl⟩, _, ⟨ep, hep, rfl⟩, h⟩ := h
  obtain ⟨_, ⟨-, rfl⟩, _, ⟨fifty, hfifty⟩, _, ⟨hlength, rfl⟩, _, ⟨num, hnum⟩, rfl⟩ := h
  obtain ⟨honBoard, hknown, hwritten⟩ := initBitboards_eq_ok hplacement
  have hcounter : ∀ {text : StringView} {v : ℤ}, simpleAtoi text = some v →
      IntLiteral text (Int32.ofInt v).toInt := by
    intro text v hv
    have hliteral := (simpleAtoi_eq_some_iff _ _).mp hv
    rwa [hliteral.toInt_ofInt]
  rw [hfifty, hnum]
  exact {
    length := hlength
    known := hknown
    onBoard := honBoard
    placement := hwritten
    sideToMove := hside
    castling := rights_initCastlingRights { b₁ with isWhitesMove := white }
    enPassant := hep
    fiftyMoveClock := hcounter hfifty
    numMoves := hcounter hnum }

/-- A board that the text means is read. -/
theorem FenMeans.ofFen_eq {fen : StringView} (h : FenMeans (fen.splitOn ' ') b) :
    ofFen fen = .ok b := by
  obtain ⟨b₁, hplacement, hwritten⟩ := exists_initBitboards uninitializedBoard h.onBoard h.known
  have hfifty := (simpleAtoi_eq_some_iff _ _).mpr h.fiftyMoveClock
  have hnum := (simpleAtoi_eq_some_iff _ _).mpr h.numMoves
  have hlength := h.length
  have hbitboard := hwritten.bitboard_eq h.placement
  have hrights : ∀ c w, castlingLetter (c, w) ∈ (fen.splitOn ' ').getD 2 [] ↔
      b.rights c w = true := fun c w => (h.castling c w).symm
  rw [ofFen]
  simp only [bind_eq_ok, fieldAt_eq_ok_iff, initIsWhitesMove_eq_ok_iff, initEnPassant_eq_ok_iff,
    rawCheck_eq_ok_iff, pure_eq_ok, Except.ok.injEq, Option.isSome_iff_exists]
  refine ⟨_, ⟨by omega, rfl⟩, b₁, hplacement, _, ⟨by omega, rfl⟩, _, ⟨_, h.sideToMove, rfl⟩,
    _, ⟨by omega, rfl⟩, _, ⟨by omega, rfl⟩, _, ⟨_, h.enPassant, rfl⟩, _, ⟨by omega, rfl⟩, (),
    ⟨_, hfifty⟩, _, ⟨by omega, rfl⟩, (), ⟨_, hnum⟩, ?_⟩
  simp only [hfifty, hnum, Option.getD_some, Int32.ofInt_toInt]
  apply ext_of_status
  · intro ptr
    rw [← hbitboard]
    rcases ptr with ⟨_ | _, _ | _ | _ | _ | _ | _⟩ <;> rfl
  · have hcontains : ∀ c w, ((fen.splitOn ' ').getD 2 []).contains (castlingLetter (c, w)) =
        b.rights c w := by
      intro c w
      rw [Bool.eq_iff_iff, List.contains_iff_mem, hrights]
    exact congrArg (fun r => (b.isWhitesMove, b.enPassantSquare, r, b.fiftyMoveClock, b.numMoves))
      (Prod.ext (hcontains .white .kingside) (Prod.ext (hcontains .white .queenside)
        (Prod.ext (hcontains .black .kingside) (hcontains .black .queenside))))

end Board

end PawnGrabber
