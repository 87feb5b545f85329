import PawnGrabber.Model.LegalMoves
import PawnGrabber.Rules.Position
import PawnGrabber.Analysis.Squares

/-!
# The position a board stands for

`Board.mailbox` reads the twelve bitboards as a map from squares to pieces, by the same
first-match search `remove_piece_on` and `move_piece` make. On pairwise disjoint
bitboards the two descriptions determine each other, and every mask of the program is a
question about the mailbox. `Board.position` adds the remaining fields the rules look at.
-/

set_option autoImplicit false

namespace PawnGrabber

open ExceptFold Rules

theorem mem_allBitboards (ptr : BitboardPtr) : ptr ∈ allBitboards := by
  revert ptr
  decide

namespace Board

variable {b : Board}

/-- The twelve bitboards are pairwise disjoint. -/
def Disjoint (b : Board) : Prop :=
  ∀ p q : BitboardPtr, p ≠ q → b.bitboard p &&& b.bitboard q = 0

instance (b : Board) : Decidable b.Disjoint :=
  inferInstanceAs
    (Decidable (∀ p q : Color × Piece, p ≠ q → b.bitboard p &&& b.bitboard q = 0))

/-- The twelve members, each as the bitboard its colour and piece point to. -/
theorem members_eq (b : Board) :
    b.whitePawns = b.bitboard (.white, .pawn) ∧ b.whiteRooks = b.bitboard (.white, .rook) ∧
      b.whiteKnights = b.bitboard (.white, .knight) ∧
      b.whiteBishops = b.bitboard (.white, .bishop) ∧
      b.whiteQueens = b.bitboard (.white, .queen) ∧ b.whiteKing = b.bitboard (.white, .king) ∧
      b.blackPawns = b.bitboard (.black, .pawn) ∧ b.blackRooks = b.bitboard (.black, .rook) ∧
      b.blackKnights = b.bitboard (.black, .knight) ∧
      b.blackBishops = b.bitboard (.black, .bishop) ∧
      b.blackQueens = b.bitboard (.black, .queen) ∧ b.blackKing = b.bitboard (.black, .king) :=
  ⟨rfl, rfl, rfl, rfl, rfl, rfl, rfl, rfl, rfl, rfl, rfl, rfl⟩

/-- The occupant of a square: the first bitboard that has it. -/
def mailbox (b : Board) : Mailbox := fun s => b.findBitboard s.bit

theorem mailbox_eq_find (b : Board) (s : Square) :
    b.mailbox s = allBitboards.find? fun ptr => has (b.bitboard ptr) s := by
  simp [mailbox, findBitboard]

theorem has_of_mailbox {s : Square} {ptr : BitboardPtr} (h : b.mailbox s = some ptr) :
    has (b.bitboard ptr) s = true := by
  rw [mailbox_eq_find] at h
  exact List.find?_some (p := fun ptr => has (b.bitboard ptr) s) h

/-- Disjoint bitboards share no square. -/
theorem Disjoint.eq_of_has (hb : b.Disjoint) {s : Square} {p q : BitboardPtr}
    (hp : has (b.bitboard p) s = true) (hq : has (b.bitboard q) s = true) : p = q := by
  by_contra hne
  have := congrArg (has · s) (hb p q hne)
  simp [hp, hq] at this

/-- On disjoint bitboards the occupant of a square is the bitboard that has it. -/
theorem Disjoint.mailbox_eq_some_iff (hb : b.Disjoint) {s : Square} {ptr : BitboardPtr} :
    b.mailbox s = some ptr ↔ has (b.bitboard ptr) s = true := by
  refine ⟨has_of_mailbox, ?_⟩
  intro h
  cases hm : b.mailbox s with
  | some q => rw [hb.eq_of_has (has_of_mailbox hm) h]
  | none =>
    rw [mailbox_eq_find, List.find?_eq_none] at hm
    exact absurd h (hm ptr (mem_allBitboards ptr))

theorem Disjoint.has_bitboard (hb : b.Disjoint) (ptr : BitboardPtr) (s : Square) :
    has (b.bitboard ptr) s = decide (b.mailbox s = some ptr) := by
  rw [Bool.eq_iff_iff, decide_eq_true_eq, hb.mailbox_eq_some_iff]

/-- Disjointness says that a square of one bitboard is on no other. -/
theorem disjoint_iff :
    b.Disjoint ↔ ∀ s p q, has (b.bitboard p) s = true → has (b.bitboard q) s = true → p = q := by
  constructor
  · intro hb s p q
    exact hb.eq_of_has
  · intro h p q hne
    apply has_ext
    intro s
    rw [has_and]
    by_contra hs
    simp only [BitVec.ofNat_eq_ofNat, has_zero, Bool.not_eq_false, Bool.and_eq_true] at hs
    exact hne (h s p q hs.1 hs.2)

theorem mailbox_eq_none_iff {s : Square} :
    b.mailbox s = none ↔ ∀ ptr, has (b.bitboard ptr) s = false := by
  rw [mailbox_eq_find, List.find?_eq_none]
  exact ⟨fun h ptr => by simpa using h ptr (mem_allBitboards ptr), fun h ptr _ => by simp [h ptr]⟩

/-- Disjoint boards with the same occupants have the same bitboards. -/
theorem bitboard_eq_of_mailbox_eq {b' : Board} (hb : b.Disjoint) (hb' : b'.Disjoint)
    (h : b.mailbox = b'.mailbox) (ptr : BitboardPtr) : b.bitboard ptr = b'.bitboard ptr :=
  has_ext fun s => by rw [hb.has_bitboard, hb'.has_bitboard, h]

/-! ## Masks of pieces -/

theorem has_pieces_iff (s : Square) (c : Color) :
    has (b.friends c) s = true ↔ ∃ k, has (b.bitboard (c, k)) s = true := by
  have hsplit : (∃ k, has (b.bitboard (c, k)) s = true) ↔
      has (b.bitboard (c, .pawn)) s = true ∨ has (b.bitboard (c, .knight)) s = true ∨
      has (b.bitboard (c, .bishop)) s = true ∨ has (b.bitboard (c, .rook)) s = true ∨
      has (b.bitboard (c, .queen)) s = true ∨ has (b.bitboard (c, .king)) s = true := by
    constructor
    · rintro ⟨_ | _ | _ | _ | _ | _, h⟩ <;> simp [h]
    · rintro (h | h | h | h | h | h) <;> exact ⟨_, h⟩
  rw [hsplit]
  cases c <;>
    simp only [friends, whitePieces, blackPieces, bitboard, has_or, Bool.or_eq_true, or_assoc,
      if_true, reduceCtorEq, if_false]

theorem Disjoint.has_friends (hb : b.Disjoint) (c : Color) (s : Square) :
    has (b.friends c) s = decide (Holds b.mailbox c s) := by
  rw [Bool.eq_iff_iff, has_pieces_iff, decide_eq_true_eq]
  exact exists_congr fun k => hb.mailbox_eq_some_iff.symm

theorem enemies_eq (c : Color) : b.enemies c = b.friends (flipColor c) := by
  cases c <;> rfl

theorem Disjoint.has_enemies (hb : b.Disjoint) (c : Color) (s : Square) :
    has (b.enemies c) s = decide (Holds b.mailbox (flipColor c) s) := by
  rw [enemies_eq, hb.has_friends]

theorem has_allPieces (s : Square) : has b.allPieces s = (b.mailbox s).isSome := by
  have hall : has b.allPieces s = true ↔ ∃ ptr, has (b.bitboard ptr) s = true := by
    rw [allPieces, has_or, Bool.or_eq_true, Prod.exists]
    have hw := has_pieces_iff (b := b) s .white
    have hbl := has_pieces_iff (b := b) s .black
    simp only [friends, if_true, reduceCtorEq, if_false] at hw hbl
    rw [hw, hbl]
    constructor
    · rintro (h | h) <;> exact ⟨_, h⟩
    · rintro ⟨_ | _, h⟩
      · exact Or.inl h
      · exact Or.inr h
  rw [Bool.eq_iff_iff, hall, Option.isSome_iff_ne_none, ne_eq, mailbox_eq_none_iff]
  simp

/-! ## Writing through a pointer -/

theorem bitboard_setBitboard (p q : BitboardPtr) (bb : Bitboard) :
    (b.setBitboard p bb).bitboard q = if q = p then bb else b.bitboard q := by
  rcases p with ⟨_ | _, _ | _ | _ | _ | _ | _⟩ <;>
    rcases q with ⟨_ | _, _ | _ | _ | _ | _ | _⟩ <;> rfl

/-- The fields besides the twelve bitboards. -/
def status (b : Board) :
    Bool × Option Bitboard × (Bool × Bool × Bool × Bool) × Int32 × Int32 :=
  (b.isWhitesMove, b.enPassantSquare,
    (b.whiteHasRightToCastleKingside, b.whiteHasRightToCastleQueenside,
      b.blackHasRightToCastleKingside, b.blackHasRightToCastleQueenside),
    b.fiftyMoveClock, b.numMoves)

@[simp] theorem status_setBitboard (p : BitboardPtr) (bb : Bitboard) :
    (b.setBitboard p bb).status = b.status := by
  rcases p with ⟨_ | _, _ | _ | _ | _ | _ | _⟩ <;> rfl

/-- A board is its twelve bitboards and its other fields. -/
theorem ext_of_status {b' : Board} (hbit : ∀ ptr, b.bitboard ptr = b'.bitboard ptr)
    (hstatus : b.status = b'.status) : b = b' := by
  have h := fun c k => hbit (c, k)
  cases b
  cases b'
  simp only [status, Prod.mk.injEq] at hstatus
  simp only [mk.injEq]
  exact ⟨h .white .pawn, h .white .rook, h .white .knight, h .white .bishop, h .white .queen,
    h .white .king, h .black .pawn, h .black .rook, h .black .knight, h .black .bishop,
    h .black .queen, h .black .king, hstatus.1, hstatus.2.1, hstatus.2.2.1.1, hstatus.2.2.1.2.1,
    hstatus.2.2.1.2.2.1, hstatus.2.2.1.2.2.2, hstatus.2.2.2.1, hstatus.2.2.2.2⟩

/-! ## The position -/

def rights (b : Board) : Color → Wing → Bool
  | .white, .kingside => b.whiteHasRightToCastleKingside
  | .white, .queenside => b.whiteHasRightToCastleQueenside
  | .black, .kingside => b.blackHasRightToCastleKingside
  | .black, .queenside => b.blackHasRightToCastleQueenside

/-- The position of the rules a board stands for. -/
def position (b : Board) : Position where
  mailbox := b.mailbox
  side := b.sideToMove
  rights := b.rights
  enPassant := b.enPassantSquare.bind fun sq => (squaresOf sq).head?

@[simp] theorem position_mailbox : b.position.mailbox = b.mailbox := rfl

@[simp] theorem position_side : b.position.side = b.sideToMove := rfl

@[simp] theorem position_rights : b.position.rights = b.rights := rfl

/-- What a board keeps along any pseudolegal move. -/
structure Sound (b : Board) : Prop where
  disjoint : b.Disjoint
  epSquare : ∀ sq ∈ b.enPassantSquare, isSquare sq = true
  position : b.position.Sound

/-- A well-formed board: disjoint bitboards, an en passant field that is absent or a single
square, and a well-formed position. -/
structure WellFormed (b : Board) : Prop where
  disjoint : b.Disjoint
  epSquare : ∀ sq ∈ b.enPassantSquare, isSquare sq = true
  position : b.position.WellFormed

instance (b : Board) : Decidable b.WellFormed :=
  decidable_of_iff (b.Disjoint ∧ b.enPassantSquare.all isSquare = true ∧ b.position.WellFormed)
    ⟨fun h => ⟨h.1, (Option.all_eq_true _ _).mp h.2.1, h.2.2⟩,
      fun h => ⟨h.disjoint, (Option.all_eq_true _ _).mpr h.epSquare, h.position⟩⟩

theorem WellFormed.sound (h : b.WellFormed) : b.Sound :=
  ⟨h.disjoint, h.epSquare, h.position.toSound⟩

/-- The en passant field is the bit of the position's en passant square. -/
theorem enPassantSquare_eq (h : ∀ sq ∈ b.enPassantSquare, isSquare sq = true) :
    b.enPassantSquare = b.position.enPassant.map Square.bit := by
  cases hep : b.enPassantSquare with
  | none => simp [position, hep]
  | some sq =>
    obtain ⟨t, rfl⟩ := isSquare_iff.mp (h sq hep)
    simp [position, hep]

/-- The king's bitboard of a sound board is its king's square. -/
theorem Sound.king_eq (h : b.Sound) (c : Color) :
    ∃ s, b.mailbox s = some (c, .king) ∧ b.bitboard (c, .king) = s.bit := by
  obtain ⟨s, hs, huniq⟩ := h.position.king c
  refine ⟨s, hs, ?_⟩
  apply has_ext
  intro t
  rw [h.disjoint.has_bitboard, has_bit, decide_eq_decide]
  constructor
  · intro ht
    exact (huniq t ht).symm
  · rintro rfl
    exact hs

theorem Sound.isSquare_king (h : b.Sound) (c : Color) :
    isSquare (b.bitboard (c, .king)) = true := by
  obtain ⟨s, -, hbit⟩ := h.king_eq c
  rw [hbit, isSquare_bit]

theorem isWhitesMove_eq : b.isWhitesMove = decide (b.sideToMove = .white) := by
  unfold sideToMove
  cases b.isWhitesMove <;> rfl

end Board

end PawnGrabber
