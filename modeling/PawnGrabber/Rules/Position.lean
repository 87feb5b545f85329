import PawnGrabber.Rules.Square

/-!
# The rules of chess on a mailbox

The reference against which the program is judged: a position is a map from the 64
squares to an optional coloured piece, with the side to move, the castling rights and
the en passant square. The rules are written for either colour at once, through the
direction `forward` in which its pawns move and its back rank.
-/

set_option autoImplicit false

namespace PawnGrabber

namespace Rules

inductive Wing
  | kingside
  | queenside
  deriving DecidableEq, Repr

instance : Fintype Wing := ⟨{.kingside, .queenside}, by rintro (_ | _) <;> decide⟩

/-- The occupant of every square. -/
abbrev Mailbox := Square → Option (Color × Piece)

structure Position where
  mailbox : Mailbox
  side : Color
  rights : Color → Wing → Bool
  enPassant : Option Square

/-- A move of the rules, in the terms of the program's `Move`. -/
structure ChessMove where
  src : Square
  dst : Square
  piece : Piece
  type : MoveType
  deriving DecidableEq, Repr

/-! ## Geometry of the two sides -/

/-- The direction in which the pawns of `c` move. -/
def forward : Color → ℤ
  | .white => 1
  | .black => -1

def backRank : Color → Fin 8
  | .white => 0
  | .black => 7

/-- The rank on which the pawns of `c` start. -/
def pawnRank : Color → Fin 8
  | .white => 1
  | .black => 6

/-- The rank on which a pawn of `c` promotes. -/
def lastRank (c : Color) : Fin 8 := backRank (flipColor c)

/-- The rank of the en passant square when `c` is to move. -/
def enPassantRank : Color → Fin 8
  | .white => 5
  | .black => 2

def kingHome (c : Color) : Square := ⟨4, backRank c⟩

def rookHome (c : Color) : Wing → Square
  | .kingside => ⟨7, backRank c⟩
  | .queenside => ⟨0, backRank c⟩

/-- Where the king lands when castling. -/
def kingTarget (c : Color) : Wing → Square
  | .kingside => ⟨6, backRank c⟩
  | .queenside => ⟨2, backRank c⟩

/-- Where the rook lands when castling; the king passes over this square. -/
def rookTarget (c : Color) : Wing → Square
  | .kingside => ⟨5, backRank c⟩
  | .queenside => ⟨3, backRank c⟩

/-- The squares strictly between king and rook. -/
def castlingGap (c : Color) : Wing → List Square
  | .kingside => [⟨5, backRank c⟩, ⟨6, backRank c⟩]
  | .queenside => [⟨3, backRank c⟩, ⟨2, backRank c⟩, ⟨1, backRank c⟩]

/-! ## Attacks -/

/-- A slider on `s` gets to `t` in direction `v`: every square in between is empty. -/
def Slides (mb : Mailbox) (s : Square) (v : ℤ × ℤ) (t : Square) : Prop :=
  ∃ n : ℕ, n < 8 ∧ 0 < n ∧ s.shift (n * v.1) (n * v.2) = some t ∧
    ∀ m : ℕ, m < n → 0 < m → ∀ u ∈ s.shift (m * v.1) (m * v.2), mb u = none

/-- A pawn of colour `c` on `s` attacks the two squares diagonally in front of it. -/
def PawnAttacks (c : Color) (s t : Square) : Prop :=
  s.shift 1 (forward c) = some t ∨ s.shift (-1) (forward c) = some t

/-- A piece of colour `c` and kind `k` on `s` attacks `t`. -/
def Attacks (mb : Mailbox) (c : Color) (k : Piece) (s t : Square) : Prop :=
  match k with
  | .pawn => PawnAttacks c s t
  | .knight => ∃ v ∈ Square.knightLeaps, s.shift v.1 v.2 = some t
  | .bishop => ∃ v ∈ Square.diagonals, Slides mb s v t
  | .rook => ∃ v ∈ Square.orthogonals, Slides mb s v t
  | .queen => ∃ v ∈ Square.orthogonals ++ Square.diagonals, Slides mb s v t
  | .king => ∃ v ∈ Square.orthogonals ++ Square.diagonals, s.shift v.1 v.2 = some t

/-- Some piece of `c` attacks `t`. -/
def AttackedBy (mb : Mailbox) (c : Color) (t : Square) : Prop :=
  ∃ s k, mb s = some (c, k) ∧ Attacks mb c k s t

/-- The king of `c` stands on an attacked square. -/
def KingAttacked (mb : Mailbox) (c : Color) : Prop :=
  ∃ t, mb t = some (c, .king) ∧ AttackedBy mb (flipColor c) t

instance (mb : Mailbox) (s : Square) (v : ℤ × ℤ) (t : Square) : Decidable (Slides mb s v t) :=
  inferInstanceAs (Decidable (∃ n : ℕ, n < 8 ∧ 0 < n ∧ s.shift (n * v.1) (n * v.2) = some t ∧
    ∀ m : ℕ, m < n → 0 < m → ∀ u ∈ s.shift (m * v.1) (m * v.2), mb u = none))

instance (c : Color) (s t : Square) : Decidable (PawnAttacks c s t) :=
  inferInstanceAs (Decidable (_ ∨ _))

instance (mb : Mailbox) (c : Color) (k : Piece) (s t : Square) :
    Decidable (Attacks mb c k s t) :=
  match k with
  | .pawn => inferInstanceAs (Decidable (PawnAttacks c s t))
  | .knight => inferInstanceAs (Decidable (∃ v ∈ Square.knightLeaps, s.shift v.1 v.2 = some t))
  | .bishop => inferInstanceAs (Decidable (∃ v ∈ Square.diagonals, Slides mb s v t))
  | .rook => inferInstanceAs (Decidable (∃ v ∈ Square.orthogonals, Slides mb s v t))
  | .queen =>
    inferInstanceAs (Decidable (∃ v ∈ Square.orthogonals ++ Square.diagonals, Slides mb s v t))
  | .king =>
    inferInstanceAs
      (Decidable (∃ v ∈ Square.orthogonals ++ Square.diagonals, s.shift v.1 v.2 = some t))

instance (mb : Mailbox) (c : Color) (t : Square) : Decidable (AttackedBy mb c t) :=
  inferInstanceAs (Decidable (∃ s k, mb s = some (c, k) ∧ Attacks mb c k s t))

instance (mb : Mailbox) (c : Color) : Decidable (KingAttacked mb c) :=
  inferInstanceAs (Decidable (∃ t, mb t = some (c, .king) ∧ AttackedBy mb (flipColor c) t))

/-! ## Moves -/

/-- `t` holds a piece of `c`. -/
def Holds (mb : Mailbox) (c : Color) (t : Square) : Prop := ∃ k, mb t = some (c, k)

instance (mb : Mailbox) (c : Color) (t : Square) : Decidable (Holds mb c t) :=
  inferInstanceAs (Decidable (∃ k, mb t = some (c, k)))

/-- What a pawn of `c` on `s` may do: a step to an empty square, a double step from its
starting rank over an empty square, a diagonal capture, an en passant capture, and, where
it arrives on the last rank, nothing but a promotion. -/
def PawnMoves (p : Position) (c : Color) (s t : Square) (type : MoveType) : Prop :=
  let pushes := s.shift 0 (forward c) = some t ∧ p.mailbox t = none
  let captures := PawnAttacks c s t ∧ Holds p.mailbox (flipColor c) t
  match type with
  | .simple => pushes ∧ t.rank ≠ lastRank c
  | .twoStepPawn =>
    s.rank = pawnRank c ∧ (∃ u ∈ s.shift 0 (forward c), p.mailbox u = none) ∧
      s.shift 0 (2 * forward c) = some t ∧ p.mailbox t = none
  | .capture => captures ∧ t.rank ≠ lastRank c
  | .enPassant => PawnAttacks c s t ∧ p.enPassant = some t
  | .promotionToRook | .promotionToBishop | .promotionToKnight | .promotionToQueen =>
    (pushes ∨ captures) ∧ t.rank = lastRank c
  | .castleKingside | .castleQueenside => False

/-- What any other piece may do: go where it attacks, onto an empty square or an enemy. -/
def PieceMoves (p : Position) (c : Color) (k : Piece) (s t : Square) (type : MoveType) : Prop :=
  Attacks p.mailbox c k s t ∧
    match type with
    | .simple => p.mailbox t = none
    | .capture => Holds p.mailbox (flipColor c) t
    | _ => False

/-- A move of `c` by the way its pieces move, whatever becomes of its king. -/
def PseudoLegal (p : Position) (c : Color) (m : ChessMove) : Prop :=
  p.mailbox m.src = some (c, m.piece) ∧
    if m.piece = .pawn then PawnMoves p c m.src m.dst m.type
    else PieceMoves p c m.piece m.src m.dst m.type

/-- `c` may castle on wing `w`: the right is held, king and rook are at home with nothing
between them, and the king is not attacked where it stands, passes and lands. -/
def MayCastle (p : Position) (c : Color) (w : Wing) : Prop :=
  p.rights c w = true ∧ p.mailbox (kingHome c) = some (c, .king) ∧
    p.mailbox (rookHome c w) = some (c, .rook) ∧
    (∀ s ∈ castlingGap c w, p.mailbox s = none) ∧
    ∀ s ∈ [kingHome c, rookTarget c w, kingTarget c w], ¬AttackedBy p.mailbox (flipColor c) s

def castleType : Wing → MoveType
  | .kingside => .castleKingside
  | .queenside => .castleQueenside

def castleMove (c : Color) (w : Wing) : ChessMove :=
  ⟨kingHome c, kingTarget c w, .king, castleType w⟩

/-- The piece that stands on the destination after the move. -/
def ChessMove.placed (m : ChessMove) : Piece :=
  match m.type with
  | .promotionToRook => .rook
  | .promotionToBishop => .bishop
  | .promotionToKnight => .knight
  | .promotionToQueen => .queen
  | _ => m.piece

/-- The occupants with whatever stood on `s` taken off. -/
def Mailbox.clear (mb : Mailbox) (s : Square) : Mailbox := Function.update mb s none

/-- The occupants with `x` put on `s`. -/
def Mailbox.put (mb : Mailbox) (s : Square) (x : Color × Piece) : Mailbox :=
  Function.update mb s (some x)

namespace Position

/-- The occupants after `m`: the source is emptied and the destination holds the moved or
promoted piece; an en passant capture also removes the pawn directly behind the
destination, and castling also moves the rook from its corner. -/
def mailboxAfter (p : Position) (m : ChessMove) : Mailbox :=
  let mb := Mailbox.put (Mailbox.clear p.mailbox m.src) m.dst (p.side, m.placed)
  match m.type with
  | .enPassant => fun s => if m.dst.shift 0 (-forward p.side) = some s then none else mb s
  | .castleKingside =>
    Mailbox.put (Mailbox.clear mb (rookHome p.side .kingside)) (rookTarget p.side .kingside)
      (p.side, .rook)
  | .castleQueenside =>
    Mailbox.put (Mailbox.clear mb (rookHome p.side .queenside)) (rookTarget p.side .queenside)
      (p.side, .rook)
  | _ => mb

/-- The move takes the right of `c` on wing `w` away: it leaves the king's or the rook's
home square, or arrives on the rook's. -/
def ForfeitsRight (m : ChessMove) (c : Color) (w : Wing) : Prop :=
  m.src = kingHome c ∨ m.src = rookHome c w ∨ m.dst = rookHome c w

instance (m : ChessMove) (c : Color) (w : Wing) : Decidable (ForfeitsRight m c w) :=
  inferInstanceAs (Decidable (_ ∨ _ ∨ _))

/-- The position after `m`. -/
def play (p : Position) (m : ChessMove) : Position where
  mailbox := p.mailboxAfter m
  side := flipColor p.side
  rights c w := p.rights c w && !decide (ForfeitsRight m c w)
  enPassant := if m.type = .twoStepPawn then m.src.shift 0 (forward p.side) else none

/-- The legal moves: pseudolegal or castling, and the mover's king is safe afterwards. -/
def Legal (p : Position) (m : ChessMove) : Prop :=
  (PseudoLegal p p.side m ∨ ∃ w, MayCastle p p.side w ∧ m = castleMove p.side w) ∧
    ¬KingAttacked (p.play m).mailbox p.side

/-- What every position of a game satisfies, the safety of the kings and the castling
rights left aside: one king a side, no pawn on an end rank, and an en passant square only
directly behind an enemy pawn. -/
structure Sound (p : Position) : Prop where
  king : ∀ c, ∃! s, p.mailbox s = some (c, .king)
  pawns : ∀ c s, p.mailbox s = some (c, .pawn) → s.rank ≠ 0 ∧ s.rank ≠ 7
  enPassant : ∀ t, p.enPassant = some t → p.mailbox t = none ∧ t.rank = enPassantRank p.side ∧
    ∃ u ∈ t.shift 0 (-forward p.side), p.mailbox u = some (flipColor p.side, .pawn)

/-- A well-formed position: also, every held right has its king and rook at home, and the
side not to move is not in check. -/
structure WellFormed (p : Position) : Prop extends Sound p where
  castling : ∀ c w, p.rights c w = true →
    p.mailbox (kingHome c) = some (c, .king) ∧ p.mailbox (rookHome c w) = some (c, .rook)
  safe : ¬KingAttacked p.mailbox (flipColor p.side)

instance (p : Position) : Decidable p.Sound :=
  decidable_of_iff ((∀ c, ∃ s, p.mailbox s = some (c, .king) ∧
        ∀ t, p.mailbox t = some (c, .king) → t = s) ∧
      (∀ c s, p.mailbox s = some (c, .pawn) → s.rank ≠ 0 ∧ s.rank ≠ 7) ∧
      ∀ t, p.enPassant = some t → p.mailbox t = none ∧ t.rank = enPassantRank p.side ∧
        ∃ u ∈ t.shift 0 (-forward p.side), p.mailbox u = some (flipColor p.side, .pawn))
    ⟨fun h => ⟨h.1, h.2.1, h.2.2⟩, fun h => ⟨h.king, h.pawns, h.enPassant⟩⟩

instance (p : Position) : Decidable p.WellFormed :=
  decidable_of_iff (p.Sound ∧ (∀ c w, p.rights c w = true →
        p.mailbox (kingHome c) = some (c, .king) ∧ p.mailbox (rookHome c w) = some (c, .rook)) ∧
      ¬KingAttacked p.mailbox (flipColor p.side))
    ⟨fun h => ⟨h.1, h.2.1, h.2.2⟩, fun h => ⟨h.toSound, h.castling, h.safe⟩⟩

end Position

end Rules

end PawnGrabber
