import PawnGrabber.Rules.Ray

/-!
# The pseudolegal moves as a list

`PseudoLegal` says which moves there are; the lists here enumerate them, piece by piece and
square by square in the order in which the program comes upon them. Every list is shown to
have the right members (`mem_pseudoMoves`) and no repetition (`nodup_pseudoMoves`). The
different parts never overlap because a move determines its piece, its source and, for a
pawn, its type.
-/

set_option autoImplicit false

namespace PawnGrabber

namespace Rules

open Square

/-- The squares holding a `k` of colour `c`, in the order of their bits. -/
def squaresHolding (mb : Mailbox) (c : Color) (k : Piece) : List Square :=
  all.filter fun s => mb s = some (c, k)

/-- A slider's moves along a list of squares, nearest first: the empty ones in front, and the
one behind them if it holds an enemy. -/
def slideMovesAlong (mb : Mailbox) (c : Color) (k : Piece) (s : Square) (r : List Square) :
    List ChessMove :=
  (r.takeWhile fun u => (mb u).isNone).map (⟨s, ·, k, .simple⟩) ++
    ((r.dropWhile fun u => (mb u).isNone).head?.toList.filter
      fun t => Holds mb (flipColor c) t).map (⟨s, ·, k, .capture⟩)

/-- A slider's moves in one direction. -/
def slideMoves (mb : Mailbox) (c : Color) (k : Piece) (s : Square) (v : ℤ × ℤ) :
    List ChessMove := slideMovesAlong mb c k s (s.ray v)

/-- The move of a king or a knight by one offset. -/
def stepMoves (mb : Mailbox) (c : Color) (k : Piece) (s : Square) (v : ℤ × ℤ) :
    List ChessMove :=
  match s.shift v.1 v.2 with
  | none => []
  | some t =>
    if Holds mb c t then []
    else [⟨s, t, k, if Holds mb (flipColor c) t then .capture else .simple⟩]

/-- A pawn's single step, as a move of the given type. -/
def pushMoves (mb : Mailbox) (c : Color) (s : Square) (type : MoveType) : List ChessMove :=
  ((s.shift 0 (forward c)).toList.filter fun t => (mb t).isNone).map (⟨s, ·, .pawn, type⟩)

/-- A pawn's double step. -/
def doubleStepMoves (mb : Mailbox) (c : Color) (s : Square) : List ChessMove :=
  ((s.shift 0 (2 * forward c)).toList.filter fun t =>
    ((s.shift 0 (forward c)).any fun u => (mb u).isNone) && (mb t).isNone).map
      (⟨s, ·, .pawn, .twoStepPawn⟩)

/-- A pawn's capture on the file `df` files to the east. -/
def captureMoves (mb : Mailbox) (c : Color) (s : Square) (df : ℤ) (type : MoveType) :
    List ChessMove :=
  ((s.shift df (forward c)).toList.filter fun t => Holds mb (flipColor c) t).map
    (⟨s, ·, .pawn, type⟩)

/-- The en passant capture by a pawn that stands `df` files to the east of the square `t`. -/
def enPassantFrom (mb : Mailbox) (c : Color) (t : Square) (df : ℤ) : List ChessMove :=
  ((t.shift df (-forward c)).toList.filter fun s => mb s = some (c, .pawn)).map
    (⟨·, t, .pawn, .enPassant⟩)

def enPassantMoves (p : Position) (c : Color) : List ChessMove :=
  match p.enPassant with
  | none => []
  | some t => enPassantFrom p.mailbox c t (-1) ++ enPassantFrom p.mailbox c t 1

/-- The pawns of `c` whose next step is a promotion. -/
def pawnsAboutToPromote (mb : Mailbox) (c : Color) : List Square :=
  (squaresHolding mb c .pawn).filter fun s => s.rank = pawnRank (flipColor c)

/-- The other pawns of `c`. -/
def otherPawns (mb : Mailbox) (c : Color) : List Square :=
  (squaresHolding mb c .pawn).filter fun s => s.rank ≠ pawnRank (flipColor c)

/-- The pawns of `c` on their starting rank. -/
def pawnsAtHome (mb : Mailbox) (c : Color) : List Square :=
  (squaresHolding mb c .pawn).filter fun s => s.rank = pawnRank c

def simplePawnMoves (p : Position) (c : Color) : List ChessMove :=
  (otherPawns p.mailbox c).flatMap fun s => pushMoves p.mailbox c s .simple

def twoStepPawnMoves (p : Position) (c : Color) : List ChessMove :=
  (pawnsAtHome p.mailbox c).flatMap fun s => doubleStepMoves p.mailbox c s

def pawnCaptures (p : Position) (c : Color) : List ChessMove :=
  (otherPawns p.mailbox c).flatMap fun s =>
    captureMoves p.mailbox c s 1 .capture ++ captureMoves p.mailbox c s (-1) .capture

def promotions (p : Position) (c : Color) : List ChessMove :=
  (pawnsAboutToPromote p.mailbox c).flatMap fun s => promotionMoveTypes.flatMap fun type =>
    pushMoves p.mailbox c s type ++ captureMoves p.mailbox c s 1 type ++
      captureMoves p.mailbox c s (-1) type

def pawnMoves (p : Position) (c : Color) : List ChessMove :=
  simplePawnMoves p c ++ twoStepPawnMoves p c ++ pawnCaptures p c ++ enPassantMoves p c ++
    promotions p c

/-- The moves of the pieces of one kind. -/
def kindMoves (p : Position) (c : Color) : Piece → List ChessMove
  | .pawn => pawnMoves p c
  | .bishop =>
    (squaresHolding p.mailbox c .bishop).flatMap fun s =>
      diagonals.flatMap (slideMoves p.mailbox c .bishop s)
  | .rook =>
    (squaresHolding p.mailbox c .rook).flatMap fun s =>
      orthogonals.flatMap (slideMoves p.mailbox c .rook s)
  | .queen =>
    (squaresHolding p.mailbox c .queen).flatMap fun s =>
      (orthogonals ++ diagonals).flatMap (slideMoves p.mailbox c .queen s)
  | .king =>
    (squaresHolding p.mailbox c .king).flatMap fun s =>
      (orthogonals ++ diagonals).flatMap (stepMoves p.mailbox c .king s)
  | .knight =>
    (squaresHolding p.mailbox c .knight).flatMap fun s =>
      knightLeaps.flatMap (stepMoves p.mailbox c .knight s)

/-- All pseudolegal moves of `c`. -/
def pseudoMoves (p : Position) (c : Color) : List ChessMove :=
  [.bishop, .rook, .queen, .pawn, .king, .knight].flatMap (kindMoves p c)

/-! ## Members -/

section Members

variable {mb : Mailbox} {p : Position} {c : Color} {k : Piece} {s t : Square} {v : ℤ × ℤ}
  {m : ChessMove} {type : MoveType} {df : ℤ}

@[simp] theorem mem_squaresHolding : s ∈ squaresHolding mb c k ↔ mb s = some (c, k) := by
  simp [squaresHolding]

/-- The destination is empty for a simple move and holds an enemy for a capture. -/
def FitsTarget (mb : Mailbox) (c : Color) (m : ChessMove) : Prop :=
  m.type = .simple ∧ mb m.dst = none ∨ m.type = .capture ∧ Holds mb (flipColor c) m.dst

theorem pieceMoves_iff :
    PieceMoves p c k m.src m.dst m.type ↔
      Attacks p.mailbox c k m.src m.dst ∧ FitsTarget p.mailbox c m := by
  unfold PieceMoves FitsTarget
  cases m.type <;> simp

theorem Holds.ne_none (h : Holds mb c t) : mb t ≠ none := by
  obtain ⟨k, hk⟩ := h
  simp [hk]

/-- An occupied square holds a piece of the one colour or of the other. -/
theorem holds_or_holds (c : Color) (h : mb t ≠ none) : Holds mb c t ∨ Holds mb (flipColor c) t := by
  obtain ⟨⟨c', k⟩, hk⟩ := Option.ne_none_iff_exists'.mp h
  by_cases hc : c' = c
  · exact Or.inl ⟨k, hc ▸ hk⟩
  · have : c' = flipColor c := by
      cases c <;> cases c' <;> first | rfl | exact absurd rfl hc
    exact Or.inr ⟨k, this ▸ hk⟩

/-- A square does not hold pieces of both colours. -/
theorem Holds.not_flip (h : Holds mb c t) : ¬Holds mb (flipColor c) t := by
  obtain ⟨k, hk⟩ := h
  rintro ⟨k', hk'⟩
  rw [hk] at hk'
  cases c <;> cases hk'

theorem mem_slideMoves (hv : IsDirection v) :
    m ∈ slideMoves mb c k s v ↔
      m.src = s ∧ m.piece = k ∧ Slides mb s v m.dst ∧ FitsTarget mb c m := by
  obtain ⟨src, dst, piece, type⟩ := m
  simp only [slideMoves, slideMovesAlong, List.mem_append, List.mem_map, List.mem_filter,
    Option.mem_toList, mem_takeWhile_ray hv, head_dropWhile_ray hv, decide_eq_true_eq,
    ChessMove.mk.injEq, FitsTarget]
  constructor
  · rintro (⟨t, ⟨hs, hn⟩, rfl, rfl, rfl, rfl⟩ | ⟨t, ⟨⟨hs, -⟩, hh⟩, rfl, rfl, rfl, rfl⟩)
    · exact ⟨rfl, rfl, hs, Or.inl ⟨rfl, hn⟩⟩
    · exact ⟨rfl, rfl, hs, Or.inr ⟨rfl, hh⟩⟩
  · rintro ⟨rfl, rfl, hs, ⟨rfl, hn⟩ | ⟨rfl, hh⟩⟩
    · exact Or.inl ⟨dst, ⟨hs, hn⟩, rfl, rfl, rfl, rfl⟩
    · exact Or.inr ⟨dst, ⟨⟨hs, hh.ne_none⟩, hh⟩, rfl, rfl, rfl, rfl⟩

theorem mem_stepMoves :
    m ∈ stepMoves mb c k s v ↔
      m.src = s ∧ m.piece = k ∧ s.shift v.1 v.2 = some m.dst ∧ FitsTarget mb c m := by
  obtain ⟨src, dst, piece, type⟩ := m
  unfold stepMoves FitsTarget
  cases hsq : s.shift v.1 v.2 with
  | none => simp
  | some t =>
    simp only [Option.some.injEq]
    by_cases hc : Holds mb c t
    · rw [if_pos hc]
      simp only [List.not_mem_nil, false_iff]
      rintro ⟨-, -, rfl, ⟨-, hn⟩ | ⟨-, hh⟩⟩
      · exact hc.ne_none hn
      · exact hc.not_flip hh
    · rw [if_neg hc, List.mem_singleton, ChessMove.mk.injEq]
      by_cases hh : Holds mb (flipColor c) t
      · rw [if_pos hh]
        constructor
        · rintro ⟨rfl, rfl, rfl, rfl⟩
          exact ⟨rfl, rfl, rfl, Or.inr ⟨rfl, hh⟩⟩
        · rintro ⟨rfl, rfl, rfl, ⟨-, hn⟩ | ⟨rfl, -⟩⟩
          · exact absurd hn hh.ne_none
          · exact ⟨rfl, rfl, rfl, rfl⟩
      · have hn : mb t = none := by
          by_contra hne
          exact (holds_or_holds c hne).elim hc hh
        rw [if_neg hh]
        constructor
        · rintro ⟨rfl, rfl, rfl, rfl⟩
          exact ⟨rfl, rfl, rfl, Or.inl ⟨rfl, hn⟩⟩
        · rintro ⟨rfl, rfl, rfl, ⟨rfl, -⟩ | ⟨-, h⟩⟩
          · exact ⟨rfl, rfl, rfl, rfl⟩
          · exact absurd h hh

/-- The moves of all sliders of one kind. -/
theorem mem_sliders {vs : List (ℤ × ℤ)} (hvs : ∀ v ∈ vs, IsDirection v) :
    (m ∈ (squaresHolding mb c k).flatMap fun s => vs.flatMap (slideMoves mb c k s)) ↔
      m.piece = k ∧ mb m.src = some (c, k) ∧ (∃ v ∈ vs, Slides mb m.src v m.dst) ∧
        FitsTarget mb c m := by
  simp only [List.mem_flatMap, mem_squaresHolding]
  constructor
  · rintro ⟨s, hs, v, hv, hm⟩
    obtain ⟨rfl, hk, hsl, hf⟩ := (mem_slideMoves (hvs v hv)).mp hm
    exact ⟨hk, hs, ⟨v, hv, hsl⟩, hf⟩
  · rintro ⟨hk, hs, ⟨v, hv, hsl⟩, hf⟩
    exact ⟨m.src, hs, v, hv, (mem_slideMoves (hvs v hv)).mpr ⟨rfl, hk, hsl, hf⟩⟩

/-- The moves of all pieces of one kind that step by fixed offsets. -/
theorem mem_steppers {vs : List (ℤ × ℤ)} :
    (m ∈ (squaresHolding mb c k).flatMap fun s => vs.flatMap (stepMoves mb c k s)) ↔
      m.piece = k ∧ mb m.src = some (c, k) ∧ (∃ v ∈ vs, m.src.shift v.1 v.2 = some m.dst) ∧
        FitsTarget mb c m := by
  simp only [List.mem_flatMap, mem_squaresHolding, mem_stepMoves]
  constructor
  · rintro ⟨s, hs, v, hv, rfl, hk, hsh, hf⟩
    exact ⟨hk, hs, ⟨v, hv, hsh⟩, hf⟩
  · rintro ⟨hk, hs, ⟨v, hv, hsh⟩, hf⟩
    exact ⟨m.src, hs, v, hv, rfl, hk, hsh, hf⟩

/-- The move of a pawn to the one square `o` names, where that square passes the test. -/
theorem mem_pawnStep {o : Option Square} {q : Square → Bool} :
    m ∈ (o.toList.filter q).map (⟨s, ·, .pawn, type⟩) ↔
      m.src = s ∧ m.piece = .pawn ∧ m.type = type ∧ o = some m.dst ∧ q m.dst = true := by
  obtain ⟨src, dst, piece, type'⟩ := m
  simp only [List.mem_map, List.mem_filter, Option.mem_toList, ChessMove.mk.injEq]
  constructor
  · rintro ⟨t, ⟨h1, h2⟩, rfl, rfl, rfl, rfl⟩
    exact ⟨rfl, rfl, rfl, h1, h2⟩
  · rintro ⟨rfl, rfl, rfl, h1, h2⟩
    exact ⟨dst, ⟨h1, h2⟩, rfl, rfl, rfl, rfl⟩

theorem mem_pushMoves :
    m ∈ pushMoves mb c s type ↔
      m.src = s ∧ m.piece = .pawn ∧ m.type = type ∧ s.shift 0 (forward c) = some m.dst ∧
        mb m.dst = none := by
  rw [pushMoves, mem_pawnStep, Option.isNone_iff_eq_none]

theorem mem_doubleStepMoves :
    m ∈ doubleStepMoves mb c s ↔
      m.src = s ∧ m.piece = .pawn ∧ m.type = .twoStepPawn ∧
        (∃ u ∈ s.shift 0 (forward c), mb u = none) ∧
        s.shift 0 (2 * forward c) = some m.dst ∧ mb m.dst = none := by
  rw [doubleStepMoves, mem_pawnStep, Bool.and_eq_true, Option.any_eq_true]
  simp only [Option.isNone_iff_eq_none, Option.mem_def]
  rw [and_left_comm (a := s.shift 0 (2 * forward c) = some m.dst)]

theorem mem_captureMoves :
    m ∈ captureMoves mb c s df type ↔
      m.src = s ∧ m.piece = .pawn ∧ m.type = type ∧ s.shift df (forward c) = some m.dst ∧
        Holds mb (flipColor c) m.dst := by
  rw [captureMoves, mem_pawnStep, decide_eq_true_eq]

theorem mem_enPassantMoves :
    m ∈ enPassantMoves p c ↔
      m.piece = .pawn ∧ m.type = .enPassant ∧ p.mailbox m.src = some (c, .pawn) ∧
        PawnAttacks c m.src m.dst ∧ p.enPassant = some m.dst := by
  obtain ⟨src, dst, piece, type'⟩ := m
  unfold enPassantMoves PawnAttacks
  cases hep : p.enPassant with
  | none => simp
  | some t =>
    simp only [enPassantFrom, List.mem_append, List.mem_map, List.mem_filter, Option.mem_toList,
      decide_eq_true_eq, ChessMove.mk.injEq, Option.some.injEq]
    constructor
    · rintro (⟨s, ⟨h1, h2⟩, rfl, rfl, rfl, rfl⟩ | ⟨s, ⟨h1, h2⟩, rfl, rfl, rfl, rfl⟩)
      · rw [shift_neg, neg_neg, neg_neg] at h1
        exact ⟨rfl, rfl, h2, Or.inl h1, rfl⟩
      · rw [shift_neg, neg_neg] at h1
        exact ⟨rfl, rfl, h2, Or.inr h1, rfl⟩
    · rintro ⟨rfl, rfl, h2, h1 | h1, rfl⟩
      · rw [shift_neg] at h1
        exact Or.inl ⟨src, ⟨h1, h2⟩, rfl, rfl, rfl, rfl⟩
      · rw [shift_neg, neg_neg] at h1
        exact Or.inr ⟨src, ⟨h1, h2⟩, rfl, rfl, rfl, rfl⟩

/-- One step forward arrives on the last rank from the enemy's starting rank only. -/
theorem rank_eq_lastRank_iff (h : s.shift df (forward c) = some t) :
    t.rank = lastRank c ↔ s.rank = pawnRank (flipColor c) := by
  rw [shift_eq_some_iff] at h
  rw [Fin.ext_iff, Fin.ext_iff]
  cases c <;> simp only [forward, lastRank, backRank, pawnRank, flipColor_white,
    flipColor_black] at h ⊢ <;> omega

theorem mem_otherPawns :
    s ∈ otherPawns mb c ↔ mb s = some (c, .pawn) ∧ s.rank ≠ pawnRank (flipColor c) := by
  simp [otherPawns]

theorem mem_pawnsAboutToPromote :
    s ∈ pawnsAboutToPromote mb c ↔ mb s = some (c, .pawn) ∧ s.rank = pawnRank (flipColor c) := by
  simp [pawnsAboutToPromote]

theorem mem_pawnsAtHome :
    s ∈ pawnsAtHome mb c ↔ mb s = some (c, .pawn) ∧ s.rank = pawnRank c := by
  simp [pawnsAtHome]

theorem mem_simplePawnMoves :
    m ∈ simplePawnMoves p c ↔
      m.piece = .pawn ∧ p.mailbox m.src = some (c, .pawn) ∧ m.type = .simple ∧
        PawnMoves p c m.src m.dst .simple := by
  simp only [simplePawnMoves, List.mem_flatMap, mem_otherPawns, mem_pushMoves, PawnMoves]
  constructor
  · rintro ⟨s, ⟨hs, hr⟩, rfl, hp, ht, hsh, hn⟩
    exact ⟨hp, hs, ht, ⟨hsh, hn⟩, (rank_eq_lastRank_iff hsh).not.mpr hr⟩
  · rintro ⟨hp, hs, ht, ⟨hsh, hn⟩, hr⟩
    exact ⟨m.src, ⟨hs, (rank_eq_lastRank_iff hsh).not.mp hr⟩, rfl, hp, ht, hsh, hn⟩

theorem mem_twoStepPawnMoves :
    m ∈ twoStepPawnMoves p c ↔
      m.piece = .pawn ∧ p.mailbox m.src = some (c, .pawn) ∧ m.type = .twoStepPawn ∧
        PawnMoves p c m.src m.dst .twoStepPawn := by
  simp only [twoStepPawnMoves, List.mem_flatMap, mem_pawnsAtHome, mem_doubleStepMoves, PawnMoves]
  constructor
  · rintro ⟨s, ⟨hs, hr⟩, rfl, hp, ht, hu, hsh, hn⟩
    exact ⟨hp, hs, ht, hr, hu, hsh, hn⟩
  · rintro ⟨hp, hs, ht, hr, hu, hsh, hn⟩
    exact ⟨m.src, ⟨hs, hr⟩, rfl, hp, ht, hu, hsh, hn⟩

/-- A capturing step to either side is a step to an attacked square. -/
theorem mem_captureMoves_or :
    m ∈ captureMoves mb c s 1 type ∨ m ∈ captureMoves mb c s (-1) type ↔
      m.src = s ∧ m.piece = .pawn ∧ m.type = type ∧ PawnAttacks c s m.dst ∧
        Holds mb (flipColor c) m.dst := by
  rw [mem_captureMoves, mem_captureMoves, PawnAttacks]
  tauto

theorem rank_eq_lastRank_of_attacks (h : PawnAttacks c s t) :
    t.rank = lastRank c ↔ s.rank = pawnRank (flipColor c) := by
  rcases h with h | h <;> exact rank_eq_lastRank_iff h

theorem mem_pawnCaptures :
    m ∈ pawnCaptures p c ↔
      m.piece = .pawn ∧ p.mailbox m.src = some (c, .pawn) ∧ m.type = .capture ∧
        PawnMoves p c m.src m.dst .capture := by
  simp only [pawnCaptures, List.mem_flatMap, mem_otherPawns, List.mem_append,
    mem_captureMoves_or, PawnMoves]
  constructor
  · rintro ⟨s, ⟨hs, hr⟩, rfl, hp, ht, ha, hh⟩
    exact ⟨hp, hs, ht, ⟨ha, hh⟩, (rank_eq_lastRank_of_attacks ha).not.mpr hr⟩
  · rintro ⟨hp, hs, ht, ⟨ha, hh⟩, hr⟩
    exact ⟨m.src, ⟨hs, (rank_eq_lastRank_of_attacks ha).not.mp hr⟩, rfl, hp, ht, ha, hh⟩

theorem mem_promotions :
    m ∈ promotions p c ↔
      m.piece = .pawn ∧ p.mailbox m.src = some (c, .pawn) ∧ m.type ∈ promotionMoveTypes ∧
        PawnMoves p c m.src m.dst m.type := by
  have hmoves : m.type ∈ promotionMoveTypes → (PawnMoves p c m.src m.dst m.type ↔
      (m.src.shift 0 (forward c) = some m.dst ∧ p.mailbox m.dst = none ∨
        PawnAttacks c m.src m.dst ∧ Holds p.mailbox (flipColor c) m.dst) ∧
        m.dst.rank = lastRank c) := by
    intro ht
    unfold PawnMoves
    cases htype : m.type <;> simp [promotionMoveTypes, htype] at ht ⊢
  simp only [promotions, List.mem_flatMap, mem_pawnsAboutToPromote, List.mem_append, or_assoc,
    mem_captureMoves_or, mem_pushMoves]
  constructor
  · rintro ⟨s, ⟨hs, hr⟩, type, ht, ⟨rfl, hp, rfl, hsh, hn⟩ | ⟨rfl, hp, rfl, ha, hh⟩⟩
    · exact ⟨hp, hs, ht, (hmoves ht).mpr ⟨Or.inl ⟨hsh, hn⟩, (rank_eq_lastRank_iff hsh).mpr hr⟩⟩
    · exact ⟨hp, hs, ht, (hmoves ht).mpr ⟨Or.inr ⟨ha, hh⟩,
        (rank_eq_lastRank_of_attacks ha).mpr hr⟩⟩
  · rintro ⟨hp, hs, ht, hm⟩
    obtain ⟨⟨hsh, hn⟩ | ⟨ha, hh⟩, hr⟩ := (hmoves ht).mp hm
    · exact ⟨m.src, ⟨hs, (rank_eq_lastRank_iff hsh).mp hr⟩, m.type, ht,
        Or.inl ⟨rfl, hp, rfl, hsh, hn⟩⟩
    · exact ⟨m.src, ⟨hs, (rank_eq_lastRank_of_attacks ha).mp hr⟩, m.type, ht,
        Or.inr ⟨rfl, hp, rfl, ha, hh⟩⟩

theorem mem_pawnMoves :
    m ∈ pawnMoves p c ↔
      m.piece = .pawn ∧ p.mailbox m.src = some (c, .pawn) ∧
        PawnMoves p c m.src m.dst m.type := by
  simp only [pawnMoves, List.mem_append, mem_simplePawnMoves, mem_twoStepPawnMoves,
    mem_pawnCaptures, mem_enPassantMoves, mem_promotions]
  obtain ⟨src, dst, piece, type⟩ := m
  cases type <;> simp [promotionMoveTypes, PawnMoves]

/-- The moves of one kind of piece are the pseudolegal moves with that piece. -/
theorem mem_kindMoves : m ∈ kindMoves p c k ↔ m.piece = k ∧ PseudoLegal p c m := by
  unfold PseudoLegal
  cases k with
  | pawn =>
    rw [kindMoves, mem_pawnMoves]
    constructor
    · rintro ⟨hp, hs, hm⟩
      exact ⟨hp, by rw [hp]; exact hs, by rw [if_pos hp]; exact hm⟩
    · rintro ⟨hp, hs, hm⟩
      rw [if_pos hp] at hm
      exact ⟨hp, by rw [hp] at hs; exact hs, hm⟩
  | bishop =>
    rw [kindMoves, mem_sliders fun v hv => List.mem_append_right _ hv]
    apply and_congr_right
    intro hp
    rw [hp, if_neg (by decide), pieceMoves_iff, Attacks]
  | rook =>
    rw [kindMoves, mem_sliders fun v hv => List.mem_append_left _ hv]
    apply and_congr_right
    intro hp
    rw [hp, if_neg (by decide), pieceMoves_iff, Attacks]
  | queen =>
    rw [kindMoves, mem_sliders fun v hv => hv]
    apply and_congr_right
    intro hp
    rw [hp, if_neg (by decide), pieceMoves_iff, Attacks]
  | king =>
    rw [kindMoves, mem_steppers]
    apply and_congr_right
    intro hp
    rw [hp, if_neg (by decide), pieceMoves_iff, Attacks]
  | knight =>
    rw [kindMoves, mem_steppers]
    apply and_congr_right
    intro hp
    rw [hp, if_neg (by decide), pieceMoves_iff, Attacks]

/-- The list has the pseudolegal moves as its members. -/
theorem mem_pseudoMoves : m ∈ pseudoMoves p c ↔ PseudoLegal p c m := by
  simp only [pseudoMoves, List.mem_flatMap, mem_kindMoves]
  constructor
  · rintro ⟨k, -, -, h⟩
    exact h
  · intro h
    refine ⟨m.piece, ?_, rfl, h⟩
    cases m.piece <;> decide

end Members

/-! ## No repetition -/

section Nodup

variable {mb : Mailbox} {p : Position} {c : Color} {k : Piece}

/-- Parts of a list do not overlap when a key of their members tells them apart. -/
private theorem nodup_flatMap_of_key {α β : Type} {l : List α} {f : α → List β} (key : β → α)
    (hl : l.Nodup) (hkey : ∀ a, ∀ b ∈ f a, key b = a) (hf : ∀ a ∈ l, (f a).Nodup) :
    (l.flatMap f).Nodup := by
  rw [List.nodup_flatMap]
  refine ⟨hf, hl.imp fun {a a'} hne => ?_⟩
  intro b hb hb'
  exact hne ((hkey a b hb).symm.trans (hkey a' b hb'))

theorem nodup_squaresHolding : (squaresHolding mb c k).Nodup := nodup_all.filter _

/-- A slider's destinations in one direction are squares of the ray, in its order. -/
theorem slideMoves_dst_sublist (s : Square) (v : ℤ × ℤ) :
    ((slideMoves mb c k s v).map ChessMove.dst).Sublist (s.ray v) := by
  have hhead : ∀ l : List Square, ∀ q : Square → Bool, (l.head?.toList.filter q).Sublist l := by
    intro l q
    refine List.filter_sublist.trans ?_
    cases l <;> simp
  conv_rhs => rw [← List.takeWhile_append_dropWhile (p := fun u => (mb u).isNone)
    (l := s.ray v)]
  rw [slideMoves, slideMovesAlong, List.map_append, List.map_map, List.map_map]
  refine List.Sublist.append ?_ ?_
  · exact (List.map_id _).symm ▸ List.Sublist.refl _
  · exact (List.map_id _).symm ▸ hhead _ _

theorem stepMoves_dst_sublist (s : Square) (v : ℤ × ℤ) :
    ((stepMoves mb c k s v).map ChessMove.dst).Sublist (s.shift v.1 v.2).toList := by
  unfold stepMoves
  cases s.shift v.1 v.2 with
  | none => simp
  | some t =>
    simp only
    split_ifs <;> simp

/-- Directionwise moves from one square are all different when the squares are. -/
private theorem nodup_flatMap_of_dst {vs : List (ℤ × ℤ)} {f : ℤ × ℤ → List ChessMove}
    {g : ℤ × ℤ → List Square} (hsub : ∀ v, ((f v).map ChessMove.dst).Sublist (g v))
    (hg : (vs.flatMap g).Nodup) : (vs.flatMap f).Nodup := by
  refine List.Nodup.of_map ChessMove.dst (hg.sublist ?_)
  rw [List.map_flatMap]
  clear hg
  induction vs with
  | nil => exact List.Sublist.refl _
  | cons v vs ih => exact (hsub v).append ih

theorem nodup_sliders {vs : List (ℤ × ℤ)} (hvs : vs.Nodup) (hdir : ∀ v ∈ vs, IsDirection v) :
    ((squaresHolding mb c k).flatMap fun s => vs.flatMap (slideMoves mb c k s)).Nodup := by
  refine nodup_flatMap_of_key ChessMove.src nodup_squaresHolding ?_
    fun s _ => nodup_flatMap_of_dst (slideMoves_dst_sublist s) (nodup_rays s hvs hdir)
  intro s m hm
  obtain ⟨v, hv, hm⟩ := List.mem_flatMap.mp hm
  exact ((mem_slideMoves (hdir v hv)).mp hm).1

theorem nodup_steppers {vs : List (ℤ × ℤ)} (hvs : vs.Nodup) :
    ((squaresHolding mb c k).flatMap fun s => vs.flatMap (stepMoves mb c k s)).Nodup := by
  refine nodup_flatMap_of_key ChessMove.src nodup_squaresHolding ?_
    fun s _ => nodup_flatMap_of_dst (stepMoves_dst_sublist s) (nodup_steps s hvs)
  intro s m hm
  obtain ⟨v, hv, hm⟩ := List.mem_flatMap.mp hm
  exact (mem_stepMoves.mp hm).1

private theorem nodup_toList_filter_map {α β : Type} (o : Option α) (q : α → Bool) {f : α → β}
    (hf : Function.Injective f) : ((o.toList.filter q).map f).Nodup := by
  refine (List.Nodup.filter q ?_).map hf
  cases o <;> simp

theorem nodup_pushMoves (s : Square) (type : MoveType) : (pushMoves mb c s type).Nodup :=
  nodup_toList_filter_map _ _ fun t u h => by simpa using h

theorem nodup_captureMoves (s : Square) (df : ℤ) (type : MoveType) :
    (captureMoves mb c s df type).Nodup :=
  nodup_toList_filter_map _ _ fun t u h => by simpa using h

/-- The two captures of a pawn are on different files. -/
theorem captureMoves_disjoint (s : Square) (type type' : MoveType) :
    (captureMoves mb c s 1 type).Disjoint (captureMoves mb c s (-1) type') := by
  intro m h1 h2
  obtain ⟨-, -, -, h1, -⟩ := mem_captureMoves.mp h1
  obtain ⟨-, -, -, h2, -⟩ := mem_captureMoves.mp h2
  rw [shift_eq_some_iff] at h1 h2
  omega

theorem nodup_captures (s : Square) (type : MoveType) :
    (captureMoves mb c s 1 type ++ captureMoves mb c s (-1) type).Nodup :=
  (nodup_captureMoves s 1 type).append (nodup_captureMoves s (-1) type)
    (captureMoves_disjoint s type type)

theorem nodup_simplePawnMoves : (simplePawnMoves p c).Nodup :=
  nodup_flatMap_of_key ChessMove.src (nodup_squaresHolding.filter _)
    (fun _ _ hm => (mem_pushMoves.mp hm).1) fun s _ => nodup_pushMoves s .simple

theorem nodup_twoStepPawnMoves : (twoStepPawnMoves p c).Nodup :=
  nodup_flatMap_of_key ChessMove.src (nodup_squaresHolding.filter _)
    (fun _ _ hm => (mem_doubleStepMoves.mp hm).1)
    fun s _ => nodup_toList_filter_map _ _ fun t u h => by simpa using h

theorem nodup_pawnCaptures : (pawnCaptures p c).Nodup :=
  nodup_flatMap_of_key ChessMove.src (nodup_squaresHolding.filter _)
    (fun _ _ hm => (mem_captureMoves_or.mp (List.mem_append.mp hm)).1)
    fun s _ => nodup_captures s .capture

theorem nodup_enPassantMoves : (enPassantMoves p c).Nodup := by
  unfold enPassantMoves
  cases p.enPassant with
  | none => exact List.nodup_nil
  | some t =>
    refine List.Nodup.append (nodup_toList_filter_map _ _ fun s u h => by simpa using h)
      (nodup_toList_filter_map _ _ fun s u h => by simpa using h) ?_
    intro m h1 h2
    simp only [enPassantFrom, List.mem_map, List.mem_filter, Option.mem_toList] at h1 h2
    obtain ⟨s, ⟨h1, -⟩, rfl⟩ := h1
    obtain ⟨u, ⟨h2, -⟩, hu⟩ := h2
    rw [ChessMove.mk.injEq] at hu
    rw [hu.1, shift_eq_some_iff] at h2
    rw [shift_eq_some_iff] at h1
    omega

theorem nodup_promotions : (promotions p c).Nodup := by
  have hmem : ∀ s type, ∀ m ∈ pushMoves p.mailbox c s type ++ captureMoves p.mailbox c s 1 type ++
      captureMoves p.mailbox c s (-1) type, m.src = s ∧ m.type = type := by
    intro s type m hm
    rw [List.append_assoc, List.mem_append, List.mem_append, mem_captureMoves_or,
      mem_pushMoves] at hm
    rcases hm with ⟨h1, -, h2, -⟩ | ⟨h1, -, h2, -⟩ <;> exact ⟨h1, h2⟩
  refine nodup_flatMap_of_key ChessMove.src (nodup_squaresHolding.filter _) ?_ ?_
  · intro s m hm
    obtain ⟨type, -, hm⟩ := List.mem_flatMap.mp hm
    exact (hmem s type m hm).1
  · intro s _
    refine nodup_flatMap_of_key ChessMove.type (by decide)
      (fun type m hm => (hmem s type m hm).2) ?_
    intro type _
    rw [List.append_assoc]
    apply (nodup_pushMoves s type).append (nodup_captures s type)
    intro m h1 h2
    obtain ⟨-, -, -, -, h1⟩ := mem_pushMoves.mp h1
    obtain ⟨-, -, -, -, h2⟩ := mem_captureMoves_or.mp (List.mem_append.mp h2)
    exact h2.ne_none h1

/-- The five generators of pawn moves make moves of different types. -/
theorem nodup_pawnMoves : (pawnMoves p c).Nodup := by
  unfold pawnMoves
  refine ((((nodup_simplePawnMoves.append nodup_twoStepPawnMoves ?_).append
    nodup_pawnCaptures ?_).append nodup_enPassantMoves ?_).append nodup_promotions ?_) <;>
  · intro m h1 h2
    simp only [List.mem_append, mem_simplePawnMoves, mem_twoStepPawnMoves, mem_pawnCaptures,
      mem_enPassantMoves, mem_promotions, promotionMoveTypes] at h1 h2
    grind

theorem nodup_kindMoves : (kindMoves p c k).Nodup := by
  cases k with
  | pawn => exact nodup_pawnMoves
  | bishop => exact nodup_sliders (by decide) fun v hv => List.mem_append_right _ hv
  | rook => exact nodup_sliders (by decide) fun v hv => List.mem_append_left _ hv
  | queen => exact nodup_sliders (by decide) fun v hv => hv
  | king => exact nodup_steppers (by decide)
  | knight => exact nodup_steppers (by decide)

/-- No pseudolegal move is listed twice. -/
theorem nodup_pseudoMoves : (pseudoMoves p c).Nodup :=
  nodup_flatMap_of_key ChessMove.piece (by decide) (fun _ _ hm => (mem_kindMoves.mp hm).1)
    fun _ _ => nodup_kindMoves

end Nodup

end Rules

end PawnGrabber
