import PawnGrabber.Rules.Mobility
import PawnGrabber.Analysis.Perft

/-!
# Runs counted

The runs of `legal_moves()` and `do_move` of a given length, listed. `number_of_moves` is the length
of that list, a longer count divides into the counts of the boards the runs lead to, and no count is
greater than a power of what the pieces on the board can move. In `int64_t` all of this is so modulo
2^64.
-/

set_option autoImplicit false

namespace PawnGrabber

open ExceptFold Rules

/-! ## Counts in `int64_t` -/

section Carried

variable {N N' : Type} [Add N] [Add N'] (f : N → N') (hadd : ∀ x y, f (x + y) = f x + f y)

include hadd in
/-- One round with its counts carried over. -/
theorem numberOfMovesRound_map {recurse : Board → Checked N} {recurse' : Board → Checked N'}
    (hrec : ∀ child, recurse' child = (recurse child).map f) (board : Board) (res : N)
    (move : Move) :
    numberOfMovesRound recurse' (board, f res) move =
      (numberOfMovesRound recurse (board, res) move).map fun state => (state.1, f state.2) := by
  simp only [numberOfMovesRound, hrec]
  cases board.doMove move with
  | error e => rfl
  | ok child =>
    simp only [ok_bind]
    cases recurse child with
    | error e => rfl
    | ok count =>
      have hsum := hadd res count
      exact congrArg (fun n => Except.ok (child.undoMove move, n)) hsum.symm

include hadd in
/-- Counts of another kind are the counts carried over, if 0 and 1 are. -/
theorem numberOfMovesIn_map [OfNat N 0] [OfNat N 1] [OfNat N' 0] [OfNat N' 1]
    (hzero : f 0 = 0) (hone : f 1 = 1) (b : Board) (d : ℕ) :
    numberOfMovesIn b d = (numberOfMovesIn b d).map f := by
  induction d generalizing b with
  | zero => exact congrArg Except.ok hone.symm
  | succ d ih =>
    rw [numberOfMovesIn, numberOfMovesIn]
    cases b.legalMoves with
    | error e => rfl
    | ok moves =>
      have hfold := foldlM_hom (fun state : Board × N => (state.1, f state.2))
        (fun state move => numberOfMovesRound_map f hadd ih state.1 state.2 move) moves (b, 0)
      simp only [hzero] at hfold
      simp only [ok_bind, hfold]
      cases moves.foldlM (numberOfMovesRound fun child => numberOfMovesIn child d) (b, (0 : N)) with
      | error e => rfl
      | ok state => rfl

end Carried

/-- The `int64_t` count is the exact one modulo 2^64. -/
theorem numberOfMovesInt64_eq_map (b : Board) (d : ℕ) :
    numberOfMovesInt64 b d = (numberOfMoves b d).map Int64.ofInt :=
  numberOfMovesIn_map Int64.ofInt Int64.ofInt_add rfl rfl b d

theorem numberOfMovesInt64_eq {b : Board} (h : b.WellFormed) (d : ℕ) :
    numberOfMovesInt64 b d = .ok (Int64.ofInt (lines d b.position).length) := by
  rw [numberOfMovesInt64_eq_map, numberOfMoves_eq h]
  rfl

theorem toInt_ofInt_modEq (n : ℤ) : (Int64.ofInt n).toInt ≡ n [ZMOD 2 ^ 64] := by
  rw [Int64.toInt_ofInt]
  exact Int.bmod_emod

theorem sum_map_ofInt (ns : List ℤ) : (ns.map Int64.ofInt).sum = Int64.ofInt ns.sum := by
  induction ns with
  | nil => rfl
  | cons n ns ih => rw [List.map_cons, List.sum_cons, ih, List.sum_cons, Int64.ofInt_add]

/-! ## Lines -/

/-- The set of the legal lines of a length has as many members as the list. -/
theorem Rules.exists_finset_lines_iff {p : Position} (hp : p.WellFormed) {d : ℕ}
    {P : ℕ → Prop} :
    (∃ ls : Finset (List ChessMove),
      (∀ line, line ∈ ls ↔ line.length = d ∧ LegalLine p line) ∧ P ls.card) ↔
      P (lines d p).length := by
  have hmem : ∀ line, line ∈ (lines d p).toFinset ↔ line.length = d ∧ LegalLine p line := by
    intro line
    rw [List.mem_toFinset, mem_lines hp]
  have hcard : (lines d p).toFinset.card = (lines d p).length :=
    List.toFinset_card_of_nodup (nodup_lines d p)
  rw [← hcard]
  constructor
  · rintro ⟨ls, hls, h⟩
    have heq : ls = (lines d p).toFinset := by
      ext line
      rw [hls, hmem]
    rwa [heq] at h
  · intro h
    exact ⟨_, hmem, h⟩

/-- With no more than `n` pieces on either side there are at most `27 * n` moves at every step. -/
theorem Rules.length_lines_le {p : Position} (hp : p.WellFormed) {n : ℕ}
    (hn : ∀ c, count (fun x => decide (x.1 = c)) p.mailbox ≤ n) (d : ℕ) :
    (lines d p).length ≤ (27 * n) ^ d := by
  refine Lines.length_ofLength_le legalList Position.play (I := fun p => p.WellFormed ∧
    ∀ c, count (fun x => decide (x.1 = c)) p.mailbox ≤ n) ?_ ?_ d ⟨hp, hn⟩
  · rintro q ⟨hq, hle⟩
    exact (length_legalList_le hq).trans (Nat.mul_le_mul_left 27 (hle q.side))
  · rintro q ⟨hq, hle⟩ m hm
    have hlegal := (mem_legalList hq).mp hm
    exact ⟨hlegal.wellFormed hq,
      fun c => (hlegal.performable.count_color_le hq c).trans (hle c)⟩

namespace PlayBoard

variable {g : PlayBoard} {move : Move}

/-- The board after a move; a move that is not legal changes nothing. -/
def next (g : PlayBoard) (move : Move) : PlayBoard :=
  if h : move ∈ g.legalMoves then g.after move h else g

theorem doMove_next (h : move ∈ g.legalMoves) : g.1.doMove move = .ok (g.next move).1 := by
  rw [next, dif_pos h]
  exact g.doMove_eq move h

/-- A run is a line that can be played, and it ends on the board the line leads to. -/
theorem legalRun_iff {line : List Move} {f : Board} :
    LegalRun g.1 line f ↔
      Lines.Playable legalMoves next g line ∧ f = (line.foldl next g).1 := by
  induction line generalizing g with
  | nil =>
    constructor
    · intro run
      cases run
      exact ⟨trivial, rfl⟩
    · intro h
      rw [h.2]
      exact .nil g.1
  | cons move line ih =>
    rw [Lines.Playable, List.foldl_cons, and_assoc]
    constructor
    · intro run
      cases run with
      | cons legal mem made rest =>
        rw [g.legalMoves_eq, Except.ok.injEq] at legal
        subst legal
        rw [doMove_next mem, Except.ok.injEq] at made
        subst made
        exact ⟨mem, ih.mp rest⟩
    · intro h
      exact .cons g.legalMoves_eq h.1 (doMove_next h.1) (ih.mpr h.2)

theorem nodup_legalMoves (g : PlayBoard) : g.legalMoves.Nodup := by
  have hmoves := Except.ok.inj (g.legalMoves_eq.symm.trans (Board.legalMoves_eq g.2))
  rw [hmoves]
  exact nodup_legalList.map g.1.encode_injective

/-- The runs of a given length with the boards they end on. -/
def runs (d : ℕ) (g : PlayBoard) : List (List Move × PlayBoard) :=
  (Lines.ofLength legalMoves next d g).map fun line => (line, line.foldl next g)

theorem mem_runs {d : ℕ} {line : List Move} {f : Board} :
    (line, f) ∈ (runs d g).map (Prod.map id Subtype.val) ↔
      line.length = d ∧ LegalRun g.1 line f := by
  rw [runs, List.map_map, List.mem_map, legalRun_iff, ← and_assoc, ← Lines.mem_ofLength]
  constructor
  · rintro ⟨line', hline, heq⟩
    obtain ⟨rfl, rfl⟩ := Prod.mk.inj heq
    exact ⟨hline, rfl⟩
  · rintro ⟨hline, rfl⟩
    exact ⟨line, hline, rfl⟩

theorem nodup_runs (d : ℕ) (g : PlayBoard) :
    ((runs d g).map (Prod.map id Subtype.val)).Nodup := by
  rw [runs, List.map_map]
  apply (Lines.nodup_ofLength legalMoves next nodup_legalMoves d g).map
  intro line line' heq
  exact congrArg Prod.fst heq

/-- The program's runs are as many as the lines of the rules. -/
theorem length_ofLength (d : ℕ) (g : PlayBoard) :
    (Lines.ofLength legalMoves next d g).length = (lines d g.1.position).length := by
  have hmoves : ∀ h : PlayBoard, h.legalMoves = (legalList h.1.position).map h.1.encode :=
    fun h => Except.ok.inj (h.legalMoves_eq.symm.trans (Board.legalMoves_eq h.2))
  refine Lines.length_ofLength_eq (R := fun p (h : PlayBoard) => h.1.position = p) legalList
    Position.play (fun h => h.1.encode) ?_ ?_ d rfl
  · rintro p h rfl
    rw [hmoves]
  · rintro p h rfl m hm
    have hmem : h.1.encode m ∈ h.legalMoves := by
      rw [hmoves]
      exact List.mem_map_of_mem hm
    obtain ⟨b', hdo, -, hposition⟩ :=
      Board.doMove_of_legal h.2 ((mem_legalList h.2.position).mp hm)
    rw [doMove_next hmem, Except.ok.injEq] at hdo
    rw [hdo, hposition]

/-- A count divides into the counts of the boards that its runs of the first `d` moves end on. -/
theorem length_runs_add (d e : ℕ) (g : PlayBoard) :
    (lines (d + e) g.1.position).length =
      ((runs d g).map fun r => (lines e r.2.1.position).length).sum := by
  rw [← length_ofLength, Lines.length_ofLength_add, runs, List.map_map]
  congr 1
  apply List.map_congr_left
  intro line _
  exact length_ofLength e _

end PlayBoard

end PawnGrabber
