import PawnGrabber.Rules.PlainType

/-!
# Lines of attack

A piece attacks what it reaches on the empty board if nothing stands in between. Whether a move
leaves the king safe is therefore decided by the lines on which an enemy piece reaches the king: a
line that is open once the moving piece is lifted must be closed by the arrival of that piece, or
end with the capture of the attacker.
-/

set_option autoImplicit false

namespace PawnGrabber

namespace Square

/-- `u` lies strictly between `s` and `t` on a file, a rank or a diagonal. -/
def Between (s u t : Square) : Prop :=
  ∃ v ∈ orthogonals ++ diagonals, ∃ n : ℕ, n < 8 ∧ s.shift (n * v.1) (n * v.2) = some t ∧
    ∃ j : ℕ, j < n ∧ 0 < j ∧ s.shift (j * v.1) (j * v.2) = some u

instance (s u t : Square) : Decidable (Between s u t) :=
  inferInstanceAs (Decidable (∃ v ∈ orthogonals ++ diagonals, ∃ n : ℕ, n < 8 ∧
    s.shift (n * v.1) (n * v.2) = some t ∧
    ∃ j : ℕ, j < n ∧ 0 < j ∧ s.shift (j * v.1) (j * v.2) = some u))

variable {s t u : Square} {v : ℤ × ℤ}

/-- On a ray the squares in between are those at the smaller distances. -/
theorem between_iff_of_shift (hv : IsDirection v) {n : ℕ} (hn : 0 < n)
    (hshift : s.shift (n * v.1) (n * v.2) = some t) :
    Between s u t ↔ ∃ j : ℕ, j < n ∧ 0 < j ∧ s.shift (j * v.1) (j * v.2) = some u := by
  constructor
  · intro h
    obtain ⟨w, hw, n', -, hshift', j, hj, hpos, hu⟩ := h
    obtain ⟨rfl, rfl⟩ := hv.eq_of_shift hw hn (by omega) hshift hshift'
    exact ⟨j, hj, hpos, hu⟩
  · intro h
    obtain ⟨j, hj, hpos, hu⟩ := h
    refine ⟨v, hv, n, ?_, hshift, j, hj, hpos, hu⟩
    by_contra hlt
    rw [shift_mul_none_of_lt hv (by omega)] at hshift
    cases hshift

/-- Nothing lies between neighbours. -/
theorem not_between_of_step (hv : IsDirection v) (hshift : s.shift v.1 v.2 = some t) :
    ¬Between s u t := by
  have hone : s.shift ((1 : ℕ) * v.1) ((1 : ℕ) * v.2) = some t := by
    rwa [Nat.cast_one, one_mul, one_mul]
  rw [between_iff_of_shift hv Nat.one_pos hone]
  rintro ⟨j, hj, hpos, -⟩
  omega

/-- Nothing lies between the ends of a knight's leap. -/
theorem not_between_of_leap (hv : v ∈ knightLeaps) (hshift : s.shift v.1 v.2 = some t) :
    ¬Between s u t := by
  rintro ⟨w, hw, n, hn, hshift', -⟩
  have hoff : v = (n * w.1, n * w.2) := offset_inj hshift hshift'
  have hnot : ∀ w ∈ orthogonals ++ diagonals, ∀ n < 8, ∀ v ∈ knightLeaps,
      v ≠ ((n : ℕ) * w.1, (n : ℕ) * w.2) := by decide
  exact hnot w hw n hn v hv hoff

/-- Of two squares from which the same square lies in front of a third, one is in front of the
other. -/
theorem Between.common {s' : Square} (h : Between s u t) (h' : Between s' u t) :
    s = s' ∨ Between s s' t ∨ Between s' s t := by
  obtain ⟨v, hv, n, hn8, hn, j, hj, hpos, hu⟩ := h
  obtain ⟨v', hv', n', hn8', hn', j', hj', hpos', hu'⟩ := h'
  -- seen from `u` the square `t` lies in the direction of both
  have ht : u.shift ((n - j : ℕ) * v.1) ((n - j : ℕ) * v.2) = some t := by
    rw [shift_shift hu, ← hn, Nat.cast_sub hj.le]
    congr 1 <;> ring
  have ht' : u.shift ((n' - j' : ℕ) * v'.1) ((n' - j' : ℕ) * v'.2) = some t := by
    rw [shift_shift hu', ← hn', Nat.cast_sub hj'.le]
    congr 1 <;> ring
  obtain ⟨rfl, hrest⟩ := IsDirection.eq_of_shift hv hv' (by omega) (by omega) ht ht'
  rw [shift_neg] at hu hu'
  rcases lt_trichotomy j j' with hlt | heq | hlt
  · right; right
    refine ⟨v, hv, n', hn8', hn', j' - j, by omega, by omega, ?_⟩
    rw [shift_neg, neg_neg, neg_neg] at hu'
    rw [← hu, shift_shift hu', Nat.cast_sub hlt.le]
    congr 1 <;> ring
  · left
    rw [heq, hu', Option.some.injEq] at hu
    exact hu.symm
  · right; left
    refine ⟨v, hv, n, hn8, hn, j - j', by omega, by omega, ?_⟩
    rw [shift_neg, neg_neg, neg_neg] at hu
    rw [← hu', shift_shift hu, Nat.cast_sub hlt.le]
    congr 1 <;> ring

end Square

namespace Rules

open Square

variable {p : Position} {m : ChessMove} {mb : Mailbox} {c : Color} {k : Piece}
  {s t d : Square}

/-! ## Attacks as lines -/

/-- What a piece attacks on the empty board. -/
def Reaches (c : Color) (k : Piece) (s t : Square) : Prop := Attacks (fun _ => none) c k s t

theorem slides_iff_between {v : ℤ × ℤ} (hv : IsDirection v) :
    Slides mb s v t ↔ Slides (fun _ => none) s v t ∧ ∀ u, Between s u t → mb u = none := by
  constructor
  · rintro ⟨n, hn, hpos, hshift, hclear⟩
    refine ⟨⟨n, hn, hpos, hshift, fun _ _ _ _ _ => rfl⟩, ?_⟩
    intro u hu
    obtain ⟨j, hj, hj0, hshiftj⟩ := (between_iff_of_shift hv hpos hshift).mp hu
    exact hclear j hj hj0 u hshiftj
  · rintro ⟨⟨n, hn, hpos, hshift, -⟩, hclear⟩
    refine ⟨n, hn, hpos, hshift, ?_⟩
    intro j hj hj0 u hu
    exact hclear u ((between_iff_of_shift hv hpos hshift).mpr ⟨j, hj, hj0, hu⟩)

theorem isDirection_pawn (c : Color) :
    IsDirection (1, forward c) ∧ IsDirection (-1, forward c) := by
  unfold IsDirection
  cases c <;> decide

/-- A piece attacks what it reaches if nothing stands in between. -/
theorem attacks_iff_between :
    Attacks mb c k s t ↔ Reaches c k s t ∧ ∀ u, Between s u t → mb u = none := by
  have hsliders : ∀ vs : List (ℤ × ℤ), (∀ v ∈ vs, IsDirection v) →
      ((∃ v ∈ vs, Slides mb s v t) ↔
        (∃ v ∈ vs, Slides (fun _ => none) s v t) ∧ ∀ u, Between s u t → mb u = none) := by
    intro vs hvs
    constructor
    · rintro ⟨v, hv, h⟩
      obtain ⟨hreach, hclear⟩ := (slides_iff_between (hvs v hv)).mp h
      exact ⟨⟨v, hv, hreach⟩, hclear⟩
    · rintro ⟨⟨v, hv, hreach⟩, hclear⟩
      exact ⟨v, hv, (slides_iff_between (hvs v hv)).mpr ⟨hreach, hclear⟩⟩
  cases k with
  | bishop => exact hsliders diagonals fun v hv => List.mem_append_right _ hv
  | rook => exact hsliders orthogonals fun v hv => List.mem_append_left _ hv
  | queen => exact hsliders (orthogonals ++ diagonals) fun v hv => hv
  | pawn =>
    refine (and_iff_left_of_imp ?_).symm
    intro h u hu
    rcases h with h | h
    · exact absurd hu (not_between_of_step (isDirection_pawn c).1 h)
    · exact absurd hu (not_between_of_step (isDirection_pawn c).2 h)
  | knight =>
    refine (and_iff_left_of_imp ?_).symm
    rintro ⟨v, hv, h⟩ u hu
    exact absurd hu (not_between_of_leap hv h)
  | king =>
    refine (and_iff_left_of_imp ?_).symm
    rintro ⟨v, hv, h⟩ u hu
    exact absurd hu (not_between_of_step hv h)

/-- A piece put on the board stops the attacks that pass over its square. -/
theorem attacks_put_iff (x : Color × Piece) :
    Attacks (mb.put d x) c k s t ↔ Attacks mb c k s t ∧ ¬Between s d t := by
  rw [attacks_iff_between, show Attacks mb c k s t ↔ _ from attacks_iff_between, and_assoc]
  refine and_congr_right fun _ => ?_
  constructor
  · intro h
    have hd : ¬Between s d t := by
      intro hd
      have := h d hd
      rw [Mailbox.put_apply, if_pos rfl] at this
      cases this
    refine ⟨?_, hd⟩
    intro u hu
    have := h u hu
    rw [Mailbox.put_apply] at this
    split_ifs at this
    exact this
  · rintro ⟨h, hd⟩ u hu
    rw [Mailbox.put_apply, if_neg (by rintro rfl; exact hd hu)]
    exact h u hu

/-- A piece of `c` on `s` attacks `t`. -/
def AttackedFrom (mb : Mailbox) (c : Color) (s t : Square) : Prop :=
  ∃ k, mb s = some (c, k) ∧ Attacks mb c k s t

instance (mb : Mailbox) (c : Color) (s t : Square) : Decidable (AttackedFrom mb c s t) :=
  inferInstanceAs (Decidable (∃ k, mb s = some (c, k) ∧ Attacks mb c k s t))

/-- Nothing stands between an attacker and what it attacks. -/
theorem AttackedFrom.not_between (h : AttackedFrom mb c s t) (hd : mb d ≠ none) :
    ¬Between s d t := by
  obtain ⟨k, -, ha⟩ := h
  intro hbetween
  exact hd ((attacks_iff_between.mp ha).2 d hbetween)

/-! ## The moving piece lifted -/

/-- The occupants with the moving piece lifted off, and with en passant also the captured pawn. -/
def lifted (p : Position) (m : ChessMove) : Mailbox := fun s =>
  if s = m.src ∨ m.type = .enPassant ∧ m.dst.shift 0 (-forward p.side) = some s then none
  else p.mailbox s

/-- A move that is no castling puts the lifted piece down on its destination. -/
theorem Performable.mailboxAfter_eq_put (hp : p.WellFormed) (h : Performable p m)
    (hcastle : ∀ w, m ≠ castleMove p.side w) :
    p.mailboxAfter m = (lifted p m).put m.dst (p.side, m.placed) := by
  funext s
  cases h.mailboxChange hp with
  | plain type after =>
    have hlifted : lifted p m = p.mailbox.clear m.src := by
      funext u
      rw [lifted, Mailbox.clear_apply]
      simp [type]
    rw [after, hlifted]
  | enPassant u type target behind pawn after =>
    have hne : m.dst ≠ u := by
      rintro rfl
      exact absurd (target.symm.trans pawn) (by simp)
    rw [after, Mailbox.clear_apply, Mailbox.put_apply, Mailbox.put_apply, Mailbox.clear_apply,
      lifted, behind]
    by_cases hd : s = m.dst
    · rw [if_pos hd, if_pos hd, if_neg (by rw [hd]; exact hne)]
    · rw [if_neg hd, if_neg hd]
      by_cases hu : s = u
      · rw [if_pos hu, if_pos (Or.inr ⟨type, by rw [hu]⟩)]
      · rw [if_neg hu]
        congr 1
        simp [type, Ne.symm hu]
  | castle w _ eq _ => exact absurd eq (hcastle w)

/-- Where the mover's king stands after a move. -/
def kingAfter (m : ChessMove) (k : Square) : Square := if m.piece = .king then m.dst else k

theorem Performable.kingAfter_spec (hp : p.WellFormed) (h : Performable p m)
    (hk : p.mailbox t = some (p.side, .king)) :
    p.mailboxAfter m (kingAfter m t) = some (p.side, .king) := by
  rw [h.mailboxAfter_eq_king_iff hp, kingAfter]
  split_ifs with hpiece
  · exact Or.inl ⟨rfl, rfl, hpiece⟩
  · right
    refine ⟨?_, hk⟩
    rintro rfl
    rw [h.src, Option.some.injEq, Prod.mk.injEq] at hk
    exact hpiece hk.2

/-- After a move that is no castling the mover's king is attacked on the lines that were open with
the piece lifted, unless the move captures the attacker or closes the line. -/
theorem Performable.kingAttacked_after_iff (hp : p.WellFormed) (h : Performable p m)
    (hcastle : ∀ w, m ≠ castleMove p.side w) (hk : p.mailbox t = some (p.side, .king)) :
    KingAttacked (p.mailboxAfter m) p.side ↔
      ∃ s, AttackedFrom (lifted p m) (flipColor p.side) s (kingAfter m t) ∧ s ≠ m.dst ∧
        ¬Between s m.dst (kingAfter m t) := by
  have hking := h.kingAfter_spec hp hk
  have hafter := h.mailboxAfter_eq_put hp hcastle
  constructor
  · rintro ⟨u, hu, s, k, hs, ha⟩
    have heq : u = kingAfter m t := (h.king_after hp p.side).unique hu hking
    subst heq
    rw [hafter, attacks_put_iff] at ha
    rw [hafter, Mailbox.put_apply] at hs
    split_ifs at hs with hd
    · rw [Option.some.injEq, Prod.mk.injEq] at hs
      exact absurd hs.1.symm (flipColor_ne p.side)
    · exact ⟨s, ⟨k, hs, ha.1⟩, hd, ha.2⟩
  · rintro ⟨s, ⟨k, hs, ha⟩, hd, hbetween⟩
    refine ⟨kingAfter m t, hking, s, k, ?_, ?_⟩
    · rw [hafter, Mailbox.put_apply, if_neg hd, hs]
    · rw [hafter, attacks_put_iff]
      exact ⟨ha, hbetween⟩

/-! ## Answers to a check -/

/-- The move takes the piece on `s`. -/
def TakesOn (p : Position) (m : ChessMove) (s : Square) : Prop :=
  s = m.dst ∨ m.type = .enPassant ∧ m.dst.shift 0 (-forward p.side) = some s

/-- What attacks the king is attacked with the moving piece lifted as well, unless it is taken. -/
theorem attackedFrom_lifted (hsrc : p.mailbox m.src = some (p.side, m.piece))
    (h : AttackedFrom p.mailbox (flipColor p.side) s t) (htaken : ¬TakesOn p m s) :
    AttackedFrom (lifted p m) (flipColor p.side) s t := by
  obtain ⟨k, hs, ha⟩ := h
  have hstays : lifted p m s = p.mailbox s := by
    rw [lifted, if_neg]
    rintro (rfl | hpassant)
    · rw [hsrc, Option.some.injEq, Prod.mk.injEq] at hs
      exact flipColor_ne p.side hs.1.symm
    · exact htaken (Or.inr hpassant)
  refine ⟨k, hstays.trans hs, ha.of_empty ?_⟩
  intro u hu
  rw [lifted, hu]
  split_ifs <;> rfl

/-- A legal move of another piece than the king answers every check: it takes the attacker or
moves between the attacker and the king. -/
theorem Position.Legal.answers_check (hp : p.WellFormed) (hm : p.Legal m)
    (hpiece : m.piece ≠ .king) (hk : p.mailbox t = some (p.side, .king))
    (hs : AttackedFrom p.mailbox (flipColor p.side) s t) : TakesOn p m s ∨ Between s m.dst t := by
  have hcastle : ∀ w, m ≠ castleMove p.side w := by
    rintro w rfl
    exact hpiece rfl
  have hafter : kingAfter m t = t := if_neg hpiece
  by_contra hneither
  rw [not_or] at hneither
  apply hm.2
  refine (hm.performable.kingAttacked_after_iff hp hcastle hk).mpr ⟨s, ?_, ?_, ?_⟩
  · rw [hafter]
    exact attackedFrom_lifted hm.performable.src hs hneither.1
  · exact fun hd => hneither.1 (Or.inl hd)
  · rw [hafter]
    exact hneither.2

/-- Two checks at once are answered by the king alone, or by an en passant capture. -/
theorem Position.Legal.answers_double_check (hp : p.WellFormed) (hm : p.Legal m)
    (hpiece : m.piece ≠ .king) (hk : p.mailbox t = some (p.side, .king)) {s' : Square}
    (hs : AttackedFrom p.mailbox (flipColor p.side) s t)
    (hs' : AttackedFrom p.mailbox (flipColor p.side) s' t) (hne : s ≠ s') :
    m.type = .enPassant := by
  by_contra htype
  have hanswer : ∀ {s}, AttackedFrom p.mailbox (flipColor p.side) s t →
      s = m.dst ∨ Between s m.dst t := by
    intro s hs
    rcases hm.answers_check hp hpiece hk hs with (hd | hpassant) | hbetween
    · exact Or.inl hd
    · exact absurd hpassant.1 htype
    · exact Or.inr hbetween
  have hoccupied : ∀ {s}, AttackedFrom p.mailbox (flipColor p.side) s t → p.mailbox s ≠ none := by
    rintro s ⟨k, hsk, -⟩
    simp [hsk]
  rcases hanswer hs with rfl | hbetween
  · rcases hanswer hs' with heq | hbetween'
    · exact hne heq.symm
    · exact hs'.not_between (hoccupied hs) hbetween'
  · rcases hanswer hs' with rfl | hbetween'
    · exact hs.not_between (hoccupied hs') hbetween
    · rcases hbetween.common hbetween' with heq | hlies | hlies
      · exact hne heq
      · exact hs.not_between (hoccupied hs') hlies
      · exact hs'.not_between (hoccupied hs) hlies

end Rules

end PawnGrabber
