import PawnGrabber.Rules.Performable

/-!
# The invariant of play

A performable move keeps a position sound, a legal one keeps it well-formed. Castling needs
an argument of its own, for the program does not look at the king's safety after it: the
three squares the king stands on, passes and reaches are unattacked before, and the moved
rook shields the only line along which king and rook could have opened the way.
-/

set_option autoImplicit false

namespace PawnGrabber

namespace Rules

open Square

variable {p : Position} {m : ChessMove} {c : Color} {s t : Square}

/-! ## Soundness -/

/-- Only a king's move brings a king anywhere. -/
theorem Performable.placed_eq_king_iff (h : Performable p m) :
    m.placed = .king ↔ m.piece = .king := by
  unfold ChessMove.placed
  cases h.shape with
  | simple type _ => rw [type]
  | capture type _ => rw [type]
  | twoStepPawn type _ _ => rw [type]
  | enPassant type _ _ _ => rw [type]
  | promotion type piece _ _ =>
    rw [piece]
    simp only [promotionMoveTypes, List.mem_cons, List.not_mem_nil, or_false] at type
    rcases type with h | h | h | h <;> rw [h] <;> simp
  | castle w _ eq => cases w <;> simp [eq, castleMove, castleType]

/-- The kings afterwards: the moved one, and those that did not move. -/
theorem Performable.mailboxAfter_eq_king_iff (hp : p.WellFormed) (h : Performable p m) :
    p.mailboxAfter m s = some (c, .king) ↔
      s = m.dst ∧ c = p.side ∧ m.piece = .king ∨ s ≠ m.src ∧ p.mailbox s = some (c, .king) := by
  constructor
  · intro hs
    rcases h.of_mailboxAfter hp hs with ⟨hd, hx⟩ | ⟨-, hsrc, hx⟩ | ⟨w, -, -, hx⟩
    · rw [Prod.mk.injEq] at hx
      exact Or.inl ⟨hd, hx.1, h.placed_eq_king_iff.mp hx.2.symm⟩
    · exact Or.inr ⟨hsrc, hx⟩
    · simp at hx
  · rintro (⟨rfl, rfl, hk⟩ | ⟨hsrc, hx⟩)
    · rw [h.mailboxAfter_dst hp, h.placed_eq_king_iff.mpr hk]
    · refine h.mailboxAfter_of_ne hp hx hsrc ?_ (by simp) ?_
      · rintro rfl
        exact h.dst_ne_king hp c hx
      · rintro w heq rfl
        have hrook := (heq ▸ h : Performable p (castleMove p.side w)).mayCastle.2.2.1
        exact absurd (hrook.symm.trans hx) (by simp)

theorem Performable.king_after (hp : p.WellFormed) (h : Performable p m) (c : Color) :
    ∃! s, p.mailboxAfter m s = some (c, .king) := by
  obtain ⟨s, hs, huniq⟩ := hp.king c
  simp only at hs huniq
  simp only [h.mailboxAfter_eq_king_iff hp]
  by_cases hmoved : c = p.side ∧ m.piece = .king
  · have hsrc : m.src = s := huniq _ (by rw [h.src, hmoved.1, hmoved.2])
    refine ⟨m.dst, Or.inl ⟨rfl, hmoved⟩, ?_⟩
    rintro t (⟨ht, -⟩ | ⟨hne, ht⟩)
    · exact ht
    · exact absurd ((huniq t ht).trans hsrc.symm) hne
  · have hsrc : s ≠ m.src := by
      rintro rfl
      rw [h.src, Option.some.injEq, Prod.mk.injEq] at hs
      exact hmoved ⟨hs.1.symm, hs.2⟩
    refine ⟨s, Or.inr ⟨hsrc, hs⟩, ?_⟩
    rintro t (⟨-, ht⟩ | ⟨-, ht⟩)
    · exact absurd ht hmoved
    · exact huniq t ht

/-- A pawn that stays a pawn does not arrive on an end rank. -/
theorem Performable.dst_rank_of_placed_pawn (hp : p.WellFormed) (h : Performable p m)
    (hplaced : m.placed = .pawn) : m.dst.rank ≠ 0 ∧ m.dst.rank ≠ 7 := by
  have hpawn : m.piece = .pawn ∧ m.type ∉ promotionMoveTypes := by
    unfold ChessMove.placed at hplaced
    revert hplaced
    cases m.type <;> simp [promotionMoveTypes]
  have hcastle : ¬∃ w, MayCastle p p.side w ∧ m = castleMove p.side w := by
    rintro ⟨w, -, heq⟩
    rw [heq] at hpawn
    simp [castleMove] at hpawn
  obtain ⟨hsrc, hm⟩ := h.resolve_right hcastle
  rw [if_pos hpawn.1] at hm
  rw [hpawn.1] at hsrc
  have hrank := hp.pawns _ _ hsrc
  simp only [Fin.ext_iff, ne_eq] at hrank ⊢
  unfold PawnMoves PawnAttacks at hm
  cases htype : m.type <;>
    simp only [htype, shift_eq_some_iff, Fin.ext_iff, promotionMoveTypes] at hm hpawn
  case enPassant =>
    have := (hp.enPassant _ hm.2).2.1
    cases hc : p.side <;> simp only [hc, enPassantRank] at this <;> simp [this]
  all_goals
    cases hc : p.side <;>
      simp only [hc, lastRank, backRank, pawnRank, forward, flipColor_white,
        flipColor_black] at hm <;> simp at hpawn hm hrank ⊢ <;> omega

theorem Performable.pawns_after (hp : p.WellFormed) (h : Performable p m) (c : Color)
    (s : Square) (hs : p.mailboxAfter m s = some (c, .pawn)) : s.rank ≠ 0 ∧ s.rank ≠ 7 := by
  rcases h.of_mailboxAfter hp hs with ⟨rfl, hx⟩ | ⟨-, -, hx⟩ | ⟨w, -, -, hx⟩
  · rw [Prod.mk.injEq] at hx
    exact h.dst_rank_of_placed_pawn hp hx.2.symm
  · exact hp.pawns c s hx
  · simp at hx

/-- The square a two-step move passes over is a sound en passant square. -/
theorem Performable.enPassant_after (hp : p.WellFormed) (h : Performable p m) (t : Square)
    (ht : (p.play m).enPassant = some t) :
    p.mailboxAfter m t = none ∧ t.rank = enPassantRank (flipColor p.side) ∧
      ∃ u ∈ t.shift 0 (-forward (flipColor p.side)),
        p.mailboxAfter m u = some (p.side, .pawn) := by
  unfold Position.play at ht
  simp only at ht
  split_ifs at ht with htype
  obtain ⟨hpiece, moves⟩ := h.pawnMoves (Or.inl htype)
  rw [htype] at moves
  obtain ⟨hrank, ⟨u, hu, hempty⟩, hdst, -⟩ := moves
  have hut : u = t := Option.some.inj (hu.symm.trans ht)
  subst hut
  have hback : u.shift 0 (-forward (flipColor p.side)) = some m.dst := by
    rw [shift_shift ht, ← hdst]
    congr 1
    cases p.side <;> rfl
  refine ⟨?_, ?_, m.dst, hback, ?_⟩
  · cases hx : p.mailboxAfter m u with
    | none => rfl
    | some x =>
      rcases h.of_mailboxAfter hp hx with ⟨hd, -⟩ | ⟨-, -, hx⟩ | ⟨w, heq, -, -⟩
      · rw [hd, shift_eq_some_iff] at hback
        cases hc : p.side <;> simp [hc, forward] at hback
      · rw [hempty] at hx
        cases hx
      · rw [heq] at htype
        cases w <;> simp [castleMove, castleType] at htype
  · rw [shift_eq_some_iff] at ht
    rw [Fin.ext_iff] at hrank ⊢
    cases hc : p.side <;>
      simp only [hc, pawnRank, forward, enPassantRank, flipColor_white, flipColor_black]
        at hrank ht ⊢ <;> simp at hrank ht ⊢ <;> omega
  · rw [h.mailboxAfter_dst hp, ChessMove.placed, htype, hpiece]

/-- Playing a performable move leaves a sound position. -/
theorem Performable.sound (hp : p.WellFormed) (h : Performable p m) : (p.play m).Sound where
  king := h.king_after hp
  pawns := h.pawns_after hp
  enPassant t ht := by
    obtain ⟨h₁, h₂, u, hu, hpawn⟩ := h.enPassant_after hp t ht
    refine ⟨h₁, h₂, u, hu, ?_⟩
    rw [show flipColor (p.play m).side = p.side from flipColor_flipColor _]
    exact hpawn

/-! ## Castling rights and the king's safety -/

/-- A right that survives the move still has its king and rook at home. -/
theorem Performable.castling_after (hp : p.WellFormed) (h : Performable p m) (c : Color)
    (w : Wing) (hright : (p.play m).rights c w = true) :
    p.mailboxAfter m (kingHome c) = some (c, .king) ∧
      p.mailboxAfter m (rookHome c w) = some (c, .rook) := by
  simp only [Position.play, Bool.and_eq_true, Bool.not_eq_true', decide_eq_false_iff_not]
    at hright
  obtain ⟨hheld, hkeeps⟩ := hright
  rw [Position.ForfeitsRight, not_or, not_or] at hkeeps
  obtain ⟨hking, hrook, hdst⟩ := hkeeps
  obtain ⟨hk, hr⟩ := hp.castling c w hheld
  have hcastle : ∀ w', m = castleMove p.side w' → c ≠ p.side := by
    rintro w' heq rfl
    exact hking (by rw [heq]; rfl)
  constructor
  · exact (h.mailboxAfter_eq_king_iff hp).mpr (Or.inr ⟨Ne.symm hking, hk⟩)
  · apply h.mailboxAfter_of_ne hp hr (Ne.symm hrook) (Ne.symm hdst) (by simp)
    intro w' heq heq'
    have hc := hcastle w' heq
    revert hc heq'
    cases c <;> cases p.side <;> cases w <;> cases w' <;> decide

/-- Between a slider and the king's castling square there is no room for the king's or the
rook's home square, unless the rook's new square lies there as well. -/
theorem rookTarget_between {c : Color} {w : Wing} {v : ℤ × ℤ} (hv : IsDirection v) {k n : ℕ}
    (hkn : k < n) (hk : 0 < k) (hn : s.shift (n * v.1) (n * v.2) = some (kingTarget c w))
    (hu : s.shift (k * v.1) (k * v.2) = some (kingHome c) ∨
      s.shift (k * v.1) (k * v.2) = some (rookHome c w)) :
    k + 1 < n ∧ s.shift ((k + 1 : ℕ) * v.1) ((k + 1 : ℕ) * v.2) = some (rookTarget c w) := by
  have := s.file.isLt
  simp only [shift_eq_some_iff, kingTarget, kingHome, rookHome, rookTarget] at hn hu ⊢
  obtain ⟨h1, h2, -⟩ := hv.cases
  rcases h1 with h1 | h1 | h1 <;> rcases h2 with h2 | h2 | h2 <;> rw [h1, h2] at hn hu ⊢ <;>
    cases w <;> simp at hn hu ⊢ <;> omega

/-- A slide to the king's castling square in the position after castling was already
possible before it. -/
theorem slides_of_castled {w : Wing} {v : ℤ × ℤ} (hv : IsDirection v)
    (hs : Slides (p.mailboxAfter (castleMove p.side w)) s v (kingTarget p.side w)) :
    Slides p.mailbox s v (kingTarget p.side w) := by
  obtain ⟨n, hn, hpos, hshift, hclear⟩ := hs
  refine ⟨n, hn, hpos, hshift, ?_⟩
  intro k hk hk0 u hu
  have hafter := hclear k hk hk0 u hu
  by_contra hbefore
  have hvacated : u = kingHome p.side ∨ u = rookHome p.side w := by
    by_contra hne
    rw [not_or] at hne
    refine hbefore ?_
    rw [mailboxAfter_castleMove, Mailbox.put_apply] at hafter
    split_ifs at hafter with hrt
    rw [Mailbox.clear_apply, if_neg hne.2, Mailbox.put_apply] at hafter
    split_ifs at hafter with hkt
    rwa [Mailbox.clear_apply, if_neg hne.1] at hafter
  obtain ⟨hlt, hrook⟩ := rookTarget_between (w := w) hv hk hk0 hshift (by
    rcases hvacated with rfl | rfl
    · exact Or.inl hu
    · exact Or.inr hu)
  have := hclear (k + 1) hlt (Nat.succ_pos k) _ hrook
  rw [mailboxAfter_castleMove, Mailbox.put_apply, if_pos rfl] at this
  cases this

/-- The king is safe after castling. -/
theorem MayCastle.king_safe {w : Wing} (hp : p.WellFormed) (h : MayCastle p p.side w) :
    ¬KingAttacked (p.mailboxAfter (castleMove p.side w)) p.side := by
  have hm : Performable p (castleMove p.side w) := Or.inr ⟨w, h, rfl⟩
  rintro ⟨t, ht, s, k, hs, ha⟩
  have htarget : t = kingTarget p.side w := by
    have hking := hm.mailboxAfter_dst hp
    have hplaced : (castleMove p.side w).placed = .king := by cases w <;> rfl
    rw [hplaced] at hking
    exact (hm.king_after hp p.side).unique ht hking
  subst htarget
  have hbefore : p.mailbox s = some (flipColor p.side, k) := by
    rcases hm.of_mailboxAfter hp hs with ⟨-, hx⟩ | ⟨-, -, hx⟩ | ⟨w', -, -, hx⟩
    · simp at hx
    · exact hx
    · simp at hx
  refine h.2.2.2.2 (kingTarget p.side w) (by simp) ⟨s, k, hbefore, ?_⟩
  cases k with
  | pawn => exact ha
  | knight => exact ha
  | king => exact ha
  | bishop =>
    obtain ⟨v, hv, ha⟩ := ha
    exact ⟨v, hv, slides_of_castled (List.mem_append_right _ hv) ha⟩
  | rook =>
    obtain ⟨v, hv, ha⟩ := ha
    exact ⟨v, hv, slides_of_castled (List.mem_append_left _ hv) ha⟩
  | queen =>
    obtain ⟨v, hv, ha⟩ := ha
    exact ⟨v, hv, slides_of_castled hv ha⟩

/-- A castling the rules allow is legal. -/
theorem MayCastle.legal {w : Wing} (hp : p.WellFormed) (h : MayCastle p p.side w) :
    p.Legal (castleMove p.side w) :=
  ⟨Or.inr ⟨w, h, rfl⟩, h.king_safe hp⟩

/-- A legal move leaves a well-formed position. -/
theorem Position.Legal.wellFormed (hp : p.WellFormed) (h : p.Legal m) :
    (p.play m).WellFormed where
  toSound := h.performable.sound hp
  castling := h.performable.castling_after hp
  safe := by
    rw [show flipColor (p.play m).side = p.side from flipColor_flipColor _]
    exact h.2

end Rules

end PawnGrabber
