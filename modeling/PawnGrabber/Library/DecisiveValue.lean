import PawnGrabber.Library.PrincipalLine

/-!
# Decisive values

A game whose static values tell a position without moves from all others: such a position is
worth `-B` to the side to move, every other position less than `B` in either direction. There a
search finds `B` exactly if the side to move can force the opponent into a position without
moves, and `-B` exactly if it cannot avoid that. Such a value is never revised by a deeper
search, and the line of the search leads to a position without moves.
-/

set_option autoImplicit false

namespace GameSearch

namespace Game

variable {G M V : Type*} [AddCommGroup V] [LinearOrder V] [IsOrderedAddMonoid V]

/-- The static value is `-B` without moves and strictly between `-B` and `B` with moves. -/
structure Decisive (A : Game G M V) (B : V) : Prop where
  pos : 0 < B
  stuck : ∀ g, A.children g = [] → A.eval g = -B
  inside : ∀ g, A.children g ≠ [] → -B < A.eval g ∧ A.eval g < B

/-! ## Forced play -/

mutual

/-- The side to move forces the opponent into a position without moves: within `d` plies, or right
after them by one of the moves that count as captures. -/
def Wins (A : Game G M V) : ℕ → G → Prop
  | 0, g => ∃ x ∈ A.captures g, A.children x.2 = []
  | d + 1, g => ∃ x ∈ A.children g, Loses A d x.2

/-- The side to move has no move, or whatever it plays the opponent wins. -/
def Loses (A : Game G M V) : ℕ → G → Prop
  | 0, g => A.children g = []
  | d + 1, g => ∀ x ∈ A.children g, Wins A d x.2

end

variable {A : Game G M V} {B : V}

omit [AddCommGroup V] [LinearOrder V] [IsOrderedAddMonoid V] in
/-- A forced outcome stays forced when more plies are looked at. -/
theorem forced_succ (d : ℕ) (g : G) :
    (A.Wins d g → A.Wins (d + 1) g) ∧ (A.Loses d g → A.Loses (d + 1) g) := by
  induction d generalizing g with
  | zero =>
    constructor
    · intro h
      rw [Wins] at h
      obtain ⟨x, hx, hstuck⟩ := h
      rw [Wins]
      exact ⟨x, A.captures_subset g hx, by rwa [Loses]⟩
    · intro h
      rw [Loses] at h
      rw [Loses, h]
      intro x hx
      exact absurd hx List.not_mem_nil
  | succ d ih =>
    constructor
    · intro h
      rw [Wins] at h ⊢
      obtain ⟨x, hx, hloses⟩ := h
      exact ⟨x, hx, (ih x.2).2 hloses⟩
    · intro h
      rw [Loses] at h ⊢
      intro x hx
      exact (ih x.2).1 (h x hx)

namespace Decisive

variable (h : A.Decisive B)
include h

theorem neg_lt : -B < B := neg_lt_self h.pos

theorem eval_bound (g : G) : -B ≤ A.eval g ∧ A.eval g ≤ B := by
  by_cases hc : A.children g = []
  · rw [h.stuck g hc]
    exact ⟨le_rfl, h.neg_lt.le⟩
  · exact ⟨(h.inside g hc).1.le, (h.inside g hc).2.le⟩

omit [IsOrderedAddMonoid V] in
/-- The capture search sees that a position has no moves. -/
theorem quiesce_eq_neg_iff (g : G) : A.quiesce g = -B ↔ A.children g = [] := by
  rw [quiesce_eq]
  constructor
  · intro hvalue
    by_contra hc
    have hle := le_foldl_max (A.eval g) ((A.captures g).map fun x => -A.quiesce x.2)
    rw [hvalue] at hle
    exact absurd (h.inside g hc).1 (not_lt.mpr hle)
  · intro hc
    have hcaptures : A.captures g = [] := by
      have hsub := A.captures_subset g
      rw [hc] at hsub
      exact List.subset_nil.mp hsub
    rw [hcaptures, h.stuck g hc]
    rfl

/-- The capture search finds a capture that leaves the opponent without moves. -/
theorem quiesce_eq_iff (g : G) :
    A.quiesce g = B ↔ ∃ x ∈ A.captures g, A.children x.2 = [] := by
  constructor
  · intro hvalue
    have hne : A.eval g ≠ B := by
      by_cases hc : A.children g = []
      · rw [h.stuck g hc]
        exact h.neg_lt.ne
      · exact (h.inside g hc).2.ne
    rw [quiesce_eq] at hvalue
    rcases foldl_max_mem (A.eval g) ((A.captures g).map fun x => -A.quiesce x.2) with hmem | hmem
    · exact absurd (hmem.symm.trans hvalue) hne
    · rw [hvalue] at hmem
      obtain ⟨x, hx, hneg⟩ := List.mem_map.mp hmem
      exact ⟨x, hx, (h.quiesce_eq_neg_iff x.2).mp (neg_eq_iff_eq_neg.mp hneg)⟩
  · intro hstuck
    obtain ⟨x, hx, hc⟩ := hstuck
    apply le_antisymm (quiesce_bound h.eval_bound g).2
    rw [quiesce_eq]
    have hx' : -A.quiesce x.2 = B := by rw [(h.quiesce_eq_neg_iff x.2).mpr hc, neg_neg]
    rw [← hx']
    exact le_foldl_max_of_mem _ (List.mem_map_of_mem (f := fun x : M × G => -A.quiesce x.2) hx)

/-- A decisive value of the search is a forced outcome. -/
theorem negamax_eq_iff (d : ℕ) (g : G) :
    (A.negamax d g = B ↔ A.Wins d g) ∧ (A.negamax d g = -B ↔ A.Loses d g) := by
  induction d generalizing g with
  | zero =>
    rw [Wins, Loses]
    exact ⟨h.quiesce_eq_iff g, h.quiesce_eq_neg_iff g⟩
  | succ d ih =>
    rw [Wins, Loses]
    by_cases hc : A.children g = []
    · have hvalue : A.negamax (d + 1) g = -B := by
        rw [negamax_of_isEmpty hc]
        exact (h.quiesce_eq_neg_iff g).mpr hc
      rw [hvalue, hc]
      simp [h.neg_lt.ne]
    have hbest := max_negamax_succ hc d (-B)
    have hbound := negamax_bound h.eval_bound (d + 1) g
    rw [max_eq_right hbound.1] at hbest
    have hgreatest := isGreatest_foldl_max (-B) ((A.children g).map fun x => -A.negamax d x.2)
    rw [← hbest] at hgreatest
    constructor
    · constructor
      · intro hvalue
        rw [hvalue] at hgreatest
        rcases hgreatest.1 with hB | hmem
        · exact absurd hB.symm h.neg_lt.ne
        · obtain ⟨x, hx, hneg⟩ := List.mem_map.mp hmem
          exact ⟨x, hx, (ih x.2).2.mp (neg_eq_iff_eq_neg.mp hneg)⟩
      · intro hwins
        obtain ⟨x, hx, hloses⟩ := hwins
        have hx' : -A.negamax d x.2 = B := by rw [(ih x.2).2.mpr hloses, neg_neg]
        apply le_antisymm hbound.2
        rw [← hx']
        exact hgreatest.2 (Or.inr
          (List.mem_map_of_mem (f := fun x : M × G => -A.negamax d x.2) hx))
    · constructor
      · intro hvalue x hx
        have hle := hgreatest.2 (Or.inr
          (List.mem_map_of_mem (f := fun x : M × G => -A.negamax d x.2) hx))
        rw [hvalue, neg_le_neg_iff] at hle
        exact (ih x.2).1.mp (le_antisymm (negamax_bound h.eval_bound d x.2).2 hle)
      · intro hloses
        rcases hgreatest.1 with hB | hmem
        · exact hB
        · obtain ⟨x, hx, hneg⟩ := List.mem_map.mp hmem
          rw [← hneg, (ih x.2).1.mpr (hloses x hx)]

/-- A decisive value is not revised by a deeper search. -/
theorem negamax_stable {d d' : ℕ} (hd : d ≤ d') (g : G) :
    (A.negamax d g = B → A.negamax d' g = B) ∧ (A.negamax d g = -B → A.negamax d' g = -B) := by
  induction hd with
  | refl => exact ⟨id, id⟩
  | step hle ih =>
    have hsucc := forced_succ (A := A)
    constructor
    · intro hvalue
      exact (h.negamax_eq_iff _ g).1.mpr
        ((hsucc _ g).1 ((h.negamax_eq_iff _ g).1.mp (ih.1 hvalue)))
    · intro hvalue
      exact (h.negamax_eq_iff _ g).2.mpr
        ((hsucc _ g).2 ((h.negamax_eq_iff _ g).2.mp (ih.2 hvalue)))

/-- The line of a decisive value leads to a position without moves, the opponent's after a win
and the mover's own after a loss, with at most one move more than plies. -/
theorem plainSearch_line {d : ℕ} {g : G} {v : V} {line : List M}
    (hsearch : A.plainSearch d g = (v, line)) :
    (v = B → ∃ f, A.Leads g line f ∧ A.children f = [] ∧ Odd line.length ∧
      line.length ≤ d + 1) ∧
    (v = -B → ∃ f, A.Leads g line f ∧ A.children f = [] ∧ Even line.length ∧
      line.length ≤ d + 1) := by
  induction line generalizing d g v with
  | nil =>
    have hvalue : v = A.eval g :=
      congrArg Prod.fst (hsearch.symm.trans (plainSearch_of_nil (congrArg Prod.snd hsearch)))
    by_cases hc : A.children g = []
    · rw [hvalue, h.stuck g hc]
      constructor
      · intro heq
        exact absurd heq h.neg_lt.ne
      · intro _
        exact ⟨g, .nil g, hc, ⟨0, rfl⟩, Nat.zero_le _⟩
    · rw [hvalue]
      constructor
      · intro heq
        exact absurd heq (h.inside g hc).2.ne
      · intro heq
        exact absurd heq (h.inside g hc).1.ne'
  | cons m line ih =>
    obtain ⟨x, hx, rfl, htail⟩ := plainSearch_tail (congrArg Prod.snd hsearch)
    rw [hsearch] at htail
    have hrest := ih htail
    constructor
    · intro hv
      obtain ⟨f, hleads, hc, heven, hlength⟩ := hrest.2 (by rw [hv])
      refine ⟨f, .cons hx hleads, hc, heven.add_one, ?_⟩
      obtain ⟨k, hk⟩ := heven
      rw [List.length_cons]
      omega
    · intro hv
      -- at depth 0 a lost position has no moves, so there is no first move
      have hd : d ≠ 0 := by
        rintro rfl
        have hloses := (h.negamax_eq_iff 0 g).2.mp (by rw [← plainSearch_fst, hsearch, hv])
        rw [Loses] at hloses
        rw [hloses] at hx
        exact absurd hx List.not_mem_nil
      obtain ⟨f, hleads, hc, hodd, hlength⟩ := hrest.1 (by rw [hv, neg_neg])
      refine ⟨f, .cons hx hleads, hc, hodd.add_one, ?_⟩
      rw [List.length_cons]
      omega

end Decisive

end Game

end GameSearch
