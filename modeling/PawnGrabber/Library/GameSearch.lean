import Mathlib

/-!
# Fail-hard alpha-beta search

Two-player zero-sum games with finitely many moves in every position, valued from the side
to move. `negamax` is the plain value of a position at a given depth, with a capture search
(`quiesce`) at the leaves. `alphaBeta` and `quiescenceSearch` compute it inside a window and
collect a principal variation on the way. A fail-hard search returns the value cut to its
window, whatever the window is, and inside the window its line realises the value; this is
`FailHard`, and each of the two searches has it because the loop over the moves keeps it.
-/

set_option autoImplicit false

namespace GameSearch

/-! ## Greatest elements of a list -/

section Best

variable {V X : Type*} [LinearOrder V]

/-- A starting value raised by every element of a list is the greatest of them all. -/
theorem isGreatest_foldl_max (a : V) (l : List V) :
    IsGreatest {v | v = a ∨ v ∈ l} (l.foldl max a) := by
  induction l generalizing a with
  | nil => simp [IsGreatest, upperBounds]
  | cons b l ih =>
    obtain ⟨hmem, hle⟩ := ih (max a b)
    constructor
    · rcases hmem with h | h
      · rw [List.foldl_cons, h]
        rcases max_choice a b with hab | hab
        · exact Or.inl hab
        · exact Or.inr (by rw [hab]; exact List.mem_cons_self)
      · exact Or.inr (List.mem_cons_of_mem _ h)
    · intro v hv
      have hmax : max a b ≤ l.foldl max (max a b) := hle (Or.inl rfl)
      rcases hv with hv | hv
      · rw [hv]
        exact (le_max_left a b).trans hmax
      · rcases List.mem_cons.mp hv with hv | hv
        · rw [hv]
          exact (le_max_right a b).trans hmax
        · exact hle (Or.inr hv)

theorem foldl_max_mem (a : V) (l : List V) : l.foldl max a = a ∨ l.foldl max a ∈ l :=
  (isGreatest_foldl_max a l).1

theorem le_foldl_max (a : V) (l : List V) : a ≤ l.foldl max a :=
  (isGreatest_foldl_max a l).2 (Or.inl rfl)

theorem le_foldl_max_of_mem (a : V) {l : List V} {v : V} (hv : v ∈ l) : v ≤ l.foldl max a :=
  (isGreatest_foldl_max a l).2 (Or.inr hv)

/-- Raising the starting value raises the result. -/
theorem foldl_max_max (a b : V) (l : List V) : l.foldl max (max a b) = max a (l.foldl max b) := by
  induction l generalizing b with
  | nil => rfl
  | cons c l ih => rw [List.foldl_cons, List.foldl_cons, max_assoc, ih]

/-- The greatest element depends on which elements there are only. -/
theorem foldl_max_congr {a a' : V} {l l' : List V}
    (h : ∀ v, v = a ∨ v ∈ l ↔ v = a' ∨ v ∈ l') : l.foldl max a = l'.foldl max a' := by
  have hset : {v | v = a ∨ v ∈ l} = {v | v = a' ∨ v ∈ l'} := Set.ext h
  have hgreatest := isGreatest_foldl_max a l
  rw [hset] at hgreatest
  exact hgreatest.unique (isGreatest_foldl_max a' l')

/-- `x` is the first element of the list with the greatest value. -/
def IsFirstMax (f : X → V) (xs : List X) (x : X) : Prop :=
  ∃ l₁ l₂, xs = l₁ ++ x :: l₂ ∧ (∀ y ∈ l₁, f y < f x) ∧ ∀ y ∈ l₂, f y ≤ f x

theorem IsFirstMax.cons {f : X → V} {xs : List X} {x y : X} (h : IsFirstMax f xs x)
    (hy : f y < f x) : IsFirstMax f (y :: xs) x := by
  obtain ⟨l₁, l₂, rfl, h₁, h₂⟩ := h
  exact ⟨y :: l₁, l₂, rfl, List.forall_mem_cons.mpr ⟨hy, h₁⟩, h₂⟩

theorem IsFirstMax.mem {f : X → V} {xs : List X} {x : X} (h : IsFirstMax f xs x) : x ∈ xs := by
  obtain ⟨l₁, l₂, rfl, -, -⟩ := h
  simp

end Best

/-! ## Games and their values -/

/-- A game: the moves of a position with the positions they lead to, those among them the
capture search looks at, and the static value of a position for the side to move. Captures
cannot go on forever. -/
structure Game (G M V : Type*) where
  children : G → List (M × G)
  captures : G → List (M × G)
  eval : G → V
  rank : G → ℕ
  captures_subset : ∀ g, captures g ⊆ children g
  rank_lt : ∀ g, ∀ x ∈ captures g, rank x.2 < rank g

variable {G M V : Type*} [AddCommGroup V] [LinearOrder V] [IsOrderedAddMonoid V]

namespace Game

variable (A : Game G M V)

/-- The value of the unpruned capture search: the best of standing still and every capture. -/
def quiesce (g : G) : V :=
  ((A.captures g).attach.map fun x => -quiesce x.1.2).foldl max (A.eval g)
termination_by A.rank g
decreasing_by exact A.rank_lt g x.1 x.2

omit [IsOrderedAddMonoid V] in
theorem quiesce_eq (g : G) :
    A.quiesce g = ((A.captures g).map fun x => -A.quiesce x.2).foldl max (A.eval g) := by
  rw [quiesce, List.attach_map_val (f := fun x : M × G => -A.quiesce x.2)]

/-- The plain negamax value to a depth. -/
def negamax : ℕ → G → V
  | 0, g => A.quiesce g
  | d + 1, g =>
    match A.children g with
    | [] => A.quiesce g
    | x :: xs => (xs.map fun y => -negamax d y.2).foldl max (-negamax d x.2)

/-- Playing the moves of the line from `g` leads to a position whose static value, seen from
the side to move in `g`, is `v`. -/
inductive Realises : G → List M → V → Prop
  | stand (g : G) : Realises g [] (A.eval g)
  | move {g : G} {x : M × G} {line : List M} {v : V} (mem : x ∈ A.children g)
      (rest : Realises x.2 line v) : Realises g (x.1 :: line) (-v)

/-! ## The searches -/

/-- The loop over the moves: the lower bound and the line found so far. -/
def searchLoop (search : G → V → V → V × List M) (β : V) :
    List (M × G) → V → List M → V × List M
  | [], α, pv => (α, pv)
  | x :: xs, α, pv =>
    let r := search x.2 (-β) (-α)
    if β ≤ -r.1 then (β, pv)
    else if α < -r.1 then searchLoop search β xs (-r.1) (x.1 :: r.2)
    else searchLoop search β xs α pv

/-- The capture search, to at most `fuel` captures in a row. -/
def quiescenceSearch : ℕ → G → V → V → V × List M
  | 0, _, α, _ => (α, [])
  | fuel + 1, g, α, β =>
    if β ≤ A.eval g then (β, [])
    else searchLoop (quiescenceSearch fuel) β (A.captures g) (max α (A.eval g)) []

def alphaBeta (fuel : ℕ) : ℕ → G → V → V → V × List M
  | 0, g, α, β => A.quiescenceSearch fuel g α β
  | d + 1, g, α, β =>
    if (A.children g).isEmpty then A.quiescenceSearch fuel g α β
    else searchLoop (alphaBeta fuel d) β (A.children g) α []

end Game

/-! ## Correctness -/

/-- `f` is a fail-hard search for the value `v`: it returns `v` cut to the window, and inside
the window its line is as required. -/
structure FailHard (f : V → V → V × List M) (v : V) (line : List M → Prop) : Prop where
  score : ∀ α β, α < β → (f α β).1 = max α (min β v)
  line : ∀ α β, α < v → v < β → line (f α β).2

section Loop

variable {f : G → V → V → V × List M} {w : G → V} {L : G → List M → Prop}
  {xs : List (M × G)} {α β : V}

/-- The score of a child as the loop sees it. -/
theorem FailHard.neg_score {s : V → V → V × List M} {v : V} {line : List M → Prop}
    (h : FailHard s v line) (hαβ : α < β) : -(s (-β) (-α)).1 = min β (max α (-v)) := by
  rw [h.score _ _ (neg_lt_neg hαβ), ← min_neg_neg, ← max_neg_neg, neg_neg, neg_neg]

/-- The score of a loop over fail-hard searches is the best of the lower bound and the values
of the children, cut at the upper bound. -/
theorem searchLoop_score (h : ∀ x ∈ xs, FailHard (f x.2) (w x.2) (L x.2)) (hαβ : α < β)
    (pv : List M) :
    (Game.searchLoop f β xs α pv).1 =
      min β ((xs.map fun x => -w x.2).foldl max α) := by
  induction xs generalizing α pv with
  | nil => exact (min_eq_right hαβ.le).symm
  | cons x xs ih =>
    obtain ⟨hx, hxs⟩ := List.forall_mem_cons.mp h
    rw [Game.searchLoop, hx.neg_score hαβ, List.map_cons, List.foldl_cons]
    by_cases hcut : β ≤ max α (-w x.2)
    · rw [min_eq_left hcut, if_pos le_rfl]
      exact (min_eq_left (hcut.trans (le_foldl_max _ _))).symm
    · have hlt := not_le.mp hcut
      rw [min_eq_right hlt.le, if_neg hcut]
      by_cases hbetter : α < max α (-w x.2)
      · rw [if_pos hbetter]
        exact ih hxs hlt _
      · rw [if_neg hbetter, ih hxs hαβ]
        congr 2
        exact (le_antisymm (not_lt.mp hbetter) (le_max_left _ _)).symm

/-- A loop that is not cut off keeps its line if no child is better than the lower bound, and
otherwise ends with the first of the best children and a line of that child. -/
theorem searchLoop_line (h : ∀ x ∈ xs, FailHard (f x.2) (w x.2) (L x.2)) (hαβ : α < β)
    (pv : List M) (hcut : (xs.map fun x => -w x.2).foldl max α < β) :
    (xs.map fun x => -w x.2).foldl max α = α ∧ (Game.searchLoop f β xs α pv).2 = pv ∨
      ∃ x line, IsFirstMax (fun x => -w x.2) xs x ∧ α < -w x.2 ∧
        (xs.map fun x => -w x.2).foldl max α = -w x.2 ∧
        (Game.searchLoop f β xs α pv).2 = x.1 :: line ∧ L x.2 line := by
  induction xs generalizing α pv with
  | nil => exact Or.inl ⟨rfl, rfl⟩
  | cons x xs ih =>
    obtain ⟨hx, hxs⟩ := List.forall_mem_cons.mp h
    rw [List.map_cons, List.foldl_cons] at hcut ⊢
    have hlt : max α (-w x.2) < β := (le_foldl_max _ _).trans_lt hcut
    rw [Game.searchLoop, hx.neg_score hαβ, min_eq_right hlt.le, if_neg (not_le.mpr hlt)]
    by_cases hbetter : α < -w x.2
    · rw [max_eq_right hbetter.le] at hcut hlt ⊢
      rw [if_pos hbetter]
      have hline : L x.2 (f x.2 (-β) (-α)).2 :=
        hx.line _ _ (neg_lt.mp hlt) (lt_neg.mp hbetter)
      rcases ih hxs hlt (x.1 :: (f x.2 (-β) (-α)).2) hcut with
        ⟨hbest, hpv⟩ | ⟨y, line, hfirst, hy, hbest, hpv, hl⟩
      · refine Or.inr ⟨x, _, ⟨[], xs, rfl, by simp, ?_⟩, hbetter, hbest, hpv, hline⟩
        intro y hy
        change -w y.2 ≤ -w x.2
        rw [← hbest]
        exact le_foldl_max_of_mem _ (List.mem_map_of_mem hy)
      · exact Or.inr ⟨y, line, hfirst.cons hy, hbetter.trans hy, hbest, hpv, hl⟩
    · have hle := not_lt.mp hbetter
      rw [max_eq_left hle] at hcut ⊢
      rw [if_neg (lt_irrefl α)]
      rcases ih hxs hαβ pv hcut with hkeep | ⟨y, line, hfirst, hy, hrest⟩
      · exact Or.inl hkeep
      · exact Or.inr ⟨y, line, hfirst.cons (hle.trans_lt hy), hy, hrest⟩

end Loop

namespace Game

variable {A : Game G M V} {fuel : ℕ}

/-- The capture search is fail-hard for the unpruned capture value. -/
theorem quiescenceSearch_failHard (g : G) (hfuel : A.rank g < fuel) :
    FailHard (A.quiescenceSearch fuel g) (A.quiesce g)
      (fun line => A.Realises g line (A.quiesce g)) := by
  induction fuel generalizing g with
  | zero => exact absurd hfuel (Nat.not_lt_zero _)
  | succ fuel ih =>
    have hchild : ∀ x ∈ A.captures g, FailHard (A.quiescenceSearch fuel x.2) (A.quiesce x.2)
        (fun line => A.Realises x.2 line (A.quiesce x.2)) := by
      intro x hx
      exact ih x.2 (by have := A.rank_lt g x hx; omega)
    have hbest : ∀ α, ((A.captures g).map fun x => -A.quiesce x.2).foldl max
        (max α (A.eval g)) = max α (A.quiesce g) := by
      intro α
      rw [foldl_max_max, ← quiesce_eq]
    have hstand : A.eval g ≤ A.quiesce g := by
      rw [quiesce_eq]
      exact le_foldl_max _ _
    constructor
    · intro α β hαβ
      rw [quiescenceSearch]
      by_cases hcut : β ≤ A.eval g
      · rw [if_pos hcut, min_eq_left (hcut.trans hstand), max_eq_right hαβ.le]
      · have hwindow : max α (A.eval g) < β := max_lt hαβ (not_le.mp hcut)
        rw [if_neg hcut, searchLoop_score (L := fun g line => A.Realises g line (A.quiesce g))
          hchild hwindow, hbest, min_max_distrib_left, min_eq_right hαβ.le]
    · intro α β hα hβ
      have hlt : A.eval g < β := hstand.trans_lt hβ
      rw [quiescenceSearch, if_neg (not_le.mpr hlt)]
      have hmax : max α (A.quiesce g) = A.quiesce g := max_eq_right hα.le
      rcases searchLoop_line (f := A.quiescenceSearch fuel) (w := A.quiesce)
        (L := fun g line => A.Realises g line (A.quiesce g)) hchild (max_lt (hα.trans hβ) hlt) []
        (by rw [hbest, hmax]; exact hβ) with ⟨hkeep, hpv⟩ | ⟨x, line, hfirst, -, hx, hpv, hl⟩
      · rw [hbest, hmax] at hkeep
        rw [hpv]
        -- no capture improves on standing still
        have heval : A.quiesce g = A.eval g := by
          rcases max_choice α (A.eval g) with h | h
          · exact absurd (hkeep.trans h) hα.ne'
          · exact hkeep.trans h
        rw [heval]
        exact Realises.stand g
      · rw [hbest, hmax] at hx
        rw [hpv, hx]
        exact Realises.move (A.captures_subset g hfirst.mem) hl

omit [IsOrderedAddMonoid V] in
/-- With no moves the search to any depth is the capture search. -/
theorem negamax_of_isEmpty {g : G} (h : A.children g = []) (d : ℕ) :
    A.negamax d g = A.quiesce g := by
  cases d with
  | zero => rfl
  | succ d => rw [negamax, h]

omit [IsOrderedAddMonoid V] in
/-- With moves the value is the best of the children's, raised by any bound. -/
theorem max_negamax_succ {g : G} (h : A.children g ≠ []) (d : ℕ) (α : V) :
    max α (A.negamax (d + 1) g) =
      ((A.children g).map fun x => -A.negamax d x.2).foldl max α := by
  rw [negamax]
  cases hc : A.children g with
  | nil => exact absurd hc h
  | cons x xs => rw [List.map_cons, List.foldl_cons, foldl_max_max]

/-- Alpha-beta search is fail-hard for the negamax value. -/
theorem alphaBeta_failHard (hfuel : ∀ g, A.rank g < fuel) (d : ℕ) (g : G) :
    FailHard (A.alphaBeta fuel d g) (A.negamax d g)
      (fun line => A.Realises g line (A.negamax d g)) := by
  induction d generalizing g with
  | zero => exact quiescenceSearch_failHard g (hfuel g)
  | succ d ih =>
    by_cases hc : A.children g = []
    · rw [negamax_of_isEmpty hc]
      have hsearch : A.alphaBeta fuel (d + 1) g = A.quiescenceSearch fuel g := by
        funext α β
        rw [alphaBeta, hc, List.isEmpty_nil, if_pos rfl]
      rw [hsearch]
      exact quiescenceSearch_failHard g (hfuel g)
    have hsearch : ∀ α β, A.alphaBeta fuel (d + 1) g α β =
        searchLoop (A.alphaBeta fuel d) β (A.children g) α [] := by
      intro α β
      rw [alphaBeta, if_neg (by simpa using hc)]
    have hbest := max_negamax_succ hc d
    constructor
    · intro α β hαβ
      rw [hsearch, searchLoop_score (w := A.negamax d)
        (L := fun g line => A.Realises g line (A.negamax d g)) (fun x _ => ih x.2) hαβ, ← hbest,
        min_max_distrib_left, min_eq_right hαβ.le]
    · intro α β hα hβ
      have hmax : max α (A.negamax (d + 1) g) = A.negamax (d + 1) g := max_eq_right hα.le
      rw [hsearch]
      rcases searchLoop_line (w := A.negamax d)
        (L := fun g line => A.Realises g line (A.negamax d g)) (fun x _ => ih x.2) (hα.trans hβ) []
        (by rw [← hbest, hmax]; exact hβ)
        with ⟨hkeep, -⟩ | ⟨x, line, hfirst, -, hx, hpv, hl⟩
      · rw [← hbest, hmax] at hkeep
        exact absurd hkeep hα.ne'
      · rw [← hbest, hmax] at hx
        rw [hpv, hx]
        exact Realises.move hfirst.mem hl

/-- Inside the window the line begins with the first of the best moves. -/
theorem alphaBeta_head (hfuel : ∀ g, A.rank g < fuel) {d : ℕ} {g : G} (hc : A.children g ≠ [])
    {α β : V} (hα : α < A.negamax (d + 1) g) (hβ : A.negamax (d + 1) g < β) :
    ∃ x line, IsFirstMax (fun x => -A.negamax d x.2) (A.children g) x ∧
      (A.alphaBeta fuel (d + 1) g α β).2 = x.1 :: line := by
  have hbest := max_negamax_succ hc d
  have hmax : max α (A.negamax (d + 1) g) = A.negamax (d + 1) g := max_eq_right hα.le
  rw [alphaBeta, if_neg (by simpa using hc)]
  rcases searchLoop_line (w := A.negamax d)
    (L := fun g line => A.Realises g line (A.negamax d g))
    (fun x _ => alphaBeta_failHard hfuel d x.2) (hα.trans hβ) []
    (by rw [← hbest, hmax]; exact hβ) with ⟨hkeep, -⟩ | ⟨x, line, hfirst, -, -, hpv, -⟩
  · rw [← hbest, hmax] at hkeep
    exact absurd hkeep hα.ne'
  · exact ⟨x, line, hfirst, hpv⟩

/-! ## Bounds and symmetry -/

/-- A bound on the static values bounds the capture value. -/
theorem quiesce_bound {B : V} (h : ∀ g, -B ≤ A.eval g ∧ A.eval g ≤ B) (g : G) :
    -B ≤ A.quiesce g ∧ A.quiesce g ≤ B := by
  induction hn : A.rank g using Nat.strong_induction_on generalizing g with
  | _ n ih =>
    rw [quiesce_eq]
    rcases foldl_max_mem (A.eval g) ((A.captures g).map fun x => -A.quiesce x.2) with hv | hv
    · rw [hv]
      exact h g
    · obtain ⟨x, hx, hv⟩ := List.mem_map.mp hv
      rw [← hv]
      have hbound := ih (A.rank x.2) (hn ▸ A.rank_lt g x hx) x.2 rfl
      exact ⟨neg_le_neg hbound.2, neg_le.mp hbound.1⟩

theorem negamax_bound {B : V} (h : ∀ g, -B ≤ A.eval g ∧ A.eval g ≤ B) (d : ℕ) (g : G) :
    -B ≤ A.negamax d g ∧ A.negamax d g ≤ B := by
  induction d generalizing g with
  | zero => exact quiesce_bound h g
  | succ d ih =>
    have hneg : ∀ x : M × G, -B ≤ -A.negamax d x.2 ∧ -A.negamax d x.2 ≤ B := by
      intro x
      exact ⟨neg_le_neg (ih x.2).2, neg_le.mp (ih x.2).1⟩
    rw [negamax]
    cases A.children g with
    | nil => exact quiesce_bound h g
    | cons x xs =>
      rcases foldl_max_mem (-A.negamax d x.2) (xs.map fun y => -A.negamax d y.2) with hv | hv
      · simp only [hv]
        exact hneg x
      · obtain ⟨y, -, hv⟩ := List.mem_map.mp hv
        simp only [← hv]
        exact hneg y

/-- A relation between positions under which static values, moves and captures correspond,
in whatever order they are listed. -/
structure IsBisimulation (A : Game G M V) (R : G → G → Prop) : Prop where
  eval : ∀ g g', R g g' → A.eval g = A.eval g'
  children : ∀ g g', R g g' → ∀ x ∈ A.children g, ∃ y ∈ A.children g', R x.2 y.2
  children_symm : ∀ g g', R g g' → ∀ y ∈ A.children g', ∃ x ∈ A.children g, R x.2 y.2
  captures : ∀ g g', R g g' → ∀ x ∈ A.captures g, ∃ y ∈ A.captures g', R x.2 y.2
  captures_symm : ∀ g g', R g g' → ∀ y ∈ A.captures g', ∃ x ∈ A.captures g, R x.2 y.2

omit [LinearOrder V] [IsOrderedAddMonoid V] in
/-- Corresponding lists of positions have the same values. -/
theorem mem_map_iff_of_related {R : G → G → Prop} {w : G → V} {l l' : List (M × G)}
    (h : ∀ x ∈ l, ∃ y ∈ l', R x.2 y.2) (h' : ∀ y ∈ l', ∃ x ∈ l, R x.2 y.2)
    (hw : ∀ x ∈ l, ∀ y, R x.2 y → w x.2 = w y) (v : V) :
    v ∈ l.map (fun x => -w x.2) ↔ v ∈ l'.map fun x => -w x.2 := by
  rw [List.mem_map, List.mem_map]
  constructor
  · intro ⟨x, hx, hv⟩
    obtain ⟨y, hy, hxy⟩ := h x hx
    exact ⟨y, hy, by rw [← hw x hx _ hxy, hv]⟩
  · intro ⟨y, hy, hv⟩
    obtain ⟨x, hx, hxy⟩ := h' y hy
    exact ⟨x, hx, by rw [hw x hx _ hxy, hv]⟩

omit [IsOrderedAddMonoid V] in
theorem IsBisimulation.quiesce_eq {R : G → G → Prop} (h : A.IsBisimulation R) {g g' : G}
    (hg : R g g') : A.quiesce g = A.quiesce g' := by
  induction hn : A.rank g using Nat.strong_induction_on generalizing g g' with
  | _ n ih =>
    rw [Game.quiesce_eq, Game.quiesce_eq A g', h.eval g g' hg]
    refine foldl_max_congr fun v => or_congr Iff.rfl ?_
    refine mem_map_iff_of_related (h.captures g g' hg) (h.captures_symm g g' hg) ?_ v
    intro x hx y hxy
    exact ih (A.rank x.2) (hn ▸ A.rank_lt g x hx) hxy rfl

omit [IsOrderedAddMonoid V] in
/-- Corresponding positions have the same negamax value. -/
theorem IsBisimulation.negamax_eq {R : G → G → Prop} (h : A.IsBisimulation R) (d : ℕ) {g g' : G}
    (hg : R g g') : A.negamax d g = A.negamax d g' := by
  induction d generalizing g g' with
  | zero => exact h.quiesce_eq hg
  | succ d ih =>
    have hmem := mem_map_iff_of_related (w := A.negamax d) (h.children g g' hg)
      (h.children_symm g g' hg) fun x _ y hxy => ih hxy
    have hchildren := h.children_symm g g' hg
    rw [negamax, negamax]
    cases hc : A.children g with
    | nil =>
      cases hc' : A.children g' with
      | nil => exact h.quiesce_eq hg
      | cons y ys =>
        rw [hc, hc'] at hchildren
        obtain ⟨x, hx, -⟩ := hchildren y List.mem_cons_self
        exact absurd hx List.not_mem_nil
    | cons x xs =>
      rw [hc] at hmem
      cases hc' : A.children g' with
      | nil =>
        rw [hc', List.map_cons] at hmem
        exact absurd ((hmem _).mp List.mem_cons_self) List.not_mem_nil
      | cons y ys =>
        rw [hc', List.map_cons, List.map_cons] at hmem
        exact foldl_max_congr fun v => by simpa only [List.mem_cons] using hmem v

end Game

end GameSearch
