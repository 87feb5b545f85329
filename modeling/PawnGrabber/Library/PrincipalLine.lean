import PawnGrabber.Library.GameSearch

/-!
# The line of the unpruned search

`plainSearch` is `alphaBeta` without the windows: it looks at every move and keeps the first of
the best ones together with the line that follows it. Its value is the negamax value. Pruning
does not change its line either: a fail-hard search whose window contains the value returns both
components of `plainSearch`, because every child that raises the lower bound is itself searched
with a window that contains the child's value.
-/

set_option autoImplicit false

namespace GameSearch

variable {G M V : Type*} [AddCommGroup V] [LinearOrder V]

/-! ## The first of the best options -/

/-- The first of the best options if it is better than what is given. An option is a move with
the value and the line of the position it leads to, as the opponent sees them. -/
def firstBest : List (M × V × List M) → V × List M → V × List M
  | [], best => best
  | x :: xs, best => firstBest xs (if best.1 < -x.2.1 then (-x.2.1, x.1 :: x.2.2) else best)

theorem firstBest_fst (xs : List (M × V × List M)) (best : V × List M) :
    (firstBest xs best).1 = (xs.map fun x => -x.2.1).foldl max best.1 := by
  induction xs generalizing best with
  | nil => rfl
  | cons x xs ih =>
    rw [firstBest, ih, List.map_cons, List.foldl_cons]
    congr 1
    split_ifs with h
    · exact (max_eq_right h.le).symm
    · exact (max_eq_left (not_lt.mp h)).symm

theorem le_firstBest (xs : List (M × V × List M)) (best : V × List M) :
    best.1 ≤ (firstBest xs best).1 := by
  rw [firstBest_fst]
  exact le_foldl_max _ _

/-- Either nothing is better than what was given, or the result is the first of the best. -/
theorem firstBest_cases (xs : List (M × V × List M)) (best : V × List M) :
    (firstBest xs best = best ∧ ∀ x ∈ xs, -x.2.1 ≤ best.1) ∨
      ∃ x, IsFirstMax (fun x => -x.2.1) xs x ∧ best.1 < -x.2.1 ∧
        firstBest xs best = (-x.2.1, x.1 :: x.2.2) := by
  induction xs generalizing best with
  | nil => exact Or.inl ⟨rfl, by simp⟩
  | cons x xs ih =>
    rw [firstBest]
    by_cases hx : best.1 < -x.2.1
    · rw [if_pos hx]
      right
      rcases ih (-x.2.1, x.1 :: x.2.2) with ⟨heq, hle⟩ | ⟨y, hy, hlt, heq⟩
      · exact ⟨x, ⟨[], xs, rfl, by simp, hle⟩, hx, heq⟩
      · exact ⟨y, hy.cons hlt, hx.trans hlt, heq⟩
    · rw [if_neg hx]
      rcases ih best with ⟨heq, hle⟩ | ⟨y, hy, hlt, heq⟩
      · exact Or.inl ⟨heq, List.forall_mem_cons.mpr ⟨not_lt.mp hx, hle⟩⟩
      · exact Or.inr ⟨y, hy.cons ((not_lt.mp hx).trans_lt hlt), hlt, heq⟩

omit [AddCommGroup V] in
theorem IsFirstMax.of_map {X Y : Type*} {g : X → Y} {f : Y → V} {xs : List X} {y : Y}
    (h : IsFirstMax f (xs.map g) y) : ∃ x, IsFirstMax (fun x => f (g x)) xs x ∧ y = g x := by
  obtain ⟨l₁, l₂, hsplit, h₁, h₂⟩ := h
  obtain ⟨k₁, k₂, rfl, rfl, hrest⟩ := List.map_eq_append_iff.mp hsplit
  obtain ⟨x, k₃, rfl, rfl, rfl⟩ := List.map_eq_cons_iff.mp hrest
  refine ⟨x, ⟨k₁, k₃, rfl, ?_, ?_⟩, rfl⟩
  · intro y hy
    exact h₁ _ (List.mem_map_of_mem hy)
  · intro y hy
    exact h₂ _ (List.mem_map_of_mem hy)

/-- A starting value that the result exceeds leaves no trace. -/
theorem firstBest_raise {xs : List (M × V × List M)} {a b : V} {l : List M} (l' : List M)
    (hba : b ≤ a) (ha : a < (firstBest xs (b, l)).1) :
    firstBest xs (a, l') = firstBest xs (b, l) := by
  induction xs generalizing a b l l' with
  | nil => exact absurd ha (not_lt.mpr hba)
  | cons x xs ih =>
    rw [firstBest] at ha
    rw [firstBest, firstBest]
    by_cases hxa : a < -x.2.1
    · rw [if_pos hxa, if_pos (hba.trans_lt hxa)]
    · rw [if_neg hxa]
      by_cases hxb : b < -x.2.1
      · rw [if_pos hxb] at ha ⊢
        exact ih l' (not_lt.mp hxa) ha
      · rw [if_neg hxb] at ha ⊢
        exact ih l' hba ha

/-! ## The unpruned search -/

namespace Game

variable (A : Game G M V)

/-- The unpruned capture search with its line. -/
def plainQuiesce (g : G) : V × List M :=
  firstBest ((A.captures g).attach.map fun x => (x.1.1, plainQuiesce x.1.2)) (A.eval g, [])
termination_by A.rank g
decreasing_by exact A.rank_lt g x.1 x.2

theorem plainQuiesce_eq (g : G) :
    A.plainQuiesce g =
      firstBest ((A.captures g).map fun x => (x.1, A.plainQuiesce x.2)) (A.eval g, []) := by
  rw [plainQuiesce, List.attach_map_val (f := fun x : M × G => (x.1, A.plainQuiesce x.2))]

/-- The unpruned search to a depth with its line. -/
def plainSearch : ℕ → G → V × List M
  | 0, g => A.plainQuiesce g
  | d + 1, g =>
    match A.children g with
    | [] => A.plainQuiesce g
    | x :: xs =>
      let r := plainSearch d x.2
      firstBest (xs.map fun y => (y.1, plainSearch d y.2)) (-r.1, x.1 :: r.2)

theorem plainQuiesce_fst (g : G) : (A.plainQuiesce g).1 = A.quiesce g := by
  induction hn : A.rank g using Nat.strong_induction_on generalizing g with
  | _ n ih =>
    rw [plainQuiesce_eq, firstBest_fst, quiesce_eq, List.map_map]
    congr 1
    apply List.map_congr_left
    intro x hx
    exact congrArg Neg.neg (ih (A.rank x.2) (hn ▸ A.rank_lt g x hx) x.2 rfl)

theorem plainSearch_fst (d : ℕ) (g : G) : (A.plainSearch d g).1 = A.negamax d g := by
  induction d generalizing g with
  | zero => exact A.plainQuiesce_fst g
  | succ d ih =>
    rw [plainSearch, negamax]
    cases A.children g with
    | nil => exact A.plainQuiesce_fst g
    | cons x xs =>
      rw [firstBest_fst, List.map_map]
      simp only [ih, Function.comp_def]

variable {A}

theorem plainSearch_of_isEmpty {g : G} (h : A.children g = []) (d : ℕ) :
    A.plainSearch d g = A.plainQuiesce g := by
  cases d with
  | zero => rfl
  | succ d => rw [plainSearch, h]

/-- Started below the value, the loop over all moves ends with the unpruned search. -/
theorem firstBest_children {g : G} (h : A.children g ≠ []) {d : ℕ} {α : V}
    (hα : α < A.negamax (d + 1) g) (pv : List M) :
    firstBest ((A.children g).map fun x => (x.1, A.plainSearch d x.2)) (α, pv) =
      A.plainSearch (d + 1) g := by
  rw [← plainSearch_fst, plainSearch] at hα
  rw [plainSearch]
  cases hc : A.children g with
  | nil => exact absurd hc h
  | cons x xs =>
    rw [hc] at hα
    rw [List.map_cons, firstBest]
    split_ifs with hx
    · rfl
    · exact firstBest_raise pv (not_lt.mp hx) hα

/-- With moves to play the line begins with the first of the best moves and goes on with the
line of the position after it. -/
theorem plainSearch_succ {g : G} (h : A.children g ≠ []) (d : ℕ) :
    ∃ x, IsFirstMax (fun x => -(A.plainSearch d x.2).1) (A.children g) x ∧
      A.plainSearch (d + 1) g =
        (-(A.plainSearch d x.2).1, x.1 :: (A.plainSearch d x.2).2) := by
  rw [plainSearch]
  cases hc : A.children g with
  | nil => exact absurd hc h
  | cons x xs =>
    rcases firstBest_cases (xs.map fun y => (y.1, A.plainSearch d y.2))
      (-(A.plainSearch d x.2).1, x.1 :: (A.plainSearch d x.2).2) with
      ⟨heq, hle⟩ | ⟨y, hy, hlt, heq⟩
    · refine ⟨x, ⟨[], xs, rfl, by simp, ?_⟩, heq⟩
      intro y hy
      exact hle _ (List.mem_map_of_mem hy)
    · obtain ⟨z, hz, rfl⟩ := hy.of_map
      exact ⟨z, hz.cons hlt, heq⟩

/-- The capture search stands still, or its line begins with the first of the best captures and
goes on with the line of the position after it. -/
theorem plainQuiesce_cases (g : G) :
    A.plainQuiesce g = (A.eval g, []) ∨
      ∃ x, IsFirstMax (fun x => -(A.plainQuiesce x.2).1) (A.captures g) x ∧
        A.plainQuiesce g = (-(A.plainQuiesce x.2).1, x.1 :: (A.plainQuiesce x.2).2) := by
  rw [plainQuiesce_eq]
  rcases firstBest_cases ((A.captures g).map fun x => (x.1, A.plainQuiesce x.2))
    (A.eval g, []) with ⟨heq, -⟩ | ⟨y, hy, -, heq⟩
  · exact Or.inl heq
  · obtain ⟨x, hx, rfl⟩ := hy.of_map
    exact Or.inr ⟨x, hx, heq⟩

/-! ## Along the line -/

/-- Playing the moves of the line from the first position leads to the second. -/
inductive Leads (A : Game G M V) : G → List M → G → Prop
  | nil (g : G) : Leads A g [] g
  | cons {g f : G} {x : M × G} {line : List M} (mem : x ∈ A.children g)
      (rest : Leads A x.2 line f) : Leads A g (x.1 :: line) f

/-- The first move of the line leads to a position whose own line, to one ply less, is the rest. -/
theorem plainSearch_tail {d : ℕ} {g : G} {m : M} {line : List M}
    (h : (A.plainSearch d g).2 = m :: line) :
    ∃ x ∈ A.children g, x.1 = m ∧
      A.plainSearch (d - 1) x.2 = (-(A.plainSearch d g).1, line) := by
  have hquiesce : (A.plainQuiesce g).2 = m :: line → ∃ x ∈ A.captures g, x.1 = m ∧
      A.plainQuiesce x.2 = (-(A.plainQuiesce g).1, line) := by
    intro hline
    rcases plainQuiesce_cases (A := A) g with heq | ⟨x, hx, heq⟩
    · rw [heq] at hline
      cases hline
    · rw [heq] at hline
      obtain ⟨hm, hrest⟩ := List.cons.inj hline
      exact ⟨x, hx.mem, hm, Prod.ext (by rw [heq, neg_neg]) hrest⟩
  cases d with
  | zero =>
    obtain ⟨x, hx, hm, heq⟩ := hquiesce h
    exact ⟨x, A.captures_subset g hx, hm, heq⟩
  | succ d =>
    by_cases hc : A.children g = []
    · rw [plainSearch_of_isEmpty hc] at h
      obtain ⟨x, hx, -⟩ := hquiesce h
      have hmem := A.captures_subset g hx
      rw [hc] at hmem
      exact absurd hmem List.not_mem_nil
    · obtain ⟨x, hx, heq⟩ := plainSearch_succ hc d
      rw [heq] at h ⊢
      obtain ⟨hm, hrest⟩ := List.cons.inj h
      exact ⟨x, hx.mem, hm, Prod.ext (neg_neg _).symm hrest⟩

/-- Where the line ends, the value is the static one. -/
theorem plainSearch_of_nil {d : ℕ} {g : G} (h : (A.plainSearch d g).2 = []) :
    A.plainSearch d g = (A.eval g, []) := by
  have hquiesce : (A.plainQuiesce g).2 = [] → A.plainQuiesce g = (A.eval g, []) := by
    intro hline
    rcases plainQuiesce_cases (A := A) g with heq | ⟨x, -, heq⟩
    · exact heq
    · rw [heq] at hline
      cases hline
  cases d with
  | zero => exact hquiesce h
  | succ d =>
    by_cases hc : A.children g = []
    · rw [plainSearch_of_isEmpty hc] at h ⊢
      exact hquiesce h
    · obtain ⟨x, -, heq⟩ := plainSearch_succ hc d
      rw [heq] at h
      cases h

/-- At every position along the line the search to the remaining depth finds the value for the
side to move there and the rest of the line. -/
theorem plainSearch_drop {d k : ℕ} {g : G} (hk : k ≤ (A.plainSearch d g).2.length) :
    ∃ f, A.Leads g ((A.plainSearch d g).2.take k) f ∧
      A.plainSearch (d - k) f =
        ((-1 : ℤ) ^ k • (A.plainSearch d g).1, (A.plainSearch d g).2.drop k) := by
  induction k generalizing d g with
  | zero => exact ⟨g, by rw [List.take_zero]; exact .nil g, by simp⟩
  | succ k ih =>
    cases hline : (A.plainSearch d g).2 with
    | nil =>
      rw [hline] at hk
      exact absurd hk (Nat.not_succ_le_zero k)
    | cons m line =>
      obtain ⟨x, hx, rfl, heq⟩ := plainSearch_tail hline
      rw [hline] at hk
      obtain ⟨f, hleads, hf⟩ := ih (d := d - 1) (g := x.2)
        (by rw [heq]; exact Nat.succ_le_succ_iff.mp hk)
      rw [heq] at hleads hf
      refine ⟨f, .cons hx hleads, ?_⟩
      rw [Nat.sub_sub, Nat.add_comm 1 k] at hf
      rw [hf, pow_succ, mul_smul, neg_one_smul, List.drop_succ_cons]

/-- Captures from the first position on lead to the second. -/
inductive LeadsByCaptures (A : Game G M V) : G → List M → G → Prop
  | nil (g : G) : LeadsByCaptures A g [] g
  | cons {g f : G} {x : M × G} {line : List M} (mem : x ∈ A.captures g)
      (rest : LeadsByCaptures A x.2 line f) : LeadsByCaptures A g (x.1 :: line) f

/-- The line of the capture search is a line of captures. -/
theorem plainQuiesce_leads (g : G) : ∃ f, A.LeadsByCaptures g (A.plainQuiesce g).2 f := by
  induction hn : A.rank g using Nat.strong_induction_on generalizing g with
  | _ n ih =>
    rcases plainQuiesce_cases (A := A) g with heq | ⟨x, hx, heq⟩
    · exact ⟨g, by rw [heq]; exact .nil g⟩
    · obtain ⟨f, hleads⟩ := ih (A.rank x.2) (hn ▸ A.rank_lt g x hx.mem) x.2 rfl
      exact ⟨f, by rw [heq]; exact .cons hx.mem hleads⟩

/-- The line of the search has one move for each ply of the depth, fewer only if it comes to a
position without moves, and goes on with captures. -/
theorem plainSearch_shape (d : ℕ) (g : G) :
    ∃ e f, A.Leads g ((A.plainSearch d g).2.take d) e ∧
      A.LeadsByCaptures e ((A.plainSearch d g).2.drop d) f ∧
      ((A.plainSearch d g).2.length < d → A.children e = []) := by
  rcases lt_or_ge (A.plainSearch d g).2.length d with hlt | hle
  · obtain ⟨e, hleads, he⟩ := plainSearch_drop (A := A) (d := d) (g := g) le_rfl
    rw [List.take_length] at hleads
    rw [List.drop_length] at he
    rw [List.take_of_length_le hlt.le, List.drop_of_length_le hlt.le]
    refine ⟨e, e, hleads, .nil e, fun _ => ?_⟩
    by_contra hc
    obtain ⟨n, hn⟩ := Nat.exists_eq_succ_of_ne_zero (Nat.sub_pos_of_lt hlt).ne'
    obtain ⟨x, -, hsearch⟩ := plainSearch_succ hc n
    rw [hn, hsearch] at he
    cases congrArg Prod.snd he
  · obtain ⟨e, hleads, he⟩ := plainSearch_drop hle
    obtain ⟨f, hcaptures⟩ := plainQuiesce_leads (A := A) e
    rw [Nat.sub_self] at he
    rw [show A.plainQuiesce e = A.plainSearch 0 e from rfl, he] at hcaptures
    exact ⟨e, f, hleads, hcaptures, fun hlt => absurd hlt (not_lt.mpr hle)⟩

end Game

/-! ## Pruning keeps the line -/

variable [IsOrderedAddMonoid V]

/-- A search that returns what `r` holds, cut to its window, and inside the window also its line. -/
abbrev Returns (f : V → V → V × List M) (r : V × List M) : Prop := FailHard f r.1 (· = r.2)

omit [AddCommGroup V] [IsOrderedAddMonoid V] in
theorem Returns.eq {f : V → V → V × List M} {r : V × List M} (h : Returns f r) {α β : V}
    (hα : α < r.1) (hβ : r.1 < β) : f α β = r := by
  apply Prod.ext
  · rw [h.score α β (hα.trans hβ), min_eq_right hβ.le, max_eq_right hα.le]
  · exact h.line α β hα hβ

/-- A loop that is not cut off finds the first of the best options. -/
theorem searchLoop_eq_firstBest {f : G → V → V → V × List M} {s : G → V × List M}
    {xs : List (M × G)} (h : ∀ x ∈ xs, Returns (f x.2) (s x.2)) {α β : V} (pv : List M)
    (hαβ : α < β) (hcut : (firstBest (xs.map fun x => (x.1, s x.2)) (α, pv)).1 < β) :
    Game.searchLoop f β xs α pv = firstBest (xs.map fun x => (x.1, s x.2)) (α, pv) := by
  induction xs generalizing α pv with
  | nil => rfl
  | cons x xs ih =>
    obtain ⟨hx, hxs⟩ := List.forall_mem_cons.mp h
    rw [List.map_cons, firstBest] at hcut ⊢
    rw [Game.searchLoop]
    by_cases hbetter : α < -(s x.2).1
    · rw [if_pos hbetter] at hcut ⊢
      have hlt : -(s x.2).1 < β := (le_firstBest _ _).trans_lt hcut
      have hchild : f x.2 (-β) (-α) = s x.2 := hx.eq (neg_lt.mp hlt) (lt_neg.mp hbetter)
      simp only [hchild]
      rw [if_neg (not_le.mpr hlt), if_pos hbetter]
      exact ih hxs _ hlt hcut
    · rw [if_neg hbetter] at hcut ⊢
      have hchild : -(f x.2 (-β) (-α)).1 = α := by
        rw [hx.neg_score hαβ, max_eq_left (not_lt.mp hbetter), min_eq_right hαβ.le]
      simp only [hchild]
      rw [if_neg (not_le.mpr hαβ), if_neg (lt_irrefl α)]
      exact ih hxs pv hαβ hcut

namespace Game

variable {A : Game G M V} {fuel : ℕ}

theorem quiescenceSearch_returns (g : G) (hfuel : A.rank g < fuel) :
    Returns (A.quiescenceSearch fuel g) (A.plainQuiesce g) := by
  induction fuel generalizing g with
  | zero => exact absurd hfuel (Nat.not_lt_zero _)
  | succ fuel ih =>
    have hchild : ∀ x ∈ A.captures g,
        Returns (A.quiescenceSearch fuel x.2) (A.plainQuiesce x.2) := by
      intro x hx
      exact ih x.2 (by have := A.rank_lt g x hx; omega)
    constructor
    · rw [plainQuiesce_fst]
      exact (quiescenceSearch_failHard g hfuel).score
    · intro α β hα hβ
      have hstand : A.eval g < β := by
        rw [plainQuiesce_eq] at hβ
        exact (le_firstBest _ _).trans_lt hβ
      have hbest : firstBest ((A.captures g).map fun x => (x.1, A.plainQuiesce x.2))
          (max α (A.eval g), []) = A.plainQuiesce g := by
        rw [plainQuiesce_eq] at hα ⊢
        rcases le_total α (A.eval g) with hle | hle
        · rw [max_eq_right hle]
        · rw [max_eq_left hle]
          exact firstBest_raise [] hle hα
      rw [quiescenceSearch, if_neg (not_le.mpr hstand), searchLoop_eq_firstBest hchild []
        (max_lt (hα.trans hβ) hstand) (by rw [hbest]; exact hβ), hbest]

/-- Alpha-beta search returns the value and the line of the unpruned search, if its window
contains the value. -/
theorem alphaBeta_returns (hfuel : ∀ g, A.rank g < fuel) (d : ℕ) (g : G) :
    Returns (A.alphaBeta fuel d g) (A.plainSearch d g) := by
  induction d generalizing g with
  | zero => exact quiescenceSearch_returns g (hfuel g)
  | succ d ih =>
    by_cases hc : A.children g = []
    · have hsearch : A.alphaBeta fuel (d + 1) g = A.quiescenceSearch fuel g := by
        funext α β
        rw [alphaBeta, hc, List.isEmpty_nil, if_pos rfl]
      rw [hsearch, plainSearch_of_isEmpty hc]
      exact quiescenceSearch_returns g (hfuel g)
    constructor
    · rw [plainSearch_fst]
      exact (alphaBeta_failHard hfuel (d + 1) g).score
    · intro α β hα hβ
      have hbest := firstBest_children hc (by rwa [← plainSearch_fst]) []
      rw [alphaBeta, if_neg (by simpa using hc), searchLoop_eq_firstBest (fun x _ => ih x.2) []
        (hα.trans hβ) (by rw [hbest]; exact hβ), hbest]

end Game

end GameSearch
