import PawnGrabber.Library.PrincipalLine

/-!
# Games in lockstep

Two games are in lockstep if corresponding positions have the same static value and offer
corresponding moves in the same order. Then the search takes the same decisions in both: the values
agree, and so do the lines, move by move. A change of representation that keeps the order of the
moves is a lockstep, and so is a piece of state that no move looks at.
-/

set_option autoImplicit false

namespace GameSearch

section Lists

variable {X X' Y Y' : Type*} {P : X → Y → Prop} {Q : X' → Y' → Prop}

/-- Mapped lists correspond if the maps take corresponding members to corresponding ones. -/
theorem forall₂_map_of_mem {f : X → X'} {g : Y → Y'} {xs : List X} {ys : List Y}
    (h : List.Forall₂ P xs ys) (hfg : ∀ x ∈ xs, ∀ y, P x y → Q (f x) (g y)) :
    List.Forall₂ Q (xs.map f) (ys.map g) := by
  induction h with
  | nil => exact .nil
  | @cons x y xs ys hxy _ ih =>
    obtain ⟨hx, hxs⟩ := List.forall_mem_cons.mp hfg
    exact .cons (hx y hxy) (ih hxs)

/-- Two lists that correspond to a third one correspond to each other. -/
theorem forall₂_of_common {Z : Type*} {P : X → Z → Prop} {Q : Y → Z → Prop} {xs : List X}
    {ys : List Y} {zs : List Z} (h : List.Forall₂ P xs zs) (h' : List.Forall₂ Q ys zs) :
    List.Forall₂ (fun x y => ∃ z, P x z ∧ Q y z) xs ys := by
  induction h generalizing ys with
  | nil =>
    cases h'
    exact .nil
  | @cons x z xs zs hx _ ih =>
    cases h' with
    | cons hy hys => exact .cons ⟨z, hx, hy⟩ (ih hys)

end Lists

variable {G H M N V : Type*} [AddCommGroup V] [LinearOrder V]

/-- The same value, and lines that correspond move by move. -/
def SameResult (S : M → N → Prop) (r : V × List M) (r' : V × List N) : Prop :=
  r.1 = r'.1 ∧ List.Forall₂ S r.2 r'.2

variable {S : M → N → Prop}

/-- Options that correspond lead to the same choice. -/
theorem SameResult.firstBest {xs : List (M × V × List M)} {ys : List (N × V × List N)}
    (h : List.Forall₂ (fun x y => S x.1 y.1 ∧ SameResult S x.2 y.2) xs ys)
    {best : V × List M} {best' : V × List N} (hbest : SameResult S best best') :
    SameResult S (firstBest xs best) (GameSearch.firstBest ys best') := by
  induction h generalizing best best' with
  | nil => exact hbest
  | @cons x y xs ys hxy _ ih =>
    obtain ⟨hmove, hvalue, hline⟩ := hxy
    rw [GameSearch.firstBest, GameSearch.firstBest]
    apply ih
    rw [hvalue, hbest.1]
    split_ifs
    · exact ⟨rfl, .cons hmove hline⟩
    · exact hbest

namespace Game

/-- Related positions have the same static value and offer related moves in the same order. -/
structure InLockstep (A : Game G M V) (B : Game H N V) (R : G → H → Prop) (S : M → N → Prop) :
    Prop where
  eval : ∀ g h, R g h → A.eval g = B.eval h
  children : ∀ g h, R g h →
    List.Forall₂ (fun x y => S x.1 y.1 ∧ R x.2 y.2) (A.children g) (B.children h)
  captures : ∀ g h, R g h →
    List.Forall₂ (fun x y => S x.1 y.1 ∧ R x.2 y.2) (A.captures g) (B.captures h)

variable {A : Game G M V} {B : Game H N V} {R : G → H → Prop}

theorem InLockstep.plainQuiesce (L : InLockstep A B R S) {g : G} {h : H} (hgh : R g h) :
    SameResult S (A.plainQuiesce g) (B.plainQuiesce h) := by
  induction hn : A.rank g using Nat.strong_induction_on generalizing g h with
  | _ n ih =>
    rw [plainQuiesce_eq, plainQuiesce_eq]
    refine SameResult.firstBest (forall₂_map_of_mem (L.captures g h hgh) ?_)
      ⟨L.eval g h hgh, .nil⟩
    intro x hx y hxy
    exact ⟨hxy.1, ih (A.rank x.2) (hn ▸ A.rank_lt g x hx) hxy.2 rfl⟩

/-- The unpruned search finds the same value and the same line from related positions. -/
theorem InLockstep.plainSearch (L : InLockstep A B R S) (d : ℕ) {g : G} {h : H}
    (hgh : R g h) : SameResult S (A.plainSearch d g) (B.plainSearch d h) := by
  induction d generalizing g h with
  | zero => exact L.plainQuiesce hgh
  | succ d ih =>
    have hchildren := L.children g h hgh
    rw [Game.plainSearch, Game.plainSearch]
    cases hg : A.children g with
    | nil =>
      rw [hg] at hchildren
      rw [List.forall₂_nil_left_iff.mp hchildren]
      exact L.plainQuiesce hgh
    | cons x xs =>
      rw [hg] at hchildren
      obtain ⟨y, ys, hxy, hrest, hh⟩ := List.forall₂_cons_left_iff.mp hchildren
      rw [hh]
      have hfirst := ih hxy.2
      refine SameResult.firstBest (forall₂_map_of_mem hrest ?_)
        ⟨congrArg Neg.neg hfirst.1, .cons hxy.1 hfirst.2⟩
      intro x' _ y' hxy'
      exact ⟨hxy'.1, ih hxy'.2⟩

end Game

end GameSearch
