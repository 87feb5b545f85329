import Mathlib

/-!
# Counting lines of play

A state offers a list of moves and every move leads to a next state. `ofLength` enumerates
the move sequences of a given length that can be played from a state. If no state offers a
move twice then no sequence is listed twice, and the length of the list is found by adding
up the counts of the next states.
-/

set_option autoImplicit false

namespace Lines

variable {S M : Type*} (moves : S → List M) (step : S → M → S)

/-- Each move of the sequence is offered by the state the moves before it lead to. -/
def Playable : S → List M → Prop
  | _, [] => True
  | s, m :: line => m ∈ moves s ∧ Playable (step s m) line

/-- The playable sequences of a given length, in the order of the moves. -/
def ofLength : ℕ → S → List (List M)
  | 0, _ => [[]]
  | d + 1, s => (moves s).flatMap fun m => (ofLength d (step s m)).map (m :: ·)

theorem mem_ofLength {d : ℕ} {s : S} {line : List M} :
    line ∈ ofLength moves step d s ↔ line.length = d ∧ Playable moves step s line := by
  induction d generalizing s line with
  | zero =>
    rw [ofLength, List.mem_singleton, List.length_eq_zero_iff]
    constructor
    · intro h
      exact ⟨h, by rw [h]; trivial⟩
    · intro h
      exact h.1
  | succ d ih =>
    rw [ofLength, List.mem_flatMap]
    constructor
    · intro ⟨m, hm, hline⟩
      obtain ⟨rest, hrest, heq⟩ := List.mem_map.mp hline
      rw [ih] at hrest
      rw [← heq]
      exact ⟨congrArg Nat.succ hrest.1, hm, hrest.2⟩
    · intro ⟨hlength, hplayable⟩
      cases line with
      | nil => exact absurd hlength.symm (Nat.succ_ne_zero d)
      | cons m rest =>
        refine ⟨m, hplayable.1, List.mem_map_of_mem (ih.mpr ⟨?_, hplayable.2⟩)⟩
        exact Nat.succ.inj hlength

theorem nodup_ofLength (h : ∀ s, (moves s).Nodup) (d : ℕ) (s : S) :
    (ofLength moves step d s).Nodup := by
  induction d generalizing s with
  | zero => exact List.nodup_singleton []
  | succ d ih =>
    rw [ofLength, List.nodup_flatMap]
    constructor
    · intro m _
      exact (ih (step s m)).map fun _ _ heq => (List.cons.inj heq).2
    · refine (h s).imp fun {m m'} hne => ?_
      intro line hline hline'
      obtain ⟨rest, -, heq⟩ := List.mem_map.mp hline
      obtain ⟨rest', -, heq'⟩ := List.mem_map.mp hline'
      exact hne (List.cons.inj (heq.trans heq'.symm)).1

/-- The number of lines is the sum over the first moves. -/
theorem length_ofLength_succ (d : ℕ) (s : S) :
    (ofLength moves step (d + 1) s).length =
      ((moves s).map fun m => (ofLength moves step d (step s m)).length).sum := by
  rw [ofLength, List.length_flatMap]
  congr 1
  apply List.map_congr_left
  intro m _
  rw [List.length_map]

/-- The lines of length `d + e` are those of length `d`, each gone on with by the lines of length
`e` of the state it leads to. -/
theorem ofLength_add (d e : ℕ) (s : S) :
    ofLength moves step (d + e) s = (ofLength moves step d s).flatMap fun line =>
      (ofLength moves step e (line.foldl step s)).map (line ++ ·) := by
  induction d generalizing s with
  | zero =>
    rw [Nat.zero_add, ofLength, List.flatMap_singleton]
    exact (List.map_id _).symm
  | succ d ih =>
    rw [Nat.succ_add, ofLength, ofLength, List.flatMap_assoc]
    apply List.flatMap_congr
    intro m _
    rw [ih, List.map_flatMap, List.flatMap_map]
    apply List.flatMap_congr
    intro line _
    rw [List.map_map]
    rfl

/-- The number of lines of length `d + e` is the sum over the lines of length `d`. -/
theorem length_ofLength_add (d e : ℕ) (s : S) :
    (ofLength moves step (d + e) s).length = ((ofLength moves step d s).map fun line =>
      (ofLength moves step e (line.foldl step s)).length).sum := by
  rw [ofLength_add, List.length_flatMap]
  congr 1
  apply List.map_congr_left
  intro line _
  rw [List.length_map]

/-- States that offer corresponding moves, in any order, and stay related by them have the same
number of lines. -/
theorem length_ofLength_eq {S' M' : Type*} {moves' : S' → List M'} {step' : S' → M' → S'}
    {R : S → S' → Prop} (move : S' → M → M')
    (hmoves : ∀ s s', R s s' → (moves' s').Perm ((moves s).map (move s')))
    (hstep : ∀ s s', R s s' → ∀ m ∈ moves s, R (step s m) (step' s' (move s' m)))
    (d : ℕ) {s : S} {s' : S'} (h : R s s') :
    (ofLength moves' step' d s').length = (ofLength moves step d s).length := by
  induction d generalizing s s' with
  | zero => rfl
  | succ d ih =>
    rw [length_ofLength_succ, length_ofLength_succ, ((hmoves s s' h).map _).sum_eq, List.map_map]
    congr 1
    apply List.map_congr_left
    intro m hm
    exact ih (hstep s s' h m hm)

/-- If no state that can be reached offers more than `n` moves, the lines of length `d` are at most
`n ^ d`. -/
theorem length_ofLength_le {I : S → Prop} {n : ℕ} (hmoves : ∀ s, I s → (moves s).length ≤ n)
    (hstep : ∀ s, I s → ∀ m ∈ moves s, I (step s m)) (d : ℕ) {s : S} (h : I s) :
    (ofLength moves step d s).length ≤ n ^ d := by
  induction d generalizing s with
  | zero => exact le_rfl
  | succ d ih =>
    rw [length_ofLength_succ]
    calc ((moves s).map fun m => (ofLength moves step d (step s m)).length).sum
        ≤ ((moves s).map fun m => (ofLength moves step d (step s m)).length).length • n ^ d := by
          apply List.sum_le_card_nsmul
          rw [List.forall_mem_map]
          exact fun m hm => ih (hstep s h m hm)
      _ = (moves s).length * n ^ d := by rw [List.length_map, smul_eq_mul]
      _ ≤ n * n ^ d := Nat.mul_le_mul_right _ (hmoves s h)
      _ = n ^ (d + 1) := (Nat.pow_succ').symm

end Lines
