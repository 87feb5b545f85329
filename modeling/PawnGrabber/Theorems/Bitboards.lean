import PawnGrabber.Analysis.Squares

/-!
# Splitting a bitboard

Every loop over the pieces of a side runs through `bitboard_split`, so no piece may be lost or
visited twice. The list is that of the squares of the mask in the order of their bits, and
`pop_count` is its length.
-/

set_option autoImplicit false

namespace PawnGrabber

theorem squaresOf_sorted (bb : Bitboard) :
    (squaresOf bb).Pairwise fun s t => s.index < t.index := by
  have hsorted := BitWord.positions_sorted bb
  rw [← map_index_squaresOf, List.pairwise_map] at hsorted
  exact hsorted

/-- The list is in the order of `square_idx`. -/
theorem bitboardSplit_sorted (bb : Bitboard) :
    (bitboardSplit bb).Pairwise fun x y => squareIdx x < squareIdx y := by
  rw [bitboardSplit_eq, List.pairwise_map]
  apply (squaresOf_sorted bb).imp
  intro s t hst
  rw [squareIdx_bit, squareIdx_bit]
  exact Int.ofNat_lt.mpr hst

theorem bitboardSplit_disjoint (bb : Bitboard) :
    (bitboardSplit bb).Pairwise fun x y => x &&& y = 0 := by
  rw [bitboardSplit_eq, List.pairwise_map]
  apply (nodup_squaresOf bb).imp
  intro s t hst
  exact bit_and_bit hst

/-- No square of the mask is lost and none is added. -/
theorem foldl_or_bitboardSplit (bb : Bitboard) :
    (bitboardSplit bb).foldl (fun acc square => acc ||| square) 0 = bb := by
  apply has_ext
  intro s
  rw [Bool.eq_iff_iff, has_foldl_or _ (fun square => square) 0 s, bitboardSplit_eq]
  constructor
  · rintro (hzero | ⟨square, hsquare, hs⟩)
    · simp at hzero
    · obtain ⟨t, ht, rfl⟩ := List.mem_map.mp hsquare
      rw [has_bit, decide_eq_true_eq] at hs
      rw [← hs]
      exact mem_squaresOf.mp ht
  · intro hs
    exact Or.inr ⟨s.bit, List.mem_map_of_mem (mem_squaresOf.mpr hs), by simp⟩

theorem length_bitboardSplit (bb : Bitboard) :
    (bitboardSplit bb).length = (BitWord.positions bb).length := by
  rw [bitboardSplit_eq, List.length_map, ← map_index_squaresOf, List.length_map]

theorem popCount_eq_length (bb : Bitboard) : popCount bb = (BitWord.positions bb).length := by
  rw [popCount, popCountLoop_eq, Nat.zero_add]

/-- `bitboard_split` lists the set bits of a word as single squares, each once and in the order
of `square_idx`, and `pop_count` counts them. Both loops step from `bb` to `bb & (bb - 1)` until
nothing is left, which happens after as many rounds as the word has bits. -/
theorem bitboardSplit_exact (bb : Bitboard) :
    (∀ square ∈ bitboardSplit bb, isSquare square = true) ∧
      (bitboardSplit bb).Pairwise (fun x y => squareIdx x < squareIdx y) ∧
      (bitboardSplit bb).Pairwise (fun x y => x &&& y = 0) ∧
      (bitboardSplit bb).foldl (fun acc square => acc ||| square) 0 = bb ∧
      (bitboardSplit bb).length = popCount bb ∧
      popCount bb = (Finset.univ.filter fun i : Fin 64 => bb.getLsbD i = true).card ∧
      ∀ n, (fun x : Bitboard => x &&& (x - 1))^[n] bb = 0 ↔ (bitboardSplit bb).length ≤ n := by
  refine ⟨?_, bitboardSplit_sorted bb, bitboardSplit_disjoint bb, foldl_or_bitboardSplit bb,
    ?_, ?_, ?_⟩
  · intro square hsquare
    rw [bitboardSplit_eq, List.mem_map] at hsquare
    obtain ⟨s, _, rfl⟩ := hsquare
    exact isSquare_bit s
  · rw [length_bitboardSplit, popCount_eq_length]
  · rw [popCount_eq_length, BitWord.length_positions]
  · intro n
    rw [length_bitboardSplit]
    exact BitWord.iterate_and_sub_one_eq_zero_iff bb n

end PawnGrabber
