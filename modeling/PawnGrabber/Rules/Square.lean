import PawnGrabber.Model.Bitboard

/-!
# Squares of the board

The abstract layer names a square by its file and its rank, both from 0 to 7, and moves
over the board by integer offsets. `shift` is the only way to get from a square to
another one; it leaves the board as `none`, so there is no wrapping around an edge.
-/

set_option autoImplicit false

namespace PawnGrabber

@[ext]
structure Square where
  file : Fin 8
  rank : Fin 8
  deriving DecidableEq, Repr

namespace Square

def equivProd : Square ≃ Fin 8 × Fin 8 where
  toFun s := (s.file, s.rank)
  invFun p := ⟨p.1, p.2⟩
  left_inv _ := rfl
  right_inv _ := rfl

instance : Fintype Square := Fintype.ofEquiv _ equivProd.symm

theorem card_square : Fintype.card Square = 64 := by
  rw [Fintype.card_congr equivProd]
  simp

/-- A statement about all squares is checked square by square. -/
theorem forall_iff {P : Square → Prop} : (∀ s, P s) ↔ ∀ f r : Fin 8, P ⟨f, r⟩ :=
  ⟨fun h f r => h ⟨f, r⟩, fun h s => h s.file s.rank⟩

/-- The square `df` files to the east and `dr` ranks to the north, if it is on the board. -/
def shift (s : Square) (df dr : ℤ) : Option Square :=
  if h : (0 ≤ s.file + df ∧ s.file + df < 8) ∧ 0 ≤ s.rank + dr ∧ s.rank + dr < 8 then
    some ⟨⟨((s.file : ℤ) + df).toNat, by omega⟩, ⟨((s.rank : ℤ) + dr).toNat, by omega⟩⟩
  else none

/-- The square a given offset away is the one with these coordinates: this turns a question
about `shift` into linear arithmetic. -/
theorem shift_eq_some_iff {s t : Square} {df dr : ℤ} :
    s.shift df dr = some t ↔ (t.file : ℤ) = s.file + df ∧ (t.rank : ℤ) = s.rank + dr := by
  unfold shift
  split_ifs with h
  · rw [Option.some.injEq, Square.ext_iff, Fin.ext_iff, Fin.ext_iff]
    simp only
    omega
  · simp only [false_iff]
    have := t.file.isLt
    have := t.rank.isLt
    omega

theorem shift_eq_none_iff {s : Square} {df dr : ℤ} :
    s.shift df dr = none ↔
      ¬((0 ≤ s.file + df ∧ s.file + df < 8) ∧ 0 ≤ s.rank + dr ∧ s.rank + dr < 8) := by
  unfold shift
  split_ifs with h <;> simp [h]

/-- Different offsets lead to different squares. -/
theorem offset_inj {s t : Square} {v w : ℤ × ℤ} (hv : s.shift v.1 v.2 = some t)
    (hw : s.shift w.1 w.2 = some t) : v = w := by
  rw [shift_eq_some_iff] at hv hw
  apply Prod.ext <;> omega

/-- The squares at a list of different offsets are all different. -/
theorem nodup_steps (s : Square) {vs : List (ℤ × ℤ)} (hvs : vs.Nodup) :
    (vs.flatMap fun v => (s.shift v.1 v.2).toList).Nodup := by
  rw [List.nodup_flatMap]
  constructor
  · intro v _
    cases s.shift v.1 v.2 <;> simp
  · apply hvs.imp
    intro v w hvw t hv hw
    rw [Option.mem_toList] at hv hw
    exact hvw (offset_inj hv hw)

/-- The offset back. -/
theorem shift_neg {s t : Square} {df dr : ℤ} :
    s.shift df dr = some t ↔ t.shift (-df) (-dr) = some s := by
  rw [shift_eq_some_iff, shift_eq_some_iff]
  omega

/-- Two offsets that stay on the board in between add up. -/
theorem shift_shift {s t : Square} {df dr : ℤ} (h : s.shift df dr = some t) (df' dr' : ℤ) :
    t.shift df' dr' = s.shift (df + df') (dr + dr') := by
  rw [shift_eq_some_iff] at h
  ext u
  rw [shift_eq_some_iff, shift_eq_some_iff]
  omega

/-- The number of the bit that stands for the square: h1 is 0 and a8 is 63. -/
def index (s : Square) : ℕ := 8 * s.rank + (7 - s.file)

/-- The square of a bit number. -/
def ofIndex (i : ℕ) : Square := ⟨⟨7 - i % 8, by omega⟩, ⟨i / 8 % 8, by omega⟩⟩

theorem index_lt (s : Square) : s.index < 64 := by
  unfold index
  omega

@[simp] theorem ofIndex_index (s : Square) : ofIndex s.index = s := by
  ext <;> simp only [ofIndex, index] <;> omega

theorem index_ofIndex {i : ℕ} (h : i < 64) : (ofIndex i).index = i := by
  simp only [ofIndex, index]
  omega

theorem index_injective : Function.Injective index := fun s t h => by
  rw [← ofIndex_index s, h, ofIndex_index]

@[simp] theorem index_inj {s t : Square} : s.index = t.index ↔ s = t :=
  index_injective.eq_iff

/-- All squares, in the order of their bits. -/
def all : List Square := (List.range 64).map ofIndex

@[simp] theorem mem_all (s : Square) : s ∈ all :=
  List.mem_map.mpr ⟨s.index, List.mem_range.mpr s.index_lt, ofIndex_index s⟩

theorem map_index_all : all.map index = List.range 64 := by
  rw [all, List.map_map]
  conv_rhs => rw [← List.map_id (List.range 64)]
  exact List.map_congr_left fun i hi => index_ofIndex (List.mem_range.mp hi)

theorem nodup_all : all.Nodup := by
  have h := List.nodup_range (n := 64)
  rw [← map_index_all] at h
  exact h.of_map _

/-- The four directions of a rook, as offsets. -/
def orthogonals : List (ℤ × ℤ) := [(0, 1), (0, -1), (1, 0), (-1, 0)]

/-- The four directions of a bishop. -/
def diagonals : List (ℤ × ℤ) := [(1, 1), (-1, 1), (1, -1), (-1, -1)]

/-- The eight leaps of a knight. -/
def knightLeaps : List (ℤ × ℤ) :=
  [(-1, 2), (1, 2), (-2, 1), (-2, -1), (2, 1), (2, -1), (1, -2), (-1, -2)]

end Square

end PawnGrabber
