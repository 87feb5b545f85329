import Mathlib

/-!
# Loops that may stop at an error, on inputs where they do not

A loop body with an error case is usually shown harmless element by element. The rules
here turn such a fact into a statement about the whole loop: when every round returns,
the monadic fold is the pure fold, a fold that only appends is a `flatMap`, and a
filter with a monadic test is the pure filter. `Wp` is for programs of which only some errors
are acceptable.
-/

set_option autoImplicit false

namespace ExceptFold

variable {ε α β γ : Type}

@[simp] theorem ok_bind (a : α) (f : α → Except ε β) : (Except.ok a >>= f) = f a := rfl

@[simp] theorem error_bind (e : ε) (f : α → Except ε β) :
    ((Except.error e : Except ε α) >>= f) = .error e := rfl

@[simp] theorem pure_eq_ok (a : α) : (pure a : Except ε α) = .ok a := rfl

@[simp] theorem throw_eq_error (e : ε) : (throw e : Except ε α) = .error e := rfl

/-- A composition that returns has returned at its first step. -/
theorem bind_eq_ok {x : Except ε α} {f : α → Except ε β} {r : β} :
    (x >>= f) = .ok r ↔ ∃ a, x = .ok a ∧ f a = .ok r := by
  cases x <;> simp

/-- What an evaluation of the computation finds out about its result. -/
theorem exists_ok_of_any {x : Except ε α} {p : α → Bool} (h : x.toOption.any p = true) :
    ∃ a, x = .ok a ∧ p a = true := by
  cases x with
  | error e => simp [Except.toOption] at h
  | ok a => exact ⟨a, rfl, by simpa [Except.toOption] using h⟩

/-- A fold whose rounds all return is the pure fold of what they return. -/
theorem foldlM_ok {f : β → α → Except ε β} {g : β → α → β} {l : List α}
    (h : ∀ a ∈ l, ∀ b, f b a = .ok (g b a)) (b : β) :
    l.foldlM f b = .ok (l.foldl g b) := by
  induction l generalizing b with
  | nil => rfl
  | cons a l ih =>
    rw [List.foldlM_cons, h a List.mem_cons_self, ok_bind]
    exact ih (fun a' ha' => h a' (List.mem_cons_of_mem _ ha')) _

/-- A loop commutes with a map of the states that carries every round over. -/
theorem foldlM_hom {f : β → α → Except ε β} {f' : γ → α → Except ε γ} (g : β → γ)
    (h : ∀ b a, f' (g b) a = (f b a).map g) (l : List α) (b : β) :
    l.foldlM f' (g b) = (l.foldlM f b).map g := by
  induction l generalizing b with
  | nil => rfl
  | cons a l ih =>
    rw [List.foldlM_cons, List.foldlM_cons, h]
    cases f b a with
    | error e => rfl
    | ok b₁ => exact ih b₁
/-- Mapping a function that succeeds on every element is mapping what it returns. -/
theorem mapM_ok {f : α → Except ε β} {g : α → β} {l : List α} (h : ∀ a ∈ l, f a = .ok (g a)) :
    l.mapM f = .ok (l.map g) := by
  induction l with
  | nil => rfl
  | cons a l ih =>
    obtain ⟨ha, hl⟩ := List.forall_mem_cons.mp h
    rw [List.mapM_cons, ha, ok_bind, ih hl, ok_bind]
    rfl

/-- A fold whose rounds only append to the accumulator appends everything in order. -/
theorem foldlM_append {f : List β → α → Except ε (List β)} {g : α → List β} {l : List α}
    (h : ∀ a ∈ l, ∀ res, f res a = .ok (res ++ g a)) (res : List β) :
    l.foldlM f res = .ok (res ++ l.flatMap g) := by
  induction l generalizing res with
  | nil => simp
  | cons a l ih =>
    rw [List.foldlM_cons, h a List.mem_cons_self, ok_bind,
      ih (fun a' ha' => h a' (List.mem_cons_of_mem _ ha')), List.flatMap_cons, List.append_assoc]

/-- Started where `I` holds, `x` returns exactly if `q` does, and then `I` holds again. -/
def RunsIff (I : β → Prop) (q : Prop) (x : β → Except ε β) : Prop :=
  ∀ b, I b → ((∃ r, x b = .ok r) ↔ q) ∧ ∀ r, x b = .ok r → I r

/-- A fold reaches its end exactly if no element stops it. -/
theorem RunsIff.foldlM {I : β → Prop} {q : α → Prop} {f : β → α → Except ε β} {l : List α}
    (h : ∀ a ∈ l, RunsIff I (q a) fun b => f b a) :
    RunsIff I (∀ a ∈ l, q a) fun b => l.foldlM f b := by
  induction l with
  | nil =>
    intro b hb
    refine ⟨⟨fun _ a ha => absurd ha List.not_mem_nil, fun _ => ⟨b, rfl⟩⟩, ?_⟩
    intro r hr
    simp only [List.foldlM_nil, pure_eq_ok, Except.ok.injEq] at hr
    exact hr ▸ hb
  | cons a l ih =>
    intro b hb
    obtain ⟨hhead, hrest⟩ := List.forall_mem_cons.mp h
    obtain ⟨hiff, hkeeps⟩ := hhead b hb
    simp only at hiff hkeeps ⊢
    rw [List.foldlM_cons, List.forall_mem_cons]
    cases hfa : f b a with
    | error e =>
      rw [hfa] at hiff
      have hq : ¬q a := fun ha => by
        obtain ⟨r, hr⟩ := hiff.mpr ha
        cases hr
      refine ⟨⟨?_, fun hall => absurd hall.1 hq⟩, ?_⟩
      · rintro ⟨r, hr⟩
        cases hr
      · intro r hr
        cases hr
    | ok b' =>
      have hq : q a := hiff.mp ⟨b', hfa⟩
      obtain ⟨hiff', hkeeps'⟩ := ih hrest b' (hkeeps b' hfa)
      rw [ok_bind]
      exact ⟨hiff'.trans ⟨fun hall => ⟨hq, hall⟩, And.right⟩, hkeeps'⟩

section Wp

variable {E : ε → Prop} {Q : β → Prop}

/-- `x` returns a value that satisfies `Q`, or stops at an error that `E` permits. -/
def Wp (E : ε → Prop) (x : Except ε α) (Q : α → Prop) : Prop :=
  match x with
  | .ok a => Q a
  | .error e => E e

@[simp] theorem wp_ok (a : β) : Wp E (.ok a) Q ↔ Q a := Iff.rfl

@[simp] theorem wp_error (e : ε) : Wp E (.error e) Q ↔ E e := Iff.rfl

@[simp] theorem wp_bind (x : Except ε α) (f : α → Except ε β) :
    Wp E (x >>= f) Q ↔ Wp E x fun a => Wp E (f a) Q := by
  cases x <;> exact Iff.rfl

theorem wp_iff (x : Except ε β) :
    Wp E x Q ↔ (∃ e, x = .error e ∧ E e) ∨ ∃ a, x = .ok a ∧ Q a := by
  cases x <;> simp

end Wp

private theorem filterAuxM_ok {p : α → Except ε Bool} {q : α → Bool} {l : List α}
    (h : ∀ a ∈ l, p a = .ok (q a)) (acc : List α) :
    l.filterAuxM p acc = .ok ((l.filter q).reverse ++ acc) := by
  induction l generalizing acc with
  | nil => rfl
  | cons a l ih =>
    rw [List.filterAuxM, h a List.mem_cons_self, ok_bind,
      ih (fun a' ha' => h a' (List.mem_cons_of_mem _ ha'))]
    cases hq : q a <;> simp [hq]

/-- A filter whose test always returns is the pure filter. -/
theorem filterM_ok {p : α → Except ε Bool} {q : α → Bool} {l : List α}
    (h : ∀ a ∈ l, p a = .ok (q a)) : l.filterM p = .ok (l.filter q) := by
  rw [List.filterM, filterAuxM_ok h]
  simp

end ExceptFold
