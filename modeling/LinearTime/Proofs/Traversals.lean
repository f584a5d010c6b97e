/-
  LinearTime.Proofs.Traversals — computations that may fail.

  A sequence of steps does not fail if none of its steps does.  Where no step
  fails, going through a list is the same as without faults.

  Main results:
    * `bind_eq_ok` — a sequence of two.
    * `mapM_eq_ok`, `foldlM_eq_ok` — no step fails.
    * `mem_of_mapM_eq_ok`, `foldlM_keeps` — the whole does not fail.
-/

import Mathlib

namespace LinearTime

variable {ε β γ : Type} {xs : List β}

/-! ## §1. Sequences -/

theorem map_eq_ok {f : β → γ} {x : Except ε β} {y : γ} (h : f <$> x = .ok y) :
    ∃ z, x = .ok z ∧ f z = y := by
  cases x with
  | error e => cases h
  | ok z => exact ⟨z, rfl, Except.ok.inj h⟩

theorem ok_bind (x : β) (f : β → Except ε γ) : Except.ok x >>= f = f x := rfl

theorem bind_eq_ok {f : β → Except ε γ} {x : Except ε β} {y : γ} (h : x >>= f = .ok y) :
    ∃ z, x = .ok z ∧ f z = .ok y := by
  cases x with
  | error e => cases h
  | ok z => exact ⟨z, rfl, h⟩

theorem mapError_eq_ok {ε' : Type} {f : ε → ε'} {x : Except ε β} {y : β}
    (h : x.mapError f = .ok y) : x = .ok y := by
  cases x with
  | error e => cases h
  | ok z => exact congrArg _ (Except.ok.inj h)

/-! ## §2. Lists -/

theorem mapM_eq_ok {f : β → Except ε γ} {g : β → γ} (xs : List β)
    (h : ∀ x ∈ xs, f x = .ok (g x)) : xs.mapM f = .ok (xs.map g) := by
  induction xs with
  | nil => rfl
  | cons x xs ih =>
    rw [List.mapM_cons, h x List.mem_cons_self, ih fun y hy => h y (List.mem_cons_of_mem _ hy)]
    rfl

/-- The first result and those of the rest. -/
theorem mapM_cons_eq_ok {f : β → Except ε γ} {x : β} {ys : List γ}
    (h : (x :: xs).mapM f = .ok ys) :
    ∃ z zs, f x = .ok z ∧ xs.mapM f = .ok zs ∧ ys = z :: zs := by
  rw [List.mapM_cons] at h
  obtain ⟨z, hz, h⟩ := bind_eq_ok h
  obtain ⟨zs, hzs, h⟩ := bind_eq_ok h
  exact ⟨z, zs, hz, hzs, (Except.ok.inj h).symm⟩

/-- The results of a traversal that succeeds are those of its elements. -/
theorem mem_of_mapM_eq_ok {f : β → Except ε γ} {ys : List γ}
    (h : xs.mapM f = .ok ys) {y : γ} (hy : y ∈ ys) : ∃ x ∈ xs, f x = .ok y := by
  induction xs generalizing ys with
  | nil =>
    obtain rfl : [] = ys := Except.ok.inj h
    exact absurd hy List.not_mem_nil
  | cons x xs ih =>
    obtain ⟨z, zs, hx, hxs, rfl⟩ := mapM_cons_eq_ok h
    rcases List.mem_cons.1 hy with rfl | hy
    · exact ⟨x, List.mem_cons_self, hx⟩
    · obtain ⟨x', hx', hfx'⟩ := ih hxs hy
      exact ⟨x', List.mem_cons_of_mem _ hx', hfx'⟩

/-- There is a result for each element. -/
theorem length_of_mapM_eq_ok {f : β → Except ε γ} {ys : List γ} (h : xs.mapM f = .ok ys) :
    ys.length = xs.length := by
  induction xs generalizing ys with
  | nil =>
    obtain rfl : [] = ys := Except.ok.inj h
    rfl
  | cons x xs ih =>
    obtain ⟨z, zs, -, hxs, rfl⟩ := mapM_cons_eq_ok h
    rw [List.length_cons, List.length_cons, ih hxs]

theorem foldlM_eq_ok {f : γ → β → Except ε γ} {g : γ → β → γ} {z : γ}
    (h : ∀ z, ∀ x ∈ xs, f z x = .ok (g z x)) : xs.foldlM f z = .ok (xs.foldl g z) := by
  induction xs generalizing z with
  | nil => rfl
  | cons x xs ih =>
    rw [List.foldlM_cons, h z x List.mem_cons_self]
    exact ih fun z y hy => h z y (List.mem_cons_of_mem _ hy)

/-- What every step keeps holds in the end. -/
theorem foldlM_keeps {f : γ → β → Except ε γ} {P : γ → Prop}
    (hstep : ∀ z x z', P z → f z x = .ok z' → P z') {z z' : γ} (hz : P z)
    (h : xs.foldlM f z = .ok z') : P z' := by
  induction xs generalizing z with
  | nil =>
    obtain rfl : z = z' := Except.ok.inj h
    exact hz
  | cons x xs ih =>
    rw [List.foldlM_cons] at h
    obtain ⟨y, hy, h⟩ := bind_eq_ok h
    exact ih (hstep z x y hz hy) h

end LinearTime
