import Mathlib

/-!
# Results

Results of computations that can fail, taken apart.
-/

namespace GoEntropy.Container

variable {ε α β σ : Type}

theorem bind_eq_ok {x : Except ε α} {f : α → Except ε β} {y : β} :
    (x >>= f) = .ok y ↔ ∃ a, x = .ok a ∧ f a = .ok y := by
  cases x <;> simp [bind, Except.bind]

theorem map_eq_ok {x : Except ε α} {f : α → β} {y : β} : x.map f = .ok y ↔ ∃ a, x = .ok a ∧ f a = y := by
  cases x <;> simp [Except.map]

theorem mapError_eq_ok {ε' : Type} {x : Except ε α} {f : ε → ε'} {a : α} : x.mapError f = .ok a ↔ x = .ok a := by
  cases x <;> simp [Except.mapError]

/-- A result, from a part of it that can be evaluated. -/
theorem exists_of_eval {x : Except ε α} {f : α → β} {b : β} (h : x.toOption.map f = some b) :
    ∃ a, x = .ok a ∧ f a = b := by
  cases x with
  | error e => cases h
  | ok a => exact ⟨a, rfl, Option.some_inj.1 h⟩

/-- A loop whose steps keep an invariant, and each of which does its work and undoes none. -/
theorem foldlM_ok {f : σ → α → Except ε σ} {I : σ → Prop} {D : α → σ → Prop} {xs : List α} {s : σ}
    (hf : ∀ x ∈ xs, ∀ s, I s → ∃ s', f s x = .ok s' ∧ I s' ∧ D x s' ∧ ∀ y, D y s → D y s') (hs : I s) :
    ∃ s', xs.foldlM f s = .ok s' ∧ I s' ∧ (∀ x ∈ xs, D x s') ∧ ∀ y, D y s → D y s' := by
  induction xs generalizing s with
  | nil => exact ⟨s, rfl, hs, nofun, fun _ h ↦ h⟩
  | cons x xs ih =>
    obtain ⟨s₁, hx, hs₁, hd, hkeep⟩ := hf x List.mem_cons_self s hs
    obtain ⟨s₂, hxs, hs₂, hds, hkeep₂⟩ := ih (fun y hy ↦ hf y (List.mem_cons_of_mem x hy)) hs₁
    exact ⟨s₂, bind_eq_ok.2 ⟨s₁, hx, hxs⟩, hs₂, List.forall_mem_cons.2 ⟨hkeep₂ x hd, hds⟩,
      fun y hy ↦ hkeep₂ y (hkeep y hy)⟩

end GoEntropy.Container
