import Mathlib

/-!
# Loops over maps

A program that runs over a map and updates some state at each key leaves, at every key, what the
iteration at that key wrote: a key occurs once, so the order of the loop does not matter.
`foldl_entries` says this for any state that is read key by key.
-/

namespace GoEntropy.Container

open List

variable {κ σ γ V : Type*} [DecidableEq κ]

theorem lookup_insert_eq_ite (m : AList fun _ : κ ↦ V) (a k : κ) (v : V) :
    (m.insert a v).lookup k = if k = a then some v else m.lookup k := by
  split
  · next h =>
    subst h
    exact AList.lookup_insert m
  · next h => exact AList.lookup_insert_ne h

theorem lookup_erase_eq_ite (m : AList fun _ : κ ↦ V) (a k : κ) :
    (m.erase a).lookup k = if k = a then none else m.lookup k := by
  split
  · next h =>
    subst h
    exact AList.lookup_erase k m
  · next h => exact AList.lookup_erase_ne h

theorem mem_entries_iff {m : AList fun _ : κ ↦ V} {k : κ} {v : V} :
    ⟨k, v⟩ ∈ m.entries ↔ m.lookup k = some v := AList.mem_lookup_iff.symm

/-- A loop whose body writes one cell, the one at its key. -/
theorem foldl_entries (read : σ → κ → γ) (write : V → γ → γ) {step : σ → (_ : κ) × V → σ}
    (hstep : ∀ s e k, read (step s e) k = if k = e.1 then write e.2 (read s k) else read s k)
    (m : AList fun _ : κ ↦ V) (s : σ) (k : κ) :
    read (m.entries.foldl step s) k = (m.lookup k).elim (read s k) (write · (read s k)) := by
  obtain ⟨entries, hnodup⟩ := m
  change read (entries.foldl step s) k = (entries.dlookup k).elim _ _
  -- The cell at `k` is written by the iteration at `k`, and by no later one.
  induction entries generalizing s with
  | nil => rfl
  | cons e rest ih =>
    have hrest := nodupKeys_cons.mp hnodup
    rw [foldl_cons, ih _ hrest.2, hstep]
    by_cases hk : k = e.1
    · subst hk
      rw [dlookup_eq_none.mpr hrest.1, dlookup_cons_eq, if_pos rfl]
      rfl
    · rw [dlookup_cons_ne _ _ hk, if_neg hk]
/-- A loop over keys whose body resets the cells of its key. -/
theorem foldl_reset {ι : Type*} (read : σ → ι → γ) (owner : ι → κ) (zero : γ) {step : σ → κ → σ}
    (hstep : ∀ s a i, read (step s a) i = if owner i = a then zero else read s i)
    (keys : List κ) (s : σ) (i : ι) :
    read (keys.foldl step s) i = if owner i ∈ keys then zero else read s i := by
  induction keys generalizing s with
  | nil => simp
  | cons a rest ih =>
    rw [foldl_cons, ih, hstep]
    by_cases ha : owner i = a
    · simp [ha]
    · simp [ha]

/-- A loop over distinct keys whose body changes the cell of its key. -/
theorem foldl_modify (read : σ → κ → γ) (f : κ → γ → γ) {step : σ → κ → σ}
    (hstep : ∀ s a k, read (step s a) k = if k = a then f k (read s k) else read s k)
    {keys : List κ} (hnodup : keys.Nodup) (s : σ) (k : κ) :
    read (keys.foldl step s) k = if k ∈ keys then f k (read s k) else read s k := by
  induction keys generalizing s with
  | nil => simp
  | cons a rest ih =>
    obtain ⟨ha, hrest⟩ := nodup_cons.1 hnodup
    rw [foldl_cons, ih hrest, hstep]
    by_cases hk : k = a
    · simp [hk, ha]
    · simp [hk]

theorem foldl_update (f : κ → γ → γ) {keys : List κ} (hnodup : keys.Nodup) (m : κ → γ) (k : κ) :
    keys.foldl (fun m a ↦ Function.update m a (f a (m a))) m k = if k ∈ keys then f k (m k) else m k :=
  foldl_modify (fun (m : κ → γ) k ↦ m k) f (fun m a k ↦ by
    rw [Function.update_apply]
    split
    · next h => rw [h]
    · rfl) hnodup m k

/-- A loop whose body writes a cell of its own: which one it is, and what it writes, depend on the element. -/
theorem foldl_write {α : Type*} (read : σ → κ → γ) (key : α → κ) (value : α → γ) {step : σ → α → σ}
    (hkey : Function.Injective key) (l : List α)
    (hstep : ∀ s, ∀ a ∈ l, ∀ k, read (step s a) k = if k = key a then value a else read s k) (s : σ) :
    (∀ a ∈ l, read (l.foldl step s) (key a) = value a) ∧
      ∀ k, (∀ a ∈ l, k ≠ key a) → read (l.foldl step s) k = read s k := by
  induction l generalizing s with
  | nil => exact ⟨nofun, fun _ _ ↦ rfl⟩
  | cons b rest ih =>
    obtain ⟨hin, hout⟩ := ih (fun s a ha ↦ hstep s a (mem_cons_of_mem b ha)) (step s b)
    refine ⟨fun a ha ↦ ?_, fun k hk ↦ ?_⟩
    · by_cases hmem : a ∈ rest
      · exact hin a hmem
      · -- The last write of this cell is the first of the loop.
        obtain rfl : a = b := (mem_cons.1 ha).resolve_right hmem
        have hlater : ∀ c ∈ rest, key a ≠ key c := by
          intro c hc heq
          rw [hkey heq] at hmem
          exact hmem hc
        rw [foldl_cons, hout _ hlater, hstep s a ha, if_pos rfl]
    · obtain ⟨hb, hrest⟩ := forall_mem_cons.1 hk
      rw [foldl_cons, hout k hrest, hstep s b mem_cons_self, if_neg hb]

theorem foldl_eq_of_step {α ρ : Type*} (read : σ → ρ) {step : σ → α → σ}
    (hstep : ∀ s a, read (step s a) = read s) (l : List α) (s : σ) :
    read (l.foldl step s) = read s := by
  induction l generalizing s with
  | nil => rfl
  | cons a rest ih => rw [foldl_cons, ih, hstep]

theorem mem_foldl_insert {σ α : Type} [DecidableEq α] (marks : σ → List α) (p : α → Bool) {step : σ → α → σ}
    (h : ∀ s a, marks (step s a) = if p a then (marks s).insert a else marks s) (l : List α) (s : σ) (k : α) :
    k ∈ marks (l.foldl step s) ↔ k ∈ marks s ∨ k ∈ l ∧ p k := by
  induction l generalizing s with
  | nil => simp
  | cons a l ih =>
    rw [foldl_cons, ih, h]
    split
    · grind
    · grind

theorem foldl_keeps {α : Type*} (P : σ → Prop) {step : σ → α → σ} (hstep : ∀ s a, P s → P (step s a))
    (l : List α) {s : σ} (hs : P s) : P (l.foldl step s) := by
  induction l generalizing s with
  | nil => exact hs
  | cons a rest ih => exact ih (hstep s a hs)

end GoEntropy.Container
