import Mathlib

/-!
# Merging sorted sequences by priority

Cursors over increasing sequences, each with a priority, are advanced together so that every key comes
out once, from the cursor that is first in priority among those that hold it. `Owns` says which cursor
that is. Ownership does not depend on the order of the cursors, and it does not change when a key is
skipped by a cursor while another one that goes before it holds the key (`owns_skip`). A key below all
others is owned by the cursor that holds it (`owns_front`).

The place of a cursor is found by a binary search whose predicate leaves notes (`search`).
-/

namespace GoEntropy.Container

open List

/-! ## Binary search -/

section Search

variable {σ : Type} (p : Nat → Bool) (note : Nat → σ → σ)

/-- The loop of a binary search between two indices, with a note about every index that is looked at. -/
def searchFrom : (rounds i j : Nat) → σ → Nat × σ
  | 0, i, _, s => (i, s)
  | rounds + 1, i, j, s =>
    if i < j then
      let h := (i + j) / 2
      if p h then searchFrom rounds i h (note h s) else searchFrom rounds (h + 1) j (note h s)
    else (i, s)

/-- The smallest index below a bound that satisfies a monotone predicate, or the bound. -/
def search (n : Nat) (s : σ) : Nat × σ := searchFrom p note n 0 n s

variable {p note}

/-- The search ends between its bounds, where the predicate turns true, and both indices next to that place
have been noted. -/
theorem searchFrom_spec {N : Nat → σ → Prop} (hset : ∀ h s, N h (note h s))
    (hkeep : ∀ h k s, N h s → N h (note k s)) {rounds i j m : Nat} {s s' : σ} (hrounds : j - i ≤ rounds)
    (hle : i ≤ j) (h : searchFrom p note rounds i j s = (m, s')) :
    i ≤ m ∧ m ≤ j ∧ (i < m → p (m - 1) = false ∧ N (m - 1) s') ∧ (m < j → p m = true ∧ N m s') ∧
      ∀ k, N k s → N k s' := by
  induction rounds generalizing i j s with
  | zero =>
    obtain ⟨rfl, rfl⟩ := Prod.mk.inj h
    exact ⟨Nat.le_refl i, hle, by omega, by omega, fun k hk ↦ hk⟩
  | succ rounds ih =>
    rw [searchFrom] at h
    split at h
    · next hlt =>
      have hnoted := hset ((i + j) / 2) s
      cases hp : p ((i + j) / 2) with
      | true =>
        simp only [hp] at h
        obtain ⟨hlow, hhigh, hbelow, hat, hold⟩ := ih (by omega) (by omega) h
        refine ⟨hlow, by omega, hbelow, fun _ ↦ ?_, fun k hk ↦ hold k (hkeep k _ s hk)⟩
        obtain hlt' | rfl := Nat.lt_or_eq_of_le hhigh
        · exact hat hlt'
        · exact ⟨hp, hold _ hnoted⟩
      | false =>
        simp only [hp] at h
        obtain ⟨hlow, hhigh, hbelow, hat, hold⟩ := ih (by omega) (by omega) h
        refine ⟨by omega, hhigh, fun _ ↦ ?_, hat, fun k hk ↦ hold k (hkeep k _ s hk)⟩
        obtain hlt' | rfl := Nat.lt_or_eq_of_le hlow
        · exact hbelow hlt'
        · exact ⟨hp, hold _ hnoted⟩
    · obtain ⟨rfl, rfl⟩ := Prod.mk.inj h
      exact ⟨Nat.le_refl i, hle, by omega, by omega, fun k hk ↦ hk⟩

theorem searchFrom_keeps {I : σ → Prop} (hnote : ∀ h s, I s → I (note h s)) {rounds i j m : Nat} {s s' : σ}
    (hs : I s) (h : searchFrom p note rounds i j s = (m, s')) : I s' := by
  induction rounds generalizing i j s with
  | zero => exact (Prod.mk.inj h).2 ▸ hs
  | succ rounds ih =>
    rw [searchFrom] at h
    split at h
    · simp only at h
      split at h
      · exact ih (hnote _ s hs) h
      · exact ih (hnote _ s hs) h
    · exact (Prod.mk.inj h).2 ▸ hs

end Search

/-! ## Sorted lists around an index -/

section Sorted

variable {α : Type} {r : α → α → Prop} {l : List α} {n : Nat} {x : α}

theorem mem_take_of_pairwise (hl : l.Pairwise r) (hn : n ≤ l.length) (hx : x ∈ l.take n) :
    ∃ m y, n = m + 1 ∧ l[m]? = some y ∧ l.take n = l.take m ++ [y] ∧ (x = y ∨ r x y) := by
  cases n with
  | zero => exact absurd hx not_mem_nil
  | succ m =>
    have hm := getElem?_eq_getElem (show m < l.length by omega)
    have htake : l.take (m + 1) = l.take m ++ [l[m]] := by rw [take_add_one, hm, Option.toList_some]
    refine ⟨m, _, rfl, hm, htake, ?_⟩
    rw [htake] at hx
    obtain hx | hx := mem_append.1 hx
    · have hpair := htake ▸ hl.sublist (take_sublist (m + 1) l)
      exact .inr ((pairwise_append.1 hpair).2.2 x hx _ mem_cons_self)
    · exact .inl (mem_singleton.1 hx)

theorem mem_drop_of_pairwise (hl : l.Pairwise r) (hx : x ∈ l.drop n) :
    ∃ y, l[n]? = some y ∧ l.drop n = y :: l.drop (n + 1) ∧ (x = y ∨ r y x) := by
  have hn : n < l.length := by
    by_contra hn
    rw [drop_eq_nil_of_le (by omega)] at hx
    exact not_mem_nil hx
  have hdrop := drop_eq_getElem_cons hn
  refine ⟨_, getElem?_eq_getElem hn, hdrop, ?_⟩
  rw [hdrop] at hx
  obtain hx | hx := mem_cons.1 hx
  · exact .inl hx
  · exact .inr ((pairwise_cons.1 (hdrop ▸ hl.sublist (drop_sublist n l))).1 x hx)

end Sorted

/-! ## Owners -/

variable {κ : Type} {cs cs' : List (Nat × List κ)} {p q q' : Nat} {h k : κ} {l l' : List κ}

def holders (cs : List (Nat × List κ)) (h : κ) : Set Nat := {p | ∃ l, (p, l) ∈ cs ∧ h ∈ l}

/-- The cursor of a priority holds a key, and goes before all others that do. -/
def Owns (cs : List (Nat × List κ)) (p : Nat) (h : κ) : Prop := IsLeast (holders cs h) p

theorem holders_cons_of_mem (hl : h ∈ l) : holders ((q, l) :: cs) h = insert q (holders cs h) := by
  ext p
  simp only [holders, mem_cons, Prod.mk.injEq]
  constructor
  · rintro ⟨m, ⟨rfl, rfl⟩ | hm, hh⟩
    · exact .inl rfl
    · exact .inr ⟨m, hm, hh⟩
  · rintro (rfl | ⟨m, hm, hh⟩)
    · exact ⟨l, .inl ⟨rfl, rfl⟩, hl⟩
    · exact ⟨m, .inr hm, hh⟩

theorem holders_cons_of_notMem (hl : h ∉ l) : holders ((q, l) :: cs) h = holders cs h := by
  ext p
  simp only [holders, mem_cons]
  constructor
  · rintro ⟨m, ⟨rfl, rfl⟩ | hm, hh⟩
    · exact absurd hh hl
    · exact ⟨m, hm, hh⟩
  · rintro ⟨m, hm, hh⟩
    exact ⟨m, .inr hm, hh⟩

theorem not_owns_nil : ¬ Owns ([] : List (Nat × List κ)) p h := fun ⟨⟨_, hl, _⟩, _⟩ ↦ not_mem_nil hl

theorem owns_perm (hperm : cs.Perm cs') : Owns cs p h ↔ Owns cs' p h := by
  simp only [Owns, holders, hperm.mem_iff]

theorem owns_nil_cons : Owns ((q, []) :: cs) p h ↔ Owns cs p h := by
  rw [Owns, holders_cons_of_notMem not_mem_nil, Owns]

/-- A key may be skipped where a cursor that goes before holds it. -/
theorem owns_skip (hmem : (q', l') ∈ cs) (hlt : q' < q) (hk : k ∈ l') :
    Owns ((q, k :: l) :: cs) p h ↔ Owns ((q, l) :: cs) p h := by
  by_cases hl : h ∈ l
  · rw [Owns, Owns, holders_cons_of_mem hl, holders_cons_of_mem (mem_cons_of_mem k hl)]
  · by_cases heq : h = k
    · subst heq
      have hother : q' ∈ holders cs h := ⟨l', hmem, hk⟩
      rw [Owns, Owns, holders_cons_of_mem mem_cons_self, holders_cons_of_notMem hl]
      constructor
      · rintro ⟨hp, hleast⟩
        have hle := hleast (Set.mem_insert_of_mem q hother)
        obtain rfl | hp := hp
        · omega
        · exact ⟨hp, fun r hr ↦ hleast (Set.mem_insert_of_mem q hr)⟩
      · rintro ⟨hp, hleast⟩
        refine ⟨Set.mem_insert_of_mem q hp, fun r hr ↦ ?_⟩
        obtain rfl | hr := hr
        · exact Nat.le_trans (hleast hother) (Nat.le_of_lt hlt)
        · exact hleast hr
    · rw [Owns, Owns, holders_cons_of_notMem hl, holders_cons_of_notMem (by simp [heq, hl])]

/-- A key that no other cursor holds, and its own cursor holds once. -/
theorem owns_front (hl : k ∉ l) (hcs : ∀ q l, (q, l) ∈ cs → k ∉ l) :
    Owns ((q, k :: l) :: cs) p h ↔ (h = k ∧ p = q) ∨ Owns ((q, l) :: cs) p h := by
  by_cases heq : h = k
  · subst heq
    have hnone : holders cs h = ∅ := Set.eq_empty_iff_forall_notMem.2 fun r ⟨m, hm, hh⟩ ↦ hcs r m hm hh
    rw [Owns, Owns, holders_cons_of_mem mem_cons_self, holders_cons_of_notMem hl, hnone,
      insert_empty_eq]
    constructor
    · exact fun hp ↦ .inl ⟨rfl, hp.1⟩
    · rintro (⟨-, rfl⟩ | hp)
      · exact isLeast_singleton
      · exact absurd hp.1 (Set.notMem_empty p)
  · have hmem : h ∈ k :: l ↔ h ∈ l := by simp [heq]
    rw [or_iff_right fun h ↦ heq h.1]
    by_cases hh : h ∈ l
    · rw [Owns, Owns, holders_cons_of_mem hh, holders_cons_of_mem (hmem.2 hh)]
    · rw [Owns, Owns, holders_cons_of_notMem hh, holders_cons_of_notMem (mt hmem.1 hh)]

/-- A cursor that goes before all others owns what it holds, and the others own the rest. -/
theorem owns_cons_of_lt (hlt : ∀ c ∈ cs, q < c.1) :
    Owns ((q, l) :: cs) p h ↔ (h ∈ l ∧ p = q) ∨ (h ∉ l ∧ Owns cs p h) := by
  by_cases hl : h ∈ l
  · have hleast : IsLeast (insert q (holders cs h)) q := by
      refine ⟨Set.mem_insert q _, fun r hr ↦ ?_⟩
      obtain rfl | ⟨m, hm, -⟩ := hr
      · exact Nat.le_refl r
      · exact Nat.le_of_lt (hlt _ hm)
    rw [Owns, holders_cons_of_mem hl]
    constructor
    · exact fun hp ↦ .inl ⟨hl, hp.unique hleast⟩
    · rintro (⟨-, rfl⟩ | ⟨hnl, -⟩)
      · exact hleast
      · exact absurd hl hnl
  · rw [Owns, holders_cons_of_notMem hl]
    simp [hl, Owns]

end GoEntropy.Container
