import GoEntropy.Snapshot.Iterator

/-!
# Advancing the iterators of a fast iterator

Seen from outside an iterator over a layer is a cursor over increasing hashes, with the depth of the layer
as its priority. Advancing one of them keeps who owns which hash: a hash is only skipped by an iterator
while one over a higher layer stands on it. The iterators end up sorted by different hashes again
(`FastIterator.advance_spec`), wherever the binary search looked for clashes on its way.
-/

namespace GoEntropy.Snapshot

open GoEntropy.Container Weighted List

/-! ## Iterators that can be advanced -/

namespace Weighted

variable {heap : Heap} {R : Source → Nat → Hash → Prop} {w : Weighted} {key : Hash}
  {keys hashes : List Hash}

def moved (w : Weighted) (key : Hash) (keys : List Hash) : Weighted :=
  { w with it := { w.it with curHash := key, keys } }

/-- The hashes that are left, for a cursor. -/
def left (w : Weighted) : Nat × List Hash := (w.priority, w.it.keys)

/-- The hashes with the one the iterator stands on. -/
def whole (w : Weighted) : Nat × List Hash := (w.priority, w.hash :: w.it.keys)

/-- The iterator can be advanced over increasing hashes, and what `R` says of its source holds for them. -/
structure Ready (heap : Heap) (R : Source → Nat → Hash → Prop) (w : Weighted)
    (hashes : List Hash) : Prop where
  fail : w.it.fail = false
  live : w.it.stale heap = false
  sorted : hashes.Pairwise (· < ·)
  reads : ∀ h ∈ hashes, R w.it.source w.priority h

/-- The iterator stands on a hash. -/
abbrev Good (heap : Heap) (R : Source → Nat → Hash → Prop) (w : Weighted) : Prop :=
  w.Ready heap R (w.hash :: w.it.keys)

/-- The iterator stands before its hashes. -/
abbrev Fresh (heap : Heap) (R : Source → Nat → Hash → Prop) (w : Weighted) : Prop :=
  w.Ready heap R w.it.keys

theorem Ready.tail (h : w.Ready heap R (key :: hashes)) : w.Ready heap R hashes where
  fail := h.fail
  live := h.live
  sorted := h.sorted.of_cons
  reads k hk := h.reads k (mem_cons_of_mem key hk)

theorem Ready.next_nil (h : w.Ready heap R hashes) (hkeys : w.it.keys = []) :
    w.it.next heap = .ok (false, w.it) := by
  simp [SubIter.next, h.fail, hkeys]

theorem Ready.next_cons (h : w.Ready heap R hashes) (hkeys : w.it.keys = key :: keys) :
    w.it.next heap = .ok (true, (w.moved key keys).it) := by
  simp [SubIter.next, h.fail, hkeys, h.live, moved]

theorem Ready.moved (h : w.Fresh heap R) (hkeys : w.it.keys = key :: keys) :
    (w.moved key keys).Good heap R where
  fail := h.fail
  live := h.live
  sorted := hkeys ▸ h.sorted
  reads k hk := h.reads k (hkeys ▸ hk)

@[simp] theorem priority_moved : (w.moved key keys).priority = w.priority := rfl

theorem whole_moved (hkeys : w.it.keys = key :: keys) : (w.moved key keys).whole = w.left := by
  simp only [whole, left, hkeys, hash, moved]

theorem Ready.lt (h : w.Good heap R) (hkey : key ∈ w.it.keys) : w.hash < key :=
  rel_of_pairwise_cons h.sorted hkey

end Weighted

/-- The iterators are sorted by the hashes they stand on, which differ, and so do their priorities. -/
structure Arranged (its : List Weighted) : Prop where
  hashes : its.Pairwise fun w v ↦ w.hash < v.hash
  priorities : (its.map Weighted.priority).Nodup

namespace FastIterator

variable {heap : Heap} {R : Source → Nat → Hash → Prop} {a b l r its : List Weighted}
  {w cur : Weighted} {p : Nat} {h : Hash}

theorem size_perm {its' : List Weighted} (hperm : its.Perm its') : size its = size its' :=
  (hperm.map _).sum_nat

theorem size_moved {key : Hash} {keys : List Hash} (hkeys : w.it.keys = key :: keys) :
    size (a ++ w.moved key keys :: b) + 1 = size (a ++ w :: b) := by
  simp only [size, map_append, map_cons, sum_append, sum_cons, moved, hkeys,
    length_cons]
  omega

/-! ## The place of an iterator -/

theorem getElem?_after (n : Nat) : (a ++ cur :: b)[a.length + n + 1]? = b[n]? := by
  rw [List.getElem?_append_right (by omega)]
  simp [show a.length + n + 1 - a.length = n + 1 by omega]

theorem fits_after (n : Nat) : fits (a ++ cur :: b) a.length cur (a.length + n) =
    b[n]?.all fun v ↦ decide (cur.hash < v.hash ∨ (cur.hash = v.hash ∧ cur.priority < v.priority)) := by
  rw [fits, if_neg (by omega), getElem?_after]
  cases b[n]? with
  | none => rfl
  | some v =>
    grind

theorem move_after (n : Nat) : move (a ++ cur :: b) a.length (a.length + n) cur =
    a ++ b.take n ++ cur :: b.drop n := by
  have hdrop : (a ++ cur :: b).drop (a.length + 1) = b := by simp
  have hdrop' : (a ++ cur :: b).drop (a.length + n + 1) = b.drop n := by
    rw [drop_append, drop_eq_nil_of_le (by omega),
      show a.length + n + 1 - a.length = n + 1 by omega, drop_succ_cons, nil_append]
  rw [move, hdrop, hdrop', take_left, show a.length + n - a.length = n by omega]

/-- The iterator that has to be advanced when one was placed between `l` and `r`: the one that was placed,
or the one after it. -/
inductive Clash (a l : List Weighted) (cur : Weighted) (r : List Weighted) : Option Nat → Prop
  | none (hne : ∀ v ∈ l ++ r, v.hash ≠ cur.hash) : Clash a l cur r none
  | before {l' : List Weighted} {v : Weighted} (hl : l = l' ++ [v]) (heq : v.hash = cur.hash)
      (hlt : v.priority < cur.priority) : Clash a l cur r (some (a.length + l.length))
  | after {v : Weighted} {r' : List Weighted} (hr : r = v :: r') (heq : v.hash = cur.hash)
      (hlt : cur.priority < v.priority) : Clash a l cur r (some (a.length + l.length + 1))

/-- What the search for a place leaves: the iterator fits in there, and the clash was noted. -/
theorem search_spec (hb : b.Pairwise fun w v ↦ w.hash < v.hash) {index : Nat} {clash : Option Nat}
    (hsearch : search (fits (a ++ cur :: b) a.length cur) (clashes (a ++ cur :: b) a.length cur)
      (a ++ cur :: b).length none = (index, clash)) :
    ∃ n ≤ b.length, index = a.length + n ∧
      (∀ v ∈ b[n]?, (cur.hash < v.hash ∨ (cur.hash = v.hash ∧ cur.priority < v.priority)) ∧
        (v.hash = cur.hash → clash = some (a.length + n + 1))) ∧
      (∀ m v, n = m + 1 → b[m]? = some v →
        ¬ (cur.hash < v.hash ∨ (cur.hash = v.hash ∧ cur.priority < v.priority)) ∧
        (v.hash = cur.hash → clash = some (a.length + n))) ∧
      ((∀ v ∈ b, v.hash ≠ cur.hash) → clash = none) := by
  -- a clash is noted under the index before it, and no other one can overwrite it
  let N : Nat → Option Nat → Prop := fun k s ↦
    ∀ v, a.length ≤ k → (a ++ cur :: b)[k + 1]? = some v → v.hash = cur.hash → s = some (k + 1)
  have hset : ∀ k s, N k (clashes (a ++ cur :: b) a.length cur k s) := by
    intro k s v hk hv heq
    simp only [clashes, if_neg (show ¬ k < a.length by omega), hv, if_pos heq]
  have hinj : ∀ {k k' : Nat} {v v' : Weighted}, b[k]? = some v → b[k']? = some v' → v.hash = v'.hash →
      k = k' := by
    intro k k' v v' hk hk' heq
    obtain ⟨hlt, rfl⟩ := List.getElem?_eq_some_iff.1 hk
    obtain ⟨hlt', rfl⟩ := List.getElem?_eq_some_iff.1 hk'
    rcases Nat.lt_trichotomy k k' with hkk | rfl | hkk
    · exact absurd (heq ▸ pairwise_iff_getElem.1 hb k k' hlt hlt' hkk) (BitVec.lt_irrefl _)
    · rfl
    · exact absurd (heq ▸ pairwise_iff_getElem.1 hb k' k hlt' hlt hkk) (BitVec.lt_irrefl _)
  have hkeep : ∀ k k' s, N k s → N k (clashes (a ++ cur :: b) a.length cur k' s) := by
    intro k k' s hN v hk hv heq
    rw [clashes]
    split
    · exact hN v hk hv heq
    · next hk' =>
      split
      · exact hN v hk hv heq
      · next v' hv' =>
        split
        · next heq' =>
          obtain ⟨m, rfl⟩ := Nat.exists_eq_add_of_le hk
          obtain ⟨m', rfl⟩ := Nat.exists_eq_add_of_le (Nat.le_of_not_lt hk')
          rw [getElem?_after] at hv hv'
          rw [hinj hv hv' (heq.trans heq'.symm)]
        · exact hN v hk hv heq
  obtain ⟨-, hindex, hbelow, hat, -⟩ := searchFrom_spec hset hkeep (by omega) (by omega) hsearch
  have hlen : (a ++ cur :: b).length = a.length + b.length + 1 := by simp; omega
  -- an iterator can always be placed last, and never before its old place
  have hlast : index ≠ a.length + b.length + 1 := by
    rintro rfl
    have hfit := (hbelow (by omega)).1
    rw [show a.length + b.length + 1 - 1 = a.length + b.length by omega, fits_after] at hfit
    simp at hfit
  have hfirst : a.length ≤ index := by
    have hfit := (hat (by omega)).1
    by_contra hlt
    rw [fits, if_pos (by omega)] at hfit
    exact Bool.false_ne_true hfit
  obtain ⟨n, rfl⟩ := Nat.exists_eq_add_of_le hfirst
  refine ⟨n, by omega, rfl, ?_, ?_, ?_⟩
  · intro v hv
    obtain ⟨hfit, hnote⟩ := hat (by omega)
    rw [fits_after, Option.mem_def.1 hv, Option.all_some, decide_eq_true_eq] at hfit
    exact ⟨hfit, hnote v (by omega) ((getElem?_after n).trans hv)⟩
  · rintro m v rfl hv
    obtain ⟨hfit, hnote⟩ := hbelow (by omega)
    rw [show a.length + (m + 1) - 1 = a.length + m by omega] at hfit hnote
    rw [fits_after, hv, Option.all_some, decide_eq_false_iff_not] at hfit
    exact ⟨hfit, hnote v (by omega) ((getElem?_after m).trans hv)⟩
  · intro hne
    refine searchFrom_keeps (I := fun s ↦ s = none) (fun k s hs ↦ ?_) rfl hsearch
    rw [clashes]
    split
    · exact hs
    · next hk =>
      obtain ⟨m, rfl⟩ := Nat.exists_eq_add_of_le (Nat.le_of_not_lt hk)
      rw [getElem?_after]
      split
      · exact hs
      · next v hv => rw [if_neg (hne v (mem_of_getElem? hv)), hs]

theorem place_spec (hb : b.Pairwise fun w v ↦ w.hash < v.hash) (hprio : ∀ v ∈ b, cur.priority ≠ v.priority)
    {index : Nat} {clash : Option Nat}
    (hsearch : search (fits (a ++ cur :: b) a.length cur) (clashes (a ++ cur :: b) a.length cur)
      (a ++ cur :: b).length none = (index, clash)) :
    ∃ l r, b = l ++ r ∧ move (a ++ cur :: b) a.length index cur = a ++ l ++ cur :: r ∧
      (∀ v ∈ l, v.hash ≤ cur.hash) ∧ (∀ v ∈ r, cur.hash ≤ v.hash) ∧ Clash a l cur r clash := by
  obtain ⟨n, hn, rfl, hat, hbelow, hnone⟩ := search_spec hb hsearch
  -- the neighbours decide, since the others are sorted
  have hl := fun v ↦ mem_take_of_pairwise (x := v) hb hn
  have hr := fun v ↦ mem_drop_of_pairwise (n := n) (x := v) hb
  refine ⟨b.take n, b.drop n, (take_append_drop n b).symm, move_after n, ?_, ?_, ?_⟩
  · intro v hv
    grind
  · intro v hv
    grind
  · have hlen : (b.take n).length = n := by rw [length_take]; omega
    by_cases hclash : ∃ v ∈ b, v.hash = cur.hash
    · obtain ⟨v, hv, heq⟩ := hclash
      rw [← take_append_drop n b] at hv
      obtain hv | hv := mem_append.1 hv
      · obtain ⟨m, u, hm, hu, htake, hvu⟩ := hl v hv
        obtain ⟨hfit, hnote⟩ := hbelow m u hm hu
        have hueq : u.hash = cur.hash := by grind
        have hsome := hnote hueq
        rw [← hlen] at hsome
        exact hsome ▸ .before htake hueq (by grind)
      · obtain ⟨u, hu, hdrop, hvu⟩ := hr v hv
        obtain ⟨hfit, hnote⟩ := hat u hu
        have hueq : u.hash = cur.hash := by grind
        have hsome := hnote hueq
        rw [← hlen] at hsome
        exact hsome ▸ .after hdrop hueq (by grind)
    · have hne : ∀ v ∈ b, v.hash ≠ cur.hash := fun v hv heq ↦ hclash ⟨v, hv, heq⟩
      rw [hnone hne]
      exact .none (by rwa [take_append_drop])

/-! ## Advancing an iterator -/

/-- The iterators with one that may have to be advanced, since it stands on the hash of another. -/
structure Unsettled (heap : Heap) (R : Source → Nat → Hash → Prop) (a : List Weighted)
    (w : Weighted) (b : List Weighted) : Prop where
  good : ∀ v ∈ a ++ w :: b, v.Good heap R
  hashes : (a ++ b).Pairwise fun w v ↦ w.hash < v.hash
  priorities : ((a ++ w :: b).map Weighted.priority).Nodup
  le : ∀ v ∈ a, v.hash ≤ w.hash

/-- What advancing the iterator `w` between `a` and `b` leaves: the iterators are arranged, and they own
what was owned without the hash it stood on. -/
structure Advanced (heap : Heap) (R : Source → Nat → Hash → Prop) (a : List Weighted)
    (w : Weighted) (b : List Weighted) (ok : Bool) (its : List Weighted) : Prop where
  good : ∀ v ∈ its, v.Good heap R
  arranged : Arranged its
  owns : ∀ p h, Owns (its.map Weighted.whole) p h ↔ Owns (w.left :: (a ++ b).map Weighted.whole) p h
  length : (a ++ b).length ≤ its.length
  shorter : size its < size (a ++ w :: b)
  ok_iff : ok = true ↔ its ≠ []

/-- The iterators after one of them was advanced, with the rest of them in their order. -/
theorem whole_perm {key : Hash} {keys : List Hash} (hkeys : w.it.keys = key :: keys) :
    ((a ++ w.moved key keys :: b).map whole).Perm (w.left :: (a ++ b).map whole) := by
  rw [← w.whole_moved hkeys]
  exact perm_middle.map _

theorem hashes_insert (hhashes : (a ++ b).Pairwise fun w v ↦ w.hash < v.hash)
    (hlt : ∀ v ∈ a, v.hash < cur.hash) (hgt : ∀ v ∈ b, cur.hash < v.hash) :
    (a ++ cur :: b).Pairwise fun w v ↦ w.hash < v.hash := by
  obtain ⟨ha, hb, hab⟩ := pairwise_append.1 hhashes
  refine pairwise_append.2 ⟨ha, pairwise_cons.2 ⟨hgt, hb⟩, fun v hv u hu ↦ ?_⟩
  obtain rfl | hu := mem_cons.1 hu
  · exact hlt v hv
  · exact hab v hv u hu

namespace Unsettled

variable {key : Hash} {keys : List Hash} {ok : Bool}

section

variable (hu : Unsettled heap R a w b)

include hu

theorem good_moved (hkeys : w.it.keys = key :: keys) :
    ∀ v ∈ a ++ w.moved key keys :: b, v.Good heap R := by
  intro v hv
  obtain hv | hv := mem_append.1 hv
  · exact hu.good v (mem_append_left _ hv)
  · obtain rfl | hv := mem_cons.1 hv
    · exact (hu.good w (by simp)).tail.moved hkeys
    · exact hu.good v (mem_append_right _ (mem_cons_of_mem w hv))

theorem priorities_moved (key : Hash) (keys : List Hash) :
    ((a ++ w.moved key keys :: b).map priority).Nodup := by
  simpa using hu.priorities

theorem lt_moved (hkeys : w.it.keys = key :: keys) :
    ∀ v ∈ a, v.hash < (w.moved key keys).hash := by
  intro v hv
  have hlt : w.hash < key := (hu.good w (by simp)).lt (hkeys ▸ mem_cons_self)
  have hle := hu.le v hv
  show v.hash < key
  grind

theorem removed (hkeys : w.it.keys = []) :
    Advanced heap R a w b (decide (0 < (a ++ b).length)) (a ++ b) where
  good v hv := hu.good v (((sublist_cons_self w b).append_left a).mem hv)
  arranged := ⟨hu.hashes, hu.priorities.sublist (((sublist_cons_self w b).append_left a).map _)⟩
  owns p h := by rw [left, hkeys, owns_nil_cons]
  length := Nat.le_refl _
  shorter := by simp [FastIterator.size]
  ok_iff := by rw [decide_eq_true_eq, length_pos_iff]

theorem placed (hkeys : w.it.keys = key :: keys)
    (hperm : its.Perm (a ++ w.moved key keys :: b)) (hhashes : its.Pairwise fun w v ↦ w.hash < v.hash) :
    Advanced heap R a w b true its where
  good v hv := hu.good_moved hkeys v (hperm.mem_iff.1 hv)
  arranged := ⟨hhashes, (hperm.map _).nodup_iff.2 (hu.priorities_moved key keys)⟩
  owns p h := by rw [owns_perm (hperm.map _), owns_perm (whole_perm hkeys)]
  length := by
    rw [hperm.length_eq]
    simp
  shorter := by
    rw [size_perm hperm]
    have hmoved := size_moved (a := a) (b := b) hkeys
    omega
  ok_iff := by
    have hlen := hperm.length_eq
    simp only [length_append, length_cons] at hlen
    exact iff_of_true rfl (length_pos_iff.1 (by omega))

end

/-- The iterators `a'`, `v` and `b'` that are left when `v` has to be advanced next, since it stands
behind `u`. -/
structure Cascades (a' : List Weighted) (v : Weighted) (b' : List Weighted) (u : Weighted)
    (its : List Weighted) : Prop where
  perm : (a' ++ v :: b').Perm its
  hashes : (a' ++ b').Pairwise fun w v ↦ w.hash < v.hash
  le : ∀ x ∈ a', x.hash ≤ v.hash
  mem : u ∈ a'
  eq : u.hash = v.hash
  lt : u.priority < v.priority

theorem cascade (hu : Unsettled heap R a w b) (hkeys : w.it.keys = key :: keys) {a' b' : List Weighted}
    {v u : Weighted} (hc : Cascades a' v b' u (a ++ w.moved key keys :: b)) :
    Unsettled heap R a' v b' where
  good x hx := hu.good_moved hkeys x (hc.perm.mem_iff.1 hx)
  hashes := hc.hashes
  priorities := (hc.perm.map _).nodup_iff.2 (hu.priorities_moved key keys)
  le := hc.le

/-- Nothing changes but what the other iterator skips. -/
theorem cascaded (hkeys : w.it.keys = key :: keys) {a' b' : List Weighted} {v u : Weighted}
    (hc : Cascades a' v b' u (a ++ w.moved key keys :: b)) (hadv : Advanced heap R a' v b' ok its) :
    Advanced heap R a w b true its where
  good := hadv.good
  arranged := hadv.arranged
  owns p h := by
    have hskip : Owns (v.whole :: (a' ++ b').map whole) p h ↔
        Owns (v.left :: (a' ++ b').map whole) p h :=
      owns_skip (mem_map_of_mem (mem_append_left b' hc.mem)) hc.lt (hc.eq ▸ mem_cons_self)
    rw [hadv.owns, ← hskip, ← map_cons, owns_perm (perm_middle.symm.map _),
      owns_perm (hc.perm.map _), owns_perm (whole_perm hkeys)]
  length := by
    have hlen := hc.perm.length_eq
    have hle := hadv.length
    simp only [length_append, length_cons] at hlen hle ⊢
    omega
  shorter := by
    have hsize := hadv.shorter
    rw [size_perm hc.perm] at hsize
    have hmoved := size_moved (a := a) (b := b) hkeys
    omega
  ok_iff := by
    have hpos := length_pos_of_mem (mem_append_left b' hc.mem)
    exact iff_of_true rfl (length_pos_iff.1 (Nat.lt_of_lt_of_le hpos hadv.length))

end Unsettled

theorem advance_spec {fuel : Nat} (hu : Unsettled heap R a w b) (hfuel : size (a ++ w :: b) ≤ fuel) :
    ∃ ok its, advance heap fuel (a ++ w :: b) a.length = .ok (ok, its) ∧
      Advanced heap R a w b ok its := by
  induction fuel generalizing a w b with
  | zero => simp [size] at hfuel
  | succ fuel ih =>
    have hw := hu.good w (by simp)
    have hget : (a ++ w :: b)[a.length]? = some w := by simp
    rw [advance, hget]
    simp only
    cases hkeys : w.it.keys with
    | nil =>
      have herase : (a ++ w :: b).eraseIdx a.length = a ++ b := by
        rw [eraseIdx_append_of_length_le (Nat.le_refl _), Nat.sub_self, eraseIdx_zero, tail_cons]
      rw [hw.next_nil hkeys]
      simp only [herase]
      exact ⟨_, _, rfl, hu.removed hkeys⟩
    | cons key keys =>
      rw [hw.next_cons hkeys]
      have hlt := hu.lt_moved hkeys
      have hprio := hu.priorities_moved key keys
      have hsize := size_moved (a := a) (b := b) hkeys
      -- the recursive call
      have hcascade : ∀ {a' b' : List Weighted} {v u : Weighted},
          Unsettled.Cascades a' v b' u (a ++ w.moved key keys :: b) →
          ∃ ok its, (advance heap fuel (a' ++ v :: b') a'.length).map (fun p ↦ (true, p.2)) =
            .ok (ok, its) ∧ Advanced heap R a w b ok its := by
        intro a' b' v u hc
        obtain ⟨ok, its, hadv, hits⟩ := ih (hu.cascade hkeys hc) (by rw [size_perm hc.perm]; omega)
        exact ⟨true, its, by rw [hadv]; rfl, Unsettled.cascaded hkeys hc hits⟩
      have hplaced : ∀ {its : List Weighted}, its.Perm (a ++ w.moved key keys :: b) →
          its.Pairwise (fun w v ↦ w.hash < v.hash) → Advanced heap R a w b true its := hu.placed hkeys
      have hset : (a ++ w :: b).set a.length (w.moved key keys) = a ++ w.moved key keys :: b := by simp
      have hpriority : w.priority = (w.moved key keys).priority := rfl
      simp only [hset, hpriority]
      generalize w.moved key keys = cur at *
      rw [show (a ++ cur :: b)[a.length + 1]? = b[0]? from getElem?_after 0]
      cases b with
      | nil => exact ⟨true, _, rfl, hplaced (.refl _) (hashes_insert hu.hashes hlt (by simp))⟩
      | cons v b =>
        obtain ⟨-, hb, hab⟩ := pairwise_append.1 hu.hashes
        have hgt : ∀ x ∈ b, v.hash < x.hash := (pairwise_cons.1 hb).1
        simp only [List.getElem?_cons_zero]
        by_cases hv : cur.hash < v.hash
        · rw [if_pos hv]
          refine ⟨true, _, rfl, hplaced (.refl _) (hashes_insert hu.hashes hlt fun x hx ↦ ?_)⟩
          obtain rfl | hx := mem_cons.1 hx
          · exact hv
          · exact BitVec.lt_trans hv (hgt x hx)
        · rw [if_neg hv]
          by_cases heq : cur.hash = v.hash ∧ cur.priority < v.priority
          · -- the next one stands on the same hash, and goes after
            rw [if_pos heq]
            have hab' : (a ++ b).Pairwise fun w v ↦ w.hash < v.hash :=
              hu.hashes.sublist ((sublist_cons_self v b).append_left a)
            have hhashes := hashes_insert hab' hlt (heq.1 ▸ hgt)
            have hc : Unsettled.Cascades (a ++ [cur]) v b cur (a ++ cur :: v :: b) :=
              ⟨by simp, by simpa using hhashes, by grind, by simp, heq.1, heq.2⟩
            simpa using hcascade hc
          · rw [if_neg heq]
            obtain ⟨⟨index, clash⟩, hsearch⟩ : ∃ r, search (fits (a ++ cur :: v :: b) a.length cur)
              (clashes (a ++ cur :: v :: b) a.length cur) (a ++ cur :: v :: b).length none = r := ⟨_, rfl⟩
            have hne : ∀ x ∈ v :: b, cur.priority ≠ x.priority := by
              intro x hx heq
              rw [map_append, map_cons, nodup_append, nodup_cons] at hprio
              exact hprio.2.1.1 (heq ▸ mem_map_of_mem hx)
            obtain ⟨l, r, hlr, hmove, hl, hr, hclash⟩ := place_spec hb hne hsearch
            have hhashes := hu.hashes
            rw [hlr, ← append_assoc] at hhashes
            have hperm : (a ++ l ++ cur :: r).Perm (a ++ cur :: v :: b) := by
              rw [hlr, append_assoc]
              exact perm_middle.append_left a
            simp only [hsearch, hmove]
            cases hclash with
            | none hne =>
              exact ⟨true, _, rfl, hplaced hperm (hashes_insert hhashes (by grind) (by grind))⟩
            | @before l' u hl' hueq hult =>
              have hc : Unsettled.Cascades (a ++ l) cur r u (a ++ cur :: v :: b) :=
                ⟨hperm, hhashes, by grind, by grind, hueq, hult⟩
              simpa using hcascade hc
            | @after u r' hr' hueq hult =>
              subst hr'
              obtain ⟨-, hur, hlu⟩ := pairwise_append.1 hhashes
              have hhashes' := hashes_insert (hhashes.sublist ((sublist_cons_self u r').append_left (a ++ l)))
                (fun x hx ↦ hueq ▸ hlu x hx u mem_cons_self) (hueq ▸ (pairwise_cons.1 hur).1)
              have hc : Unsettled.Cascades (a ++ l ++ [cur]) u r' cur (a ++ cur :: v :: b) :=
                ⟨by simpa using hperm, by simpa using hhashes', by grind, by grind, hueq.symm, hult⟩
              simpa [Nat.add_assoc] using hcascade hc

end FastIterator

end GoEntropy.Snapshot
