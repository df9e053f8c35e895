import GoEntropy.Container.Maps
import GoEntropy.Snapshot.Advance

/-!
# The fast iterator merges its iterators

`init` positions the iterators on different hashes and keeps who owns which hash, and so does every round of
`Next`, but for the hash in front, which it consumes. So `Next` yields, in increasing order, the values that
the owners have for their hashes (`FastIterator.init_spec`, `FastIterator.next_spec`).
-/

namespace GoEntropy.Snapshot

open GoEntropy.Container Weighted List
open scoped List

namespace FastIterator

variable {heap : Heap} {target : Target} {R : Source → Nat → Hash → Prop} {V : Nat → Hash → Option Bytes}
  {a b its : List Weighted} {w : Weighted} {h : Hash}

/-! ## The first positions -/

/-- The map of the hashes that are taken follows the iterators. -/
def Tracks (positioned : AList fun _ : Hash ↦ Nat) (a : List Weighted) : Prop :=
  ∀ h j, positioned.lookup h = some j ↔ ∃ v, a[j]? = some v ∧ v.hash = h

/-- The iterators `a` have been positioned, the iterators `b` not yet. -/
structure Positioning (heap : Heap) (R : Source → Nat → Hash → Prop) (a b : List Weighted) :
    Prop where
  good : ∀ w ∈ a, w.Good heap R
  fresh : ∀ w ∈ b, w.Fresh heap R
  priorities : ((a ++ b).map Weighted.priority).Nodup

/-- The cursors of the iterators `a`, which have been positioned, and `b`. -/
def cursors (a b : List Weighted) : List (Nat × List Hash) := a.map Weighted.whole ++ b.map Weighted.left

theorem cursors_perm : (cursors a (w :: b)).Perm (w.left :: cursors a b) := perm_middle

theorem drop_after : ∃ b', drop (a ++ w :: b) a.length = a ++ b' ∧ b'.Perm b := by
  obtain rfl | ⟨b', last, rfl⟩ := eq_nil_or_concat b
  · exact ⟨[], by simp [drop], .refl _⟩
  · rw [concat_eq_append]
    refine ⟨last :: b', ?_, (perm_append_singleton last b').symm⟩
    have hlast : (a ++ w :: (b' ++ [last])).getLast? = some last := by
      rw [← cons_append, ← append_assoc, getLast?_concat]
    have hset : (a ++ w :: (b' ++ [last])).set a.length last = a ++ last :: b' ++ [last] := by simp
    rw [drop, hlast]
    simp only [hset, dropLast_concat]

variable {v : Weighted}

theorem exists_append_of_getElem? {n : Nat} (hv : a[n]? = some v) :
    ∃ a₁ a₂, a = a₁ ++ v :: a₂ ∧ a₁.length = n := by
  obtain ⟨hlt, rfl⟩ := List.getElem?_eq_some_iff.1 hv
  refine ⟨a.take n, a.drop (n + 1), ?_, by rw [length_take]; omega⟩
  rw [← drop_eq_getElem_cons hlt, take_append_drop]

variable {a₁ a₂ : List Weighted}

theorem swap_after :
    swap (a₁ ++ v :: a₂ ++ w :: b) a₁.length (a₁ ++ v :: a₂).length = a₁ ++ w :: a₂ ++ v :: b := by
  have hv : (a₁ ++ v :: a₂ ++ w :: b)[a₁.length]? = some v := by simp
  have hw : (a₁ ++ v :: a₂ ++ w :: b)[(a₁ ++ v :: a₂).length]? = some w := by simp
  rw [swap, hv, hw]
  simp

theorem swap_perm :
    (a₁ ++ w :: a₂ ++ v :: b).Perm (a₁ ++ v :: a₂ ++ w :: b) := by
  simp only [append_assoc]
  refine .append_left a₁ ?_
  calc w :: (a₂ ++ v :: b) ~ w :: v :: (a₂ ++ b) := perm_middle.cons w
    _ ~ v :: w :: (a₂ ++ b) := .swap v w _
    _ ~ v :: (a₂ ++ w :: b) := perm_middle.symm.cons v

/-- What is left when the iterator `w` after `a` has been handled: one more iterator is positioned, unless
one was dropped. -/
structure Positioned (heap : Heap) (R : Source → Nat → Hash → Prop) (a : List Weighted)
    (w : Weighted) (b : List Weighted) (dropped : Bool) (a' b' : List Weighted)
    (positioned : AList fun _ : Hash ↦ Nat) : Prop where
  length : a'.length = if dropped then a.length else a.length + 1
  rest : b'.length = b.length
  positioning : Positioning heap R a' b'
  tracks : Tracks positioned a'
  owns : ∀ p h, Owns (cursors a' b') p h ↔ Owns (cursors a (w :: b)) p h

namespace Positioning

variable {positioned : AList fun _ : Hash ↦ Nat} {key : Hash} {keys : List Hash}

section

variable (hp : Positioning heap R a (w :: b))

include hp

theorem dropped (ht : Tracks positioned a) (hkeys : w.it.keys = [])
    {b' : List Weighted} (hperm : b'.Perm b) : Positioned heap R a w b true a b' positioned where
  length := rfl
  rest := hperm.length_eq
  positioning := by
    refine ⟨hp.good, fun v hv ↦ hp.fresh v (mem_cons_of_mem w (hperm.mem_iff.1 hv)), ?_⟩
    refine ((hperm.append_left a).map _).nodup_iff.2 (hp.priorities.sublist ?_)
    exact ((sublist_cons_self w b).append_left a).map _
  tracks := ht
  owns p h := by
    rw [owns_perm cursors_perm, left, hkeys, owns_nil_cons]
    exact owns_perm ((hperm.map _).append_left _)

theorem placed (ht : Tracks positioned a)
    (hkeys : w.it.keys = key :: keys) (hnone : positioned.lookup key = none) :
    Positioned heap R a w b false (a ++ [w.moved key keys]) b (positioned.insert key a.length) where
  length := by simp
  rest := rfl
  positioning := by
    refine ⟨fun v hv ↦ ?_, fun v hv ↦ hp.fresh v (mem_cons_of_mem w hv), ?_⟩
    · obtain hv | hv := mem_append.1 hv
      · exact hp.good v hv
      · exact mem_singleton.1 hv ▸ (hp.fresh w mem_cons_self).moved hkeys
    · simpa using hp.priorities
  tracks h j := by
    have hold : ∀ v, a[j]? = some v → v.hash ≠ key := by
      rintro v hv rfl
      simp [(ht v.hash j).2 ⟨v, hv, rfl⟩] at hnone
    have hget : ∀ v, (a ++ [w.moved key keys])[j]? = some v ↔
        a[j]? = some v ∨ (j = a.length ∧ v = w.moved key keys) := by
      intro v
      rw [List.getElem?_append]
      split <;> grind
    rw [lookup_insert_eq_ite]
    simp only [hget]
    split
    · next heq =>
      subst heq
      constructor
      · rintro ⟨⟩
        exact ⟨_, .inr ⟨rfl, rfl⟩, rfl⟩
      · rintro ⟨v, hv | ⟨rfl, -⟩, heq⟩
        · exact absurd heq (hold v hv)
        · rfl
    · next hne =>
      rw [ht]
      constructor
      · rintro ⟨v, hv, heq⟩
        exact ⟨v, .inl hv, heq⟩
      · rintro ⟨v, hv | ⟨-, rfl⟩, heq⟩
        · exact ⟨v, hv, heq⟩
        · exact absurd heq.symm hne
  owns p h := by
    simp [cursors, w.whole_moved hkeys]

/-- The iterator at hand has been advanced, and stands on the hash of `v`, which goes before it. -/
theorem skip (hkeys : w.it.keys = key :: keys) :
    Positioning heap R a (w.moved key keys :: b) where
  good := hp.good
  fresh v hv := by
    obtain rfl | hv := mem_cons.1 hv
    · exact ((hp.fresh w mem_cons_self).moved hkeys).tail
    · exact hp.fresh v (mem_cons_of_mem w hv)
  priorities := by simpa using hp.priorities

end

theorem owns_skip (hkeys : w.it.keys = key :: keys) (hv : v ∈ a) (heq : v.hash = key)
    (hlt : v.priority < w.priority) (p : Nat) (h : Hash) :
    Owns (cursors a (w.moved key keys :: b)) p h ↔ Owns (cursors a (w :: b)) p h := by
  have hmem : v.whole ∈ cursors a b := mem_append_left _ (mem_map_of_mem hv)
  rw [owns_perm cursors_perm, owns_perm cursors_perm, left, left, hkeys]
  exact (Container.owns_skip hmem hlt (mem_cons.2 (.inl heq.symm))).symm

/-- The iterator at hand takes the place of `v`, which it goes before. -/
theorem swap (hp : Positioning heap R (a₁ ++ v :: a₂) (w :: b))
    (hkeys : w.it.keys = key :: keys) : Positioning heap R (a₁ ++ w.moved key keys :: a₂) (v :: b) where
  good x hx := by
    obtain hx | hx := mem_append.1 hx
    · exact hp.good x (mem_append_left _ hx)
    · obtain rfl | hx := mem_cons.1 hx
      · exact (hp.fresh w mem_cons_self).moved hkeys
      · exact hp.good x (mem_append_right _ (mem_cons_of_mem v hx))
  fresh x hx := by
    obtain rfl | hx := mem_cons.1 hx
    · exact (hp.good x (by simp)).tail
    · exact hp.fresh x (mem_cons_of_mem w hx)
  priorities := by
    have hswapped := (swap_perm.map priority).nodup_iff.2 hp.priorities
    simpa using hswapped

theorem tracks_swap (ht : Tracks positioned (a₁ ++ v :: a₂))
    (heq : v.hash = key) : Tracks positioned (a₁ ++ w.moved key keys :: a₂) := by
  have hhash : (a₁ ++ w.moved key keys :: a₂).map Weighted.hash = (a₁ ++ v :: a₂).map Weighted.hash := by
    simp [← heq, Weighted.hash, Weighted.moved]
  intro h j
  have hj := congrArg (·[j]? = some h) hhash
  simp only [List.getElem?_map, Option.map_eq_some_iff] at hj
  rw [ht h j, hj]

theorem owns_swap (hkeys : w.it.keys = key :: keys)
    (heq : v.hash = key) (hlt : w.priority < v.priority) (p : Nat) (h : Hash) :
    Owns (cursors (a₁ ++ w.moved key keys :: a₂) (v :: b)) p h ↔
      Owns (cursors (a₁ ++ v :: a₂) (w :: b)) p h := by
  have hmem : (w.moved key keys).whole ∈ cursors (a₁ ++ w.moved key keys :: a₂) b :=
    mem_append_left _ (mem_map_of_mem (by simp))
  have hskip : Owns (v.whole :: cursors (a₁ ++ w.moved key keys :: a₂) b) p h ↔
      Owns (v.left :: cursors (a₁ ++ w.moved key keys :: a₂) b) p h :=
    Container.owns_skip hmem hlt (mem_cons.2 (.inl heq))
  rw [owns_perm cursors_perm, ← hskip]
  refine owns_perm ?_
  simp only [cursors, map_append, map_cons, w.whole_moved hkeys, append_assoc]
  calc v.whole :: (a₁.map _ ++ w.left :: (a₂.map _ ++ b.map _))
      ~ a₁.map _ ++ v.whole :: w.left :: (a₂.map _ ++ b.map _) := perm_middle.symm
    _ ~ a₁.map _ ++ v.whole :: (a₂.map _ ++ w.left :: b.map _) :=
      (perm_middle.symm.cons _).append_left _

end Positioning

variable {positioned : AList fun _ : Hash ↦ Nat}

/-- The iterator at hand finds a hash for itself, or hands over to the one it displaces, or is dropped. -/
theorem settle_spec {fuel : Nat}
    (hp : Positioning heap R a (w :: b)) (ht : Tracks positioned a) (hfuel : size (a ++ w :: b) ≤ fuel) :
    ∃ dropped a' b' positioned',
      settle heap a.length fuel (a ++ w :: b) positioned = .ok (dropped, a' ++ b', positioned') ∧
      Positioned heap R a w b dropped a' b' positioned' := by
  induction fuel generalizing a w b with
  | zero => simp [size] at hfuel
  | succ fuel ih =>
    have hw := hp.fresh w mem_cons_self
    have hget : (a ++ w :: b)[a.length]? = some w := by simp
    rw [settle, hget]
    simp only
    cases hkeys : w.it.keys with
    | nil =>
      rw [hw.next_nil hkeys]
      obtain ⟨b', hdrop, hperm⟩ := drop_after (a := a) (w := w)
      exact ⟨true, a, b', positioned, by simp [hdrop], hp.dropped ht hkeys hperm⟩
    | cons key keys =>
      rw [hw.next_cons hkeys]
      have hset : (a ++ w :: b).set a.length { it := (w.moved key keys).it, priority := w.priority } =
        a ++ w.moved key keys :: b := by simp [moved]
      have hsize := size_moved (a := a) (b := b) hkeys
      simp only [hset]
      cases hlookup : positioned.lookup (w.moved key keys).it.curHash with
      | none => exact ⟨false, _, b, _, by simp [moved], hp.placed ht hkeys hlookup⟩
      | some other =>
        obtain ⟨v, hv, heq⟩ := (ht key other).1 hlookup
        obtain ⟨a₁, a₂, rfl, rfl⟩ := exists_append_of_getElem? hv
        have hget' : (a₁ ++ v :: a₂ ++ w.moved key keys :: b)[a₁.length]? = some v := by simp
        simp only [hget']
        by_cases hlt : v.priority < w.priority
        · rw [if_pos hlt]
          obtain ⟨dropped, a', b', positioned', hsettle, hdone⟩ := ih (hp.skip hkeys) ht (by omega)
          refine ⟨dropped, a', b', positioned', hsettle, { hdone with owns := fun p h ↦ ?_ }⟩
          rw [hdone.owns, Positioning.owns_skip hkeys (by simp) heq hlt]
        · rw [if_neg hlt, swap_after]
          have hne : v.priority ≠ w.priority := by
            have hnodup := hp.priorities
            grind
          have hlen : (a₁ ++ v :: a₂).length = (a₁ ++ w.moved key keys :: a₂).length := by simp
          have hsize' : size (a₁ ++ w.moved key keys :: a₂ ++ v :: b) ≤ fuel := by
            rw [size_perm swap_perm]
            omega
          obtain ⟨dropped, a', b', positioned', hsettle, hdone⟩ :=
            ih (hp.swap hkeys) (Positioning.tracks_swap ht heq) hsize'
          refine ⟨dropped, a', b', positioned', hlen ▸ hsettle,
            { hdone with length := hlen ▸ hdone.length, owns := fun p h ↦ ?_ }⟩
          rw [hdone.owns, Positioning.owns_swap hkeys heq (by omega)]

/-- Once an iterator has been handled after another, all stand on different hashes. -/
theorem position_spec {rounds : Nat}
    (hp : Positioning heap R a b) (ht : Tracks positioned a) (hrounds : b.length ≤ rounds) :
    ∃ its positioned', position heap rounds a.length (a ++ b) positioned = .ok its ∧
      Positioning heap R its [] ∧ Tracks positioned' its ∧
      ∀ p h, Owns (its.map whole) p h ↔ Owns (cursors a b) p h := by
  induction rounds generalizing a b positioned with
  | zero =>
    obtain rfl := eq_nil_of_length_eq_zero (Nat.le_zero.1 hrounds)
    exact ⟨a, positioned, by rw [position, append_nil], hp, ht, by simp [cursors]⟩
  | succ rounds ih =>
    cases b with
    | nil => exact ⟨a, positioned, by simp [position], hp, ht, by simp [cursors]⟩
    | cons w b =>
      obtain ⟨dropped, a', b', positioned', hsettle, hdone⟩ := settle_spec hp ht (Nat.le_refl _)
      have hlen : b'.length ≤ rounds := hdone.rest ▸ Nat.le_of_succ_le_succ hrounds
      obtain ⟨its, positioned'', hposition, hits, htracks, howns⟩ := ih hdone.positioning hdone.tracks hlen
      refine ⟨its, positioned'', ?_, hits, htracks, fun p h ↦ (howns p h).trans (hdone.owns p h)⟩
      rw [position, if_pos (by simp), hsettle]
      simp only
      rw [← hdone.length, hposition]

theorem hashes_ne_of_tracks (ht : Tracks positioned its) :
    its.Pairwise fun w v ↦ w.hash ≠ v.hash := by
  refine pairwise_iff_getElem.2 fun i j hi hj hij heq ↦ ?_
  have hi' := (ht its[i].hash i).2 ⟨_, List.getElem?_eq_getElem hi, rfl⟩
  have hj' := (ht its[i].hash j).2 ⟨_, List.getElem?_eq_getElem hj, heq.symm⟩
  have := Option.some.inj (hi'.symm.trans hj')
  omega

instance : Std.Total Weighted.le := ⟨fun w v ↦ by unfold Weighted.le; grind⟩

instance : IsTrans Weighted Weighted.le := ⟨fun w v u hwv hvu ↦ by unfold Weighted.le at *; grind⟩

/-! ## The loop -/

/-- The fast iterator has not failed, and its iterators are arranged. -/
structure Inv (heap : Heap) (R : Source → Nat → Hash → Prop) (fi : FastIterator) : Prop where
  good : ∀ w ∈ fi.iterators, w.Good heap R
  arranged : Arranged fi.iterators
  fail : fi.fail = false

/-- What `R` says of a source makes reads of it yield the values `V`. -/
def Reads (heap : Heap) (target : Target) (V : Nat → Hash → Option Bytes) (R : Source → Nat → Hash → Prop) : Prop :=
  ∀ (it : SubIter) p, it.fail = false → it.stale heap = false → R it.source p it.curHash →
    it.blob heap target = .ok (V p it.curHash, it)

/-- The cursors over what is still to come. The hash in front is behind us once iteration has begun. -/
def left (fi : FastIterator) : List (Nat × List Hash) :=
  if fi.initiated then
    match fi.iterators with
    | [] => []
    | w :: rest => w.left :: rest.map Weighted.whole
  else fi.iterators.map Weighted.whole

/-- The entries that cursors own. -/
def Pending (V : Nat → Hash → Option Bytes) (cs : List (Nat × List Hash)) (h : Hash) (blob : Bytes) : Prop :=
  ∃ p, Owns cs p h ∧ V p h = some blob

theorem Pending.unique {cs : List (Nat × List Hash)} {blob blob' : Bytes} (hp : Pending V cs h blob)
    (hp' : Pending V cs h blob') : blob = blob' := by
  obtain ⟨p, hown, hval⟩ := hp
  obtain ⟨p', hown', hval'⟩ := hp'
  rw [hown.unique hown', hval'] at hval
  exact (Option.some.inj hval).symm

/-- How often `Next` can still be called. -/
def weight (fi : FastIterator) : Nat := size fi.iterators + if fi.initiated then 0 else 1

section

variable (hgood : ∀ v ∈ w :: its, v.Good heap R)

include hgood

theorem lt_of_mem_whole (harr : Arranged (w :: its)) {q : Nat}
    {hashes : List Hash} (hmem : (q, hashes) ∈ its.map whole) (hh : h ∈ hashes) : w.hash < h := by
  obtain ⟨v, hv, heq⟩ := mem_map.1 hmem
  obtain ⟨rfl, rfl⟩ := Prod.mk.inj heq
  have hlt := (pairwise_cons.1 harr.hashes).1 v hv
  obtain rfl | hh := mem_cons.1 hh
  · exact hlt
  · exact BitVec.lt_trans hlt ((hgood v (mem_cons_of_mem w hv)).lt hh)

theorem lt_of_pending (harr : Arranged (w :: its)) {blob : Bytes}
    (hp : Pending V (w.left :: its.map whole) h blob) : w.hash < h := by
  obtain ⟨p, ⟨⟨hashes, hmem, hh⟩, -⟩, -⟩ := hp
  obtain heq | hmem := mem_cons.1 hmem
  · obtain ⟨rfl, rfl⟩ := Prod.mk.inj heq
    exact (hgood w mem_cons_self).lt hh
  · exact lt_of_mem_whole hgood harr hmem hh

/-- The entries of arranged iterators: the one in front, and the others. -/
theorem pending_front (harr : Arranged (w :: its)) {blob : Bytes} :
    Pending V ((w :: its).map whole) h blob ↔
      (h = w.hash ∧ V w.priority w.hash = some blob) ∨ Pending V (w.left :: its.map whole) h blob := by
  have hfront : ∀ p, Owns ((w :: its).map whole) p h ↔
      (h = w.hash ∧ p = w.priority) ∨ Owns (w.left :: its.map whole) p h := fun p ↦
    owns_front (fun hmem ↦ BitVec.lt_irrefl _ ((hgood w mem_cons_self).lt hmem))
      fun q l hl hmem ↦ BitVec.lt_irrefl _ (lt_of_mem_whole hgood harr hl hmem)
  simp only [Pending, hfront]
  constructor
  · rintro ⟨p, ⟨rfl, rfl⟩ | hown, hval⟩
    · exact .inl ⟨rfl, hval⟩
    · exact .inr ⟨p, hown, hval⟩
  · rintro (⟨rfl, hval⟩ | ⟨p, hown, hval⟩)
    · exact ⟨_, .inl ⟨rfl, rfl⟩, hval⟩
    · exact ⟨p, .inr hown, hval⟩

end

/-- What `Next` does: it yields the first entry that is still to come, or there is none. -/
structure Stepped (heap : Heap) (R : Source → Nat → Hash → Prop) (V : Nat → Hash → Option Bytes) (fi : FastIterator) (ok : Bool)
    (fi' : FastIterator) : Prop where
  inv : Inv heap R fi'
  target : fi'.target = fi.target
  yields : ok = true → ∃ h blob, fi'.entry = some (h, blob) ∧ Pending V fi.left h blob ∧
    (∀ h' blob', Pending V fi.left h' blob' → h ≤ h') ∧
    ∀ h' blob', Pending V fi'.left h' blob' ↔ Pending V fi.left h' blob' ∧ h < h'
  lighter : ok = true → fi'.weight < fi.weight
  ends : ok = false → ∀ h blob, ¬ Pending V fi.left h blob

variable {fi fi' : FastIterator} {ok : Bool}

/-- The iterators with the one in front loaded. -/
def loaded (fi : FastIterator) (its : List Weighted) (cur : Option Bytes) : FastIterator :=
  { fi with iterators := its, initiated := true, cur }

theorem load_eq (hR : Reads heap fi.target V R) (hfail : fi.fail = false) (hinit : fi.initiated = true)
    (hits : fi.iterators = w :: its) (hw : w.Good heap R) : fi.load heap = .ok (fi.loaded (w :: its) (V w.priority w.hash)) := by
  have hblob : w.it.blob heap fi.target = .ok (V w.priority w.hash, w.it) :=
    hR w.it w.priority hw.fail hw.live (hw.reads w.hash mem_cons_self)
  rw [load, hits]
  simp only [hblob, hw.fail, hfail, Bool.or_false]
  rw [loaded, hinit.symm, hfail.symm]

/-- The iterators `w :: its` stand for what is still to come. -/
structure Stands (heap : Heap) (R : Source → Nat → Hash → Prop) (V : Nat → Hash → Option Bytes) (fi : FastIterator) (w : Weighted)
    (its : List Weighted) : Prop where
  good : ∀ v ∈ w :: its, v.Good heap R
  arranged : Arranged (w :: its)
  fail : fi.fail = false
  pending : ∀ h blob, Pending V fi.left h blob ↔ Pending V ((w :: its).map Weighted.whole) h blob
  size : size (w :: its) < fi.weight

namespace Stands

variable {cur : Option Bytes}

theorem inv (hs : Stands heap R V fi w its) (cur : Option Bytes) : Inv heap R (fi.loaded (w :: its) cur) :=
  ⟨hs.good, hs.arranged, hs.fail⟩

theorem found (hs : Stands heap R V fi w its) {blob : Bytes} (hval : V w.priority w.hash = some blob) :
    Stepped heap R V fi true (fi.loaded (w :: its) (some blob)) where
  inv := hs.inv _
  target := rfl
  yields _ := by
    have hfront := fun h blob ↦ (hs.pending h blob).trans (pending_front hs.good hs.arranged)
    refine ⟨w.hash, blob, rfl, (hfront _ _).2 (.inl ⟨rfl, hval⟩), fun h' blob' hp ↦ ?_, fun h' blob' ↦ ?_⟩
    · obtain ⟨rfl, -⟩ | hp := (hfront h' blob').1 hp
      · exact BitVec.le_refl _
      · exact BitVec.le_of_lt (lt_of_pending hs.good hs.arranged hp)
    · rw [hfront]
      constructor
      · exact fun hp ↦ ⟨.inr hp, lt_of_pending hs.good hs.arranged hp⟩
      · rintro ⟨⟨rfl, -⟩ | hp, hlt⟩
        · exact absurd hlt (BitVec.lt_irrefl _)
        · exact hp
  lighter _ := hs.size
  ends h := nomatch h

theorem passed (hs : Stands heap R V fi w its) (hval : V w.priority w.hash = none)
    (hstep : Stepped heap R V (fi.loaded (w :: its) none) ok fi') : Stepped heap R V fi ok fi' := by
  have hpending : ∀ h blob, Pending V (fi.loaded (w :: its) none).left h blob ↔ Pending V fi.left h blob := by
    intro h blob
    rw [hs.pending, pending_front hs.good hs.arranged, hval]
    simp [FastIterator.left, loaded]
  have hweight : (fi.loaded (w :: its) none).weight < fi.weight := hs.size
  refine ⟨hstep.inv, hstep.target, fun hok ↦ ?_, fun hok ↦ (hstep.lighter hok).trans hweight, fun hok ↦ ?_⟩
  · simpa [hpending] using hstep.yields hok
  · simpa [hpending] using hstep.ends hok

end Stands

theorem skip_spec {fuel : Nat} (hi : Inv heap R fi) (hR : Reads heap fi.target V R) (hinit : fi.initiated = true) (hits : fi.iterators = w :: its)
    (hfuel : size fi.iterators ≤ fuel) : ∃ ok fi', fi.skip heap fuel = .ok (ok, fi') ∧ Stepped heap R V fi ok fi' := by
  induction fuel generalizing fi w its with
  | zero => simp [size, hits] at hfuel
  | succ fuel ih =>
    have hu : Unsettled heap R [] w its :=
      ⟨hits ▸ hi.good, (hits ▸ hi.arranged.hashes).of_cons, hits ▸ hi.arranged.priorities, by simp⟩
    obtain ⟨ok, its', hadv, hits'⟩ := advance_spec hu (Nat.le_refl _)
    have hleft : fi.left = w.left :: its.map whole := by rw [left, hinit, hits]; rfl
    have hpending : ∀ h blob, Pending V fi.left h blob ↔ Pending V (its'.map whole) h blob := by
      intro h blob
      simp [Pending, hleft, hits'.owns]
    rw [skip, hits, show w :: its = [] ++ w :: its from rfl, show (0 : Nat) = ([] : List Weighted).length from rfl,
      hadv]
    cases its' with
    | nil =>
      obtain rfl : ok = false := by simpa using mt hits'.ok_iff.1 (by simp)
      refine ⟨false, _, rfl, ⟨by simp, ⟨.nil, .nil⟩, hi.fail⟩, rfl, by simp, by simp, fun _ h blob hp ↦ ?_⟩
      obtain ⟨p, hown, -⟩ := (hpending h blob).1 hp
      exact not_owns_nil hown
    | cons v rest =>
      obtain rfl := hits'.ok_iff.2 (by simp)
      have hshorter := hits'.shorter
      have hs : Stands heap R V fi v rest := by
        refine ⟨hits'.good, hits'.arranged, hi.fail, hpending, ?_⟩
        rwa [weight, hinit, if_pos rfl, hits, Nat.add_zero]
      have hload : ({ fi with iterators := v :: rest } : FastIterator).load heap =
          .ok (fi.loaded (v :: rest) (V v.priority v.hash)) :=
        load_eq hR hi.fail hinit rfl (hits'.good v mem_cons_self)
      have hfail : (fi.loaded (v :: rest) (V v.priority v.hash)).fail = false := hi.fail
      simp only [hload, hfail]
      cases hval : V v.priority v.hash with
      | some blob => exact ⟨true, _, rfl, hs.found hval⟩
      | none =>
        rw [← hits] at hshorter
        obtain ⟨ok, fi', hskip, hstep⟩ := ih (hs.inv none) hR rfl rfl (Nat.le_of_lt_succ (hshorter.trans_le hfuel))
        exact ⟨ok, fi', hskip, hs.passed hval hstep⟩

/-- `Next` yields the first entry that is still to come, or there is none. -/
theorem next_spec (hi : Inv heap R fi) (hR : Reads heap fi.target V R) : ∃ ok fi', fi.next heap = .ok (ok, fi') ∧ Stepped heap R V fi ok fi' := by
  rw [next]
  cases hits : fi.iterators with
  | nil =>
    have hleft : fi.left = [] := by
      rw [left, hits]
      cases fi.initiated <;> rfl
    refine ⟨false, fi, rfl, hi, rfl, by simp, by simp, fun _ h blob hp ↦ ?_⟩
    obtain ⟨p, hown, -⟩ := hp
    exact not_owns_nil (hleft ▸ hown)
  | cons w its =>
    rw [if_neg (by simp)]
    cases hinit : fi.initiated with
    | true =>
      rw [← hits]
      exact skip_spec hi hR hinit hits (Nat.le_refl _)
    | false =>
      have hs : Stands heap R V fi w its := by
        refine ⟨hits ▸ hi.good, hits ▸ hi.arranged, hi.fail, fun h blob ↦ ?_, ?_⟩
        · rw [left, hinit, hits]
          rfl
        · rw [weight, hinit, hits]
          exact Nat.lt_succ_self _
      have hload : ({ fi with iterators := w :: its, initiated := true } : FastIterator).load heap =
          .ok (fi.loaded (w :: its) (V w.priority w.hash)) :=
        load_eq hR hi.fail rfl rfl (hs.good w mem_cons_self)
      have hfail : (fi.loaded (w :: its) (V w.priority w.hash)).fail = false := hi.fail
      simp only [hload, hfail]
      cases hval : V w.priority w.hash with
      | some blob => exact ⟨true, _, rfl, hs.found hval⟩
      | none =>
        obtain ⟨ok, fi', hskip, hstep⟩ := skip_spec (hs.inv none) hR rfl rfl (Nat.le_refl _)
        exact ⟨ok, fi', hskip, hs.passed hval hstep⟩

/-- `init` arranges iterators that have not been positioned, and all that they own is still to come. -/
theorem init_spec (hfresh : ∀ w ∈ its, w.Fresh heap R)
    (hprio : (its.map Weighted.priority).Nodup) : ∃ fi, init heap ⟨target, its, false, none, false⟩ = .ok fi ∧
      fi.target = target ∧ Inv heap R fi ∧ ∀ h blob, Pending V fi.left h blob ↔ Pending V (its.map Weighted.left) h blob := by
  have ht : Tracks ∅ [] := by
    intro h j
    simp
  obtain ⟨its', positioned, hposition, hp, ht', howns⟩ :=
    position_spec (a := []) ⟨by simp, hfresh, hprio⟩ ht (Nat.le_refl _)
  have hperm := its'.perm_insertionSort Weighted.le
  have hne := (hperm.pairwise_iff (fun h ↦ h.symm)).2 (hashes_ne_of_tracks ht')
  have hlt : (its'.insertionSort Weighted.le).Pairwise fun w v ↦ w.hash < v.hash := by
    refine (hne.and (pairwise_insertionSort Weighted.le its')).imp fun {w v} hwv ↦ ?_
    obtain ⟨hne, hlt | ⟨heq, -⟩⟩ := hwv
    · exact hlt
    · exact absurd heq hne
  have hinit : init heap ⟨target, its, false, none, false⟩ =
      .ok ⟨target, its'.insertionSort Weighted.le, false, none, false⟩ := by
    rw [init]
    rw [show position heap its.length 0 its ∅ = .ok its' from hposition]
    rfl
  refine ⟨_, hinit, rfl, ⟨fun w hw ↦ hp.good w (hperm.mem_iff.1 hw), ⟨hlt, ?_⟩, rfl⟩, fun h blob ↦ ?_⟩
  · exact (hperm.map _).nodup_iff.2 (by simpa using hp.priorities)
  · simp only [Pending, left, Bool.false_eq_true, if_false, owns_perm (hperm.map _), howns]
    rfl

end FastIterator

end GoEntropy.Snapshot
