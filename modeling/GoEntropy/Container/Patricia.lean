import Mathlib

/-!
# Patricia trees

Trees over an alphabet with an end marker. A branch reads one symbol, an extension reads several at
once, and a key is a word that ends with the marker and does not contain it before. No key is a
proper prefix of another one, so a value stands only where a key ends.

A tree is *canonical* if extensions are as long as possible and branches are not superfluous. Two
canonical trees with the same lookups are equal (`Canonical.ext`), so a canonical tree is determined
by its content alone, whatever insertions built it.
-/

namespace GoEntropy.Container

open Function List

/-- A Patricia tree: `leaf` is the end of a key. -/
inductive Patricia (α ν : Type)
  | empty
  | leaf (v : ν)
  | extend (key : List α) (child : Patricia α ν)
  | branch (children : α → Patricia α ν)

namespace Patricia

variable {α ν : Type} {stop a b : α} {k key p r s s' : List α} {v w : ν} {t u : Patricia α ν}
  {cs cs' : α → Patricia α ν}

/-! ## Keys -/

/-- The words that end with the marker and have it nowhere else. -/
def Ends (stop : α) (key : List α) : Prop := ∃ p, stop ∉ p ∧ key = p ++ [stop]

theorem not_ends_nil : ¬ Ends stop ([] : List α) := by
  rintro ⟨p, -, h⟩
  simp at h

theorem Ends.ne_nil (h : Ends stop key) : key ≠ [] := by
  rintro rfl
  exact not_ends_nil h

theorem ends_cons : Ends stop (a :: key) ↔ (a = stop ∧ key = []) ∨ (a ≠ stop ∧ Ends stop key) := by
  constructor
  · rintro ⟨p, hp, h⟩
    cases p with
    | nil =>
      simp only [nil_append, cons.injEq] at h
      exact .inl h
    | cons x p =>
      simp only [cons_append, cons.injEq, mem_cons, not_or] at h hp
      exact .inr ⟨h.1 ▸ .symm hp.1, p, hp.2, h.2⟩
  · rintro (⟨rfl, rfl⟩ | ⟨ha, p, hp, rfl⟩)
    · exact ⟨[], by simp, rfl⟩
    · exact ⟨a :: p, by simp [hp, Ne.symm ha], rfl⟩

theorem ends_append_cons : Ends stop (p ++ a :: s) ↔ stop ∉ p ∧ Ends stop (a :: s) := by
  induction p with
  | nil => simp
  | cons x p ih =>
    have hne : p ++ a :: s ≠ [] := by simp
    rw [cons_append, ends_cons, ih, mem_cons, not_or]
    simp only [hne, and_false, false_or]
    rw [ne_comm, and_assoc]

theorem ends_append (hs : s ≠ []) : Ends stop (p ++ s) ↔ stop ∉ p ∧ Ends stop s := by
  obtain ⟨a, s, rfl⟩ := exists_cons_of_ne_nil hs
  exact ends_append_cons

/-- A key is not a proper prefix of another one. -/
theorem Ends.eq_nil_of_append (hk : Ends stop k) (h : Ends stop (k ++ s)) : s = [] := by
  by_contra hs
  obtain ⟨p, -, rfl⟩ := hk
  exact ((ends_append hs).1 h).1 (by simp)

theorem Ends.of_append (hk : stop ∉ k) (h : Ends stop (k ++ s)) : Ends stop s := by
  refine ((ends_append ?_).1 h).2
  rintro rfl
  obtain ⟨p, -, hp⟩ := h
  rw [append_nil] at hp
  exact hk (by simp [hp])

/-- A word that does not continue another one parts from it at some symbol, unless it is a prefix
of it. -/
theorem exists_diverge (h : ¬ k <+: key) (h' : ¬ key <+: k) :
    ∃ p a b s s', a ≠ b ∧ k = p ++ a :: s ∧ key = p ++ b :: s' := by
  induction k generalizing key with
  | nil => exact absurd nil_prefix h
  | cons x k ih =>
    cases key with
    | nil => exact absurd nil_prefix h'
    | cons y key =>
      by_cases hxy : x = y
      · subst hxy
        have hnp : ¬ k <+: key := fun hp ↦ h ((prefix_cons_inj x).2 hp)
        obtain ⟨p, a, b, s, s', hab, rfl, rfl⟩ := ih hnp fun hp ↦ h' ((prefix_cons_inj x).2 hp)
        exact ⟨x :: p, a, b, s, s', hab, rfl, rfl⟩
      · exact ⟨[], x, y, k, key, hxy, rfl, rfl⟩

theorem not_prefix_of_diverge (h : a ≠ b) : ¬ p ++ a :: s <+: p ++ b :: s' := by
  rw [prefix_append_right_inj, cons_prefix_cons]
  exact fun hp ↦ h hp.1

section Before

variable [LT α]

/-- The first word is the smaller one at the symbol where the two part. -/
def Before (k key : List α) : Prop := ∃ p a b s s', a < b ∧ k = p ++ a :: s ∧ key = p ++ b :: s'

theorem Before.append_left (h : Before k key) (p : List α) : Before (p ++ k) (p ++ key) := by
  obtain ⟨q, a, b, s, s', hab, rfl, rfl⟩ := h
  exact ⟨p ++ q, a, b, s, s', hab, (append_assoc ..).symm, (append_assoc ..).symm⟩

theorem before_of_lt (hlen : k.length = key.length) (h : k < key) : Before k key := by
  induction k generalizing key with
  | nil =>
    obtain rfl := length_eq_zero_iff.1 hlen.symm
    exact absurd h (not_lt_nil _)
  | cons x k ih =>
    cases key with
    | nil => cases hlen
    | cons y key =>
      obtain hxy | ⟨rfl, hlt⟩ := cons_lt_cons_iff.1 h
      · exact ⟨[], x, y, k, key, hxy, rfl, rfl⟩
      · exact (ih (Nat.succ.inj hlen) hlt).append_left [x]

/-- The word that parts from one with an extension parts from the extension or goes on below it. -/
theorem Before.append_cases (h : Before (k ++ r) key) :
    (∃ r', key = k ++ r' ∧ Before r r') ∨ Before k key := by
  obtain ⟨p, a, b, s, s', hab, hk, rfl⟩ := h
  obtain ⟨q, rfl, rfl⟩ | ⟨q, rfl, hq⟩ := append_eq_append_iff.1 hk
  · exact .inl ⟨q ++ b :: s', append_assoc .., q, a, b, s, s', hab, rfl, rfl⟩
  · cases q with
    | nil => exact .inl ⟨b :: s', by rw [append_nil], [], a, b, s, s', hab, by simpa using hq.symm, rfl⟩
    | cons x q =>
      obtain ⟨rfl, rfl⟩ := cons.inj hq
      exact .inr ⟨p, a, b, q, s', hab, rfl, rfl⟩

end Before

/-! ## Lookup -/

section Lookup

variable [DecidableEq α]

def lookup : Patricia α ν → List α → Option ν
  | empty, _ => none
  | leaf v, key => if key = [] then some v else none
  | extend k c, key => if k <+: key then c.lookup (key.drop k.length) else none
  | branch _, [] => none
  | branch cs, a :: key => (cs a).lookup key

@[simp] theorem lookup_empty (key : List α) : (empty : Patricia α ν).lookup key = none := rfl

@[simp] theorem lookup_leaf (v : ν) (key : List α) :
    (leaf v : Patricia α ν).lookup key = if key = [] then some v else none := rfl

theorem lookup_extend (k key : List α) (c : Patricia α ν) :
    (extend k c).lookup key = if k <+: key then c.lookup (key.drop k.length) else none := rfl

@[simp] theorem lookup_branch_nil (cs : α → Patricia α ν) : (branch cs).lookup [] = none := rfl

@[simp] theorem lookup_branch_cons (cs : α → Patricia α ν) (a : α) (key : List α) :
    (branch cs).lookup (a :: key) = (cs a).lookup key := rfl

@[simp] theorem lookup_extend_append (k key : List α) (c : Patricia α ν) :
    (extend k c).lookup (k ++ key) = c.lookup key := by
  rw [lookup_extend, if_pos (prefix_append _ _), drop_left]

theorem lookup_extend_of_not_le {c : Patricia α ν} (h : ¬ k <+: key) :
    (extend k c).lookup key = none := by
  rw [lookup_extend, if_neg h]

/-- The tree that reads a word before `t`. -/
def graft (k : List α) (t : Patricia α ν) : Patricia α ν := if k = [] then t else extend k t

theorem lookup_graft (k key : List α) (t : Patricia α ν) :
    (graft k t).lookup key = (extend k t).lookup key := by
  rw [graft]
  split
  · next h =>
    subst h
    exact (lookup_extend_append [] key t).symm
  · rfl

end Lookup

/-! ## Shape -/

/-- A tree whose values stand where keys end. -/
def Shaped (stop : α) : Patricia α ν → Prop
  | empty => True
  | leaf _ => False
  | extend k c => k ≠ [] ∧ ((stop ∉ k ∧ c.Shaped stop) ∨ (Ends stop k ∧ ∃ v, c = leaf v))
  | branch cs => (∀ a, a ≠ stop → (cs a).Shaped stop) ∧ (cs stop = empty ∨ ∃ v, cs stop = leaf v)

/-- A tree without superfluous nodes. -/
inductive Canonical (stop : α) : Patricia α ν → Prop
  | tip {k : List α} {v : ν} (hk : Ends stop k) : Canonical stop (extend k (leaf v))
  | stem {k : List α} {cs : α → Patricia α ν} (hne : k ≠ []) (hk : stop ∉ k)
      (hcs : Canonical stop (branch cs)) : Canonical stop (extend k (branch cs))
  | fork {cs : α → Patricia α ν} (hcs : ∀ a, a ≠ stop → cs a ≠ empty → Canonical stop (cs a))
      (hstop : cs stop = empty ∨ ∃ v, cs stop = leaf v)
      (htwo : ∃ a b, a ≠ b ∧ cs a ≠ empty ∧ cs b ≠ empty) : Canonical stop (branch cs)

theorem Canonical.ne_empty (h : t.Canonical stop) : t ≠ empty := by
  rintro rfl
  cases h

theorem Canonical.shaped (h : t.Canonical stop) : t.Shaped stop := by
  induction h with
  | tip hk => exact ⟨hk.ne_nil, .inr ⟨hk, _, rfl⟩⟩
  | stem hne hk _ ih => exact ⟨hne, .inl ⟨hk, ih⟩⟩
  | @fork cs _ hstop _ ih =>
    refine ⟨fun a ha ↦ ?_, hstop⟩
    by_cases hempty : cs a = empty
    · rw [hempty]
      trivial
    · exact ih a ha hempty

section Reads

variable {c : Patricia α ν}

theorem Shaped.prefix_or_diverge (h : (extend k c).Shaped stop) (hkey : Ends stop key) : (∃ r, key = k ++ r) ∨
      ∃ p a b s s', a ≠ b ∧ k = p ++ a :: s ∧ key = p ++ b :: s' := by
  by_cases hp : k <+: key
  · obtain ⟨r, rfl⟩ := hp
    exact .inl ⟨r, rfl⟩
  · refine .inr (exists_diverge hp fun hp' ↦ hp ?_)
    -- a key that ends inside the extension ends with it
    obtain ⟨d, rfl⟩ := hp'
    obtain ⟨-, ⟨hk, -⟩ | ⟨hk, -⟩⟩ := h
    · obtain ⟨q, -, rfl⟩ := hkey
      simp at hk
    · simp [hkey.eq_nil_of_append hk]

/-- The keys that can be read in a tree: the word ends where values stand. -/
def Reads (stop : α) (t : Patricia α ν) (key : List α) : Prop :=
  (t.Shaped stop ∧ Ends stop key) ∨ (key = [] ∧ (t = empty ∨ ∃ v, t = leaf v))

theorem Reads.branch_cons (h : (branch cs).Reads stop (a :: key)) : (cs a).Reads stop key := by
  obtain ⟨⟨hcs, hstop⟩, hkey⟩ | ⟨h, -⟩ := h
  · obtain ⟨rfl, rfl⟩ | ⟨ha, hkey⟩ := ends_cons.1 hkey
    · exact .inr ⟨rfl, hstop⟩
    · exact .inl ⟨hcs a ha, hkey⟩
  · cases h

theorem Reads.inner (h : t.Reads stop key) (hempty : t ≠ empty) (hleaf : ∀ v, t ≠ leaf v) :
    t.Shaped stop ∧ Ends stop key := by
  refine h.resolve_right ?_
  rintro ⟨-, rfl | ⟨v, rfl⟩⟩
  · exact hempty rfl
  · exact hleaf v rfl

theorem Reads.ends (h : (extend k c).Reads stop key) : Ends stop key := (h.inner nofun nofun).2

theorem Reads.shaped (h : (extend k c).Reads stop key) : (extend k c).Shaped stop := (h.inner nofun nofun).1

theorem Reads.extend_append (h : (extend k c).Reads stop (k ++ r)) : c.Reads stop r := by
  obtain ⟨-, ⟨hk, hc⟩ | ⟨hk, v, rfl⟩⟩ := h.shaped
  · exact .inl ⟨hc, h.ends.of_append hk⟩
  · exact .inr ⟨hk.eq_nil_of_append h.ends, .inr ⟨v, rfl⟩⟩

theorem Reads.exists_cons (h : (branch cs).Reads stop key) :
    ∃ a r, key = a :: r ∧ (cs a).Reads stop r := by
  obtain ⟨a, r, rfl⟩ := exists_cons_of_ne_nil (h.inner nofun nofun).2.ne_nil
  exact ⟨a, r, rfl, h.branch_cons⟩

theorem Reads.eq_nil (h : (leaf v).Reads stop key) : key = [] := by
  obtain ⟨h, -⟩ | ⟨h, -⟩ := h
  · exact h.elim
  · exact h

/-- A key against an extension: it goes on below it, or parts from it. -/
theorem Reads.extend_cases (h : (extend k c).Reads stop key) :
    (∃ r, key = k ++ r ∧ c.Reads stop r) ∨
      ∃ p a b s s', a ≠ b ∧ k = p ++ a :: s ∧ key = p ++ b :: s' := by
  obtain ⟨r, rfl⟩ | hdiverge := h.shaped.prefix_or_diverge h.ends
  · exact .inl ⟨r, rfl, h.extend_append⟩
  · exact .inr hdiverge

/-- What may stand below a symbol, by a property of the trees that may stand below symbols other
than the marker. -/
def Below (stop : α) (P : Patricia α ν → Prop) (a : α) (t : Patricia α ν) : Prop :=
  (a = stop ∧ ∃ v, t = leaf v) ∨ (a ≠ stop ∧ P t)

theorem below_graft_leaf (h : Ends stop (p ++ b :: s)) (v : ν) :
    Below stop (Canonical stop) b (graft s (leaf v)) := by
  obtain ⟨rfl, rfl⟩ | ⟨hb, hs⟩ := ends_cons.1 (ends_append_cons.1 h).2
  · exact .inl ⟨rfl, v, rfl⟩
  · refine .inr ⟨hb, ?_⟩
    rw [graft, if_neg hs.ne_nil]
    exact .tip hs

theorem Canonical.below_graft (h : (extend (p ++ a :: s) c).Canonical stop) :
    Below stop (Canonical stop) a (graft s c) := by
  cases h with
  | tip hk => exact below_graft_leaf hk _
  | stem _ hk hcs =>
    simp only [mem_append, mem_cons, not_or] at hk
    refine .inr ⟨.symm hk.2.1, ?_⟩
    rw [graft]
    split
    · exact hcs
    · next hs => exact .stem hs hk.2.2 hcs

theorem Below.ne_empty (h : Below stop (Canonical stop) a t) : t ≠ empty := by
  obtain ⟨-, v, rfl⟩ | ⟨-, h⟩ := h
  · exact nofun
  · exact h.ne_empty

theorem Canonical.child (h : (branch cs).Canonical stop) (ha : cs a ≠ empty) :
    Below stop (Canonical stop) a (cs a) := by
  cases h with
  | fork hcs hstop _ =>
    by_cases hs : a = stop
    · subst hs
      exact .inl ⟨rfl, hstop.resolve_left ha⟩
    · exact .inr ⟨hs, hcs a hs ha⟩

/-- A branch with two children is canonical if what stands below each symbol may stand there. -/
theorem canonical_branch (h : ∀ a, cs a ≠ empty → Below stop (Canonical stop) a (cs a))
    (htwo : ∃ a b, a ≠ b ∧ cs a ≠ empty ∧ cs b ≠ empty) : (branch cs).Canonical stop := by
  refine .fork (fun a ha hne ↦ ((h a hne).resolve_left fun h ↦ ha h.1).2) ?_ htwo
  by_cases hs : cs stop = empty
  · exact .inl hs
  · exact .inr ((h stop hs).resolve_right fun h ↦ h.1 rfl).2

end Reads

section Content

variable [DecidableEq α]

theorem Canonical.exists_lookup (h : t.Canonical stop) : ∃ key v, t.lookup key = some v := by
  induction h with
  | @tip k v hk => exact ⟨k ++ [], v, by rw [lookup_extend_append, lookup_leaf, if_pos rfl]⟩
  | @stem k cs _ _ _ ih =>
    obtain ⟨key, v, hkey⟩ := ih
    exact ⟨k ++ key, v, by rwa [lookup_extend_append]⟩
  | @fork cs hcs hstop htwo ih =>
    obtain ⟨a, -, -, ha, -⟩ := id htwo
    obtain ⟨-, v, hleaf⟩ | ⟨hs, -⟩ := (Canonical.fork hcs hstop htwo).child ha
    · exact ⟨[a], v, by rw [lookup_branch_cons, hleaf, lookup_leaf, if_pos rfl]⟩
    · obtain ⟨key, v, hkey⟩ := ih a hs ha
      exact ⟨a :: key, v, hkey⟩

theorem Canonical.exists_child (h : (branch cs).Canonical stop) (ha : cs a ≠ empty) :
    ∃ key v, (cs a).lookup key = some v := by
  obtain ⟨-, v, hleaf⟩ | ⟨-, hchild⟩ := h.child ha
  · exact ⟨[], v, by rw [hleaf, lookup_leaf, if_pos rfl]⟩
  · exact hchild.exists_lookup

theorem Canonical.child_eq_empty (h : (branch cs).Canonical stop) (hnone : ∀ key, (cs a).lookup key = none) :
    cs a = empty := by
  by_contra hne
  obtain ⟨key, v, hkey⟩ := h.exists_child hne
  cases (hnone key).symm.trans hkey

/-! ## Canonical trees are determined by their content -/

/-- Every key of the tree continues `p`. -/
def Under (p : List α) (t : Patricia α ν) : Prop := ∀ key v, t.lookup key = some v → p <+: key

/-- Two keys of the tree part after `p`. -/
def PartsAt (p : List α) (t : Patricia α ν) : Prop :=
  ∃ a b r s v w, a ≠ b ∧ t.lookup (p ++ a :: r) = some v ∧ t.lookup (p ++ b :: s) = some w

theorem under_extend (k : List α) (c : Patricia α ν) : (extend k c).Under k := by
  intro key v hkey
  by_contra hp
  rw [lookup_extend_of_not_le hp] at hkey
  cases hkey

theorem Canonical.partsAt_nil (h : (branch cs).Canonical stop) : (branch cs).PartsAt [] := by
  obtain ⟨a, b, hab, ha, hb⟩ : ∃ a b, a ≠ b ∧ cs a ≠ empty ∧ cs b ≠ empty := by
    cases h with
    | fork _ _ htwo => exact htwo
  obtain ⟨r, v, hr⟩ := h.exists_child ha
  obtain ⟨s, w, hs⟩ := h.exists_child hb
  exact ⟨a, b, r, s, v, w, hab, hr, hs⟩

theorem Canonical.partsAt_extend (h : (branch cs).Canonical stop) (k : List α) :
    (extend k (branch cs)).PartsAt k := by
  obtain ⟨a, b, r, s, v, w, hab, hr, hs⟩ := h.partsAt_nil
  exact ⟨a, b, r, s, v, w, hab, by rwa [lookup_extend_append], by rwa [lookup_extend_append]⟩

/-- What all keys continue ends before the point where two of them part. -/
theorem PartsAt.above (h : t.PartsAt p) (hu : t.Under k) : k <+: p := by
  obtain ⟨a, b, r, s, v, w, hab, hr, hs⟩ := h
  by_contra hk
  have hlen : ¬ k.length ≤ p.length := fun hle ↦
    hk (prefix_of_prefix_length_le (hu _ _ hr) (prefix_append _ _) hle)
  have hpk : p <+: k := prefix_of_prefix_length_le (prefix_append _ _) (hu _ _ hr) (by omega)
  obtain ⟨d, rfl⟩ := hpk
  have hda := (prefix_append_right_inj p).1 (hu _ _ hr)
  have hdb := (prefix_append_right_inj p).1 (hu _ _ hs)
  cases d with
  | nil => simp at hlen
  | cons x d =>
    rw [cons_prefix_cons] at hda hdb
    exact hab (hda.1.symm.trans hdb.1)

theorem not_partsAt_tip : ¬ (extend k (leaf v)).PartsAt p := by
  rintro ⟨a, b, r, s, w, w', hab, hr, hs⟩
  have key_eq : ∀ {key x}, (extend k (leaf v)).lookup key = some x → key = k := by
    intro key x hkey
    obtain ⟨d, rfl⟩ := under_extend k (leaf v) key x hkey
    rw [lookup_extend_append, lookup_leaf] at hkey
    split at hkey
    · next hd => simp [hd]
    · cases hkey
  have heq := (key_eq hr).trans (key_eq hs).symm
  simp only [append_cancel_left_eq, cons.injEq] at heq
  exact hab heq.1

theorem Under.congr (h : ∀ key, t.lookup key = u.lookup key) (hu : t.Under p) : u.Under p :=
  fun key v hkey ↦ hu key v ((h key).trans hkey)

theorem PartsAt.congr (h : ∀ key, t.lookup key = u.lookup key) (hp : t.PartsAt p) : u.PartsAt p := by
  obtain ⟨a, b, r, s, v, w, hab, hr, hs⟩ := hp
  exact ⟨a, b, r, s, v, w, hab, (h _).symm.trans hr, (h _).symm.trans hs⟩

/-- **Canonical trees with the same lookups are equal.** -/
theorem Canonical.ext (ht : t.Canonical stop) (hu : u.Canonical stop)
    (h : ∀ key, t.lookup key = u.lookup key) : t = u := by
  induction ht generalizing u with
  | @tip k v hk =>
    cases hu with
    | @tip k' v' hk' =>
      have hself : (extend k (leaf v)).lookup k = some v := by
        simpa using lookup_extend_append k [] (leaf v)
      have hother : (extend k' (leaf v')).lookup k = some v := (h k).symm.trans hself
      obtain ⟨d, rfl⟩ := under_extend k' (leaf v') k v hother
      obtain rfl := hk'.eq_nil_of_append hk
      rw [lookup_extend_append, lookup_leaf, if_pos rfl, Option.some.injEq] at hother
      rw [append_nil, hother]
    | stem _ _ hcs => exact absurd ((hcs.partsAt_extend _).congr fun key ↦ (h key).symm) not_partsAt_tip
    | fork hcs hstop htwo =>
      exact absurd ((Canonical.fork hcs hstop htwo).partsAt_nil.congr fun key ↦ (h key).symm)
        not_partsAt_tip
  | @stem k cs hne hk hcs ih =>
    cases hu with
    | tip _ => exact absurd ((hcs.partsAt_extend k).congr h) not_partsAt_tip
    | @stem k' cs' _ _ hcs' =>
      have hle : k' <+: k := (hcs.partsAt_extend k).above
        ((under_extend k' (branch cs')).congr fun key ↦ (h key).symm)
      have hge : k <+: k' := (hcs'.partsAt_extend k').above ((under_extend k (branch cs)).congr h)
      obtain rfl : k = k' := hge.eq_of_length_le hle.length_le
      have hchild : branch cs = branch cs' := ih hcs' fun key ↦ by
        simpa using h (k ++ key)
      rw [hchild]
    | fork hcs' hstop htwo =>
      have hnil := (Canonical.fork hcs' hstop htwo).partsAt_nil.above
        ((under_extend k (branch cs)).congr h)
      exact absurd (prefix_nil.1 hnil) hne
  | @fork cs hcs hstop htwo ih =>
    have hfork := Canonical.fork hcs hstop htwo
    cases hu with
    | tip _ => exact absurd (hfork.partsAt_nil.congr h) not_partsAt_tip
    | @stem k' cs' hne _ _ =>
      have hnil := (hfork.partsAt_nil.congr h).above (under_extend k' (branch cs'))
      exact absurd (prefix_nil.1 hnil) hne
    | @fork cs' hcs' hstop' htwo' =>
      have hfork' := Canonical.fork hcs' hstop' htwo'
      have hchild : ∀ a key, (cs a).lookup key = (cs' a).lookup key := fun a key ↦ by
        simpa using h (a :: key)
      have hempty : ∀ a, cs a = empty ↔ cs' a = empty := fun a ↦
        ⟨fun ha ↦ hfork'.child_eq_empty fun key ↦ by rw [← hchild, ha, lookup_empty],
          fun ha ↦ hfork.child_eq_empty fun key ↦ by rw [hchild, ha, lookup_empty]⟩
      congr 1
      funext a
      by_cases ha : cs a = empty
      · rw [ha, (hempty a).1 ha]
      · have ha' : cs' a ≠ empty := fun h' ↦ ha ((hempty a).2 h')
        by_cases hs : a = stop
        · subst hs
          obtain ⟨v, hv⟩ := hstop.resolve_left ha
          obtain ⟨w, hw⟩ := hstop'.resolve_left ha'
          have hnil := hchild a []
          simp only [hv, hw, lookup_leaf, if_true, Option.some.injEq] at hnil
          rw [hv, hw, hnil]
        · exact ih a hs ha (hcs' a hs ha') (hchild a)

end Content

/-! ## Insertion -/

section Insert

variable [DecidableEq α]

/-- The length of the longest common prefix. -/
def prefixLen : List α → List α → Nat
  | a :: s, b :: s' => if a = b then prefixLen s s' + 1 else 0
  | _, _ => 0

theorem prefixLen_diverge (h : a ≠ b) : prefixLen (p ++ a :: s) (p ++ b :: s') = p.length := by
  induction p with
  | nil => simp [prefixLen, h]
  | cons x p ih => simp [prefixLen, ih]

theorem prefixLen_append (k r : List α) : prefixLen (k ++ r) k = k.length := by
  induction k with
  | nil => cases r <;> rfl
  | cons x k ih => simp [prefixLen, ih]

/-- A relation between the children of two branches is kept when one of them is replaced. -/
theorem rel_update {β γ : Type} {R : β → γ → Prop} {f : α → β} {g : α → γ} (h : ∀ i, R (f i) (g i))
    {x : β} {y : γ} (hxy : R x y) (a i : α) : R (update f a x i) (update g a y i) := by
  rw [update_apply, update_apply]
  split
  · exact hxy
  · exact h i

def forked (a : α) (t : Patricia α ν) (b : α) (u : Patricia α ν) : α → Patricia α ν :=
  Function.update (Function.update (fun _ ↦ empty) a t) b u

/-- The tree with a value put at a key. An extension that reads more than the key does is split at
the symbol where they part. -/
def insert : Patricia α ν → List α → ν → Patricia α ν
  | empty, key, v => graft key (leaf v)
  | leaf w, key, v => if key = [] then leaf v else leaf w
  | extend k c, key, v =>
    if k <+: key then extend k (c.insert (key.drop k.length) v)
    else
      let m := prefixLen k key
      match k.drop m, key.drop m with
      | a :: s, b :: s' => graft (key.take m) (branch (forked a (graft s c) b (graft s' (leaf v))))
      | _, _ => extend k c
  | branch cs, [], _ => branch cs
  | branch cs, a :: key, v => branch (Function.update cs a ((cs a).insert key v))

@[simp] theorem insert_empty (key : List α) (v : ν) :
    (empty : Patricia α ν).insert key v = graft key (leaf v) := rfl

theorem insert_leaf (w : ν) (key : List α) (v : ν) :
    (leaf w).insert key v = if key = [] then leaf v else leaf w := rfl

@[simp] theorem insert_branch_cons (cs : α → Patricia α ν) (a : α) (key : List α) (v : ν) :
    (branch cs).insert (a :: key) v = branch (update cs a ((cs a).insert key v)) := rfl

@[simp] theorem insert_extend_append (k key : List α) (c : Patricia α ν) (v : ν) :
    (extend k c).insert (k ++ key) v = extend k (c.insert key v) := by
  refine (if_pos (prefix_append _ _)).trans ?_
  rw [drop_left]

theorem insert_extend_diverge (c : Patricia α ν) (v : ν) (h : a ≠ b) :
    (extend (p ++ a :: s) c).insert (p ++ b :: s') v =
      graft p (branch (forked a (graft s c) b (graft s' (leaf v)))) := by
  refine (if_neg (not_prefix_of_diverge h)).trans ?_
  simp [prefixLen_diverge h]

variable {c : Patricia α ν}

theorem lookup_forked (hab : a ≠ b) (x : α) :
    forked a t b u x = if x = b then u else if x = a then t else empty := by
  by_cases hb : x = b
  · simp [forked, hb]
  · by_cases ha : x = a
    · simp [forked, ha, hab]
    · simp [forked, ha, hb]

theorem lookup_graft_forked (hab : a ≠ b) (c d : Patricia α ν) (key : List α) :
    (graft p (branch (forked a (graft s c) b (graft s' d)))).lookup key =
      if p ++ b :: s' <+: key then (extend (p ++ b :: s') d).lookup key
      else (extend (p ++ a :: s) c).lookup key := by
  rw [lookup_graft]
  by_cases hp : p <+: key
  · obtain ⟨r, rfl⟩ := hp
    rw [lookup_extend_append]
    cases r with
    | nil =>
      have hlen : ∀ (x : α) (l : List α), ¬ p ++ x :: l <+: p ++ [] := fun x l hp ↦ by
        have hle := hp.length_le
        simp only [length_append, length_cons, length_nil] at hle
        omega
      rw [lookup_branch_nil, if_neg (hlen b s'), lookup_extend_of_not_le (hlen a s)]
    | cons x r =>
      have hsame : ∀ (y : α) (l : List α) (e : Patricia α ν),
          (extend (p ++ y :: l) e).lookup (p ++ y :: r) = (extend l e).lookup r := by
        intro y l e
        by_cases hl : l <+: r
        · obtain ⟨q, rfl⟩ := hl
          rw [lookup_extend_append, ← cons_append, ← append_assoc, lookup_extend_append]
        · rw [lookup_extend_of_not_le hl, lookup_extend_of_not_le]
          simpa using hl
      rw [lookup_branch_cons, lookup_forked hab]
      by_cases hb : x = b
      · subst hb
        rw [if_pos rfl, lookup_graft, hsame]
        split
        · rfl
        · next hne =>
          rw [lookup_extend_of_not_le (by simpa using hne),
            lookup_extend_of_not_le (not_prefix_of_diverge hab)]
      · rw [if_neg hb, if_neg (not_prefix_of_diverge (.symm hb))]
        by_cases ha : x = a
        · subst ha
          rw [if_pos rfl, lookup_graft, hsame]
        · rw [if_neg ha, lookup_empty, lookup_extend_of_not_le (not_prefix_of_diverge (.symm ha))]
  · have hnp : ∀ l, ¬ p ++ l <+: key := fun l hl ↦ hp ((prefix_append p l).trans hl)
    rw [lookup_extend_of_not_le hp, if_neg (hnp _), lookup_extend_of_not_le (hnp _)]

theorem lookup_graft_leaf (k key : List α) (v : ν) :
    (graft k (leaf v)).lookup key = if key = k then some v else none := by
  rw [lookup_graft]
  by_cases hp : k <+: key
  · obtain ⟨r, rfl⟩ := hp
    simp
  · rw [lookup_extend_of_not_le hp, if_neg]
    rintro rfl
    exact hp prefix_rfl

/-- **Insertion writes one key.** -/
theorem Shaped.lookup_insert (h : t.Shaped stop) (hkey : Ends stop key) (v : ν) (r : List α) :
    (t.insert key v).lookup r = if r = key then some v else t.lookup r := by
  induction t generalizing key r with
  | empty => rw [insert_empty, lookup_graft_leaf, lookup_empty]
  | leaf => exact h.elim
  | extend k c ih =>
    obtain ⟨d, rfl⟩ | ⟨p, a, b, s, s', hab, rfl, rfl⟩ := h.prefix_or_diverge hkey
    · rw [insert_extend_append]
      by_cases hp : k <+: r
      · obtain ⟨r, rfl⟩ := hp
        rw [lookup_extend_append, lookup_extend_append]
        simp only [append_cancel_left_eq]
        obtain ⟨-, ⟨hk, hc⟩ | ⟨hk, w, rfl⟩⟩ := h
        · exact ih hc (hkey.of_append hk) r
        · obtain rfl := hk.eq_nil_of_append hkey
          by_cases hr : r = [] <;> simp [insert_leaf, hr]
      · rw [lookup_extend_of_not_le hp, lookup_extend_of_not_le hp, if_neg]
        rintro rfl
        exact hp (prefix_append _ _)
    · rw [insert_extend_diverge c v hab, lookup_graft_forked hab]
      have htip := lookup_graft_leaf (p ++ b :: s') r v
      rw [lookup_graft] at htip
      rw [htip]
      by_cases hr : r = p ++ b :: s'
      · subst hr
        simp
      · split
        · next hp =>
          obtain ⟨d, rfl⟩ := hp
          rw [lookup_extend_of_not_le]
          rw [append_assoc]
          exact not_prefix_of_diverge hab
        · rfl
  | branch cs ih =>
    obtain ⟨a, key, rfl⟩ := exists_cons_of_ne_nil hkey.ne_nil
    rw [insert_branch_cons]
    cases r with
    | nil => simp
    | cons x r =>
      rw [lookup_branch_cons, lookup_branch_cons]
      by_cases hx : x = a
      · subst hx
        rw [update_self]
        simp only [cons.injEq, true_and]
        obtain ⟨rfl, rfl⟩ | ⟨hne, hends⟩ := ends_cons.1 hkey
        · obtain hempty | ⟨w, hleaf⟩ := h.2
          · rw [hempty, insert_empty, lookup_graft_leaf, lookup_empty]
          · rw [hleaf]
            by_cases hr : r = [] <;> simp [insert_leaf, hr]
        · exact ih x (h.1 x hne) hends r
      · rw [update_of_ne hx, if_neg fun hr ↦ hx (cons.inj hr).1]

/-! ## Insertion keeps trees canonical -/

theorem canonical_graft_forked (hp : stop ∉ p) (hab : a ≠ b) (ht : Below stop (Canonical stop) a t)
    (hu : Below stop (Canonical stop) b u) : (graft p (branch (forked a t b u))).Canonical stop := by
  have hbranch : (branch (forked a t b u)).Canonical stop := by
    refine canonical_branch (fun x hx ↦ ?_) ⟨a, b, hab, ?_, ?_⟩
    · rw [lookup_forked hab] at hx ⊢
      split_ifs at hx ⊢ with hb ha
      · exact hb ▸ hu
      · exact ha ▸ ht
      · exact absurd rfl hx
    · rw [lookup_forked hab, if_neg hab, if_pos rfl]
      exact ht.ne_empty
    · rw [lookup_forked hab, if_pos rfl]
      exact hu.ne_empty
  rw [graft]
  split
  · exact hbranch
  · next hne => exact .stem hne hp hbranch

theorem canonical_insert_empty (hkey : Ends stop key) (v : ν) :
    ((empty : Patricia α ν).insert key v).Canonical stop := by
  rw [insert_empty, graft, if_neg hkey.ne_nil]
  exact .tip hkey

/-- **Insertion keeps a tree canonical.** -/
theorem Canonical.insert (h : t.Canonical stop) (hkey : Ends stop key) (v : ν) :
    (t.insert key v).Canonical stop := by
  induction h generalizing key with
  | @tip k w hk =>
    obtain ⟨d, rfl⟩ | ⟨p, a, b, s, s', hab, rfl, rfl⟩ := (Canonical.tip (v := w) hk).shaped.prefix_or_diverge hkey
    · obtain rfl := hk.eq_nil_of_append hkey
      rw [insert_extend_append]
      exact .tip hk
    · rw [insert_extend_diverge _ v hab]
      exact canonical_graft_forked (ends_append_cons.1 hk).1 hab (below_graft_leaf hk w)
        (below_graft_leaf hkey v)
  | @stem k cs hne hk hcs ih =>
    have hstem := Canonical.stem hne hk hcs
    obtain ⟨d, rfl⟩ | ⟨p, a, b, s, s', hab, rfl, rfl⟩ := hstem.shaped.prefix_or_diverge hkey
    · rw [insert_extend_append]
      have hd := hkey.of_append hk
      have hins := ih hd
      obtain ⟨x, d, rfl⟩ := exists_cons_of_ne_nil hd.ne_nil
      exact .stem hne hk hins
    · rw [insert_extend_diverge _ v hab]
      exact canonical_graft_forked (ends_append_cons.1 hkey).1 hab hstem.below_graft
        (below_graft_leaf hkey v)
  | @fork cs hcs hstop htwo ih =>
    obtain ⟨a, key, rfl⟩ := exists_cons_of_ne_nil hkey.ne_nil
    have hnew : Below stop (Canonical stop) a ((cs a).insert key v) := by
      obtain ⟨rfl, rfl⟩ | ⟨hne, hends⟩ := ends_cons.1 hkey
      · refine .inl ⟨rfl, v, ?_⟩
        obtain hempty | ⟨w, hleaf⟩ := hstop
        · rw [hempty, insert_empty, graft, if_pos rfl]
        · rw [hleaf, insert_leaf, if_pos rfl]
      · refine .inr ⟨hne, ?_⟩
        by_cases hempty : cs a = empty
        · rw [hempty]
          exact canonical_insert_empty hends v
        · exact ih a hne hempty hends
    refine canonical_branch (fun x hx ↦ ?_) ?_
    · by_cases hxa : x = a
      · subst hxa
        rwa [update_self]
      · rw [update_of_ne hxa] at hx ⊢
        exact (Canonical.fork hcs hstop htwo).child hx
    · have hkeep : ∀ x, cs x ≠ empty → update cs a ((cs a).insert key v) x ≠ empty := by
        intro x hx
        by_cases hxa : x = a
        · subst hxa
          rw [update_self]
          exact hnew.ne_empty
        · rwa [update_of_ne hxa]
      obtain ⟨x, y, hxy, hx, hy⟩ := htwo
      exact ⟨x, y, hxy, hkeep x hx, hkeep y hy⟩

end Insert

end Patricia

end GoEntropy.Container
