import GoEntropy.Container.Results
import GoEntropy.Snapshot.Chain

/-!
# The clean-up after capping

`Cap` collects the registered layers under the roots of their parents, removes every stale layer
with all that lies over it in that collection, and then rebuilds filters upwards from a new disk
layer. Both recursions end if the collection has no cycle, which a function `height` from roots to
numbers witnesses: it falls from every root to its children.

`sweep_spec` describes the register afterwards, `rebloomUp_spec` the filters.
-/

namespace GoEntropy.Snapshot

open GoEntropy.Container Relation List

namespace Tree

def kids (children : HashMap (List Hash)) (root : Hash) : List Hash := (children.lookup root).getD []

/-- A root lies over another one, at any distance. -/
def Over (children : HashMap (List Hash)) : Hash → Hash → Prop :=
  ReflTransGen fun a b ↦ b ∈ kids children a

/-! ## The collection of children -/

/-- A registered layer lies directly over the root of its parent. -/
def ChildOf (heap : Heap) (e : (_ : Hash) × LayerId) (root : Hash) : Prop :=
  ∃ l parent, heap[e.2]? = some (.diff l) ∧ heap[l.parent]? = some parent ∧ parent.root = root

theorem mem_kids_addChild (heap : Heap) (m : HashMap (List Hash)) (e : (_ : Hash) × LayerId)
    (root c : Hash) :
    c ∈ kids (addChild heap m e) root ↔ c ∈ kids m root ∨ (c = e.1 ∧ ChildOf heap e root) := by
  unfold addChild
  cases hget : heap[e.2]? with
  | none => simp [ChildOf, hget]
  | some layer =>
    cases layer with
    | disk l => simp [ChildOf, hget]
    | diff l =>
      cases hparent : heap[l.parent]? with
      | none => simp [ChildOf, hget, hparent]
      | some parent =>
        simp only [kids]
        by_cases hroot : root = parent.root
        · subst hroot
          simp [ChildOf, hget, hparent]
        · simp [ChildOf, hget, hparent, hroot, Ne.symm hroot]

theorem mem_kids_children (t : Tree) (root c : Hash) :
    c ∈ kids t.children root ↔ ∃ id, t.layers.lookup c = some id ∧ ChildOf t.heap ⟨c, id⟩ root := by
  have hfold : ∀ (entries : List ((_ : Hash) × LayerId)) (m : HashMap (List Hash)),
      c ∈ kids (entries.foldl (addChild t.heap) m) root ↔
        c ∈ kids m root ∨ ∃ e ∈ entries, c = e.1 ∧ ChildOf t.heap e root := by
    intro entries
    induction entries with
    | nil => simp
    | cons e rest ih =>
      intro m
      rw [foldl_cons, ih, mem_kids_addChild]
      simp [or_assoc]
  unfold children
  rw [hfold]
  constructor
  · rintro (h | ⟨⟨r, id⟩, hmem, rfl, hchild⟩)
    · simp [kids] at h
    · exact ⟨id, mem_entries_iff.mp hmem, hchild⟩
  · rintro ⟨id, hlookup, hchild⟩
    exact .inr ⟨⟨c, id⟩, mem_entries_iff.mpr hlookup, rfl, hchild⟩

/-! ## Removing -/

/-- The state of `remove`. -/
abbrev Register := HashMap LayerId × HashMap (List Hash)

variable {orig : HashMap (List Hash)} {s s' : Register}

/-- The children that were deleted from the collection belong to roots with nothing left over
them. -/
def Pruned (orig : HashMap (List Hash)) (s : Register) : Prop :=
  ∀ root, kids s.2 root = kids orig root ∨
    (kids s.2 root = [] ∧ ∀ x, Over orig root x → s.1.lookup x = none)

/-- The register `s'` is `s` without the roots in `P`. -/
structure Removed (P : Hash → Prop) (s s' : Register) : Prop where
  gone : ∀ x, P x → s'.1.lookup x = none
  kept : ∀ x, ¬ P x → s'.1.lookup x = s.1.lookup x

theorem Removed.lookup_none {P : Hash → Prop} (h : Removed P s s') {x : Hash}
    (hx : s.1.lookup x = none) : s'.1.lookup x = none := by
  by_cases hp : P x
  · exact h.gone x hp
  · rw [h.kept x hp, hx]

theorem over_iff (root x : Hash) :
    Over orig root x ↔ x = root ∨ ∃ c ∈ kids orig root, Over orig c x := by
  unfold Over
  rw [ReflTransGen.cases_head_iff]
  exact or_congr eq_comm .rfl

variable {height : Hash → Nat}

/-- `remove` drops a root and all that lies over it. -/
theorem remove_spec (hheight : ∀ a b, b ∈ kids orig a → height b < height a) {fuel : Nat} {root : Hash}
    (hfuel : height root < fuel) (hs : Pruned orig s) :
    ∃ s', remove fuel root s = .ok s' ∧ Pruned orig s' ∧ Removed (Over orig root) s s' := by
  induction fuel generalizing root s with
  | zero => omega
  | succ fuel ih =>
    obtain ⟨layers, children⟩ := s
    -- Erasing the root leaves the collection as it is.
    have hs₁ : Pruned orig (layers.erase root, children) := by
      intro r
      refine (hs r).imp_right fun h ↦ ⟨h.1, fun x hx ↦ ?_⟩
      rw [lookup_erase_eq_ite, h.2 x hx]
      simp
    -- The children in turn; what is gone stays gone, and no step reaches beyond the root.
    obtain ⟨⟨layers₂, children₂⟩, h₂, ⟨hs₂, hkept, hnone⟩, hgone, -⟩ := foldlM_ok
      (I := fun s ↦ Pruned orig s ∧ (∀ x, ¬ Over orig root x → s.1.lookup x = layers.lookup x) ∧
        ∀ x, (layers.erase root).lookup x = none → s.1.lookup x = none)
      (fun c (hc : c ∈ kids children root) s ⟨hs', hkept, hnone⟩ ↦ by
        have hc' : c ∈ kids orig root := (hs root).elim (· ▸ hc) fun h ↦ by simp [h.1] at hc
        obtain ⟨s', h', hs', hr⟩ :=
          ih (Nat.lt_of_lt_of_le (hheight _ _ hc') (Nat.le_of_lt_succ hfuel)) hs'
        exact ⟨s', h', ⟨hs', fun x hx ↦ (hr.kept x (hx ∘ .head hc')).trans (hkept x hx),
          fun x hx ↦ hr.lookup_none (hnone x hx)⟩, hr.gone, fun _ hd x hx ↦ hr.lookup_none (hd x hx)⟩)
      ⟨hs₁, fun x hx ↦ AList.lookup_erase_ne fun h ↦ hx (h ▸ .refl), fun _ h ↦ h⟩
    have hr : Removed (Over orig root) (layers, children) (layers₂, children₂) := by
      refine ⟨fun x hx ↦ ?_, hkept⟩
      rcases hs root with hkids | hkids
      · rcases (over_iff root x).mp hx with rfl | ⟨c, hc, hover⟩
        · exact hnone x (AList.lookup_erase x layers)
        · exact hgone c (hkids ▸ hc) x hover
      · -- The root was removed before, and everything over it with it.
        exact hnone x (by rw [lookup_erase_eq_ite, hkids.2 x hx, ite_self])
    refine ⟨(layers₂, children₂.erase root), ?_, ?_, ⟨hr.gone, hr.kept⟩⟩
    · exact bind_eq_ok.2 ⟨_, h₂, rfl⟩
    · intro r
      by_cases hroot : r = root
      · subst hroot
        exact .inr ⟨by simp [kids], hr.gone⟩
      · have hkids : kids (children₂.erase root) r = kids children₂ r := by
          unfold kids
          rw [AList.lookup_erase_ne hroot]
        rw [hkids]
        exact hs₂ r

/-- What the sweep removes: whatever lies over a stale layer. -/
def Doomed (heap : Heap) (layers : HashMap LayerId) (orig : HashMap (List Hash)) (x : Hash) : Prop :=
  ∃ root id, layers.lookup root = some id ∧ isStale heap id = true ∧ Over orig root x

variable {layers : HashMap LayerId}

theorem sweep_spec {heap : Heap} (hheight : ∀ a b, b ∈ kids orig a → height b < height a)
    (hbound : ∀ root id, layers.lookup root = some id → height root < heap.length) :
    ∃ s', sweep heap layers.entries (layers, orig) = .ok s' ∧ Pruned orig s' ∧
      Removed (Doomed heap layers orig) (layers, orig) s' := by
  -- The loop invariant: what is gone so far is doomed, and closed upwards, so that an entry that is
  -- gone has nothing left over it.
  obtain ⟨s', h, ⟨hs, hkept, -⟩, hgone, -⟩ := foldlM_ok (s := (layers, orig))
    (f := fun (s : Register) (e : (_ : Hash) × LayerId) ↦
      if e.1 ∈ s.1 ∧ isStale heap e.2 then remove heap.length e.1 s else .ok s)
    (I := fun s ↦ Pruned orig s ∧ (∀ x, ¬ Doomed heap layers orig x → s.1.lookup x = layers.lookup x) ∧
      ∀ x y, x ∈ layers → s.1.lookup x = none → Over orig x y → s.1.lookup y = none)
    (D := fun e s ↦ isStale heap e.2 = true → ∀ x, Over orig e.1 x → s.1.lookup x = none)
    (fun e (he : e ∈ layers.entries) s ⟨hs, hkept, hclosed⟩ ↦ by
      have hlookup : layers.lookup e.1 = some e.2 := mem_entries_iff.mp he
      by_cases hif : e.1 ∈ s.1 ∧ isStale heap e.2 = true
      · obtain ⟨s', h', hs', hr⟩ := remove_spec hheight (hbound _ _ hlookup) hs
        rw [if_pos hif]
        refine ⟨s', h', ⟨hs', fun x hx ↦ ?_, fun x y hx hnone hxy ↦ ?_⟩, fun _ ↦ hr.gone,
          fun _ hd hstale x hx ↦ hr.lookup_none (hd hstale x hx)⟩
        · rw [hr.kept x fun hover ↦ hx ⟨_, _, hlookup, hif.2, hover⟩, hkept x hx]
        · by_cases hover : Over orig e.1 x
          · exact hr.gone y (hover.trans hxy)
          · exact hr.lookup_none (hclosed x y hx (hr.kept x hover ▸ hnone) hxy)
      · rw [if_neg hif]
        refine ⟨s, rfl, ⟨hs, hkept, hclosed⟩, fun hstale x ↦ ?_, fun _ h ↦ h⟩
        exact hclosed e.1 x (AList.lookup_isSome.mp (hlookup ▸ rfl))
          (AList.lookup_eq_none.mpr fun hmem ↦ hif ⟨hmem, hstale⟩))
    ⟨fun _ ↦ .inl rfl, fun _ _ ↦ rfl, fun _ _ hx hnone ↦ absurd hx (AList.lookup_eq_none.mp hnone)⟩
  refine ⟨s', h, hs, ⟨?_, hkept⟩⟩
  rintro x ⟨root, id, hlookup, hstale, hover⟩
  exact hgone ⟨root, id⟩ (mem_entries_iff.mpr hlookup) hstale x hover

/-! ## Rebuilding the filters -/

/-- Two heaps that differ in the filters and origins of diff layers only. -/
def SameLayers (heap heap' : Heap) : Prop :=
  ∀ i : LayerId, heap'[i]? = heap[i]? ∨
    ∃ (l : DiffLayer) (origin : LayerId) (diffed : List (BitVec 64)),
      heap[i]? = some (.diff l) ∧ heap'[i]? = some (.diff { l with origin, diffed })

variable {F : BloomFilter} {heap heap' heap'' : Heap} {base id : LayerId} {dls : List DiffLayer}

theorem SameLayers.refl (heap : Heap) : SameLayers heap heap := fun _ ↦ .inl rfl

theorem SameLayers.set {l : DiffLayer} (hget : heap[id]? = some (.diff l)) (origin : LayerId)
    (diffed : List (BitVec 64)) : SameLayers heap (heap.set id (.diff { l with origin, diffed })) := by
  intro i
  by_cases hi : id = i
  · subst hi
    exact .inr ⟨l, origin, diffed, hget, getElem?_set_self (lt_of_get hget)⟩
  · exact .inl (getElem?_set_ne hi)

section

variable (h : SameLayers heap heap')

include h

theorem SameLayers.symm : SameLayers heap' heap := by
  intro i
  rcases h i with h | ⟨l, origin, diffed, hl, hl'⟩
  · exact .inl h.symm
  · exact .inr ⟨_, l.origin, l.diffed, hl', hl⟩

theorem SameLayers.trans (h' : SameLayers heap' heap'') :
    SameLayers heap heap'' := by
  intro i
  rcases h' i with h₂ | ⟨l₂, o₂, d₂, hl₂, hl₂'⟩
  · rw [h₂]
    exact h i
  · rcases h i with h₁ | ⟨l₁, o₁, d₁, hl₁, hl₁'⟩
    · exact .inr ⟨l₂, o₂, d₂, h₁ ▸ hl₂, hl₂'⟩
    · cases hl₁'.symm.trans hl₂
      exact .inr ⟨l₁, o₂, d₂, hl₁, hl₂'⟩

theorem SameLayers.diff {l : DiffLayer} (hl : heap[id]? = some (.diff l)) :
    ∃ origin diffed, heap'[id]? = some (.diff { l with origin, diffed }) := by
  rcases h id with h | ⟨l', origin, diffed, hl', h⟩
  · exact ⟨l.origin, l.diffed, h.trans hl⟩
  · cases hl.symm.trans hl'
    exact ⟨origin, diffed, h⟩

theorem SameLayers.disk {l : DiskLayer}
    (hl : heap[id]? = some (.disk l)) : heap'[id]? = some (.disk l) := by
  rcases h id with h | ⟨l', origin, diffed, hl', h⟩
  · exact h.trans hl
  · simp [hl] at hl'

theorem SameLayers.root {l : Layer} (hl : heap[id]? = some l) :
    ∃ l', heap'[id]? = some l' ∧ l'.root = l.root := by
  rcases h id with h | ⟨l', origin, diffed, hl', h⟩
  · exact ⟨l, h.trans hl, rfl⟩
  · cases hl.symm.trans hl'
    exact ⟨_, h, rfl⟩

/-- The maps of the layers of a chain do not depend on filters. -/
theorem SameLayers.chain (hchain : Chain heap base id dls) :
    ∃ dls', Chain heap' base id dls' ∧
      dls'.map DiffLayer.toDiffData = dls.map DiffLayer.toDiffData := by
  induction hchain with
  | disk hget hlive => exact ⟨[], .disk (h.disk hget) hlive, rfl⟩
  | diff hget hlive _ ih =>
    obtain ⟨rest', hrest', hmap⟩ := ih
    obtain ⟨origin, diffed, hget'⟩ := h.diff hget
    exact ⟨_ :: rest', .diff hget' hlive hrest', by rw [map_cons, map_cons, hmap]⟩

end

/-- The diff layer has the disk layer as its origin, and a filter that covers its chain. -/
def Filtered (F : BloomFilter) (heap : Heap) (base id : LayerId) : Prop :=
  ∃ l dls, heap[id]? = some (.diff l) ∧ Chain heap base id dls ∧ l.origin = base ∧ Covers F l dls

theorem covers_congr {l : DiffLayer} {dls' : List DiffLayer} (h : Covers F l dls)
    (hmap : dls'.map DiffLayer.toDiffData = dls.map DiffLayer.toDiffData) : Covers F l dls' := by
  intro dl hdl
  have hmem := mem_map_of_mem (f := DiffLayer.toDiffData) hdl
  rw [hmap] at hmem
  obtain ⟨dl₀, hdl₀, heq⟩ := mem_map.mp hmem
  rw [← heq]
  exact h dl₀ hdl₀

/-- Rebuilding the filter of a layer whose parent is the disk layer or filtered. -/
theorem rebloom_filtered {l : DiffLayer} {rest : List DiffLayer} (hget : heap[id]? = some (.diff l))
    (hlive : l.stale = false) (hrest : Chain heap base l.parent rest)
    (hparent : rest = [] ∨ Filtered F heap base l.parent) :
    SameLayers heap (heap.set id (.diff (rebloom F heap l base))) ∧
      Filtered F (heap.set id (.diff (rebloom F heap l base))) base id ∧
        ∀ j, Filtered F heap base j →
          Filtered F (heap.set id (.diff (rebloom F heap l base))) base j := by
  have hself : (heap.set id (.diff (rebloom F heap l base)))[id]? =
      some (.diff (rebloom F heap l base)) := getElem?_set_self (lt_of_get hget)
  have hsame : SameLayers heap (heap.set id (.diff (rebloom F heap l base))) := .set hget _ _
  have hfiltered : Filtered F (heap.set id (.diff (rebloom F heap l base))) base id := by
    obtain ⟨dls', hchain', hmap⟩ := hsame.chain (.diff hget hlive hrest)
    refine ⟨_, dls', hself, hchain', rfl, covers_congr ?_ hmap⟩
    intro dl hdl
    rcases mem_cons.mp hdl with rfl | hdl
    · exact subset_append_left _ _
    · rcases hparent with rfl | ⟨lp, dlsp, hgetp, hchainp, -, hcovers⟩
      · simp at hdl
      · have hbelow : dl.bloomKeys F ⊆ lp.diffed := hcovers dl (hrest.unique hchainp ▸ hdl)
        refine List.Subset.trans hbelow ?_
        simp only [rebloom, hgetp]
        exact subset_append_right _ _
  refine ⟨hsame, hfiltered, fun j hj ↦ ?_⟩
  by_cases hid : id = j
  · exact hid ▸ hfiltered
  · obtain ⟨lj, dlsj, hgetj, hchainj, horigin, hcovers⟩ := hj
    obtain ⟨dls', hchain', hmap⟩ := hsame.chain hchainj
    exact ⟨lj, dls', (getElem?_set_ne hid).trans hgetj, hchain', horigin,
      covers_congr hcovers hmap⟩

/-- The parent of a registered diff layer is the disk layer or filtered. -/
def ParentReady (F : BloomFilter) (heap : Heap) (base id : LayerId) : Prop :=
  ∀ l, heap[id]? = some (.diff l) → l.parent = base ∨ Filtered F heap base l.parent

/-- The register and the collection of children agree with the pointers: a layer over a root points
to the layer registered under it. -/
def Wired (heap : Heap) (layers : HashMap LayerId) (children : HashMap (List Hash)) : Prop :=
  ∀ root c id l, c ∈ kids children root → layers.lookup c = some id →
    heap[id]? = some (.diff l) → layers.lookup root = some l.parent

/-- One visit: the layer under a root, if it is a diff layer, ends up filtered. -/
theorem rebloomAt_spec {heap₀ : Heap} {root : Hash} (hsame : SameLayers heap₀ heap)
    (hchain : ∀ id, layers.lookup root = some id → ∃ dls, Chain heap₀ base id dls)
    (hready : ∀ id, layers.lookup root = some id → ParentReady F heap base id) :
    SameLayers heap₀ (rebloomAt F layers base heap root) ∧
      (∀ j, Filtered F heap base j → Filtered F (rebloomAt F layers base heap root) base j) ∧
        ∀ id l, layers.lookup root = some id → heap₀[id]? = some (.diff l) →
          Filtered F (rebloomAt F layers base heap root) base id := by
  unfold rebloomAt
  cases hlookup : layers.lookup root with
  | none => exact ⟨hsame, fun _ h ↦ h, by simp⟩
  | some id =>
    obtain ⟨dls₀, hchain₀⟩ := hchain id hlookup
    obtain ⟨dls, hdls, -⟩ := hsame.chain hchain₀
    simp only [Option.some.injEq]
    cases hget : heap[id]? with
    | none => exact absurd hdls.lt_length (by simpa using getElem?_eq_none_iff.mp hget)
    | some layer =>
      cases layer with
      | disk l =>
        refine ⟨hsame, fun _ h ↦ h, ?_⟩
        rintro _ l' rfl hl'
        obtain ⟨_, _, h⟩ := hsame.diff hl'
        simp [hget] at h
      | diff l =>
        obtain ⟨rest, -, hlive, hrest⟩ := hdls.of_diff hget
        have hparent : rest = [] ∨ Filtered F heap base l.parent := by
          refine (hready id hlookup l hget).imp_left fun hbase ↦ ?_
          obtain ⟨disk, hdisk, -⟩ := hrest.base_disk
          rw [hbase] at hrest
          exact (hrest.of_disk hdisk).2.1
        obtain ⟨hset, hfiltered, hkeep⟩ := rebloom_filtered hget hlive hrest hparent
        exact ⟨hsame.trans hset, hkeep, fun _ _ hid _ ↦ hid ▸ hfiltered⟩

/-- Rebuilding upwards from a root filters every registered layer over it. -/
theorem rebloomUp_spec {heap₀ : Heap} {children : HashMap (List Hash)}
    (hheight : ∀ a b, b ∈ kids children a → height b < height a)
    (hchain : ∀ root id, layers.lookup root = some id → ∃ dls, Chain heap₀ base id dls)
    (hwired : Wired heap₀ layers children) {fuel : Nat} {root : Hash} (hfuel : height root < fuel)
    (hsame : SameLayers heap₀ heap)
    (hready : ∀ id, layers.lookup root = some id → ParentReady F heap base id) :
    ∃ heap', rebloomUp F layers children base fuel root heap = .ok heap' ∧ SameLayers heap₀ heap' ∧
      (∀ j, Filtered F heap base j → Filtered F heap' base j) ∧
        ∀ x id l, Over children root x → layers.lookup x = some id → heap₀[id]? = some (.diff l) →
          Filtered F heap' base id := by
  induction fuel generalizing root heap with
  | zero => omega
  | succ fuel ih =>
    obtain ⟨hsame₁, hkeep₁, hself₁⟩ := rebloomAt_spec hsame (hchain root) hready
    set heap₁ := rebloomAt F layers base heap root with hheap₁
    -- The children in turn; each finds its parent filtered, or is over the disk layer.
    obtain ⟨heap', h', ⟨hsame', hkeep'⟩, hself', -⟩ := foldlM_ok
      (I := fun heap ↦ SameLayers heap₀ heap ∧ ∀ j, Filtered F heap₁ base j → Filtered F heap base j)
      (D := fun c heap ↦ ∀ x id l, Over children c x → layers.lookup x = some id →
        heap₀[id]? = some (.diff l) → Filtered F heap base id)
      (fun c (hc : c ∈ kids children root) heap ⟨hsame, hkeep⟩ ↦ by
        have hready' : ∀ id, layers.lookup c = some id → ParentReady F heap base id := by
          intro id hid l hl
          obtain ⟨o, d, hl₀⟩ := hsame.symm.diff hl
          have hparent := hwired root c id _ hc hid hl₀
          obtain ⟨dls, hdls⟩ := hchain root _ hparent
          cases hdls with
          | disk => exact .inl rfl
          | diff hget => exact .inr (hkeep _ (hself₁ _ _ hparent hget))
        obtain ⟨heap₂, h₂, hsame₂, hkeep₂, hself₂⟩ :=
          ih (Nat.lt_of_lt_of_le (hheight _ _ hc) (Nat.le_of_lt_succ hfuel)) hsame hready'
        exact ⟨heap₂, h₂, ⟨hsame₂, fun j hj ↦ hkeep₂ j (hkeep j hj)⟩, hself₂,
          fun _ hd x id l hover hid hl ↦ hkeep₂ _ (hd x id l hover hid hl)⟩)
      ⟨hsame₁, fun _ h ↦ h⟩
    refine ⟨heap', h', hsame', fun j hj ↦ hkeep' j (hkeep₁ j hj), fun x id l hover hid hl ↦ ?_⟩
    rcases (over_iff root x).mp hover with rfl | ⟨c, hc, hover⟩
    · exact hkeep' _ (hself₁ id l hid hl)
    · exact hself' c hc x id l hover hid hl

/-- Whatever the pointers are, rebuilding ends and changes filters only. -/
theorem rebloomUp_total {children : HashMap (List Hash)}
    (hheight : ∀ a b, b ∈ kids children a → height b < height a)
    {fuel : Nat} {root : Hash} (hfuel : height root < fuel) (heap : Heap) :
    ∃ heap', rebloomUp F layers children base fuel root heap = .ok heap' ∧ SameLayers heap heap' := by
  induction fuel generalizing root heap with
  | zero => omega
  | succ fuel ih =>
    have hat : SameLayers heap (rebloomAt F layers base heap root) := by
      unfold rebloomAt
      cases layers.lookup root with
      | none => exact .refl heap
      | some id =>
        simp only
        split
        · next l hget => exact .set hget _ _
        · exact .refl heap
    obtain ⟨heap', h', hsame', -⟩ := foldlM_ok
      (fun c (hc : c ∈ kids children root) heap₁ hsame₁ ↦ by
        obtain ⟨heap₂, h₂, hsame₂⟩ :=
          ih (Nat.lt_of_lt_of_le (hheight _ _ hc) (Nat.le_of_lt_succ hfuel)) heap₁
        exact ⟨heap₂, h₂, hsame₁.trans hsame₂, trivial, fun _ h ↦ h⟩) hat
    exact ⟨heap', h', hsame'⟩

end Tree

end GoEntropy.Snapshot
