import GoEntropy.Snapshot.Capping

/-!
# The calls that change a tree

`capBelow` is shown to rewire a healthy tree in the sense of `Rewired`, in its two stages: the parent
of the layer at the cut gives way to its flattening, and that, if it overflows, to a new disk layer.
With the lemmas on what stays this settles one call of `Cap` (`cap_spec`) and of `Update`
(`update_spec`).
-/

namespace GoEntropy.Snapshot

open GoEntropy.Container Relation List

namespace Tree

variable {F : BloomFilter} {t t₁ t₂ : Tree} {base base' cut n : LayerId} {ld lp : DiffLayer}
  {rest : List DiffLayer}

/-! ## Flattening the parent -/

/-- The heap after the parent of the layer at the cut was flattened. -/
structure Shifted (t : Tree) (heap₁ : Heap) (base f : LayerId) (ld : DiffLayer)
    (rest : List DiffLayer) : Prop where
  length : t.heap.length ≤ heap₁.length
  old : ∀ (i : LayerId) (l : Layer), t.heap[i]? = some l →
    ∃ l' : Layer, heap₁[i]? = some l' ∧ l'.root = l.root ∧ l'.below = l.below ∧
      (l' = l ∨ l'.stale = true)
  low : ∀ (i : LayerId) dls, Chain t.heap base i dls → isStale heap₁ i = true →
    dls.length ≤ rest.length ∧ dls ≠ []
  new : f = ld.parent ∨ t.heap.length ≤ f

theorem Chain.isStale_eq_false {heap : Heap} {id : LayerId} {dls : List DiffLayer}
    (h : Chain heap base id dls) : isStale heap id = false := by
  cases h with
  | disk hget hlive | diff hget hlive => rw [isStale_eq hget, Layer.stale, hlive]

variable {heap₁ : Heap} {f : LayerId}

theorem Cut.shifted (hc : Cut F t base cut ld lp rest)
    (hmoved : Moved t.heap heap₁ ld.parent f rest) : Shifted t heap₁ base f ld rest := by
  cases hmoved with
  | stay hid hheap =>
    subst hheap
    refine ⟨le_rfl, fun i l hl ↦ ⟨l, hl, rfl, rfl, .inl rfl⟩, fun i dls hdls hstale ↦ ?_, .inl hid⟩
    simp [Chain.isStale_eq_false hdls] at hstale
  | @merge _ hrest hfresh hlength b bl bl' hget hget' hstale hroot hparent hother hbelow =>
    refine ⟨hlength, fun i l hl ↦ ?_, fun i dls hdls hi ↦ ?_, .inr hfresh⟩
    · by_cases hib : i = b
      · subst hib
        cases hl.symm.trans hget
        exact ⟨.diff bl', hget', hroot, congrArg some hparent, .inr hstale⟩
      · refine ⟨l, ?_, rfl, rfl, .inl rfl⟩
        exact (hother i (lt_of_get hl) hib).trans hl
    · by_cases hib : i = b
      · subst hib
        -- The bottom layer lies under the parent of the parent.
        obtain ⟨dls', hdls', hle⟩ := hbelow
          (fun i ↦ ∃ dls, Chain t.heap base i dls ∧ dls.length ≤ rest.length)
          (fun i l ⟨dls, hdls, hle⟩ hl ↦ by
            obtain ⟨below, rfl, -, hbelow⟩ := hdls.of_diff hl
            exact ⟨below, hbelow, by simp at hle; omega⟩)
          (fun l hl ↦ by
            cases hl.symm.trans hc.parent_chain.head.1
            exact ⟨rest, hc.parent_chain.head.2.2, le_rfl⟩)
        rw [hdls.unique hdls']
        refine ⟨hle, ?_⟩
        rintro rfl
        cases hdls' with
        | disk h => simp [hget] at h
      · rw [isStale, hother i hdls.lt_length hib] at hi
        have := Chain.isStale_eq_false hdls
        rw [isStale] at this
        simp [this] at hi

/-- The tree after the flattened parent was registered and linked. -/
def linkFlat (t : Tree) (heap₁ : Heap) (cut f : LayerId) (ld lp : DiffLayer) : Tree where
  heap := heap₁.set cut (.diff { ld with parent := f })
  disk := t.disk
  layers := t.layers.insert lp.root f

theorem Cut.cut_ne_parent (hc : Cut F t base cut ld lp rest) : cut ≠ ld.parent := by
  intro heq
  have h := hc.parent_chain
  rw [← heq] at h
  simpa using congrArg length (hc.chain.unique h)

theorem Cut.cut_ne_base (hc : Cut F t base cut ld lp rest) : cut ≠ base := by
  rintro rfl
  obtain ⟨disk, hdisk, -⟩ := hc.chain.base_disk
  have hget := hc.chain.head.1
  simp [hdisk] at hget

variable {fl : DiffLayer}

/-- The first stage rewires the cut to the flattened parent. -/
theorem Cut.rewired_flat (hc : Cut F t base cut ld lp rest)
    (hfl : Flattening F t.heap heap₁ base ld.parent f lp rest fl)
    (hs : Shifted t heap₁ base f ld rest) :
    Rewired F t (linkFlat t heap₁ cut f ld lp) base cut f ld lp rest := by
  have hcut : cut < t.heap.length := hc.chain.lt_length
  have hfne : cut ≠ f := by
    rcases hs.new with h | h
    · exact h ▸ hc.cut_ne_parent
    · exact Nat.ne_of_lt (Nat.lt_of_lt_of_le hcut h)
  have hne : ∀ i : LayerId, i ≠ cut → (linkFlat t heap₁ cut f ld lp).heap[i]? = heap₁[i]? :=
    fun i hi ↦ getElem?_set_ne (.symm hi)
  have hstale : ∀ i : LayerId, i ≠ cut →
      isStale (linkFlat t heap₁ cut f ld lp).heap i = isStale heap₁ i := by
    intro i hi
    rw [isStale, isStale, hne i hi]
  refine ⟨hc, ?_, ?_, ?_, ⟨.diff fl, ?_, hfl.root, hfl.live, ?_⟩, ?_, ?_, ?_⟩
  · show t.heap.length ≤ (heap₁.set cut _).length
    rw [length_set]
    exact hs.length
  · intro root
    exact lookup_insert_eq_ite t.layers lp.root root f
  · exact getElem?_set_self (Nat.lt_of_lt_of_le hcut hs.length)
  · rw [hne f (.symm hfne)]
    exact hfl.get
  · intro q hq
    refine ⟨(Option.some.inj hq).symm.trans hfl.parent, ?_⟩
    rw [hstale base (.symm hc.cut_ne_base)]
    by_contra h
    obtain ⟨disk, hdisk, hlive⟩ := hc.chain.base_disk
    exact (hs.low base [] (.disk hdisk hlive) (by simpa using h)).2 rfl
  · intro root hroot
    rcases hs.new with h | h
    · rw [h] at hroot
      exact hc.healthy.inj hroot hc.parent_lookup
    · obtain ⟨dls, hdls⟩ := hc.healthy.chain root f hroot
      exact absurd hdls.lt_length (Nat.not_lt.mpr h)
  · intro i l hl hi
    rw [hne i hi]
    exact hs.old i l hl
  · intro i dls hdls hi hst
    rw [hstale i hi] at hst
    exact (hs.low i dls hdls hst).1

/-! ## Persisting the flattened parent -/

/-- The disk layer that `diffToDisk` creates. -/
def newBase (disk : DiskLayer) (root : Hash) : DiskLayer where
  root
  stale := false
  genMarker := disk.genMarker
  genAbort := disk.genMarker.isSome && disk.genAbort

/-- The heap with the new disk layer, and the old one stale. -/
def diskHeap (t₁ : Tree) (disk : DiskLayer) (base : LayerId) (root : Hash) : Heap :=
  t₁.heap.set base (.disk { disk with stale := true }) ++ [.disk (newBase disk root)]

variable {disk : DiskLayer}

theorem diffToDisk_eq (hfl : t₁.heap[f]? = some (.diff fl)) (hparent : fl.parent = base)
    (hdisk : t₁.heap[base]? = some (.disk disk)) (hlive : disk.stale = false) :
    t₁.diffToDisk f = .ok (t₁.heap.length, { t₁ with
      heap := diskHeap t₁ disk base fl.root
      disk := disk.persist fl.toDiffData t₁.disk }) := by
  unfold diffToDisk
  simp only [hfl, hparent, hdisk, hlive]
  rfl

/-- The tree after the new disk layer was registered and linked. -/
def linkDisk (t₁ : Tree) (disk : DiskLayer) (base cut : LayerId) (ld fl : DiffLayer) : Tree where
  heap := (diskHeap t₁ disk base fl.root).set cut (.diff { ld with parent := t₁.heap.length })
  disk := disk.persist fl.toDiffData t₁.disk
  layers := t₁.layers.insert fl.root t₁.heap.length

/-- The second stage rewires the cut to the new disk layer. -/
theorem Rewired.linkDisk (hw : Rewired F t t₁ base cut f ld lp rest) (hfl : t₁.heap[f]? = some (.diff fl))
    (hdisk : t.heap[base]? = some (.disk disk)) :
    Rewired F t (linkDisk t₁ disk base cut ld fl) base cut t₁.heap.length ld lp rest ∧
      isStale (Tree.linkDisk t₁ disk base cut ld fl).heap base = true ∧
        (Tree.linkDisk t₁ disk base cut ld fl).heap[t₁.heap.length]? =
          some (.disk (newBase disk fl.root)) := by
  have hheap₂ : (diskHeap t₁ disk base fl.root).length = t₁.heap.length + 1 := by simp [diskHeap]
  have hroot : fl.root = lp.root := by
    obtain ⟨lb, hlb, hlbroot, -⟩ := hw.bottom
    cases hfl.symm.trans hlb
    exact hlbroot
  have hbase : base < t₁.heap.length :=
    Nat.lt_of_lt_of_le (lt_of_get hdisk) hw.length
  have hcut : cut < t₁.heap.length := Nat.lt_of_lt_of_le hw.chain.lt_length hw.length
  have hcutbase := hw.toCut.cut_ne_base
  have hne : ∀ i : LayerId, i ≠ cut → i ≠ base → i < t₁.heap.length →
      (Tree.linkDisk t₁ disk base cut ld fl).heap[i]? = t₁.heap[i]? := by
    intro i hi hib hlt
    show ((diskHeap t₁ disk base fl.root).set cut _)[i]? = _
    rw [getElem?_set_ne (.symm hi), diskHeap, getElem?_append_left (by simpa using hlt),
      getElem?_set_ne (.symm hib)]
  have hgetbase : (Tree.linkDisk t₁ disk base cut ld fl).heap[base]? =
      some (.disk { disk with stale := true }) := by
    show ((diskHeap t₁ disk base fl.root).set cut _)[base]? = _
    rw [getElem?_set_ne hcutbase, diskHeap, getElem?_append_left (by simpa using hbase),
      getElem?_set_self hbase]
  have hgetnew : (Tree.linkDisk t₁ disk base cut ld fl).heap[t₁.heap.length]? =
      some (.disk (newBase disk fl.root)) := by
    show ((diskHeap t₁ disk base fl.root).set cut _)[t₁.heap.length]? = _
    rw [getElem?_set_ne (Nat.ne_of_lt hcut), diskHeap]
    simp
  have hstale : isStale (Tree.linkDisk t₁ disk base cut ld fl).heap base = true := by
    rw [isStale_eq hgetbase]
    rfl
  refine ⟨⟨hw.toCut, ?_, ?_, ?_, ⟨_, hgetnew, hroot, rfl, ?_⟩, ?_, ?_, ?_⟩, hstale, hgetnew⟩
  · show t.heap.length ≤ ((diskHeap t₁ disk base fl.root).set cut _).length
    rw [length_set, hheap₂]
    exact Nat.le_succ_of_le hw.length
  · intro root
    show (t₁.layers.insert fl.root t₁.heap.length).lookup root = _
    rw [lookup_insert_eq_ite, hroot, hw.lookup]
    split <;> rfl
  · refine getElem?_set_self ?_
    rw [hheap₂]
    exact Nat.lt_succ_of_lt hcut
  · intro q hq
    simp [Layer.below] at hq
  · intro root hr
    obtain ⟨dls, hdls⟩ := hw.healthy.chain root _ hr
    exact absurd (Nat.lt_of_lt_of_le hdls.lt_length hw.length) (Nat.lt_irrefl _)
  · intro i l hl hi
    by_cases hib : i = base
    · subst hib
      cases hl.symm.trans hdisk
      exact ⟨_, hgetbase, rfl, rfl, .inr rfl⟩
    · obtain ⟨l', hl', h⟩ := hw.old i l hl hi
      refine ⟨l', ?_, h⟩
      rw [hne i hi hib (lt_of_get hl')]
      exact hl'
  · intro i dls hdls hi hst
    by_cases hib : i = base
    · subst hib
      rw [(hdls.of_disk hdisk).2.1]
      simp
    · have hlt := Nat.lt_of_lt_of_le hdls.lt_length hw.length
      rw [isStale, hne i hi hib hlt] at hst
      exact hw.low i dls hdls hi hst

/-- If a layer under the cut has gone stale, the old parent has no chain any more. -/
theorem Rewired.dead (hw : Rewired F t t₂ base cut n ld lp rest) {j : LayerId}
    (hstale : isStale t₂.heap j = true)
    (hreach : ∀ P : LayerId → Prop, (∀ i l, P i → t.heap[i]? = some (.diff l) → P l.parent) →
      P ld.parent → P j) (b : LayerId) (dls : List DiffLayer) :
    ¬ Chain t₂.heap b ld.parent dls := by
  intro hchain
  -- Both chains go down together, as long as the old one avoids the layer at the cut.
  obtain ⟨-, dls', hdls'⟩ := hreach
    (fun i ↦ (∃ dls₀, Chain t.heap base i dls₀ ∧ dls₀.length ≤ rest.length + 1) ∧
      ∃ dls, Chain t₂.heap b i dls)
    (fun i l ⟨⟨dls₀, hdls₀, hle⟩, dls, hdls⟩ hl ↦ by
      obtain ⟨below, rfl, -, hbelow⟩ := hdls₀.of_diff hl
      have hne : i ≠ cut := by
        rintro rfl
        rw [hdls₀.unique hw.chain] at hle
        simp only [length_cons] at hle
        omega
      obtain ⟨l', hl', -, hb, -⟩ := hw.old i _ hl hne
      cases l' with
      | disk l' => simp [Layer.below] at hb
      | diff l' =>
        have hp : l'.parent = l.parent := Option.some.inj hb
        obtain ⟨below', -, -, hbelow'⟩ := hdls.of_diff hl'
        rw [hp] at hbelow'
        refine ⟨⟨below, hbelow, ?_⟩, below', hbelow'⟩
        rw [length_cons] at hle
        omega)
    ⟨⟨lp :: rest, hw.parent_chain, by simp⟩, dls, hchain⟩
  simp [Chain.isStale_eq_false hdls'] at hstale

/-! ## One round below the cut -/

/-- Whether capping replaces a layer that lies under the cut: it does unless the layer lies on disk
already and does not overflow. -/
def rewrites (t : Tree) (l : DiffLayer) : Bool :=
  match t.heap[l.parent]? with
  | some (.diff _) => true
  | some (.disk base) => !decide (l.memory < aggregatorMemoryLimit) || base.genAbort
  | none => false

/-- The outcome of `capBelow`. -/
structure Capped (F : BloomFilter) (t t₂ : Tree) (base base' cut n : LayerId) (ld lp : DiffLayer)
    (rest : List DiffLayer) (persisted : Option LayerId) : Prop
    extends Rewired F t t₂ base cut n ld lp rest where
  settled : Settled t t₂ base n base' persisted
  grounded : Rewired.Grounded F t t₂ base base' n (lp :: rest)
  filter : ∀ fl, t₂.heap[n]? = some (.diff fl) →
    fl.origin = base ∧ chainKeys F (lp :: rest) ⊆ fl.diffed
  dead : t.rewrites lp = true → ∀ b dls, ¬ Chain t₂.heap b ld.parent dls
  stays : t.rewrites lp = false → n = ld.parent

theorem overflows_eq {heap : Heap} {l : DiffLayer} (hdisk : heap[l.parent]? = some (.disk disk)) :
    overflows heap l = .ok (!decide (l.memory < aggregatorMemoryLimit) || disk.genAbort) := by
  unfold overflows
  by_cases h : l.memory < aggregatorMemoryLimit
  · simp [h, hdisk]
  · simp [h]

theorem Cut.filter_flat (hc : Cut F t base cut ld lp rest)
    (hfl : Flattening F t.heap heap₁ base ld.parent f lp rest fl) :
    fl.origin = base ∧ chainKeys F (lp :: rest) ⊆ fl.diffed := by
  have hreg : ∀ (id : LayerId) (dls : List DiffLayer), Chain t.heap base id dls →
      (∃ root, t.layers.lookup root = some id) → ∀ dl ∈ dls, dl.origin = base := by
    intro id dls hdls
    induction hdls with
    | disk => simp
    | @diff id l below hget hlive hbelow ih =>
      rintro ⟨root, hid⟩ dl hdl
      rcases mem_cons.mp hdl with rfl | hdl
      · exact (hc.healthy.covers hid hget (.diff hget hlive hbelow)).1
      · exact ih (hc.healthy.closed root id l hid hget) dl hdl
  obtain ⟨dl, hdl, horigin⟩ := hfl.origin
  refine ⟨horigin.trans (hreg _ _ hc.parent_chain ⟨_, hc.parent_lookup⟩ dl hdl), ?_⟩
  rw [hfl.diffed]
  exact covers_iff.mp (hc.healthy.covers hc.parent_lookup hc.parent_chain.head.1 hc.parent_chain).2

/-- The layer that capping leaves alone lies on disk already and does not overflow. -/
theorem Cut.rewrites_eq (hc : Cut F t base cut ld lp rest) (hdisk : t.heap[base]? = some (.disk disk))
    (hfl : Flattening F t.heap heap₁ base ld.parent f lp rest fl)
    (hmoved : Moved t.heap heap₁ ld.parent f rest) :
    (rest = [] ∧ f = ld.parent ∧
        t.rewrites lp = (!decide (fl.memory < aggregatorMemoryLimit) || disk.genAbort)) ∨
      t.rewrites lp = true ∧ ∃ b bl, heap₁[b]? = some (.diff bl) ∧ bl.stale = true ∧
        b < t.heap.length ∧
          ∀ P : LayerId → Prop, (∀ i l, P i → t.heap[i]? = some (.diff l) → P l.parent) →
            P ld.parent → P b := by
  obtain ⟨hget, -, hrest⟩ := hc.parent_chain.head
  cases hmoved with
  | stay hid hheap =>
    subst hheap
    have heq : fl = lp := by
      have h := hfl.get
      rw [hid, hget] at h
      cases h
      rfl
    refine .inl ⟨rfl, hid, ?_⟩
    rw [rewrites, ← heq, hfl.parent, hdisk]
  | @merge _ hne hfresh hlength b bl bl' hb hb' hstale hroot hparent hother hbelow =>
    refine .inr ⟨?_, b, bl', hb', hstale, (lt_of_get hb), fun P hclosed hP ↦ ?_⟩
    · cases hrest with
      | disk => exact absurd rfl hne
      | diff hget' => rw [rewrites, hget']
    · exact hbelow P hclosed fun l ↦ hclosed _ l hP

/-- The chain of the flattened parent stands for that of the parent. -/
theorem Flattening.stands {f id : LayerId}
    (hfl : Flattening F t.heap heap₁ base id f lp rest fl) (hdisk : t₁.disk = t.disk) :
    Stands F t t₁ base (lp :: rest) [fl] where
  keys := by
    exact append_subset.mpr ⟨hfl.keys, nil_subset _⟩
  flat _ := by
    funext key
    simp [flat, hfl.resolve, hdisk]

theorem Flattening.stands_disk {f id : LayerId}
    (hfl : Flattening F t.heap heap₁ base id f lp rest fl) (hdisk : t.heap[base]? = some (.disk disk))
    (hpersist : t₂.disk = disk.persist fl.toDiffData t.disk) :
    Stands F t t₂ base (lp :: rest) [] where
  keys := nil_subset _
  flat := by
    rintro ⟨disk', hdisk', hmarker⟩
    cases hdisk.symm.trans hdisk'
    funext key
    show t₂.disk.content key = _
    rw [hpersist, DiskLayer.content_persist _ _ hmarker, DiffData.onTop, hfl.resolve]
    rfl

theorem capBelow_spec (hc : Cut F t base cut ld lp rest) :
    ∃ persisted t₂ n base', t.capBelow cut = .ok (persisted, t₂) ∧
      Capped F t t₂ base base' cut n ld lp rest persisted := by
  have hfuel : rest.length < t.heap.length :=
    Nat.lt_of_succ_lt (by simpa using hc.parent_chain.length_lt)
  obtain ⟨f, heap₁, fl, hflat, hfl, hmoved⟩ := flatten_spec hc.parent_chain hfuel
  have hs := hc.shifted hmoved
  have hw := hc.rewired_flat hfl hs
  set t₁ := linkFlat t heap₁ cut f ld lp with ht₁
  obtain ⟨disk, hdisk, hlive⟩ := hc.chain.base_disk
  have hcut : heap₁[cut]? = some (.diff ld) := by
    obtain ⟨l', hl', -, -, rfl | hstale⟩ := hs.old cut _ hc.chain.head.1
    · exact hl'
    · have := (hs.low cut _ hc.chain (by rw [isStale_eq hl', hstale])).1
      simp only [length_cons] at this
      omega
  have hne : ∀ i : LayerId, i ≠ cut → t₁.heap[i]? = heap₁[i]? :=
    fun i hi ↦ getElem?_set_ne (.symm hi)
  have hflget : t₁.heap[f]? = some (.diff fl) := by
    rw [hne f ?_]
    · exact hfl.get
    · rintro rfl
      exact hw.cut_root_ne (hw.new ld.root hc.registered)
  have hbaselive : isStale t₁.heap base = false := by
    obtain ⟨lb, hlb, -, -, hbelow⟩ := hw.bottom
    cases hflget.symm.trans hlb
    exact (hbelow fl.parent rfl).2
  have hdisk₁ : t₁.heap[base]? = some (.disk disk) := by
    obtain ⟨l', hl', -, -, rfl | hstale⟩ := hw.old base _ hdisk (.symm hc.cut_ne_base)
    · exact hl'
    · rw [isStale_eq hl', hstale] at hbaselive
      simp at hbaselive
  have hfldisk : t₁.heap[fl.parent]? = some (.disk disk) := hfl.parent ▸ hdisk₁
  have hlink : ((({ t with heap := heap₁ } : Tree).register fl.root f).relink cut f) = t₁ := by
    unfold relink register
    simp only [hcut, hfl.root]
    rfl
  have hrewrites := hc.rewrites_eq hdisk hfl hmoved
  unfold capBelow
  simp only [hc.chain.head.1, hc.parent_chain.head.1, hflat, hfl.get, hlink, overflows_eq hfldisk]
  cases hover : (!decide (fl.memory < aggregatorMemoryLimit) || disk.genAbort) with
  | false =>
    refine ⟨none, t₁, f, base, rfl, hw, .kept rfl hbaselive ?_, ⟨[fl], ?_, hfl.stands rfl⟩, ?_, ?_, ?_⟩
    · rintro ⟨disk', hdisk', hmarker⟩
      cases hdisk.symm.trans hdisk'
      exact ⟨disk, hdisk₁, hmarker⟩
    · refine .diff hflget hfl.live ?_
      rw [hfl.parent]
      exact .disk hdisk₁ hlive
    · intro fl' hfl'
      cases hflget.symm.trans hfl'
      exact hc.filter_flat hfl
    · intro hrw
      rcases hrewrites with ⟨-, -, heq⟩ | ⟨-, b, bl, hb, hstale, hblt, hreach⟩
      · simp [heq, hover] at hrw
      · have hbcut : b ≠ cut := by
          rintro rfl
          cases hcut.symm.trans hb
          simp [hc.chain.head.2.1] at hstale
        refine hw.dead ?_ hreach
        rw [isStale_eq ((hne b hbcut).trans hb)]
        exact hstale
    · intro hrw
      rcases hrewrites with ⟨-, hf, -⟩ | ⟨heq, -⟩
      · exact hf
      · simp [heq] at hrw
  | true =>
    obtain ⟨hw₂, hstale, hgetnew⟩ := hw.linkDisk hflget hdisk
    have hcut₂ : (diskHeap t₁ disk base fl.root)[cut]? = some (.diff { ld with parent := f }) := by
      have hlt : cut < t₁.heap.length := Nat.lt_of_lt_of_le hc.chain.lt_length hw.length
      rw [diskHeap, getElem?_append_left (by simpa using hlt),
        getElem?_set_ne (.symm hc.cut_ne_base)]
      exact hw.relinked
    have hlink₂ : ((({ t₁ with
          heap := diskHeap t₁ disk base fl.root
          disk := disk.persist fl.toDiffData t₁.disk } : Tree).register fl.root
          t₁.heap.length).relink cut t₁.heap.length) = linkDisk t₁ disk base cut ld fl := by
      unfold relink register
      simp only [hcut₂]
      rfl
    refine ⟨some t₁.heap.length, linkDisk t₁ disk base cut ld fl, t₁.heap.length, t₁.heap.length, ?_,
      hw₂, .moved hstale (disk.coherent_persist fl.toDiffData t.disk) ?_, ⟨[], .disk hgetnew rfl, hfl.stands_disk hdisk rfl⟩, ?_, ?_, ?_⟩
    · simp only [diffToDisk_eq hflget hfl.parent hdisk₁ hlive, hlink₂]
    · rintro ⟨disk', hdisk', hmarker⟩
      cases hdisk.symm.trans hdisk'
      exact ⟨newBase disk fl.root, hgetnew, hmarker⟩
    · intro fl' hfl'
      simp [hgetnew] at hfl'
    · intro _
      exact hw₂.dead hstale fun P ↦ hc.parent_chain.reaches_base
    · intro hrw
      rcases hrewrites with ⟨-, -, heq⟩ | ⟨heq, -⟩
      · simp [heq, hover] at hrw
      · simp [heq] at hrw

end Tree

end GoEntropy.Snapshot
