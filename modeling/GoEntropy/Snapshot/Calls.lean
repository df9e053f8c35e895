import GoEntropy.Snapshot.Cap

/-!
# One call

What `Update` and `Cap` do to a healthy tree.

A `Cap` keeps the tree healthy exactly if it does not cut at a fork: where it replaces the layer
under the one it dived to, that one is the only registered layer over it (`unforked`, `cap_spec`).
An `Update` keeps it healthy if it does not take a root away from a layer that others hang off
(`replaceable`, `update_spec`).
-/

namespace GoEntropy.Snapshot

open GoEntropy.Container Relation

namespace Tree

variable {F : BloomFilter} {t t' : Tree} {base base' : LayerId}

/-- Every registered layer has an ancestor chain of layers that are not stale, down to the disk layer,
which is registered and not stale. -/
def Live (t : Tree) : Prop :=
  ∃ base, (∃ root, t.layers.lookup root = some base) ∧
    ∀ root id, t.layers.lookup root = some id → ∃ dls, Chain t.heap base id dls

theorem Healthy.live (h : Healthy F t base) : Live t := ⟨base, h.registered, h.chain⟩

/-! ## Forks -/

def parentOf (heap : Heap) (id : LayerId) : Option LayerId := heap[id]?.bind Layer.below

theorem parentOf_eq_some {heap : Heap} {id p : LayerId} :
    parentOf heap id = some p ↔ ∃ l : DiffLayer, heap[id]? = some (.diff l) ∧ l.parent = p := by
  unfold parentOf
  cases heap[id]? with
  | none => simp
  | some layer =>
    cases layer <;> simp [Layer.below]

/-- The registered layers over a layer. -/
def hanging (t : Tree) (p : LayerId) : List LayerId :=
  (t.layers.entries.map fun e ↦ e.2).filter fun id ↦ parentOf t.heap id == some p

theorem mem_hanging {p id : LayerId} :
    id ∈ t.hanging p ↔ (∃ root, t.layers.lookup root = some id) ∧
      ∃ l : DiffLayer, t.heap[id]? = some (.diff l) ∧ l.parent = p := by
  unfold hanging
  rw [List.mem_filter, beq_iff_eq, parentOf_eq_some, List.mem_map]
  refine and_congr ⟨?_, ?_⟩ .rfl
  · rintro ⟨⟨root, id⟩, hmem, rfl⟩
    exact ⟨root, mem_entries_iff.mp hmem⟩
  · rintro ⟨root, hid⟩
    exact ⟨⟨root, id⟩, mem_entries_iff.mpr hid, rfl⟩

/-- Where capping below a layer replaces its parent, nothing else hangs off the parent. -/
def alone (t : Tree) (cut : LayerId) : Bool :=
  match t.heap[cut]? with
  | some (.diff ld) =>
    match t.heap[ld.parent]? with
    | some (.diff lp) => !t.rewrites lp || (t.hanging ld.parent).all fun id ↦ id == cut
    | _ => true
  | _ => true

/-- A call of `Cap` does not cut at a fork. -/
def unforked (t : Tree) (root : Hash) (layers : ℤ) : Bool :=
  match t.layers.lookup root with
  | none => true
  | some head =>
    match t.heap[head]? with
    | some (.diff l) =>
      if t.allowed l layers = 0 then true
      else
        match dive t.heap (t.allowed l layers - 1).toNat head with
        | none => true
        | some cut => t.alone cut
    | _ => true

/-! ## Doing nothing -/

theorem Healthy.recovers (h : Healthy F t base) :
    Recovers F t base none ∧ ∀ root id, Survives t root id ↔ t.layers.lookup root = some id := by
  have hspared : ∀ root, ¬ Doomed t.heap t.layers t.children root := by
    rintro root ⟨r, id, hid, hstale, -⟩
    obtain ⟨dls, hdls⟩ := h.chain r id hid
    simp [Chain.isStale_eq_false hdls] at hstale
  have hsurvives : ∀ root id, Survives t root id ↔ t.layers.lookup root = some id :=
    fun root id ↦ ⟨Survives.lookup, fun hid ↦ ⟨hid, hspared root⟩⟩
  refine ⟨⟨?_, ?_, ?_, ?_, ?_, ?_, ?_⟩, hsurvives⟩
  · refine h.acyclic le_rfl fun a c hc ↦ ?_
    obtain ⟨id, hid, l, parent, hl, hparent, hroot⟩ := (mem_kids_children t a c).mp hc
    obtain ⟨dls, hdls⟩ := h.chain c id hid
    obtain ⟨below, rfl, -, hbelow⟩ := hdls.of_diff hl
    rw [depth_eq hid hdls, ← hroot, depth_eq (h.parent hid hl hparent) hbelow]
    exact ⟨by simp, id, hid⟩
  · obtain ⟨r, hr⟩ := h.registered
    exact ⟨r, (hsurvives r base).mpr hr⟩
  · exact fun root id l hs ↦ h.named root id l hs.lookup
  · exact fun root id hs ↦ h.chain root id hs.lookup
  · intro root id l hs hl
    obtain ⟨r, hr⟩ := h.closed root id l hs.lookup hl
    exact ⟨r, (hsurvives r _).mpr hr⟩
  · exact fun _ root id l hs ↦ h.filtered root id l hs.lookup
  · simp

/-- What a call preserves of the layers that are still registered after it: if the disk layer was
complete it is complete, the cache stays coherent, and every layer stands for the flat state that the
layer with its root stood for. -/
structure Preserves (t t' : Tree) (base base' : LayerId) : Prop where
  complete : t.Complete base → t'.Complete base'
  coherent : t.disk.Coherent → t'.disk.Coherent
  flat : t.Complete base → ∀ root id', t'.layers.lookup root = some id' →
    ∃ id dls dls', t.layers.lookup root = some id ∧ Chain t.heap base id dls ∧
      Chain t'.heap base' id' dls' ∧ t'.flat dls' = t.flat dls

theorem changes_congr {dls dls' : List DiffLayer}
    (h : dls'.map DiffLayer.toDiffData = dls.map DiffLayer.toDiffData) (key : SnapKey) :
    changes dls' key = changes dls key := by
  have hmap : ∀ dls : List DiffLayer, changes dls key =
      (dls.map DiffLayer.toDiffData).findSome? fun d ↦ d.resolve key := by
    intro dls
    rw [List.findSome?_map]
    rfl
  rw [hmap, hmap, h]

theorem flat_congr {dls dls' : List DiffLayer} (hdisk : t'.disk = t.disk)
    (h : dls'.map DiffLayer.toDiffData = dls.map DiffLayer.toDiffData) : t'.flat dls' = t.flat dls := by
  funext key
  rw [flat, flat, changes_congr h, hdisk]

theorem SameLayers.complete (h : SameLayers t.heap t'.heap) (hcomplete : t.Complete base) :
    t'.Complete base := by
  obtain ⟨l, hl, hmarker⟩ := hcomplete
  exact ⟨l, h.disk hl, hmarker⟩

theorem Healthy.cleanUp (h : Healthy F t base) :
    ∃ t', t.cleanUp F none = .ok t' ∧ Healthy F t' base ∧ Preserves t t' base base := by
  obtain ⟨hrecovers, hsurvives⟩ := h.recovers
  obtain ⟨t', hclean, hhealthy, hdisk, hsame, hlookup⟩ := hrecovers.cleanUp
  refine ⟨t', hclean, hhealthy, hsame.complete, fun hc ↦ hdisk ▸ hc, fun _ root id hid ↦ ?_⟩
  have hid' := (hsurvives root id).mp ((hlookup root id).mp hid)
  obtain ⟨dls, hdls⟩ := h.chain root id hid'
  obtain ⟨dls', hdls', hmap⟩ := hsame.chain hdls
  exact ⟨id, dls, dls', hid', hdls, hdls', flat_congr hdisk hmap⟩

/-! ## A round of capping -/

variable {cut n : LayerId} {ld lp : DiffLayer} {rest : List DiffLayer} {t₂ : Tree}
  {persisted : Option LayerId}

theorem Capped.cleanUp (hc : Capped F t t₂ base base' cut n ld lp rest persisted)
    (hfork : Rewired.Forkless t cut n ld) :
    ∃ t', t₂.cleanUp F persisted = .ok t' ∧ Healthy F t' base' ∧ Preserves t t' base base' := by
  have hw := hc.toRewired
  obtain ⟨t', hclean, hhealthy, hdisk, hsame, hlookup⟩ :=
    (hw.recovers hfork hc.settled hc.grounded hc.filter).cleanUp
  refine ⟨t', hclean, hhealthy, ?_, ?_, fun hcomplete root id' hid' ↦ ?_⟩
  · intro hcomplete
    cases hc.settled with
    | kept _ _ h | moved _ _ h => exact hsame.complete (h hcomplete)
  · intro hcoherent
    rw [hdisk]
    cases hc.settled with
    | kept h => exact h ▸ hcoherent
    | moved _ h => exact h hcoherent
  · have hs := (hlookup root id').mp hid'
    obtain ⟨id, hid⟩ := hw.survives_before hs
    obtain ⟨dls, hdls⟩ := hw.healthy.chain root id hid
    obtain ⟨dls₂, hdls₂, hstands⟩ := hw.survives_chain hfork hc.settled hc.grounded hs hid hdls
    obtain ⟨dls', hdls', hmap⟩ := hsame.chain hdls₂
    exact ⟨id, dls, dls', hid, hdls, hdls', (flat_congr hdisk hmap).trans (hstands.flat hcomplete)⟩

variable {root : Hash} {l : DiffLayer} {id : LayerId}

/-- A round of capping at a fork ends too, and leaves a registered layer without a chain. -/
theorem Capped.not_live (hc : Capped F t t₂ base base' cut n ld lp rest persisted)
    (hdead : t.rewrites lp = true)
    (hid : t.layers.lookup root = some id) (hl : t.heap[id]? = some (.diff l))
    (hparent : l.parent = ld.parent) (hne : id ≠ cut) :
    ∃ t', t₂.cleanUp F persisted = .ok t' ∧ ¬ Live t' := by
  have hw := hc.toRewired
  have hbound : ∀ b, persisted = some b → b < t₂.heap.length := by
    intro b hb
    cases hc.settled with
    | kept => simp at hb
    | moved =>
      obtain ⟨lb, hlb, -⟩ := hw.bottom
      cases hb
      exact lt_of_get hlb
  obtain ⟨t', hclean, -, hsame, hlookup, -⟩ := cleanUp_total hw.acyclic hbound
  obtain ⟨hs, hnone⟩ := hw.not_live (hc.dead hdead) hid hl hparent hne
  refine ⟨t', hclean, ?_⟩
  rintro ⟨b, -, hchain⟩
  obtain ⟨dls, hdls⟩ := hchain root id ((hlookup root id).mpr hs)
  obtain ⟨dls₂, hdls₂, -⟩ := hsame.symm.chain hdls
  exact hnone b dls₂ hdls₂

/-! ## `Cap` -/

variable {head : LayerId}

theorem Healthy.dive_registered (h : Healthy F t base) {k : Nat}
    (hhead : t.layers.lookup root = some head) (hl : t.heap[head]? = some (.diff l))
    (hdive : Tree.dive t.heap k head = some cut) :
    ∃ root' ld, t.layers.lookup root' = some cut ∧ t.heap[cut]? = some (.diff ld) := by
  induction k generalizing root head l with
  | zero =>
    cases hdive
    exact ⟨root, l, hhead, hl⟩
  | succ k ih =>
    rw [Tree.dive, hl] at hdive
    simp only at hdive
    cases hp : t.heap[l.parent]? with
    | none => simp [hp] at hdive
    | some layer =>
      cases layer with
      | disk lp => simp [hp] at hdive
      | diff lp =>
        rw [hp] at hdive
        exact ih (h.parent hhead hl hp) hp hdive

theorem Cut.alone_eq (hc : Cut F t base cut ld lp rest) :
    t.alone cut = (!t.rewrites lp || (t.hanging ld.parent).all fun id ↦ id == cut) := by
  rw [alone, hc.chain.head.1]
  simp [hc.parent_chain.head.1]

theorem Capped.forkless (hc : Capped F t t₂ base base' cut n ld lp rest persisted)
    (halone : t.alone cut = true) : Rewired.Forkless t cut n ld := by
  intro root id l hid hl hparent
  rw [hc.toCut.alone_eq, Bool.or_eq_true, Bool.not_eq_true'] at halone
  rcases halone with h | h
  · exact .inr (hc.stays h)
  · refine .inl ?_
    simpa using List.all_eq_true.mp h id (mem_hanging.mpr ⟨⟨root, hid⟩, l, hl, hparent⟩)

theorem Healthy.capFrom (h : Healthy F t base)
    (hhead : t.layers.lookup root = some head) (hl : t.heap[head]? = some (.diff l)) (layers : ℤ) :
    ∃ persisted t₂ t', t.capFrom head layers = .ok (persisted, t₂) ∧
      t₂.cleanUp F persisted = .ok t' ∧
        ((∀ cut, Tree.dive t.heap (layers - 1).toNat head = some cut → t.alone cut = true) →
          ∃ base', Healthy F t' base' ∧ Preserves t t' base base') ∧
        ∀ cut, Tree.dive t.heap (layers - 1).toNat head = some cut → t.alone cut = false → ¬ Live t' := by
  unfold Tree.capFrom
  cases hdive : Tree.dive t.heap (layers - 1).toNat head with
  | none =>
    obtain ⟨t', hclean, hhealthy, hpreserves⟩ := h.cleanUp
    exact ⟨none, t, t', rfl, hclean, fun _ ↦ ⟨base, hhealthy, hpreserves⟩, by simp⟩
  | some cut =>
    obtain ⟨root', ld, hcut, hld⟩ := h.dive_registered hhead hl hdive
    obtain ⟨dls, hdls⟩ := h.chain root' cut hcut
    obtain ⟨below, rfl, -, hbelow⟩ := hdls.of_diff hld
    simp only [Option.some.injEq, forall_eq']
    cases hbelow with
    | @disk disk hdisk hlive =>
      -- The layer lies on disk: there is nothing to flatten.
      obtain ⟨t', hclean, hhealthy, hpreserves⟩ := h.cleanUp
      refine ⟨none, t, t', ?_, hclean, fun _ ↦ ⟨_, hhealthy, hpreserves⟩, ?_⟩
      · rw [capBelow, hld]
        simp [hdisk]
      · rw [alone, hld]
        simp [hdisk]
    | @diff _ lp rest hlp hlive hrest =>
      have hroot : ld.root = root' := h.named root' cut _ hcut hld
      have hc : Cut F t base cut ld lp rest := ⟨h, hroot ▸ hcut, hdls⟩
      obtain ⟨persisted, t₂, n, base', hcap, hcapped⟩ := capBelow_spec hc
      cases halone : t.alone cut with
      | true =>
        obtain ⟨t', hclean, hhealthy, hpreserves⟩ := hcapped.cleanUp (hcapped.forkless halone)
        exact ⟨persisted, t₂, t', hcap, hclean, fun _ ↦ ⟨base', hhealthy, hpreserves⟩, by simp⟩
      | false =>
        rw [hc.alone_eq, Bool.or_eq_false_iff, Bool.not_eq_false'] at halone
        obtain ⟨id, hmem, hne⟩ : ∃ id ∈ t.hanging ld.parent, id ≠ cut := by
          simpa using halone.2
        obtain ⟨⟨root, hid⟩, l, hl, hparent⟩ := mem_hanging.mp hmem
        obtain ⟨t', hclean, hdead⟩ := hcapped.not_live halone.1 hid hl hparent hne
        exact ⟨persisted, t₂, t', hcap, hclean, by simp, fun _ ↦ hdead⟩

theorem Healthy.capAll (h : Healthy F t base)
    (hhead : t.layers.lookup root = some head) (hl : t.heap[head]? = some (.diff l)) :
    ∃ t' base', t.capAll head = .ok t' ∧ Healthy F t' base' ∧ Preserves t t' base base' := by
  obtain ⟨dls, hdls⟩ := h.chain root head hhead
  obtain ⟨rest, rfl, -, -⟩ := hdls.of_diff hl
  obtain ⟨disk, hdisk, hlive⟩ := hdls.base_disk
  have hfuel : rest.length < t.heap.length := Nat.lt_of_succ_lt (by simpa using hdls.length_lt)
  obtain ⟨f, heap₁, fl, hflat, hfl, hmoved⟩ := flatten_spec (F := F) hdls hfuel
  have hdisk₁ : heap₁[base]? = some (.disk disk) := by
    cases hmoved with
    | stay _ hheap => exact hheap ▸ hdisk
    | merge _ _ _ hget _ _ _ _ hother =>
      refine (hother base (lt_of_get hdisk) ?_).trans hdisk
      rintro rfl
      simp [hdisk] at hget
  set t₁ : Tree := { t with heap := heap₁ } with ht₁
  have hnew : (diskHeap t₁ disk base fl.root)[t₁.heap.length]? =
      some (.disk (newBase disk fl.root)) := by
    simp [diskHeap]
  set t' : Tree :=
    { heap := diskHeap t₁ disk base fl.root
      disk := disk.persist fl.toDiffData t₁.disk
      layers := AList.singleton fl.root t₁.heap.length } with ht'
  have hchain : Chain t'.heap t₁.heap.length t₁.heap.length [] := .disk hnew rfl
  refine ⟨t', t₁.heap.length, ?_, healthy_singleton rfl hnew rfl, ?_, ?_, ?_⟩
  · have htodisk : t₁.diffToDisk f = .ok (t₁.heap.length, { t₁ with
        heap := diskHeap t₁ disk base fl.root
        disk := disk.persist fl.toDiffData t₁.disk }) :=
      diffToDisk_eq hfl.get hfl.parent hdisk₁ hlive
    unfold Tree.capAll
    simp only [hflat]
    rw [htodisk]
    simp only [hnew]
    rfl
  · rintro ⟨disk', hdisk', hmarker⟩
    cases hdisk.symm.trans hdisk'
    exact ⟨_, hnew, hmarker⟩
  · exact disk.coherent_persist fl.toDiffData t.disk
  · intro hcomplete r id hr
    obtain ⟨rfl, rfl⟩ := lookup_singleton.1 hr
    refine ⟨head, l :: rest, [], ?_, hdls, hchain, (hfl.stands_disk hdisk rfl).flat hcomplete⟩
    rw [hfl.root, ← h.named root head _ hhead hl] at *
    exact hhead

/-- A call of `Cap` on a healthy tree returns; without a fork at the cut it keeps the tree healthy,
and at a fork it leaves a layer that is not live. -/
theorem Healthy.cap (h : Healthy F t base) (root : Hash) (layers : ℤ) :
    ∃ err t', t.cap F root layers = .ok (err, t') ∧
      (t.unforked root layers = true → ∃ base', Healthy F t' base' ∧ Preserves t t' base base') ∧
        (t.unforked root layers = false → ¬ Live t') := by
  have hsame : ∃ base', Healthy F t base' ∧ Preserves t t base base' := by
    refine ⟨base, h, fun h ↦ h, fun h ↦ h, fun _ r id hid ↦ ?_⟩
    obtain ⟨dls, hdls⟩ := h.chain r id hid
    exact ⟨id, dls, dls, hid, hdls, hdls, rfl⟩
  unfold Tree.cap unforked
  cases hhead : t.layers.lookup root with
  | none => exact ⟨_, t, rfl, fun _ ↦ hsame, by simp⟩
  | some head =>
    obtain ⟨layer, hl, -⟩ := h.get hhead
    simp only [hl]
    cases layer with
    | disk l => exact ⟨_, t, rfl, fun _ ↦ hsame, by simp⟩
    | diff l =>
      simp only [capLayer]
      by_cases hzero : t.allowed l layers = 0
      · obtain ⟨t', base', hcap, hhealthy, hpreserves⟩ := h.capAll hhead hl
        refine ⟨none, t', ?_, fun _ ↦ ⟨base', hhealthy, hpreserves⟩, by simp [hzero]⟩
        rw [if_pos hzero, hcap]
        rfl
      · obtain ⟨persisted, t₂, t', hcap, hclean, hgood, hbad⟩ := h.capFrom hhead hl (t.allowed l layers)
        refine ⟨none, t', ?_, fun hu ↦ hgood fun cut hcut ↦ ?_, fun hu ↦ ?_⟩
        · simp only [if_neg hzero, hcap, hclean]
          rfl
        · rw [if_neg hzero, hcut] at hu
          exact hu
        · rw [if_neg hzero] at hu
          cases hdive : Tree.dive t.heap (t.allowed l layers - 1).toNat head with
          | none =>
            rw [hdive] at hu
            simp at hu
          | some cut =>
            rw [hdive] at hu
            exact hbad cut hdive hu

/-! ## `Update` -/

/-- No registered layer hangs off the one registered under a root. -/
def replaceable (t : Tree) (root : Hash) : Bool :=
  match t.layers.lookup root with
  | none => true
  | some id => (t.hanging id).isEmpty

theorem replaceable_iff :
    t.replaceable root = true ↔ ∀ p, t.layers.lookup root = some p → ∀ r id l,
      t.layers.lookup r = some id → t.heap[id]? = some (.diff l) → l.parent ≠ p := by
  unfold replaceable
  cases t.layers.lookup root with
  | none => simp
  | some p =>
    simp only [List.isEmpty_iff, List.eq_nil_iff_forall_not_mem, mem_hanging, Option.some.injEq,
      forall_eq']
    constructor
    · exact fun h r id l hr hl hp ↦ h id ⟨⟨r, hr⟩, l, hl, hp⟩
    · rintro h id ⟨⟨r, hr⟩, l, hl, hp⟩
      exact h r id l hr hl hp

theorem Chain.append {heap : Heap} {dls : List DiffLayer}
    (h : Chain heap base id dls) (l : Layer) : Chain (heap ++ [l]) base id dls := by
  induction h with
  | disk hget hlive =>
    refine .disk ?_ hlive
    rw [List.getElem?_append_left (lt_of_get hget)]
    exact hget
  | diff hget hlive _ ih =>
    refine .diff ?_ hlive ih
    rw [List.getElem?_append_left (lt_of_get hget)]
    exact hget

/-- Some registered layer lies directly on the disk layer, if any lies over it at all. -/
theorem Healthy.exists_over_base (h : Healthy F t base)
    {dls : List DiffLayer} (hid : t.layers.lookup root = some id) (hchain : Chain t.heap base id dls) :
    id = base ∨ ∃ r i l, t.layers.lookup r = some i ∧ t.heap[i]? = some (.diff l) ∧ l.parent = base := by
  induction hchain generalizing root with
  | disk => exact .inl rfl
  | @diff id l rest hget hlive hrest ih =>
    obtain ⟨r, hr⟩ := h.closed root id l hid hget
    rcases ih hr with hbase | hex
    · exact .inr ⟨root, id, l, hid, hget, hbase⟩
    · exact .inr hex

theorem Healthy.newDiffLayer (h : Healthy F t base) {parentRoot blockRoot : Hash} {parent : LayerId}
    {block : Block} {snap : DiffLayer} (hparent : t.layers.lookup parentRoot = some parent)
    (hsnap : t.newDiffLayer F parent blockRoot block = .ok snap) :
    snap.root = blockRoot ∧ snap.parent = parent ∧ snap.stale = false ∧ snap.origin = base ∧
      ∀ dls, Chain t.heap base parent dls → Covers F snap (snap :: dls) := by
  obtain ⟨dls₀, hdls₀⟩ := h.chain parentRoot parent hparent
  have horigin : t.originOf parent = .ok base := by
    cases hdls₀ with
    | disk hget => rw [originOf, hget]
    | diff hget hlive hrest =>
      rw [originOf, hget]
      exact congrArg Except.ok (h.covers hparent hget (.diff hget hlive hrest)).1
  rw [Tree.newDiffLayer, horigin] at hsnap
  cases hdata : block.data with
  | error e => simp [hdata, bind, Except.bind] at hsnap
  | ok data =>
    rw [hdata] at hsnap
    cases hsnap
    refine ⟨rfl, rfl, rfl, rfl, fun dls hdls dl hdl ↦ ?_⟩
    rcases List.mem_cons.mp hdl with rfl | hmem
    · exact List.subset_append_left _ _
    · cases hdls with
      | disk => simp at hmem
      | @diff _ l rest hget hlive hrest =>
        refine List.Subset.trans ((h.covers hparent hget (.diff hget hlive hrest)).2 dl hmem) ?_
        simp only [rebloom, hget]
        exact List.subset_append_right _ _

/-- A call of `Update` that takes no root away from a layer others hang off keeps the tree
healthy. -/
theorem Healthy.update (h : Healthy F t base) {blockRoot parentRoot : Hash} {block : Block}
    {err : Option SnapshotError} (hup : t.update F blockRoot parentRoot block = .ok (err, t'))
    (hcareful : blockRoot = parentRoot ∨ t.layers.lookup parentRoot = none ∨
      t.replaceable blockRoot = true) :
    Healthy F t' base ∧ t'.disk = t.disk ∧ (t.Complete base → t'.Complete base) := by
  unfold Tree.update at hup
  by_cases hcycle : blockRoot = parentRoot
  · rw [if_pos hcycle] at hup
    cases hup
    exact ⟨h, rfl, fun h ↦ h⟩
  · rw [if_neg hcycle] at hup
    cases hparent : t.layers.lookup parentRoot with
    | none =>
      rw [hparent] at hup
      cases hup
      exact ⟨h, rfl, fun h ↦ h⟩
    | some parent =>
      simp only [hparent] at hup
      have hfree := replaceable_iff.mp ((hcareful.resolve_left hcycle).resolve_left (by simp [hparent]))
      cases hsnap : t.newDiffLayer F parent blockRoot block with
      | error e => simp [hsnap] at hup
      | ok snap =>
        simp only [hsnap] at hup
        cases hup
        obtain ⟨hroot, hsnapparent, hlive, horigin, hcovers⟩ := h.newDiffLayer hparent hsnap
        obtain ⟨dls, hdls⟩ := h.chain parentRoot parent hparent
        have hnew : (t.heap ++ [.diff snap])[t.heap.length]? = some (.diff snap) := by simp
        have hold : ∀ i : LayerId, i < t.heap.length →
            (t.heap ++ [.diff snap])[i]? = t.heap[i]? :=
          fun i ↦ List.getElem?_append_left
        have hchain : Chain (t.heap ++ [.diff snap]) base t.heap.length (snap :: dls) :=
          .diff hnew hlive (hsnapparent ▸ Chain.append hdls (.diff snap))
        have hbase : ∃ root, root ≠ blockRoot ∧ t.layers.lookup root = some base := by
          obtain ⟨rb, hrb⟩ := h.registered
          refine ⟨rb, fun heq ↦ ?_, hrb⟩
          rcases h.exists_over_base hparent hdls with rfl | ⟨r, i, l, hr, hl, hp⟩
          · exact hcycle (heq ▸ h.inj hrb hparent)
          · exact hfree base (heq ▸ hrb) r i l hr hl hp
        have hcase : ∀ r id, (t.layers.insert blockRoot t.heap.length).lookup r = some id →
            (r = blockRoot ∧ id = t.heap.length) ∨ (r ≠ blockRoot ∧ t.layers.lookup r = some id ∧
              id < t.heap.length) := by
          intro r id hr
          rw [lookup_insert_eq_ite] at hr
          split at hr
          · next heq => exact .inl ⟨heq, (Option.some.inj hr).symm⟩
          · next hne =>
            obtain ⟨dls', hdls'⟩ := h.chain r id hr
            exact .inr ⟨hne, hr, hdls'.lt_length⟩
        have hkeep : ∀ r id, r ≠ blockRoot → t.layers.lookup r = some id →
            (t.layers.insert blockRoot t.heap.length).lookup r = some id :=
          fun r id hne ↦ (AList.lookup_insert_ne hne).trans
        refine ⟨⟨?_, ?_, ?_, ?_, ?_⟩, rfl, ?_⟩
        · obtain ⟨rb, hne, hrb⟩ := hbase
          exact ⟨rb, hkeep rb base hne hrb⟩
        · intro r id l hr hl
          rcases hcase r id hr with ⟨rfl, rfl⟩ | ⟨-, hr, hlt⟩
          · cases hl.symm.trans hnew
            exact hroot
          · exact h.named r id l hr ((hold id hlt).symm.trans hl)
        · intro r id hr
          rcases hcase r id hr with ⟨rfl, rfl⟩ | ⟨-, hr, -⟩
          · exact ⟨_, hchain⟩
          · obtain ⟨dls', hdls'⟩ := h.chain r id hr
            exact ⟨dls', Chain.append hdls' _⟩
        · intro r id l hr hl
          rcases hcase r id hr with ⟨rfl, rfl⟩ | ⟨-, hr, hlt⟩
          · cases hl.symm.trans hnew
            exact ⟨parentRoot, hsnapparent ▸ hkeep parentRoot parent (.symm hcycle) hparent⟩
          · have hl' := (hold id hlt).symm.trans hl
            obtain ⟨r', hr'⟩ := h.closed r id l hr hl'
            refine ⟨r', hkeep r' _ (fun heq ↦ ?_) hr'⟩
            exact hfree _ (heq ▸ hr') r id l hr hl' rfl
        · intro r id l hr hl
          rcases hcase r id hr with ⟨rfl, rfl⟩ | ⟨-, hr, hlt⟩
          · exact ⟨snap, snap :: dls, hnew, hchain, horigin, hcovers dls hdls⟩
          · obtain ⟨l', dls', hl', hdls', ho, hc⟩ := h.filtered r id l hr ((hold id hlt).symm.trans hl)
            exact ⟨l', dls', (hold id hlt).trans hl', Chain.append hdls' _, ho, hc⟩
        · rintro ⟨disk, hdisk, hmarker⟩
          exact ⟨disk, (hold base (lt_of_get hdisk)).trans hdisk, hmarker⟩

end Tree

end GoEntropy.Snapshot
