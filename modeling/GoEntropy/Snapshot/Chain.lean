import GoEntropy.Snapshot.Content
import GoEntropy.Snapshot.Tree

/-!
# Chains of live layers

`Chain heap base id dls` says that the pointers from `id` lead through the diff layers `dls`, none
of them stale, to the disk layer `base`, not stale either. A layer with a chain can be read
(`walk_eq`, `read_eq`), and flattening it succeeds and leaves a layer that answers what the whole
chain answered (`flatten_spec`).

Flattening marks one layer of the old heap stale, the bottom diff layer of the chain: the layers in
between are merged through fresh objects, and stay as they are. That they disappear from the
register is the work of the clean-up.
-/

namespace GoEntropy.Snapshot

open GoEntropy.Container List

/-- The live layers under a layer, from it down to the disk layer. -/
inductive Chain (heap : Heap) (base : LayerId) : LayerId → List DiffLayer → Prop
  | disk {l : DiskLayer} (hget : heap[base]? = some (.disk l)) (hlive : l.stale = false) :
      Chain heap base base []
  | diff {id : LayerId} {l : DiffLayer} {rest : List DiffLayer}
      (hget : heap[id]? = some (.diff l)) (hlive : l.stale = false)
      (hrest : Chain heap base l.parent rest) : Chain heap base id (l :: rest)

theorem lt_of_get {heap : Heap} {id : Nat} {l : Layer} (h : heap[id]? = some l) : id < heap.length :=
  (List.getElem?_eq_some_iff.mp h).1

/-- What the layers of a chain answer together. -/
def changes (dls : List DiffLayer) (key : SnapKey) : Option Bytes :=
  dls.findSome? fun l ↦ l.resolve key

@[simp] theorem changes_nil (key : SnapKey) : changes [] key = none := rfl

@[simp] theorem changes_cons (l : DiffLayer) (rest : List DiffLayer) (key : SnapKey) :
    changes (l :: rest) key = (l.resolve key).or (changes rest key) := by
  unfold changes
  rw [findSome?_cons]
  cases l.resolve key <;> rfl

namespace Chain

variable {heap heap' : Heap} {base id : LayerId} {dls : List DiffLayer}

theorem base_disk (h : Chain heap base id dls) :
    ∃ l : DiskLayer, heap[base]? = some (.disk l) ∧ l.stale = false := by
  induction h with
  | disk hget hlive => exact ⟨_, hget, hlive⟩
  | diff _ _ _ ih => exact ih

theorem base_disk_live (h : Chain heap base id dls) {l : DiskLayer}
    (hl : heap[base]? = some (.disk l)) : l.stale = false := by
  obtain ⟨l', hl', hlive⟩ := h.base_disk
  cases hl.symm.trans hl'
  exact hlive

theorem unique {dls' : List DiffLayer} (h : Chain heap base id dls) (h' : Chain heap base id dls') :
    dls = dls' := by
  induction h generalizing dls' with
  | disk hget hlive =>
    cases h' with
    | disk => rfl
    | diff hget' => simp [hget] at hget'
  | diff hget hlive hrest ih =>
    cases h' with
    | disk hget' => simp [hget] at hget'
    | diff hget' hlive' hrest' =>
      cases hget.symm.trans hget'
      rw [ih hrest']

theorem head {l : DiffLayer} {rest : List DiffLayer} (h : Chain heap base id (l :: rest)) :
    heap[id]? = some (.diff l) ∧ l.stale = false ∧ Chain heap base l.parent rest := by
  cases h with
  | diff hget hlive hrest => exact ⟨hget, hlive, hrest⟩

variable (h : Chain heap base id dls)

include h

theorem of_diff {l : DiffLayer} (hget : heap[id]? = some (.diff l)) :
    ∃ rest, dls = l :: rest ∧ l.stale = false ∧ Chain heap base l.parent rest := by
  cases h with
  | disk hget' => simp [hget] at hget'
  | diff hget' hlive hrest =>
    cases hget.symm.trans hget'
    exact ⟨_, rfl, hlive, hrest⟩

theorem of_disk {l : DiskLayer} (hget : heap[id]? = some (.disk l)) :
    id = base ∧ dls = [] ∧ l.stale = false := by
  cases h with
  | disk hget' hlive =>
    cases hget.symm.trans hget'
    exact ⟨rfl, rfl, hlive⟩
  | diff hget' => simp [hget] at hget'

theorem lt_length : id < heap.length := by
  cases h with
  | disk hget | diff hget => exact lt_of_get hget

theorem exists_ids :
    ∃ ids : List LayerId, ids.length = dls.length + 1 ∧ ids.Nodup ∧
      ∀ i ∈ ids, ∃ dls', Chain heap base i dls' ∧ dls'.length ≤ dls.length := by
  induction h with
  | disk hget hlive => exact ⟨[base], rfl, by simp, by simpa using .disk hget hlive⟩
  | @diff id l rest hget hlive hrest ih =>
    obtain ⟨ids, hlen, hnodup, hids⟩ := ih
    -- The new layer has a longer chain than any below it.
    have hnew : id ∉ ids := by
      intro hmem
      obtain ⟨dls', hchain, hle⟩ := hids id hmem
      have := congrArg length (unique (.diff hget hlive hrest) hchain)
      simp only [length_cons] at this
      omega
    refine ⟨id :: ids, by simp [hlen], nodup_cons.mpr ⟨hnew, hnodup⟩, fun i hi ↦ ?_⟩
    rcases mem_cons.mp hi with rfl | hi
    · exact ⟨_, .diff hget hlive hrest, le_rfl⟩
    · obtain ⟨dls', hchain, hle⟩ := hids i hi
      exact ⟨dls', hchain, hle.trans (Nat.le_succ _)⟩

theorem length_lt : dls.length < heap.length := by
  obtain ⟨ids, hlen, hnodup, hids⟩ := h.exists_ids
  have hsub : ids.toFinset ⊆ .range heap.length := by
    intro i hi
    obtain ⟨_, hchain, _⟩ := hids i (mem_toFinset.mp hi)
    exact Finset.mem_range.mpr hchain.lt_length
  have hcard := Finset.card_le_card hsub
  rw [toFinset_card_of_nodup hnodup, Finset.card_range] at hcard
  omega

/-- A property closed under parents reaches the disk layer. -/
theorem reaches_base {P : LayerId → Prop}
    (hclosed : ∀ i l, P i → heap[i]? = some (.diff l) → P l.parent) (hid : P id) : P base := by
  induction h with
  | disk => exact hid
  | diff hget _ _ ih => exact ih (hclosed _ _ hid hget)

end Chain

/-! ## Reading -/

namespace Tree

variable {F : BloomFilter} {t : Tree} {base id : LayerId} {dls : List DiffLayer}

/-- The walk down a chain finds the first answer, else asks the disk layer. -/
theorem walk_eq (h : Chain t.heap base id dls) {l : DiskLayer} (hbase : t.heap[base]? = some (.disk l))
    {fuel : Nat} (hfuel : dls.length < fuel) (key : SnapKey) :
    t.walk fuel id key =
      match changes dls key with
      | some data => (.ok data, t)
      | none => t.readDisk l key := by
  induction h generalizing fuel with
  | disk hget hlive =>
    obtain ⟨fuel, rfl⟩ := Nat.exists_eq_succ_of_ne_zero (Nat.ne_of_gt hfuel)
    cases hbase.symm.trans hget
    simp only [walk, hget]
    rfl
  | @diff id dl rest hget hlive hrest ih =>
    obtain ⟨fuel, rfl⟩ := Nat.exists_eq_succ_of_ne_zero (Nat.ne_of_gt (Nat.zero_lt_of_lt hfuel))
    rw [walk, hget]
    simp only [hlive, changes_cons]
    cases hr : dl.resolve key with
    | some data => rfl
    | none => exact ih (Nat.lt_of_succ_lt_succ hfuel)

/-- The filter of a layer holds the keys of every layer under it. -/
def Covers (F : BloomFilter) (l : DiffLayer) (dls : List DiffLayer) : Prop :=
  ∀ dl ∈ dls, dl.bloomKeys F ⊆ l.diffed

/-- Nothing in the chain answers a key that the filter denies. -/
theorem changes_eq_none_of_covers (hF : F.NoFalseNegatives) {l : DiffLayer} (hcovers : Covers F l dls)
    {key : SnapKey} (hitem : F.contains l.diffed (F.itemKey key) = false)
    (hdestruct : F.contains l.diffed (F.destructKey key.owner) = false) : changes dls key = none := by
  refine findSome?_eq_none_iff.mpr fun dl hdl ↦ ?_
  refine dl.resolve_eq_none_of_notMem key F (fun hmem ↦ ?_) fun hmem ↦ ?_
  · simp [hF _ _ (hcovers dl hdl hmem)] at hitem
  · simp [hF _ _ (hcovers dl hdl hmem)] at hdestruct

/-- A read of a layer whose filter covers its chain is the walk down the chain: the fast path and
the walk agree. -/
theorem read_eq_walk (hF : F.NoFalseNegatives) (h : Chain t.heap base id dls)
    (hdiff : ∀ l, t.heap[id]? = some (.diff l) → l.origin = base ∧ Covers F l dls) (key : SnapKey) :
    t.read F id key = t.walk t.heap.length id key := by
  obtain ⟨disk, hdisk, -⟩ := h.base_disk
  have hwalk := walk_eq h hdisk h.length_lt key
  cases h with
  | disk hget =>
    cases hdisk.symm.trans hget
    rw [hwalk, read, hget]
    rfl
  | @diff _ l rest hget hlive hrest =>
    obtain ⟨horigin, hcovers⟩ := hdiff l hget
    rw [read, hget]
    simp only
    split
    · rfl
    · next hmiss =>
      simp only [Bool.or_eq_true, not_or, Bool.not_eq_true] at hmiss
      rw [hwalk, changes_eq_none_of_covers hF hcovers hmiss.1 hmiss.2, horigin, hdisk]

/-- A read of a layer with a chain never finds a stale layer, whatever its filter says. -/
theorem read_ne_stale (h : Chain t.heap base id dls)
    (hdiff : ∀ l, t.heap[id]? = some (.diff l) → l.origin = base) (key : SnapKey) :
    (t.read F id key).1 ≠ .error .stale := by
  obtain ⟨disk, hdisk, hlive⟩ := h.base_disk
  have hread : (t.readDisk disk key).1 ≠ .error .stale := by
    unfold readDisk
    rw [hlive]
    simp only [Bool.false_eq_true, if_false]
    split <;> simp
  have hwalk : (t.walk t.heap.length id key).1 ≠ .error .stale := by
    rw [walk_eq h hdisk h.length_lt]
    cases changes dls key with
    | some data => simp
    | none => exact hread
  unfold read
  cases hget : t.heap[id]? with
  | none => simp
  | some layer =>
    cases layer with
    | disk l =>
      obtain ⟨rfl, -, -⟩ := h.of_disk hget
      cases hdisk.symm.trans hget
      exact hread
    | diff l =>
      simp only
      split
      · exact hwalk
      · rw [hdiff l hget, hdisk]
        exact hread

/-- The flat state a chain stands for over a complete disk layer. -/
def flat (t : Tree) (dls : List DiffLayer) : Flat := fun key ↦ (changes dls key).getD (t.disk.content key)

theorem flat_cons (t : Tree) (l : DiffLayer) (rest : List DiffLayer) :
    t.flat (l :: rest) = l.onTop (t.flat rest) := by
  funext key
  unfold flat DiffData.onTop
  rw [changes_cons]
  cases l.resolve key <;> rfl

theorem walk_eq_flat (h : Chain t.heap base id dls) {l : DiskLayer}
    (hbase : t.heap[base]? = some (.disk l)) (hmarker : l.genMarker = none)
    (hcoherent : t.disk.Coherent) (key : SnapKey) :
    (t.walk t.heap.length id key).1 = .ok (t.flat dls key) := by
  have hcovers : l.covers key.bytes = true := by rw [DiskLayer.covers, hmarker]
  rw [walk_eq h hbase h.length_lt, flat]
  cases changes dls key with
  | some data => rfl
  | none =>
    simp [readDisk, h.base_disk_live hbase, hcovers, hcoherent.get_eq]

/-! ## Flattening -/

/-- What `flatten` leaves of a chain `l :: rest` of the layer `id`: the layer `f` of the new heap. -/
structure Flattening (F : BloomFilter) (heap heap' : Heap) (base id f : LayerId) (l : DiffLayer)
    (rest : List DiffLayer) (fl : DiffLayer) : Prop where
  get : heap'[f]? = some (.diff fl)
  live : fl.stale = false
  root : fl.root = l.root
  parent : fl.parent = base
  origin : ∃ dl ∈ l :: rest, fl.origin = dl.origin
  diffed : fl.diffed = l.diffed
  resolve : ∀ key, fl.resolve key = changes (l :: rest) key
  keys : fl.bloomKeys F ⊆ (l :: rest).flatMap fun dl ↦ dl.bloomKeys F

/-- How the old heap changes: not at all if the layer already lies on disk, and else at the bottom
diff layer `b` of the chain only. The last field says that `b` lies under the parent of the layer:
it belongs to every set that holds the parent and is closed under parents. -/
inductive Moved (heap heap' : Heap) (id f : LayerId) : List DiffLayer → Prop
  | stay (hid : f = id) (hheap : heap' = heap) : Moved heap heap' id f []
  | merge {rest : List DiffLayer} (hrest : rest ≠ []) (hfresh : heap.length ≤ f)
      (hlength : heap.length ≤ heap'.length) {b : LayerId} {bl bl' : DiffLayer}
      (hget : heap[b]? = some (.diff bl)) (hget' : heap'[b]? = some (.diff bl'))
      (hstale : bl'.stale = true) (hroot : bl'.root = bl.root) (hparent : bl'.parent = bl.parent)
      (hother : ∀ i < heap.length, i ≠ b → heap'[i]? = heap[i]?)
      (hbelow : ∀ P : LayerId → Prop, (∀ i l, P i → heap[i]? = some (.diff l) → P l.parent) →
        (∀ l, heap[id]? = some (.diff l) → P l.parent) → P b) :
      Moved heap heap' id f rest

theorem flatten_spec {heap : Heap} {l : DiffLayer} {rest : List DiffLayer}
    (h : Chain heap base id (l :: rest)) {fuel : Nat} (hfuel : rest.length < fuel) :
    ∃ f heap' fl, flatten heap fuel id = .ok (f, heap') ∧
      Flattening F heap heap' base id f l rest fl ∧ Moved heap heap' id f rest := by
  induction rest generalizing id l fuel with
  | nil =>
    obtain ⟨hget, hlive, hrest⟩ := h.head
    obtain ⟨fuel, rfl⟩ := Nat.exists_eq_succ_of_ne_zero (Nat.ne_of_gt hfuel)
    cases hp : hrest with
    | disk hdisk =>
      refine ⟨id, heap, l, ?_, ⟨hget, hlive, rfl, rfl, ⟨l, by simp, rfl⟩, rfl, ?_, ?_⟩, .stay rfl rfl⟩
      · rw [flatten, hget]
        simp [hdisk]
      · intro key
        simp
      · simp
  | cons l₁ rest ih =>
    obtain ⟨hget, hlive, hrest⟩ := h.head
    obtain ⟨fuel, rfl⟩ := Nat.exists_eq_succ_of_ne_zero (Nat.ne_of_gt (Nat.zero_lt_of_lt hfuel))
    obtain ⟨f₁, heap₁, fl₁, hflat, hfl, hmoved⟩ := ih hrest (Nat.lt_of_succ_lt_succ hfuel)
    obtain ⟨hget₁, hlive₁, -⟩ := hrest.head
    have hf₁ : f₁ < heap₁.length := lt_of_get hfl.get
    refine ⟨heap₁.length, heap₁.set f₁ (.diff (absorbed fl₁ l)) ++ [.diff (flattened fl₁ l)],
      flattened fl₁ l, ?_, ⟨?_, rfl, rfl, hfl.parent, ?_, rfl, ?_, ?_⟩, ?_⟩
    · rw [flatten, hget]
      simp [hget₁, hflat, hfl.get, hfl.live]
    · simp
    · obtain ⟨dl, hmem, ho⟩ := hfl.origin
      exact ⟨dl, mem_cons_of_mem _ hmem, ho⟩
    · intro key
      rw [changes_cons, ← hfl.resolve]
      exact l.resolve_mergeInto fl₁.toDiffData key
    · intro x hx
      rcases mem_append.mp (l.bloomKeys_mergeInto_subset fl₁.toDiffData F hx) with hx | hx
      · exact mem_flatMap.mpr ⟨l, by simp, hx⟩
      · obtain ⟨dl, hmem, hdl⟩ := mem_flatMap.mp (hfl.keys hx)
        exact mem_flatMap.mpr ⟨dl, mem_cons_of_mem _ hmem, hdl⟩
    · -- The parent either is the bottom layer itself, or was merged into a fresh one.
      have hb : (heap₁.set f₁ (.diff (absorbed fl₁ l)) ++ [.diff (flattened fl₁ l)])[f₁]? =
          some (.diff (absorbed fl₁ l)) := by
        rw [getElem?_append_left (by simpa using hf₁), getElem?_set_self hf₁]
      cases hmoved with
      | stay hid hheap =>
        subst hid hheap
        cases hget₁.symm.trans hfl.get
        refine .merge (by simp) le_rfl (by simp) hget₁ hb rfl rfl rfl ?_ ?_
        · intro i hi hne
          rw [getElem?_append_left (by simpa using hi), getElem?_set_ne (.symm hne)]
        · intro P _ hid
          exact hid l hget
      | merge _ hfresh hlength hbget hb' hstale hroot hparent hother hbelow =>
        have hblt := lt_of_get hbget
        refine .merge (by simp) hlength (by simp; omega) hbget ?_ hstale hroot hparent ?_ ?_
        · rw [getElem?_append_left (by simp; omega), getElem?_set_ne (by omega)]
          exact hb'
        · intro i hi hne
          rw [getElem?_append_left (by simp; omega), getElem?_set_ne (by omega)]
          exact hother i hi hne
        · intro P hclosed hid
          exact hbelow P hclosed fun l' ↦ hclosed _ l' (hid l hget)

end Tree

end GoEntropy.Snapshot
