import GoEntropy.Snapshot.CleanUp

/-!
# Healthy trees

`Healthy` is the agreement of the register with the pointers: every registered layer heads a chain
of live layers to the one disk layer, its parent is registered too, and its filter covers the chain.

The clean-up cannot create this agreement, since it follows roots and never looks at a pointer twice.
It preserves it among the layers it spares: if those already agree with their pointers
(`Recovers`), the tree is healthy afterwards (`Recovers.cleanUp`).
-/

namespace GoEntropy.Snapshot

open GoEntropy.Container Relation

/-- The pointer to the layer below. -/
def Layer.below : Layer → Option LayerId
  | .disk _ => none
  | .diff l => some l.parent

namespace Tree

/-- The register agrees with the pointers, over the disk layer `base`. -/
structure Healthy (F : BloomFilter) (t : Tree) (base : LayerId) : Prop where
  registered : ∃ root, t.layers.lookup root = some base
  named : ∀ root id l, t.layers.lookup root = some id → t.heap[id]? = some l → l.root = root
  chain : ∀ root id, t.layers.lookup root = some id → ∃ dls, Chain t.heap base id dls
  closed : ∀ root id l, t.layers.lookup root = some id → t.heap[id]? = some (.diff l) →
    ∃ root', t.layers.lookup root' = some l.parent
  filtered : ∀ root id l, t.layers.lookup root = some id → t.heap[id]? = some (.diff l) →
    Filtered F t.heap base id

variable {F : BloomFilter} {t t₂ : Tree} {base base' : LayerId}

namespace Healthy

variable {id : LayerId}

variable (h : Healthy F t base)

include h

theorem get {root : Hash} (hid : t.layers.lookup root = some id) :
    ∃ l, t.heap[id]? = some l ∧ l.root = root := by
  obtain ⟨_, hchain⟩ := h.chain root id hid
  have hget := List.getElem?_eq_getElem hchain.lt_length
  exact ⟨_, hget, h.named root id _ hid hget⟩

theorem inj {r r' : Hash} (hr : t.layers.lookup r = some id)
    (hr' : t.layers.lookup r' = some id) : r = r' := by
  obtain ⟨l, hl, hroot⟩ := h.get hr
  rw [← hroot, h.named r' id l hr' hl]

theorem parent {root : Hash} {l : DiffLayer} {lp : Layer}
    (hid : t.layers.lookup root = some id) (hl : t.heap[id]? = some (.diff l))
    (hlp : t.heap[l.parent]? = some lp) : t.layers.lookup lp.root = some l.parent := by
  obtain ⟨root', hroot'⟩ := h.closed root id l hid hl
  rwa [h.named root' _ lp hroot' hlp]

theorem base_lookup {l : Layer} (hl : t.heap[base]? = some l) :
    t.layers.lookup l.root = some base := by
  obtain ⟨root, hroot⟩ := h.registered
  rwa [h.named root base l hroot hl]

theorem covers {root : Hash} {l : DiffLayer} {dls : List DiffLayer} (hid : t.layers.lookup root = some id)
    (hl : t.heap[id]? = some (.diff l)) (hdls : Chain t.heap base id dls) : l.origin = base ∧ Covers F l dls := by
  obtain ⟨l', dls', hl', hdls', horigin, hcovers⟩ := h.filtered root id l hid hl
  cases hl.symm.trans hl'
  exact ⟨horigin, hdls.unique hdls' ▸ hcovers⟩

end Healthy

theorem lookup_singleton {r root : Hash} {b id : LayerId} :
    (AList.singleton r b : HashMap LayerId).lookup root = some id ↔ root = r ∧ id = b := by
  rw [← AList.insert_empty, lookup_insert_eq_ite]
  by_cases hr : root = r <;> simp [eq_comm]

theorem healthy_singleton {l : DiskLayer} (hlayers : t.layers = AList.singleton l.root base)
    (hget : t.heap[base]? = some (.disk l)) (hlive : l.stale = false) : Healthy F t base := by
  have hlookup : ∀ root id, t.layers.lookup root = some id → root = l.root ∧ id = base :=
    fun root id h ↦ lookup_singleton.1 (hlayers ▸ h)
  refine ⟨⟨l.root, hlayers ▸ lookup_singleton.2 ⟨rfl, rfl⟩⟩, ?_, fun root id hid ↦ ?_, ?_, ?_⟩
  · intro root id l' hid hl'
    obtain ⟨rfl, rfl⟩ := hlookup root id hid
    cases hl'.symm.trans hget
    rfl
  · obtain ⟨-, rfl⟩ := hlookup root id hid
    exact ⟨[], .disk hget hlive⟩
  all_goals
    intro root id l' hid hl'
    obtain ⟨-, rfl⟩ := hlookup root id hid
    cases hl'.symm.trans hget

/-! ## The clean-up -/

/-- What survives a sweep: the roots that do not lie over a stale layer. -/
structure Survives (t : Tree) (root : Hash) (id : LayerId) : Prop where
  lookup : t.layers.lookup root = some id
  spared : ¬ Doomed t.heap t.layers t.children root

/-- The collection of children has no cycle, and its paths are no longer than the heap. -/
def Acyclic (t : Tree) : Prop :=
  ∃ height : Hash → Nat, (∀ a b, b ∈ kids t.children a → height b < height a) ∧
    ∀ root, height root < t.heap.length

/-- How the clean-up leaves the filters: as they were without a new disk layer, and else rebuilt
from its root. -/
def Rebuilt (F : BloomFilter) (t t' : Tree) : Option LayerId → Prop
  | none => t'.heap = t.heap
  | some b => ∃ children l, Pruned t.children (t'.layers, children) ∧ t.heap[b]? = some l ∧
      rebloomUp F t'.layers children b t.heap.length l.root t.heap = .ok t'.heap

/-- The clean-up always ends; the register keeps the survivors, and of the layers only filters
change. -/
theorem cleanUp_total (hacyclic : Acyclic t) {persisted : Option LayerId}
    (hpersisted : ∀ b, persisted = some b → b < t.heap.length) :
    ∃ t', t.cleanUp F persisted = .ok t' ∧ t'.disk = t.disk ∧ SameLayers t.heap t'.heap ∧
      (∀ root id, t'.layers.lookup root = some id ↔ Survives t root id) ∧ Rebuilt F t t' persisted := by
  obtain ⟨height, hheight, hbound⟩ := hacyclic
  obtain ⟨⟨layers, children⟩, hsweep, hpruned, hremoved⟩ :=
    sweep_spec hheight fun root (id : LayerId) (_ : t.layers.lookup root = some id) ↦ hbound root
  have hsurvives : ∀ root id, layers.lookup root = some id ↔ Survives t root id := by
    intro root id
    constructor
    · intro hid
      have hspared : ¬ Doomed t.heap t.layers t.children root := by
        intro hdoomed
        simp [hremoved.gone root hdoomed] at hid
      exact ⟨(hremoved.kept root hspared).symm.trans hid, hspared⟩
    · intro h
      exact (hremoved.kept root h.spared).trans h.lookup
  unfold cleanUp
  rw [hsweep]
  cases persisted with
  | none => exact ⟨_, rfl, rfl, .refl _, hsurvives, rfl⟩
  | some b =>
    have hb := List.getElem?_eq_getElem (hpersisted b rfl)
    have hheight' : ∀ a b, b ∈ kids children a → height b < height a := by
      intro a b hmem
      rcases hpruned a with hkids | hkids
      · exact hheight a b (hkids ▸ hmem)
      · simp [hkids.1] at hmem
    obtain ⟨heap', hrebloom, hsame⟩ := rebloomUp_total hheight' (hbound _) t.heap
    refine ⟨{ t with heap := heap', layers }, ?_, rfl, hsame, hsurvives, children, _, hpruned, hb,
      hrebloom⟩
    simp only [hb, hrebloom]
    rfl

/-- The survivors form a healthy tree, but for filters that are still to be rebuilt. -/
structure Recovers (F : BloomFilter) (t : Tree) (base : LayerId) (persisted : Option LayerId) :
    Prop where
  acyclic : Acyclic t
  registered : ∃ root, Survives t root base
  named : ∀ root id l, Survives t root id → t.heap[id]? = some l → l.root = root
  chain : ∀ root id, Survives t root id → ∃ dls, Chain t.heap base id dls
  closed : ∀ root id l, Survives t root id → t.heap[id]? = some (.diff l) →
    ∃ root', Survives t root' l.parent
  filtered : persisted = none → ∀ root id l, Survives t root id → t.heap[id]? = some (.diff l) →
    Filtered F t.heap base id
  rebuilt : ∀ b, persisted = some b → b = base

namespace Recovers

variable {persisted : Option LayerId}

variable (h : Recovers F t base persisted)

include h

/-- A survivor is collected under the root of its parent. -/
theorem mem_kids {root root' : Hash} {id : LayerId} {l : DiffLayer}
    (hid : Survives t root id) (hl : t.heap[id]? = some (.diff l)) (hp : Survives t root' l.parent) :
    root ∈ kids t.children root' := by
  obtain ⟨_, hchain⟩ := h.chain root' _ hp
  have hget := List.getElem?_eq_getElem hchain.lt_length
  exact (mem_kids_children t root' root).mpr
    ⟨id, hid.lookup, l, _, hl, hget, h.named root' _ _ hp hget⟩

/-- Every survivor lies over the disk layer in what is left of the collection. -/
theorem over_base {layers : HashMap LayerId}
    {children : HashMap (List Hash)} (hpruned : Pruned t.children (layers, children))
    (hsurvives : ∀ root id, layers.lookup root = some id ↔ Survives t root id) {rb : Hash}
    (hrb : Survives t rb base) {id : LayerId} {dls : List DiffLayer} (hchain : Chain t.heap base id dls)
    {root : Hash} (hid : Survives t root id) : Over children rb root := by
  induction hchain generalizing root with
  | disk hget hlive =>
    have hroot : rb = root := by rw [← h.named rb _ _ hrb hget, h.named root _ _ hid hget]
    exact hroot ▸ .refl
  | @diff id l rest hget hlive hrest ih =>
    obtain ⟨root', hp⟩ := h.closed root id l hid hget
    refine (ih hp).tail ?_
    rcases hpruned root' with hkids | ⟨-, hgone⟩
    · rw [hkids]
      exact h.mem_kids hid hget hp
    · have := hgone root' .refl
      rw [(hsurvives root' _).mpr hp] at this
      simp at this

/-- The clean-up of a tree whose survivors agree with their pointers leaves it healthy. -/
theorem cleanUp :
    ∃ t', t.cleanUp F persisted = .ok t' ∧ Healthy F t' base ∧ t'.disk = t.disk ∧
      SameLayers t.heap t'.heap ∧ ∀ root id, t'.layers.lookup root = some id ↔ Survives t root id := by
  obtain ⟨rb, hrb⟩ := h.registered
  have hbound : ∀ b, persisted = some b → b < t.heap.length := by
    intro b hb
    rw [h.rebuilt b hb]
    obtain ⟨_, hchain⟩ := h.chain rb base hrb
    exact hchain.lt_length
  obtain ⟨t', hclean, hdisk, hsame, hsurvives, hrebuilt⟩ := cleanUp_total h.acyclic hbound
  refine ⟨t', hclean, ⟨⟨rb, (hsurvives rb base).mpr hrb⟩, ?_, ?_, ?_, ?_⟩, hdisk, hsame, hsurvives⟩
  · intro root id l' hid hl'
    obtain ⟨l, hl, hroot⟩ := hsame.symm.root hl'
    rw [← hroot]
    exact h.named root id l ((hsurvives root id).mp hid) hl
  · intro root id hid
    obtain ⟨dls, hchain⟩ := h.chain root id ((hsurvives root id).mp hid)
    obtain ⟨dls', hchain', -⟩ := hsame.chain hchain
    exact ⟨dls', hchain'⟩
  · intro root id l' hid hl'
    obtain ⟨o, d, hl⟩ := hsame.symm.diff hl'
    obtain ⟨root', hp⟩ := h.closed root id _ ((hsurvives root id).mp hid) hl
    exact ⟨root', (hsurvives root' _).mpr hp⟩
  · intro root id l' hid hl'
    obtain ⟨o, d, hl⟩ := hsame.symm.diff hl'
    have hs := (hsurvives root id).mp hid
    cases hpers : persisted with
    | none =>
      rw [hpers] at hrebuilt
      have hheap : t'.heap = t.heap := hrebuilt
      rw [hheap]
      exact h.filtered hpers root id _ hs hl
    | some b =>
      obtain rfl := h.rebuilt b hpers
      rw [hpers] at hrebuilt
      obtain ⟨children, lb, hpruned, hlb, hrebloom⟩ := hrebuilt
      obtain ⟨height, hheight, hbound⟩ := h.acyclic
      have hkids : ∀ a c, c ∈ kids children a → c ∈ kids t.children a := by
        intro a c hmem
        rcases hpruned a with hkids | hkids
        · exact hkids ▸ hmem
        · simp [hkids.1] at hmem
      have hwired : Wired t.heap t'.layers children := by
        intro root c id l hc hid hl
        obtain ⟨id', hid', l', parent, hl', hparent, hroot⟩ :=
          (mem_kids_children t root c).mp (hkids _ _ hc)
        have hsc := (hsurvives c id).mp hid
        cases hid'.symm.trans hsc.lookup
        cases hl'.symm.trans hl
        obtain ⟨root', hp⟩ := h.closed c id _ hsc hl
        rw [← hroot, h.named root' _ _ hp hparent]
        exact (hsurvives root' _).mpr hp
      have hready : ∀ id, t'.layers.lookup lb.root = some id → ParentReady F t.heap b id := by
        intro id hid l hl
        have hroot := h.named rb b lb hrb hlb
        rw [hroot] at hid
        cases ((hsurvives rb b).mpr hrb).symm.trans hid
        obtain ⟨_, hchain⟩ := h.chain rb b hrb
        obtain ⟨disk, hdisk, -⟩ := hchain.base_disk
        simp [hl] at hdisk
      obtain ⟨heap', hrebloom', -, -, hall⟩ := rebloomUp_spec
        (fun a c hc ↦ hheight a c (hkids a c hc))
        (fun root id hid ↦ h.chain root id ((hsurvives root id).mp hid)) hwired (hbound lb.root)
        (.refl t.heap) hready
      cases hrebloom.symm.trans hrebloom'
      obtain ⟨dls, hchain⟩ := h.chain root id hs
      refine hall root id _ ?_ hid hl
      rw [h.named rb b lb hrb hlb]
      exact h.over_base hpruned hsurvives hrb hchain hs

end Recovers

end Tree

end GoEntropy.Snapshot
