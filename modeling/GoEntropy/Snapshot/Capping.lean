import GoEntropy.Snapshot.Healthy

/-!
# Capping

Capping rewires the layer it dived to onto a new bottom, a flattened diff layer or a new disk layer,
which takes the place of the old parent in the register (`Rewired`). Whatever else pointed to the old
parent still does.

If nothing else did, what the clean-up spares agrees with its pointers (`Rewired.recovers`), and every
layer that stays stands for the same flat state as before. If something did, it stays in the
register, over a layer that is not live (`Rewired.not_live`).
-/

namespace GoEntropy.Snapshot

open GoEntropy.Container Relation

namespace Tree

variable {F : BloomFilter} {t t₂ : Tree} {base base' : LayerId}

/-! ## Depth -/

/-- The number of diff layers under a root. -/
noncomputable def depth (t : Tree) (base : LayerId) (root : Hash) : Nat := by
  classical
  exact if h : ∃ id dls, t.layers.lookup root = some id ∧ Chain t.heap base id dls then
    h.choose_spec.choose.length else 0

variable {id : LayerId} {root : Hash} {dls : List DiffLayer}

theorem depth_eq (hid : t.layers.lookup root = some id) (hchain : Chain t.heap base id dls) :
    t.depth base root = dls.length := by
  have h : ∃ id dls, t.layers.lookup root = some id ∧ Chain t.heap base id dls := ⟨id, dls, hid, hchain⟩
  obtain ⟨hid', hchain'⟩ := h.choose_spec.choose_spec
  rw [depth, dif_pos h]
  cases hid.symm.trans hid'
  rw [hchain'.unique hchain]

/-- Children that lie deeper in a healthy tree form no cycle. -/
theorem Healthy.acyclic {t₂ : Tree} (h : Healthy F t base) (hlen : t.heap.length ≤ t₂.heap.length)
    (hdepth : ∀ a c, c ∈ kids t₂.children a →
      t.depth base a < t.depth base c ∧ ∃ id, t.layers.lookup c = some id) : Acyclic t₂ := by
  refine ⟨fun root ↦ t.heap.length - 1 - t.depth base root, fun a c hc ↦ ?_, fun root ↦ ?_⟩
  · obtain ⟨hlt, id, hid⟩ := hdepth a c hc
    obtain ⟨dls, hdls⟩ := h.chain c id hid
    have hbound := hdls.length_lt
    rw [← depth_eq hid hdls] at hbound
    show t.heap.length - 1 - t.depth base c < t.heap.length - 1 - t.depth base a
    omega
  · obtain ⟨r, hr⟩ := h.registered
    obtain ⟨dls, hdls⟩ := h.chain r base hr
    have hpos : 0 < t.heap.length := Nat.zero_lt_of_lt hdls.lt_length
    show t.heap.length - 1 - t.depth base root < t₂.heap.length
    omega

/-! ## What capping rewires -/

/-- A place to cut a healthy tree: a registered layer `cut` over a diff layer. -/
structure Cut (F : BloomFilter) (t : Tree) (base cut : LayerId) (ld lp : DiffLayer)
    (rest : List DiffLayer) : Prop where
  healthy : Healthy F t base
  registered : t.layers.lookup ld.root = some cut
  chain : Chain t.heap base cut (ld :: lp :: rest)

namespace Cut

variable {cut : LayerId} {ld lp : DiffLayer} {rest : List DiffLayer} (hc : Cut F t base cut ld lp rest)

include hc

theorem parent_chain : Chain t.heap base ld.parent (lp :: rest) := hc.chain.head.2.2

theorem parent_lookup : t.layers.lookup lp.root = some ld.parent :=
  hc.healthy.parent hc.registered hc.chain.head.1 hc.parent_chain.head.1

theorem parent_depth : t.depth base lp.root = rest.length + 1 :=
  depth_eq hc.parent_lookup hc.parent_chain

theorem base_root_ne {disk : DiskLayer} (hdisk : t.heap[base]? = some (.disk disk)) :
    disk.root ≠ lp.root := by
  intro heq
  have hlookup : t.layers.lookup lp.root = some base := heq ▸ hc.healthy.base_lookup hdisk
  have hbase : ld.parent = base := Option.some.inj (hc.parent_lookup.symm.trans hlookup)
  have hget := hc.parent_chain.head.1
  rw [hbase, hdisk] at hget
  simp at hget

end Cut

/-- The tree `t₂` is `t` after `cap` worked below the layer `cut`: in the register, and as the parent
of `cut`, the layer `n` has taken the place of the old parent, which headed the chain `lp :: rest`. -/
structure Rewired (F : BloomFilter) (t t₂ : Tree) (base cut n : LayerId) (ld lp : DiffLayer)
    (rest : List DiffLayer) : Prop extends Cut F t base cut ld lp rest where
  length : t.heap.length ≤ t₂.heap.length
  lookup : ∀ root, t₂.layers.lookup root = if root = lp.root then some n else t.layers.lookup root
  relinked : t₂.heap[cut]? = some (.diff { ld with parent := n })
  bottom : ∃ l : Layer, t₂.heap[n]? = some l ∧ l.root = lp.root ∧ l.stale = false ∧
    ∀ q, l.below = some q → q = base ∧ isStale t₂.heap base = false
  new : ∀ root, t.layers.lookup root = some n → root = lp.root
  old : ∀ (i : LayerId) (l : Layer), t.heap[i]? = some l → i ≠ cut →
    ∃ l' : Layer, t₂.heap[i]? = some l' ∧ l'.root = l.root ∧ l'.below = l.below ∧
      (l' = l ∨ l'.stale = true)
  low : ∀ i dls, Chain t.heap base i dls → i ≠ cut → isStale t₂.heap i = true →
    dls.length ≤ rest.length

theorem doomed_iff (t : Tree) (x : Hash) :
    Doomed t.heap t.layers t.children x ↔
      (∃ id, t.layers.lookup x = some id ∧ isStale t.heap id = true) ∨
        ∃ a, x ∈ kids t.children a ∧ Doomed t.heap t.layers t.children a := by
  constructor
  · rintro ⟨root, id, hid, hstale, hover⟩
    rcases ReflTransGen.cases_tail hover with rfl | ⟨a, hra, hax⟩
    · exact .inl ⟨id, hid, hstale⟩
    · exact .inr ⟨a, hax, root, id, hid, hstale, hra⟩
  · rintro (⟨id, hid, hstale⟩ | ⟨a, hax, root, id, hid, hstale, hra⟩)
    · exact ⟨x, id, hid, hstale, .refl⟩
    · exact ⟨root, id, hid, hstale, hra.tail hax⟩

theorem isStale_eq {heap : Heap} {l : Layer} (hl : heap[id]? = some l) :
    isStale heap id = l.stale := by
  rw [isStale, hl]

namespace Rewired

variable {cut n : LayerId} {ld lp : DiffLayer} {rest : List DiffLayer}
  (hw : Rewired F t t₂ base cut n ld lp rest)

include hw

theorem root_eq {i : LayerId} {l l' : Layer} (hl : t.heap[i]? = some l) (hl' : t₂.heap[i]? = some l') :
    l'.root = l.root := by
  by_cases hi : i = cut
  · subst hi
    cases hl.symm.trans hw.chain.head.1
    cases hl'.symm.trans hw.relinked
    rfl
  · obtain ⟨l'', hl'', hroot, -⟩ := hw.old i l hl hi
    cases hl'.symm.trans hl''
    exact hroot

/-- What is collected under a root: the bottom over the disk layer, the layer at the cut over the
bottom, and any other layer over its old parent. -/
theorem child_cases {a c : Hash} (hc : c ∈ kids t₂.children a) :
    (c = lp.root ∧ t.layers.lookup a = some base ∧ t₂.layers.lookup a = some base ∧
        isStale t₂.heap base = false) ∨
      (c ≠ lp.root ∧ c = ld.root ∧ a = lp.root) ∨
      ∃ id l lq, c ≠ lp.root ∧ t.layers.lookup c = some id ∧ id ≠ cut ∧ t.heap[id]? = some (.diff l) ∧
        t.heap[l.parent]? = some lq ∧ a = lq.root := by
  obtain ⟨id, hid, l, parent, hl, hparent, hroot⟩ := (mem_kids_children t₂ a c).mp hc
  rw [hw.lookup] at hid
  split at hid
  · next hcroot =>
    cases hid
    obtain ⟨lb, hlb, -, -, hbelow⟩ := hw.bottom
    cases hl.symm.trans hlb
    obtain ⟨hbase, hlive⟩ := hbelow l.parent rfl
    obtain ⟨disk, hdisk, -⟩ := hw.chain.base_disk
    rw [hbase] at hparent
    have haroot : a = disk.root := hroot.symm.trans (hw.root_eq hdisk hparent)
    have hlookup := hw.healthy.base_lookup hdisk
    refine .inl ⟨hcroot, haroot ▸ hlookup, ?_, hlive⟩
    rw [haroot, hw.lookup, if_neg (hw.base_root_ne hdisk)]
    exact hlookup
  · next hcroot =>
    by_cases hne : id = cut
    · subst hne
      cases hl.symm.trans hw.relinked
      obtain ⟨lb, hlb, hlbroot, -⟩ := hw.bottom
      cases hparent.symm.trans hlb
      exact .inr (.inl ⟨hcroot, hw.healthy.inj hid hw.registered, hroot.symm.trans hlbroot⟩)
    · obtain ⟨layer, hget, -⟩ := hw.healthy.get hid
      obtain ⟨l', hl', -, hbelow, -⟩ := hw.old id layer hget hne
      cases hl.symm.trans hl'
      cases layer with
      | disk l₀ => simp [Layer.below] at hbelow
      | diff l₀ =>
        have hp : l.parent = l₀.parent := Option.some.inj hbelow
        obtain ⟨r', hr'⟩ := hw.healthy.closed c id l₀ hid hget
        obtain ⟨lq, hlq, -⟩ := hw.healthy.get hr'
        rw [hp] at hparent
        exact .inr (.inr ⟨id, l₀, lq, hcroot, hid, hne, hget, hlq,
          hroot.symm.trans (hw.root_eq hlq hparent)⟩)

/-- The collection has no cycle: depth in the old tree grows along it. -/
theorem depth_lt {a c : Hash} (hc : c ∈ kids t₂.children a) :
    t.depth base a < t.depth base c ∧ ∃ id, t.layers.lookup c = some id := by
  rcases hw.child_cases hc with ⟨rfl, ha, -, -⟩ | ⟨-, rfl, rfl⟩ | ⟨id, l, lq, -, hid, -, hl, hlq, rfl⟩
  · obtain ⟨disk, hdisk, hlive⟩ := hw.chain.base_disk
    rw [hw.parent_depth, depth_eq ha (.disk hdisk hlive)]
    exact ⟨by simp, _, hw.parent_lookup⟩
  · rw [hw.parent_depth, depth_eq hw.registered hw.chain]
    exact ⟨by simp, _, hw.registered⟩
  · obtain ⟨dls, hdls⟩ := hw.healthy.chain c id hid
    obtain ⟨below, rfl, -, hbelow⟩ := hdls.of_diff hl
    rw [depth_eq (hw.healthy.parent hid hl hlq) hbelow, depth_eq hid hdls]
    exact ⟨by simp, id, hid⟩

theorem base_not_doomed {disk : DiskLayer} (hdisk : t.heap[base]? = some (.disk disk))
    (hlive : isStale t₂.heap base = false) :
    ¬ Doomed t₂.heap t₂.layers t₂.children disk.root := by
  have hlookup : t.layers.lookup disk.root = some base := hw.healthy.base_lookup hdisk
  rw [doomed_iff]
  rintro (⟨id, hid, hstale⟩ | ⟨a, ha, -⟩)
  · rw [hw.lookup, if_neg (hw.base_root_ne hdisk)] at hid
    cases hid.symm.trans hlookup
    simp [hlive] at hstale
  · have hdepth := (hw.depth_lt ha).1
    rw [depth_eq hlookup (.disk hdisk (hw.chain.base_disk_live hdisk))] at hdepth
    simp at hdepth

theorem bottom_not_doomed : ¬ Doomed t₂.heap t₂.layers t₂.children lp.root := by
  obtain ⟨lb, hlb, hlbroot, hlive, hbelow⟩ := hw.bottom
  rw [doomed_iff]
  rintro (⟨id, hid, hstale⟩ | ⟨a, ha, hdoomed⟩)
  · rw [hw.lookup, if_pos rfl] at hid
    cases hid
    simp [isStale_eq hlb, hlive] at hstale
  · obtain ⟨disk, hdisk, -⟩ := hw.chain.base_disk
    rcases hw.child_cases ha with ⟨-, halookup, -, hbaselive⟩ | ⟨hne, -⟩ | ⟨_, _, _, hne, -⟩
    · have hroot : a = disk.root := hw.healthy.inj halookup (hw.healthy.base_lookup hdisk)
      exact hw.base_not_doomed hdisk hbaselive (hroot ▸ hdoomed)
    · exact hne rfl
    · exact hne rfl

theorem cut_root_ne : ld.root ≠ lp.root := by
  intro heq
  have hcut := depth_eq hw.registered hw.chain
  rw [heq, hw.parent_depth] at hcut
  simp at hcut

theorem survivor_get {x : Hash} (hid : t.layers.lookup x = some id)
    (hx : ¬ Doomed t₂.heap t₂.layers t₂.children x) (hroot : x ≠ lp.root) (hne : id ≠ cut) :
    ∃ l, t.heap[id]? = some l ∧ t₂.heap[id]? = some l := by
  obtain ⟨l, hl, -⟩ := hw.healthy.get hid
  obtain ⟨l', hl', -, -, rfl | hstale⟩ := hw.old id l hl hne
  · exact ⟨l', hl, hl'⟩
  · refine absurd ((doomed_iff t₂ x).mpr (.inl ⟨id, ?_, ?_⟩)) hx
    · rw [hw.lookup, if_neg hroot]
      exact hid
    · rw [isStale_eq hl', hstale]

/-- The old parent of such a layer stays too, as far as its root goes. -/
theorem survivor_parent {x : Hash} {l : DiffLayer} {lq : Layer}
    (hid : t.layers.lookup x = some id) (hx : ¬ Doomed t₂.heap t₂.layers t₂.children x)
    (hroot : x ≠ lp.root) (hne : id ≠ cut) (hl : t.heap[id]? = some (.diff l))
    (hlq : t.heap[l.parent]? = some lq) : ¬ Doomed t₂.heap t₂.layers t₂.children lq.root := by
  obtain ⟨l', hl', hl₂⟩ := hw.survivor_get hid hx hroot hne
  cases hl.symm.trans hl'
  intro hdoomed
  refine hx ((doomed_iff t₂ x).mpr (.inr ⟨lq.root, ?_, hdoomed⟩))
  refine (mem_kids_children t₂ lq.root x).mpr ⟨id, ?_, l, ?_⟩
  · rw [hw.lookup, if_neg hroot]
    exact hid
  · have hq : ∃ lq', t₂.heap[l.parent]? = some lq' := by
      have hlt := lt_of_lt_of_le (lt_of_get hlq) hw.length
      exact ⟨_, List.getElem?_eq_getElem hlt⟩
    obtain ⟨lq', hlq'⟩ := hq
    exact ⟨lq', hl₂, hlq', hw.root_eq hlq hlq'⟩

theorem acyclic : Acyclic t₂ := hw.healthy.acyclic hw.length fun _ _ ↦ hw.depth_lt

end Rewired

/-! ## The layers that stay -/

/-- The keys that the layers of a chain add to filters. -/
def chainKeys (F : BloomFilter) (dls : List DiffLayer) : List (BitVec 64) :=
  dls.flatMap fun dl ↦ dl.bloomKeys F

@[simp] theorem chainKeys_cons (l : DiffLayer) (rest : List DiffLayer) :
    chainKeys F (l :: rest) = l.bloomKeys F ++ chainKeys F rest := rfl

variable {l : DiffLayer}

theorem covers_iff :
    Covers F l dls ↔ chainKeys F dls ⊆ l.diffed := by
  constructor
  · intro h x hx
    obtain ⟨dl, hdl, hx⟩ := List.mem_flatMap.mp hx
    exact h dl hdl hx
  · intro h dl hdl x hx
    exact h (List.mem_flatMap.mpr ⟨dl, hdl, hx⟩)

/-- The disk layer is not being generated. -/
def Complete (t : Tree) (base : LayerId) : Prop :=
  ∃ l : DiskLayer, t.heap[base]? = some (.disk l) ∧ l.genMarker = none

/-- A chain of one tree stands for no less than a chain of another: it adds no keys, and over a
complete disk layer has the same flat state. -/
structure Stands (F : BloomFilter) (t t₂ : Tree) (base : LayerId) (dls dls₂ : List DiffLayer) :
    Prop where
  keys : chainKeys F dls₂ ⊆ chainKeys F dls
  flat : t.Complete base → t₂.flat dls₂ = t.flat dls

theorem Stands.cons {dls dls₂ : List DiffLayer} (h : Stands F t t₂ base dls dls₂) {l l₂ : DiffLayer}
    (hl : l₂.toDiffData = l.toDiffData) : Stands F t t₂ base (l :: dls) (l₂ :: dls₂) where
  keys := by
    rw [chainKeys_cons, hl]
    exact List.append_subset.mpr ⟨List.subset_append_left _ _,
      List.Subset.trans h.keys (List.subset_append_right _ _)⟩
  flat hcomplete := by rw [flat_cons, flat_cons, h.flat hcomplete, hl]

/-- Where the disk layer of the rewired tree is: either still the old one, or the new bottom. -/
inductive Settled (t t₂ : Tree) (base n : LayerId) : LayerId → Option LayerId → Prop
  | kept (hdisk : t₂.disk = t.disk) (hlive : isStale t₂.heap base = false)
      (hcomplete : t.Complete base → t₂.Complete base) : Settled t t₂ base n base none
  | moved (hstale : isStale t₂.heap base = true)
      (hcoherent : t.disk.Coherent → t₂.disk.Coherent)
      (hcomplete : t.Complete base → t₂.Complete n) : Settled t t₂ base n n (some n)

namespace Rewired

variable {cut n : LayerId} {ld lp : DiffLayer} {rest : List DiffLayer} {persisted : Option LayerId}
  (hw : Rewired F t t₂ base cut n ld lp rest)

/-- The new bottom heads a chain that stands for the old one. -/
def Grounded (F : BloomFilter) (t t₂ : Tree) (base base' n : LayerId) (dls : List DiffLayer) : Prop :=
  ∃ dls₂, Chain t₂.heap base' n dls₂ ∧ Stands F t t₂ base dls dls₂

/-- Nothing but the layer at the cut points to the old parent, unless it is the new bottom. -/
def Forkless (t : Tree) (cut n : LayerId) (ld : DiffLayer) : Prop :=
  ∀ root id l, t.layers.lookup root = some id → t.heap[id]? = some (.diff l) →
    l.parent = ld.parent → id = cut ∨ n = ld.parent

include hw

theorem survives_lookup (hs : Survives t₂ root id) (hne : root ≠ lp.root) :
    t.layers.lookup root = some id := by
  have hid := hs.lookup
  rwa [hw.lookup, if_neg hne] at hid

theorem bottom_eq (hs : Survives t₂ root id) (hroot : root = lp.root) : id = n := by
  have hid := hs.lookup
  rw [hw.lookup, if_pos hroot] at hid
  exact (Option.some.inj hid).symm

theorem survives_before (hs : Survives t₂ root id) : ∃ id₀, t.layers.lookup root = some id₀ := by
  by_cases hroot : root = lp.root
  · exact ⟨_, hroot ▸ hw.parent_lookup⟩
  · exact ⟨id, hw.survives_lookup hs hroot⟩

/-- The parent of a layer that stays, other than the two at the cut, stays. -/
theorem survives_parent (hfork : Forkless t cut n ld)
    (hs : Survives t₂ root id) (hroot : root ≠ lp.root) (hne : id ≠ cut)
    (hl : t₂.heap[id]? = some (.diff l)) :
    ∃ lq : Layer, t.heap[l.parent]? = some lq ∧ t.layers.lookup lq.root = some l.parent ∧
      Survives t₂ lq.root l.parent := by
  have hid := hw.survives_lookup hs hroot
  obtain ⟨l₀, hl₀, hl₀'⟩ := hw.survivor_get hid hs.spared hroot hne
  cases hl.symm.trans hl₀'
  obtain ⟨r', hr'⟩ := hw.healthy.closed root id l hid hl₀
  obtain ⟨lq, hlq, -⟩ := hw.healthy.get hr'
  have hlookup := hw.healthy.parent hid hl₀ hlq
  refine ⟨lq, hlq, hlookup, ?_, hw.survivor_parent hid hs.spared hroot hne hl₀ hlq⟩
  rw [hw.lookup]
  split
  · next heq =>
    -- The parent is the old one at the cut, so it must be the new bottom.
    rw [heq, hw.parent_lookup] at hlookup
    have hparent : ld.parent = l.parent := Option.some.inj hlookup
    rcases hfork root id l hid hl₀ hparent.symm with h | h
    · exact absurd h hne
    · rw [h, hparent]
  · exact hlookup

/-- Every layer that stays heads a chain that stands for that of the layer with its root before. -/
theorem survives_chain (hfork : Forkless t cut n ld) (hsettled : Settled t t₂ base n base' persisted)
    (hground : Grounded F t t₂ base base' n (lp :: rest)) {id id₀ : LayerId}
    (hs : Survives t₂ root id) (hid₀ : t.layers.lookup root = some id₀)
    (hchain : Chain t.heap base id₀ dls) :
    ∃ dls₂, Chain t₂.heap base' id dls₂ ∧ Stands F t t₂ base dls dls₂ := by
  induction hchain generalizing root id with
  | @disk l hget hlive =>
    have hroot : root ≠ lp.root := by
      intro heq
      rw [heq, hw.parent_lookup] at hid₀
      have := hw.parent_chain.head.1
      rw [Option.some.inj hid₀, hget] at this
      simp at this
    cases (hw.survives_lookup hs hroot).symm.trans hid₀
    have hne : base ≠ cut := by
      rintro rfl
      have := hw.chain.head.1
      simp [hget] at this
    obtain ⟨l', hl', hl₂⟩ := hw.survivor_get hid₀ hs.spared hroot hne
    cases hget.symm.trans hl'
    cases hsettled with
    | kept hdisk =>
      refine ⟨[], .disk hl₂ hlive, .refl _, fun _ ↦ ?_⟩
      funext key
      simp [flat, hdisk]
    | moved hstale =>
      rw [isStale_eq hl₂] at hstale
      simp [Layer.stale, hlive] at hstale
  | @diff i l below hget hlive hbelow ih =>
    by_cases hroot : root = lp.root
    · -- The bottom.
      cases hw.bottom_eq hs hroot
      rw [hroot, hw.parent_lookup] at hid₀
      cases Option.some.inj hid₀
      rw [Chain.unique (.diff hget hlive hbelow) hw.parent_chain]
      exact hground
    · cases (hw.survives_lookup hs hroot).symm.trans hid₀
      by_cases hne : i = cut
      · -- The layer at the cut, over the bottom.
        subst hne
        have hdls := Chain.unique (.diff hget hlive hbelow) hw.chain
        injection hdls with hl hbelow'
        obtain ⟨dls₂, hchain₂, hstands⟩ := hground
        refine ⟨{ ld with parent := n } :: dls₂, .diff hw.relinked hw.chain.head.2.1 hchain₂, ?_⟩
        rw [hl, hbelow']
        exact hstands.cons rfl
      · obtain ⟨l', hl', hl₂⟩ := hw.survivor_get hid₀ hs.spared hroot hne
        cases hget.symm.trans hl'
        obtain ⟨lq, -, hlookup, hsq⟩ := hw.survives_parent hfork hs hroot hne hl₂
        obtain ⟨dls₂, hchain₂, hstands⟩ := ih hsq hlookup
        exact ⟨l :: dls₂, .diff hl₂ hlive hchain₂, hstands.cons rfl⟩

theorem survives_bottom : Survives t₂ lp.root n :=
  ⟨by rw [hw.lookup, if_pos rfl], hw.bottom_not_doomed⟩

theorem survives_base {disk : DiskLayer} (hdisk : t.heap[base]? = some (.disk disk))
    (hlive : isStale t₂.heap base = false) : Survives t₂ disk.root base := by
  refine ⟨?_, hw.base_not_doomed hdisk hlive⟩
  rw [hw.lookup, if_neg (hw.base_root_ne hdisk)]
  exact hw.healthy.base_lookup hdisk

/-- A layer that stays under a root other than the bottom's keeps its origin, filter and maps. -/
theorem survives_get (hs : Survives t₂ root id)
    (hroot : root ≠ lp.root) (hl : t₂.heap[id]? = some (.diff l)) :
    ∃ l₀ : DiffLayer, t.heap[id]? = some (.diff l₀) ∧ l.origin = l₀.origin ∧ l.diffed = l₀.diffed := by
  by_cases hne : id = cut
  · subst hne
    cases hl.symm.trans hw.relinked
    exact ⟨ld, hw.chain.head.1, rfl, rfl⟩
  · obtain ⟨l₀, hl₀, hl₂⟩ := hw.survivor_get (hw.survives_lookup hs hroot) hs.spared hroot hne
    cases hl.symm.trans hl₂
    exact ⟨l, hl₀, rfl, rfl⟩

/-- Without a fork at the cut, what stays agrees with its pointers. -/
theorem recovers (hfork : Forkless t cut n ld) (hsettled : Settled t t₂ base n base' persisted)
    (hground : Grounded F t t₂ base base' n (lp :: rest))
    (hbottom : ∀ fl, t₂.heap[n]? = some (.diff fl) →
      fl.origin = base ∧ chainKeys F (lp :: rest) ⊆ fl.diffed) :
    Recovers F t₂ base' persisted := by
  obtain ⟨disk, hdisk, -⟩ := hw.chain.base_disk
  have hchain : ∀ root id, Survives t₂ root id → ∃ dls₂, Chain t₂.heap base' id dls₂ ∧
      ∀ id₀ dls, t.layers.lookup root = some id₀ → Chain t.heap base id₀ dls →
        chainKeys F dls₂ ⊆ chainKeys F dls := by
    intro root id hs
    obtain ⟨id₀, hid₀⟩ := hw.survives_before hs
    obtain ⟨dls, hdls⟩ := hw.healthy.chain root id₀ hid₀
    obtain ⟨dls₂, hdls₂, hstands⟩ := hw.survives_chain hfork hsettled hground hs hid₀ hdls
    refine ⟨dls₂, hdls₂, fun id₁ dls₁ hid₁ hdls₁ ↦ ?_⟩
    cases hid₀.symm.trans hid₁
    rw [hdls₁.unique hdls]
    exact hstands.keys
  refine ⟨hw.acyclic, ?_, ?_, ?_, ?_, ?_, ?_⟩
  · cases hsettled with
    | kept _ hlive => exact ⟨_, hw.survives_base hdisk hlive⟩
    | moved => exact ⟨_, hw.survives_bottom⟩
  · intro root id l hs hl
    by_cases hroot : root = lp.root
    · obtain ⟨lb, hlb, hlbroot, -⟩ := hw.bottom
      cases hw.bottom_eq hs hroot
      cases hl.symm.trans hlb
      exact hlbroot.trans hroot.symm
    · obtain ⟨l₀, hl₀, hl₀root⟩ := hw.healthy.get (hw.survives_lookup hs hroot)
      exact (hw.root_eq hl₀ hl).trans hl₀root
  · intro root id hs
    obtain ⟨dls₂, hdls₂, -⟩ := hchain root id hs
    exact ⟨dls₂, hdls₂⟩
  · intro root id l hs hl
    by_cases hroot : root = lp.root
    · obtain ⟨lb, hlb, -, -, hbelow⟩ := hw.bottom
      cases hw.bottom_eq hs hroot
      cases hl.symm.trans hlb
      obtain ⟨hbase, hlive⟩ := hbelow l.parent rfl
      exact ⟨_, hbase ▸ hw.survives_base hdisk hlive⟩
    · by_cases hne : id = cut
      · subst hne
        cases hl.symm.trans hw.relinked
        exact ⟨_, hw.survives_bottom⟩
      · obtain ⟨lq, -, -, hsq⟩ := hw.survives_parent hfork hs hroot hne hl
        exact ⟨_, hsq⟩
  · intro hnone root id l hs hl
    obtain ⟨dls₂, hdls₂, hkeys⟩ := hchain root id hs
    cases hsettled with
    | moved => simp at hnone
    | kept =>
      by_cases hroot : root = lp.root
      · cases hw.bottom_eq hs hroot
        obtain ⟨horigin, hdiffed⟩ := hbottom l hl
        refine ⟨l, dls₂, hl, hdls₂, horigin, covers_iff.mpr (List.Subset.trans ?_ hdiffed)⟩
        exact hkeys _ _ (hroot ▸ hw.parent_lookup) hw.parent_chain
      · obtain ⟨l₀, hl₀, horigin, hdiffed⟩ := hw.survives_get hs hroot hl
        have hid := hw.survives_lookup hs hroot
        obtain ⟨dls, hdls⟩ := hw.healthy.chain root id hid
        obtain ⟨horigin₁, hcovers⟩ := hw.healthy.covers hid hl₀ hdls
        refine ⟨l, dls₂, hl, hdls₂, horigin.trans horigin₁, covers_iff.mpr ?_⟩
        rw [hdiffed]
        exact List.Subset.trans (hkeys _ _ hid hdls) (covers_iff.mp hcovers)
  · intro b hb
    cases hsettled with
    | kept => simp at hb
    | moved => exact (Option.some.inj hb).symm

/-- A layer that forks off the old parent stays in the register, and has no chain if the old parent
has none. -/
theorem not_live (hdead : ∀ b dls, ¬ Chain t₂.heap b ld.parent dls)
    (hid : t.layers.lookup root = some id) (hl : t.heap[id]? = some (.diff l))
    (hparent : l.parent = ld.parent) (hne : id ≠ cut) :
    Survives t₂ root id ∧ ∀ b dls, ¬ Chain t₂.heap b id dls := by
  obtain ⟨dls, hdls⟩ := hw.healthy.chain root id hid
  obtain ⟨below, rfl, hlive, hbelow⟩ := hdls.of_diff hl
  rw [hparent] at hbelow
  have hlength : below.length = rest.length + 1 := by
    rw [hbelow.unique hw.parent_chain, List.length_cons]
  have hdepth := depth_eq hid hdls
  have hroot : root ≠ lp.root := by
    intro heq
    rw [heq, hw.parent_depth, List.length_cons] at hdepth
    omega
  have hfresh : isStale t₂.heap id = false := by
    by_contra hstale
    have := hw.low id _ hdls hne (by simpa using hstale)
    rw [List.length_cons] at this
    omega
  have hlookup : t₂.layers.lookup root = some id := by
    rw [hw.lookup, if_neg hroot]
    exact hid
  refine ⟨⟨hlookup, ?_⟩, fun b dls₂ hchain₂ ↦ ?_⟩
  · rw [doomed_iff]
    rintro (⟨id', hid', hstale⟩ | ⟨a, ha, hdoomed⟩)
    · cases hlookup.symm.trans hid'
      simp [hfresh] at hstale
    · rcases hw.child_cases ha with ⟨heq, -⟩ | ⟨-, rfl, -⟩ | ⟨id', l', lq, -, hid', -, hl', hlq, rfl⟩
      · exact hroot heq
      · exact hne (Option.some.inj (hid.symm.trans hw.registered))
      · cases hid.symm.trans hid'
        cases hl.symm.trans hl'
        rw [hparent, hw.parent_chain.head.1] at hlq
        cases hlq
        exact hw.bottom_not_doomed hdoomed
  · obtain ⟨l', hl', -, -, rfl | hstale⟩ := hw.old id _ hl hne
    · obtain ⟨below₂, -, -, hbelow₂⟩ := hchain₂.of_diff hl'
      rw [hparent] at hbelow₂
      exact hdead b below₂ hbelow₂
    · rw [isStale_eq hl', hstale] at hfresh
      simp at hfresh

end Rewired

end Tree

end GoEntropy.Snapshot
