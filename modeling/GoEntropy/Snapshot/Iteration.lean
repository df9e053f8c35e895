import GoEntropy.Snapshot.Runs
import GoEntropy.Snapshot.Sources

/-!
# Iterations over a snapshot

An iteration calls `Next` until it returns false. Over layers that stay as they are it yields the entries
of the head layer, each once and in order, where an entry with an empty value counts as one if a layer
holds it (`Tree.iteration_exact`).

`Tree.cap` may come in between. It leaves a diff layer as it is or makes it stale, so an iteration goes on
over all layers of the stack that are still live (`Tree.iteration_complete`). The iterator over a stale
layer, however, ends like an exhausted one, and its entries are dropped without an error
(`iteration_drops_entries`).
-/

namespace GoEntropy.Snapshot

open GoEntropy.Container List

/-! ## What capping leaves of a layer -/

/-- The diff layers of a heap are still there; those that are live were so before and hold what they
held. -/
def Sheds (heap heap' : Heap) : Prop :=
  ∀ (id : LayerId) (l : DiffLayer), heap[id]? = some (.diff l) → ∃ l' : DiffLayer, heap'[id]? = some (.diff l') ∧
    (l'.stale = false → l.stale = false ∧ l'.toDiffData = l.toDiffData)

namespace Sheds

variable {heap heap' heap'' : Heap} {id : LayerId}

theorem refl (heap : Heap) : Sheds heap heap := fun _ l hl ↦ ⟨l, hl, fun h ↦ ⟨h, rfl⟩⟩

theorem trans (h : Sheds heap heap') (h' : Sheds heap' heap'') : Sheds heap heap'' := by
  intro id l hl
  obtain ⟨l', hl', hdata⟩ := h id l hl
  obtain ⟨l'', hl'', hdata'⟩ := h' id l' hl'
  refine ⟨l'', hl'', fun hlive ↦ ?_⟩
  obtain ⟨hlive', heq'⟩ := hdata' hlive
  obtain ⟨hlive'', heq⟩ := hdata hlive'
  exact ⟨hlive'', heq'.trans heq⟩

theorem append (heap : Heap) (layers : List Layer) : Sheds heap (heap ++ layers) := by
  intro id l hl
  refine ⟨l, ?_, fun h ↦ ⟨h, rfl⟩⟩
  rw [getElem?_append_left (lt_of_get hl), hl]

theorem set_diff {l l' : DiffLayer} (hget : heap[id]? = some (.diff l))
    (hdata : l'.stale = false → l.stale = false ∧ l'.toDiffData = l.toDiffData) :
    Sheds heap (heap.set id (.diff l')) := by
  have hlt := lt_of_get hget
  intro i m hm
  by_cases hi : i = id
  · subst hi
    cases hget.symm.trans hm
    exact ⟨l', getElem?_set_self hlt, hdata⟩
  · exact ⟨m, by rw [getElem?_set_ne (.symm hi), hm], fun h ↦ ⟨h, rfl⟩⟩

theorem set_disk {l l' : DiskLayer} (hget : heap[id]? = some (.disk l)) :
    Sheds heap (heap.set id (.disk l')) := by
  intro i m hm
  have hi : id ≠ i := by
    rintro rfl
    cases hget.symm.trans hm
  exact ⟨m, by rw [getElem?_set_ne hi, hm], fun h ↦ ⟨h, rfl⟩⟩

theorem keeps (h : Sheds heap heap') (ids : List LayerId) : Keeps heap ids heap' := by
  intro id _ l hl
  obtain ⟨l', hl', hdata⟩ := h id l hl
  exact ⟨l', hl', fun hlive ↦ (hdata hlive).2⟩

end Sheds

namespace Tree

variable {F : BloomFilter} {t t' : Tree} {heap heap' : Heap}

theorem sheds_flatten {fuel : Nat} {id f : LayerId}
    (h : flatten heap fuel id = .ok (f, heap')) : Sheds heap heap' := by
  induction fuel generalizing heap heap' id f with
  | zero => cases h
  | succ fuel ih =>
    rw [flatten] at h
    split at h
    · next l hl =>
      split at h
      · split at h
        · cases h
        · next below heap₁ hflat =>
          split at h
          · next parent hparent =>
            split at h
            · cases h
            · cases h
              exact ((ih hflat).trans (.set_diff hparent fun hlive ↦ absurd hlive (by simp [absorbed]))).trans (.append _ _)
          · cases h
      · cases h
        exact .refl heap
    · cases h

theorem sheds_diffToDisk {bottom base : LayerId} (h : t.diffToDisk bottom = .ok (base, t')) :
    Sheds t.heap t'.heap := by
  rw [diffToDisk] at h
  split at h
  · split at h
    · next disk hdisk =>
      split at h
      · cases h
      · cases h
        exact (Sheds.set_disk hdisk).trans (.append _ _)
    · cases h
  · cases h

theorem sheds_relink (t : Tree) (id parent : LayerId) : Sheds t.heap (t.relink id parent).heap := by
  rw [relink]
  split
  · next l hl => exact .set_diff hl fun h ↦ ⟨h, rfl⟩
  · exact .refl _

theorem sheds_rebloomAt (layers : HashMap LayerId) (origin : LayerId) (heap : Heap) (root : Hash) :
    Sheds heap (rebloomAt F layers origin heap root) := by
  rw [rebloomAt]
  split
  · exact .refl _
  · split
    · next l hl => exact .set_diff hl fun h ↦ ⟨h, rfl⟩
    · exact .refl _

theorem sheds_foldlM {α : Type} {f : Heap → α → Except Panic Heap}
    (hf : ∀ heap x heap', f heap x = .ok heap' → Sheds heap heap') {xs : List α}
    (h : xs.foldlM f heap = .ok heap') : Sheds heap heap' := by
  induction xs generalizing heap with
  | nil => exact Except.ok.inj h ▸ .refl heap
  | cons x xs ih =>
    obtain ⟨heap₁, hx, h⟩ := bind_eq_ok.1 h
    exact (hf _ _ _ hx).trans (ih h)

theorem sheds_rebloomUp {layers : HashMap LayerId} {children : HashMap (List Hash)} {origin : LayerId} {fuel : Nat}
    {root : Hash} (h : rebloomUp F layers children origin fuel root heap = .ok heap') :
    Sheds heap heap' := by
  induction fuel generalizing root heap heap' with
  | zero => cases h
  | succ fuel ih =>
    exact (sheds_rebloomAt layers origin heap root).trans (sheds_foldlM (fun _ _ _ ↦ ih) h)

variable {persisted : Option LayerId}

theorem sheds_cleanUp (h : t.cleanUp F persisted = .ok t') :
    Sheds t.heap t'.heap := by
  rw [cleanUp] at h
  cases hsweep : sweep t.heap t.layers.entries (t.layers, t.children) with
  | error e => simp [hsweep] at h
  | ok s =>
    obtain ⟨layers, children⟩ := s
    rw [hsweep] at h
    cases persisted with
    | none => exact Except.ok.inj h ▸ .refl _
    | some base =>
      cases hbase : t.heap[base]? with
      | none => simp [hbase] at h
      | some l =>
        simp only [hbase] at h
        cases hup : rebloomUp F layers children base t.heap.length l.root t.heap with
        | error e => simp [hup, Except.map] at h
        | ok heap =>
          rw [hup] at h
          exact Except.ok.inj h ▸ sheds_rebloomUp hup

theorem sheds_capBelow {diff : LayerId} (h : t.capBelow diff = .ok (persisted, t')) :
    Sheds t.heap t'.heap := by
  rw [capBelow] at h
  split at h
  · split at h
    · cases h
      exact .refl _
    · split at h
      · cases h
      · next bottom heap hflat =>
        split at h
        · next flat hget =>
          have hlinked : Sheds t.heap
              ((({ t with heap } : Tree).register flat.root bottom).relink diff bottom).heap :=
            (sheds_flatten hflat).trans (sheds_relink (({ t with heap } : Tree).register flat.root bottom) _ _)
          simp only at h
          split at h
          · cases h
          · cases h
            exact hlinked
          · split at h
            · cases h
            · next base t₂ hdisk =>
              rw [← (Prod.mk.inj (Except.ok.inj h)).2]
              exact (hlinked.trans (sheds_diffToDisk hdisk)).trans (sheds_relink (t₂.register flat.root base) _ _)
        · cases h
    · cases h
  · cases h

theorem sheds_capFrom {head : LayerId} {layers : ℤ}
    (h : t.capFrom head layers = .ok (persisted, t')) : Sheds t.heap t'.heap := by
  rw [capFrom] at h
  split at h
  · cases h
    exact .refl _
  · exact sheds_capBelow h

theorem sheds_capAll {head : LayerId} (h : t.capAll head = .ok t') : Sheds t.heap t'.heap := by
  rw [capAll] at h
  split at h
  · cases h
  · next bottom heap hflat =>
    split at h
    · cases h
    · next base t₂ hdisk =>
      split at h
      · exact Except.ok.inj h ▸ (sheds_flatten hflat).trans (sheds_diffToDisk hdisk)
      · cases h

/-- `cap` leaves every diff layer as it is, or stale. -/
theorem sheds_cap {root : Hash} {layers : ℤ} {err : Option SnapshotError} (h : t.cap F root layers = .ok (err, t')) :
    Sheds t.heap t'.heap := by
  rw [cap] at h
  split at h
  · cases h
    exact .refl _
  · next head _ =>
    split at h
    · next l _ =>
      cases hcap : t.capLayer F head (t.allowed l layers) with
      | error e => simp [hcap, Except.map] at h
      | ok t₂ =>
        rw [hcap] at h
        obtain rfl := (Prod.mk.inj (Except.ok.inj h)).2
        rw [capLayer] at hcap
        split at hcap
        · exact sheds_capAll hcap
        · split at hcap
          · cases hcap
          · next persisted t₁ hfrom => exact (sheds_capFrom hfrom).trans (sheds_cleanUp hcap)
    · cases h
      exact .refl _
    · cases h

end Tree

/-! ## Iterations -/

inductive Event where
  | next
  | cap (root : Hash) (layers : ℤ)

/-- An iteration under way: what it has yielded, and whether `Next` has returned false. -/
structure Iteration where
  tree : Tree
  iterator : FastIterator
  yielded : List (Hash × Bytes)
  ended : Bool

namespace Iteration

/-- A call. Once `Next` has returned false it is not called again. -/
def perform (F : BloomFilter) (s : Iteration) : Event → Except (Panic ⊕ IterPanic) Iteration
  | .next =>
    if s.ended then .ok s
    else
      match s.iterator.next s.tree.heap with
      | .error e => .error (.inr e)
      | .ok (false, fi) => .ok { s with iterator := fi, ended := true }
      | .ok (true, fi) =>
        match fi.entry with
        | some entry => .ok { s with iterator := fi, yielded := s.yielded ++ [entry] }
        | none => .error (.inr .outOfRange)
  | .cap root layers =>
    match s.tree.cap F root layers with
    | .error e => .error (.inl e)
    | .ok (_, t) => .ok { s with tree := t }

def run (F : BloomFilter) (s : Iteration) (events : List Event) : Except (Panic ⊕ IterPanic) Iteration :=
  events.foldlM (perform F) s

/-- None of the layers is stale when `Next` is called. -/
def liveAt (ids : List LayerId) (s : Iteration) : Event → Bool
  | .next => ids.all fun id ↦ !Tree.isStale s.tree.heap id
  | .cap _ _ => true

/-- None of the layers is stale at any call of `Next`. -/
def liveRun (F : BloomFilter) (ids : List LayerId) : Iteration → List Event → Bool
  | _, [] => true
  | s, event :: events => s.liveAt ids event &&
    match s.perform F event with
    | .ok s => liveRun F ids s events
    | .error _ => true

/-- The entries `P` have been yielded in order, or are still to come. -/
structure Progress (heap : Heap) (ids : List LayerId) (target : Target) (V : Nat → Hash → Option Bytes)
    (P : Hash → Bytes → Prop) (s : Iteration) : Prop where
  sheds : Sheds heap s.tree.heap
  inv : ∃ heap', FastIterator.Inv heap' (Serves heap ids target V) s.iterator
  target : s.iterator.target = target
  sorted : s.yielded.Pairwise (·.1 < ·.1)
  parts : ∀ h blob, P h blob ↔
    (h, blob) ∈ s.yielded ∨ (s.ended = false ∧ FastIterator.Pending V s.iterator.left h blob)
  order : s.ended = false → ∀ e ∈ s.yielded, ∀ h blob, FastIterator.Pending V s.iterator.left h blob → e.1 < h

variable {F : BloomFilter} {heap : Heap} {ids : List LayerId} {target : Target} {V : Nat → Hash → Option Bytes}
  {P : Hash → Bytes → Prop} {s s' : Iteration}

section

variable (hp : Progress heap ids target V P s)

include hp

theorem Progress.inv_now (hlive : ∀ id ∈ ids, Tree.isStale s.tree.heap id = false) :
    FastIterator.Inv s.tree.heap (Serves heap ids target V) s.iterator := by
  obtain ⟨heap', hinv⟩ := hp.inv
  refine ⟨fun w hw ↦ ?_, hinv.arranged, hinv.fail⟩
  have hgood := hinv.good w hw
  refine ⟨hgood.fail, ?_, hgood.sorted, hgood.reads⟩
  have hserves := hgood.reads w.hash mem_cons_self
  rw [SubIter.stale]
  cases hsource : w.it.source with
  | disk entries => rfl
  | diff id =>
    rw [hsource] at hserves
    exact hlive id hserves.1

/-- A call of `Next` over live layers. -/
theorem Progress.next (hlive : ∀ id ∈ ids, Tree.isStale s.tree.heap id = false) :
    ∃ s', s.perform F .next = .ok s' ∧ Progress heap ids target V P s' ∧ s'.tree = s.tree ∧
      (s'.ended = false → s'.iterator.weight < s.iterator.weight) := by
  rw [perform]
  cases hended : s.ended with
  | true => exact ⟨s, by rw [if_pos rfl], hp, rfl, by simp [hended]⟩
  | false =>
    have hinv := hp.inv_now hlive
    have hreads : FastIterator.Reads s.tree.heap s.iterator.target V (Serves heap ids target V) := by
      rw [hp.target]
      exact reads_of_serves (hp.sheds.keeps ids)
    obtain ⟨ok, fi, hnext, hstep⟩ := FastIterator.next_spec hinv hreads
    rw [hnext]
    cases ok with
    | false =>
      refine ⟨_, rfl, ⟨hp.sheds, ⟨_, hstep.inv⟩, hstep.target.trans hp.target, hp.sorted, fun h blob ↦ ?_,
        by simp⟩, rfl, by simp⟩
      rw [hp.parts]
      simp [hstep.ends rfl h blob]
    | true =>
      obtain ⟨h, blob, hentry, hpending, hfirst, hleft⟩ := hstep.yields rfl
      simp only [hentry]
      have hlast : ∀ e ∈ s.yielded, e.1 < h := fun e he ↦ hp.order hended e he h blob hpending
      refine ⟨_, rfl, ⟨hp.sheds, ⟨_, hstep.inv⟩, hstep.target.trans hp.target, ?_, fun h' blob' ↦ ?_,
        fun _ e he h' blob' hp' ↦ ?_⟩, rfl, fun _ ↦ hstep.lighter rfl⟩
      · exact pairwise_append.2 ⟨hp.sorted, pairwise_singleton _ _, by simpa using hlast⟩
      · rw [hp.parts, hended, mem_append, mem_singleton]
        simp only [true_and, hleft]
        constructor
        · rintro (hold | hp')
          · exact .inl (.inl hold)
          · by_cases heq : h' = h
            · subst heq
              exact .inl (.inr (by rw [hp'.unique hpending]))
            · exact .inr ⟨hp', BitVec.lt_of_le_ne (hfirst h' blob' hp') (Ne.symm heq)⟩
        · rintro ((hold | heq) | ⟨hp', -⟩)
          · exact .inl hold
          · obtain ⟨rfl, rfl⟩ := Prod.mk.inj heq
            exact .inr hpending
          · exact .inr hp'
      · have hlt := ((hleft h' blob').1 hp').2
        obtain he | he := mem_append.1 he
        · exact BitVec.lt_trans (hlast e he) hlt
        · exact mem_singleton.1 he ▸ hlt

/-- `cap` changes nothing of what has been yielded and is still to come. -/
theorem Progress.cap {root : Hash} {layers : ℤ}
    (h : s.perform F (.cap root layers) = .ok s') : Progress heap ids target V P s' := by
  rw [perform] at h
  split at h
  · cases h
  · next err t hcap =>
    obtain rfl := Except.ok.inj h
    exact { hp with sheds := hp.sheds.trans (Tree.sheds_cap hcap) }

/-- A run in which no layer is stale at a call of `Next`. -/
theorem Progress.run {events : List Event}
    (hlive : liveRun F ids s events = true) (h : s.run F events = .ok s') : Progress heap ids target V P s' := by
  induction events generalizing s with
  | nil => exact Except.ok.inj h ▸ hp
  | cons event events ih =>
    obtain ⟨s₁, hperform, h⟩ := bind_eq_ok.1 h
    rw [liveRun, Bool.and_eq_true, hperform] at hlive
    refine ih ?_ hlive.2 h
    cases event with
    | cap root layers => exact hp.cap hperform
    | next =>
      have hids : ∀ id ∈ ids, Tree.isStale s.tree.heap id = false := by simpa [liveAt] using hlive.1
      obtain ⟨s₂, hperform', hp', -⟩ := hp.next hids
      cases hperform.symm.trans hperform'
      exact hp'

end

theorem run_ended (hended : s.ended = true) (n : Nat) : s.run F (replicate n .next) = .ok s := by
  induction n with
  | zero => rfl
  | succ n ih =>
    rw [replicate_succ, Iteration.run, foldlM_cons, perform, if_pos hended]
    exact ih

/-- Enough calls of `Next` over live layers end an iteration. -/
theorem Progress.ends (hp : Progress heap ids target V P s)
    (hlive : ∀ id ∈ ids, Tree.isStale s.tree.heap id = false) :
    ∃ s' n, (∀ m ≥ n, s.run F (replicate m .next) = .ok s') ∧ s'.ended = true ∧
      Progress heap ids target V P s' := by
  induction hw : s.iterator.weight using Nat.strong_induction_on generalizing s with
  | _ weight ih =>
    obtain ⟨s₁, hnext, hp₁, htree, hlighter⟩ := hp.next hlive
    have hstep : ∀ m, s.run F (.replicate (m + 1) .next) = s₁.run F (.replicate m .next) := by
      intro m
      rw [replicate_succ, Iteration.run, foldlM_cons, hnext]
      rfl
    cases hended : s₁.ended with
    | true =>
      refine ⟨s₁, 1, fun m hm ↦ ?_, hended, hp₁⟩
      obtain ⟨m, rfl⟩ := Nat.exists_eq_add_of_le' hm
      rw [hstep, run_ended hended]
    | false =>
      obtain ⟨s', n, hrun, hend, hp'⟩ := ih _ (hw ▸ hlighter hended) hp₁ (htree ▸ hlive) rfl
      refine ⟨s', n + 1, fun m hm ↦ ?_, hend, hp'⟩
      obtain ⟨m, rfl⟩ := Nat.exists_eq_succ_of_ne_zero (show m ≠ 0 by omega)
      rw [hstep, hrun m (by omega)]

end Iteration

namespace Tree

variable {F : BloomFilter} {t : Tree} {base id : LayerId} {dls : List DiffLayer} {root : Hash} {fi : FastIterator}

/-- The diff layers of the stack under a layer. -/
def stackIds (t : Tree) (id : LayerId) : List LayerId := diffIds t.heap (t.heap.length + 1) id

theorem progress_start (hchain : Chain t.heap base id dls) (hroot : t.layers.lookup root = some id)
    {target : Target} {seek : Hash} (hnew : t.newFastIterator root target seek = .ok (some fi)) :
    Holds t dls target seek (t.valueAt target dls) fi.left ∧
      Iteration.Progress t.heap (t.stackIds id) target (t.valueAt target dls)
        (FastIterator.Pending (t.valueAt target dls) fi.left) ⟨t, fi, [], false⟩ := by
  obtain ⟨fi', hnew', htarget, hinv, hholds⟩ := newFastIterator_spec hchain hroot target seek
  cases hnew.symm.trans hnew'
  exact ⟨hholds, .refl _, ⟨_, hinv⟩, htarget, .nil, by simp, by simp⟩

end Tree

open Tree

namespace Samples

theorem healthy_after {calls : List Call} (hrun : (runCalls filter (ofDisk base ⟨∅, ∅⟩) calls).isOk = true)
    (hcareful : carefulRun filter (ofDisk base ⟨∅, ∅⟩) calls = true) :
    ∃ b, Healthy filter (after calls) b ∧ (after calls).Sound b := by
  have hcoherent : (⟨∅, ∅⟩ : Disk).Coherent := fun _ _ h ↦ by simp at h
  obtain ⟨b, h, hs⟩ := (healthy_ofDisk rfl ⟨∅, ∅⟩).run hcareful (run_after hrun)
  exact ⟨b, h, hs ⟨⟨base, rfl, rfl⟩, hcoherent⟩⟩

theorem filter_noFalseNegatives : filter.NoFalseNegatives := fun _ _ ↦ contains_iff_mem.mpr

end Samples

open Samples

namespace Samples

/-- How an iteration ends, and whether the layers of its stack were live at all calls of `Next`. -/
structure Summary where
  live : Bool
  ended : Bool
  fail : Bool
  yielded : List (Hash × Bytes)
  deriving DecidableEq

/-- An iteration over the layer `id`, from its beginning. -/
def iterated (t : Tree) (root : Hash) (id : LayerId) (target : Target) (events : List Event) : Option Summary :=
  match t.newFastIterator root target 0 with
  | .ok (some fi) =>
    match Iteration.run filter ⟨t, fi, [], false⟩ events with
    | .ok s =>
      some ⟨Iteration.liveRun filter (t.stackIds id) ⟨t, fi, [], false⟩ events, s.ended, s.iterator.fail, s.yielded⟩
    | .error _ => none
  | _ => none

theorem exists_of_iterated {t : Tree} {root : Hash} {id : LayerId} {target : Target} {events : List Event}
    {result : Summary} (h : iterated t root id target events = some result) :
    ∃ fi s, t.newFastIterator root target 0 = .ok (some fi) ∧
      Iteration.run filter ⟨t, fi, [], false⟩ events = .ok s ∧
      Iteration.liveRun filter (t.stackIds id) ⟨t, fi, [], false⟩ events = result.live ∧
      s.ended = result.ended ∧ s.iterator.fail = result.fail ∧ s.yielded = result.yielded := by
  rw [iterated] at h
  split at h
  · next fi hnew =>
    split at h
    · next s hrun =>
      cases h
      exact ⟨fi, s, hnew, hrun, rfl, rfl, rfl, rfl⟩
    · cases h
  · cases h

end Samples

namespace Tree

variable {F : BloomFilter} {t : Tree} {base id : LayerId} {dls : List DiffLayer} {root : Hash} {fi : FastIterator}

/-- An iteration that ends has yielded every entry that reads of the head layer found when it began, each
once and with its value, if at no call of `Next` a layer of the stack was stale. -/
theorem iteration_complete (hF : F.NoFalseNegatives) (h : Healthy F t base) (hs : t.Sound base)
    (hroot : t.layers.lookup root = some id) {target : Target} {seek : Hash}
    (hnew : t.newFastIterator root target seek = .ok (some fi)) {events : List Event} {s : Iteration}
    (hrun : Iteration.run F ⟨t, fi, [], false⟩ events = .ok s)
    (hlive : Iteration.liveRun F (t.stackIds id) ⟨t, fi, [], false⟩ events = true) (hend : s.ended = true) :
    s.iterator.fail = false ∧ s.yielded.Pairwise (·.1 < ·.1) ∧
      (∀ hash blob, (hash, blob) ∈ s.yielded → seek ≤ hash ∧ (t.read F id (target.key hash)).1 = .ok blob) ∧
      ∀ hash blob, seek ≤ hash → (t.read F id (target.key hash)).1 = .ok blob → blob ≠ [] →
        (hash, blob) ∈ s.yielded := by
  obtain ⟨dls, hchain⟩ := h.chain root id hroot
  obtain ⟨hholds, hstart⟩ := progress_start hchain hroot hnew
  have hp := hstart.run hlive hrun
  have hread := fun key ↦ (h.read_eq hF hs hroot hchain key).2
  have hparts : ∀ hash blob, FastIterator.Pending (t.valueAt target dls) fi.left hash blob ↔
      (hash, blob) ∈ s.yielded := by
    intro hash blob
    simpa [hend] using hp.parts hash blob
  refine ⟨?_, hp.sorted, fun hash blob hmem ↦ ?_, fun hash blob hseek hok hne ↦ ?_⟩
  · obtain ⟨_, hinv⟩ := hp.inv
    exact hinv.fail
  · rw [hread, Except.ok.injEq]
    exact hholds.sound hash blob ((hparts hash blob).2 hmem)
  · rw [hread, Except.ok.injEq] at hok
    exact (hparts hash blob).1 (hholds.complete hash blob hseek hok hne)

end Tree

namespace Samples

/-- A block that writes two accounts. -/
def writesTwo (hash hash' : Hash) (data data' : Bytes) : Block :=
  ⟨∅, (AList.singleton hash (some data) : HashMap (Option Bytes)).insert hash' (some data'), ∅⟩

/-- Two layers, the lower one with accounts around the one of the upper. -/
def around : List Call := [.update 2 1 (writesTwo 10 12 [1] [3]), .update 3 2 (writes 11 [2])]

end Samples

/-- The lower layer is written to disk during an iteration over it. It does not go stale, and the iteration
yields all its accounts. -/
theorem iteration_complete_persisted :
    ∃ fi s, (after around).newFastIterator 2 .accounts 0 = .ok (some fi) ∧
      Iteration.run filter ⟨after around, fi, [], false⟩
        [.next, .cap 2 0, .next, .next] = .ok s ∧ s.ended = true ∧
      ∀ hash blob, (0 : Hash) ≤ hash →
        ((after around).read filter 1 (.account hash)).1 = .ok blob → blob ≠ [] →
        (hash, blob) ∈ s.yielded := by
  have hiterated : iterated (after around) 2 1 .accounts [.next, .cap 2 0, .next, .next] =
      some ⟨true, true, false, [(10, [1]), (12, [3])]⟩ := by decide
  obtain ⟨fi, s, hnew, hrun, hlive, hended, -⟩ := exists_of_iterated hiterated
  obtain ⟨b, h, hs⟩ := @healthy_after around (by decide) (by decide)
  have hroot : (after around).layers.lookup 2 = some 1 := by decide
  obtain ⟨-, -, -, hall⟩ :=
    iteration_complete filter_noFalseNegatives h hs hroot hnew hrun hlive hended
  exact ⟨fi, s, hnew, hrun, hended, hall⟩

/-- Flattening the stack during an iteration makes its lower layer stale. The iteration goes on over the
upper one and ends without an error, and has dropped an account. -/
theorem iteration_drops_entries :
    ∃ fi s, (after around).newFastIterator 3 .accounts 0 = .ok (some fi) ∧
      Iteration.run filter ⟨after around, fi, [], false⟩
        [.next, .cap 3 0, .next, .next] = .ok s ∧ s.ended = true ∧ s.iterator.fail = false ∧
      s.yielded = [(10, [1]), (11, [2])] ∧
      ((after around).accountRLP filter 2 12).1 = .ok [3] := by
  have hiterated : iterated (after around) 3 2 .accounts [.next, .cap 3 0, .next, .next] =
      some ⟨false, true, false, [(10, [1]), (11, [2])]⟩ := by decide
  obtain ⟨fi, s, hnew, hrun, -, hended, hfail, hyielded⟩ := exists_of_iterated hiterated
  exact ⟨fi, s, hnew, hrun, hended, hfail, hyielded, by decide⟩

end GoEntropy.Snapshot
