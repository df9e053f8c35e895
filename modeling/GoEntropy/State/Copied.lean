import GoEntropy.State.Marks

/-!
# What a copy consists of

`Copy` runs over the journal, the pending and the dirty marks in turn. `copy_spec` says what is there
afterwards: the objects of these addresses, as they are, the marks with those of the journal added, and the
fields that are copied one by one. This needs that the marked addresses have objects (`MarkedDB.WF`), which
every state database has that callers can produce (`Reachable.wf`).
-/

namespace GoEntropy.State

open Evm Interaction Container StateDB

variable {C : Crypto} {db : StateDatabase C} {o : StateObject}

namespace MarkedDB

variable {m c : MarkedDB} {a : Address}

/-- The address is in the journal or marked, so that `Copy` takes its object over. -/
def Marked (m : MarkedDB) (a : Address) : Prop :=
  a ∈ m.state.journal.dirties.keys ∨ a ∈ m.state.stateObjectsPending ∨ a ∈ m.stateObjectsDirty

instance : Decidable (m.Marked a) := inferInstanceAs (Decidable (_ ∨ _ ∨ _))

/-! ## Well-formed state databases -/

/-- The marked addresses have objects, and are marked once. -/
structure WF (m : MarkedDB) : Prop where
  kept : Kept (fun a ↦ a ∈ m.state.stateObjectsPending ∨ a ∈ m.stateObjectsDirty)
    m.state.stateObjectsPending m.state
  nodup : m.state.stateObjectsPending.Nodup
  nodup_dirty : m.stateObjectsDirty.Nodup

/-- Where the journal is empty, no undo can do harm. -/
theorem WF.of_entries (haddr : ∀ a o, m.state.stateObjects a = some o → o.address = a)
    (hroot : ∀ a o, m.state.stateObjects a = some o → o.data.root ≠ 0)
    (hmarked : ∀ a, a ∈ m.state.stateObjectsPending ∨ a ∈ m.stateObjectsDirty → (m.state.stateObjects a).isSome)
    (hentries : m.state.journal.entries = []) (hnodup : m.state.stateObjectsPending.Nodup)
    (hnodup' : m.stateObjectsDirty.Nodup) : m.WF :=
  ⟨⟨haddr, hroot, hmarked, by simp [hentries], rfl⟩, hnodup, hnodup'⟩

/-! ## The loops of `Copy` -/

structure Copied (m c : MarkedDB) : Prop where
  objects : ∀ a, c.state.stateObjects a = if m.Marked a then m.state.stateObjects a else none
  pending : ∀ a, a ∈ c.state.stateObjectsPending ↔ a ∈ m.state.stateObjectsPending ∨ m.state.hasDirty a
  dirty : ∀ a, a ∈ c.stateObjectsDirty ↔ a ∈ m.stateObjectsDirty ∨ m.state.hasDirty a
  nodup : c.state.stateObjectsPending.Nodup
  nodup_dirty : c.stateObjectsDirty.Nodup
  rest : { c.state with stateObjects := fun _ ↦ none, stateObjectsPending := [] } = m.blank.state

section loops

variable {objects : Address → Option StateObject} {l : List Address}

/-- `copyMissing` where the object is there. -/
def adopt (objects : Address → Option StateObject) (c : MarkedDB) (a : Address) : MarkedDB :=
  { c with state :=
    { c.state with
      stateObjects := Function.update c.state.stateObjects a
        ((c.state.stateObjects a).or ((objects a).map (·.deepCopy))) } }

theorem copyMissing_eq (h : (objects a).isSome) : copyMissing objects c a = .ok (c.adopt objects a) := by
  obtain ⟨o, ho⟩ := Option.isSome_iff_exists.1 h
  unfold copyMissing adopt
  cases hc : c.state.stateObjects a with
  | none =>
    rw [ho]
    rfl
  | some o' =>
    rw [if_pos (by simp), Option.some_or, ← hc, Function.update_eq_self]

theorem foldlM_copyMissing (f : MarkedDB → Address → MarkedDB) (h : ∀ a ∈ l, (objects a).isSome) (c : MarkedDB) :
    l.foldlM (fun c a ↦ (copyMissing objects c a).map (f · a)) c =
      .ok (l.foldl (fun c a ↦ f (c.adopt objects a) a) c) := by
  induction l generalizing c with
  | nil => rfl
  | cons a l ih =>
    obtain ⟨ha, hl⟩ := List.forall_mem_cons.1 h
    rw [List.foldlM_cons, copyMissing_eq ha]
    exact ih hl _

/-! ### What each loop does to an object and to a mark -/

variable (k : Address)

theorem stateObjects_copyDirtied :
    (copyDirtied objects c a).state.stateObjects k =
      if k = a then ((objects k).map (·.deepCopy)).or (c.state.stateObjects k) else c.state.stateObjects k := by
  unfold copyDirtied
  split
  · next h =>
    split
    · next hk => rw [hk, h, Option.map_none, Option.none_or]
    · rfl
  · next o h =>
    show Function.update c.state.stateObjects a (some o.deepCopy) k = _
    rw [Function.update_apply]
    split
    · next hk => rw [hk, h, Option.map_some, Option.some_or]
    · rfl

theorem marks_copyDirtied (c : MarkedDB) (a : Address) :
    (copyDirtied objects c a).state.stateObjectsPending = (if (objects a).isSome then
      c.state.stateObjectsPending.insert a else c.state.stateObjectsPending) ∧
    (copyDirtied objects c a).stateObjectsDirty = (if (objects a).isSome then
      c.stateObjectsDirty.insert a else c.stateObjectsDirty) := by
  unfold copyDirtied
  cases objects a <;> exact ⟨rfl, rfl⟩

theorem stateObjects_adopt :
    (c.adopt objects a).state.stateObjects k =
      if k = a then (c.state.stateObjects k).or ((objects k).map (·.deepCopy)) else c.state.stateObjects k := by
  show Function.update c.state.stateObjects a _ k = _
  rw [Function.update_apply]
  split
  · next hk => rw [hk]
  · rfl

theorem stateObjects_foldl_copyDirtied (hl : l.Nodup) (k : Address) :
    (l.foldl (copyDirtied objects) c).state.stateObjects k =
      if k ∈ l then ((objects k).map (·.deepCopy)).or (c.state.stateObjects k) else c.state.stateObjects k :=
  foldl_modify (fun (c : MarkedDB) k ↦ c.state.stateObjects k)
    (fun k ↦ ((objects k).map (·.deepCopy)).or) (fun _ _ ↦ stateObjects_copyDirtied) hl c k

theorem stateObjects_foldl_adopt (f : MarkedDB → Address → MarkedDB)
    (hf : ∀ c a, (f c a).state.stateObjects = c.state.stateObjects) (hl : l.Nodup) (k : Address) :
    (l.foldl (fun c a ↦ f (c.adopt objects a) a) c).state.stateObjects k =
      if k ∈ l then (c.state.stateObjects k).or ((objects k).map (·.deepCopy)) else c.state.stateObjects k :=
  foldl_modify (fun (c : MarkedDB) k ↦ c.state.stateObjects k)
    (fun k o ↦ o.or ((objects k).map (·.deepCopy)))
    (fun c a ↦ by rw [hf]; exact stateObjects_adopt) hl c k

end loops

/-- The fields that no loop touches. -/
def frame (c : MarkedDB) : StateDB := { c.state with stateObjects := fun _ ↦ none, stateObjectsPending := [] }

def Distinct (c : MarkedDB) : Prop := c.state.stateObjectsPending.Nodup ∧ c.stateObjectsDirty.Nodup

theorem copyDirtied_keeps (objects : Address → Option StateObject) (c : MarkedDB) (a : Address) :
    (copyDirtied objects c a).frame = c.frame ∧ (c.Distinct → (copyDirtied objects c a).Distinct) := by
  unfold copyDirtied
  split
  · exact ⟨rfl, id⟩
  · exact ⟨rfl, fun h ↦ ⟨h.1.insert, h.2.insert⟩⟩

theorem foldl_adopt_keeps (f : MarkedDB → Address → MarkedDB) (hframe : ∀ c a, (f c a).frame = c.frame)
    (hdistinct : ∀ c a, c.Distinct → (f c a).Distinct) (objects : Address → Option StateObject) (l : List Address)
    (h : c.Distinct) :
    (l.foldl (fun c a ↦ f (c.adopt objects a) a) c).frame = c.frame ∧
      (l.foldl (fun c a ↦ f (c.adopt objects a) a) c).Distinct :=
  ⟨foldl_eq_of_step frame (fun c a ↦ hframe (c.adopt objects a) a) l c,
    foldl_keeps Distinct (fun c a ↦ hdistinct (c.adopt objects a) a) l h⟩

/-- **Copying succeeds**, and takes over the marked objects. -/
theorem copy_spec (h : m.WF) : ∃ c, m.copy = .ok c ∧ Copied m c := by
  have hpending : ∀ a ∈ m.state.stateObjectsPending, (m.state.stateObjects a).isSome :=
    fun a ha ↦ h.kept.marked a (.inl ha)
  have hdirty : ∀ a ∈ m.stateObjectsDirty, (m.state.stateObjects a).isSome :=
    fun a ha ↦ h.kept.marked a (.inr ha)
  have hdeep : ∀ a, (m.state.stateObjects a).map (·.deepCopy) = m.state.stateObjects a := by
    intro a
    cases ho : m.state.stateObjects a with
    | none => rfl
    | some o => rw [Option.map_some, StateObject.deepCopy, newObject, if_neg (h.kept.root a o ho)]
  have hkeys : m.state.journal.dirties.keys.Nodup := m.state.journal.dirties.nodupKeys
  unfold copy
  dsimp only
  rw [foldlM_copyMissing (fun c ↦ c.markPending) hpending]
  refine ⟨_, foldlM_copyMissing (fun c ↦ c.markDirty) hdirty _, ?_⟩
  generalize hc₁ : m.state.journal.dirties.keys.foldl (copyDirtied m.state.stateObjects) m.blank = c₁
  have hframe : c₁.frame = m.blank.frame := hc₁ ▸ foldl_eq_of_step frame
    (fun c a ↦ (copyDirtied_keeps m.state.stateObjects c a).1) m.state.journal.dirties.keys m.blank
  have hdistinct : c₁.Distinct := hc₁ ▸ foldl_keeps Distinct
    (fun c a ↦ (copyDirtied_keeps m.state.stateObjects c a).2) m.state.journal.dirties.keys
    (⟨List.nodup_nil, List.nodup_nil⟩ : m.blank.Distinct)
  generalize hc₂ : m.state.stateObjectsPending.foldl
    (fun c a ↦ (c.adopt m.state.stateObjects a).markPending a) c₁ = c₂
  obtain ⟨hframe₂, hdistinct₂⟩ := foldl_adopt_keeps markPending (fun _ _ ↦ rfl) (fun _ _ hc ↦ ⟨hc.1.insert, hc.2⟩)
    m.state.stateObjects m.state.stateObjectsPending hdistinct
  rw [hc₂] at hframe₂ hdistinct₂
  have hdirty₂ : c₂.stateObjectsDirty = c₁.stateObjectsDirty := by
    rw [← hc₂]
    exact foldl_eq_of_step MarkedDB.stateObjectsDirty (by intros; rfl) m.state.stateObjectsPending c₁
  generalize hc₃ : m.stateObjectsDirty.foldl (fun c a ↦ (c.adopt m.state.stateObjects a).markDirty a) c₂ = c₃
  obtain ⟨hframe₃, hdistinct₃⟩ := foldl_adopt_keeps markDirty (fun _ _ ↦ rfl) (fun _ _ hc ↦ ⟨hc.1, hc.2.insert⟩)
    m.state.stateObjects m.stateObjectsDirty hdistinct₂
  rw [hc₃] at hframe₃ hdistinct₃
  have hpending₃ : c₃.state.stateObjectsPending = c₂.state.stateObjectsPending := by
    rw [← hc₃]
    exact foldl_eq_of_step (fun c : MarkedDB ↦ c.state.stateObjectsPending) (by intros; rfl)
      m.stateObjectsDirty c₂
  refine ⟨fun a ↦ ?_, fun a ↦ ?_, fun a ↦ ?_, hdistinct₃.1, hdistinct₃.2,
    hframe₃.trans (hframe₂.trans hframe)⟩
  · rw [← hc₃, stateObjects_foldl_adopt markDirty (fun _ _ ↦ rfl) h.nodup_dirty, ← hc₂,
      stateObjects_foldl_adopt markPending (fun _ _ ↦ rfl) h.nodup, ← hc₁, stateObjects_foldl_copyDirtied hkeys, hdeep]
    have hblank : m.blank.state.stateObjects a = none := rfl
    unfold Marked
    cases m.state.stateObjects a <;> grind
  · rw [hpending₃, ← hc₂, mem_foldl_insert (fun c : MarkedDB ↦ c.state.stateObjectsPending)
      (fun _ ↦ true) (fun _ _ ↦ rfl), ← hc₁, mem_foldl_insert
      (fun c ↦ c.state.stateObjectsPending) (fun a ↦ (m.state.stateObjects a).isSome)
      fun c a ↦ (marks_copyDirtied c a).1]
    have hblank : m.blank.state.stateObjectsPending = [] := rfl
    simp [hblank, hasDirty, or_comm]
  · rw [← hc₃, mem_foldl_insert stateObjectsDirty (fun _ ↦ true) (fun _ _ ↦ rfl), hdirty₂, ← hc₁,
      mem_foldl_insert stateObjectsDirty (fun a ↦ (m.state.stateObjects a).isSome)
        fun c a ↦ (marks_copyDirtied c a).2]
    have hblank : m.blank.stateObjectsDirty = [] := rfl
    simp [hblank, hasDirty, or_comm]

end MarkedDB

/-! ## Reachable state databases -/

namespace StateObject

variable (o : StateObject)

theorem finalised_data (del : Bool) : (o.finalised C del).data = o.data := by
  unfold finalised
  split <;> rfl

theorem updateTrie_data (db : StateDatabase C) : (o.updateTrie db).2.data = o.data := by
  unfold updateTrie
  dsimp only
  split <;> rfl

theorem updateRoot_root (hroot : ∀ tr, db.storageRoot tr ≠ 0) (h : o.data.root ≠ 0) :
    (o.updateRoot db).data.root ≠ 0 := by
  have hdata := o.updateTrie_data db
  unfold updateRoot
  generalize o.updateTrie db = p at hdata
  obtain ⟨_ | tr, o'⟩ := p
  · exact (congrArg StateAccount.root hdata).trans_ne h
  · exact hroot tr

end StateObject

namespace StateDB

variable {s : StateDB}

theorem rehash_address (db : StateDatabase C) (o : StateObject) : (rehash db o).address = o.address := by
  unfold rehash
  split
  · rfl
  · exact (o.updateRoot_spec db).1

theorem rehash_root (hroot : ∀ tr, db.storageRoot tr ≠ 0) (h : o.data.root ≠ 0) :
    (rehash db o).data.root ≠ 0 := by
  unfold rehash
  split
  · exact h
  · exact o.updateRoot_root hroot h

theorem stateObjects_foldl_updateObjectRoot (db : StateDatabase C) {l : List Address} (hl : l.Nodup)
    (objects : Address → Option StateObject) (k : Address) :
    l.foldl (updateObjectRoot db) objects k = if k ∈ l then (objects k).map (rehash db) else objects k := by
  have hstep : updateObjectRoot db = fun objects a ↦ Function.update objects a ((objects a).map (rehash db)) :=
    funext fun objects ↦ funext fun a ↦ updateObjectRoot_eq objects a
  rw [hstep]
  exact foldl_update (fun _ o ↦ o.map (rehash db)) hl objects k

/-- The account trie that `IntermediateRoot` writes. -/
def written (db : StateDatabase C) (s : StateDB) (deleteEmptyObjects : Bool) : AccountTrie :=
  let s := s.finalise C deleteEmptyObjects
  s.stateObjectsPending.foldl (writeObject db (s.stateObjectsPending.foldl (updateObjectRoot db) s.stateObjects))
    s.trie

theorem intermediateRoot_eq {del : Bool}
    (h : ∀ a ∈ (s.finalise C del).stateObjectsPending, ((s.finalise C del).stateObjects a).isSome) :
    s.intermediateRoot db del = .ok (db.accountRoot (s.written db del),
      { s.finalise C del with
        stateObjects := (s.finalise C del).stateObjectsPending.foldl (updateObjectRoot db)
          (s.finalise C del).stateObjects
        trie := s.written db del
        stateObjectsPending := [] }) := by
  have hany : ((s.finalise C del).stateObjectsPending.any
      fun a ↦ ((s.finalise C del).stateObjects a).isNone) = false := by
    rw [List.any_eq_false]
    intro a ha hnone
    rw [Option.isNone_iff_eq_none] at hnone
    simpa [hnone] using h a ha
  unfold intermediateRoot
  rw [if_neg (by simp [hany])]
  rfl

end StateDB

namespace MarkedDB

variable {m m' : MarkedDB}

/-- A state database whose objects are those of a well-formed one, some of them updated, and that has no
journal. -/
theorem WF.of_map {l : List Address} {f : StateObject → StateObject} (h : m.WF)
    (hobj : ∀ a, m'.state.stateObjects a =
      if a ∈ l then (m.state.stateObjects a).map f else m.state.stateObjects a)
    (haddr : ∀ o, (f o).address = o.address) (hroot : ∀ o, o.data.root ≠ 0 → (f o).data.root ≠ 0)
    (hmarked : ∀ a, a ∈ m'.state.stateObjectsPending ∨ a ∈ m'.stateObjectsDirty → (m.state.stateObjects a).isSome)
    (hentries : m'.state.journal.entries = []) (hnodup : m'.state.stateObjectsPending.Nodup)
    (hnodup' : m'.stateObjectsDirty.Nodup) : m'.WF := by
  have hold : ∀ a o, m'.state.stateObjects a = some o → o.address = a ∧ o.data.root ≠ 0 := by
    intro a o ho
    rw [hobj] at ho
    split at ho
    · obtain ⟨p, hp, rfl⟩ := Option.map_eq_some_iff.1 ho
      exact ⟨(haddr p).trans (h.kept.address a p hp), hroot p (h.kept.root a p hp)⟩
    · exact ⟨h.kept.address a o ho, h.kept.root a o ho⟩
  refine .of_entries (fun a o ho ↦ (hold a o ho).1) (fun a o ho ↦ (hold a o ho).2) (fun a ha ↦ ?_) hentries hnodup
    hnodup'
  rw [hobj]
  split <;> simpa using hmarked a ha

theorem WF.finalise (h : m.WF) (del : Bool) : (m.finalise C del).WF := by
  obtain ⟨hobj, -, hpend, hentries⟩ := finalise_spec h.kept.address del
  have hdirty : (m.finalise C del).stateObjectsDirty =
    m.state.journal.dirties.keys.foldl (mark m.state.stateObjects) m.stateObjectsDirty := rfl
  refine h.of_map hobj (·.finalised_address del) (fun o ho ↦ by rwa [o.finalised_data]) (fun a ha ↦ ?_) hentries ?_
    (nodup_foldl_mark _ _ h.nodup_dirty)
  · change a ∈ (m.state.finalise C del).stateObjectsPending ∨ _ at ha
    rw [hpend, hdirty, mem_foldl_mark, mem_foldl_mark] at ha
    rcases ha with (ha | ha) | ha | ha
    · exact h.kept.marked a (.inl ha)
    · exact ha.2
    · exact h.kept.marked a (.inr ha)
    · exact ha.2
  · exact hpend ▸ nodup_foldl_mark _ _ h.nodup

theorem WF.pending_finalise (h : m.WF) (del : Bool) :
    ∀ a ∈ (m.state.finalise C del).stateObjectsPending, ((m.state.finalise C del).stateObjects a).isSome :=
  fun a ha ↦ (h.finalise del).kept.marked a (.inl ha)

variable {del : Bool} {root : Hash}

theorem WF.intermediateRoot (hroot : ∀ tr, db.storageRoot tr ≠ 0) (h : m.WF)
    (hm' : m.intermediateRoot db del = .ok (root, m')) : m'.WF ∧ m'.state.journal.entries = [] := by
  have hfin := h.finalise (C := C) del
  have hentries := (finalise_spec (C := C) h.kept.address del).2.2.2
  rw [MarkedDB.intermediateRoot, intermediateRoot_eq (h.pending_finalise del)] at hm'
  cases hm'
  exact ⟨hfin.of_map (stateObjects_foldl_updateObjectRoot db hfin.nodup _) (rehash_address db)
    (fun _ ↦ rehash_root hroot) (fun a ha ↦ hfin.kept.marked a (ha.imp_left nofun)) hentries List.nodup_nil
    hfin.nodup_dirty, hentries⟩

theorem commitObject_address (db : StateDatabase C) (o : StateObject) : (commitObject db o).address = o.address := by
  unfold commitObject
  split
  · rfl
  · exact (StateObject.updateRoot_spec db _).1

theorem commitObject_root (hroot : ∀ tr, db.storageRoot tr ≠ 0) (h : o.data.root ≠ 0) :
    (commitObject db o).data.root ≠ 0 := by
  unfold commitObject
  split
  · exact h
  · exact StateObject.updateRoot_root _ hroot h

theorem WF.commit (hroot : ∀ tr, db.storageRoot tr ≠ 0) (h : m.WF) (hm' : m.commit db del = .ok (root, m')) :
    m'.WF := by
  unfold MarkedDB.commit at hm'
  cases hint : m.intermediateRoot db del with
  | error e =>
    rw [hint] at hm'
    cases hm'
  | ok p =>
    obtain ⟨root₁, m₁⟩ := p
    obtain ⟨hwf, hentries⟩ := h.intermediateRoot hroot hint
    rw [hint] at hm'
    change (if _ then _ else _) = _ at hm'
    split at hm'
    · cases hm'
    · cases hm'
      have hobj := foldl_update (fun _ o ↦ o.map (commitObject db)) hwf.nodup_dirty m₁.state.stateObjects
      exact hwf.of_map hobj (commitObject_address db) (fun _ ↦ commitObject_root hroot)
        (fun a ha ↦ hwf.kept.marked a (ha.imp_right nofun)) hentries hwf.nodup List.nodup_nil

/-- **A copy is well formed.** -/
theorem Copied.wf (hm : m.WF) (h : Copied m c) : c.WF := by
  have hobj : ∀ a o, c.state.stateObjects a = some o → m.state.stateObjects a = some o := by
    intro a o ho
    rw [h.objects] at ho
    split at ho
    · exact ho
    · cases ho
  have hhas : ∀ a, m.state.hasDirty a = true → m.Marked a ∧ (m.state.stateObjects a).isSome := by
    intro a ha
    rw [hasDirty, Bool.and_eq_true, decide_eq_true_iff] at ha
    exact ⟨.inl ha.1, ha.2⟩
  refine .of_entries (fun a o ho ↦ hm.kept.address a o (hobj a o ho))
    (fun a o ho ↦ hm.kept.root a o (hobj a o ho)) (fun a ha ↦ ?_) ?_ h.nodup h.nodup_dirty
  · have hmarked : m.Marked a ∧ (m.state.stateObjects a).isSome := by
      rw [h.pending, h.dirty] at ha
      rcases ha with (ha | ha) | ha | ha
      · exact ⟨.inr (.inl ha), hm.kept.marked a (.inl ha)⟩
      · exact hhas a ha
      · exact ⟨.inr (.inr ha), hm.kept.marked a (.inr ha)⟩
      · exact hhas a ha
    rw [h.objects, if_pos hmarked.1]
    exact hmarked.2
  · have hj : c.frame.journal = m.blank.state.journal := congrArg journal h.rest
    exact congrArg Journal.entries hj

/-- **Every state database that callers can produce is well formed.** -/
theorem Reachable.wf (hroot : ∀ tr, db.storageRoot tr ≠ 0) (h : m.Reachable db) : m.WF := by
  induction h with
  | new h => exact .of_entries nofun nofun (by simp [MarkedDB.new, StateDB.new]) rfl List.nodup_nil List.nodup_nil
  | @method m s op r _ hs ih =>
    have hk := ih.kept.handler hs
    exact ⟨by rw [hk.pending]; exact hk, by rw [hk.pending]; exact ih.nodup, ih.nodup_dirty⟩
  | prepare _ thash ti ih => exact ⟨ih.kept.of_eq rfl rfl rfl, ih.nodup, ih.nodup_dirty⟩
  | finalise _ del ih => exact ih.finalise del
  | intermediateRoot _ hs ih => exact (ih.intermediateRoot hroot hs).1
  | commit _ hs ih => exact ih.commit hroot hs
  | @copy m c _ hc ih =>
    obtain ⟨c', hc', hcopied⟩ := copy_spec ih
    exact Except.ok.inj (hc'.symm.trans hc) ▸ hcopied.wf ih

end MarkedDB

end GoEntropy.State
