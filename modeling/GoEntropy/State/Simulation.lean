import GoEntropy.State.Refinement

/-!
# Every method simulates the timeline

The remaining methods of `StateDB`: those that change the refund counter, the logs, the preimages
or the access list, and the two that open and revert snapshots. `handler_simulates` puts all methods
together. Last come the operations between transactions: a finalised state database stands for a
world at rest (`Refines.finalise`), and `Reachable` collects every state a caller can produce.
-/

namespace GoEntropy.State

open Evm Interaction StateDB AccessList List

variable {C : Crypto} {db : StateDatabase C}

namespace Refines

variable {s s' : StateDB} {t : Timeline} {a : Address}

/-! ## Changes outside the accounts -/

variable (h : Refines db s t)

include h

/-- A journaled change of the state outside the objects and the trie. -/
theorem record (e : JournalEntry) (s' : StateDB)
    (hobjs : s'.stateObjects = s.stateObjects) (htrie : s'.trie = s.trie)
    (hj : s'.journal = s.journal.append e) (hr : s'.validRevisions = s.validRevisions)
    (hn : s'.nextRevisionId = s.nextRevisionId) (hal : s'.accessList.WF)
    (hundo : e.undo db (s'.world db) = s.world db) (happ : e.Applies db s.trie (s'.world db)) :
    Refines db s' (t.modify fun _ ↦ s'.world db) := by
  refine h.commit (hj ▸ s.journal.entries_append e) (fun a ↦ by rw [hj]) hundo happ ?_ htrie hr hn ?_
  · have hacc : (s'.world db).accounts = (s.world db).accounts := by
      funext a
      simp only [world, object, hobjs, htrie]
    exact ⟨hal, fun a acc ha hw ↦ h.coherent.settled.clean a acc
      (fun e' he' ↦ ha e' (mem_cons_of_mem _ he')) (hacc ▸ hw)⟩
  · rw [hobjs]
    exact h.address

theorem accessList_wf : s.accessList.WF :=
  h.coherent.settled.accessList_wf

theorem setRefund (n : Nat) :
    Refines db { s.journaled (.refundChange s.refund) with refund := n }
      (t.modify fun w ↦ { w with refund := n }) := by
  rw [Timeline.modify, h.now]
  exact h.record (.refundChange s.refund) _ rfl rfl rfl rfl rfl h.accessList_wf rfl trivial

theorem addLog (l : Log) :
    Refines db (s.addLog l) (t.modify (·.addLog l)) := by
  rw [Timeline.modify, h.now]
  refine h.record (.addLogChange s.thash) (s.addLog l) rfl rfl rfl rfl rfl h.accessList_wf ?_ trivial
  simp [JournalEntry.undo, StateDB.world, StateDB.addLog, StateDB.object, StateDB.journaled]

theorem addPreimage (hash : Hash) (p : Bytes) :
    Refines db (s.addPreimage hash p) (t.modify (·.addPreimage hash p)) := by
  unfold StateDB.addPreimage
  have hnow : t.now.preimages = s.preimages := by
    rw [h.now]
    rfl
  cases hp : s.preimages hash with
  | some q =>
    rw [Timeline.modify_eq_self (by simp [World.addPreimage, hnow, hp])]
    simpa using h
  | none =>
    simp only [Timeline.modify, World.addPreimage, h.now, StateDB.world, hp, Option.isSome_none,
      Bool.false_eq_true, if_false]
    refine h.record (.addPreimageChange hash) _ rfl rfl rfl rfl rfl h.accessList_wf ?_ trivial
    simp only [JournalEntry.undo, StateDB.world, StateDB.object, StateDB.journaled,
      Function.update_idem]
    rw [← hp, Function.update_eq_self]

/-- The access list is replaced, and the entry that takes the change back is journaled. -/
private theorem setAccessList (e : JournalEntry) (al : AccessList) (hal : al.WF)
    (hundo : e.undo db { s.world db with accessList := al } = s.world db)
    (happ : e.Applies db s.trie { s.world db with accessList := al }) :
    Refines db { s.journaled e with accessList := al }
      (t.modify fun w ↦ { w with accessList := al }) := by
  rw [Timeline.modify, h.now]
  exact h.record e _ rfl rfl rfl rfl rfl hal hundo happ

theorem addAddressToAccessList (a : Address) :
    Refines db (s.addAddressToAccessList a)
      (t.modify fun w ↦ { w with accessList := (w.accessList.addAddress a).2 }) := by
  have hmod : (t.modify fun w ↦ { w with accessList := (w.accessList.addAddress a).2 }) =
      t.modify fun w ↦ { w with accessList := (s.accessList.addAddress a).2 } := by
    rw [Timeline.modify, Timeline.modify, h.now]
    rfl
  rw [hmod]
  unfold StateDB.addAddressToAccessList
  cases hc : s.accessList.containsAddress a with
  | true =>
    have hadd : s.accessList.addAddress a = (false, s.accessList) := if_pos hc
    rw [hadd, Timeline.modify_eq_self (by rw [h.now]; rfl)]
    exact h
  | false =>
    have hadd : (s.accessList.addAddress a).1 = true := by
      rw [addAddress, if_neg (by simp [hc])]
    simp only [hadd]
    refine h.setAccessList (.accessListAddAccountChange a) _ h.accessList_wf.addAddress ?_ trivial
    simp only [JournalEntry.undo, deleteAddress_addAddress hc]
    rfl

private theorem addSlotEntry (a : Address) (slot : Hash) {al : AccessList}
    (hal : al.WF) (hdel : al.deleteSlot a slot = .ok s.accessList) :
    Refines db { s.journaled (.accessListAddSlotChange a slot) with accessList := al }
      (t.modify fun w ↦ { w with accessList := al }) := by
  refine h.setAccessList (.accessListAddSlotChange a slot) al hal ?_ ⟨s.accessList, hdel⟩
  simp only [JournalEntry.undo, hdel]
  rfl

theorem addSlotToAccessList (a : Address) (slot : Hash) :
    ∃ ac sc al s', s.accessList.addSlot a slot = .ok (ac, sc, al) ∧
      s.addSlotToAccessList a slot = .ok s' ∧
      Refines db s' (t.modify fun w ↦ { w with accessList := al }) := by
  obtain ⟨ac, sc, al, hadd, hal⟩ := h.accessList_wf.addSlot a slot
  unfold StateDB.addSlotToAccessList
  refine ⟨ac, sc, al, _, hadd, by rw [hadd], ?_⟩
  cases added hadd with
  | new haddr =>
    -- the address comes first, in an entry of its own
    have hc : s.accessList.containsAddress a = false := by
      simp [containsAddress, haddr]
    have h₁ := h.addAddressToAccessList a
    have hs₁ : s.addAddressToAccessList a =
        { s.journaled (.accessListAddAccountChange a) with
          accessList := (s.accessList.addAddress a).2 } := by
      simp [StateDB.addAddressToAccessList, addAddress, hc]
    rw [hs₁] at h₁
    have h₂ := h₁.addSlotEntry a slot hal (by
      rw [deleteSlot_openSlots, addAddress, if_neg (by simp [hc])])
    simpa [Timeline.modify, StateDB.journaled] using h₂
  | first haddr =>
    have hdel : (s.accessList.openSlots a slot).deleteSlot a slot = .ok s.accessList := by
      rw [deleteSlot_openSlots, ← haddr, Function.update_eq_self]
    exact h.addSlotEntry a slot hal hdel
  | known =>
    rw [Timeline.modify_eq_self (by rw [h.now]; rfl)]
    exact h
  | another haddr hs hnot =>
    have hmem := mem_of_getElem? (slotmap_eq_some.1 hs).2
    exact h.addSlotEntry a slot hal
      (deleteSlot_set haddr hs (h.accessList_wf.nonempty _ hmem) hnot)

/-! ## Snapshots -/

theorem snapshot :
    s.snapshot.1 = t.snapshot.1 ∧ Refines db s.snapshot.2 t.snapshot.2 := by
  refine ⟨h.nextId.symm, ?_⟩
  have hw : s.snapshot.2.world db = s.world db := rfl
  refine ⟨h.now.trans hw.symm, ?_, congrArg (· + 1) h.nextId, h.address, h.coherent, h.dirties,
    ?_, ?_, ?_, ?_⟩
  · rw [hw]
    simp only [StateDB.snapshot, Timeline.snapshot, reverse_append, reverse_cons,
      reverse_nil, nil_append, singleton_append, map_cons, ← h.saved]
    simp [Revision.saved, rewind, h.now, h.nextId]
  · simpa [StateDB.snapshot, pairwise_append] using ⟨h.ids, h.ids_lt⟩
  · exact forall_mem_append.2 ⟨fun r hr ↦ Nat.lt_succ_of_lt (h.ids_lt r hr), by simp [StateDB.snapshot]⟩
  · simpa [StateDB.snapshot, pairwise_append] using ⟨h.indices, h.indices_le⟩
  · exact forall_mem_append.2 ⟨h.indices_le, by simp [StateDB.snapshot]⟩

end Refines

/-! ## Reverting -/

/-- The second state differs from the first only in its live objects. -/
structure StateDB.SameBut (s s' : StateDB) : Prop where
  trie : s'.trie = s.trie
  journal : s'.journal = s.journal
  validRevisions : s'.validRevisions = s.validRevisions
  nextRevisionId : s'.nextRevisionId = s.nextRevisionId

theorem StateDB.sameBut_getStateObject (db : StateDatabase C) (s : StateDB) (a : Address) :
    s.SameBut (s.getStateObject db a).2 := by
  unfold getStateObject getDeletedStateObject
  cases s.stateObjects a with
  | some o => exact ⟨rfl, rfl, rfl, rfl⟩
  | none => cases s.trie (db.addressKey a) <;> exact ⟨rfl, rfl, rfl, rfl⟩

namespace Refines

variable {s s' : StateDB} {t : Timeline} {a : Address}

/-- What `revert` of an entry has to achieve. -/
private def Reverts (db : StateDatabase C) (s : StateDB) (e : JournalEntry) : Prop :=
  ∃ s', s.revertEntry db e = .ok s' ∧ s'.world db = e.undo db (s.world db) ∧ s.SameBut s' ∧
    ∀ a o, s'.stateObjects a = some o → o.address = a

variable {e : JournalEntry}

variable (h : Refines db s t)

include h

private theorem reverts_modifyObject {f : StateObject → StateObject} {g : Account → Account}
    (hrev : s.revertEntry db e = s.modifyObject db a f)
    (hundo : ∀ w : World, e.undo db w = w.adjust a g) (hsome : ((s.world db).accounts a).isSome)
    (hf : ∀ o, (f o).address = o.address ∧ (f o).deleted = o.deleted ∧
      (f o).account db = g (o.account db)) : Reverts db s e := by
  unfold modifyObject at hrev
  have hsame := sameBut_getStateObject db s a
  rcases h.getStateObject a with ⟨s₁, -, -, hnone⟩ | ⟨o, s₁, hget, h₁, hobj, hd, hacc⟩
  · rw [← h.now, hnone] at hsome
    cases hsome
  · rw [hget] at hrev hsame
    obtain ⟨hfa, hfd, hfacc⟩ := hf o
    refine ⟨_, hrev, ?_, { hsame with }, h₁.address_setStateObject (f o)⟩
    rw [world_setStateObject, hundo, World.adjust, ← h₁.now, ← h.now, hfa,
      h₁.address a o hobj, hacc, StateObject.presence, hfd, hd, hfacc]
    rfl

theorem revertEntry (happ : e.Applies db s.trie (s.world db)) : Reverts db s e := by
  cases e with
  | createObjectChange a =>
    refine ⟨_, rfl, ?_, ⟨rfl, rfl, rfl, rfl⟩, fun b o hb ↦ ?_⟩
    · simp only [world]
      congr 1
      funext b
      by_cases hb : b = a
      · have htrie : s.trie (db.addressKey a) = none := happ
        simp [hb, object, htrie]
      · simp [object, Function.update_of_ne hb]
    · by_cases hba : b = a
      · simp [hba] at hb
      · simp only [Function.update_of_ne hba] at hb
        exact h.address b o hb
  | resetObjectChange prev =>
    exact ⟨_, rfl, world_setStateObject, ⟨rfl, rfl, rfl, rfl⟩, h.address_setStateObject prev⟩
  | suicideChange a prev prevbalance =>
    have hsame := sameBut_getStateObject db s a
    rcases h.getStateObject a with ⟨s₁, hget, h₁, hnone⟩ | ⟨o, s₁, hget, h₁, hobj, hd, hacc⟩
    · simp only [Reverts, revertEntry, hget] at hsame ⊢
      refine ⟨s₁, rfl, ?_, hsame, h₁.address⟩
      rw [JournalEntry.undo, World.adjust, ← h.now, hnone, Option.map_none, ← hnone,
        Function.update_eq_self, h₁.now]
    · simp only [Reverts, revertEntry, hget] at hsame ⊢
      refine ⟨_, rfl, ?_, { hsame with }, h₁.address_setStateObject _⟩
      rw [world_setStateObject, JournalEntry.undo, World.adjust, ← h₁.now, ← h.now, hacc]
      simp only [StateObject.setBalance, h₁.address a o hobj, hd]
      rfl
  | balanceChange a prev | nonceChange a prev | codeChange a prevcode prevhash =>
    exact h.reverts_modifyObject rfl (fun _ ↦ rfl) happ fun _ ↦ ⟨rfl, rfl, rfl⟩
  | storageChange a key prevalue =>
    exact h.reverts_modifyObject rfl (fun _ ↦ rfl) happ fun o ↦
      ⟨rfl, rfl, StateObject.account_setState db o key prevalue⟩
  | refundChange prev | addLogChange txhash | addPreimageChange hash | touchChange a
  | accessListAddAccountChange a => exact ⟨_, rfl, rfl, ⟨rfl, rfl, rfl, rfl⟩, h.address⟩
  | accessListAddSlotChange a slot =>
    obtain ⟨al, hal⟩ := happ
    have hal' : s.accessList.deleteSlot a slot = .ok al := hal
    refine ⟨{ s with accessList := al }, by simp [revertEntry, hal'], ?_,
      ⟨rfl, rfl, rfl, rfl⟩, h.address⟩
    simp only [JournalEntry.undo, hal]
    rfl

/-- The last entry is undone while every revision still lies within the rest of the journal. -/
theorem popEntry {es : List JournalEntry} (hes : s.journal.entries = e :: es)
    (hidx : ∀ r ∈ s.validRevisions, r.journalIndex ≤ es.length) :
    ∃ s', s.popEntry db e es = .ok s' ∧ Refines db s' (t.modify (e.undo db)) ∧
      s'.journal.entries = es ∧ s'.validRevisions = s.validRevisions := by
  have hcoh := h.coherent
  rw [hes] at hcoh
  obtain ⟨s₁, hrev, hw, hsame, haddr⟩ := h.revertEntry hcoh.2.1
  have hwt : (t.modify (e.undo db)).now = s₁.world db := by rw [Timeline.modify, h.now, hw]
  refine ⟨s₁.dropEntry e es, by simp only [StateDB.popEntry, hrev], ⟨hwt, ?_,
    h.nextId.trans hsame.nextRevisionId.symm, haddr, ?_, fun a ↦ ?_, ?_, ?_, ?_, ?_⟩, rfl,
    hsame.validRevisions⟩
  all_goals simp only [StateDB.dropEntry]
  · rw [Timeline.modify, h.saved, hsame.validRevisions, hes]
    refine map_congr_left fun r hr ↦ ?_
    have hle := hidx r (mem_reverse.1 hr)
    have hlen : (e :: es).length - r.journalIndex = es.length - r.journalIndex + 1 := by
      rw [length_cons]
      omega
    rw [Revision.saved, hlen, rewind, ← hw]
    rfl
  · have hrest := hcoh.2.2
    rw [← hw, ← hsame.trie] at hrest
    exact hrest
  · have hcount := h.dirties a
    rw [hes, countP_cons, ← hsame.journal] at hcount
    cases hd : e.dirtied with
    | none => simpa [hd] using hcount
    | some b =>
      by_cases hb : b = a
      · subst hb
        simp only [hd, decide_true, if_true] at hcount
        simp only [Option.elim_some, Journal.undirty]
        split
        · omega
        · simp only [AList.lookup_insert, Option.getD_some]
          omega
      · simp only [hd, Option.some_inj, hb] at hcount
        simp only [Option.elim_some, Journal.undirty]
        split
        · rwa [AList.lookup_erase_ne (.symm hb)]
        · rwa [AList.lookup_insert_ne (.symm hb)]
  · rw [hsame.validRevisions]
    exact h.ids
  · rw [hsame.validRevisions, hsame.nextRevisionId]
    exact h.ids_lt
  · rw [hsame.validRevisions]
    exact h.indices
  · rw [hsame.validRevisions]
    exact hidx

/-- Undoing `n` entries rewinds the world, as long as no revision lies beyond them. -/
theorem undo (n : Nat)
    (hidx : ∀ r ∈ s.validRevisions, r.journalIndex + n ≤ s.journal.entries.length) :
    ∃ s', undo db n s = .ok s' ∧
      Refines db s' (t.modify (rewind db n s.journal.entries)) := by
  induction n generalizing s t with
  | zero => exact ⟨s, rfl, h⟩
  | succ n ih =>
    cases hes : s.journal.entries with
    | nil => exact ⟨s, by simp [undo, hes], h⟩
    | cons e es =>
      rw [hes, length_cons] at hidx
      obtain ⟨s₁, hpop, h₁, hes₁, hrev₁⟩ :=
        h.popEntry hes fun r hr ↦ by have := hidx r hr; omega
      obtain ⟨s', hundo, h'⟩ := ih h₁ fun r hr ↦ by
        have := hidx r (hrev₁ ▸ hr)
        rw [hes₁]
        omega
      refine ⟨s', by simp only [undo, hes, hpop, hundo], ?_⟩
      rwa [hes₁] at h'

end Refines

/-! Undoing does not look at the revisions. -/

namespace StateDB

private theorem getStateObject_withRevisions (db : StateDatabase C) (s : StateDB) (a : Address)
    (v : List Revision) :
    getStateObject db { s with validRevisions := v } a =
      ((s.getStateObject db a).1, { (s.getStateObject db a).2 with validRevisions := v }) := by
  unfold getStateObject getDeletedStateObject
  cases s.stateObjects a with
  | some o => rfl
  | none => cases s.trie (db.addressKey a) <;> rfl

private theorem revertEntry_withRevisions (db : StateDatabase C) (s : StateDB) (e : JournalEntry)
    (v : List Revision) :
    revertEntry db { s with validRevisions := v } e =
      (s.revertEntry db e).map fun s ↦ { s with validRevisions := v } := by
  have hmodify : ∀ a f, modifyObject db { s with validRevisions := v } a f =
      (s.modifyObject db a f).map fun s ↦ { s with validRevisions := v } := by
    intro a f
    unfold modifyObject
    rw [getStateObject_withRevisions]
    obtain ⟨o, s'⟩ := s.getStateObject db a
    cases o <;> rfl
  cases e with
  | suicideChange a prev prevbalance =>
    simp only [revertEntry, getStateObject_withRevisions]
    obtain ⟨o, s'⟩ := s.getStateObject db a
    cases o <;> rfl
  | balanceChange a prev | nonceChange a prev | storageChange a key prevalue
  | codeChange a prevcode prevhash => exact hmodify a _
  | accessListAddSlotChange a slot =>
    simp only [revertEntry]
    cases s.accessList.deleteSlot a slot <;> rfl
  | _ => rfl

theorem undo_withRevisions (db : StateDatabase C) (n : Nat) (s : StateDB) (v : List Revision) :
    undo db n { s with validRevisions := v } =
      (undo db n s).map fun s ↦ { s with validRevisions := v } := by
  induction n generalizing s with
  | zero => rfl
  | succ n ih =>
    unfold undo
    cases s.journal.entries with
    | nil => rfl
    | cons e es =>
      simp only [popEntry, revertEntry_withRevisions]
      cases s.revertEntry db e with
      | error f => rfl
      | ok s₁ => exact ih (s₁.dropEntry e es)

end StateDB

/-! The code searches the revisions from the oldest, the timeline drops them from the newest. -/

/-- A revision id splits the revisions, which are ordered by id. -/
private theorem split_revisions {L : List Revision} (hL : L.Pairwise (·.id < ·.id)) {r : Revision}
    (hr : r ∈ L) :
    ∃ L₁ L₂, L = L₁ ++ r :: L₂ ∧ (∀ q ∈ L₁, q.id < r.id) ∧ ∀ q ∈ L₂, r.id < q.id := by
  obtain ⟨L₁, L₂, rfl⟩ := append_of_mem hr
  obtain ⟨-, h₂, h₁⟩ := pairwise_append.1 hL
  exact ⟨L₁, L₂, rfl, fun q hq ↦ h₁ q hq r mem_cons_self,
    (pairwise_cons.1 h₂).1⟩

variable {t : Timeline} {s : StateDB}

theorem Refines.revertToSnapshot (h : Refines db s t) (id : Nat) :
    (∃ e, s.revertToSnapshot db id = .error e ∧ t.revertToSnapshot id = .error e) ∨
      ∃ s' t', s.revertToSnapshot db id = .ok s' ∧ t.revertToSnapshot id = .ok t' ∧
        Refines db s' t' := by
  by_cases hid : ∃ r ∈ s.validRevisions, r.id = id
  · obtain ⟨r, hr, rfl⟩ := hid
    obtain ⟨L₁, L₂, hL, hlt₁, hlt₂⟩ := split_revisions h.ids hr
    have hfind : s.validRevisions.findIdx (fun q ↦ decide (r.id ≤ q.id)) = L₁.length := by
      rw [hL, findIdx_append, findIdx_eq_length.2 fun q hq ↦ by
        simpa using hlt₁ q hq]
      simp [findIdx_cons]
    have hget : s.validRevisions[L₁.length]? = some r := by simp [hL]
    have htake : s.validRevisions.take L₁.length = L₁ := by simp [hL]
    have hsub : ∀ q ∈ L₁, q ∈ s.validRevisions := fun q hq ↦ by
      rw [hL]
      exact mem_append_left _ hq
    have hle : r.journalIndex ≤ s.journal.entries.length := h.indices_le r hr
    have hpair := hL ▸ h.indices
    have hidx₁ : ∀ q ∈ L₁, q.journalIndex ≤ r.journalIndex := fun q hq ↦
      (pairwise_append.1 hpair).2.2 q hq r mem_cons_self
    -- with the later revisions cut off, the relation survives every single undo
    have h₁ : Refines db { s with validRevisions := L₁ }
        { t with saved := L₁.reverse.map (Revision.saved db s.journal.entries (s.world db)) } :=
      ⟨h.now, rfl, h.nextId, h.address, h.coherent, h.dirties,
        (pairwise_append.1 (hL ▸ h.ids)).1, fun q hq ↦ h.ids_lt q (hsub q hq),
        (pairwise_append.1 hpair).1, fun q hq ↦ h.indices_le q (hsub q hq)⟩
    obtain ⟨s', hundo, h'⟩ := h₁.undo (s.journal.entries.length - r.journalIndex) fun q hq ↦ by
      have := hidx₁ q hq
      dsimp only
      omega
    rw [StateDB.undo_withRevisions] at hundo
    have hdrop : t.saved.dropWhile (·.1 ≠ r.id) =
        (r :: L₁.reverse).map (Revision.saved db s.journal.entries (s.world db)) := by
      rw [h.saved, hL, reverse_append, reverse_cons, append_assoc, map_append,
        dropWhile_append_of_pos]
      · simp [Revision.saved]
      · intro q hq
        obtain ⟨p, hp, rfl⟩ := mem_map.1 hq
        exact decide_eq_true (hlt₂ p (mem_reverse.1 hp)).ne'
    cases hu : StateDB.undo db (s.journal.entries.length - r.journalIndex) s with
    | error e => simp [hu, Except.map] at hundo
    | ok s₂ =>
      rw [hu, Except.map] at hundo
      have hrev₂ : s₂.validRevisions = s.validRevisions := by
        have hself := StateDB.undo_withRevisions db (s.journal.entries.length - r.journalIndex) s
          s.validRevisions
        rw [hu, Except.map, Except.ok.injEq] at hself
        rw [hself]
      refine .inr ⟨s', _, ?_, by rw [Timeline.revertToSnapshot, hdrop]; rfl, ?_⟩
      · simp only [StateDB.revertToSnapshot, hfind, hget, ne_eq, not_true_eq_false, if_false, hu,
          hrev₂, htake]
        rw [hundo]
      · rwa [Timeline.modify, h.now] at h'
  · have hnot : ∀ q ∈ s.validRevisions, q.id ≠ id := fun q hq heq ↦ hid ⟨q, hq, heq⟩
    refine .inl ⟨.revisionCannotBeReverted, ?_, ?_⟩
    · unfold StateDB.revertToSnapshot
      dsimp only
      split
      · rfl
      · next r hr => rw [if_pos (hnot r (mem_of_getElem? hr))]
    · have hdrop : t.saved.dropWhile (·.1 ≠ id) = [] := by
        rw [dropWhile_eq_nil_iff, h.saved]
        intro q hq
        obtain ⟨p, hp, rfl⟩ := mem_map.1 hq
        exact decide_eq_true (hnot p (mem_reverse.1 hp))
      rw [Timeline.revertToSnapshot, hdrop]

/-! ## All methods together -/

/-- A reading method answers alike. -/
private theorem Refines.read_alike {α : Type} (h : Refines db s t)
    (a : Address) (absent : α) (f : StateObject → α × StateObject) (g : Account → α)
    (hf : ∀ o, (f o).1 = g (o.account db) ∧ StateObject.Caches db o (f o).2) :
    Alike Eq (Refines db) (s.readObject db a absent f)
      (.ok (t.now.read a absent g, t) : Except Fault (α × Timeline)) := by
  obtain ⟨s', hs', h'⟩ := h.readObject a absent hf
  rw [hs']
  exact ⟨rfl, h'⟩

/-- A method that reads without touching a cache answers alike. -/
private theorem Refines.data_alike {α : Type} (h : Refines db s t)
    (a : Address) (absent : α) (f : StateObject → α) (g : Account → α)
    (hf : ∀ o, f o = g (o.account db)) :
    Alike Eq (Refines db) (s.readObject db a absent fun o ↦ (f o, o))
      (.ok (t.now.read a absent g, t) : Except Fault (α × Timeline)) :=
  h.read_alike a absent _ g fun o ↦ ⟨hf o, .refl o⟩

/-- **Refinement.** Every method of the state database answers as the timeline does, faults when it
does, and leaves the two related. -/
theorem handler_simulates (db : StateDatabase C) :
    (handler db).Simulates (Timeline.handler C) (fun _ ↦ True) (Refines db) := by
  intro o _ s t h
  have hal : t.now.accessList = s.accessList := congrArg World.accessList h.now
  have hrefund : t.now.refund = s.refund := congrArg World.refund h.now
  cases o with
  | createAccount a => exact ⟨rfl, h.createAccount a⟩
  | subBalance a x => exact ⟨rfl, h.subBalance a x⟩
  | addBalance a x => exact ⟨rfl, h.addBalance a x⟩
  | setNonce a n => exact ⟨rfl, h.setNonce a n⟩
  | setCode a c => exact ⟨rfl, h.setCode a c⟩
  | setState a k v => exact ⟨rfl, h.setState a k v⟩
  | suicide a => exact h.suicide a
  | getBalance a => exact h.data_alike a 0 (·.data.balance) (·.balance) fun _ ↦ rfl
  | getNonce a => exact h.data_alike a 0 (·.data.nonce) (·.nonce) fun _ ↦ rfl
  | getCodeHash a => exact h.data_alike a 0 (·.data.codeHash) (·.codeHash) fun _ ↦ rfl
  | getCode a => exact h.read_alike a [] _ (·.code) fun o ↦ o.getCode_spec db
  | getCodeSize a => exact h.data_alike a 0 (·.codeSize db) (·.code.length) (·.codeSize_eq db)
  | getCommittedState a k =>
    exact h.read_alike a 0 _ (·.committed k) fun o ↦ o.getCommittedState_spec db k
  | getState a k => exact h.read_alike a 0 _ (·.storage k) fun o ↦ o.getState_spec db k
  | hasSuicided a => exact h.data_alike a false (·.suicided) (·.suicided) fun _ ↦ rfl
  | exist a => exact h.data_alike a false (fun _ ↦ true) (fun _ ↦ true) fun _ ↦ rfl
  | empty a => exact h.data_alike a true (·.empty C) (·.isEmpty C) fun _ ↦ rfl
  | addRefund g =>
    refine ⟨rfl, ?_⟩
    rw [Timeline.modify, hrefund]
    exact h.setRefund (add64 s.refund g)
  | subRefund g =>
    simp only [handler, Timeline.handler, subRefund, hrefund]
    split
    · rfl
    · refine ⟨rfl, ?_⟩
      rw [Timeline.modify, hrefund]
      exact h.setRefund (s.refund - g)
  | getRefund => exact ⟨hrefund.symm, h⟩
  | addressInAccessList a => exact ⟨congrArg (·.containsAddress a) hal.symm, h⟩
  | slotInAccessList a k =>
    simp only [handler, Timeline.handler, hal]
    cases s.accessList.contains a k with
    | error e => rfl
    | ok r => exact ⟨rfl, h⟩
  | addAddressToAccessList a => exact ⟨rfl, h.addAddressToAccessList a⟩
  | addSlotToAccessList a k =>
    obtain ⟨ac, sc, al, s', hadd, hs', h'⟩ := h.addSlotToAccessList a k
    simp only [handler, Timeline.handler, hal, hadd, hs']
    exact ⟨rfl, h'⟩
  | revertToSnapshot id =>
    simp only [handler, Timeline.handler]
    rcases h.revertToSnapshot id with ⟨e, hs, ht⟩ | ⟨s', t', hs, ht, h'⟩
    all_goals rw [hs, ht]
    · rfl
    · exact ⟨rfl, h'⟩
  | snapshot => exact h.snapshot
  | addLog l => exact ⟨rfl, h.addLog l⟩
  | addPreimage hash p => exact ⟨rfl, h.addPreimage hash p⟩
  | captureStart | captureEnter | captureState => exact ⟨rfl, h⟩

/-! ## Getters -/

/-- The methods that only read. -/
def isGetter : StateOp → Bool
  | .getBalance _ | .getNonce _ | .getCodeHash _ | .getCode _ | .getCodeSize _ | .getRefund
  | .getCommittedState _ _ | .getState _ _ | .hasSuicided _ | .exist _ | .empty _
  | .addressInAccessList _ | .slotInAccessList _ _ => true
  | _ => false

/-- A getter's answer depends on the current world only. -/
theorem Timeline.answer_eq_of_isGetter {o : StateOp} (ho : isGetter o = true)
    {t u : Timeline} (h : u.now = t.now) :
    (Timeline.handler C).answer o u = (Timeline.handler C).answer o t := by
  cases o with
  | slotInAccessList a k =>
    simp only [Handler.answer, Timeline.handler, h]
    cases t.now.accessList.contains a k <;> rfl
  | getBalance | getNonce | getCodeHash | getCode | getCodeSize | getRefund | getCommittedState
  | getState | hasSuicided | exist | empty | addressInAccessList =>
    simp only [Handler.answer, Timeline.handler, h, Except.map]
  | _ => cases ho

/-- Every getter answers on `s'` what it answers on `s`, the logs and the preimages among them. -/
structure StateDB.SameReads (db : StateDatabase C) (s s' : StateDB) : Prop where
  answer : ∀ o, isGetter o = true →
    (StateDB.handler db).answer o s' = (StateDB.handler db).answer o s
  getLogs : ∀ hash, s'.getLogs hash = s.getLogs hash
  logSize : s'.logSize = s.logSize
  preimages : s'.preimages = s.preimages

/-- State databases that stand for the same world read the same. -/
theorem StateDB.sameReads_of_refines {s s' : StateDB} {t u : Timeline} (hs : Refines db s t)
    (hs' : Refines db s' u) (h : u.now = t.now) : SameReads db s s' := by
  have hworld : s'.world db = s.world db := by rw [← hs'.now, h, hs.now]
  refine ⟨fun o ho ↦ ?_, congrFun (congrArg World.logs hworld),
    congrArg World.logSize hworld, congrArg World.preimages hworld⟩
  have hsim := handler_simulates db
  rw [hsim.answer_eq trivial hs', hsim.answer_eq trivial hs, Timeline.answer_eq_of_isGetter ho h]

/-! ## Reading storage -/

theorem answer_getState (h : Refines db s t) (a : Address) (key : Hash) :
    (handler db).answer (.getState a key) s =
      .ok ((t.now.getOrNew C a).storage key) := by
  rw [(handler_simulates db).answer_eq trivial h]
  exact congrArg Except.ok (t.now.read_storage C a key)

theorem answer_getCommittedState (h : Refines db s t) (a : Address) (key : Hash) :
    (handler db).answer (.getCommittedState a key) s =
      .ok ((t.now.getOrNew C a).committed key) := by
  rw [(handler_simulates db).answer_eq trivial h]
  exact congrArg Except.ok (t.now.read_committed C a key)

end GoEntropy.State
