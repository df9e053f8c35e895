import GoEntropy.State.World

/-!
# The state database refines the timeline

`StateDB.world` reads the world off a state database: an account is the live object, or the one the
trie describes, with its three layers of storage flattened. `Refines` relates a state database to a
timeline. Its heart is `Coherent`: undoing the journal entry by entry gives, for every open snapshot,
the world that was current when it was taken, and no undo can hit a missing object.

The main result is `handler_simulates`: every method of `StateDB` answers as the timeline does and
keeps the two related. The proof follows the code: loading an object changes nothing that is
observable (`Refines.quiet`), and every change journals an entry that undoes it (`Refines.commit`).
-/

namespace GoEntropy.State

open Evm Interaction StateObject Function World StateDatabase

variable {C : Crypto} {db : StateDatabase C}

/-! ## Reading the world -/

/-- The account an object stands for. -/
def StateObject.account (db : StateDatabase C) (o : StateObject) : Account where
  nonce := o.data.nonce
  balance := o.data.balance
  codeHash := o.data.codeHash
  code := if o.code ≠ [] then o.code else db.codeOf o.data.codeHash
  suicided := o.suicided
  storage k := (o.dirtyStorage.lookup k).getD
    ((o.pendingStorage.lookup k).getD ((o.originStorage.lookup k).getD (o.theTrie db (db.slotKey k))))
  committed k := (o.pendingStorage.lookup k).getD
    ((o.originStorage.lookup k).getD (o.theTrie db (db.slotKey k)))

/-- The account an object stands for, unless it was deleted. -/
def StateObject.presence (db : StateDatabase C) (o : StateObject) : Option Account :=
  if o.deleted then none else some (o.account db)

namespace StateDB

/-- The live object, or the one the trie describes. -/
def object (db : StateDatabase C) (s : StateDB) (a : Address) : Option StateObject :=
  (s.stateObjects a).or ((s.trie (db.addressKey a)).map (newObject a))

/-- The world a state database stands for. -/
def world (db : StateDatabase C) (s : StateDB) : World where
  accounts a := (s.object db a).bind (·.presence db)
  refund := s.refund
  accessList := s.accessList
  thash := s.thash
  txIndex := s.txIndex
  logs := s.logs
  logSize := s.logSize
  preimages := s.preimages

variable {s : StateDB} {a : Address} {o : StateObject}

@[simp] theorem world_journaled (e : JournalEntry) : (s.journaled e).world db = s.world db := rfl

@[simp] theorem world_setStateObject :
    (s.setStateObject o).world db =
      { s.world db with
        accounts := update (s.world db).accounts o.address (o.presence db) } := by
  simp only [world, setStateObject]
  congr 1
  funext a
  by_cases h : a = o.address
  · subst h
    simp [object]
  · simp [object, update_of_ne h]

theorem accounts_eq_of_object (h : s.object db a = some o) :
    (s.world db).accounts a = o.presence db := by
  simp [world, h]

theorem accounts_eq_none_of_object (h : s.object db a = none) :
    (s.world db).accounts a = none := by
  simp [world, h]

theorem object_of_stateObjects (h : s.stateObjects a = some o) : s.object db a = some o := by
  simp [object, h]

end StateDB

/-! ## Undoing entries -/

namespace World

/-- Change the account at an address, if there is one. -/
def adjust (w : World) (a : Address) (f : Account → Account) : World :=
  { w with accounts := Function.update w.accounts a ((w.accounts a).map f) }

end World

namespace JournalEntry

/-- What undoing an entry does to the world. -/
def undo (db : StateDatabase C) : JournalEntry → World → World
  | createObjectChange a, w => { w with accounts := Function.update w.accounts a none }
  | resetObjectChange prev, w =>
    { w with accounts := Function.update w.accounts prev.address (prev.presence db) }
  | suicideChange a prev prevbalance, w =>
    w.adjust a fun acc ↦ { acc with suicided := prev, balance := prevbalance }
  | balanceChange a prev, w => w.adjust a fun acc ↦ { acc with balance := prev }
  | nonceChange a prev, w => w.adjust a fun acc ↦ { acc with nonce := prev }
  | storageChange a key prevalue, w =>
    w.adjust a fun acc ↦ { acc with storage := Function.update acc.storage key prevalue }
  | codeChange a prevcode prevhash, w =>
    w.adjust a fun acc ↦
      { acc with code := if prevcode ≠ [] then prevcode else db.codeOf prevhash, codeHash := prevhash }
  | refundChange prev, w => { w with refund := prev }
  | addLogChange txhash, w =>
    { w with
      logs := Function.update w.logs txhash (w.logs txhash).dropLast, logSize := w.logSize - 1 }
  | addPreimageChange hash, w => { w with preimages := Function.update w.preimages hash none }
  | touchChange _, w => w
  | accessListAddAccountChange a, w => { w with accessList := w.accessList.deleteAddress a }
  | accessListAddSlotChange a slot, w =>
    match w.accessList.deleteSlot a slot with
    | .ok accessList => { w with accessList }
    | .error _ => w

/-- What undoing an entry needs: the trie does not bring a created object back, and the account that
was changed is there. -/
def Applies (db : StateDatabase C) (trie : AccountTrie) : JournalEntry → World → Prop
  | createObjectChange a, _ => trie (db.addressKey a) = none
  | balanceChange a _, w => (w.accounts a).isSome
  | nonceChange a _, w => (w.accounts a).isSome
  | storageChange a _ _, w => (w.accounts a).isSome
  | codeChange a _ _, w => (w.accounts a).isSome
  | accessListAddSlotChange a slot, w => ∃ al, w.accessList.deleteSlot a slot = .ok al
  | _, _ => True

end JournalEntry

/-- What holds of the world at every moment of a transaction: an account that no entry counts as
dirty is as it was when the transaction started. -/
structure Settled (es : List JournalEntry) (w : World) : Prop where
  accessList_wf : w.accessList.WF
  clean : ∀ a acc, (∀ e ∈ es, e.dirtied ≠ some a) → w.accounts a = some acc → acc.Clean

/-- Undoing the entries one by one is possible and leads back to a settled world without refund. -/
def Coherent (db : StateDatabase C) (trie : AccountTrie) : List JournalEntry → World → Prop
  | [], w => Settled [] w ∧ w.refund = 0
  | e :: es, w => Settled (e :: es) w ∧ e.Applies db trie w ∧ Coherent db trie es (e.undo db w)

theorem Coherent.settled {trie : AccountTrie} {es : List JournalEntry} {w : World}
    (h : Coherent db trie es w) : Settled es w := by
  cases es <;> exact h.1

/-- The world before the last `n` entries. -/
def rewind (db : StateDatabase C) : Nat → List JournalEntry → World → World
  | 0, _, w => w
  | _ + 1, [], w => w
  | n + 1, e :: es, w => rewind db n es (e.undo db w)

/-- The world a revision stands for. -/
def Revision.saved (db : StateDatabase C) (es : List JournalEntry) (w : World) (r : Revision) :
    Nat × World :=
  (r.id, rewind db (es.length - r.journalIndex) es w)

/-! ## The relation -/

/-- A state database and the timeline it implements. -/
structure Refines (db : StateDatabase C) (s : StateDB) (t : Timeline) : Prop where
  now : t.now = s.world db
  saved : t.saved =
    s.validRevisions.reverse.map (Revision.saved db s.journal.entries (s.world db))
  nextId : t.nextId = s.nextRevisionId
  address : ∀ a o, s.stateObjects a = some o → o.address = a
  coherent : Coherent db s.trie s.journal.entries (s.world db)
  dirties : ∀ a, s.journal.entries.countP (fun e ↦ e.dirtied = some a) ≤
    (s.journal.dirties.lookup a).getD 0
  ids : s.validRevisions.Pairwise (·.id < ·.id)
  ids_lt : ∀ r ∈ s.validRevisions, r.id < s.nextRevisionId
  indices : s.validRevisions.Pairwise (·.journalIndex ≤ ·.journalIndex)
  indices_le : ∀ r ∈ s.validRevisions, r.journalIndex ≤ s.journal.entries.length

variable {s s' : StateDB} {t : Timeline} {a : Address} {o : StateObject}

namespace Refines

/-- A change of the caches only. -/
theorem quiet (h : Refines db s t) (hw : s'.world db = s.world db) (htrie : s'.trie = s.trie)
    (hj : s'.journal = s.journal) (hr : s'.validRevisions = s.validRevisions)
    (hn : s'.nextRevisionId = s.nextRevisionId)
    (haddr : ∀ a o, s'.stateObjects a = some o → o.address = a) : Refines db s' t where
  now := h.now.trans hw.symm
  saved := by rw [h.saved, hr, hj, hw]
  nextId := h.nextId.trans hn.symm
  address := haddr
  coherent := by rw [hw, htrie, hj]; exact h.coherent
  dirties := by rw [hj]; exact h.dirties
  ids := by rw [hr]; exact h.ids
  ids_lt := by rw [hr, hn]; exact h.ids_lt
  indices := by rw [hr]; exact h.indices
  indices_le := by rw [hr, hj]; exact h.indices_le

end Refines

theorem Journal.entries_append (j : Journal) (e : JournalEntry) : (j.append e).entries = e :: j.entries := by
  unfold Journal.append
  cases e.dirtied <;> rfl

theorem Journal.lookup_append_le (j : Journal) (e : JournalEntry) (a : Address) :
    (j.dirties.lookup a).getD 0 + (if e.dirtied = some a then 1 else 0) ≤
      ((j.append e).dirties.lookup a).getD 0 := by
  unfold Journal.append
  cases he : e.dirtied with
  | none => simp
  | some b =>
    by_cases hb : b = a
    · subst hb
      simp [Journal.dirty]
    · simp [Journal.dirty, AList.lookup_insert_ne (.symm hb), hb]

namespace Refines

variable (h : Refines db s t)

include h

/-- A change that is journaled: the entry undoes it, and applies after it. -/
theorem commit {e : JournalEntry} (hes : s'.journal.entries = e :: s.journal.entries)
    (hdirty : ∀ a, ((s.journal.append e).dirties.lookup a).getD 0 ≤
      (s'.journal.dirties.lookup a).getD 0)
    (hundo : e.undo db (s'.world db) = s.world db) (happ : e.Applies db s.trie (s'.world db))
    (hset : Settled (e :: s.journal.entries) (s'.world db)) (htrie : s'.trie = s.trie)
    (hr : s'.validRevisions = s.validRevisions) (hn : s'.nextRevisionId = s.nextRevisionId)
    (haddr : ∀ a o, s'.stateObjects a = some o → o.address = a) :
    Refines db s' (t.modify fun _ ↦ s'.world db) where
  now := rfl
  saved := by
    rw [Timeline.modify, h.saved, hr, hes]
    refine List.map_congr_left fun r hmem ↦ ?_
    have hle := h.indices_le r (List.mem_reverse.1 hmem)
    have hlen : (e :: s.journal.entries).length - r.journalIndex =
        s.journal.entries.length - r.journalIndex + 1 := by
      rw [List.length_cons]
      omega
    rw [Revision.saved, Revision.saved, hlen, rewind, hundo]
  nextId := h.nextId.trans hn.symm
  address := haddr
  coherent := by
    rw [hes, htrie]
    exact ⟨hset, happ, hundo ▸ h.coherent⟩
  dirties a := by
    rw [hes, List.countP_cons]
    refine le_trans (Nat.add_le_add_right (h.dirties a) _) (le_trans ?_ (hdirty a))
    simpa using Journal.lookup_append_le s.journal e a
  ids := by rw [hr]; exact h.ids
  ids_lt := by rw [hr, hn]; exact h.ids_lt
  indices := by rw [hr]; exact h.indices
  indices_le r hmem := by
    rw [hes]
    exact Nat.le_succ_of_le (h.indices_le r (hr ▸ hmem))

/-! ## Loading and changing objects -/

theorem address_setStateObject (o : StateObject) :
    ∀ b p, (s.setStateObject o).stateObjects b = some p → p.address = b := by
  intro b p hp
  rw [StateDB.setStateObject] at hp
  by_cases hb : b = o.address
  · simp only [hb, update_self, Option.some_inj] at hp
    rw [hb, hp]
  · simp only [update_of_ne hb] at hp
    exact h.address b p hp

theorem setSame {o' : StateObject} (ho : s.object db a = some o)
    (ha : o'.address = a) (hp : o'.presence db = o.presence db) :
    Refines db (s.setStateObject o') t := by
  refine h.quiet ?_ rfl rfl rfl rfl (h.address_setStateObject o')
  rw [StateDB.world_setStateObject, ha, hp, ← StateDB.accounts_eq_of_object ho,
    update_eq_self]

theorem getDeletedStateObject (a : Address) :
    (s.getDeletedStateObject db a = (none, s) ∧ s.object db a = none) ∨
      ∃ o s', s.getDeletedStateObject db a = (some o, s') ∧ Refines db s' t ∧
        s'.stateObjects a = some o := by
  unfold StateDB.getDeletedStateObject
  cases ho : s.stateObjects a with
  | some o => exact .inr ⟨o, s, rfl, h, ho⟩
  | none =>
    cases htrie : s.trie (db.addressKey a) with
    | none => exact .inl ⟨rfl, by simp [StateDB.object, ho, htrie]⟩
    | some data =>
      have hobj : s.object db a = some (newObject a data) := by simp [StateDB.object, ho, htrie]
      refine .inr ⟨newObject a data, _, rfl, h.setSame hobj rfl rfl, ?_⟩
      simp [StateDB.setStateObject, newObject]

theorem getStateObject (a : Address) :
    (∃ s', s.getStateObject db a = (none, s') ∧ Refines db s' t ∧ t.now.accounts a = none) ∨
      ∃ o s', s.getStateObject db a = (some o, s') ∧ Refines db s' t ∧
        s'.stateObjects a = some o ∧ o.deleted = false ∧
        t.now.accounts a = some (o.account db) := by
  unfold StateDB.getStateObject
  rcases h.getDeletedStateObject a with ⟨hget, hobj⟩ | ⟨o, s', hget, h', hobj⟩
  · rw [hget]
    refine .inl ⟨s, rfl, h, ?_⟩
    rw [h.now, StateDB.accounts_eq_none_of_object hobj]
  · have hacc : t.now.accounts a = o.presence db := by
      rw [h'.now, StateDB.accounts_eq_of_object (StateDB.object_of_stateObjects hobj)]
    rw [hget]
    cases hd : o.deleted with
    | true => exact .inl ⟨s', by simp [hd], h', by simp [hacc, presence, hd]⟩
    | false =>
      exact .inr ⟨o, s', by simp [hd], h', hobj, hd, by simp [hacc, presence, hd]⟩

/-- The live object at an address is changed, and the entry that takes it back is journaled. -/
theorem change (o' : StateObject) (e : JournalEntry) (ha : o'.address = a)
    (hd : o'.deleted = false) (hset : e.dirtied = some a ∨ (o'.account db).Clean)
    (hundo : e.undo db ((s.world db).put a (o'.account db)) = s.world db)
    (happ : e.Applies db s.trie ((s.world db).put a (o'.account db))) :
    Refines db ((s.journaled e).setStateObject o') (t.modify (·.put a (o'.account db))) := by
  have hw : ((s.journaled e).setStateObject o').world db =
      (s.world db).put a (o'.account db) := by
    simp [put, ha, presence, hd]
  have hmod : t.modify (·.put a (o'.account db)) =
      t.modify fun _ ↦ ((s.journaled e).setStateObject o').world db := by
    rw [hw, Timeline.modify, h.now, Timeline.modify]
  rw [hmod]
  refine h.commit (s.journal.entries_append e) (fun _ ↦ le_rfl) (by rw [hw, hundo]) (by rw [hw]; exact happ)
    ?_ rfl rfl rfl (h.address_setStateObject o')
  rw [hw]
  refine ⟨h.coherent.settled.accessList_wf, fun b acc hb hacc ↦ ?_⟩
  by_cases hba : b = a
  · subst hba
    rcases hset with hset | hset
    · exact absurd hset (hb e List.mem_cons_self)
    · rw [put_self, Option.some_inj] at hacc
      exact hacc ▸ hset
  · rw [put_of_ne hba] at hacc
    exact h.coherent.settled.clean b acc (fun e' he' ↦ hb e' (List.mem_cons_of_mem _ he')) hacc

end Refines

abbrev StateObject.blank (C : Crypto) (a : Address) : StateObject := newObject a ⟨0, 0, 0, C.emptyCodeHash⟩

theorem StateObject.account_newObject (db : StateDatabase C) (a : Address) :
    (blank C a).account db = Account.fresh C := by
  have htrie : db.storageTrie emptyRoot = fun _ ↦ 0 := by
    simp [storageTrie, db.open_emptyRoot]
  simp [newObject, account, Account.fresh, codeOf, theTrie,
    htrie]

namespace Refines

/-- `createObject` overwrites what is there by a new account; a caller may still set its balance. -/
theorem createObject (h : Refines db s t) (a : Address) :
    ∃ prev s', s.createObject db a = (blank C a, prev, s') ∧
      t.now.accounts a = prev.map (·.account db) ∧
      s'.stateObjects a = some (blank C a) ∧
      ∀ b, Refines db
        (s'.setStateObject ((blank C a).setBalance b))
        (t.modify (·.put a { Account.fresh C with balance := b })) := by
  have hidem : ∀ (s : StateDB) (o : StateObject) (b : ℤ),
      (s.setStateObject o).setStateObject (o.setBalance b) = s.setStateObject (o.setBalance b) := by
    intro s o b
    simp [StateDB.setStateObject, setBalance]
  have hacc : ∀ b, ((blank C a).setBalance b).account db =
      { Account.fresh C with balance := b } := by
    intro b
    rw [← account_newObject db a]
    rfl
  unfold StateDB.createObject
  rcases h.getDeletedStateObject a with ⟨hget, hobj⟩ | ⟨prev, s', hget, h', hobj⟩
  · rw [hget]
    have hnone : (s.world db).accounts a = none := StateDB.accounts_eq_none_of_object hobj
    refine ⟨none, _, rfl, by rw [h.now, hnone]; rfl, update_self .., fun b ↦ ?_⟩
    rw [hidem, ← hacc b]
    refine h.change ((blank C a).setBalance b)
      (.createObjectChange a) rfl rfl (.inl rfl) ?_ ?_
    · simp only [JournalEntry.undo, put, update_idem]
      rw [← hnone, update_eq_self]
    · exact Option.map_eq_none_iff.1 (Option.or_eq_none_iff.1 hobj).2
  · rw [hget]
    have haddr := h'.address a prev hobj
    have hprev : (s'.world db).accounts a = prev.presence db :=
      StateDB.accounts_eq_of_object (StateDB.object_of_stateObjects hobj)
    refine ⟨_, _, rfl, ?_, update_self .., fun b ↦ ?_⟩
    · rw [h'.now, hprev, presence]
      cases prev.deleted <;> rfl
    · rw [hidem, ← hacc b]
      refine h'.change ((blank C a).setBalance b)
        (.resetObjectChange prev) rfl rfl (.inr ⟨rfl, rfl⟩) ?_ trivial
      simp [JournalEntry.undo, put, haddr, ← hprev]

theorem createObject_fresh (h : Refines db s t) (hnone : t.now.accounts a = none) :
    ∃ s', s.createObject db a = (blank C a, none, s') ∧
      s'.stateObjects a = some (blank C a) ∧
      Refines db s' (t.modify (·.put a (.fresh C))) := by
  obtain ⟨prev, s', hcreate, hprev, hobj, h'⟩ := h.createObject a
  have hset : s'.setStateObject (blank C a) = s' := by
    simp only [StateDB.setStateObject]
    rw [← hobj, show (blank C a).address = a from rfl,
      update_eq_self]
  have h₀ : Refines db (s'.setStateObject (blank C a))
      (t.modify (·.put a (.fresh C))) := h' 0
  rw [hset] at h₀
  obtain rfl : prev = none := Option.map_eq_none_iff.1 (hprev.symm.trans hnone)
  exact ⟨s', hcreate, hobj, h₀⟩

theorem createAccount (h : Refines db s t) (a : Address) :
    Refines db (s.createAccount db a) (t.modify (·.createAccount C a)) := by
  unfold StateDB.createAccount
  cases hacc : t.now.accounts a with
  | none =>
    obtain ⟨s', hcreate, -, h'⟩ := h.createObject_fresh hacc
    have hmod : t.modify (·.createAccount C a) = t.modify (·.put a (.fresh C)) := by
      simp [Timeline.modify, World.createAccount, World.balance, hacc, Account.fresh]
    rw [hcreate, hmod]
    exact h'
  | some acc =>
    obtain ⟨prev, s', hcreate, hprev, -, h'⟩ := h.createObject a
    obtain ⟨p, rfl, rfl⟩ := Option.map_eq_some_iff.1 (hprev.symm.trans hacc)
    have hmod : t.modify (·.createAccount C a) =
        t.modify (·.put a { Account.fresh C with balance := p.data.balance }) := by
      simp [Timeline.modify, World.createAccount, World.balance, hacc, account]
    rw [hcreate, hmod]
    exact h' p.data.balance

theorem getOrNewStateObject (h : Refines db s t) (a : Address) :
    ∃ o s', s.getOrNewStateObject db a = (o, s') ∧ s'.stateObjects a = some o ∧
      o.deleted = false ∧ o.account db = t.now.getOrNew C a ∧
      Refines db s' (t.modify (·.put a (o.account db))) := by
  unfold StateDB.getOrNewStateObject
  rcases h.getStateObject a with ⟨s₁, hget, h₁, hnone⟩ | ⟨o, s', hget, h', hobj, hd, hacc⟩
  · obtain ⟨s', hcreate, hobj, h'⟩ := h₁.createObject_fresh hnone
    rw [hget]
    refine ⟨_, s', by simp [hcreate], hobj, rfl, ?_, ?_⟩
    · rw [account_newObject, getOrNew, hnone, Option.getD_none]
    · rwa [account_newObject]
  · rw [hget]
    refine ⟨o, s', rfl, hobj, hd, by rw [getOrNew, hacc, Option.getD_some], ?_⟩
    rwa [Timeline.modify, put_eq_self hacc]

/-- The object a method found is changed through one journal entry. -/
theorem changeOrNew {o : StateObject} (h : Refines db s (t.modify (·.put a (o.account db))))
    (hobj : s.stateObjects a = some o) (o' : StateObject) (e : JournalEntry)
    {f : Account → Account} (ha : o'.address = o.address) (hd : o'.deleted = false) (he : e.dirtied = some a)
    (hundo : ∀ w : World, e.undo db w = w.adjust a f) (hf : f (o'.account db) = o.account db)
    (happ : e.Applies db s.trie ((s.world db).put a (o'.account db))) :
    Refines db ((s.journaled e).setStateObject o') (t.modify (·.put a (o'.account db))) := by
  have hacc : (s.world db).accounts a = some (o.account db) := by
    rw [← h.now, Timeline.modify, put_self]
  have hmod : t.modify (·.put a (o'.account db)) =
      (t.modify (·.put a (o.account db))).modify (·.put a (o'.account db)) := by
    simp [Timeline.modify]
  rw [hmod]
  refine h.change o' e (ha.trans (h.address a o hobj)) hd (.inl he) ?_ happ
  rw [hundo]
  simp only [adjust, put, update_self, Option.map_some, hf, update_idem]
  rw [← hacc, update_eq_self]

theorem touch (h : Refines db s t) (a : Address) : Refines db (s.touch a) t := by
  have hw : (s.touch a).world db = s.world db := by
    unfold StateDB.touch
    split <;> rfl
  have hmod : t = t.modify fun _ ↦ (s.touch a).world db := by
    rw [hw, Timeline.modify, ← h.now]
  rw [hmod]
  refine h.commit (e := .touchChange a) ?_ (fun b ↦ ?_) hw trivial ?_ ?_ ?_ ?_ ?_
  · unfold StateDB.touch
    split <;> rfl
  · unfold StateDB.touch
    split
    · by_cases hb : b = a
      · subst hb
        simp [StateDB.journaled, Journal.dirty]
      · simp [StateDB.journaled, Journal.dirty, AList.lookup_insert_ne hb]
    · exact le_rfl
  · rw [hw]
    exact ⟨h.coherent.settled.accessList_wf, fun b acc hb hacc ↦
      h.coherent.settled.clean b acc (fun e he ↦ hb e (List.mem_cons_of_mem _ he)) hacc⟩
  all_goals
    unfold StateDB.touch
    split
  all_goals first | rfl | exact h.address

end Refines

/-! ## Reading an object -/

namespace StateObject

variable {o : StateObject}

/-- The second object is the first one with more in its caches. -/
structure Caches (db : StateDatabase C) (o o' : StateObject) : Prop where
  address : o'.address = o.address
  deleted : o'.deleted = o.deleted
  account : o'.account db = o.account db

theorem Caches.refl (o : StateObject) : Caches db o o := ⟨rfl, rfl, rfl⟩

theorem Caches.presence {o' : StateObject} (h : Caches db o o') :
    o'.presence db = o.presence db := by
  rw [StateObject.presence, StateObject.presence, h.deleted, h.account]

theorem getCommittedState_spec (db : StateDatabase C) (o : StateObject) (k : Hash) :
    (o.getCommittedState db k).1 = (o.account db).committed k ∧
      Caches db o (o.getCommittedState db k).2 := by
  unfold getCommittedState
  cases hp : o.pendingStorage.lookup k with
  | some v => exact ⟨by simp [account, hp], .refl o⟩
  | none =>
    cases ho : o.originStorage.lookup k with
    | some v => exact ⟨by simp [account, hp, ho], .refl o⟩
    | none =>
      refine ⟨by simp [account, hp, ho, getTrie], rfl, rfl, ?_⟩
      -- the cached value is the one the trie would have given
      have hlook : ∀ j, (((o.originStorage.insert k (o.theTrie db (db.slotKey k))).lookup j).getD
          (o.theTrie db (db.slotKey j))) =
            (o.originStorage.lookup j).getD (o.theTrie db (db.slotKey j)) := by
        intro j
        by_cases hj : j = k
        · subst hj
          simp [ho]
        · rw [AList.lookup_insert_ne hj]
      have htrie : ({ o with
          trie := some (o.theTrie db)
          originStorage := o.originStorage.insert k (o.theTrie db (db.slotKey k)) } :
          StateObject).theTrie db = o.theTrie db := rfl
      simp only [account, getTrie, htrie, hlook]
      rfl

theorem getState_spec (db : StateDatabase C) (o : StateObject) (k : Hash) :
    (o.getState db k).1 = (o.account db).storage k ∧ Caches db o (o.getState db k).2 := by
  unfold getState
  cases hd : o.dirtyStorage.lookup k with
  | some v => exact ⟨by simp [account, hd], .refl o⟩
  | none =>
    refine ⟨?_, (getCommittedState_spec db o k).2⟩
    rw [(getCommittedState_spec db o k).1]
    simp [account, hd]

theorem getCode_spec (db : StateDatabase C) (o : StateObject) :
    (o.getCode db).1 = (o.account db).code ∧ Caches db o (o.getCode db).2 := by
  unfold getCode
  split
  · next hc => exact ⟨by simp [account, hc], .refl o⟩
  · next hc =>
    split
    · next hh => exact ⟨by simp [account, hc, codeOf, hh], .refl o⟩
    · next hh =>
      refine ⟨by simp [account, hc, codeOf, hh], rfl, rfl, ?_⟩
      simp [account, theTrie, codeOf, hh, hc]

theorem account_setState (db : StateDatabase C) (o : StateObject) (key value : Hash) :
    (o.setState key value).account db =
      { o.account db with storage := update (o.account db).storage key value } := by
  unfold setState account
  congr 1
  funext k
  by_cases hk : k = key
  · subst hk
    simp
  · rw [AList.lookup_insert_ne hk, update_of_ne hk]
    rfl

theorem codeSize_eq (db : StateDatabase C) (o : StateObject) : o.codeSize db = (o.account db).code.length := by
  unfold codeSize account codeOf
  split_ifs <;> rfl

end StateObject

namespace Refines

/-- A method that only reads an object answers what the account says. -/
theorem readObject {α : Type} (h : Refines db s t) (a : Address) (absent : α)
    {f : StateObject → α × StateObject} {g : Account → α}
    (hf : ∀ o, (f o).1 = g (o.account db) ∧ StateObject.Caches db o (f o).2) :
    ∃ s', s.readObject db a absent f = .ok (t.now.read a absent g, s') ∧ Refines db s' t := by
  unfold StateDB.readObject World.read
  rcases h.getStateObject a with ⟨s', hget, h', hnone⟩ | ⟨o, s', hget, h', hobj, hd, hacc⟩
  · rw [hget, hnone]
    exact ⟨s', rfl, h'⟩
  · rw [hget, hacc]
    refine ⟨s'.setStateObject (f o).2, by simp [(hf o).1], ?_⟩
    exact h'.setSame (StateDB.object_of_stateObjects hobj)
      ((hf o).2.address.trans (h'.address a o hobj)) (hf o).2.presence

/-! ## The methods that change an account -/

theorem setBalance {o : StateObject} (h : Refines db s (t.modify (·.put a (o.account db))))
    (hobj : s.stateObjects a = some o) (hd : o.deleted = false) (b : ℤ) :
    Refines db (s.setBalance o b) (t.modify (·.put a { o.account db with balance := b })) := by
  have haddr := h.address a o hobj
  unfold StateDB.setBalance
  rw [haddr]
  exact h.changeOrNew hobj (o.setBalance b) (.balanceChange a o.data.balance) rfl hd rfl
    (fun _ ↦ rfl) rfl (by simp [JournalEntry.Applies])

variable (h : Refines db s t)

include h

theorem addBalance (a : Address) (x : ℤ) :
    Refines db (s.addBalance db a x) (t.modify (·.addBalance C a x)) := by
  obtain ⟨o, s', hget, hobj, hd, hacc, h'⟩ := h.getOrNewStateObject a
  show Refines db _ (t.modify (·.put a { t.now.getOrNew C a with balance := (t.now.getOrNew C a).balance + x }))
  unfold StateDB.addBalance
  rw [hget, ← hacc]
  dsimp only
  split
  · next hx =>
    rw [hx, Int.add_zero]
    split
    · exact h'.touch a
    · exact h'
  · exact h'.setBalance hobj hd _

theorem subBalance (a : Address) (x : ℤ) :
    Refines db (s.subBalance db a x) (t.modify (·.addBalance C a (-x))) := by
  obtain ⟨o, s', hget, hobj, hd, hacc, h'⟩ := h.getOrNewStateObject a
  show Refines db _ (t.modify (·.put a { t.now.getOrNew C a with balance := (t.now.getOrNew C a).balance - x }))
  unfold StateDB.subBalance
  rw [hget, ← hacc]
  dsimp only
  split
  · next hx => rwa [hx, Int.sub_zero]
  · exact h'.setBalance hobj hd _

theorem setNonce (a : Address) (n : UInt64) :
    Refines db (s.setNonce db a n) (t.modify (·.setNonce C a n)) := by
  obtain ⟨o, s', hget, hobj, hd, hacc, h'⟩ := h.getOrNewStateObject a
  show Refines db _ (t.modify (·.put a { t.now.getOrNew C a with nonce := n }))
  unfold StateDB.setNonce
  rw [hget, ← hacc]
  exact h'.changeOrNew hobj (o.setNonce n) (.nonceChange a o.data.nonce) rfl hd rfl
    (fun _ ↦ rfl) rfl (by simp [JournalEntry.Applies])

theorem setCode (a : Address) (code : Bytes) :
    Refines db (s.setCode db a code) (t.modify (·.setCode C a code)) := by
  obtain ⟨o, s', hget, hobj, hd, hacc, h'⟩ := h.getOrNewStateObject a
  obtain ⟨hcode, hcache⟩ := StateObject.getCode_spec db o
  have hset : ((o.getCode db).2.setCode (C.keccak256 code) code).account db =
      { t.now.getOrNew C a with code, codeHash := C.keccak256 code } := by
    rw [← hacc, ← hcache.account]
    by_cases hc : code = []
    · subst hc
      simp [StateObject.setCode, StateObject.account, codeOf, Crypto.emptyCodeHash,
        StateObject.theTrie]
    · simp [StateObject.setCode, StateObject.account, hc, StateObject.theTrie]
  show Refines db _ (t.modify (·.put a { t.now.getOrNew C a with code, codeHash := C.keccak256 code }))
  unfold StateDB.setCode
  rw [hget, ← hset]
  refine h'.changeOrNew hobj ((o.getCode db).2.setCode (C.keccak256 code) code)
    (.codeChange a (o.getCode db).1 (o.getCode db).2.data.codeHash) hcache.address
    (hcache.deleted.trans hd) rfl (fun _ ↦ rfl) ?_ (by simp [JournalEntry.Applies])
  -- undoing restores the code that was there, loaded or not
  have hhash : (o.getCode db).2.data.codeHash = o.data.codeHash :=
    congrArg Account.codeHash hcache.account
  have hprev : (if (o.getCode db).1 ≠ [] then (o.getCode db).1 else db.codeOf o.data.codeHash) =
      (o.account db).code := by
    rw [hcode]
    unfold StateObject.account
    split_ifs <;> simp_all
  rw [hset, hhash, hprev, ← hacc]
  rfl

theorem setState (a : Address) (key value : Hash) :
    Refines db (s.setState db a key value) (t.modify (·.setState C a key value)) := by
  obtain ⟨o, s', hget, hobj, hd, hacc, h'⟩ := h.getOrNewStateObject a
  obtain ⟨hprev, hcache⟩ := getState_spec db o key
  have hset : ((o.getState db key).2.setState key value).account db =
      { o.account db with storage := update (o.account db).storage key value } := by
    rw [account_setState, hcache.account]
  show Refines db _ (t.modify (·.put a
    { t.now.getOrNew C a with storage := update (t.now.getOrNew C a).storage key value }))
  unfold StateDB.setState
  rw [hget, ← hacc]
  dsimp only
  split
  · next hv =>
    rw [← hv, hprev, update_eq_self]
    exact h'.setSame (StateDB.object_of_stateObjects hobj)
      (hcache.address.trans (h'.address a o hobj)) hcache.presence
  · rw [← hset]
    refine h'.changeOrNew hobj ((o.getState db key).2.setState key value)
      (.storageChange a key (o.getState db key).1) hcache.address (hcache.deleted.trans hd) rfl
      (fun _ ↦ rfl) ?_ (by simp [JournalEntry.Applies])
    rw [hset, hprev, update_idem, update_eq_self]

theorem suicide (a : Address) :
    (s.suicide db a).1 = (t.now.suicide a).1 ∧
      Refines db (s.suicide db a).2 (t.modify fun w ↦ (w.suicide a).2) := by
  unfold StateDB.suicide
  rcases h.getStateObject a with ⟨s', hget, h', hnone⟩ | ⟨o, s', hget, h', hobj, hd, hacc⟩
  · rw [hget]
    simp only [World.suicide, Timeline.modify, hnone]
    exact ⟨trivial, h'⟩
  · rw [hget]
    simp only [World.suicide, Timeline.modify, hacc]
    refine ⟨trivial, ?_⟩
    have hsame : Refines db s' (t.modify (·.put a (o.account db))) := by
      rwa [Timeline.modify, World.put_eq_self hacc]
    exact hsame.changeOrNew hobj { o.setBalance 0 with suicided := true }
      (.suicideChange a o.suicided o.data.balance) rfl hd rfl (fun _ ↦ rfl) rfl trivial

end Refines

end GoEntropy.State
