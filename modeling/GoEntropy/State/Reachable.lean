import GoEntropy.Container.Maps
import GoEntropy.Container.Results
import GoEntropy.State.Simulation

/-!
# Reachable state databases

The block processor works on a state database between transactions: `Prepare` names the next
transaction, `Finalise` and `IntermediateRoot` end one. `StateDB.Reachable` collects the states that
these operations and the methods of the interface can produce from a freshly opened one, and
`Reachable.refines` says that each of them implements a timeline.

A finalised state database is at rest (`AtRest`): the refund counter is zero, no account is marked
for destruction, and the storage of every account is the one the next transaction starts from. The
access list is not part of this. Nothing that ends a transaction touches it.
-/

namespace GoEntropy.State

open Evm Interaction StateDB StateObject Function Option StateDB

variable {C : Crypto} {db : StateDatabase C}

/-- A world between transactions. -/
structure World.AtRest (w : World) : Prop where
  refund : w.refund = 0
  clean : ∀ a acc, w.accounts a = some acc → acc.Clean

namespace StateObject

@[simp] theorem finalised_address (del : Bool) (o : StateObject) :
    (o.finalised C del).address = o.address := by
  unfold finalised
  split <;> rfl

variable {o : StateObject}

theorem storage_eq_committed (h : o.dirtyStorage = ∅) :
    (o.account db).storage = (o.account db).committed := by
  simp [account, h]

variable {acc : Account}

theorem clean_of_presence (hs : o.suicided = false)
    (hd : o.dirtyStorage = ∅) (h : o.presence db = some acc) : acc.Clean := by
  unfold presence at h
  split at h
  · cases h
  · rw [← some_inj.1 h]
    exact ⟨hs, storage_eq_committed hd⟩

theorem account_finalise (o : StateObject) :
    o.finalise.account db = { o.account db with committed := (o.account db).storage } := by
  have hlookup : ∀ key, (o.dirtyStorage ∪ o.pendingStorage).lookup key =
      (o.dirtyStorage.lookup key).or (o.pendingStorage.lookup key) := by
    intro key
    cases h : o.dirtyStorage.lookup key with
    | none => rw [AList.lookup_union_right (AList.lookup_eq_none.1 h), none_or]
    | some v =>
      rw [AList.lookup_union_left (AList.lookup_isSome.1 (by rw [h]; rfl)), h, some_or]
  have hstorage : o.finalise.account db = { o.account db with
      storage := (o.finalise.account db).storage, committed := (o.finalise.account db).committed } :=
    rfl
  have hcommitted : (o.finalise.account db).committed = (o.account db).storage := by
    funext key
    simp only [account, finalise, hlookup]
    cases o.dirtyStorage.lookup key <;> rfl
  rw [hstorage, storage_eq_committed rfl, hcommitted]

/-- What finalising leaves of the account of a dirty object. -/
theorem presence_finalised (del : Bool) (o : StateObject) :
    (o.finalised C del).presence db = (o.presence db).bind fun acc ↦
      if acc.suicided || (del && acc.isEmpty C) then none
      else some { acc with committed := acc.storage } := by
  unfold presence
  cases hdel : o.deleted with
  | true =>
    have hkept : (o.finalised C del).deleted = true := by
      unfold finalised
      split
      · rfl
      · exact hdel
    simp [hkept]
  | false =>
    have hsuicided : (o.account db).suicided = o.suicided := rfl
    have hempty : (o.account db).isEmpty C = o.empty C := rfl
    simp only [Bool.false_eq_true, if_false, bind_some, hsuicided, hempty]
    unfold finalised
    split
    · rfl
    · rw [account_finalise, if_neg (by simp [finalise, hdel])]
      rfl

/-- Updating the root finalises the storage and changes nothing else that is observable without the
trie. -/
theorem updateRoot_spec (db : StateDatabase C) (o : StateObject) :
    (o.updateRoot db).address = o.address ∧ (o.updateRoot db).suicided = o.suicided ∧
      (o.updateRoot db).deleted = o.deleted ∧ (o.updateRoot db).dirtyStorage = ∅ := by
  have htrie : (o.updateTrie db).2.address = o.address ∧ (o.updateTrie db).2.suicided = o.suicided ∧
      (o.updateTrie db).2.deleted = o.deleted ∧ (o.updateTrie db).2.dirtyStorage = ∅ := by
    unfold updateTrie
    dsimp only
    split <;> exact ⟨rfl, rfl, rfl, rfl⟩
  unfold updateRoot
  revert htrie
  generalize o.updateTrie db = p
  obtain ⟨tr, o'⟩ := p
  cases tr <;> exact id

end StateObject

/-- Mark an address that has an object. -/
def mark (objects : Address → Option StateObject) (marks : List Address) (a : Address) : List Address :=
  if (objects a).isSome then marks.insert a else marks

namespace StateDB

variable {s s' : StateDB} {a : Address}

/-- `Finalise` visits the account: the journal counts it as dirty, and there is an object for it. -/
def hasDirty (s : StateDB) (a : Address) : Bool :=
  decide (a ∈ s.journal.dirties.keys) && (s.stateObjects a).isSome

/-! ## The loops -/

/-- What the loop of `Finalise` leaves alone. -/
structure SameOutside (s s' : StateDB) : Prop where
  trie : s'.trie = s.trie
  refund : s'.refund = s.refund
  accessList : s'.accessList = s.accessList
  journal : s'.journal = s.journal
  nextRevisionId : s'.nextRevisionId = s.nextRevisionId

private theorem finaliseObject_eq (haddr : ∀ a o, s.stateObjects a = some o → o.address = a)
    (del : Bool) (b : Address) : s.finaliseObject C del b = { s with
      stateObjects := update s.stateObjects b ((s.stateObjects b).map (·.finalised C del))
      stateObjectsPending := mark s.stateObjects s.stateObjectsPending b } := by
  unfold mark
  cases ho : s.stateObjects b with
  | none =>
    have hsame : update s.stateObjects b none = s.stateObjects :=
      update_eq_self_iff.2 ho.symm
    simp only [finaliseObject, ho, map_none, hsame]
    rfl
  | some o =>
    simp only [finaliseObject, ho, setStateObject, finalised_address, haddr b o ho]
    rfl

/-- The loop of `Finalise` finalises the object of every address it visits, and marks it. -/
theorem foldl_finaliseObject (del : Bool) (l : List Address) (hl : l.Nodup)
    (haddr : ∀ a o, s.stateObjects a = some o → o.address = a) :
    (∀ a, (l.foldl (finaliseObject C del) s).stateObjects a =
        if a ∈ l then (s.stateObjects a).map (·.finalised C del) else s.stateObjects a) ∧
      (l.foldl (finaliseObject C del) s).stateObjectsPending =
        l.foldl (mark s.stateObjects) s.stateObjectsPending ∧
      s.SameOutside (l.foldl (finaliseObject C del) s) := by
  induction l generalizing s with
  | nil => exact ⟨fun a ↦ by simp, rfl, rfl, rfl, rfl, rfl, rfl⟩
  | cons b l ih =>
    obtain ⟨hb, hl⟩ := List.nodup_cons.1 hl
    have hstep := finaliseObject_eq (C := C) haddr del b
    have hupdate : (s.finaliseObject C del b).stateObjects = update s.stateObjects b _ :=
      congrArg stateObjects hstep
    have haddr' : ∀ a o, (s.finaliseObject C del b).stateObjects a = some o → o.address = a := by
      intro a o ho
      rw [hupdate, update_apply] at ho
      split at ho
      · next hab =>
        obtain ⟨p, hp, rfl⟩ := map_eq_some_iff.1 ho
        rw [finalised_address, hab, haddr b p hp]
      · exact haddr a o ho
    -- Which addresses have objects does not change.
    have hmark : mark (s.finaliseObject C del b).stateObjects = mark s.stateObjects := by
      funext marks a
      rw [hupdate, mark, mark, update_apply]
      split
      · next hab => rw [hab, isSome_map]
      · rfl
    obtain ⟨hobj, hpend, hsame⟩ := ih hl haddr'
    rw [hmark] at hpend
    rw [hstep] at hobj hpend hsame
    rw [List.foldl_cons, hstep]
    refine ⟨fun a ↦ ?_, hpend, hsame.trie, hsame.refund, hsame.accessList, hsame.journal,
      hsame.nextRevisionId⟩
    rw [hobj]
    by_cases hab : a = b
    · subst hab
      simp [hb]
    · simp [hab]

theorem finalise_spec (haddr : ∀ a o, s.stateObjects a = some o → o.address = a) (del : Bool) :
    (∀ a, (s.finalise C del).stateObjects a =
        if a ∈ s.journal.dirties.keys then (s.stateObjects a).map (·.finalised C del) else s.stateObjects a) ∧
      ((s.finalise C del).trie = s.trie ∧ (s.finalise C del).accessList = s.accessList) ∧
      (s.finalise C del).stateObjectsPending =
        s.journal.dirties.keys.foldl (mark s.stateObjects) s.stateObjectsPending ∧
      (s.finalise C del).journal.entries = [] := by
  obtain ⟨hobj, hpend, hsame⟩ := foldl_finaliseObject del s.journal.dirties.keys
    s.journal.dirties.nodupKeys haddr
  unfold finalise clearJournalAndRefund
  split
  · next he => exact ⟨hobj, ⟨hsame.trie, hsame.accessList⟩, hpend, List.isEmpty_iff.1 he⟩
  · exact ⟨hobj, ⟨hsame.trie, hsame.accessList⟩, hpend, rfl⟩

/-- What the loops of `IntermediateRoot` do to a pending object. -/
def rehash (db : StateDatabase C) (o : StateObject) : StateObject := if o.deleted then o else o.updateRoot db

theorem updateObjectRoot_eq (objects : Address → Option StateObject) (a : Address) :
    updateObjectRoot db objects a = update objects a ((objects a).map (rehash db)) := by
  unfold updateObjectRoot
  cases ho : objects a with
  | none => exact (update_eq_self_iff.2 ho.symm).symm
  | some o => rfl

/-- The first loop of `IntermediateRoot` only updates roots. -/
theorem foldl_updateObjectRoot (db : StateDatabase C) (l : List Address)
    (objs : Address → Option StateObject) (P : StateObject → StateObject → Prop)
    (hrefl : ∀ o, P o o) (hstep : ∀ o p, P o p → P o (rehash db p)) :
    ∀ a p, l.foldl (updateObjectRoot db) objs a = some p → ∃ o, objs a = some o ∧ P o p := by
  refine Container.foldl_keeps (fun objs' : Address → Option StateObject ↦
    ∀ a p, objs' a = some p → ∃ o, objs a = some o ∧ P o p) (fun objs' b h a p hp ↦ ?_) l
      fun a o ho ↦ ⟨o, ho, hrefl o⟩
  rw [updateObjectRoot_eq, update_apply] at hp
  split at hp
  · next hab =>
    obtain ⟨q, hq, rfl⟩ := map_eq_some_iff.1 hp
    obtain ⟨o, ho, hP⟩ := h b q hq
    exact ⟨o, hab ▸ ho, hstep o q hP⟩
  · exact h a p hp

theorem clean_of_stateObjects {acc : Account} (hs : s.stateObjects a = none)
    (hacc : (s.world db).accounts a = some acc) : acc.Clean := by
  simp only [world, object, hs] at hacc
  obtain ⟨o, ho, hacc⟩ := bind_eq_some_iff.1 hacc
  obtain ⟨data, -, rfl⟩ := map_eq_some_iff.1 ho
  exact clean_of_presence rfl rfl hacc

/-- The timeline of a state database without open snapshots. -/
def timeline (db : StateDatabase C) (s : StateDB) : Timeline := ⟨s.world db, [], s.nextRevisionId⟩

end StateDB

/-- What a state database between transactions looks like inside. -/
structure Resting (db : StateDatabase C) (s : StateDB) : Prop where
  entries : s.journal.entries = []
  validRevisions : s.validRevisions = []
  address : ∀ a o, s.stateObjects a = some o → o.address = a
  accessList_wf : s.accessList.WF
  atRest : (s.world db).AtRest

namespace Resting

variable {s s' : StateDB}

theorem refines (h : Resting db s) : Refines db s (s.timeline db) where
  now := rfl
  saved := by simp [timeline, h.validRevisions]
  nextId := rfl
  address := h.address
  coherent := by
    rw [h.entries]
    exact ⟨⟨h.accessList_wf, fun a acc _ ↦ h.atRest.clean a acc⟩, h.atRest.refund⟩
  dirties a := by simp [h.entries]
  ids := by simp [h.validRevisions]
  ids_lt := by simp [h.validRevisions]
  indices := by simp [h.validRevisions]
  indices_le := by simp [h.validRevisions]

theorem new (trie : AccountTrie) : Resting db (new trie) where
  entries := rfl
  validRevisions := rfl
  address := nofun
  accessList_wf := AccessList.wf_empty
  atRest := ⟨rfl, fun _ _ ↦ clean_of_stateObjects rfl⟩

theorem prepare (h : Resting db s) (thash : Hash) (ti : Nat) : Resting db (s.prepare thash ti) :=
  ⟨h.entries, h.validRevisions, h.address, h.accessList_wf, h.atRest.refund, h.atRest.clean⟩

variable {t : Timeline}

/-- **What finalising leaves of an account.** One that self-destructed is gone, and so is an empty one
that the transaction touched, if empty accounts are deleted. The storage of the others is what the next
transaction starts from. -/
theorem accounts_finalise (h : Refines db s t) (del : Bool) (a : Address) :
    ((s.finalise C del).world db).accounts a = ((s.world db).accounts a).bind fun acc ↦
      if acc.suicided || (s.hasDirty a && (del && acc.isEmpty C)) then none
      else some { acc with committed := acc.storage } := by
  obtain ⟨hobj, ⟨htrie, -⟩, -, -⟩ := finalise_spec h.address del
  have hrest : s.hasDirty a = false → (∀ acc, (s.world db).accounts a = some acc → acc.Clean) →
      (s.world db).accounts a = ((s.world db).accounts a).bind fun acc ↦
        if acc.suicided || (s.hasDirty a && (del && acc.isEmpty C)) then none
        else some { acc with committed := acc.storage } := by
    intro hdirty hclean
    cases hacc : (s.world db).accounts a with
    | none => rfl
    | some acc =>
      obtain ⟨hsuicided, hstorage⟩ := hclean acc hacc
      have hsame : { acc with committed := acc.storage } = acc := by
        cases acc
        cases hstorage
        rfl
      rw [bind_some, hsame, hsuicided, hdirty]
      rfl
  show ((s.finalise C del).object db a).bind _ = _
  rw [object, hobj, htrie]
  cases ho : s.stateObjects a with
  | none =>
    rw [map_none, ite_self, ← ho]
    exact hrest (by simp [hasDirty, ho]) fun _ ↦ clean_of_stateObjects ho
  | some o =>
    split
    · next hkey =>
      have hdirty : s.hasDirty a = true := by simp [hasDirty, hkey, ho]
      have hacc : (s.world db).accounts a = o.presence db :=
        accounts_eq_of_object (object_of_stateObjects ho)
      rw [map_some, some_or, bind_some, presence_finalised, hacc,
        hdirty]
      simp
    · next hkey =>
      rw [← ho]
      refine hrest (by simp [hasDirty, hkey]) fun acc hacc ↦ ?_
      -- No entry counts the account as dirty.
      have hlook : s.journal.dirties.lookup a = none := AList.lookup_eq_none.2 hkey
      have hcount := h.dirties a
      rw [hlook, getD_none, Nat.le_zero, List.countP_eq_zero] at hcount
      exact h.coherent.settled.clean a acc (fun e he hd ↦ hcount e he (by simpa using hd)) hacc

/-- Finalising leads to rest from any point of a transaction. -/
theorem finalise (h : Refines db s t) (del : Bool) :
    Resting db (s.finalise C del) := by
  obtain ⟨hobj, ⟨-, haccess⟩, -, hentries⟩ := finalise_spec h.address del
  refine ⟨hentries, rfl, fun a o ho ↦ ?_, haccess ▸ h.accessList_wf, ?_, fun a acc hacc ↦ ?_⟩
  · rw [hobj] at ho
    split at ho
    · obtain ⟨p, hp, rfl⟩ := map_eq_some_iff.1 ho
      rw [finalised_address, h.address a p hp]
    · exact h.address a o ho
  · -- an empty journal means that nothing was refunded
    obtain ⟨-, -, hsame⟩ := foldl_finaliseObject del s.journal.dirties.keys
      s.journal.dirties.nodupKeys h.address
    simp only [StateDB.finalise, StateDB.clearJournalAndRefund]
    split
    · next he =>
      have hcoh := h.coherent
      rw [← hsame.journal, List.isEmpty_iff.1 he] at hcoh
      exact hsame.refund.trans hcoh.2
    · rfl
  · rw [accounts_finalise h] at hacc
    obtain ⟨old, -, hacc⟩ := bind_eq_some_iff.1 hacc
    split at hacc
    · cases hacc
    · next hkept =>
      rw [Bool.or_eq_true, not_or, Bool.not_eq_true] at hkept
      exact some.inj hacc ▸ ⟨hkept.1, rfl⟩

theorem intermediateRoot (h : Refines db s t) {del : Bool} {root : Hash}
    (hs' : s.intermediateRoot db del = .ok (root, s')) : Resting db s' := by
  have hrest := Resting.finalise h del
  unfold StateDB.intermediateRoot at hs'
  dsimp only at hs'
  generalize s.finalise C del = s₁ at hrest hs'
  split at hs'
  · cases hs'
  · obtain ⟨-, rfl⟩ := hs'
    -- the loop keeps addresses, marks and clean storage
    have hloop := foldl_updateObjectRoot db s₁.stateObjectsPending s₁.stateObjects
      (fun o p ↦ p.address = o.address ∧ p.suicided = o.suicided ∧ p.deleted = o.deleted ∧
        (p = o ∨ p.dirtyStorage = ∅))
      (fun o ↦ ⟨rfl, rfl, rfl, .inl rfl⟩) (fun o p ⟨ha, hsu, hd, hst⟩ ↦ by
        obtain ⟨ha', hsu', hd', hst'⟩ := updateRoot_spec db p
        unfold rehash
        split
        · exact ⟨ha, hsu, hd, hst⟩
        · exact ⟨ha'.trans ha, hsu'.trans hsu, hd'.trans hd, .inr hst'⟩)
    refine ⟨hrest.entries, hrest.validRevisions, fun a p hp ↦ ?_, hrest.accessList_wf,
      hrest.atRest.refund, fun a acc hacc ↦ ?_⟩
    · obtain ⟨o, ho, ha, -⟩ := hloop a p hp
      exact ha.trans (hrest.address a o ho)
    · cases hp : s₁.stateObjectsPending.foldl (updateObjectRoot db) s₁.stateObjects a with
      | none => exact clean_of_stateObjects hp hacc
      | some p =>
        obtain ⟨o, ho, -, hsu, hd, hst⟩ := hloop a p hp
        rw [accounts_eq_of_object (object_of_stateObjects hp)] at hacc
        have hpres : ∀ acc', o.presence db = some acc' → acc'.Clean := fun acc' h' ↦
          hrest.atRest.clean a acc' (by simpa [world, object, ho] using h')
        rcases hst with rfl | hst
        · exact hpres acc hacc
        · refine clean_of_presence ?_ hst hacc
          -- the object was there before, and not marked
          have hdel : o.deleted = false := by
            cases hod : o.deleted with
            | false => rfl
            | true => simp [presence, hd, hod] at hacc
          rw [hsu]
          exact (hpres (o.account db) (by simp [presence, hdel])).1

end Resting

/-! ## Reachable states -/

/-- The state databases callers can produce. -/
inductive StateDB.Reachable (db : StateDatabase C) : StateDB → Prop
  | new {root : Hash} {trie : AccountTrie} (h : db.openTrie root = some trie) :
    Reachable db (StateDB.new trie)
  | method {s s' : StateDB} {o : StateOp} {r : o.Res} (hs : Reachable db s)
    (h : StateDB.handler db o s = .ok (r, s')) : Reachable db s'
  | prepare {s : StateDB} (hs : Reachable db s) (hj : s.journal.entries = [])
    (hr : s.validRevisions = []) (thash : Hash) (ti : Nat) : Reachable db (s.prepare thash ti)
  | finalise {s : StateDB} (hs : Reachable db s) (del : Bool) : Reachable db (s.finalise C del)
  | intermediateRoot {s s' : StateDB} {del : Bool} {root : Hash} (hs : Reachable db s)
    (h : s.intermediateRoot db del = .ok (root, s')) : Reachable db s'

/-- Every reachable state database implements a timeline. -/
theorem StateDB.Reachable.refines {s : StateDB} (h : s.Reachable db) : ∃ t, Refines db s t := by
  induction h with
  | new h => exact ⟨_, (Resting.new _).refines⟩
  | @method s s' o r hs hstep ih =>
    obtain ⟨t, ht⟩ := ih
    have hsim := handler_simulates db o trivial s t ht
    rw [hstep] at hsim
    cases htl : Timeline.handler C o t with
    | error e => rw [htl] at hsim; exact hsim.elim
    | ok p => rw [htl] at hsim; exact ⟨p.2, hsim.2⟩
  | @prepare s hs hj hr thash ti ih =>
    obtain ⟨t, ht⟩ := ih
    have hcoh := ht.coherent
    rw [hj] at hcoh
    have hrest : Resting db s := ⟨hj, hr, ht.address, ht.accessList_wf, hcoh.2,
      fun a acc ↦ hcoh.1.clean a acc nofun⟩
    exact ⟨_, (hrest.prepare thash ti).refines⟩
  | finalise hs del ih =>
    obtain ⟨t, ht⟩ := ih
    exact ⟨_, (Resting.finalise ht del).refines⟩
  | intermediateRoot hs h ih =>
    obtain ⟨t, ht⟩ := ih
    exact ⟨_, (Resting.intermediateRoot ht h).refines⟩

theorem StateDB.Reachable.of_run {α : Type} {x : Evm.StateM α} {s s' : StateDB} {a : α}
    (hs : s.Reachable db) (hrun : x.run (handler db) s = .ok (a, s')) : s'.Reachable db := by
  induction x generalizing s with
  | pure b =>
    cases hrun
    exact hs
  | fault e => cases hrun
  | call o k ih =>
    obtain ⟨p, ho, hrun⟩ := Prog.run_call_ok hrun
    exact ih p.1 (.method hs ho) hrun

theorem Sample.reachable_state (code : Bytes) :
    (Sample.state code).Reachable (Sample.database code) :=
  @.new _ (Sample.database code) 0 (Sample.trie code) rfl

end GoEntropy.State
