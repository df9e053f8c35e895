import GoEntropy.State.Copied

/-!
# How faithful a copy is

A copy has no journal. It answers like its original and has the same root, whether empty accounts are
deleted or not, exactly when the original has no transaction index, nothing that `Finalise` would delete, and
no object beside the marks that differs from the trie (`MarkedDB.Carried`, `copy_faithful_iff`). The first
fails after `Prepare`, the second in the middle of a transaction that destroys or touches an account, the
third when `CreateAccount` has replaced an object, for the journal does not count that as a change.

A copy always meets the condition, so that copies of it are as good as the copy itself.
-/

namespace GoEntropy.State

open Evm Interaction StateDB StateObject

variable {C : Crypto} {db : StateDatabase C}

/-! ## What the getters see -/

/-- The getters, over the world that a state database stands for. -/
def World.readout (C : Crypto) (w : World) : StateDB.Readout where
  exist a := w.read a false fun _ ↦ true
  empty a := w.read a true (·.isEmpty C)
  balance a := w.read a 0 (·.balance)
  nonce a := w.read a 0 (·.nonce)
  code a := w.read a [] (·.code)
  codeSize a := w.read a 0 (·.code.length)
  codeHash a := w.read a 0 (·.codeHash)
  state a k := w.read a 0 (·.storage k)
  committedState a k := w.read a 0 (·.committed k)
  hasSuicided a := w.read a false (·.suicided)
  txIndex := w.txIndex
  refund := w.refund
  logs := w.logs
  preimages := w.preimages
  addressInAccessList := w.accessList.containsAddress
  slotInAccessList := w.accessList.contains

/-- The getters tell any two accounts apart. -/
theorem World.accounts_eq_of_readout {w w' : World} (h : w'.readout C = w.readout C) :
    w'.accounts = w.accounts := by
  have field : ∀ {β : Type} (r : StateDB.Readout → β), r (w'.readout C) = r (w.readout C) := fun r ↦ congrArg r h
  funext a
  have hexist := field (·.exist a)
  have hbalance := field (·.balance a)
  have hnonce := field (·.nonce a)
  have hcodeHash := field (·.codeHash a)
  have hcode := field (·.code a)
  have hsuicided := field (·.hasSuicided a)
  have hstate := field (·.state a)
  have hcommitted := field (·.committedState a)
  simp only [readout, read] at hexist hbalance hnonce hcodeHash hcode hsuicided hstate hcommitted
  cases hw : w.accounts a with
  | none =>
    cases hw' : w'.accounts a with
    | none => rfl
    | some acc' => simp [hw, hw'] at hexist
  | some acc =>
    cases hw' : w'.accounts a with
    | none => simp [hw, hw'] at hexist
    | some acc' =>
      cases acc
      cases acc'
      simp_all only [Option.map_some, Option.getD_some]

namespace StateDB

variable {s s' : StateDB} {a : Address}

theorem getStateObject_fst (db : StateDatabase C) (s : StateDB) (a : Address) :
    (s.getStateObject db a).1 = (s.object db a).bind fun o ↦ if o.deleted then none else some o := by
  unfold getStateObject getDeletedStateObject object
  cases ho : s.stateObjects a with
  | some o => rfl
  | none =>
    cases ht : s.trie (db.addressKey a) with
    | none | some data => rfl

theorem accounts_of_stateObjects (h : s.stateObjects a = none) :
    (s.world db).accounts a = ((new s.trie).world db).accounts a := by
  show ((s.stateObjects a).or _).bind _ = _
  rw [h]
  rfl

theorem getter_eq {α : Type} (db : StateDatabase C) (s : StateDB) (a : Address) {absent : α} {f : StateObject → α}
    {g : Account → α} (h : ∀ o, f o = g (o.account db)) : s.getter db a absent f = (s.world db).read a absent g := by
  unfold getter
  rw [getStateObject_fst]
  show _ = (((s.object db a).bind (·.presence db)).map g).getD absent
  cases s.object db a with
  | none => rfl
  | some o => cases hd : o.deleted <;> simp [hd, h, presence]

theorem readout_eq (db : StateDatabase C) (s : StateDB) : s.readout db = (s.world db).readout C := by
  unfold readout
  congr 1
  all_goals funext a
  all_goals try exact getter_eq db s a fun _ ↦ rfl
  · exact getter_eq db s a fun o ↦ (o.getCode_spec db).1
  · exact getter_eq db s a fun o ↦ o.codeSize_eq db
  · exact funext fun k ↦ getter_eq db s a fun o ↦ (o.getState_spec db k).1
  · exact funext fun k ↦ getter_eq db s a fun o ↦ (o.getCommittedState_spec db k).1

end StateDB

/-! ## What is written to the account trie -/

namespace StateObject

variable (o : StateObject)

/-- What `IntermediateRoot` writes for a pending object. -/
def entry (db : StateDatabase C) : Option StateAccount :=
  if o.deleted then none else some (o.updateRoot db).data

/-- `Finalise` will delete the object. -/
def doomed (C : Crypto) (del : Bool) : Bool := o.suicided || (del && o.empty C)

theorem entry_finalised (db : StateDatabase C) (del : Bool) :
    (o.finalised C del).entry db = if o.doomed C del then none else o.entry db := by
  unfold finalised doomed
  split
  · simp [entry]
  · rfl

end StateObject

namespace StateDB

variable {s : StateDB}

theorem entry_rehash (db : StateDatabase C) (o : StateObject) :
    (if (rehash db o).deleted then none else some (rehash db o).data) = o.entry db := by
  unfold rehash entry
  cases hd : o.deleted with
  | true => simp [hd]
  | false =>
    have hkeep : (o.updateRoot db).deleted = false := (o.updateRoot_spec db).2.2.1.trans hd
    simp [hkeep]

theorem writeObject_apply (db : StateDatabase C) (objects : Address → Option StateObject) (trie : AccountTrie) (a : Address) (k : Hash)
    (h : (objects a).isSome) :
    writeObject db objects trie a k =
      if k = db.addressKey a then (objects a).bind fun o ↦ if o.deleted then none else some o.data else trie k := by
  obtain ⟨o, ho⟩ := Option.isSome_iff_exists.1 h
  unfold writeObject
  rw [ho]
  exact Function.update_apply ..

/-- The trie that `IntermediateRoot` writes, at a pending address and elsewhere. -/
theorem written_spec (hkey : Function.Injective db.addressKey) {del : Bool}
    (hsome : ∀ a ∈ (s.finalise C del).stateObjectsPending, ((s.finalise C del).stateObjects a).isSome)
    (hnodup : (s.finalise C del).stateObjectsPending.Nodup) (htrie : (s.finalise C del).trie = s.trie) :
    (∀ a ∈ (s.finalise C del).stateObjectsPending,
      s.written db del (db.addressKey a) = ((s.finalise C del).stateObjects a).bind (·.entry db)) ∧
      ∀ k, (∀ a ∈ (s.finalise C del).stateObjectsPending, k ≠ db.addressKey a) → s.written db del k = s.trie k := by
  have hobj := stateObjects_foldl_updateObjectRoot db hnodup (s.finalise C del).stateObjects
  unfold written
  rw [htrie]
  generalize s.finalise C del = s₁ at hsome hnodup hobj
  generalize s₁.stateObjectsPending.foldl (updateObjectRoot db) s₁.stateObjects = objects at hobj
  have hpend : ∀ a ∈ s₁.stateObjectsPending, objects a = (s₁.stateObjects a).map (rehash db) :=
    fun a ha ↦ (hobj a).trans (if_pos ha)
  obtain ⟨hin, hout⟩ := Container.foldl_write (fun (trie : AccountTrie) k ↦ trie k) db.addressKey
    (fun a ↦ (objects a).bind fun o ↦ if o.deleted then none else some o.data) hkey s₁.stateObjectsPending
    (fun trie a ha k ↦ writeObject_apply db objects trie a k
      (by rw [hpend a ha, Option.isSome_map]; exact hsome a ha)) s.trie
  refine ⟨fun a ha ↦ (hin a ha).trans ?_, hout⟩
  rw [hpend a ha]
  cases s₁.stateObjects a with
  | none => rfl
  | some o => exact entry_rehash db o

end StateDB

namespace MarkedDB

variable {m c : MarkedDB} {a : Address} {del : Bool}

theorem mem_pending_finalise (h : m.WF) :
    a ∈ (m.state.finalise C del).stateObjectsPending ↔ a ∈ m.state.stateObjectsPending ∨ m.state.hasDirty a := by
  rw [(finalise_spec h.kept.address del).2.2.1, mem_foldl_mark]
  simp [hasDirty]

theorem WF.written (hkey : Function.Injective db.addressKey) (h : m.WF) (del : Bool) :
    (∀ a, a ∈ m.state.stateObjectsPending ∨ m.state.hasDirty a → m.state.written db del (db.addressKey a) =
      (m.state.stateObjects a).bind fun o ↦
        if a ∈ m.state.journal.dirties.keys ∧ o.doomed C del then none else o.entry db) ∧
      ∀ k, (∀ a, a ∈ m.state.stateObjectsPending ∨ m.state.hasDirty a → k ≠ db.addressKey a) →
        m.state.written db del k = m.state.trie k := by
  obtain ⟨hobj, ⟨htrie, -⟩, -, -⟩ := finalise_spec h.kept.address del
  obtain ⟨hin, hout⟩ := written_spec hkey (h.pending_finalise del) (h.finalise del).nodup htrie
  refine ⟨fun a ha ↦ ?_, fun k hk ↦ hout k fun a ha ↦ hk a ((mem_pending_finalise h).1 ha)⟩
  rw [hin a ((mem_pending_finalise h).2 ha), hobj]
  by_cases hmem : a ∈ m.state.journal.dirties.keys
  · rw [if_pos hmem]
    cases m.state.stateObjects a with
    | none => rfl
    | some o => simp [entry_finalised, hmem]
  · simp [hmem]

namespace Copied

theorem field {α : Type} (h : Copied m c) (f : StateDB → α) : f c.frame = f m.blank.state := congrArg f h.rest

theorem journal (h : Copied m c) : c.state.journal = .new := h.field (·.journal)

theorem trie (h : Copied m c) : c.state.trie = m.state.trie := h.field (·.trie)

theorem hasDirty (h : Copied m c) (a : Address) : c.state.hasDirty a = false := by
  rw [StateDB.hasDirty, h.journal]
  rfl

end Copied

/-- The trie that the copy writes is that of its original unless the original deletes something. -/
theorem written_eq_iff (hkey : Function.Injective db.addressKey) (hm : m.WF) (h : Copied m c) (del : Bool) :
    c.state.written db del = m.state.written db del ↔
      ∀ a ∈ m.state.journal.dirties.keys, ∀ o, m.state.stateObjects a = some o → o.deleted = false →
        o.doomed C del = false := by
  obtain ⟨hin, hout⟩ := hm.written hkey del
  obtain ⟨hin', hout'⟩ := (h.wf hm).written hkey del
  have hpend : ∀ a, a ∈ c.state.stateObjectsPending ∨ c.state.hasDirty a ↔
      a ∈ m.state.stateObjectsPending ∨ m.state.hasDirty a := by
    intro a
    rw [h.pending, h.hasDirty]
    simp
  -- Below a pending address, the two write the same object, which the copy never deletes.
  have hobj : ∀ a, a ∈ m.state.stateObjectsPending ∨ m.state.hasDirty a →
      c.state.written db del (db.addressKey a) = (m.state.stateObjects a).bind (·.entry db) := by
    intro a ha
    have hmarked : m.Marked a := by
      rcases ha with ha | ha
      · exact .inr (.inl ha)
      · rw [hasDirty, Bool.and_eq_true, decide_eq_true_iff] at ha
        exact .inl ha.1
    have hkeys : a ∉ c.state.journal.dirties.keys := by
      rw [h.journal]
      exact List.not_mem_nil
    rw [hin' a ((hpend a).2 ha), h.objects, if_pos hmarked]
    simp [hkeys]
  constructor
  · intro heq a ha o ho hd
    have hdirty : m.state.hasDirty a = true := by simp [hasDirty, ha, ho]
    have hat := congrFun heq (db.addressKey a)
    rw [hobj a (.inr hdirty), hin a (.inr hdirty), ho] at hat
    cases hdoom : o.doomed C del with
    | false => rfl
    | true => simp [ha, hdoom, entry, hd] at hat
  · intro halive
    funext k
    by_cases hk : ∀ a, a ∈ m.state.stateObjectsPending ∨ m.state.hasDirty a → k ≠ db.addressKey a
    · rw [hout k hk, hout' k fun a ha ↦ hk a ((hpend a).1 ha), h.trie]
    · push Not at hk
      obtain ⟨a, ha, rfl⟩ := hk
      rw [hobj a ha, hin a ha]
      cases ho : m.state.stateObjects a with
      | none => rfl
      | some o =>
        simp only [Option.bind_some]
        split
        · next hdoom =>
          -- What is doomed was deleted before.
          cases hd : o.deleted with
          | true => simp [entry, hd]
          | false => simp [halive a hdoom.1 o ho hd] at hdoom
        · rfl

/-! ## The condition -/

/-- What the marks and the objects carry is all there is: no transaction is named, nothing that the journal
counts as dirty is to be deleted, and an object beside the marks reads as the trie does. -/
structure Carried (db : StateDatabase C) (m : MarkedDB) : Prop where
  txIndex : m.state.txIndex = 0
  alive : ∀ a ∈ m.state.journal.dirties.keys, ∀ o, m.state.stateObjects a = some o → o.deleted = false →
    o.suicided = false ∧ o.empty C = false
  unmarked : ∀ a, ¬ m.Marked a →
    (m.state.world db).accounts a = ((StateDB.new m.state.trie).world db).accounts a

theorem Copied.accounts (h : Copied m c) (a : Address) :
    (c.state.world db).accounts a =
      if m.Marked a then (m.state.world db).accounts a else ((StateDB.new m.state.trie).world db).accounts a := by
  show ((c.state.stateObjects a).or ((c.state.trie (db.addressKey a)).map (newObject a))).bind _ = _
  rw [h.objects, h.trie]
  split <;> rfl

/-- A copy answers as its original does, if nothing is to be lost. -/
theorem Copied.readout_eq_iff (h : Copied m c) :
    c.state.readout db = m.state.readout db ↔ m.state.txIndex = 0 ∧
      ∀ a, ¬ m.Marked a → (m.state.world db).accounts a = ((StateDB.new m.state.trie).world db).accounts a := by
  have htx : c.state.txIndex = 0 := h.field (·.txIndex)
  rw [StateDB.readout_eq, StateDB.readout_eq]
  constructor
  · intro heq
    refine ⟨(congrArg StateDB.Readout.txIndex heq).symm.trans htx, fun a ha ↦ ?_⟩
    rw [← congrFun (World.accounts_eq_of_readout heq) a, h.accounts, if_neg ha]
  · rintro ⟨htx', hunmarked⟩
    have haccounts : (c.state.world db).accounts = (m.state.world db).accounts := by
      funext a
      rw [h.accounts]
      split
      · rfl
      · next ha => exact (hunmarked a ha).symm
    have hindex : (c.state.world db).txIndex = m.state.txIndex := htx.trans htx'.symm
    have hrefund : (c.state.world db).refund = m.state.refund := h.field (·.refund)
    have hlogs : (c.state.world db).logs = m.state.logs := h.field (·.logs)
    have hpreimages : (c.state.world db).preimages = m.state.preimages := h.field (·.preimages)
    have haccess : (c.state.world db).accessList = m.state.accessList := h.field (·.accessList)
    simp only [World.readout, World.read, haccounts, hindex, hrefund, hlogs, hpreimages, haccess]
    rfl

/-- **A copy carries all there is of it**, so that it can be copied in turn. -/
theorem Copied.carried (h : Copied m c) : c.Carried db where
  txIndex := h.field (·.txIndex)
  alive a ha := by
    rw [h.journal] at ha
    cases ha
  unmarked a ha := by
    have hnone : c.state.stateObjects a = none := by
      rw [h.objects]
      split
      · next hm =>
        cases ho : m.state.stateObjects a with
        | none => rfl
        | some o =>
          refine absurd ?_ ha
          rcases hm with hm | hm | hm
          · exact .inr (.inl ((h.pending a).2 (.inr (by simp [StateDB.hasDirty, hm, ho]))))
          · exact .inr (.inl ((h.pending a).2 (.inl hm)))
          · exact .inr (.inr ((h.dirty a).2 (.inl hm)))
      · rfl
    exact StateDB.accounts_of_stateObjects hnone

/-! ## Faithful copies -/

/-- The second state database answers all getters and `IntermediateRoot` as the first one does. -/
structure SameState (db : StateDatabase C) (m c : MarkedDB) : Prop where
  readout : c.state.readout db = m.state.readout db
  root : ∀ del, (c.intermediateRoot db del).map Prod.fst = (m.intermediateRoot db del).map Prod.fst

theorem map_intermediateRoot (h : m.WF) (del : Bool) :
    (m.intermediateRoot db del).map Prod.fst = .ok (db.accountRoot (m.state.written db del)) := by
  rw [intermediateRoot, intermediateRoot_eq (h.pending_finalise del)]
  rfl

theorem Carried.written_eq (hkey : Function.Injective db.addressKey) (hm : m.WF) (hcar : m.Carried db)
    (h : Copied m c) (del : Bool) : c.state.written db del = m.state.written db del :=
  (written_eq_iff hkey hm h del).2 fun a ha o ho hd ↦ by
    obtain ⟨hs, he⟩ := hcar.alive a ha o ho hd
    simp [doomed, hs, he]

theorem Carried.sameState (hkey : Function.Injective db.addressKey) (hm : m.WF) (hcar : m.Carried db)
    (h : Copied m c) : SameState db m c := by
  refine ⟨h.readout_eq_iff.2 ⟨hcar.txIndex, hcar.unmarked⟩, fun del ↦ ?_⟩
  rw [map_intermediateRoot (h.wf hm), map_intermediateRoot hm, hcar.written_eq hkey hm h]

/-- The `n`-th copy: a copy of a copy, and so on. -/
def copies : Nat → MarkedDB → Except Fault MarkedDB
  | 0, m => .ok m
  | n + 1, m => m.copy >>= copies n

theorem copies_one : m.copies 1 = m.copy := by
  unfold copies
  cases m.copy <;> rfl

theorem Carried.copies (hkey : Function.Injective db.addressKey) (hm : m.WF) (hcar : m.Carried db) (n : Nat) :
    ∃ c, m.copies n = .ok c ∧ SameState db m c := by
  induction n generalizing m with
  | zero => exact ⟨m, rfl, rfl, fun _ ↦ rfl⟩
  | succ n ih =>
    obtain ⟨c, hc, hcopied⟩ := copy_spec hm
    obtain ⟨e, he, hsame⟩ := ih (hcopied.wf hm) hcopied.carried
    have hfirst := hcar.sameState hkey hm hcopied
    refine ⟨e, ?_, hsame.readout.trans hfirst.readout, fun del ↦ (hsame.root del).trans (hfirst.root del)⟩
    rw [MarkedDB.copies, hc]
    exact he

/-! ### Using both -/

/-- What callers do with a state database. -/
inductive Action where
  | method (o : StateOp)
  | prepare (thash : Hash) (ti : Nat)
  | finalise (deleteEmptyObjects : Bool)
  | intermediateRoot (deleteEmptyObjects : Bool)
  | commit (deleteEmptyObjects : Bool)

def Action.perform (db : StateDatabase C) (m : MarkedDB) : Action → Except Fault MarkedDB
  | method o => (StateDB.handler db o m.state).map fun p ↦ { m with state := p.2 }
  | prepare thash ti => .ok { m with state := m.state.prepare thash ti }
  | finalise del => .ok (m.finalise C del)
  | intermediateRoot del => (m.intermediateRoot db del).map Prod.snd
  | commit del => (m.commit db del).map Prod.snd

def perform (db : StateDatabase C) (m : MarkedDB) (acts : List Action) : Except Fault MarkedDB :=
  acts.foldlM (fun m x ↦ x.perform db m) m

/-- Use two state databases in any order: `inl` is an action on the first, `inr` one on the second. -/
def interleave (db : StateDatabase C) : List (Action ⊕ Action) → MarkedDB × MarkedDB → Except Fault (MarkedDB × MarkedDB)
  | [], p => .ok p
  | .inl x :: acts, (m, c) => do interleave db acts (← x.perform db m, c)
  | .inr x :: acts, (m, c) => do interleave db acts (m, ← x.perform db c)

/-- What is done with one of the two does not reach the other. -/
theorem interleave_spec {m' c' : MarkedDB} {acts : List (Action ⊕ Action)}
    (h : interleave db acts (m, c) = .ok (m', c')) :
    m.perform db (acts.filterMap Sum.getLeft?) = .ok m' ∧ c.perform db (acts.filterMap Sum.getRight?) = .ok c' := by
  induction acts generalizing m c with
  | nil =>
    cases h
    exact ⟨rfl, rfl⟩
  | cons x acts ih =>
    cases x with
    | inl x =>
      obtain ⟨m₁, hx, h⟩ := Container.bind_eq_ok.1 h
      obtain ⟨hl, hr⟩ := ih h
      exact ⟨Container.bind_eq_ok.2 ⟨m₁, hx, hl⟩, hr⟩
    | inr x =>
      obtain ⟨c₁, hx, h⟩ := Container.bind_eq_ok.1 h
      obtain ⟨hl, hr⟩ := ih h
      exact ⟨hl, Container.bind_eq_ok.2 ⟨c₁, hx, hr⟩⟩

/-- Copying is faithful: every copy, and copy of a copy, answers as the original does, and neither sees what
is done with the other. -/
structure Faithful (db : StateDatabase C) (m : MarkedDB) : Prop where
  same : ∀ n, ∃ c, m.copies n = .ok c ∧ SameState db m c
  independent : ∀ n c, m.copies n = .ok c → ∀ acts m' c', interleave db acts (m, c) = .ok (m', c') →
    m.perform db (acts.filterMap Sum.getLeft?) = .ok m' ∧ c.perform db (acts.filterMap Sum.getRight?) = .ok c'

/-- **When copying is faithful.** The hashes of addresses are taken to be distinct, no storage trie hashes to
zero, and the account tries of the two do not collide. -/
theorem copy_faithful_iff (hkey : Function.Injective db.addressKey) (hroot : ∀ tr, db.storageRoot tr ≠ 0)
    (hm : m.Reachable db)
    (hcollide : ∀ c, m.copy = .ok c → ∀ del, db.accountRoot (c.state.written db del) =
      db.accountRoot (m.state.written db del) → c.state.written db del = m.state.written db del) :
    m.Faithful db ↔ m.Carried db := by
  have hwf := hm.wf hroot
  constructor
  · intro h
    obtain ⟨c, hc, hcopied⟩ := copy_spec hwf
    obtain ⟨c', hc', hsame⟩ := h.same 1
    obtain rfl := Except.ok.inj (hc.symm.trans (copies_one.symm.trans hc'))
    obtain ⟨htx, hunmarked⟩ := hcopied.readout_eq_iff.1 hsame.readout
    refine ⟨htx, fun a ha o ho hd ↦ ?_, hunmarked⟩
    -- Empty accounts go with the one flag, destroyed ones with any.
    have hroots := hsame.root true
    rw [map_intermediateRoot (hcopied.wf hwf), map_intermediateRoot hwf] at hroots
    have hwritten := hcollide c hc true (Except.ok.inj hroots)
    have hdoom := (written_eq_iff hkey hwf hcopied true).1 hwritten a ha o ho hd
    simpa [StateObject.doomed] using hdoom
  · intro hcar
    exact ⟨hcar.copies hkey hwf, fun _ _ _ _ _ _ ↦ interleave_spec⟩

end MarkedDB

/-! ## Two copies in the middle of a transaction -/

namespace Sample

/-- A database whose account root tells whether the account at `0x10` is there. -/
def ledger : StateDatabase crypto :=
  { database [] with accountRoot := fun trie ↦ if (trie 0x10).isSome then 1 else 0 }

theorem ledger_addressKey_injective : Function.Injective ledger.addressKey := by
  have hval : ∀ a : Address, (ledger.addressKey a).toNat = a.toNat := by
    intro a
    show (BitVec.ofNat 256 (setBytes (beBytes 20 a.toNat))).toNat = a.toNat
    have ha : a.toNat < 256 ^ 20 := lt_of_lt_of_eq a.isLt (by decide)
    rw [setBytes_beBytes, Nat.mod_eq_of_lt ha, BitVec.toNat_ofNat, Nat.mod_eq_of_lt (by omega)]
  intro a b h
  exact BitVec.eq_of_toNat_eq (by rw [← hval a, ← hval b, h])

/-- The account at `0x10` is destroyed. -/
def destroyed : MarkedDB := ⟨((state []).suicide ledger 0x10).2, []⟩

/-- The account at `0x10` is given something. -/
def funded : MarkedDB := ⟨(state []).addBalance ledger 0x10 5, []⟩

theorem reachable_new : (MarkedDB.new (trie [])).Reachable ledger :=
  @.new _ ledger 0 (trie []) rfl

theorem destroyed_reachable : destroyed.Reachable ledger :=
  reachable_new.method (o := .suicide 0x10) rfl

theorem funded_reachable : funded.Reachable ledger :=
  reachable_new.method (o := .addBalance 0x10 5) (r := ()) rfl

end Sample

section

open Sample

/-- A transaction that only moved money may be copied. -/
theorem MarkedDB.copy_faithful_funded : funded.Reachable ledger ∧ funded.Faithful ledger := by
  have hroot : ∀ tr, ledger.storageRoot tr ≠ 0 := fun _ ↦ emptyRoot_ne_zero
  have hkeys : funded.state.journal.dirties.keys = [0x10] := by rfl
  have halive : ∀ o, funded.state.stateObjects 0x10 = some o → o.suicided = false ∧ o.empty crypto = false := by
    intro o ho
    obtain rfl := Option.some.inj ho
    decide
  have hcar : funded.Carried ledger := by
    refine ⟨rfl, fun a ha o ho _ ↦ ?_, fun a ha ↦ ?_⟩
    · rw [hkeys, List.mem_singleton] at ha
      exact halive o (ha ▸ ho)
    · -- No other account was touched.
      have hne : a ≠ 0x10 := fun heq ↦ ha (.inl (by rw [heq]; exact List.mem_singleton_self _))
      refine StateDB.accounts_of_stateObjects ?_
      exact (Function.update_of_ne hne ..).trans (Function.update_of_ne hne ..)
  have hwf := funded_reachable.wf hroot
  refine ⟨funded_reachable, (copy_faithful_iff ledger_addressKey_injective hroot funded_reachable ?_).2 hcar⟩
  intro c hc del _
  obtain ⟨c', hc', hcopied⟩ := copy_spec hwf
  obtain rfl := Except.ok.inj (hc.symm.trans hc')
  exact hcar.written_eq ledger_addressKey_injective hwf hcopied del

/-- The copy of a state in which an account is being destroyed brings the account back. -/
theorem MarkedDB.copy_revives_destroyed :
    destroyed.Reachable ledger ∧ ¬ destroyed.Faithful ledger ∧
      (destroyed.intermediateRoot ledger false).map Prod.fst = .ok 0 ∧
      (destroyed.copy.bind fun c ↦ (c.intermediateRoot ledger false).map Prod.fst) = .ok 1 := by
  have hroot : (destroyed.intermediateRoot ledger false).map Prod.fst = .ok 0 := by rfl
  have hcopy : (destroyed.copy.bind fun c ↦ (c.intermediateRoot ledger false).map Prod.fst) = .ok 1 := by rfl
  refine ⟨destroyed_reachable, fun h ↦ ?_, hroot, hcopy⟩
  obtain ⟨c, hc, hsame⟩ := h.same 1
  rw [copies_one.symm.trans hc] at hcopy
  have hzero := (hcopy.symm.trans (hsame.root false)).trans hroot
  exact absurd (Except.ok.inj hzero) (by decide)

end

end GoEntropy.State
