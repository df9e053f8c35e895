import GoEntropy.State.Copy
import GoEntropy.State.Reachable

/-!
# The marks of a state database

Every address that is marked as pending or dirty has an object, so that `IntermediateRoot` and `Copy` never
follow a nil pointer. An object is only ever removed when its creation is reverted, and an address at which
an object is created has none before, so it is not marked (`JournalEntry.Fits`).
-/

namespace GoEntropy.State

open Evm Interaction Function

variable {C : Crypto} {db : StateDatabase C} {P : Address → Prop} {l : List Address} {s s' : StateDB}
  {a : Address} {o : StateObject}

/-- What a journal entry must not undo: marked addresses keep their objects, and roots stay set. -/
def JournalEntry.Fits (P : Address → Prop) : JournalEntry → Prop
  | createObjectChange a => ¬ P a
  | resetObjectChange prev => prev.data.root ≠ 0
  | _ => True

/-- The objects stand under their addresses and have roots, the marked ones are there, and no undo can
change that. -/
structure Kept (P : Address → Prop) (l : List Address) (s : StateDB) : Prop where
  address : ∀ a o, s.stateObjects a = some o → o.address = a
  root : ∀ a o, s.stateObjects a = some o → o.data.root ≠ 0
  marked : ∀ a, P a → (s.stateObjects a).isSome
  fits : ∀ e ∈ s.journal.entries, e.Fits P
  pending : s.stateObjectsPending = l

@[simp] theorem stateObjects_setStateObject (s : StateDB) (o : StateObject) :
    (s.setStateObject o).stateObjects = update s.stateObjects o.address (some o) := rfl

theorem emptyRoot_ne_zero : emptyRoot ≠ 0 := by decide

theorem newObject_root_ne_zero (a : Address) (data : StateAccount) : (newObject a data).data.root ≠ 0 := by
  show (if data.root = 0 then emptyRoot else data.root) ≠ 0
  split
  · exact emptyRoot_ne_zero
  · assumption

namespace StateObject

variable (db : StateDatabase C) (o : StateObject)

@[simp] theorem getCode_data : (o.getCode db).2.data = o.data := by
  unfold getCode
  split_ifs <;> rfl

@[simp] theorem getCommittedState_data (key : Hash) : (o.getCommittedState db key).2.data = o.data := by
  unfold getCommittedState
  split
  · rfl
  · split <;> rfl

@[simp] theorem getState_data (key : Hash) : (o.getState db key).2.data = o.data := by
  unfold getState
  split
  · rfl
  · exact getCommittedState_data db o key

end StateObject

namespace Kept

variable (h : Kept P l s)

include h

theorem setStateObject (ho : o.data.root ≠ 0) : Kept P l (s.setStateObject o) := by
  have hobj : ∀ b o', (s.setStateObject o).stateObjects b = some o' → o'.address = b ∧ o'.data.root ≠ 0 := by
    intro b o' hb
    rw [stateObjects_setStateObject, update_apply] at hb
    split at hb
    · next heq => exact Option.some.inj hb ▸ ⟨heq.symm, ho⟩
    · exact ⟨h.address b o' hb, h.root b o' hb⟩
  refine ⟨fun b o' hb ↦ (hobj b o' hb).1, fun b o' hb ↦ (hobj b o' hb).2, fun b hb ↦ ?_, h.fits, h.pending⟩
  rw [stateObjects_setStateObject, update_apply]
  split
  · rfl
  · exact h.marked b hb

theorem remove (ha : ¬ P a) :
    Kept P l { s with stateObjects := update s.stateObjects a none } := by
  have hobj : ∀ b o, update s.stateObjects a none b = some o → s.stateObjects b = some o := by
    intro b o hb
    rw [update_apply] at hb
    split at hb
    · cases hb
    · exact hb
  refine ⟨fun b o hb ↦ h.address b o (hobj b o hb), fun b o hb ↦ h.root b o (hobj b o hb), fun b hb ↦ ?_,
    h.fits, h.pending⟩
  have hne : b ≠ a := fun heq ↦ ha (heq ▸ hb)
  show (update s.stateObjects a none b).isSome
  rw [update_of_ne hne]
  exact h.marked b hb

theorem of_eq (hobj : s'.stateObjects = s.stateObjects) (hj : s'.journal.entries = s.journal.entries)
    (hp : s'.stateObjectsPending = s.stateObjectsPending) : Kept P l s' where
  address := hobj ▸ h.address
  root := hobj ▸ h.root
  marked := hobj ▸ h.marked
  fits := hj ▸ h.fits
  pending := hp.trans h.pending

theorem journaled {e : JournalEntry} (he : e.Fits P) : Kept P l (s.journaled e) where
  address := h.address
  root := h.root
  marked := h.marked
  fits := by
    rw [StateDB.journaled, Journal.entries_append]
    exact List.forall_mem_cons.2 ⟨he, h.fits⟩
  pending := h.pending

variable (db) (a)

theorem getDeletedStateObject : Kept P l (s.getDeletedStateObject db a).2 ∧
      (∀ o, (s.getDeletedStateObject db a).1 = some o → o.data.root ≠ 0) ∧
      ((s.getDeletedStateObject db a).1 = none → ¬ P a) := by
  unfold StateDB.getDeletedStateObject
  cases hobj : s.stateObjects a with
  | some o => exact ⟨h, fun o' ho' ↦ Option.some.inj ho' ▸ h.root a o hobj, nofun⟩
  | none =>
    cases s.trie (db.addressKey a) with
    | none => exact ⟨h, nofun, fun _ ↦ by simpa [hobj] using h.marked a⟩
    | some data =>
      exact ⟨h.setStateObject (newObject_root_ne_zero a data),
        fun o ho ↦ Option.some.inj ho ▸ newObject_root_ne_zero a data, nofun⟩

theorem getStateObject :
    Kept P l (s.getStateObject db a).2 ∧ ∀ o, (s.getStateObject db a).1 = some o → o.data.root ≠ 0 := by
  obtain ⟨hk, hroot, -⟩ := h.getDeletedStateObject db a
  unfold StateDB.getStateObject
  generalize s.getDeletedStateObject db a = r at hk hroot
  obtain ⟨_ | o, s'⟩ := r
  · exact ⟨hk, nofun⟩
  · refine ⟨hk, fun o' ho' ↦ ?_⟩
    dsimp only at ho'
    split at ho'
    · cases ho'
    · exact hroot o' ho'

theorem createObject :
    Kept P l (s.createObject db a).2.2 ∧ (s.createObject db a).1.data.root ≠ 0 := by
  obtain ⟨hk, hroot, hnone⟩ := h.getDeletedStateObject db a
  unfold StateDB.createObject
  generalize s.getDeletedStateObject db a = r at hk hroot hnone
  have hnew := newObject_root_ne_zero a ⟨0, 0, 0, C.emptyCodeHash⟩
  obtain ⟨_ | prev, s'⟩ := r
  · exact ⟨(hk.journaled (e := .createObjectChange a) (hnone rfl)).setStateObject hnew, hnew⟩
  · exact ⟨(hk.journaled (e := .resetObjectChange prev) (hroot prev rfl)).setStateObject hnew, hnew⟩

theorem getOrNewStateObject :
    Kept P l (s.getOrNewStateObject db a).2 ∧ (s.getOrNewStateObject db a).1.data.root ≠ 0 := by
  obtain ⟨hk, hroot⟩ := h.getStateObject db a
  unfold StateDB.getOrNewStateObject
  generalize s.getStateObject db a = r at hk hroot
  obtain ⟨_ | o, s'⟩ := r
  · exact hk.createObject db a
  · exact ⟨hk, hroot o rfl⟩

/-! ### The methods of the interface -/

theorem createAccount : Kept P l (s.createAccount db a) := by
  obtain ⟨hk, hroot⟩ := h.createObject db a
  unfold StateDB.createAccount
  generalize s.createObject db a = r at hk hroot
  obtain ⟨o, _ | prev, s'⟩ := r
  · exact hk
  · exact hk.setStateObject hroot

theorem touch : Kept P l (s.touch a) := by
  have hk : Kept P l (s.journaled (.touchChange a)) := h.journaled trivial
  unfold StateDB.touch
  split
  · exact hk.of_eq rfl rfl rfl
  · exact hk

theorem setBalance (ho : o.data.root ≠ 0) (x : ℤ) : Kept P l (s.setBalance o x) :=
  (h.journaled (e := .balanceChange o.address o.data.balance) trivial).setStateObject ho

theorem addBalance (x : ℤ) : Kept P l (s.addBalance db a x) := by
  obtain ⟨hk, hroot⟩ := h.getOrNewStateObject db a
  unfold StateDB.addBalance
  dsimp only
  split_ifs
  · exact hk.touch a
  · exact hk
  · exact hk.setBalance hroot _

theorem subBalance (x : ℤ) : Kept P l (s.subBalance db a x) := by
  obtain ⟨hk, hroot⟩ := h.getOrNewStateObject db a
  unfold StateDB.subBalance
  split_ifs
  · exact hk
  · exact hk.setBalance hroot _

theorem setNonce (n : UInt64) : Kept P l (s.setNonce db a n) := by
  obtain ⟨hk, hroot⟩ := h.getOrNewStateObject db a
  exact (hk.journaled (e := .nonceChange a _) trivial).setStateObject hroot

theorem setCode (code : Bytes) : Kept P l (s.setCode db a code) := by
  obtain ⟨hk, hroot⟩ := h.getOrNewStateObject db a
  refine (hk.journaled (e := .codeChange a _ _) trivial).setStateObject ?_
  show (StateObject.getCode db _).2.data.root ≠ 0
  rwa [StateObject.getCode_data]

theorem setState (key value : Hash) : Kept P l (s.setState db a key value) := by
  obtain ⟨hk, hroot⟩ := h.getOrNewStateObject db a
  have hroot' : (StateObject.getState db (s.getOrNewStateObject db a).1 key).2.data.root ≠ 0 := by
    rwa [StateObject.getState_data]
  unfold StateDB.setState
  dsimp only
  split_ifs
  · exact hk.setStateObject hroot'
  · exact (hk.journaled (e := .storageChange a key _) trivial).setStateObject hroot'

theorem suicide : Kept P l (s.suicide db a).2 := by
  obtain ⟨hk, hroot⟩ := h.getStateObject db a
  unfold StateDB.suicide
  generalize s.getStateObject db a = r at hk hroot
  obtain ⟨_ | o, s'⟩ := r
  · exact hk
  · exact (hk.journaled (e := .suicideChange a _ _) trivial).setStateObject (hroot o rfl)

variable {db} {a}

theorem subRefund {gas : Nat} (hr : s.subRefund gas = .ok s') : Kept P l s' := by
  unfold StateDB.subRefund at hr
  split at hr
  · cases hr
  · cases hr
    exact (h.journaled (e := .refundChange s.refund) trivial).of_eq rfl rfl rfl

theorem addPreimage (hash : Hash) (p : Bytes) : Kept P l (s.addPreimage hash p) := by
  unfold StateDB.addPreimage
  split
  · exact h
  · exact (h.journaled (e := .addPreimageChange hash) trivial).of_eq rfl rfl rfl

theorem addAddressToAccessList (a : Address) : Kept P l (s.addAddressToAccessList a) := by
  unfold StateDB.addAddressToAccessList
  dsimp only
  split
  · exact (h.journaled (e := .accessListAddAccountChange a) trivial).of_eq rfl rfl rfl
  · exact h

theorem addSlotToAccessList {slot : Hash} (hr : s.addSlotToAccessList a slot = .ok s') :
    Kept P l s' := by
  unfold StateDB.addSlotToAccessList at hr
  split at hr
  · cases hr
  · next addrMod slotMod accessList hadd =>
    cases hr
    have hk : Kept P l { s with accessList } := h.of_eq rfl rfl rfl
    have hk' : Kept P l (if addrMod then ({ s with accessList } : StateDB).journaled
        (.accessListAddAccountChange a) else { s with accessList }) := by
      split
      · exact hk.journaled trivial
      · exact hk
    split
    · exact hk'.journaled trivial
    · exact hk'

theorem readObject {α : Type} {absent r : α} {f : StateObject → α × StateObject}
    (hr : s.readObject db a absent f = .ok (r, s')) (hf : ∀ o, (f o).2.data = o.data) : Kept P l s' := by
  obtain ⟨hk, hroot⟩ := h.getStateObject db a
  unfold StateDB.readObject at hr
  generalize s.getStateObject db a = q at hk hroot hr
  obtain ⟨_ | o, s₁⟩ := q
  · cases hr
    exact hk
  · cases hr
    exact hk.setStateObject (hf o ▸ hroot o rfl)

theorem modifyObject {f : StateObject → StateObject} (hr : s.modifyObject db a f = .ok s')
    (hf : ∀ o, (f o).data.root = o.data.root) : Kept P l s' := by
  obtain ⟨hk, hroot⟩ := h.getStateObject db a
  unfold StateDB.modifyObject at hr
  generalize s.getStateObject db a = q at hk hroot hr
  obtain ⟨_ | o, s₁⟩ := q
  · cases hr
  · cases hr
    exact hk.setStateObject (hf o ▸ hroot o rfl)

theorem revertEntry {e : JournalEntry} (he : e.Fits P) (hr : s.revertEntry db e = .ok s') :
    Kept P l s' := by
  cases e with
  | createObjectChange b =>
    cases hr
    exact h.remove he
  | resetObjectChange prev =>
    cases hr
    exact h.setStateObject he
  | suicideChange b prev prevbalance =>
    obtain ⟨hk, hroot⟩ := h.getStateObject db b
    unfold StateDB.revertEntry at hr
    dsimp only at hr
    generalize s.getStateObject db b = q at hk hroot hr
    obtain ⟨_ | o, s₁⟩ := q
    · cases hr
      exact hk
    · cases hr
      exact hk.setStateObject (hroot o rfl)
  | balanceChange b prev | nonceChange b prev | storageChange b key prevalue
  | codeChange b prevcode prevhash => exact h.modifyObject hr fun _ ↦ rfl
  | accessListAddSlotChange b slot =>
    unfold StateDB.revertEntry at hr
    dsimp only at hr
    split at hr
    · cases hr
    · cases hr
      exact h.of_eq rfl rfl rfl
  | _ =>
    cases hr
    exact h.of_eq rfl rfl rfl

theorem undo {n : Nat} (hr : StateDB.undo db n s = .ok s') : Kept P l s' := by
  induction n generalizing s with
  | zero =>
    cases hr
    exact h
  | succ n ih =>
    rw [StateDB.undo] at hr
    cases hes : s.journal.entries with
    | nil =>
      rw [hes] at hr
      cases hr
      exact h
    | cons e rest =>
      have hfits := List.forall_mem_cons.1 (hes ▸ h.fits)
      simp only [hes, StateDB.popEntry] at hr
      cases hrev : s.revertEntry db e with
      | error f => simp [hrev] at hr
      | ok s₁ =>
        rw [hrev] at hr
        have hk := h.revertEntry hfits.1 hrev
        have hk' : Kept P l (s₁.dropEntry e rest) := ⟨hk.address, hk.root, hk.marked, hfits.2, hk.pending⟩
        exact ih hk' hr

theorem revertToSnapshot {id : Nat} (hr : s.revertToSnapshot db id = .ok s') : Kept P l s' := by
  unfold StateDB.revertToSnapshot at hr
  dsimp only at hr
  split at hr
  · cases hr
  · split at hr
    · cases hr
    · split at hr
      · cases hr
      · next hu =>
        cases hr
        exact (h.undo hu).of_eq rfl rfl rfl

/-- **Every method keeps the marked objects.** -/
theorem handler {op : StateOp} {r : op.Res} (hr : StateDB.handler db op s = .ok (r, s')) :
    Kept P l s' := by
  cases op with
  | createAccount a => cases hr; exact h.createAccount db a
  | subBalance a x => cases hr; exact h.subBalance db a x
  | addBalance a x => cases hr; exact h.addBalance db a x
  | setNonce a n => cases hr; exact h.setNonce db a n
  | setCode a c => cases hr; exact h.setCode db a c
  | setState a k v => cases hr; exact h.setState db a k v
  | suicide a =>
    have hk := h.suicide db a
    rwa [Except.ok.inj hr] at hk
  | getBalance a | getNonce a | getCodeHash a | getCodeSize a | hasSuicided a | exist a | empty a =>
    simp only [StateDB.handler] at hr
    exact h.readObject hr fun _ ↦ rfl
  | getCode a => exact h.readObject hr fun o ↦ o.getCode_data db
  | getCommittedState a k => exact h.readObject hr fun o ↦ o.getCommittedState_data db k
  | getState a k => exact h.readObject hr fun o ↦ o.getState_data db k
  | addRefund g =>
    cases hr
    exact (h.journaled (e := .refundChange s.refund) trivial).of_eq rfl rfl rfl
  | subRefund g =>
    obtain ⟨s₁, hs₁, ⟨⟩⟩ := Container.map_eq_ok.1 hr
    exact h.subRefund hs₁
  | getRefund | addressInAccessList a | captureStart src dest create value
  | captureEnter typ src dest value | captureState op addr => cases hr; exact h
  | slotInAccessList a k =>
    obtain ⟨r, -, ⟨⟩⟩ := Container.map_eq_ok.1 hr
    exact h
  | addAddressToAccessList a => cases hr; exact h.addAddressToAccessList a
  | addSlotToAccessList a k =>
    obtain ⟨s₁, hs₁, ⟨⟩⟩ := Container.map_eq_ok.1 hr
    exact h.addSlotToAccessList hs₁
  | revertToSnapshot id =>
    obtain ⟨s₁, hs₁, ⟨⟩⟩ := Container.map_eq_ok.1 hr
    exact h.revertToSnapshot hs₁
  | snapshot => cases hr; exact h.of_eq rfl rfl rfl
  | addLog log => cases hr; exact (h.journaled (e := .addLogChange s.thash) trivial).of_eq rfl rfl rfl
  | addPreimage hash p => cases hr; exact h.addPreimage hash p

end Kept

/-! ## Marking -/

theorem mem_foldl_mark (objects : Address → Option StateObject) (l marks : List Address) :
    a ∈ l.foldl (mark objects) marks ↔ a ∈ marks ∨ a ∈ l ∧ (objects a).isSome :=
  Container.mem_foldl_insert (fun marks ↦ marks) (fun a ↦ (objects a).isSome) (fun _ _ ↦ rfl) l marks a

theorem nodup_foldl_mark (objects : Address → Option StateObject) (l : List Address) {marks : List Address}
    (h : marks.Nodup) : (l.foldl (mark objects) marks).Nodup := by
  refine Container.foldl_keeps List.Nodup (fun marks b hm ↦ ?_) l h
  rw [mark]
  split
  · exact hm.insert
  · exact hm

end GoEntropy.State
