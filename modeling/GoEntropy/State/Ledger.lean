import GoEntropy.State.Rollback

/-!
# The money in a world

The sum of all balances of a world, and what each method does to it. Transfers keep it, fees move
it, and one thing inside an execution destroys money: a contract that destructs itself to its own
address credits itself with its balance and then loses all of it.

A *ledger* accounts for that. It observes the methods called during an execution, and counts what is
destroyed; where the execution goes back to a snapshot, so does the count. What executions conserve
is the sum of the balances and the count together.
-/

namespace GoEntropy.State

open Evm Interaction Function

/-- There are finitely many addresses. -/
noncomputable instance : Fintype Address :=
  Fintype.ofEquiv (Fin (2 ^ 160)) ⟨BitVec.ofFin, BitVec.toFin, fun _ ↦ rfl, fun _ ↦ rfl⟩

theorem sum_update {ι : Type} [Fintype ι] [DecidableEq ι] (f : ι → ℤ) (i : ι) (x : ℤ) :
    ∑ j, update f i x j = ∑ j, f j + (x - f i) := by
  have hi := Finset.mem_univ i
  rw [Finset.sum_update_of_mem hi, ← Finset.add_sum_erase _ f hi, Finset.sdiff_singleton_eq_erase]
  ring

/-! ## Balances -/

namespace World

variable (C : Crypto) (w : World) (a : Address)

/-- The sum of all balances. -/
noncomputable def total : ℤ := ∑ a, w.balance a

/-- No balance is negative. -/
def Solvent : Prop := ∀ a, 0 ≤ w.balance a

theorem balance_put (acc : Account) :
    (w.put a acc).balance = update w.balance a acc.balance := by
  funext b
  by_cases hb : b = a
  · subst hb
    simp [balance]
  · rw [update_of_ne hb, balance, put_of_ne hb, balance]

theorem balance_getOrNew : (w.getOrNew C a).balance = w.balance a := by
  rw [getOrNew, balance]
  cases w.accounts a <;> rfl

theorem balance_put_of_eq {acc : Account} (h : acc.balance = w.balance a) :
    (w.put a acc).balance = w.balance := by
  rw [balance_put, h, update_eq_self]

theorem balance_createAccount : (w.createAccount C a).balance = w.balance :=
  w.balance_put_of_eq a rfl

theorem balance_addPreimage (h : Hash) (p : Bytes) : (w.addPreimage h p).balance = w.balance := by
  unfold addPreimage
  split <;> rfl

theorem balance_addBalance (x : ℤ) :
    (w.addBalance C a x).balance = update w.balance a (w.balance a + x) := by
  rw [addBalance, balance_put, balance_getOrNew]

theorem balance_suicide : (w.suicide a).2.balance = update w.balance a 0 := by
  unfold suicide
  split
  · next h =>
    have h0 : w.balance a = 0 := by rw [balance, h]; rfl
    rw [← h0, update_eq_self]
  · rw [balance_put]

theorem total_of_balance_eq {w w' : World} (h : w'.balance = w.balance) : w'.total = w.total := by
  rw [total, h, total]

@[simp] theorem total_addBalance (x : ℤ) : (w.addBalance C a x).total = w.total + x := by
  rw [total, balance_addBalance, sum_update, total]
  ring

@[simp] theorem total_suicide : (w.suicide a).2.total = w.total - w.balance a := by
  rw [total, balance_suicide, sum_update, total]
  ring

variable {C w a}

theorem Solvent.addBalance (hw : w.Solvent) {x : ℤ} (hx : 0 ≤ w.balance a + x) :
    (w.addBalance C a x).Solvent := by
  intro b
  rw [balance_addBalance]
  by_cases hb : b = a
  · subst hb
    rwa [update_self]
  · rw [update_of_ne hb]
    exact hw b

theorem Solvent.suicide (hw : w.Solvent) : (w.suicide a).2.Solvent := by
  intro b
  rw [balance_suicide]
  by_cases hb : b = a
  · subst hb
    rw [update_self]
  · rw [update_of_ne hb]
    exact hw b

end World

/-! ## The ledger -/

/-- What has been destroyed, and had been at the open snapshots. -/
structure Ledger where
  burnt : ℤ
  saved : List (Nat × ℤ)

namespace Ledger

def new : Ledger := ⟨0, []⟩

def revert (g : Ledger) (id : Nat) : Ledger :=
  match g.saved.dropWhile (·.1 ≠ id) with
  | [] => g
  | (_, burnt) :: rest => ⟨burnt, rest⟩

/-- Observe a method. A self-destruction to the contract's own address is the one thing that
destroys; the tracer is told about each. -/
def observe : (o : StateOp) → o.Res → Ledger → Ledger
  | .snapshot, id, g => { g with saved := (id, g.burnt) :: g.saved }
  | .revertToSnapshot id, _, g => g.revert id
  | .captureEnter typ src dest balance, _, g =>
    if typ = .selfdestruct ∧ src = dest then { g with burnt := g.burnt + balance } else g
  | _, _, g => g

end Ledger

/-- A state with a ledger beside it. -/
abbrev audited {σ : Type} (h : Handler StateInterface Fault σ) :
    Handler StateInterface Fault (σ × Ledger) :=
  h.observed Ledger.observe

/-! ## Conservation -/

/-- The balances and the ledger change by the same amount, no balance becomes negative, and older
snapshots stay. -/
structure Conserves (p q : Timeline × Ledger) : Prop where
  total : q.1.now.total + q.2.burnt = p.1.now.total + p.2.burnt
  solvent : p.1.now.Solvent → q.1.now.Solvent
  timeline : p.1.Extends q.1
  ledger : ∃ newer, q.2.saved = newer ++ p.2.saved ∧ ∀ x ∈ newer, p.1.nextId ≤ x.1

namespace Conserves

variable {p q r : Timeline × Ledger}

theorem refl (p : Timeline × Ledger) : Conserves p p :=
  ⟨rfl, fun h ↦ h, .refl _, Newer.refl _ _⟩

theorem trans (hpq : Conserves p q) (hqr : Conserves q r) : Conserves p r :=
  ⟨hqr.total.trans hpq.total, fun h ↦ hqr.solvent (hpq.solvent h),
    hpq.timeline.trans hqr.timeline, Newer.trans hpq.ledger hpq.timeline.nextId_le hqr.ledger⟩

/-- A step that changes no balance and that the ledger takes no note of. -/
theorem of_balance_eq {t u : Timeline} {g : Ledger} (h : u.now.balance = t.now.balance)
    (hext : t.Extends u) : Conserves (t, g) (u, g) :=
  ⟨by rw [World.total_of_balance_eq h], fun hs b ↦ by rw [h]; exact hs b, hext, Newer.refl _ _⟩

theorem snapshot (t : Timeline) (g : Ledger) :
    Conserves (t, g) (t.snapshot.2, g.observe .snapshot t.snapshot.1) :=
  ⟨rfl, fun h ↦ h, t.extends_snapshot, Newer.cons _ _ _⟩

/-- **Going back.** From anywhere after a snapshot, going back to it conserves what there was before
it was taken. -/
theorem revert {t u : Timeline} {g k : Ledger}
    (h : Conserves (t.snapshot.2, g.observe .snapshot t.snapshot.1) (u, k)) :
    ∃ v, u.revertToSnapshot t.snapshot.1 = .ok v ∧
      Conserves (t, g) (v, k.revert t.snapshot.1) := by
  obtain ⟨v, hv, hnow, hext⟩ := Timeline.revertToSnapshot_of_extends h.timeline
  have hdrop : k.saved.dropWhile (·.1 ≠ t.nextId) = (t.nextId, g.burnt) :: g.saved :=
    Newer.dropWhile h.ledger
  have hrevert : k.revert t.snapshot.1 = ⟨g.burnt, g.saved⟩ := by
    unfold Ledger.revert
    rw [show t.snapshot.1 = t.nextId from rfl, hdrop]
  refine ⟨v, hv, ?_⟩
  rw [hrevert]
  exact of_balance_eq (by rw [hnow]) hext

end Conserves

/-! ## The methods -/

/-- Methods that change no balance and that the ledger takes no note of. -/
def KeepsMoney : StateOp → Prop
  | .subBalance _ _ => False
  | .addBalance _ _ => False
  | .suicide _ => False
  | .snapshot => False
  | .revertToSnapshot _ => False
  | .captureEnter typ _ _ _ => typ ≠ .selfdestruct
  | _ => True

theorem observe_of_keepsMoney {o : StateOp} (ho : KeepsMoney o) (r : o.Res) (g : Ledger) :
    g.observe o r = g := by
  cases o with
  | captureEnter typ src dest balance => exact if_neg fun h ↦ ho h.1
  | snapshot | revertToSnapshot => exact ho.elim
  | _ => rfl

theorem handler_keepsMoney {C : Crypto} {o : StateOp} (ho : KeepsMoney o) {t u : Timeline}
    {r : o.Res} (h : Timeline.handler C o t = .ok (r, u)) :
    u.now.balance = t.now.balance ∧ t.Extends u := by
  refine ⟨?_, Timeline.handler_extends o (by rintro id rfl; exact ho) h⟩
  cases o with
  | subBalance | addBalance | suicide | snapshot | revertToSnapshot => exact ho.elim
  | createAccount a => cases h; exact t.now.balance_createAccount C a
  | setNonce a | setCode a | setState a =>
    cases h
    exact t.now.balance_put_of_eq a (t.now.balance_getOrNew C a)
  | addPreimage k v => cases h; exact t.now.balance_addPreimage k v
  | subRefund g =>
    simp only [Timeline.handler] at h
    split at h
    · cases h
    · cases h
      rfl
  | slotInAccessList a k =>
    simp only [Timeline.handler] at h
    cases hc : t.now.accessList.contains a k with
    | error e => rw [hc] at h; cases h
    | ok b => rw [hc] at h; cases h; rfl
  | addSlotToAccessList a k =>
    simp only [Timeline.handler] at h
    cases hadd : t.now.accessList.addSlot a k with
    | error e => rw [hadd] at h; cases h
    | ok b => rw [hadd] at h; cases h; rfl
  | _ => cases h; rfl

end GoEntropy.State
