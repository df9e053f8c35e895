import GoEntropy.State.World

/-!
# Storage, now and at the start of the transaction

An account shows its storage as it is and as the transaction found it. Most methods leave both
(`SameStorage`); creating an account empties both, and a write changes one slot of the first.

A slot is *dirty* if the two differ, and *cleared* if the transaction found a value there and there is
none now. The gas functions of `SSTORE` grant a refund for each cleared slot and take it back when the
slot is written again, so they need the number of cleared slots; a write changes it by one at most
(`ncard_cleared_setState`).
-/

namespace GoEntropy.State

open Evm

namespace World

/-- The storage at an address, and the storage the transaction started from. -/
structure SameStorage (C : Crypto) (w w' : World) : Prop where
  storage : ∀ a, (w'.getOrNew C a).storage = (w.getOrNew C a).storage
  committed : ∀ a, (w'.getOrNew C a).committed = (w.getOrNew C a).committed

variable {C : Crypto} {w w' w'' : World}

theorem SameStorage.refl (w : World) : SameStorage C w w := ⟨fun _ ↦ rfl, fun _ ↦ rfl⟩

theorem SameStorage.trans (h : SameStorage C w w') (h' : SameStorage C w' w'') :
    SameStorage C w w'' :=
  ⟨fun a ↦ (h'.storage a).trans (h.storage a), fun a ↦ (h'.committed a).trans (h.committed a)⟩

theorem sameStorage_of_accounts (h : w'.accounts = w.accounts) : SameStorage C w w' := by
  constructor <;> intro a <;> rw [getOrNew, getOrNew, h]

/-- No slot differs from what the transaction started from. -/
def NoDirtySlot (C : Crypto) (w : World) : Prop :=
  ∀ a, (w.getOrNew C a).storage = (w.getOrNew C a).committed

theorem NoDirtySlot.of_sameStorage (h : w.NoDirtySlot C) (hsame : SameStorage C w w') :
    w'.NoDirtySlot C := fun a ↦ by
  rw [hsame.storage a, hsame.committed a]
  exact h a

variable {a : Address}

theorem sameStorage_put {acc : Account} (hs : acc.storage = (w.getOrNew C a).storage)
    (hc : acc.committed = (w.getOrNew C a).committed) : SameStorage C w (w.put a acc) := by
  constructor <;> intro b
  · by_cases hb : b = a
    · rw [hb, ← hs]
      simp [getOrNew]
    · simp [getOrNew, put_of_ne hb]
  · by_cases hb : b = a
    · rw [hb, ← hc]
      simp [getOrNew]
    · simp [getOrNew, put_of_ne hb]

theorem sameStorage_addBalance (w : World) (a : Address) (x : ℤ) :
    SameStorage C w (w.addBalance C a x) := sameStorage_put rfl rfl

theorem sameStorage_suicide (w : World) (a : Address) : SameStorage C w (w.suicide a).2 := by
  unfold suicide
  cases h : w.accounts a with
  | none => exact .refl w
  | some acc => exact sameStorage_put (by simp [getOrNew, h]) (by simp [getOrNew, h])

theorem refund_suicide (w : World) (a : Address) : (w.suicide a).2.refund = w.refund := by
  unfold suicide
  cases w.accounts a <;> rfl

theorem sameStorage_createAccount (h : w.accounts a = none) :
    SameStorage C w (w.createAccount C a) :=
  sameStorage_put (by simp [getOrNew, h]) (by simp [getOrNew, h])

variable {key value : Hash}

/-! ## Cleared slots -/

/-- The slots that the transaction found with a value and that have none now. -/
def cleared (C : Crypto) (w : World) : Set (Address × Hash) :=
  {p | (w.getOrNew C p.1).committed p.2 ≠ 0 ∧ (w.getOrNew C p.1).storage p.2 = 0}

theorem cleared_eq_of_sameStorage (h : SameStorage C w w') : w'.cleared C = w.cleared C := by
  ext p
  simp only [cleared, h.storage, h.committed]

instance finite_bitVec (n : Nat) : Finite (BitVec n) :=
  Finite.of_injective BitVec.toFin fun _ _ ↦ BitVec.eq_of_toFin_eq

theorem cleared_createAccount_subset (w : World) (a : Address) :
    (w.createAccount C a).cleared C ⊆ w.cleared C := by
  rintro ⟨b, key⟩ ⟨hcommitted, hstorage⟩
  by_cases hb : b = a
  · subst hb
    simp [createAccount, getOrNew, Account.fresh] at hcommitted
  · have hsame : (w.createAccount C a).getOrNew C b = w.getOrNew C b := by
      rw [createAccount, getOrNew, put_of_ne hb, getOrNew]
    rw [hsame] at hcommitted hstorage
    exact ⟨hcommitted, hstorage⟩

theorem mem_cleared_setState_of_ne {p : Address × Hash}
    (hp : p ≠ (a, key)) : p ∈ (w.setState C a key value).cleared C ↔ p ∈ w.cleared C := by
  obtain ⟨b, k⟩ := p
  by_cases hb : b = a
  · subst hb
    have hk : k ≠ key := fun h ↦ hp (by rw [h])
    simp [cleared, setState, getOrNew, Function.update_of_ne hk]
  · simp [cleared, setState, getOrNew, put_of_ne hb]

theorem mem_cleared_setState_self :
    (a, key) ∈ (w.setState C a key value).cleared C ↔
      (w.getOrNew C a).committed key ≠ 0 ∧ value = 0 := by
  simp [cleared, setState, getOrNew]

/-- **A write changes the number of cleared slots by one at most**, as the slot it writes was and is
cleared or not. -/
theorem ncard_cleared_setState (w : World) (a : Address) (key value : Hash) :
    ((w.setState C a key value).cleared C).ncard +
        (if (w.getOrNew C a).committed key ≠ 0 ∧ (w.getOrNew C a).storage key = 0 then 1 else 0) =
      (w.cleared C).ncard + if (w.getOrNew C a).committed key ≠ 0 ∧ value = 0 then 1 else 0 := by
  have hcount : ∀ (S : Set (Address × Hash)) (P : Prop) [Decidable P], ((a, key) ∈ S ↔ P) →
      S.ncard = (S \ {(a, key)}).ncard + if P then 1 else 0 := by
    intro S P _ hP
    split
    · next h => rw [Set.ncard_sdiff_singleton_add_one (hP.2 h)]
    · next h => rw [Set.sdiff_singleton_eq_self (mt hP.1 h), Nat.add_zero]
  have hrest : (w.setState C a key value).cleared C \ {(a, key)} = w.cleared C \ {(a, key)} := by
    ext p
    exact and_congr_left mem_cleared_setState_of_ne
  rw [hcount (w.cleared C) ((w.getOrNew C a).committed key ≠ 0 ∧ (w.getOrNew C a).storage key = 0)
    .rfl, hcount _ _ mem_cleared_setState_self, hrest]
  omega

end World

end GoEntropy.State
