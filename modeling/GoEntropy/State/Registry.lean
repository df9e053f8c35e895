import GoEntropy.Evm.CodeLogic
import GoEntropy.State.Reachable
import GoEntropy.State.Rollback

/-!
# A register of created contracts

`EVM.create` refuses an address whose account has a nonce or code; nothing else keeps a contract from
being created again over another one. To say what this protects, an observer keeps a register of the
contracts that have been created (`live`) and of the addresses at which a creation has started during
the transaction (`started`). What is undone is struck off again, and so is a contract that
self-destructed, when the transaction is finalised.

An account with a nonce or code is *protected*. This file has what each method does to protection, and
how the register goes back with a snapshot.
-/

namespace GoEntropy.State

open Evm Interaction

/-! ## Protection -/

namespace World

variable {C : Crypto} {w w' w'' : World} {a b : Address}

/-- The account has a nonce or code, so no contract is created at its address. -/
def Protected (C : Crypto) (w : World) (a : Address) : Prop :=
  w.read a 0 (·.nonce) ≠ 0 ∨
    (w.read a 0 (·.codeHash) ≠ 0 ∧ w.read a 0 (·.codeHash) ≠ C.emptyCodeHash)

/-- No account loses its protection. -/
def Guards (C : Crypto) (w w' : World) : Prop := ∀ a, w.Protected C a → w'.Protected C a

theorem Guards.refl (w : World) : Guards C w w := fun _ h ↦ h

theorem guards_of_accounts (h : w'.accounts = w.accounts) : Guards C w w' := by
  intro a ha
  unfold Protected read at ha ⊢
  rwa [h]

theorem not_protected_of_absent (h : w.accounts a = none) : ¬ w.Protected C a := by
  simp [Protected, read, h]

theorem guards_put {acc : Account} (h : w.Protected C a → (w.put a acc).Protected C a) :
    Guards C w (w.put a acc) := by
  intro b hb
  by_cases hab : b = a
  · subst hab
    exact h hb
  · unfold Protected read at hb ⊢
    rwa [put_of_ne hab]

/-- Nonce and code of a new account are none, so nothing is lost where there was no account. -/
theorem guards_put_same {acc : Account} (hnonce : acc.nonce = (w.getOrNew C a).nonce)
    (hcode : acc.codeHash = (w.getOrNew C a).codeHash) : Guards C w (w.put a acc) := by
  refine guards_put fun h ↦ ?_
  cases hacc : w.accounts a with
  | none => exact absurd h (not_protected_of_absent hacc)
  | some old =>
    simp only [getOrNew] at hnonce hcode
    simpa [Protected, read, hacc, hnonce, hcode] using h

theorem guards_addBalance (w : World) (a : Address) (x : ℤ) : Guards C w (w.addBalance C a x) :=
  guards_put_same rfl rfl

theorem nonce_addBalance (w : World) (a b : Address) (x : ℤ) :
    (w.addBalance C a x).read b 0 (·.nonce) = w.read b 0 (·.nonce) := by
  by_cases hb : b = a
  · subst hb
    cases h : w.accounts b <;> simp [read, addBalance, getOrNew, h, Account.fresh]
  · simp [read, addBalance, put_of_ne hb]

theorem guards_suicide (w : World) (a : Address) : Guards C w (w.suicide a).2 := by
  unfold suicide
  cases h : w.accounts a with
  | none => exact .refl w
  | some acc => exact guards_put_same (by simp [getOrNew, h]) (by simp [getOrNew, h])

theorem guards_setNonce {n : UInt64} (hn : n ≠ 0) : Guards C w (w.setNonce C a n) :=
  guards_put fun _ ↦ .inl (by simpa [read, setNonce] using hn)

/-- Storing code protects the account, if it has a nonce or the code is not empty. -/
theorem protected_setCode {code : Bytes}
    (h : w.read a 0 (·.nonce) ≠ 0 ∨ (C.keccak256 code ≠ 0 ∧ C.keccak256 code ≠ C.emptyCodeHash)) :
    (w.setCode C a code).Protected C a := by
  rcases h with h | h
  · refine .inl ?_
    cases hacc : w.accounts a with
    | none => simp [read, hacc] at h
    | some acc => simpa [read, setCode, getOrNew, hacc] using h
  · exact .inr (by simpa [read, setCode] using h)

theorem guards_createAccount (h : ¬ w.Protected C a) : Guards C w (w.createAccount C a) :=
  guards_put fun ha ↦ absurd ha h

end World

/-! ## The register -/

/-- The contracts that have been created, the addresses at which a creation has started during the
transaction, and both as they were at the open snapshots. -/
structure Registry where
  live : List Address
  started : List Address
  saved : List (Nat × List Address × List Address)
  deriving DecidableEq

namespace Registry

def new : Registry := ⟨[], [], []⟩

def revert (g : Registry) (id : Nat) : Registry :=
  match g.saved.dropWhile (·.1 ≠ id) with
  | [] => g
  | (_, live, started) :: rest => ⟨live, started, rest⟩

def start (g : Registry) (a : Address) : Registry := { g with started := a :: g.started }

/-- Observe a method. The tracer is told where a creation starts, and code is stored where one has
succeeded. -/
def observe : (o : StateOp) → o.Res → Registry → Registry
  | .snapshot, id, g => { g with saved := (id, g.live, g.started) :: g.saved }
  | .revertToSnapshot id, _, g => g.revert id
  | .captureStart _ dest create _, _, g => if create then g.start dest else g
  | .captureEnter typ _ dest _, _, g =>
    if typ = .create ∨ typ = .create2 then g.start dest else g
  | .setCode a _, _, g => { g with live := a :: g.live }
  | _, _, g => g

/-- The transaction ends: contracts that self-destructed are removed. -/
def finalise (g : Registry) (destroyed : Address → Bool) : Registry :=
  ⟨g.live.filter (!destroyed ·), [], []⟩

end Registry

/-- A state with a register beside it. -/
abbrev registered {σ : Type} (h : Handler StateInterface Fault σ) :
    Handler StateInterface Fault (σ × Registry) :=
  h.observed Registry.observe

/-- Of a harmless method the register takes no note. -/
theorem Registry.observe_of_harmless {o : StateOp} (ho : Harmless o) (r : o.Res) (g : Registry) :
    g.observe o r = g := by
  cases o with
  | captureStart src dest create value =>
    cases create with
    | false => rfl
    | true => cases ho
  | captureEnter typ src dest value =>
    refine if_neg ?_
    rintro (rfl | rfl) <;> cases ho
  | setCode | snapshot | revertToSnapshot => cases ho
  | _ => rfl

/-! ## Going on -/

/-- Older snapshots stay, creations that have started stay, and no creation that had started before
has succeeded since. -/
structure Continues (p q : Timeline × Registry) : Prop where
  timeline : p.1.Extends q.1
  saved : ∃ newer, q.2.saved = newer ++ p.2.saved ∧ ∀ x ∈ newer, p.1.nextId ≤ x.1
  started : ∀ a ∈ p.2.started, a ∈ q.2.started
  live : ∀ a ∈ p.2.started, a ∈ q.2.live → a ∈ p.2.live

namespace Continues

variable {p q r : Timeline × Registry} {t u : Timeline} {g k : Registry}

theorem trans (hpq : Continues p q) (hqr : Continues q r) : Continues p r :=
  ⟨hpq.timeline.trans hqr.timeline, Newer.trans hpq.saved hpq.timeline.nextId_le hqr.saved,
    fun a ha ↦ hqr.started a (hpq.started a ha),
    fun a ha h ↦ hpq.live a ha (hqr.live a (hpq.started a ha) h)⟩

/-- A step that the register takes no note of. -/
theorem of_extends (h : t.Extends u) : Continues (t, g) (u, g) :=
  ⟨h, Newer.refl _ _, fun _ ha ↦ ha, fun _ _ ha ↦ ha⟩

theorem refl (p : Timeline × Registry) : Continues p p := of_extends (.refl p.1)

/-- **Going back.** From anywhere after a snapshot, going back to it restores the register. -/
theorem revert (h : Continues (t.snapshot.2, g.observe .snapshot t.snapshot.1) (u, k)) :
    ∃ v, u.revertToSnapshot t.snapshot.1 = .ok v ∧ v.now = t.now ∧ t.Extends v ∧
      k.revert t.snapshot.1 = g := by
  obtain ⟨v, hv, hnow, hext⟩ := Timeline.revertToSnapshot_of_extends h.timeline
  refine ⟨v, hv, hnow, hext, ?_⟩
  have hdrop : k.saved.dropWhile (·.1 ≠ t.nextId) = (t.nextId, g.live, g.started) :: g.saved :=
    Newer.dropWhile h.saved
  unfold Registry.revert
  rw [show t.snapshot.1 = t.nextId from rfl, hdrop]

end Continues

/-! ## Finalising -/

/-- A protected account that has not self-destructed is there after the transaction, and protected. -/
theorem protected_finalise {C : Crypto} {db : StateDatabase C} {s : StateDB} {t : Timeline}
    (h : Refines db s t) (del : Bool) {a : Address} (ha : (s.world db).Protected C a)
    (hs : (s.world db).read a false (·.suicided) = false) :
    ((s.finalise C del).world db).Protected C a := by
  cases hacc : (s.world db).accounts a with
  | none => exact absurd ha (World.not_protected_of_absent hacc)
  | some acc =>
    simp only [World.read, hacc, Option.map_some, Option.getD_some] at hs
    have hempty : acc.isEmpty C = false := by
      simp only [World.Protected, World.read, hacc, Option.map_some, Option.getD_some] at ha
      unfold Account.isEmpty
      rcases ha with hn | ⟨_, hc⟩
      · simp [hn]
      · simp [hc]
    have hkept : ((s.finalise C del).world db).accounts a =
        some { acc with committed := acc.storage } := by
      rw [Resting.accounts_finalise h, hacc, Option.bind_some, hs, hempty]
      simp
    simpa only [World.Protected, World.read, hacc, hkept, Option.map_some] using ha

end GoEntropy.State
