import GoEntropy.State.World

/-!
# Rolling back a timeline

A frame takes a snapshot when it starts and goes back to it if it fails. Between the two, frames
inside it take snapshots of their own and may leave some behind. What matters is that they never
touch the older ones: a timeline *extends* another if it has all of its snapshots, under the newer
ones. Going back to a snapshot from any extension of the timeline that took it restores the world it
was taken in, and yields an extension of the timeline before it.
-/

namespace GoEntropy.State

open Evm Interaction

/-- `l'` is `l` under entries with identifiers from `n` on. -/
def Newer {β : Type} (n : Nat) (l l' : List (Nat × β)) : Prop :=
  ∃ newer, l' = newer ++ l ∧ ∀ x ∈ newer, n ≤ x.1

namespace Newer

variable {β : Type} {m n : Nat} {l l' l'' : List (Nat × β)} {b : β}

theorem refl (n : Nat) (l : List (Nat × β)) : Newer n l l := ⟨[], rfl, nofun⟩

theorem cons (n : Nat) (b : β) (l : List (Nat × β)) : Newer n l ((n, b) :: l) :=
  ⟨[(n, b)], rfl, fun x hx ↦ by rw [List.mem_singleton.1 hx]⟩

theorem trans (h : Newer m l l') (hmn : m ≤ n) (h' : Newer n l' l'') : Newer m l l'' := by
  obtain ⟨newer, rfl, hids⟩ := h
  obtain ⟨newer', rfl, hids'⟩ := h'
  refine ⟨newer' ++ newer, (List.append_assoc ..).symm, fun x hx ↦ ?_⟩
  rcases List.mem_append.1 hx with hx | hx
  · exact hmn.trans (hids' x hx)
  · exact hids x hx

theorem dropWhile (h : Newer (n + 1) ((n, b) :: l) l') : l'.dropWhile (·.1 ≠ n) = (n, b) :: l := by
  obtain ⟨newer, rfl, hids⟩ := h
  rw [List.dropWhile_append_of_pos fun x hx ↦ decide_eq_true (by
    have := hids x hx
    omega)]
  simp

end Newer

namespace Timeline

/-- `u` has the snapshots of `t`, and on top of them only ones taken since. -/
structure Extends (t u : Timeline) : Prop where
  nextId_le : t.nextId ≤ u.nextId
  saved : ∃ newer, u.saved = newer ++ t.saved ∧ ∀ p ∈ newer, t.nextId ≤ p.1

variable {t u v : Timeline}

theorem Extends.refl (t : Timeline) : t.Extends t :=
  ⟨le_refl _, Newer.refl _ _⟩

theorem Extends.trans (htu : t.Extends u) (huv : u.Extends v) : t.Extends v :=
  ⟨htu.nextId_le.trans huv.nextId_le, Newer.trans htu.saved htu.nextId_le huv.saved⟩

theorem extends_modify (t : Timeline) (f : World → World) : t.Extends (t.modify f) :=
  ⟨le_refl _, Newer.refl _ _⟩

theorem extends_snapshot (t : Timeline) : t.Extends t.snapshot.2 :=
  ⟨Nat.le_succ _, Newer.cons _ _ _⟩

/-- No method touches an older snapshot, going back to one apart. -/
theorem handler_extends {C : Crypto} (o : StateOp) (ho : ∀ id, o ≠ .revertToSnapshot id)
    {r : o.Res} (h : handler C o t = .ok (r, u)) : t.Extends u := by
  cases o with
  | revertToSnapshot id => exact absurd rfl (ho id)
  | snapshot =>
    cases h
    exact t.extends_snapshot
  | subRefund g =>
    simp only [handler] at h
    split at h
    · cases h
    · cases h
      exact t.extends_modify _
  | slotInAccessList a k =>
    simp only [handler] at h
    cases hc : t.now.accessList.contains a k with
    | error e => rw [hc] at h; cases h
    | ok x => rw [hc] at h; cases h; exact .refl t
  | addSlotToAccessList a k =>
    simp only [handler] at h
    cases hadd : t.now.accessList.addSlot a k with
    | error e => rw [hadd] at h; cases h
    | ok x => rw [hadd] at h; cases h; exact t.extends_modify _
  | getBalance | getNonce | getCodeHash | getCode | getCodeSize | getRefund | getCommittedState
  | getState | hasSuicided | exist | empty | addressInAccessList | captureStart | captureEnter
  | captureState =>
    cases h
    exact .refl t
  | _ =>
    cases h
    exact t.extends_modify _

/-- **Rolling back.** From any extension of the timeline that took it, a snapshot brings back the
world it was taken in. -/
theorem revertToSnapshot_of_extends (h : t.snapshot.2.Extends u) :
    ∃ v, u.revertToSnapshot t.snapshot.1 = .ok v ∧ v.now = t.now ∧ t.Extends v := by
  have hdrop : u.saved.dropWhile (·.1 ≠ t.nextId) = (t.nextId, t.now) :: t.saved :=
    Newer.dropWhile h.saved
  refine ⟨{ u with now := t.now, saved := t.saved }, ?_, rfl, ?_⟩
  · unfold revertToSnapshot
    rw [show t.snapshot.1 = t.nextId from rfl, hdrop]
  · exact ⟨le_trans (Nat.le_succ _) h.nextId_le, Newer.refl _ _⟩

end Timeline

end GoEntropy.State
