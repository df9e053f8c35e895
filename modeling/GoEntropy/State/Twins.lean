import GoEntropy.Evm.Lockstep
import GoEntropy.State.World

/-!
# Worlds that cannot be told apart

Two timelines are twins if a message cannot tell them apart: they have the same accounts and refund
counter, access lists with the same contents where these are asked for, and corresponding snapshots.
They may differ in what was logged before, in the preimages, in the transaction the logs are for, and
in how the snapshots are numbered. `handler_simulatesUnder` says that the methods keep twins twins and
answer alike.

The logs of the running message are the ones after what was there at its start, so the relation keeps
those two prefixes.
-/

namespace GoEntropy.State

open Evm Interaction

/-- The worlds agree, where logs are counted from the given ones on. -/
structure World.Twin (lists : Bool) (base base' : List Log) (w w' : World) : Prop where
  accounts : w.accounts = w'.accounts
  refund : w.refund = w'.refund
  accessList : lists = true → w.accessList.Same w'.accessList
  logs : ∃ new, (w.logs w.thash).map (·.log) = base ++ new ∧
    (w'.logs w'.thash).map (·.log) = base' ++ new

namespace World.Twin

variable {lists : Bool} {base base' : List Log} {w w' : World} (C : Crypto)
  (h : Twin lists base base' w w')

include h

section

variable (a : Address)

include a

theorem put (acc : Account) : Twin lists base base' (w.put a acc) (w'.put a acc) where
  accounts := by rw [World.put, World.put, h.accounts]
  refund := h.refund
  accessList := h.accessList
  logs := h.logs

theorem getOrNew : w.getOrNew C a = w'.getOrNew C a := by
  rw [World.getOrNew, World.getOrNew, h.accounts]

theorem balance : w.balance a = w'.balance a := by
  rw [World.balance, World.balance, h.accounts]

theorem read {α : Type} (absent : α) (f : Account → α) :
    w.read a absent f = w'.read a absent f := by
  rw [World.read, World.read, h.accounts]

theorem createAccount :
    Twin lists base base' (w.createAccount C a) (w'.createAccount C a) := by
  rw [World.createAccount, h.balance]
  exact h.put a _

theorem suicide :
    (w.suicide a).1 = (w'.suicide a).1 ∧ Twin lists base base' (w.suicide a).2 (w'.suicide a).2 := by
  rw [World.suicide, World.suicide, h.accounts]
  cases w'.accounts a with
  | none => exact ⟨rfl, h⟩
  | some acc => exact ⟨rfl, h.put a _⟩

end

theorem addLog (l : Log) : Twin lists base base' (w.addLog l) (w'.addLog l) where
  accounts := h.accounts
  refund := h.refund
  accessList := h.accessList
  logs := by
    obtain ⟨new, hnew, hnew'⟩ := h.logs
    refine ⟨new ++ [l], ?_, ?_⟩
    · simp [World.addLog, hnew]
    · simp [World.addLog, hnew']

theorem addPreimage (k : Hash) (p : Bytes) :
    Twin lists base base' (w.addPreimage k p) (w'.addPreimage k p) := by
  have hkeep : ∀ v : World, (v.addPreimage k p).accounts = v.accounts ∧
      (v.addPreimage k p).refund = v.refund ∧ (v.addPreimage k p).accessList = v.accessList ∧
      (v.addPreimage k p).logs = v.logs ∧ (v.addPreimage k p).thash = v.thash := by
    intro v
    unfold World.addPreimage
    split <;> exact ⟨rfl, rfl, rfl, rfl, rfl⟩
  obtain ⟨ha, hr, hl, hg, ht⟩ := hkeep w
  obtain ⟨ha', hr', hl', hg', ht'⟩ := hkeep w'
  refine ⟨?_, ?_, ?_, ?_⟩
  · rw [ha, ha', h.accounts]
  · rw [hr, hr', h.refund]
  · rw [hl, hl']
    exact h.accessList
  · rw [hg, hg', ht, ht']
    exact h.logs

theorem setRefund {n n' : Nat} (hn : n = n') :
    Twin lists base base' { w with refund := n } { w' with refund := n' } :=
  ⟨h.accounts, hn, h.accessList, h.logs⟩

theorem setAccessList {al al' : AccessList} (hal : lists = true → al.Same al') :
    Twin lists base base' { w with accessList := al } { w' with accessList := al' } :=
  ⟨h.accounts, h.refund, hal, h.logs⟩

end World.Twin

/-! ## Timelines -/

namespace Timeline

/-- The current worlds are twins, and so are those of corresponding snapshots. -/
structure Twins (lists : Bool) (base base' : List Log) (a b : Nat) (t t' : Timeline) : Prop where
  now : t.now.Twin lists base base' t'.now
  saved : List.Forall₂ (fun p p' ↦ Shifted a b p.1 p'.1 ∧ p.2.Twin lists base base' p'.2)
    t.saved t'.saved
  nextId : Shifted a b t.nextId t'.nextId

variable {lists : Bool} {base base' : List Log} {a b : Nat} {t t' : Timeline}

theorem Twins.modify (h : Twins lists base base' a b t t') {f f' : World → World}
    (hf : (f t.now).Twin lists base base' (f' t'.now)) :
    Twins lists base base' a b (t.modify f) (t'.modify f') :=
  ⟨hf, h.saved, h.nextId⟩

theorem Twins.snapshot (h : Twins lists base base' a b t t') :
    Twins lists base base' a b t.snapshot.2 t'.snapshot.2 := by
  refine ⟨h.now, .cons ⟨h.nextId, h.now⟩ h.saved, ?_⟩
  obtain ⟨hle, heq⟩ := h.nextId
  exact ⟨Nat.le_succ_of_le hle, by simp [Timeline.snapshot]; omega⟩

private theorem forall₂_dropWhile {α β : Type} {R : α → β → Prop} {p : α → Bool} {q : β → Bool}
    (hpq : ∀ x y, R x y → p x = q y) {l : List α} {l' : List β} (h : List.Forall₂ R l l') :
    List.Forall₂ R (l.dropWhile p) (l'.dropWhile q) := by
  induction h with
  | nil => exact .nil
  | @cons x y l l' hxy hl ih =>
    rw [List.dropWhile_cons, List.dropWhile_cons, hpq x y hxy]
    split
    · exact ih
    · exact .cons hxy hl

theorem Twins.revertToSnapshot (h : Twins lists base base' a b t t') {id id' : Nat}
    (hid : Shifted a b id id') :
    (t.revertToSnapshot id = .error .revisionCannotBeReverted ∧
        t'.revertToSnapshot id' = .error .revisionCannotBeReverted) ∨
      ∃ u u', t.revertToSnapshot id = .ok u ∧ t'.revertToSnapshot id' = .ok u' ∧
        Twins lists base base' a b u u' := by
  have hdrop := forall₂_dropWhile (p := fun p ↦ decide (p.1 ≠ id)) (q := fun p ↦ decide (p.1 ≠ id'))
    (fun x y hxy ↦ decide_eq_decide.2 (by
      obtain ⟨⟨-, hx⟩, -⟩ := hxy
      obtain ⟨-, hid⟩ := hid
      constructor <;> intro hne heq <;> apply hne <;> omega)) h.saved
  unfold Timeline.revertToSnapshot
  generalize t.saved.dropWhile (fun p ↦ decide (p.1 ≠ id)) = l at hdrop
  generalize t'.saved.dropWhile (fun p ↦ decide (p.1 ≠ id')) = l' at hdrop
  cases hdrop with
  | nil => exact .inl ⟨rfl, rfl⟩
  | @cons x y l l' hxy hl => exact .inr ⟨_, _, rfl, rfl, hxy.2, hl, h.nextId⟩

/-- **Twins cannot be told apart.** Corresponding methods answer alike and keep twins twins. -/
theorem handler_simulatesUnder (C : Crypto) :
    (handler C).SimulatesUnder (handler C) (shifted lists a b) (Twins lists base base' a b) := by
  intro o o' ho t t' h
  rcases shifted_cases ho with ⟨id, id', rfl, rfl, hid⟩ | ⟨rfl, hrevert, hlists⟩
  · rcases h.revertToSnapshot hid with ⟨he, he'⟩ | ⟨u, u', hu, hu', htwins⟩
    · simp only [handler, he, he']
      rfl
    · simp only [handler, hu, hu']
      exact ⟨.rfl, htwins⟩
  · -- An answer that is the same, and worlds that stay twins.
    have hsame : ∀ {r r' : o.Res} {u u' : Timeline}, o ≠ .snapshot → r = r' →
        Twins lists base base' a b u u' →
        Alike ((shifted lists a b).res o o) (Twins lists base base' a b)
          (.ok (r, u) : Except Fault _) (.ok (r', u')) := by
      rintro r _ u u' hs rfl htwins
      exact ⟨shifted_res hs r, htwins⟩
    cases o with
    | revertToSnapshot id => exact absurd rfl (hrevert id)
    | snapshot => exact ⟨h.nextId, h.snapshot⟩
    | createAccount x => exact hsame (by simp) rfl (h.modify (h.now.createAccount C x))
    -- Both worlds put the same account, made from the one that was there.
    | subBalance x | addBalance x | setNonce x | setCode x | setState x =>
      refine hsame (by simp) rfl (h.modify ?_)
      simp only [World.addBalance, World.setNonce, World.setCode, World.setState, h.now.getOrNew]
      exact h.now.put x _
    | getBalance x => exact hsame (by simp) (h.now.balance x) h
    | getNonce x | getCodeHash x | getCode x | getCodeSize x | getCommittedState x k | getState x k
    | hasSuicided x | exist x | empty x => exact hsame (by simp) (h.now.read x _ _) h
    | getRefund => exact hsame (by simp) h.now.refund h
    | addRefund g =>
      exact hsame (by simp) rfl (h.modify (h.now.setRefund (by rw [h.now.refund])))
    | subRefund g =>
      simp only [handler, h.now.refund]
      split
      · rfl
      · exact hsame (by simp) rfl (h.modify (h.now.setRefund (by rw [h.now.refund])))
    | suicide x =>
      obtain ⟨hres, htwin⟩ := h.now.suicide x
      exact hsame (by simp) hres (h.modify htwin)
    | addressInAccessList x => exact hsame (by simp) ((h.now.accessList (hlists rfl)).address x) h
    | slotInAccessList x k =>
      have hal := h.now.accessList (hlists rfl)
      simp only [handler, hal.contains, hal.wf'.contains_eq]
      exact hsame (by simp) rfl h
    | addAddressToAccessList x =>
      exact hsame (by simp) rfl (h.modify (h.now.setAccessList fun hl ↦
        (h.now.accessList hl).addAddress x))
    | addSlotToAccessList x k =>
      obtain ⟨_, _, al, _, _, al', hadd, hadd', hal⟩ := (h.now.accessList (hlists rfl)).addSlot x k
      simp only [handler, hadd, hadd']
      exact hsame (by simp) rfl (h.modify (h.now.setAccessList fun _ ↦ hal))
    | addLog l => exact hsame (by simp) rfl (h.modify (h.now.addLog l))
    | addPreimage k p => exact hsame (by simp) rfl (h.modify (h.now.addPreimage k p))
    | captureStart | captureEnter | captureState => exact hsame (by simp) rfl h

end Timeline

end GoEntropy.State
