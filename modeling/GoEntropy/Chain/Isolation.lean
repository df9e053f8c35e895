import GoEntropy.Chain.TransitionLogic
import GoEntropy.State.Reachable
import GoEntropy.State.Twins

/-!
# What a message can see of the ones before it

A message is applied to a state database that earlier transactions have used. Between two of them the
state database is finalised, which leaves it at rest: no journal, no refund, no account marked for
destruction, and the storage every account starts from is the one it has. So two finalised state
databases with the same accounts are twins, up to one thing. Nothing resets the access list, and since
London gas prices depend on it.

`transition_isolated` compares two such state databases. Where the prices do not depend on the access
list, or the access lists have the same contents, a message has the same result, the same logs and the
same effect on both, whatever was executed before.
-/

namespace GoEntropy.Chain

open Evm Interaction State StateDB Timeline StateDB

/-! ## What is compared -/

section Observations

variable {σ τ : Type}

def readsAccount : StateOp → Bool
  | .exist _ => true
  | .getBalance _ => true
  | .getNonce _ => true
  | .getCodeHash _ => true
  | .getCode _ => true
  | .getState _ _ => true
  | _ => false

/-- The methods that also show what the running transaction did to it. -/
def readsTransaction : StateOp → Bool
  | .getCommittedState _ _ => true
  | .hasSuicided _ => true
  | o => readsAccount o

/-- The accounts, their code and their storage agree at all addresses and slots. -/
def Agree (h : Handler StateInterface Fault σ) (s : σ) (g : Handler StateInterface Fault τ) (t : τ) :
    Prop :=
  ∀ o, readsAccount o = true → h.answer o s = g.answer o t

def SameAccounts (h : Handler StateInterface Fault σ) (s : σ) (g : Handler StateInterface Fault τ)
    (t : τ) : Prop :=
  ∀ o, readsTransaction o = true → h.answer o s = g.answer o t

def SameAccessList (h : Handler StateInterface Fault σ) (s : σ) (g : Handler StateInterface Fault τ)
    (t : τ) : Prop :=
  ∀ a k, h.answer (.slotInAccessList a k) s = g.answer (.slotInAccessList a k) t

/-- The logs of the current transaction: address, topics and data. -/
def currentLogs (s : StateDB) : List Log := (s.getLogs s.thash).map (·.log)

/-- `s'` and `t'` have the same logs on top of those of `s` and `t`. -/
def SameNewLogs (s t s' t' : StateDB) : Prop :=
  ∃ new, currentLogs s' = currentLogs s ++ new ∧ currentLogs t' = currentLogs t ++ new

end Observations

/-- `Finalise` was just called, and perhaps `Prepare` for the next transaction. -/
inductive Finalised {C : Crypto} (db : StateDatabase C) : StateDB → Prop
  | finalise {s : StateDB} (hs : s.Reachable db) (del : Bool) : Finalised db (s.finalise C del)
  | prepare {s : StateDB} (hs : Finalised db s) (thash : Hash) (ti : Nat) :
    Finalised db (s.prepare thash ti)

variable {C : Crypto} {db db₁ db₂ : StateDatabase C}

theorem Finalised.resting {s : StateDB} (h : Finalised db s) : Resting db s := by
  induction h with
  | finalise hs del =>
    obtain ⟨t, ht⟩ := hs.refines
    exact .finalise ht del
  | prepare hs thash ti ih => exact ih.prepare thash ti

/-! ## Finalised states that agree are twins -/

section Twins

variable {t t' : Timeline}

/-- What the methods read of an account is all of it. -/
theorem accounts_eq_of_agree (h : t.now.AtRest) (h' : t'.now.AtRest)
    (hagree : Agree (handler C) t (handler C) t') :
    t.now.accounts = t'.now.accounts := by
  funext a
  have hexist : t.now.read a false (fun _ ↦ true) = t'.now.read a false fun _ ↦ true :=
    Except.ok.inj (hagree (.exist a) rfl)
  have hnonce : t.now.read a 0 (·.nonce) = t'.now.read a 0 (·.nonce) :=
    Except.ok.inj (hagree (.getNonce a) rfl)
  have hbalance : t.now.balance a = t'.now.balance a := Except.ok.inj (hagree (.getBalance a) rfl)
  have hcodeHash : t.now.read a 0 (·.codeHash) = t'.now.read a 0 (·.codeHash) :=
    Except.ok.inj (hagree (.getCodeHash a) rfl)
  have hcode : t.now.read a [] (·.code) = t'.now.read a [] (·.code) :=
    Except.ok.inj (hagree (.getCode a) rfl)
  have hstorage : ∀ k, t.now.read a 0 (·.storage k) = t'.now.read a 0 (·.storage k) := fun k ↦
    Except.ok.inj (hagree (.getState a k) rfl)
  cases ha : t.now.accounts a with
  | none =>
    cases ha' : t'.now.accounts a with
    | none => rfl
    | some acc' => simp [World.read, ha, ha'] at hexist
  | some acc =>
    cases ha' : t'.now.accounts a with
    | none => simp [World.read, ha, ha'] at hexist
    | some acc' =>
      simp only [World.read, World.balance, ha]
        at hnonce hbalance hcodeHash hcode hstorage
      obtain ⟨hsuicided, hcommitted⟩ := h.clean a acc ha
      obtain ⟨hsuicided', hcommitted'⟩ := h'.clean a acc' ha'
      have hstorage := funext hstorage
      cases acc
      cases acc'
      simp_all

theorem same_of_sameAccessList (hwf : t.now.accessList.WF) (hwf' : t'.now.accessList.WF)
    (h : SameAccessList (Timeline.handler C) t (Timeline.handler C) t') :
    t.now.accessList.Same t'.now.accessList := by
  have hanswer : ∀ a k, (t.now.accessList.containsAddress a,
      decide (k ∈ t.now.accessList.slotsOf a)) = (t'.now.accessList.containsAddress a,
        decide (k ∈ t'.now.accessList.slotsOf a)) := by
    intro a k
    have := h a k
    simp only [Handler.answer, Timeline.handler, hwf.contains_eq, hwf'.contains_eq] at this
    exact Except.ok.inj this
  refine ⟨hwf, hwf', fun a ↦ ?_, fun a k ↦ ?_⟩
  · exact congrArg Prod.fst (hanswer a 0)
  · exact decide_eq_decide.1 (congrArg Prod.snd (hanswer a k))

/-- **Finalised state databases that agree are twins**, up to the access list. -/
theorem twins_of_resting {s₁ s₂ : StateDB} (h₁ : Resting db₁ s₁) (h₂ : Resting db₂ s₂)
    (hagree : Agree (handler db₁) s₁ (handler db₂) s₂) (lists : Bool)
    (hlists : lists = true → SameAccessList (handler db₁) s₁ (handler db₂) s₂) :
    (s₁.timeline db₁).Twins lists (currentLogs s₁) (currentLogs s₂) s₁.nextRevisionId
      s₂.nextRevisionId (s₂.timeline db₂) := by
  have hanswer : ∀ o, (handler db₁).answer o s₁ = (handler db₂).answer o s₂ →
      (handler C).answer o (s₁.timeline db₁) =
        (handler C).answer o (s₂.timeline db₂) := by
    intro o ho
    rw [← (handler_simulates db₁).answer_eq trivial h₁.refines, ho,
      (handler_simulates db₂).answer_eq trivial h₂.refines]
  refine ⟨⟨?_, ?_, fun hl ↦ ?_, [], ?_, ?_⟩, .nil, le_rfl, Nat.add_comm _ _⟩
  · exact accounts_eq_of_agree h₁.atRest h₂.atRest fun o ho ↦ hanswer o (hagree o ho)
  · exact h₁.atRest.refund.trans h₂.atRest.refund.symm
  · exact same_of_sameAccessList h₁.accessList_wf h₂.accessList_wf fun a k ↦
      hanswer _ (hlists hl a k)
  · rw [List.append_nil]
    rfl
  · rw [List.append_nil]
    rfl

/-- Twins have the same accounts, also in the middle of a transaction. -/
theorem sameAccounts_of_twins {lists : Bool} {base base' : List Log} {a b : Nat}
    (h : t.Twins lists base base' a b t') :
    SameAccounts (handler C) t (handler C) t' := by
  intro o ho
  cases o with
  | getBalance x => exact congrArg Except.ok (h.now.balance x)
  | exist | getNonce | getCodeHash | getCode | getState | getCommittedState | hasSuicided =>
    exact congrArg Except.ok (h.now.read _ _ _)
  | _ => cases ho

end Twins

/-! ## Messages -/

/-- **Messages are isolated.** For every chain configuration and block, every message and every two
finalised state databases with the same accounts, code and storage: if gas prices do not depend on the
access list, or the access lists have the same contents, then the message has the same outcome on
both, with the same logs and the same accounts and storage afterwards, whatever happened before. -/
theorem transition_isolated {s₁ s₂ : StateDB} (h₁ : Finalised db₁ s₁) (h₂ : Finalised db₂ s₂)
    (hagree : Agree (StateDB.handler db₁) s₁ (StateDB.handler db₂) s₂) (evm : EVM)
    (hlists : usesAccessList evm.chainRules = false ∨
      SameAccessList (StateDB.handler db₁) s₁ (StateDB.handler db₂) s₂)
    (msg : Message) (gp : GasPool) {m₁ m₂ : Machine} (hm : Level m₁ m₂) :
    Alike (fun out out' ↦ out.1 = out'.1)
      (fun s₁' s₂' ↦ SameAccounts (StateDB.handler db₁) s₁' (StateDB.handler db₂) s₂' ∧
        SameNewLogs s₁ s₂ s₁' s₂')
      ((transitionDb evm msg gp m₁).run (StateDB.handler db₁) s₁)
      ((transitionDb evm msg gp m₂).run (StateDB.handler db₂) s₂) := by
  have hr₁ := h₁.resting
  have hr₂ := h₂.resting
  have htwins := twins_of_resting hr₁ hr₂ hagree (usesAccessList evm.chainRules) fun hl ↦
    hlists.resolve_left (by simp [hl])
  have halike := (lockstep_transitionDb evm msg gp m₁ m₂ hm).run
    (Timeline.handler_simulatesUnder C) htwins
  have hsim₁ := Prog.run_simulates (handler_simulates db₁)
    (Prog.uses_true (transitionDb evm msg gp m₁)) hr₁.refines
  have hsim₂ := Prog.run_simulates (handler_simulates db₂)
    (Prog.uses_true (transitionDb evm msg gp m₂)) hr₂.refines
  refine (Alike.lower hsim₁ hsim₂ halike).mono (fun _ _ h ↦ h.1) ?_
  rintro s₁' s₂' ⟨t₁, t₂, href₁, href₂, htwins'⟩
  constructor
  · intro o ho
    rw [(handler_simulates db₁).answer_eq trivial href₁,
      (handler_simulates db₂).answer_eq trivial href₂]
    exact sameAccounts_of_twins htwins' o ho
  · obtain ⟨new, hnew, hnew'⟩ := htwins'.now.logs
    rw [href₁.now] at hnew
    rw [href₂.now] at hnew'
    exact ⟨new, hnew, hnew'⟩

/-! ## A balance that has been looked up before -/

theorem agree_of_accounts_eq {s₁ s₂ : StateDB} (h₁ : Resting db₁ s₁) (h₂ : Resting db₂ s₂)
    (h : (s₁.world db₁).accounts = (s₂.world db₂).accounts) :
    Agree (handler db₁) s₁ (handler db₂) s₂ := by
  intro o ho
  rw [(handler_simulates db₁).answer_eq trivial h₁.refines,
    (handler_simulates db₂).answer_eq trivial h₂.refines]
  cases o with
  | exist | getBalance | getNonce | getCodeHash | getCode | getState =>
    simp only [Handler.answer, Timeline.handler, timeline, World.read, World.balance, h,
      Except.map]
  | _ => cases ho

namespace Sample

open State.Sample

/-- `PUSH1 0x28 BALANCE`. -/
def balanceCode : Bytes := [0x60, 0x28, 0x31]

def cold : StateDB := (state balanceCode).finalise crypto true

/-- The same after a transaction has touched the account at `0x28`. -/
def warm : StateDB := ((state balanceCode).addAddressToAccessList 0x28).finalise crypto true

theorem finalised_cold : Finalised (database balanceCode) cold :=
  .finalise (reachable_state balanceCode) true

theorem finalised_warm : Finalised (database balanceCode) warm :=
  .finalise (.method (o := .addAddressToAccessList 0x28) (r := ()) (reachable_state balanceCode) rfl)
    true

theorem agree_cold_warm : Agree (handler (database balanceCode)) cold
    (handler (database balanceCode)) warm := by
  have hobjects : cold.stateObjects = warm.stateObjects := rfl
  have htrie : cold.trie = warm.trie := rfl
  refine agree_of_accounts_eq finalised_cold.resting finalised_warm.resting ?_
  simp only [world, object, hobjects, htrie]

end Sample

open Sample State.Sample in
/-- Two finalised state databases with the same accounts, of which one has an address in the access
list from before, and a message that looks up the balance there: it uses 23603 gas on the one and
21103 on the other. -/
theorem usedGas_depends_on_access_list :
    Finalised (database balanceCode) cold ∧ Finalised (database balanceCode) warm ∧
      Agree (StateDB.handler (database balanceCode)) cold (StateDB.handler (database balanceCode))
        warm ∧
      ((transitionDb (evm crypto none) message 8000000 Machine.init).run
          (StateDB.handler (database balanceCode)) cold).toOption.bind
        (fun p ↦ p.1.1.2.toOption.map (·.usedGas)) = some 23603 ∧
      ((transitionDb (evm crypto none) message 8000000 Machine.init).run
          (StateDB.handler (database balanceCode)) warm).toOption.bind
        (fun p ↦ p.1.1.2.toOption.map (·.usedGas)) = some 21103 :=
  ⟨finalised_cold, finalised_warm, agree_cold_warm, by decide, by decide⟩

open Sample State.Sample in
/-- Before London the same message has the same outcome on both. -/
theorem transition_isolated_before_london :
    Alike (fun out out' ↦ out.1 = out'.1)
      (fun s₁' s₂' ↦ SameAccounts (StateDB.handler (database balanceCode)) s₁'
        (StateDB.handler (database balanceCode)) s₂' ∧ SameNewLogs cold warm s₁' s₂')
      ((transitionDb { evm crypto none with chainConfig := ⟨some 1, some 0, some 0, none⟩ } message
        8000000 Machine.init).run (StateDB.handler (database balanceCode)) cold)
      ((transitionDb { evm crypto none with chainConfig := ⟨some 1, some 0, some 0, none⟩ } message
        8000000 Machine.init).run (StateDB.handler (database balanceCode)) warm) :=
  transition_isolated finalised_cold finalised_warm agree_cold_warm _ (.inl rfl) message 8000000
    ⟨rfl, rfl⟩

end GoEntropy.Chain
