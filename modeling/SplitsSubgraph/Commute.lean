/-
SplitsSubgraph/Commute.lean

Independent events commute.

On the ledger this is a statement about single keys.  A distribution adds a share
that does not depend on any balance, so two of them commute even on the same
balance, created or not.  A withdrawal reads and writes the balances of its own
account in the tokens it covers and nothing else, so it commutes with whatever
stays away from these.  The store follows, because a store is determined by the
ledger it refines.
-/
import SplitsSubgraph.Simulate

namespace SplitsSubgraph

/-! ### On the ledger -/

namespace Ledger

variable {A H : Type} [DecidableEq A] [DecidableEq H] {L : Ledger A H}
  {credit : ℤ → ℤ → ℤ → ℤ}

omit [DecidableEq H] in
/-- Any two distributions commute. -/
theorem distribute_comm (s t : A) (x : ℤ) (s' t' : A) (y : ℤ) :
    (L.distribute credit s t x).distribute credit s' t' y
      = (L.distribute credit s' t' y).distribute credit s t x := by
  refine Ledger.ext (by simp) (by simp) (by simp) ?_ (by simp)
  funext s₀ r t₀
  have hshare : ∀ s t x, (L.distribute credit s t x).share credit = L.share credit := by
    intro s t x
    exact share_congr (distribute_splits s t x) (distribute_allocations s t x)
  simp only [distribute_balances, hshare]
  by_cases h : s₀ = s ∧ t₀ = t
  · by_cases h' : s₀ = s' ∧ t₀ = t'
    · -- both touch this balance: the shares add up in either order
      rw [if_pos h, if_pos h', if_pos h, if_pos h']
      exact Balance.grow_comm _ _ _
    · rw [if_pos h, if_neg h', if_pos h, if_neg h']
  · rw [if_neg h, if_neg h]

/-- Withdrawals of different accounts commute. -/
theorem withdraw_comm (hv : L.Valid) {h h' : H} {r r' : A} (hne : r ≠ r') (T T' : List A)
    (ts ts' : ℤ) :
    (L.withdraw h r T ts).withdraw h' r' T' ts' = (L.withdraw h' r' T' ts').withdraw h r T ts := by
  -- neither withdrawal sees what the other one settles
  have hpay : ∀ {h : H} {r r' : A} (T T' : List A) (ts ts' : ℤ), r ≠ r' →
      (L.withdraw h r T ts).lastPayout r' T' ts' = L.lastPayout r' T' ts' := by
    intro h r r' T T' ts ts' hne
    refine lastPayout_congr (by simp) (fun s t _ => ?_) ts'
    rw [hv.withdraw_balances, if_neg fun hc => hne hc.1.symm]
  apply Ledger.ext (by simp) (by simp) (by simp)
  · funext s r₀ t
    rw [(hv.withdraw h r T ts).withdraw_balances, (hv.withdraw h' r' T' ts').withdraw_balances,
      hv.withdraw_balances, hv.withdraw_balances]
    by_cases hr : r₀ = r
    · have hr' : r₀ ≠ r' := hr ▸ hne
      simp [hr']
    · simp [hr]
  · funext h₀ r₀
    rw [withdraw_history, withdraw_history, withdraw_history, withdraw_history,
      hpay T T' ts ts' hne, hpay T' T ts' ts hne.symm]
    by_cases hr : r₀ = r
    · have hr' : r₀ ≠ r' := hr ▸ hne
      simp [hr']
    · simp [hr]

/-- A distribution and a withdrawal commute when the withdrawal does not cover the
token, or its account is not credited by the split. -/
theorem distribute_withdraw_comm (hv : L.Valid) {s t : A} {amount : ℤ} {h : H} {r : A}
    {T : List A} {ts : ℤ} (hind : t ∉ T ∨ L.share credit s r amount = none) :
    (L.distribute credit s t amount).withdraw h r T ts
      = (L.withdraw h r T ts).distribute credit s t amount := by
  have hshare : (L.withdraw h r T ts).share credit = L.share credit :=
    share_congr (withdraw_splits h r T ts) (withdraw_allocations h r T ts)
  -- the withdrawal finds the same balances before and after the distribution
  have hbal : ∀ s', ∀ t' ∈ T,
      (L.distribute credit s t amount).balances s' r t' = L.balances s' r t' := by
    intro s' t' ht'
    rw [distribute_balances]
    split_ifs with hkey
    · have hnone := hind.resolve_left fun hn => hn (hkey.2 ▸ ht')
      rw [hnone]
      rfl
    · rfl
  apply Ledger.ext (by simp) (by simp) (by simp)
  · funext s' r' t'
    rw [(hv.distribute s t amount).withdraw_balances, distribute_balances, distribute_balances,
      hshare, hv.withdraw_balances]
    by_cases hcov : r' = r ∧ t' ∈ T
    · obtain ⟨rfl, ht'⟩ := hcov
      by_cases hkey : s' = s ∧ t' = t
      · have hnone := hind.resolve_left fun hn => hn (hkey.2 ▸ ht')
        simp only [hnone, Balance.grow, ite_self]
      · simp only [hkey, if_false]
    · simp only [hcov, if_false]
  · funext h₀ r₀
    rw [withdraw_history, distribute_history, distribute_history, withdraw_history,
      lastPayout_congr (by simp) hbal]

end Ledger

/-! ### On the store -/

/-- The split, token and amount of a distribution event. -/
def Trigger.distribution : Trigger → Option (Address × Address × ℤ)
  | .distributeETH event => some (event.split, zeroAddress, event.amount)
  | .distributeERC20 event => some (event.split, event.token, event.amount)
  | _ => none

theorem Trigger.action_of_distribution {d : Trigger} {s t : Address} {amount : ℤ}
    (h : d.distribution = some (s, t, amount)) : d.action = .distribute s t amount := by
  cases d with
  | distributeETH event =>
    simp only [distribution, Option.some.injEq, Prod.mk.injEq] at h
    obtain ⟨rfl, rfl, rfl⟩ := h
    rfl
  | distributeERC20 event =>
    simp only [distribution, Option.some.injEq, Prod.mk.injEq] at h
    obtain ⟨rfl, rfl, rfl⟩ := h
    rfl
  | createSplit event => simp [distribution] at h
  | createSplitCall call => simp [distribution] at h
  | withdrawal event => simp [distribution] at h

theorem invokeHandler_of_distribution {m : SaveMode} {st : Store} {d : Trigger} {s t : Address}
    {amount : ℤ} (h : d.distribution = some (s, t, amount)) :
    invokeHandler m st d = handleDistribution (Host.enter m st) s.toHex amount t.toHex := by
  cases d with
  | distributeETH event =>
    simp only [Trigger.distribution, Option.some.injEq, Prod.mk.injEq] at h
    obtain ⟨rfl, rfl, rfl⟩ := h
    rw [toHex_zeroAddress]
    rfl
  | distributeERC20 event =>
    simp only [Trigger.distribution, Option.some.injEq, Prod.mk.injEq] at h
    obtain ⟨rfl, rfl, rfl⟩ := h
    rfl
  | createSplit event => simp [Trigger.distribution] at h
  | createSplitCall call => simp [Trigger.distribution] at h
  | withdrawal event => simp [Trigger.distribution] at h

/-- `t` is among the tokens of the event, or it is ETH and the event has an ETH
amount. -/
def Withdrawal.Covers (event : Withdrawal) (t : Address) : Prop :=
  t ∈ event.tokens ∨ (t = zeroAddress ∧ event.ethAmount > 0)

theorem Withdrawal.mem_covered {event : Withdrawal} {t : Address} :
    t ∈ event.covered ↔ event.Covers t := by
  unfold Withdrawal.covered Withdrawal.Covers
  split_ifs with h <;> simp [h]

/-- Two triggers commute on a store if their actions commute on its ledger. -/
theorem processTrigger_comm {m : SaveMode} {st : Store} {L : Ledger Address LogId}
    (h : Refines st L) (hv : L.Valid) {a b : Trigger}
    (hcomm : (L.step creditOf m.keepsPartial a.action).step creditOf m.keepsPartial b.action
      = (L.step creditOf m.keepsPartial b.action).step creditOf m.keepsPartial a.action) :
    processTrigger m (processTrigger m st a) b = processTrigger m (processTrigger m st b) a := by
  have hab := (h.processTrigger hv m a).processTrigger (hv.step _ _) m b
  have hba := (h.processTrigger hv m b).processTrigger (hv.step _ _) m a
  rw [hcomm] at hab
  exact hab.store_eq hba

/-- **Independent events commute**, on every reachable store, with every table
equal. -/
theorem independent_events_commute (m : SaveMode) (triggers : List Trigger) :
    (∀ d d' : Trigger, d.distribution.isSome → d'.distribution.isSome →
      processTrigger m (processTrigger m (run m triggers) d) d'
        = processTrigger m (processTrigger m (run m triggers) d') d)
    ∧ (∀ w w' : Withdrawal, w.account ≠ w'.account →
      processTrigger m (processTrigger m (run m triggers) (.withdrawal w)) (.withdrawal w')
        = processTrigger m (processTrigger m (run m triggers) (.withdrawal w')) (.withdrawal w))
    ∧ (∀ (d : Trigger) (w : Withdrawal) (s t : Address) (amount : ℤ),
      d.distribution = some (s, t, amount) →
      (¬ w.Covers t ∨ ∀ row ids, (run m triggers).splits.lookup s.toHex = some row →
        row.recipients = some ids → joinIds [s.toHex, w.account.toHex] ∉ ids) →
      processTrigger m (processTrigger m (run m triggers) d) (.withdrawal w)
        = processTrigger m (processTrigger m (run m triggers) (.withdrawal w)) d) := by
  have h := refines_run m triggers
  have hv := valid_ledger m triggers
  refine ⟨?_, ?_, ?_⟩
  · intro d d' hd hd'
    obtain ⟨⟨s, t, x⟩, hd⟩ := Option.isSome_iff_exists.mp hd
    obtain ⟨⟨s', t', y⟩, hd'⟩ := Option.isSome_iff_exists.mp hd'
    apply processTrigger_comm h hv
    rw [Trigger.action_of_distribution hd, Trigger.action_of_distribution hd']
    exact Ledger.distribute_comm s t x s' t' y
  · intro w w' hne
    apply processTrigger_comm h hv
    exact Ledger.withdraw_comm hv hne w.covered w'.covered w.timestamp w'.timestamp
  · intro d w s t amount hd hind
    apply processTrigger_comm h hv
    rw [Trigger.action_of_distribution hd]
    apply Ledger.distribute_withdraw_comm hv
    rcases hind with hcov | hlist
    · exact Or.inl fun hmem => hcov (Withdrawal.mem_covered.mp hmem)
    · right
      unfold Ledger.share
      split
      next fee rs e =>
        have hrow := h.lookup_split s
        rw [e, Option.map_some] at hrow
        have hr : w.account ∉ rs := fun hr =>
          hlist _ _ hrow rfl (List.mem_map_of_mem (f := splitRecipientId s) hr)
        rw [if_neg hr]
      next => rfl

theorem independent_events_commute_oneSplit :
    let st := run .plain [.createSplitCall
      ⟨[Address.filled 2, Address.filled 3], [500000, 500000], 0, Address.filled 1⟩]
    let d := Trigger.distributeETH ⟨Address.filled 1, 10⟩
    let d' := Trigger.distributeERC20 ⟨Address.filled 1, Address.filled 4, 7⟩
    let w : Withdrawal := ⟨Address.filled 2, 0, [Address.filled 4], [3], [], 0, 1⟩
    let w' : Withdrawal := ⟨Address.filled 3, 5, [], [], [], 1, 1⟩
    processTrigger .plain (processTrigger .plain st d) d'
        = processTrigger .plain (processTrigger .plain st d') d
    ∧ processTrigger .plain (processTrigger .plain st (.withdrawal w)) (.withdrawal w')
        = processTrigger .plain (processTrigger .plain st (.withdrawal w')) (.withdrawal w)
    ∧ processTrigger .plain (processTrigger .plain st d) (.withdrawal w)
        = processTrigger .plain (processTrigger .plain st (.withdrawal w)) d := by
  obtain ⟨hdd, hww, hdw⟩ := independent_events_commute .plain [.createSplitCall
    ⟨[Address.filled 2, Address.filled 3], [500000, 500000], 0, Address.filled 1⟩]
  refine ⟨hdd _ _ rfl rfl, hww _ _ (by decide), hdw _ _ _ zeroAddress _ rfl (Or.inl ?_)⟩
  simp only [Withdrawal.Covers]
  decide

end SplitsSubgraph
