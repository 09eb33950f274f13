/-
SplitsSubgraph/Bounds.lean

Signs and growth.  Nothing in the handlers looks at a sign, but as long as amounts
and allocations are not negative and no fee exceeds the whole, every share credited
is not negative.  So what was distributed to a balance only grows, what was claimed
follows it from below, and a withdrawal that pays out anything pays out a positive
amount.

Rows are never removed, whatever the triggers are.
-/
import SplitsSubgraph.Commute
import SplitsSubgraph.Lib.Scale

namespace SplitsSubgraph

open KeyedTable Sweep Scaling

/-! ### Shares -/

theorem percentageScale_pos : 0 < PERCENTAGE_SCALE := by decide

theorem amountAfterFee_nonneg {amount fee : ℤ} (ha : 0 ≤ amount) (hf : fee ≤ PERCENTAGE_SCALE) :
    0 ≤ amountAfterFee amount fee :=
  rest_nonneg percentageScale_pos ha hf

theorem creditOf_nonneg {fee allocation amount : ℤ} (hf : fee ≤ PERCENTAGE_SCALE)
    (hall : 0 ≤ allocation) (ha : 0 ≤ amount) : 0 ≤ creditOf fee allocation amount :=
  scaleRest_nonneg percentageScale_pos ha hf hall

/-! ### On the ledger -/

/-- The action only brings in fees that are `okFee` and numbers that are not
negative. -/
def Action.Admissible {A H : Type} (okFee : ℤ → Prop) : Action A H → Prop
  | .create _ fee _ allocations => okFee fee ∧ ∀ a ∈ allocations, 0 ≤ a
  | .distribute _ _ amount => 0 ≤ amount
  | _ => True

namespace Ledger

variable {A H : Type} [DecidableEq A]

/-- `L'` has a fact wherever `L` has one. -/
structure Extends (L L' : Ledger A H) : Prop where
  splits : ∀ s, (L.splits s).isSome → (L'.splits s).isSome
  memberships : ∀ r, (L.memberships r).isSome → (L'.memberships r).isSome
  allocations : ∀ s r, (L.allocations s r).isSome → (L'.allocations s r).isSome
  balances : ∀ s r t, (L.balances s r t).isSome → (L'.balances s r t).isSome
  history : ∀ h r, (L.history h r).isSome → (L'.history h r).isSome

omit [DecidableEq A] in
theorem Extends.refl (L : Ledger A H) : L.Extends L :=
  ⟨fun _ h => h, fun _ h => h, fun _ _ h => h, fun _ _ _ h => h, fun _ _ h => h⟩

/-- No action removes anything. -/
theorem Valid.extends_step [DecidableEq H] {L : Ledger A H} (hv : L.Valid)
    (credit : ℤ → ℤ → ℤ → ℤ) (keep : Bool) (a : Action A H) :
    L.Extends (L.step credit keep a) := by
  cases a with
  | announce s =>
    rw [Ledger.step]
    rcases announce_eq_or L keep s with h | ⟨-, h⟩
    · rw [h]
      exact Extends.refl L
    · rw [h]
      refine ⟨?_, fun _ h => h, fun _ _ h => h, fun _ _ _ h => h, fun _ _ h => h⟩
      intro s' hs'
      by_cases e : s' = s <;> simp [e, hs']
  | create s fee accounts allocations =>
    rw [Ledger.step]
    rcases Nat.lt_or_ge allocations.length accounts.length with hlen | hlen
    · rw [create_of_lt hlen]
      exact Extends.refl L
    · rw [create_of_le hlen]
      refine ⟨?_, ?_, ?_, fun _ _ _ h => h, fun _ _ h => h⟩
      · intro s' hs'
        by_cases e : s' = s <;> simp [e, hs']
      · intro r hr
        by_cases e : r ∈ accounts <;> simp [e, hr]
      · -- an allocation can be overwritten, not removed
        intro s' r hr
        dsimp only
        split_ifs with e
        · exact lastAssoc_isSome hlen e.2
        · exact hr
  | distribute s t amount =>
    refine ⟨by simp [Ledger.step], by simp [Ledger.step], by simp [Ledger.step], ?_,
      by simp [Ledger.step]⟩
    intro s' r t' hb
    rw [Ledger.step, distribute_balances]
    split_ifs
    · rcases L.share credit s r amount with - | x
      · exact hb
      · rfl
    · exact hb
  | withdraw h r tokens timestamp =>
    refine ⟨by simp [Ledger.step], by simp [Ledger.step], by simp [Ledger.step], ?_, ?_⟩
    · intro s r' t hb
      rw [Ledger.step, hv.withdraw_balances]
      split_ifs
      · rwa [Option.isSome_map]
      · exact hb
    · intro h' r' hh
      rw [Ledger.step, withdraw_history]
      split_ifs
      · rw [Option.isSome_or, hh, Bool.or_true]
      · exact hh

/-- Claims are covered by what was distributed. -/
structure Solvent (okFee : ℤ → Prop) (L : Ledger A H) : Prop where
  fee : ∀ {s fee rs}, L.splits s = some (some fee, rs) → okFee fee
  allocation : ∀ {s r a}, L.allocations s r = some a → 0 ≤ a
  balance : ∀ {s r t b}, L.balances s r t = some b → 0 ≤ b.claimed ∧ b.claimed ≤ b.distributed

omit [DecidableEq A] in
theorem solvent_empty (okFee : ℤ → Prop) : Solvent okFee (empty : Ledger A H) where
  fee := by simp [empty]
  allocation := by simp [empty]
  balance := by simp [empty]

section solvent

variable [DecidableEq H] {okFee : ℤ → Prop} {credit : ℤ → ℤ → ℤ → ℤ} {L : Ledger A H}

omit [DecidableEq H] in
theorem Solvent.share_nonneg (hs : L.Solvent okFee)
    (hcredit : ∀ {fee a x}, okFee fee → 0 ≤ a → 0 ≤ x → 0 ≤ credit fee a x) {s r : A}
    {amount x : ℤ} (hamount : 0 ≤ amount) (hx : L.share credit s r amount = some x) : 0 ≤ x := by
  unfold share at hx
  split at hx
  next fee rs e =>
    split_ifs at hx
    obtain rfl := Option.some.inj hx
    refine mul_nonneg (Int.natCast_nonneg _) (hcredit (hs.fee e) ?_ hamount)
    rcases ea : L.allocations s r with - | a
    · exact le_rfl
    · exact hs.allocation ea
  next => simp at hx

/-- What an admissible action does to a balance: both totals may grow. -/
theorem Solvent.step_balance (hs : L.Solvent okFee) (hv : L.Valid)
    (hcredit : ∀ {fee a x}, okFee fee → 0 ≤ a → 0 ≤ x → 0 ≤ credit fee a x) {keep : Bool}
    {a : Action A H} (ha : a.Admissible okFee) {s r t : A} {b' : Balance}
    (eb' : (L.step credit keep a).balances s r t = some b') :
    let b := (L.balances s r t).getD Balance.zero
    b.distributed ≤ b'.distributed ∧ b.claimed ≤ b'.claimed ∧ b'.claimed ≤ b'.distributed := by
  have hold : ∀ {b}, L.balances s r t = some b → 0 ≤ b.claimed ∧ b.claimed ≤ b.distributed :=
    fun eb => hs.balance eb
  cases a with
  | announce s' =>
    rw [step, announce_balances] at eb'
    simp [eb', (hold eb').2]
  | create s' fee accounts allocations =>
    rw [step, create_balances] at eb'
    simp [eb', (hold eb').2]
  | distribute s' t' amount =>
    rw [step, distribute_balances] at eb'
    split_ifs at eb'
    · rcases ex : L.share credit s' r amount with - | x
      · rw [ex, Balance.grow] at eb'
        simp [eb', (hold eb').2]
      · -- a credit: the share is not negative, and the claims stay as they are
        have hx := hs.share_nonneg hcredit ha ex
        rw [ex, Balance.grow] at eb'
        obtain rfl := Option.some.inj eb'
        rcases eb : L.balances s r t with - | b
        · simpa [Balance.zero, Balance.credit] using hx
        · have hb := (hold eb).2
          simp only [Option.getD_some, Balance.credit, le_refl, true_and]
          omega
    · simp [eb', (hold eb').2]
  | withdraw h r' tokens timestamp =>
    rw [step, hv.withdraw_balances] at eb'
    split_ifs at eb'
    · obtain ⟨b, eb, rfl⟩ := Option.map_eq_some_iff.mp eb'
      simpa [eb, Balance.settle] using (hold eb).2
    · simp [eb', (hold eb').2]

theorem Solvent.step (hs : L.Solvent okFee) (hv : L.Valid)
    (hcredit : ∀ {fee a x}, okFee fee → 0 ≤ a → 0 ≤ x → 0 ≤ credit fee a x) {keep : Bool}
    {a : Action A H} (ha : a.Admissible okFee) : (L.step credit keep a).Solvent okFee := by
  refine ⟨?_, ?_, ?_⟩
  · intro s fee rs e
    rcases step_splits credit keep L a s with
      e' | ⟨-, -, -, e'⟩ | ⟨fee', accounts, allocations, rfl, -, e'⟩
    · exact hs.fee (e'.symm.trans e)
    · simp [e'] at e
    · -- the fee is that of the action
      rw [e'] at e
      simp only [Option.some.injEq, Prod.mk.injEq] at e
      exact e.1 ▸ ha.1
  · intro s r x e
    rcases step_allocations credit keep L a s r with
      e' | ⟨fee, accounts, allocations, rfl, -, -, e'⟩
    · exact hs.allocation (e'.symm.trans e)
    · exact ha.2 x (mem_of_lastAssoc (e'.symm.trans e))
  · intro s r t b' eb'
    obtain ⟨-, hclaimed, hle⟩ := hs.step_balance hv hcredit ha eb'
    refine ⟨le_trans ?_ hclaimed, hle⟩
    rcases eb : L.balances s r t with - | b
    · exact le_rfl
    · exact (hs.balance eb).1

end solvent

end Ledger

/-! ### On the store -/

/-- Amounts and allocations are not negative, and a fee is at most the whole. -/
def Trigger.Bounded : Trigger → Prop
  | .createSplitCall call =>
    call.distributorFee ≤ PERCENTAGE_SCALE ∧ ∀ a ∈ call.percentAllocations, 0 ≤ a
  | .distributeETH event => 0 ≤ event.amount
  | .distributeERC20 event => 0 ≤ event.amount
  | _ => True

theorem Trigger.Bounded.admissible {trigger : Trigger} (h : trigger.Bounded) :
    trigger.action.Admissible (· ≤ PERCENTAGE_SCALE) := by
  cases trigger <;> exact h

theorem solvent_ledger (m : SaveMode) {triggers : List Trigger}
    (hok : ∀ trigger ∈ triggers, trigger.Bounded) :
    (ledger m triggers).Solvent (· ≤ PERCENTAGE_SCALE) := by
  induction triggers using List.reverseRecOn with
  | nil => exact Ledger.solvent_empty _
  | append_singleton triggers trigger ih =>
    rw [ledger_concat]
    have hlast := hok trigger (by simp)
    exact (ih fun t ht => hok t (List.mem_append_left _ ht)).step (valid_ledger m triggers)
      creditOf_nonneg hlast.admissible

/-- Both totals of the row are set, and `0 ≤ totalClaimed ≤ totalDistributed`. -/
def SplitRecipientToken.Covered (row : SplitRecipientToken) : Prop :=
  ∃ distributed claimed, row.totalDistributed = some distributed
    ∧ row.totalClaimed = some claimed ∧ 0 ≤ claimed ∧ claimed ≤ distributed

/-- Neither total of `row` is greater than that of `row'`. -/
def SplitRecipientToken.Grows (row row' : SplitRecipientToken) : Prop :=
  ∃ d c d' c', row.totalDistributed = some d ∧ row.totalClaimed = some c
    ∧ row'.totalDistributed = some d' ∧ row'.totalClaimed = some c' ∧ d ≤ d' ∧ c ≤ c'

/-- Every row of `st` is still there in `st'`, in each of the five tables. -/
structure Store.KeepsRows (st st' : Store) : Prop where
  splits : ∀ id, (st.splits.lookup id).isSome → (st'.splits.lookup id).isSome
  recipients : ∀ id, (st.recipients.lookup id).isSome → (st'.recipients.lookup id).isSome
  splitRecipients : ∀ id, (st.splitRecipients.lookup id).isSome →
    (st'.splitRecipients.lookup id).isSome
  splitRecipientTokens : ∀ id, (st.splitRecipientTokens.lookup id).isSome →
    (st'.splitRecipientTokens.lookup id).isSome
  splitRecipientWithdrawEvents : ∀ id, (st.splitRecipientWithdrawEvents.lookup id).isSome →
    (st'.splitRecipientWithdrawEvents.lookup id).isSome

section store

variable {st st' : Store} {L L' : Ledger Address LogId}

theorem Refines.keepsRows (h : Refines st L) (h' : Refines st' L') (hx : L.Extends L') :
    st.KeepsRows st' where
  splits := fun _ => h.splits.isSome_lookup h'.splits (by simpa using hx.splits)
  recipients := fun _ => h.recipients.isSome_lookup h'.recipients (by simpa using hx.memberships)
  splitRecipients := fun _ => h.splitRecipients.isSome_lookup h'.splitRecipients
    (by simpa using hx.allocations)
  splitRecipientTokens := fun _ => h.tokens.isSome_lookup h'.tokens (by simpa using hx.balances)
  splitRecipientWithdrawEvents := fun _ => h.history.isSome_lookup h'.history
    (by simpa using hx.history)

theorem Refines.covered {okFee : ℤ → Prop} (h : Refines st L) (hs : L.Solvent okFee) {id : String}
    {row : SplitRecipientToken} (e : st.splitRecipientTokens.lookup id = some row) :
    row.Covered := by
  obtain ⟨⟨s, r, t⟩, b, rfl, eb, rfl⟩ := h.tokens.exists_of_lookup e
  exact ⟨b.distributed, b.claimed, rfl, rfl, hs.balance eb⟩

theorem Refines.grows (h : Refines st L) (hv : L.Valid) (hs : L.Solvent (· ≤ PERCENTAGE_SCALE))
    (m : SaveMode) {trigger : Trigger} (hok : trigger.Bounded) {id : String}
    {row : SplitRecipientToken} (e : st.splitRecipientTokens.lookup id = some row) :
    ∃ row', (SplitsSubgraph.processTrigger m st trigger).splitRecipientTokens.lookup id = some row'
      ∧ row.Grows row' := by
  have h' := h.processTrigger hv m trigger
  obtain ⟨⟨s, r, t⟩, b, rfl, eb, rfl⟩ := h.tokens.exists_of_lookup e
  obtain ⟨b', eb'⟩ := Option.isSome_iff_exists.mp
    ((hv.extends_step creditOf m.keepsPartial trigger.action).balances s r t (by rw [eb]; rfl))
  obtain ⟨hd, hc, -⟩ := hs.step_balance hv creditOf_nonneg hok.admissible eb'
  rw [eb, Option.getD_some] at hd hc
  refine ⟨encodeBalance s r t b', ?_, b.distributed, b.claimed, b'.distributed, b'.claimed,
    rfl, rfl, rfl, rfl, hd, hc⟩
  rw [h'.tokens.lookup, eb', Option.map_some]

/-- Whatever a withdrawal records is positive. -/
theorem Refines.value_pos {okFee : ℤ → Prop} (h : Refines st L) (hs : L.Solvent okFee)
    (m : SaveMode) (event : Withdrawal) :
    ∃ host, invokeHandler m st (.withdrawal event) = .ok host ∧
      ∀ id row, .splitRecipientWithdrawEvent id row ∈ host.sets →
        ∃ value, row.value = some value ∧ 0 < value := by
  obtain ⟨host, hrun, hsets⟩ := h.withdrawal_sets m event
  refine ⟨host, hrun, ?_⟩
  intro id row hmem
  obtain ⟨-, ss, ⟨s, t⟩, -, hp, rfl⟩ := hsets id row hmem
  obtain ⟨-, hdue⟩ := mem_of_mem_firstVisits hp
  obtain ⟨b, eb, hne⟩ := Ledger.due_iff.mp hdue
  have hle := (hs.balance eb).2
  refine ⟨b.unclaimed, by simp [encodeEntry, Ledger.entryOf, eb], ?_⟩
  simp only [Balance.unclaimed] at hne ⊢
  omega

end store

/-- **Claimed never exceeds distributed, and both only grow**, in every run with
bounded triggers: whatever the order of the triggers, and also when calls repeat a
split or an account. -/
theorem totals_bounded_and_growing (m : SaveMode) (triggers : List Trigger)
    (hok : ∀ trigger ∈ triggers, trigger.Bounded) :
    (∀ id row, (run m triggers).splitRecipientTokens.lookup id = some row → row.Covered)
    ∧ ∀ pre trigger, pre ++ [trigger] <+: triggers →
      (∀ id row, (run m pre).splitRecipientTokens.lookup id = some row →
        ∃ row', (processTrigger m (run m pre) trigger).splitRecipientTokens.lookup id = some row'
          ∧ row.Grows row')
      ∧ (run m pre).KeepsRows (processTrigger m (run m pre) trigger)
      ∧ ∀ event, trigger = .withdrawal event →
        ∃ host, invokeHandler m (run m pre) trigger = .ok host ∧
          ∀ id row, .splitRecipientWithdrawEvent id row ∈ host.sets →
            ∃ value, row.value = some value ∧ 0 < value := by
  refine ⟨fun id row e => (refines_run m triggers).covered (solvent_ledger m hok) e, ?_⟩
  rintro pre trigger ⟨post, rfl⟩
  have h := refines_run m pre
  have hv := valid_ledger m pre
  have hs : (ledger m pre).Solvent (· ≤ PERCENTAGE_SCALE) :=
    solvent_ledger m fun t ht => hok t (by simp [ht])
  refine ⟨fun id row e => h.grows hv hs m (hok trigger (by simp)) e,
    h.keepsRows (h.processTrigger hv m trigger) (hv.extends_step _ _ _), ?_⟩
  rintro event rfl
  exact h.value_pos hs m event

theorem totals_bounded_and_growing_oneSplit :
    let triggers : List Trigger :=
      [ .createSplitCall
          ⟨[Address.filled 2, Address.filled 3], [500000, 500000], 100000, Address.filled 1⟩,
        .distributeETH ⟨Address.filled 1, 10⟩ ]
    let row : SplitRecipientToken :=
      ⟨some (splitRecipientId (Address.filled 1) (Address.filled 2)), some ZERO_ADDRESS, some 4,
        some 0⟩
    (run .plain triggers).splitRecipientTokens.lookup
        (splitRecipientTokenId (Address.filled 1) (Address.filled 2) zeroAddress) = some row
      ∧ row.Covered := by
  intro triggers row
  have hrow : (run .plain triggers).splitRecipientTokens.lookup
      (splitRecipientTokenId (Address.filled 1) (Address.filled 2) zeroAddress) = some row := by
    decide +kernel
  have hok : ∀ trigger ∈ triggers, trigger.Bounded := by
    simp [triggers, Trigger.Bounded, PERCENTAGE_SCALE]
  exact ⟨hrow, (totals_bounded_and_growing .plain triggers hok).1 _ row hrow⟩

end SplitsSubgraph
