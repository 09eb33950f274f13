/-
SplitsSubgraph/ClosedForm.lean

The token rows in closed form.

Once the data of a split is known, the balance of one of its recipients in one token
depends on two kinds of actions only: distributions of the split in that token, each
of which adds a share computed from the amount, and withdrawals of the recipient
that cover the token, each of which settles the balance.  So the balance is a fold
over the actions that follow the call (`Ledger.tally`), whatever else happens in
between, and the fold has a closed form: what was distributed is the sum of the
shares, and what was claimed is the sum of the shares up to the last withdrawal.

`ledger_of_call` connects the fold to the runs of the handlers, for calls that list
an account more than once as well; `token_row_closed_form` reads it off the store
under the guarantees of SplitMain.
-/
import SplitsSubgraph.Integrity
import SplitsSubgraph.Bounds

namespace SplitsSubgraph

open KeyedTable Sweep Scaling

/-! ### One balance -/

section tally

variable {A H : Type} [DecidableEq A]

/-- The amount, if the action distributes token `t` from split `s`. -/
def Action.amountFor (s t : A) : Action A H → Option ℤ
  | .distribute s' t' amount => if s' = s ∧ t' = t then some amount else none
  | _ => none

/-- The action withdraws token `t` for account `r`. -/
def Action.covers (r t : A) : Action A H → Bool
  | .withdraw _ r' tokens _ => decide (r' = r ∧ t ∈ tokens)
  | _ => false

/-- The action brings in the data of split `s`. -/
def Action.creates (s : A) : Action A H → Bool
  | .create s' _ _ _ => decide (s' = s)
  | _ => false

namespace Ledger

/-- What an action does to the balance of `r` in token `t`, when split `s` credits it
with `share`. -/
def touch (share : ℤ → ℤ) (s r t : A) (b : Option Balance) (a : Action A H) : Option Balance :=
  match a.amountFor s t with
  | some amount => some ((b.getD Balance.zero).credit (share amount))
  | none => if a.covers r t then b.map Balance.settle else b

/-- The balance after a list of actions. -/
def tally (share : ℤ → ℤ) (s r t : A) (b : Option Balance) (actions : List (Action A H)) :
    Option Balance :=
  actions.foldl (touch share s r t) b

variable {share : ℤ → ℤ} {s r t : A} {b : Option Balance}

@[simp] theorem tally_nil : tally share s r t b ([] : List (Action A H)) = b := rfl

theorem tally_append (xs ys : List (Action A H)) :
    tally share s r t b (xs ++ ys) = tally share s r t (tally share s r t b xs) ys :=
  List.foldl_append

@[simp] theorem tally_concat (xs : List (Action A H)) (a : Action A H) :
    tally share s r t b (xs ++ [a]) = touch share s r t (tally share s r t b xs) a := by
  simp [tally]

/-- The row exists once there was a distribution. -/
theorem isSome_tally {actions : List (Action A H)} :
    (tally share s r t none actions).isSome ↔ actions.filterMap (Action.amountFor s t) ≠ [] := by
  induction actions using List.reverseRecOn with
  | nil => simp
  | append_singleton actions a ih =>
    rw [tally_concat, List.filterMap_append]
    cases e : a.amountFor s t with
    | some amount => simp [touch, e]
    | none =>
      simp only [touch, e, List.filterMap_cons_none e, List.filterMap_nil, List.append_nil]
      rw [← ih]
      split_ifs
      · rw [Option.isSome_map]
      · rfl

/-- What was distributed is the sum of the shares. -/
theorem distributed_tally (actions : List (Action A H)) :
    ((tally share s r t none actions).getD Balance.zero).distributed
      = ((actions.filterMap (Action.amountFor s t)).map share).sum := by
  induction actions using List.reverseRecOn with
  | nil => rfl
  | append_singleton actions a ih =>
    rw [tally_concat, List.filterMap_append, List.map_append, List.sum_append, ← ih]
    cases e : a.amountFor s t with
    | some amount => simp [touch, e, Balance.credit]
    | none =>
      simp only [touch, e, List.filterMap_cons_none e, List.filterMap_nil, List.map_nil,
        List.sum_nil, add_zero]
      split_ifs
      · cases tally share s r t none actions <;> rfl
      · rfl

/-- A withdrawal that covers the token claims everything distributed so far. -/
theorem claimed_touch_of_covers {a : Action A H} (ha : a.covers r t = true) :
    ((touch share s r t b a).getD Balance.zero).claimed
      = (b.getD Balance.zero).distributed := by
  cases a with
  | withdraw h r' tokens timestamp =>
    simp only [touch, Action.amountFor, ha, if_true]
    cases b <;> rfl
  | announce s' => simp [Action.covers] at ha
  | create s' fee accounts allocations => simp [Action.covers] at ha
  | distribute s' t' amount => simp [Action.covers] at ha

/-- Without such a withdrawal nothing is claimed. -/
theorem claimed_tally_of_not_covers {actions : List (Action A H)}
    (h : ∀ a ∈ actions, a.covers r t = false) :
    ((tally share s r t b actions).getD Balance.zero).claimed = (b.getD Balance.zero).claimed := by
  induction actions using List.reverseRecOn with
  | nil => rfl
  | append_singleton actions a ih =>
    have hlast := h a (by simp)
    rw [tally_concat, ← ih fun x hx => h x (List.mem_append_left _ hx), touch]
    cases e : a.amountFor s t with
    | some amount => rfl
    | none => simp [hlast]

/-- Without a distribution there is no row. -/
theorem tally_eq_none {actions : List (Action A H)}
    (h : actions.filterMap (Action.amountFor s t) = []) :
    tally share s r t none actions = none := by
  by_contra hne
  exact isSome_tally.mp (Option.isSome_iff_ne_none.mpr hne) h

/-! ### The balance of a known split -/

variable {L : Ledger A H} {credit : ℤ → ℤ → ℤ → ℤ} [DecidableEq H]

/-- The share of `r` in a distribution by a split with these data. -/
def shareOfData (credit : ℤ → ℤ → ℤ → ℤ) (fee : ℤ) (rs : List A) (allocation : Option ℤ) (r : A)
    (amount : ℤ) : ℤ :=
  rs.count r * credit fee (allocation.getD 0) amount

omit [DecidableEq H] in
theorem share_of_data {fee : ℤ} {rs : List A} (hd : L.data s = some (fee, rs)) (hr : r ∈ rs)
    (amount : ℤ) :
    L.share credit s r amount = some (shareOfData credit fee rs (L.allocations s r) r amount) := by
  simp only [Ledger.share, data_eq_some.mp hd, hr, if_true, shareOfData]

theorem data_step (credit : ℤ → ℤ → ℤ → ℤ) (keep : Bool) {fee : ℤ} {rs : List A}
    (hd : L.data s = some (fee, rs)) {a : Action A H} (ha : a.creates s = false) :
    (L.step credit keep a).data s = some (fee, rs) := by
  rcases step_splits credit keep L a s with e | ⟨-, -, hnone, -⟩ | ⟨_, _, _, rfl, -, -⟩
  · rw [data, e]
    exact hd
  · simp [data, hnone] at hd
  · simp [Action.creates] at ha

theorem allocations_step (credit : ℤ → ℤ → ℤ → ℤ) (keep : Bool) (L : Ledger A H)
    {a : Action A H} (ha : a.creates s = false) (r : A) :
    (L.step credit keep a).allocations s r = L.allocations s r := by
  rcases step_allocations credit keep L a s r with e | ⟨_, _, _, rfl, -, -, -⟩
  · exact e
  · simp [Action.creates] at ha

/-- Once the data of `s` is known, an action touches the balances of its recipients. -/
theorem balances_step (credit : ℤ → ℤ → ℤ → ℤ) (keep : Bool) (hv : L.Valid) {fee : ℤ}
    {rs : List A} (hd : L.data s = some (fee, rs)) (a : Action A H) (hr : r ∈ rs) (t : A) :
    (L.step credit keep a).balances s r t
      = touch (shareOfData credit fee rs (L.allocations s r) r) s r t (L.balances s r t) a := by
  cases a with
  | announce s' => simp [Ledger.step, touch, Action.amountFor, Action.covers]
  | create s' fee' accounts allocations =>
    simp [Ledger.step, touch, Action.amountFor, Action.covers]
  | distribute s' t' amount =>
    rw [Ledger.step, distribute_balances, touch]
    by_cases hkey : s = s' ∧ t = t'
    · obtain ⟨rfl, rfl⟩ := hkey
      simp [Action.amountFor, share_of_data hd hr, Balance.grow]
    · have hkey' : ¬ (s' = s ∧ t' = t) := fun h => hkey ⟨h.1.symm, h.2.symm⟩
      simp [Action.amountFor, Action.covers, hkey, hkey']
  | withdraw h r' tokens timestamp =>
    -- membership plays no part: what is owed to a recipient is owed by its splits
    rw [Ledger.step, hv.withdraw_balances, touch]
    by_cases hcov : r = r' ∧ t ∈ tokens
    · simp [Action.amountFor, Action.covers, hcov]
    · have hcov' : ¬ (r' = r ∧ t ∈ tokens) := fun h => hcov ⟨h.1.symm, h.2⟩
      simp only [Action.amountFor, Action.covers, hcov, hcov', if_false, decide_false]
      rfl

end Ledger

end tally

/-! ### Runs after a call -/

theorem creates_eq_false {s : Address} {trigger : Trigger} (h : trigger.created ≠ some s) :
    trigger.action.creates s = false := by
  cases trigger with
  | createSplitCall call => simpa [Trigger.created, Trigger.action, Action.creates] using h
  | createSplit event => rfl
  | distributeETH event => rfl
  | distributeERC20 event => rfl
  | withdrawal event => rfl

/-- **The ledger after a call** that ran to its end and is the only one for its
split: the data and the allocations of the split are those of the call, and each
balance of a recipient is the tally of what followed the call. -/
theorem ledger_of_call (m : SaveMode) {pre post : List Trigger} {call : CreateSplitCall}
    (hlen : call.accounts.length ≤ call.percentAllocations.length)
    (hpre : call.split ∉ createdSplits pre) (hpost : call.split ∉ createdSplits post) :
    let L := ledger m (pre ++ .createSplitCall call :: post)
    L.data call.split = some (call.distributorFee, call.accounts)
      ∧ (∀ r, L.allocations call.split r = lastAssoc call.accounts call.percentAllocations r)
      ∧ ∀ r ∈ call.accounts, ∀ t, L.balances call.split r t
          = Ledger.tally (Ledger.shareOfData creditOf call.distributorFee call.accounts
              (lastAssoc call.accounts call.percentAllocations r) r)
              call.split r t none (post.map Trigger.action) := by
  induction post using List.reverseRecOn with
  | nil =>
    -- nothing is known about the split before its call
    have hnone := allocations_eq_none m hpre
    rw [ledger_concat, Trigger.action, Ledger.step]
    refine ⟨?_, ?_, ?_⟩
    · simp [Ledger.data_create_of_le hlen]
    · intro r
      rw [Ledger.create_of_le hlen]
      by_cases hr : r ∈ call.accounts
      · simp [hr]
      · simp [hr, hnone r, lastAssoc_eq_none hr]
    · intro r hr t
      rw [Ledger.create_balances, List.map_nil, Ledger.tally_nil]
      exact (valid_ledger m pre).balances_eq_none (hnone r) t
  | append_singleton post trigger ih =>
    rw [createdSplits_append, List.mem_append, not_or] at hpost
    obtain ⟨hd, ha, hb⟩ := ih hpost.1
    have hcreates : trigger.action.creates call.split = false := by
      apply creates_eq_false
      intro e
      exact hpost.2 (by simp [createdSplits, e])
    have hrun : pre ++ .createSplitCall call :: (post ++ [trigger])
        = (pre ++ .createSplitCall call :: post) ++ [trigger] := by simp
    rw [hrun, ledger_concat]
    refine ⟨Ledger.data_step creditOf _ hd hcreates, ?_, ?_⟩
    · intro r
      rw [Ledger.allocations_step creditOf _ _ hcreates r, ha r]
    · intro r hr t
      rw [Ledger.balances_step creditOf _ (valid_ledger m _) hd _ hr t, hb r hr t, ha r,
        List.map_append]
      simp

/-! ### The token rows -/

/-- The amounts of the distributions of split `s` in token `t`, in order. -/
def distributedAmounts (s t : Address) (triggers : List Trigger) : List ℤ :=
  triggers.filterMap fun trigger =>
    trigger.distribution.bind fun d => if d.1 = s ∧ d.2.1 = t then some d.2.2 else none

theorem filterMap_amountFor (s t : Address) (triggers : List Trigger) :
    (triggers.map Trigger.action).filterMap (Action.amountFor s t)
      = distributedAmounts s t triggers := by
  rw [List.filterMap_map, distributedAmounts]
  apply List.filterMap_congr
  intro trigger _
  cases trigger <;> rfl

/-- The trigger is a withdrawal of account `r` that covers token `t`. -/
def Trigger.Claims (r t : Address) : Trigger → Prop
  | .withdrawal event => event.account = r ∧ event.Covers t
  | _ => False

theorem Trigger.covers_action_iff {r t : Address} {trigger : Trigger} :
    trigger.action.covers r t = true ↔ trigger.Claims r t := by
  cases trigger with
  | withdrawal event =>
    simp [Trigger.action, Action.covers, Trigger.Claims, Withdrawal.mem_covered]
  | createSplit event => simp [Trigger.action, Action.covers, Trigger.Claims]
  | createSplitCall call => simp [Trigger.action, Action.covers, Trigger.Claims]
  | distributeETH event => simp [Trigger.action, Action.covers, Trigger.Claims]
  | distributeERC20 event => simp [Trigger.action, Action.covers, Trigger.Claims]

theorem not_covers_of_not_claims {r t : Address} {triggers : List Trigger}
    (h : ∀ x ∈ triggers, ¬ x.Claims r t) :
    ∀ a ∈ triggers.map Trigger.action, a.covers r t = false := by
  intro a ha
  obtain ⟨trigger, htrigger, rfl⟩ := List.mem_map.mp ha
  rw [← Bool.not_eq_true, Trigger.covers_action_iff]
  exact h trigger htrigger

/-- The stored token row of split `s`, recipient `r` and token `t`. -/
def tokenRowOf (st : Store) (s r t : Address) : Option SplitRecipientToken :=
  st.splitRecipientTokens.lookup (splitRecipientTokenId s r t)

/-- Its `totalDistributed`, zero without a row. -/
def totalDistributedOf (st : Store) (s r t : Address) : ℤ :=
  ((tokenRowOf st s r t).bind SplitRecipientToken.totalDistributed).getD 0

/-- The numbers of the trigger are unsigned, as its ABI types `uint256` and `uint32`
say. -/
def Trigger.Unsigned : Trigger → Prop
  | .createSplitCall call => 0 ≤ call.distributorFee ∧ ∀ a ∈ call.percentAllocations, 0 ≤ a
  | .distributeETH event => 0 ≤ event.amount
  | .distributeERC20 event => 0 ≤ event.amount
  | _ => True

/-- What SplitMain guarantees of a run: calls as in `SplitMainCalls`, unsigned
numbers and fees of at most the whole. -/
structure SplitMainRun (triggers : List Trigger) : Prop extends SplitMainCalls triggers where
  unsigned : ∀ trigger ∈ triggers, trigger.Unsigned
  fee_le : ∀ call, .createSplitCall call ∈ triggers → call.distributorFee ≤ PERCENTAGE_SCALE

theorem distributedAmounts_nonneg {triggers : List Trigger}
    (h : ∀ trigger ∈ triggers, trigger.Unsigned) {s t : Address} :
    ∀ amount ∈ distributedAmounts s t triggers, 0 ≤ amount := by
  intro amount hmem
  obtain ⟨trigger, htrigger, e⟩ := List.mem_filterMap.mp hmem
  have hu := h trigger htrigger
  obtain ⟨⟨s', t', x⟩, hd, e⟩ := Option.bind_eq_some_iff.mp e
  split_ifs at e
  obtain rfl := Option.some.inj e
  cases trigger with
  | distributeETH event =>
    obtain ⟨-, -, rfl⟩ := Prod.mk.inj (Option.some.inj hd) |>.imp id Prod.mk.inj
    exact hu
  | distributeERC20 event =>
    obtain ⟨-, -, rfl⟩ := Prod.mk.inj (Option.some.inj hd) |>.imp id Prod.mk.inj
    exact hu
  | createSplit event => simp [Trigger.distribution] at hd
  | createSplitCall call => simp [Trigger.distribution] at hd
  | withdrawal event => simp [Trigger.distribution] at hd

/-- On unsigned numbers the credit is two divisions rounded down. -/
theorem creditOf_eq_floor {fee a amount : ℤ} (hf : 0 ≤ fee) (hf' : fee ≤ PERCENTAGE_SCALE)
    (ha : 0 ≤ a) (hamount : 0 ≤ amount) :
    creditOf fee a amount
      = (amount - amount * fee / PERCENTAGE_SCALE) * a / PERCENTAGE_SCALE := by
  have hscale : scaleAmountByPercentage amount fee = amount * fee / PERCENTAGE_SCALE :=
    scale_eq_ediv hamount hf
  have hleft : amountAfterFee amount fee = amount - amount * fee / PERCENTAGE_SCALE := by
    rw [amountAfterFee, hscale]
  rw [← hleft]
  exact scale_eq_ediv (amountAfterFee_nonneg hamount hf') ha

theorem Refines.tokenRowOf_eq {st : Store} {L : Ledger Address LogId} (h : Refines st L)
    (s r t : Address) : tokenRowOf st s r t = (L.balances s r t).map (encodeBalance s r t) :=
  h.lookup_token s r t

theorem Refines.totalDistributedOf_eq {st : Store} {L : Ledger Address LogId} (h : Refines st L)
    (s r t : Address) :
    totalDistributedOf st s r t = ((L.balances s r t).getD Balance.zero).distributed := by
  rw [totalDistributedOf, h.tokenRowOf_eq]
  cases L.balances s r t <;> rfl

theorem exists_call_of_mem_createdSplits {triggers : List Trigger} {s : Address}
    (h : s ∈ createdSplits triggers) :
    ∃ pre call post, triggers = pre ++ .createSplitCall call :: post ∧ call.split = s := by
  obtain ⟨trigger, hmem, e⟩ := List.mem_filterMap.mp h
  obtain ⟨pre, post, rfl⟩ := List.append_of_mem hmem
  cases trigger with
  | createSplitCall call => exact ⟨pre, call, post, rfl, Option.some.inj e⟩
  | createSplit event => simp [Trigger.created] at e
  | distributeETH event => simp [Trigger.created] at e
  | distributeERC20 event => simp [Trigger.created] at e
  | withdrawal event => simp [Trigger.created] at e

section closed_form

variable {pre post : List Trigger} {call : CreateSplitCall} {r t : Address}

/-- The balance of a recipient is the tally of what followed the call, with the
share that its allocation gives it. -/
theorem balances_of_call (m : SaveMode)
    (h : SplitMainCalls (pre ++ .createSplitCall call :: post)) {a : ℤ}
    (hr : (r, a) ∈ call.accounts.zip call.percentAllocations) (t : Address) :
    (ledger m (pre ++ .createSplitCall call :: post)).balances call.split r t
      = Ledger.tally (creditOf call.distributorFee a) call.split r t none
          (post.map Trigger.action) := by
  have hmem : Trigger.createSplitCall call ∈ pre ++ .createSplitCall call :: post := by simp
  have hacc : r ∈ call.accounts := (List.of_mem_zip hr).1
  obtain ⟨-, -, hb⟩ := ledger_of_call m (h.length call hmem).le h.notMem_pre h.notMem_post
  rw [hb r hacc t, lastAssoc_eq_of_mem_zip (h.distinct call hmem) hr]
  congr 1
  funext amount
  simp [Ledger.shareOfData, List.count_eq_one_of_mem (h.distinct call hmem) hacc]

/-- What is distributed: the sum of the credits since the call. -/
theorem totalDistributedOf_of_call (m : SaveMode)
    (h : SplitMainCalls (pre ++ .createSplitCall call :: post)) {a : ℤ}
    (hr : (r, a) ∈ call.accounts.zip call.percentAllocations) (t : Address) :
    totalDistributedOf (run m (pre ++ .createSplitCall call :: post)) call.split r t
      = ((distributedAmounts call.split t post).map (creditOf call.distributorFee a)).sum := by
  rw [(refines_run m _).totalDistributedOf_eq, balances_of_call m h hr t,
    Ledger.distributed_tally, filterMap_amountFor]

theorem tally_some_distributed {share : ℤ → ℤ} {s : Address} {b : Balance}
    (e : Ledger.tally share s r t none (post.map Trigger.action) = some b) :
    b.distributed = ((distributedAmounts s t post).map share).sum := by
  have hd : ((Ledger.tally share s r t none (post.map Trigger.action)).getD
      Balance.zero).distributed = _ := Ledger.distributed_tally (post.map Trigger.action)
  rwa [e, Option.getD_some, filterMap_amountFor] at hd

/-- The row exists iff there was a distribution after the call. -/
theorem tokenRowOf_isSome_iff (m : SaveMode) {triggers : List Trigger}
    (h : SplitMainCalls triggers) (s r t : Address) :
    (tokenRowOf (run m triggers) s r t).isSome ↔
      ∃ pre call post, triggers = pre ++ .createSplitCall call :: post ∧ call.split = s
        ∧ r ∈ call.accounts ∧ distributedAmounts s t post ≠ [] := by
  have hv := valid_ledger m triggers
  rw [(refines_run m triggers).tokenRowOf_eq, Option.isSome_map]
  constructor
  · intro hb
    have ha := hv.credited hb
    have hcreated : s ∈ createdSplits triggers := by
      by_contra hs
      simp [allocations_eq_none m hs r] at ha
    obtain ⟨pre, call, post, rfl, rfl⟩ := exists_call_of_mem_createdSplits hcreated
    have hlen := (h.length call (by simp)).le
    obtain ⟨-, hall, hbal⟩ := ledger_of_call m hlen h.notMem_pre h.notMem_post
    -- an account that the call does not list has no allocation
    have hr : r ∈ call.accounts := by
      by_contra hr
      rw [hall r, lastAssoc_eq_none hr] at ha
      simp at ha
    rw [hbal r hr t, Ledger.isSome_tally, filterMap_amountFor] at hb
    exact ⟨pre, call, post, rfl, rfl, hr, hb⟩
  · rintro ⟨pre, call, post, rfl, rfl, hr, hne⟩
    have hlen := (h.length call (by simp)).le
    obtain ⟨-, -, hbal⟩ := ledger_of_call m hlen h.notMem_pre h.notMem_post
    rw [hbal r hr t, Ledger.isSome_tally, filterMap_amountFor]
    exact hne

/-- What is claimed: everything distributed up to the last withdrawal. -/
theorem claimed_of_call (m : SaveMode) {mid rest : List Trigger} {w : Trigger} {a : ℤ}
    {b : Balance} (h : SplitMainCalls (pre ++ .createSplitCall call :: (mid ++ w :: rest)))
    (hr : (r, a) ∈ call.accounts.zip call.percentAllocations) (hw : w.Claims r t)
    (hrest : ∀ x ∈ rest, ¬ x.Claims r t)
    (eb : (ledger m (pre ++ .createSplitCall call :: (mid ++ w :: rest))).balances call.split r t
      = some b) :
    b.claimed
      = totalDistributedOf (run m (pre ++ .createSplitCall call :: mid)) call.split r t := by
  have hmid : SplitMainCalls (pre ++ .createSplitCall call :: mid) := by
    have h' : SplitMainCalls ((pre ++ .createSplitCall call :: mid) ++ w :: rest) := by
      simpa using h
    exact h'.append_left
  have hcovers : w.action.covers r t = true := Trigger.covers_action_iff.mpr hw
  -- cut the tally at the withdrawal
  rw [balances_of_call m h hr t, List.map_append, List.map_cons, ← List.singleton_append,
    ← List.append_assoc, Ledger.tally_append, Ledger.tally_concat] at eb
  calc b.claimed
      = ((some b).getD Balance.zero).claimed := rfl
    _ = ((Ledger.touch (creditOf call.distributorFee a) call.split r t
          (Ledger.tally (creditOf call.distributorFee a) call.split r t none
            (mid.map Trigger.action)) w.action).getD Balance.zero).claimed := by
        rw [← eb, Ledger.claimed_tally_of_not_covers (not_covers_of_not_claims hrest)]
    _ = ((Ledger.tally (creditOf call.distributorFee a) call.split r t none
          (mid.map Trigger.action)).getD Balance.zero).distributed :=
        Ledger.claimed_touch_of_covers hcovers
    _ = totalDistributedOf (run m (pre ++ .createSplitCall call :: mid)) call.split r t := by
        rw [(refines_run m _).totalDistributedOf_eq, balances_of_call m hmid hr t]

/-- **The token rows in closed form.**  In a run as SplitMain guarantees it, the row
of split `s`, recipient `r` and token `t` exists iff `s` was created with recipient
`r` and distributed `t` afterwards.  Then `totalDistributed` is the sum of the
shares of the later distributions, and `totalClaimed` is what `totalDistributed` was
at the last later withdrawal of `r` that covers `t`. -/
theorem token_row_closed_form (m : SaveMode) (triggers : List Trigger)
    (h : SplitMainRun triggers) (s r t : Address) :
    ((tokenRowOf (run m triggers) s r t).isSome ↔
      ∃ pre call post, triggers = pre ++ .createSplitCall call :: post ∧ call.split = s
        ∧ r ∈ call.accounts ∧ distributedAmounts s t post ≠ [])
    ∧ ∀ pre call post a row, triggers = pre ++ .createSplitCall call :: post → call.split = s →
      (r, a) ∈ call.accounts.zip call.percentAllocations →
      tokenRowOf (run m triggers) s r t = some row →
      row.totalDistributed = some ((distributedAmounts s t post).map fun amount =>
          (amount - amount * call.distributorFee / PERCENTAGE_SCALE) * a / PERCENTAGE_SCALE).sum
      ∧ ((∀ x ∈ post, ¬ x.Claims r t) → row.totalClaimed = some 0)
      ∧ ∀ mid w rest, post = mid ++ w :: rest → w.Claims r t → (∀ x ∈ rest, ¬ x.Claims r t) →
        row.totalClaimed
          = some (totalDistributedOf (run m (pre ++ .createSplitCall call :: mid)) s r t) := by
  refine ⟨tokenRowOf_isSome_iff m h.toSplitMainCalls s r t, ?_⟩
  rintro pre call post a row rfl rfl hr hrow
  have hcalls := h.toSplitMainCalls
  have hmem : Trigger.createSplitCall call ∈ pre ++ .createSplitCall call :: post := by simp
  rw [(refines_run m _).tokenRowOf_eq] at hrow
  obtain ⟨b, eb, rfl⟩ := Option.map_eq_some_iff.mp hrow
  have htally := (balances_of_call m hcalls hr t).symm.trans eb
  refine ⟨?_, ?_, ?_⟩
  · -- on unsigned numbers the shares are the floors
    have hu : 0 ≤ call.distributorFee ∧ ∀ a ∈ call.percentAllocations, 0 ≤ a :=
      h.unsigned _ hmem
    have ha : 0 ≤ a := hu.2 a (List.of_mem_zip hr).2
    refine congrArg some ((tally_some_distributed htally).trans ?_)
    refine congrArg List.sum (List.map_congr_left fun amount hamount => ?_)
    have hpost : ∀ trigger ∈ post, trigger.Unsigned := fun x hx => h.unsigned x (by simp [hx])
    exact creditOf_eq_floor hu.1 (h.fee_le call hmem) ha
      (distributedAmounts_nonneg hpost amount hamount)
  · intro hnot
    have hclaimed : ((Ledger.tally (creditOf call.distributorFee a) call.split r t none
        (post.map Trigger.action)).getD Balance.zero).claimed = _ :=
      Ledger.claimed_tally_of_not_covers (not_covers_of_not_claims hnot)
    rw [htally] at hclaimed
    exact congrArg some hclaimed
  · rintro mid w rest rfl hw hrest
    exact congrArg some (claimed_of_call m hcalls hr hw hrest eb)

end closed_form

section example_run

/-- Two recipients at 50% each and a fee of 10%. -/
def halvesCall : CreateSplitCall :=
  ⟨[Address.filled 2, Address.filled 3], [500000, 500000], 100000, Address.filled 1⟩

/-- The split distributes twice, and a recipient withdraws in between. -/
def halvesRun : List Trigger :=
  [ .createSplitCall halvesCall,
    .distributeETH ⟨Address.filled 1, 11⟩,
    .withdrawal ⟨Address.filled 2, 4, [], [], List.replicate 32 7, 0, 1⟩,
    .distributeETH ⟨Address.filled 1, 10⟩ ]

theorem splitMainRun_halvesRun : SplitMainRun halvesRun := by
  have hcall : ∀ call, .createSplitCall call ∈ halvesRun → call = halvesCall := by
    intro call hmem
    simpa [halvesRun] using hmem
  refine ⟨⟨by decide, ?_, ?_⟩, ?_, ?_⟩
  · intro call hmem
    rw [hcall call hmem]
    decide
  · intro call hmem
    rw [hcall call hmem]
    rfl
  · simp [halvesRun, halvesCall, Trigger.Unsigned]
  · intro call hmem
    rw [hcall call hmem]
    decide

theorem token_row_closed_form_halvesRun :
    ∃ row, tokenRowOf (run .plain halvesRun) (Address.filled 1) (Address.filled 2) zeroAddress
        = some row
      ∧ row.totalDistributed = some ([11, 10].map fun amount =>
          (amount - amount * 100000 / PERCENTAGE_SCALE) * 500000 / PERCENTAGE_SCALE).sum
      ∧ row.totalClaimed = some (totalDistributedOf (run .plain (halvesRun.take 2))
          (Address.filled 1) (Address.filled 2) zeroAddress) := by
  have hrow : tokenRowOf (run .plain halvesRun) (Address.filled 1) (Address.filled 2) zeroAddress
      = some ⟨some (splitRecipientId (Address.filled 1) (Address.filled 2)), some ZERO_ADDRESS,
          some 9, some 5⟩ := by decide +kernel
  obtain ⟨hd, -, hc⟩ := (token_row_closed_form .plain halvesRun splitMainRun_halvesRun
    (Address.filled 1) (Address.filled 2) zeroAddress).2 [] halvesCall halvesRun.tail 500000 _ rfl
    rfl (by decide) hrow
  refine ⟨_, hrow, hd, hc [.distributeETH ⟨Address.filled 1, 11⟩] _ _ rfl ?_ ?_⟩
  · simp [Trigger.Claims, Withdrawal.Covers]
  · simp [Trigger.Claims]

end example_run

end SplitsSubgraph
