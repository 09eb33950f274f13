/-
SplitsSubgraph/Ledger.lean

What the subgraph is for, without strings and without tables: a ledger of who is
owed what by which split.

The ledger knows, for each split, its fee (once it is known) and its recipients;
for each account, the splits it belongs to; for each split and account, the
allocation; for each split, account and token, what was distributed and what was
claimed; and the history of withdrawals, keyed by the event that recorded them.
Addresses are an arbitrary type `A`, events an arbitrary type `H`, and the share
that a distribution credits is an arbitrary function of fee, allocation and
amount.  Every operation is given by what it does at each key, so that disjoint
keys are independent by definition.

`Ledger.Valid` collects what holds in every ledger that the operations can
build, whatever their order; `Valid.step` is its step lemma.
-/
import SplitsSubgraph.Lib.Replay
import SplitsSubgraph.Lib.Sweep
import SplitsSubgraph.Lib.Table

namespace SplitsSubgraph

open KeyedTable Sweep

/-- What one account was credited with by one split in one token. -/
structure Balance where
  distributed : ℤ
  claimed : ℤ
deriving DecidableEq

namespace Balance

def unclaimed (b : Balance) : ℤ := b.distributed - b.claimed

def settle (b : Balance) : Balance := { b with claimed := b.distributed }

def credit (b : Balance) (share : ℤ) : Balance := { b with distributed := b.distributed + share }

def zero : Balance := ⟨0, 0⟩

/-- Settling changes exactly the balances with something left to claim. -/
theorem settle_eq_self_iff {b : Balance} : b.settle = b ↔ b.unclaimed = 0 := by
  rcases b with ⟨d, c⟩
  simp only [settle, unclaimed, Balance.mk.injEq, true_and]
  omega

theorem credit_credit (b : Balance) (x y : ℤ) : (b.credit x).credit y = b.credit (x + y) := by
  simp [credit, add_assoc]

/-- A balance that may not exist yet grows by a share that may not exist. -/
def grow (b : Option Balance) : Option ℤ → Option Balance
  | some x => some ((b.getD zero).credit x)
  | none => b

theorem grow_comm (b : Option Balance) (x y : Option ℤ) :
    grow (grow b x) y = grow (grow b y) x := by
  cases x with
  | none => rfl
  | some x =>
    cases y with
    | none => rfl
    | some y => simp [grow, credit_credit, add_comm]

end Balance

/-- A line of the withdrawal history. -/
structure Entry (A : Type) where
  split : A
  token : A
  value : ℤ
  timestamp : ℤ

/-- The abstract state. -/
@[ext] structure Ledger (A H : Type) where
  splits : A → Option (Option ℤ × List A)
  memberships : A → Option (List A)
  allocations : A → A → Option ℤ
  balances : A → A → A → Option Balance
  history : H → A → Option (Entry A)

/-- What can happen to a ledger. -/
inductive Action (A H : Type) where
  | announce (s : A)
  | create (s : A) (fee : ℤ) (accounts : List A) (allocations : List ℤ)
  | distribute (s t : A) (amount : ℤ)
  | withdraw (h : H) (r : A) (tokens : List A) (timestamp : ℤ)

/-- The event that an action records its payout under. -/
def Action.logId {A H : Type} : Action A H → Option H
  | .withdraw h _ _ _ => some h
  | _ => none

namespace Ledger

variable {A H : Type}

def empty : Ledger A H :=
  ⟨fun _ => none, fun _ => none, fun _ _ => none, fun _ _ _ => none, fun _ _ => none⟩

/-! ### Operations -/

variable [DecidableEq A]

/-- A split is announced before its data is known.  Whether the announcement is
recorded is up to the store (`keep`). -/
def announce (keep : Bool) (L : Ledger A H) (s : A) : Ledger A H :=
  if keep = true ∧ L.splits s = none then
    { L with splits := Function.update L.splits s (some (none, [])) }
  else L

/-- A split's data becomes known.  A list of allocations that is too short is
refused. -/
def create (L : Ledger A H) (s : A) (fee : ℤ) (accounts : List A) (allocations : List ℤ) :
    Ledger A H :=
  if accounts.length ≤ allocations.length then
    { L with
      splits := Function.update L.splits s (some (some fee, accounts))
      memberships := fun r =>
        if r ∈ accounts then
          some ((L.memberships r).getD [] ++ List.replicate (accounts.count r) s)
        else L.memberships r
      allocations := fun s' r =>
        if s' = s ∧ r ∈ accounts then lastAssoc accounts allocations r
        else L.allocations s' r }
  else L

/-- `amount` of token `t` is distributed by split `s`: every recipient is credited
once per time it is listed.  Nothing happens for a split without a fee. -/
def distribute (credit : ℤ → ℤ → ℤ → ℤ) (L : Ledger A H) (s t : A) (amount : ℤ) : Ledger A H :=
  match L.splits s with
  | some (some fee, rs) =>
    { L with
      balances := fun s' r t' =>
        if s' = s ∧ t' = t ∧ r ∈ rs then
          some (((L.balances s r t).getD Balance.zero).credit
            (rs.count r * credit fee ((L.allocations s r).getD 0) amount))
        else L.balances s' r t' }
  | _ => L

/-- Something is left to claim for `r` from split `p.1` in token `p.2`. -/
def due (L : Ledger A H) (r : A) (p : A × A) : Bool :=
  match L.balances p.1 r p.2 with
  | some b => decide (b.unclaimed ≠ 0)
  | none => false

/-- The (split, token) pairs a withdrawal of `r` pays out, in order. -/
def payouts (L : Ledger A H) (r : A) (ps : List (A × A)) : List (A × A) :=
  firstVisits (fun p => p) (L.due r) ps

/-- The history line for the payout of `p`. -/
def entryOf (L : Ledger A H) (r : A) (timestamp : ℤ) (p : A × A) : Entry A where
  split := p.1
  token := p.2
  value := ((L.balances p.1 r p.2).getD Balance.zero).unclaimed
  timestamp := timestamp

section runs

variable [DecidableEq H]

/-- Account `r` withdraws `tokens`: everything owed to it in these tokens is
claimed, and the last payout goes into the history. -/
def withdraw (L : Ledger A H) (h : H) (r : A) (tokens : List A) (timestamp : ℤ) : Ledger A H :=
  match L.memberships r with
  | none => L
  | some ss =>
    { L with
      balances := fun s r' t =>
        if r' = r ∧ s ∈ ss ∧ t ∈ tokens then (L.balances s r' t).map Balance.settle
        else L.balances s r' t
      history :=
        match (L.payouts r (pairs ss tokens)).getLast? with
        | none => L.history
        | some p => fun h' r' =>
          if h' = h ∧ r' = r then some (L.entryOf r timestamp p) else L.history h' r' }

def step (credit : ℤ → ℤ → ℤ → ℤ) (keep : Bool) (L : Ledger A H) : Action A H → Ledger A H
  | .announce s => L.announce keep s
  | .create s fee accounts allocations => L.create s fee accounts allocations
  | .distribute s t amount => L.distribute credit s t amount
  | .withdraw h r tokens timestamp => L.withdraw h r tokens timestamp

/-- The ledger after a list of actions. -/
def run (credit : ℤ → ℤ → ℤ → ℤ) (keep : Bool) (actions : List (Action A H)) : Ledger A H :=
  actions.foldl (step credit keep) empty

@[simp] theorem run_nil (credit : ℤ → ℤ → ℤ → ℤ) (keep : Bool) :
    run credit keep ([] : List (Action A H)) = empty := rfl

@[simp] theorem run_concat (credit : ℤ → ℤ → ℤ → ℤ) (keep : Bool) (actions : List (Action A H))
    (a : Action A H) :
    run credit keep (actions ++ [a]) = (run credit keep actions).step credit keep a := by
  simp [run]

end runs

/-! ### Frames -/

section frames

variable {credit : ℤ → ℤ → ℤ → ℤ} {keep : Bool} {L : Ledger A H}

theorem announce_eq_or (L : Ledger A H) (keep : Bool) (s : A) :
    L.announce keep s = L ∨ (L.splits s = none ∧
      L.announce keep s = { L with splits := Function.update L.splits s (some (none, [])) }) := by
  unfold announce
  split_ifs with h
  · exact Or.inr ⟨h.2, rfl⟩
  · exact Or.inl rfl

@[simp] theorem announce_memberships (s : A) :
    (L.announce keep s).memberships = L.memberships := by
  rcases announce_eq_or L keep s with h | ⟨-, h⟩ <;> rw [h]

@[simp] theorem announce_allocations (s : A) :
    (L.announce keep s).allocations = L.allocations := by
  rcases announce_eq_or L keep s with h | ⟨-, h⟩ <;> rw [h]

@[simp] theorem announce_balances (s : A) : (L.announce keep s).balances = L.balances := by
  rcases announce_eq_or L keep s with h | ⟨-, h⟩ <;> rw [h]

@[simp] theorem announce_history (s : A) : (L.announce keep s).history = L.history := by
  rcases announce_eq_or L keep s with h | ⟨-, h⟩ <;> rw [h]

theorem create_of_le {s : A} {fee : ℤ} {accounts : List A} {allocations : List ℤ}
    (hlen : accounts.length ≤ allocations.length) :
    L.create s fee accounts allocations =
      { L with
        splits := Function.update L.splits s (some (some fee, accounts))
        memberships := fun r =>
          if r ∈ accounts then
            some ((L.memberships r).getD [] ++ List.replicate (accounts.count r) s)
          else L.memberships r
        allocations := fun s' r =>
          if s' = s ∧ r ∈ accounts then lastAssoc accounts allocations r
          else L.allocations s' r } := by
  rw [create, if_pos hlen]

theorem create_of_lt {s : A} {fee : ℤ} {accounts : List A} {allocations : List ℤ}
    (hlen : allocations.length < accounts.length) :
    L.create s fee accounts allocations = L := by
  rw [create, if_neg (by omega)]

@[simp] theorem create_balances (s : A) (fee : ℤ) (accounts : List A) (allocations : List ℤ) :
    (L.create s fee accounts allocations).balances = L.balances := by
  unfold create
  split_ifs <;> rfl

@[simp] theorem create_history (s : A) (fee : ℤ) (accounts : List A) (allocations : List ℤ) :
    (L.create s fee accounts allocations).history = L.history := by
  unfold create
  split_ifs <;> rfl

theorem distribute_of_fee {s t : A} {amount fee : ℤ} {rs : List A}
    (e : L.splits s = some (some fee, rs)) :
    L.distribute credit s t amount =
      { L with
        balances := fun s' r t' =>
          if s' = s ∧ t' = t ∧ r ∈ rs then
            some (((L.balances s r t).getD Balance.zero).credit
              (rs.count r * credit fee ((L.allocations s r).getD 0) amount))
          else L.balances s' r t' } := by
  simp only [distribute, e]

theorem distribute_of_no_fee {s t : A} {amount : ℤ}
    (e : ∀ fee rs, L.splits s ≠ some (some fee, rs)) :
    L.distribute credit s t amount = L := by
  unfold distribute
  split
  next fee rs h => exact absurd h (e fee rs)
  next => rfl

/-- A distribution changes balances only. -/
theorem distribute_frame (s t : A) (amount : ℤ) :
    (L.distribute credit s t amount).splits = L.splits
      ∧ (L.distribute credit s t amount).memberships = L.memberships
      ∧ (L.distribute credit s t amount).allocations = L.allocations
      ∧ (L.distribute credit s t amount).history = L.history := by
  unfold distribute
  split <;> exact ⟨rfl, rfl, rfl, rfl⟩

@[simp] theorem distribute_splits (s t : A) (amount : ℤ) :
    (L.distribute credit s t amount).splits = L.splits := (distribute_frame s t amount).1

@[simp] theorem distribute_memberships (s t : A) (amount : ℤ) :
    (L.distribute credit s t amount).memberships = L.memberships :=
  (distribute_frame s t amount).2.1

@[simp] theorem distribute_allocations (s t : A) (amount : ℤ) :
    (L.distribute credit s t amount).allocations = L.allocations :=
  (distribute_frame s t amount).2.2.1

@[simp] theorem distribute_history (s t : A) (amount : ℤ) :
    (L.distribute credit s t amount).history = L.history :=
  (distribute_frame s t amount).2.2.2

variable [DecidableEq H]

/-- A withdrawal changes balances and history only. -/
theorem withdraw_frame (h : H) (r : A) (tokens : List A) (timestamp : ℤ) :
    (L.withdraw h r tokens timestamp).splits = L.splits
      ∧ (L.withdraw h r tokens timestamp).memberships = L.memberships
      ∧ (L.withdraw h r tokens timestamp).allocations = L.allocations := by
  unfold withdraw
  split <;> exact ⟨rfl, rfl, rfl⟩

@[simp] theorem withdraw_splits (h : H) (r : A) (tokens : List A) (timestamp : ℤ) :
    (L.withdraw h r tokens timestamp).splits = L.splits := (withdraw_frame h r tokens timestamp).1

@[simp] theorem withdraw_memberships (h : H) (r : A) (tokens : List A) (timestamp : ℤ) :
    (L.withdraw h r tokens timestamp).memberships = L.memberships :=
  (withdraw_frame h r tokens timestamp).2.1

@[simp] theorem withdraw_allocations (h : H) (r : A) (tokens : List A) (timestamp : ℤ) :
    (L.withdraw h r tokens timestamp).allocations = L.allocations :=
  (withdraw_frame h r tokens timestamp).2.2

/-- What an action can do to a split: nothing, announce it or bring in its data. -/
theorem step_splits (credit : ℤ → ℤ → ℤ → ℤ) (keep : Bool) (L : Ledger A H) (a : Action A H)
    (s : A) :
    (L.step credit keep a).splits s = L.splits s
    ∨ (a = .announce s ∧ keep = true ∧ L.splits s = none
        ∧ (L.step credit keep a).splits s = some (none, []))
    ∨ ∃ fee accounts allocations, a = .create s fee accounts allocations
        ∧ accounts.length ≤ allocations.length
        ∧ (L.step credit keep a).splits s = some (some fee, accounts) := by
  cases a with
  | announce s' =>
    simp only [step, announce]
    split_ifs with hnew
    · by_cases hs : s = s'
      · subst hs
        exact Or.inr (Or.inl ⟨rfl, hnew.1, hnew.2, Function.update_self ..⟩)
      · exact Or.inl (Function.update_of_ne hs ..)
    · exact Or.inl rfl
  | create s' fee accounts allocations =>
    simp only [step, create]
    split_ifs with hlen
    · by_cases hs : s = s'
      · subst hs
        exact Or.inr (Or.inr ⟨fee, accounts, allocations, rfl, hlen, Function.update_self ..⟩)
      · exact Or.inl (Function.update_of_ne hs ..)
    · exact Or.inl rfl
  | distribute s' t amount => exact Or.inl (congrFun (distribute_splits s' t amount) s)
  | withdraw h r tokens timestamp =>
    exact Or.inl (congrFun (withdraw_splits h r tokens timestamp) s)

/-- An action leaves an allocation alone or brings it in with the data of the split. -/
theorem step_allocations (credit : ℤ → ℤ → ℤ → ℤ) (keep : Bool) (L : Ledger A H)
    (a : Action A H) (s r : A) :
    (L.step credit keep a).allocations s r = L.allocations s r
    ∨ ∃ fee accounts allocations, a = .create s fee accounts allocations
        ∧ accounts.length ≤ allocations.length ∧ r ∈ accounts
        ∧ (L.step credit keep a).allocations s r = lastAssoc accounts allocations r := by
  cases a with
  | announce s' => exact Or.inl (congrFun₂ (announce_allocations s') s r)
  | create s' fee accounts allocations =>
    simp only [step, create]
    split_ifs with hlen
    · by_cases hif : s = s' ∧ r ∈ accounts
      · obtain ⟨rfl, hr⟩ := hif
        exact Or.inr ⟨fee, accounts, allocations, rfl, hlen, hr, by simp [hr]⟩
      · exact Or.inl (if_neg hif)
    · exact Or.inl rfl
  | distribute s' t amount => exact Or.inl (congrFun₂ (distribute_allocations s' t amount) s r)
  | withdraw h r' tokens timestamp =>
    exact Or.inl (congrFun₂ (withdraw_allocations h r' tokens timestamp) s r)

end frames

/-! ### Key by key -/

section pointwise

variable {credit : ℤ → ℤ → ℤ → ℤ} {L L' : Ledger A H}

/-- What a distribution of `amount` by `s` adds to the balance of `r`, if it
credits `r` at all. -/
def share (credit : ℤ → ℤ → ℤ → ℤ) (L : Ledger A H) (s r : A) (amount : ℤ) : Option ℤ :=
  match L.splits s with
  | some (some fee, rs) =>
    if r ∈ rs then some (rs.count r * credit fee ((L.allocations s r).getD 0) amount) else none
  | _ => none

/-- Shares are read off the splits and the allocations alone. -/
theorem share_congr (hs : L.splits = L'.splits) (ha : L.allocations = L'.allocations) :
    share credit L = share credit L' := by
  funext s r amount
  rw [share, share, hs, ha]

theorem distribute_balances (s t : A) (amount : ℤ) (s' r t' : A) :
    (L.distribute credit s t amount).balances s' r t' =
      if s' = s ∧ t' = t then Balance.grow (L.balances s' r t') (L.share credit s r amount)
      else L.balances s' r t' := by
  by_cases hfee : ∃ fee rs, L.splits s = some (some fee, rs)
  · obtain ⟨fee, rs, e⟩ := hfee
    rw [distribute_of_fee e]
    by_cases hkey : s' = s ∧ t' = t
    · obtain ⟨rfl, rfl⟩ := hkey
      by_cases hr : r ∈ rs <;> simp [share, e, hr, Balance.grow]
    · have hkey' : ¬ (s' = s ∧ t' = t ∧ r ∈ rs) := fun h => hkey ⟨h.1, h.2.1⟩
      simp only [hkey, hkey', if_false]
  · have hnone : L.share credit s r amount = none := by
      unfold share
      split
      next fee rs e => exact absurd ⟨fee, rs, e⟩ hfee
      next => rfl
    rw [distribute_of_no_fee (fun fee rs e => hfee ⟨fee, rs, e⟩), hnone, Balance.grow, ite_self]

/-- The history line a withdrawal leaves, if it pays out anything: its last
payout. -/
def lastPayout (L : Ledger A H) (r : A) (tokens : List A) (timestamp : ℤ) : Option (Entry A) :=
  (L.memberships r).bind fun ss =>
    (L.payouts r (pairs ss tokens)).getLast?.map (L.entryOf r timestamp)

/-- Only the account's own balances in the tokens withdrawn matter. -/
theorem lastPayout_congr {r : A} {tokens : List A} (hm : L.memberships r = L'.memberships r)
    (hb : ∀ s, ∀ t ∈ tokens, L.balances s r t = L'.balances s r t) (timestamp : ℤ) :
    L.lastPayout r tokens timestamp = L'.lastPayout r tokens timestamp := by
  rw [lastPayout, lastPayout, hm]
  apply Option.bind_congr
  intro ss _
  have hpay : L.payouts r (pairs ss tokens) = L'.payouts r (pairs ss tokens) := by
    apply firstVisits_congr
    rintro ⟨s, t⟩ hp
    simp only [due, hb s t (mem_pairs.mp hp).2]
  rw [hpay]
  rcases elast : (L'.payouts r (pairs ss tokens)).getLast? with - | ⟨s, t⟩
  · rfl
  · obtain ⟨hp, -⟩ := mem_of_mem_firstVisits (List.mem_of_getLast? elast)
    simp only [Option.map_some, entryOf, hb s t (mem_pairs.mp hp).2]

omit [DecidableEq A] in
theorem due_iff {r : A} {p : A × A} :
    L.due r p = true ↔ ∃ b, L.balances p.1 r p.2 = some b ∧ b.unclaimed ≠ 0 := by
  rcases e : L.balances p.1 r p.2 with - | b <;> simp [due, e]

/-- The last payout is of a balance that was due. -/
theorem lastPayout_eq_some {r : A} {tokens : List A} {timestamp : ℤ} {e : Entry A}
    (h : L.lastPayout r tokens timestamp = some e) :
    e.token ∈ tokens ∧ e.timestamp = timestamp ∧
      ∃ b, L.balances e.split r e.token = some b ∧ b.unclaimed ≠ 0 ∧ e.value = b.unclaimed := by
  obtain ⟨ss, -, h⟩ := Option.bind_eq_some_iff.mp h
  obtain ⟨⟨s, t⟩, hlast, rfl⟩ := Option.map_eq_some_iff.mp h
  obtain ⟨hp, hdue⟩ := mem_of_mem_firstVisits (List.mem_of_getLast? hlast)
  refine ⟨(mem_pairs.mp hp).2, rfl, ?_⟩
  obtain ⟨b, eb, hne⟩ := due_iff.mp hdue
  exact ⟨b, eb, hne, by simp [entryOf, eb]⟩

/-- How much of what `r` is paid by `s` in token `t` the history line of a
withdrawal accounts for. -/
def recordedPayout (L : Ledger A H) (r : A) (tokens : List A) (timestamp : ℤ) (s t : A) : ℤ :=
  match L.lastPayout r tokens timestamp with
  | some e => if e.split = s ∧ e.token = t then e.value else 0
  | none => 0

theorem withdraw_history [DecidableEq H] (h : H) (r : A) (tokens : List A) (timestamp : ℤ)
    (h' : H) (r' : A) :
    (L.withdraw h r tokens timestamp).history h' r' =
      if h' = h ∧ r' = r then (L.lastPayout r tokens timestamp).or (L.history h' r')
      else L.history h' r' := by
  rcases em : L.memberships r with - | ss
  · simp [withdraw, lastPayout, em]
  · rcases elast : (L.payouts r (pairs ss tokens)).getLast? with - | p
    · simp [withdraw, lastPayout, em, elast]
    · simp [withdraw, lastPayout, em, elast]

/-- Only a withdrawal writes to the history, and only under its own event. -/
theorem step_history_of_ne [DecidableEq H] {keep : Bool} {a : Action A H} {h : H}
    (hne : a.logId ≠ some h) (r : A) :
    (L.step credit keep a).history h r = L.history h r := by
  cases a with
  | announce s => simp [step]
  | create s fee accounts allocations => simp [step]
  | distribute s t amount => simp [step]
  | withdraw h' r' tokens timestamp =>
    have hh : h ≠ h' := fun e => hne (by rw [e]; rfl)
    rw [step, withdraw_history, if_neg fun hc => hh hc.1]

/-- Only a withdrawal raises what is claimed; a new balance starts with nothing
claimed. -/
theorem step_claimed [DecidableEq H] {keep : Bool} {a : Action A H} (ha : a.logId = none)
    {s r t : A} {b : Balance} (eb : (L.step credit keep a).balances s r t = some b) :
    b.claimed = ((L.balances s r t).getD Balance.zero).claimed := by
  cases a with
  | announce s' =>
    rw [step, announce_balances] at eb
    rw [eb, Option.getD_some]
  | create s' fee accounts allocations =>
    rw [step, create_balances] at eb
    rw [eb, Option.getD_some]
  | distribute s' t' amount =>
    rw [step, distribute_balances] at eb
    split_ifs at eb
    · rcases ex : L.share credit s' r amount with - | x
      · rw [ex, Balance.grow] at eb
        rw [eb, Option.getD_some]
      · rw [ex, Balance.grow] at eb
        obtain rfl := Option.some.inj eb
        rfl
    · rw [eb, Option.getD_some]
  | withdraw h r' tokens timestamp => simp [Action.logId] at ha

/-- Every line of the history was recorded by an action of the run. -/
theorem mem_logIds_of_history [DecidableEq H] {keep : Bool} {actions : List (Action A H)} {h : H}
    {r : A} {e : Entry A} (he : (run credit keep actions).history h r = some e) :
    h ∈ actions.filterMap Action.logId := by
  have hsome : ((run credit keep actions).history h r).isSome := by rw [he]; rfl
  obtain ⟨L, a, ha, hbefore, hafter⟩ :=
    Replay.exists_cause (Q := fun L : Ledger A H => (L.history h r).isSome) (by simp [empty]) hsome
  by_contra hlog
  have hne : a.logId ≠ some h := fun e => hlog (List.mem_filterMap.mpr ⟨a, ha, e⟩)
  rw [step_history_of_ne hne] at hafter
  exact hbefore hafter

end pointwise

/-! ### What holds in every ledger -/

/-- The relations between the parts of a ledger that every operation keeps. -/
structure Valid (L : Ledger A H) : Prop where
  /-- the recipients of a split have allocations -/
  listed : ∀ {s f rs r}, L.splits s = some (f, rs) → r ∈ rs → (L.allocations s r).isSome
  /-- a split without a fee has no recipients yet -/
  unpriced : ∀ {s rs}, L.splits s = some (none, rs) → rs = []
  /-- an allocation belongs to a split whose data is known -/
  priced : ∀ {s r}, (L.allocations s r).isSome → ∃ fee rs, L.splits s = some (some fee, rs)
  /-- an account is a member of exactly the splits it has an allocation in -/
  member : ∀ {s r}, (L.allocations s r).isSome ↔ ∃ ss, L.memberships r = some ss ∧ s ∈ ss
  /-- only recipients have balances -/
  credited : ∀ {s r t}, (L.balances s r t).isSome → (L.allocations s r).isSome
  /-- the history is about existing balances -/
  recorded : ∀ {h r e}, L.history h r = some e → (L.balances e.split r e.token).isSome

omit [DecidableEq A] in
theorem valid_empty : Valid (empty : Ledger A H) where
  listed := by simp [empty]
  unpriced := by simp [empty]
  priced := by simp [empty]
  member := by simp [empty]
  credited := by simp [empty]
  recorded := by simp [empty]

namespace Valid

variable {L : Ledger A H} {credit : ℤ → ℤ → ℤ → ℤ}

omit [DecidableEq A] in
/-- Without an allocation there is no balance. -/
theorem balances_eq_none (hv : L.Valid) {s r : A} (h : L.allocations s r = none) (t : A) :
    L.balances s r t = none := by
  by_contra hne
  have ha := hv.credited (Option.isSome_iff_ne_none.mpr hne)
  simp [h] at ha

theorem announce (hv : L.Valid) (keep : Bool) (s : A) : (L.announce keep s).Valid := by
  rcases announce_eq_or L keep s with h | ⟨hnone, h⟩
  · rw [h]
    exact hv
  · rw [h]
    refine ⟨?_, ?_, ?_, hv.member, hv.credited, hv.recorded⟩
    · intro s' f rs r e hr
      by_cases hs : s' = s
      · subst hs
        simp only [Function.update_self, Option.some.injEq, Prod.mk.injEq] at e
        rw [← e.2] at hr
        exact absurd hr List.not_mem_nil
      · simp only [Function.update_of_ne hs] at e
        exact hv.listed e hr
    · intro s' rs e
      by_cases hs : s' = s
      · subst hs
        simp only [Function.update_self, Option.some.injEq, Prod.mk.injEq] at e
        exact e.2.symm
      · simp only [Function.update_of_ne hs] at e
        exact hv.unpriced e
    · intro s' r ha
      -- a split with an allocation already has a row
      obtain ⟨fee, rs, e⟩ := hv.priced ha
      have hs : s' ≠ s := by
        rintro rfl
        simp [hnone] at e
      exact ⟨fee, rs, by simp only [Function.update_of_ne hs, e]⟩

theorem create (hv : L.Valid) (s : A) (fee : ℤ) (accounts : List A) (allocations : List ℤ) :
    (L.create s fee accounts allocations).Valid := by
  rcases Nat.lt_or_ge allocations.length accounts.length with hlen | hlen
  · rw [create_of_lt hlen]
    exact hv
  · rw [create_of_le hlen]
    have hgrow : ∀ {s' r}, (L.allocations s' r).isSome →
        (if s' = s ∧ r ∈ accounts then lastAssoc accounts allocations r
          else L.allocations s' r).isSome := by
      intro s' r ha
      split_ifs with h
      · exact lastAssoc_isSome hlen h.2
      · exact ha
    refine ⟨?_, ?_, ?_, ?_, ?_, hv.recorded⟩
    · intro s' f rs r e hr
      by_cases hs : s' = s
      · subst hs
        simp only [Function.update_self, Option.some.injEq, Prod.mk.injEq] at e
        obtain ⟨-, rfl⟩ := e
        simp only [true_and, if_pos hr]
        exact lastAssoc_isSome hlen hr
      · simp only [Function.update_of_ne hs] at e
        exact hgrow (hv.listed e hr)
    · intro s' rs e
      by_cases hs : s' = s
      · subst hs
        simp at e
      · simp only [Function.update_of_ne hs] at e
        exact hv.unpriced e
    · intro s' r ha
      by_cases hs : s' = s
      · subst hs
        exact ⟨fee, accounts, by simp⟩
      · simp only [hs, false_and, if_false] at ha
        obtain ⟨fee', rs, e⟩ := hv.priced ha
        exact ⟨fee', rs, by simp only [Function.update_of_ne hs, e]⟩
    · -- membership and allocations are extended by the same accounts
      intro s' r
      by_cases hr : r ∈ accounts
      · simp only [hr, and_true, if_true, Option.some.injEq, exists_eq_left', List.mem_append,
          List.mem_replicate]
        have hcount : accounts.count r ≠ 0 := by
          simpa [List.count_eq_zero] using hr
        by_cases hs : s' = s
        · simp only [hs, if_true, hcount, ne_eq, not_false_eq_true, and_self, or_true, iff_true]
          exact lastAssoc_isSome hlen hr
        · simp only [hs, if_false, and_false, or_false]
          rw [hv.member]
          rcases e : L.memberships r with - | ss <;> simp
      · simp only [hr, and_false, if_false]
        exact hv.member
    · intro s' r t hb
      exact hgrow (hv.credited hb)

theorem distribute (hv : L.Valid) (s t : A) (amount : ℤ) :
    (L.distribute credit s t amount).Valid := by
  by_cases hfee : ∃ fee rs, L.splits s = some (some fee, rs)
  · obtain ⟨fee, rs, e⟩ := hfee
    rw [distribute_of_fee e]
    refine ⟨hv.listed, hv.unpriced, hv.priced, hv.member, ?_, ?_⟩
    · intro s' r t' hb
      dsimp only at hb
      split_ifs at hb with h
      · obtain ⟨rfl, rfl, hr⟩ := h
        exact hv.listed e hr
      · exact hv.credited hb
    · intro h r entry hh
      dsimp only
      split_ifs with hif
      · rfl
      · exact hv.recorded hh
  · rw [distribute_of_no_fee (fun fee rs e => hfee ⟨fee, rs, e⟩)]
    exact hv

/-- Everything owed to `r` is owed by a split it is a member of, so membership may
be left out of the effect of a withdrawal. -/
theorem withdraw_balances [DecidableEq H] (hv : L.Valid) (h : H) (r : A) (tokens : List A)
    (timestamp : ℤ) (s r' t : A) :
    (L.withdraw h r tokens timestamp).balances s r' t =
      if r' = r ∧ t ∈ tokens then (L.balances s r' t).map Balance.settle
      else L.balances s r' t := by
  have hmember : ∀ b, L.balances s r t = some b → ∃ ss, L.memberships r = some ss ∧ s ∈ ss := by
    intro b hb
    exact hv.member.mp (hv.credited (t := t) (by simp [hb]))
  by_cases hcond : r' = r ∧ t ∈ tokens
  · obtain ⟨rfl, ht⟩ := hcond
    rcases eb : L.balances s r' t with - | b
    · rw [Option.map_none, ite_self]
      rcases em : L.memberships r' with - | ss
      · simp only [Ledger.withdraw, em, eb]
      · simp only [Ledger.withdraw, em, eb, Option.map_none, ite_self]
    · obtain ⟨ss, em, hs⟩ := hmember b eb
      simp [Ledger.withdraw, em, eb, hs, ht]
  · rw [if_neg hcond]
    rcases em : L.memberships r with - | ss
    · simp only [Ledger.withdraw, em]
    · have hcond' : ¬ (r' = r ∧ s ∈ ss ∧ t ∈ tokens) := fun hh => hcond ⟨hh.1, hh.2.2⟩
      simp only [Ledger.withdraw, em, hcond', if_false]

/-- A withdrawal that pays out nothing found nothing due. -/
theorem unclaimed_eq_zero (hv : L.Valid) {r : A} {tokens : List A} {timestamp : ℤ}
    (h : L.lastPayout r tokens timestamp = none) {s t : A} {b : Balance}
    (eb : L.balances s r t = some b) (ht : t ∈ tokens) : b.unclaimed = 0 := by
  obtain ⟨ss, em, hs⟩ := hv.member.mp (hv.credited (by rw [eb]; rfl))
  rw [lastPayout, em, Option.bind_some, Option.map_eq_none_iff, List.getLast?_eq_none_iff,
    payouts, firstVisits_eq_nil_iff] at h
  by_contra hne
  have hdue : L.due r (s, t) = true := due_iff.mpr ⟨b, eb, hne⟩
  rw [h (s, t) (mem_pairs.mpr ⟨hs, ht⟩)] at hdue
  exact absurd hdue Bool.false_ne_true

/-- The history line accounts for every payout exactly when there is at most one. -/
theorem unclaimed_eq_recordedPayout_iff (hv : L.Valid) (r : A) (tokens : List A) (timestamp : ℤ) :
    (∀ s t b, t ∈ tokens → L.balances s r t = some b →
        b.unclaimed = L.recordedPayout r tokens timestamp s t) ↔
      ∀ s t s' t', t ∈ tokens → t' ∈ tokens → L.due r (s, t) = true → L.due r (s', t') = true →
        s = s' ∧ t = t' := by
  rcases hlast : L.lastPayout r tokens timestamp with - | e
  · -- nothing is due
    have hzero : ∀ s t b, t ∈ tokens → L.balances s r t = some b → b.unclaimed = 0 :=
      fun s t b ht eb => hv.unclaimed_eq_zero hlast eb ht
    simp only [recordedPayout, hlast]
    refine iff_of_true hzero fun s t s' t' ht _ hdue _ => ?_
    obtain ⟨b, eb, hne⟩ := due_iff.mp hdue
    exact absurd (hzero s t b ht eb) hne
  · obtain ⟨htoken, -, b₀, eb₀, hne, hvalue⟩ := lastPayout_eq_some hlast
    have hdue₀ : L.due r (e.split, e.token) = true := due_iff.mpr ⟨b₀, eb₀, hne⟩
    simp only [recordedPayout, hlast]
    constructor
    · intro hall
      have hpair : ∀ s t, t ∈ tokens → L.due r (s, t) = true → e.split = s ∧ e.token = t := by
        intro s t ht hdue
        obtain ⟨b, eb, hne'⟩ := due_iff.mp hdue
        by_contra hother
        have hzero := hall s t b ht eb
        rw [if_neg hother] at hzero
        exact hne' hzero
      intro s t s' t' ht ht' hdue hdue'
      obtain ⟨rfl, rfl⟩ := hpair s t ht hdue
      exact hpair s' t' ht' hdue'
    · intro hone s t b ht eb
      split_ifs with hkey
      · obtain ⟨rfl, rfl⟩ := hkey
        rw [hvalue, Option.some.inj (eb₀.symm.trans eb)]
      · by_contra hne'
        exact hkey (hone _ _ _ _ htoken ht hdue₀ (due_iff.mpr ⟨b, eb, hne'⟩))

theorem withdraw [DecidableEq H] (hv : L.Valid) (h : H) (r : A) (tokens : List A)
    (timestamp : ℤ) : (L.withdraw h r tokens timestamp).Valid := by
  have hkeep : ∀ {s r' t}, ((L.withdraw h r tokens timestamp).balances s r' t).isSome
      ↔ (L.balances s r' t).isSome := by
    intro s r' t
    rw [hv.withdraw_balances h r tokens timestamp]
    split_ifs <;> simp
  refine ⟨?_, ?_, ?_, ?_, ?_, ?_⟩
  · intro s f rs r' e hr
    rw [withdraw_splits] at e
    rw [withdraw_allocations]
    exact hv.listed e hr
  · intro s rs e
    rw [withdraw_splits] at e
    exact hv.unpriced e
  · intro s r' ha
    rw [withdraw_allocations] at ha
    rw [withdraw_splits]
    exact hv.priced ha
  · intro s r'
    rw [withdraw_allocations, withdraw_memberships]
    exact hv.member
  · intro s r' t hb
    rw [withdraw_allocations]
    exact hv.credited (hkeep.mp hb)
  · intro h' r' e he
    rw [hkeep]
    rcases em : L.memberships r with - | ss
    · simp only [Ledger.withdraw, em] at he
      exact hv.recorded he
    · rcases elast : (L.payouts r (pairs ss tokens)).getLast? with - | p
      · simp only [Ledger.withdraw, em, elast] at he
        exact hv.recorded he
      · simp only [Ledger.withdraw, em, elast] at he
        split_ifs at he with hif
        · obtain ⟨rfl, rfl⟩ := hif
          obtain rfl := Option.some.inj he
          -- the recorded payout is of a balance that was due
          obtain ⟨-, hdue⟩ := mem_of_mem_firstVisits (List.mem_of_getLast? elast)
          obtain ⟨b, eb, -⟩ := due_iff.mp hdue
          simp [entryOf, eb]
        · exact hv.recorded he

theorem step [DecidableEq H] (hv : L.Valid) (keep : Bool) (a : Action A H) :
    (L.step credit keep a).Valid := by
  cases a with
  | announce s => exact hv.announce keep s
  | create s fee accounts allocations => exact hv.create s fee accounts allocations
  | distribute s t amount => exact hv.distribute s t amount
  | withdraw h r tokens timestamp => exact hv.withdraw h r tokens timestamp

end Valid

/-- **Every run builds a valid ledger.** -/
theorem valid_run [DecidableEq H] (credit : ℤ → ℤ → ℤ → ℤ) (keep : Bool)
    (actions : List (Action A H)) : (run credit keep actions).Valid :=
  List.foldlRecOn actions _ valid_empty fun _ hv a _ => hv.step keep a

end Ledger

end SplitsSubgraph
