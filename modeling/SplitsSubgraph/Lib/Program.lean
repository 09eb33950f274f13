/-
SplitsSubgraph/Lib/Program.lean

Programs that call on an interface.

A program does nothing itself: it makes calls, goes on with the answers and ends with a
result or a failure.  What a call does is said by an implementation of the interface, a
function on some state, and `run` runs a program with it.  The state is there after a
failure too.

Two implementations that answer alike can not be told apart by any program
(`Simulates.run`): it is enough to compare them call by call.  `Agree` says of two results
that they are alike, and goes through sequences and loops.  `Computes` says that a program
does what a function says, and goes through them too.
-/
import Mathlib

namespace Interaction

/-- A program that makes calls `Op`, each with its type of answers, and may fail. -/
inductive Program (Op : Type) (Ans : Op → Type) (E α : Type) where
  | ret (a : α)
  | fail (e : E)
  | call (op : Op) (next : Ans op → Program Op Ans E α)

namespace Program

variable {Op : Type} {Ans : Op → Type} {E α β σ τ : Type}

def bind (p : Program Op Ans E α) (f : α → Program Op Ans E β) : Program Op Ans E β :=
  match p with
  | .ret a => f a
  | .fail e => .fail e
  | .call op next => .call op fun a => (next a).bind f

instance : Monad (Program Op Ans E) where
  pure := ret
  bind := bind

/-- One call. -/
def perform (op : Op) : Program Op Ans E (Ans op) := .call op .ret

/-- Run a program; `f` is what the calls do. -/
def run (f : (op : Op) → σ → Except E (Ans op) × σ) : Program Op Ans E α → σ → Except E α × σ
  | .ret a, s => (.ok a, s)
  | .fail e, s => (.error e, s)
  | .call op next, s =>
    match f op s with
    | (.ok a, s) => (next a).run f s
    | (.error e, s) => (.error e, s)

variable (f : (op : Op) → σ → Except E (Ans op) × σ)

theorem run_bind (p : Program Op Ans E α) (q : α → Program Op Ans E β) (s : σ) :
    (p >>= q).run f s = match p.run f s with
      | (.ok a, s) => (q a).run f s
      | (.error e, s) => (.error e, s) := by
  show (p.bind q).run f s = _
  induction p generalizing s with
  | ret a => rfl
  | fail e => rfl
  | call op next ih =>
    rw [bind, run, run]
    rcases f op s with ⟨e | a, s'⟩
    · rfl
    · exact ih a s'

@[simp] theorem run_perform (op : Op) (s : σ) : (perform op).run f s = f op s := by
  rw [perform, run]
  rcases f op s with ⟨e | a, s'⟩ <;> rfl

/-- Every call that the program can make satisfies `P`. -/
def Always (P : Op → Prop) : Program Op Ans E α → Prop
  | .ret _ => True
  | .fail _ => True
  | .call op next => P op ∧ ∀ a, (next a).Always P

theorem Always.bind {P : Op → Prop} {p : Program Op Ans E α} {q : α → Program Op Ans E β}
    (hp : p.Always P) (hq : ∀ a, (q a).Always P) : (p >>= q).Always P := by
  show (p.bind q).Always P
  induction p with
  | ret a => exact hq a
  | fail e => trivial
  | call op next ih => exact ⟨hp.1, fun a => ih a (hp.2 a)⟩

theorem always_forM {P : Op → Prop} {l : List β} {body : β → Program Op Ans E PUnit}
    (h : ∀ b, (body b).Always P) : (l.forM body : Program Op Ans E PUnit).Always P := by
  induction l with
  | nil => trivial
  | cons b l ih => exact (h b).bind fun _ => ih

theorem always_perform {P : Op → Prop} {op : Op} (h : P op) :
    (perform op : Program Op Ans E (Ans op)).Always P := ⟨h, fun _ => trivial⟩

end Program

open Program

/-! ### Results that agree -/

section agree

variable {E σ τ σ' τ' : Type} {R : σ → τ → Prop} {R' : σ' → τ' → Prop}

/-- Both succeed with related results, or both fail with the same error. -/
def Agree (R : σ → τ → Prop) : Except E σ → Except E τ → Prop
  | .ok s, .ok t => R s t
  | .error e, .error e' => e = e'
  | .ok _, .error _ | .error _, .ok _ => False

theorem Agree.of_ok {x : Except E σ} {y : Except E τ} {t : τ} (h : Agree R x y) (hy : y = .ok t) :
    ∃ s, x = .ok s ∧ R s t := by
  subst hy
  rcases x with e | s
  · exact h.elim
  · exact ⟨s, rfl, h⟩

theorem Agree.of_error {x : Except E σ} {y : Except E τ} {e : E} (h : Agree R x y)
    (hy : y = .error e) : x = .error e := by
  subst hy
  rcases x with e' | s
  · exact congrArg Except.error h
  · exact h.elim

/-- The other way. -/
theorem Agree.ok_of {x : Except E σ} {y : Except E τ} {s : σ} (h : Agree R x y) (hx : x = .ok s) :
    ∃ t, y = .ok t ∧ R s t := by
  subst hx
  rcases y with e | t
  · exact h.elim
  · exact ⟨t, rfl, h⟩

/-- The results that are related are the ones there are. -/
theorem Agree.results {x : Except E σ} {y : Except E τ} (h : Agree R x y) :
    Agree (fun s t => R s t ∧ x = .ok s ∧ y = .ok t) x y := by
  rcases x with e | s <;> rcases y with e' | t
  · exact h
  · exact h.elim
  · exact h.elim
  · exact ⟨h, rfl, rfl⟩

theorem Agree.mono {R₁ : σ → τ → Prop} {x : Except E σ} {y : Except E τ} (h : Agree R x y)
    (hR : ∀ s t, R s t → R₁ s t) : Agree R₁ x y := by
  rcases x with e | s <;> rcases y with e' | t
  · exact h
  · exact h.elim
  · exact h.elim
  · exact hR s t h

theorem Agree.bind {x : Except E σ} {y : Except E τ} (h : Agree R x y)
    {f : σ → Except E σ'} {g : τ → Except E τ'} (hf : ∀ s t, R s t → Agree R' (f s) (g t)) :
    Agree R' (x >>= f) (y >>= g) := by
  rcases x with e | s <;> rcases y with e' | t
  · exact h
  · exact h.elim
  · exact h.elim
  · exact hf s t h

/-- Two loops over the same list. -/
theorem Agree.foldlM {α : Type} {f : σ → α → Except E σ} {g : τ → α → Except E τ} {l : List α}
    (hf : ∀ a ∈ l, ∀ s t, R s t → Agree R (f s a) (g t a)) {s : σ} {t : τ} (h : R s t) :
    Agree R (l.foldlM f s) (l.foldlM g t) := by
  induction l generalizing s t with
  | nil => exact h
  | cons a l ih =>
    rw [List.foldlM_cons, List.foldlM_cons]
    exact (hf a (by simp) s t h).bind fun s' t' h' =>
      ih (fun a' ha' => hf a' (by simp [ha'])) h'

/-- What every turn of a loop keeps, the loop keeps. -/
theorem foldlM_invariant {α : Type} {f : σ → α → Except E σ} {I : σ → Prop} {l : List α}
    (hf : ∀ a ∈ l, ∀ s s', I s → f s a = .ok s' → I s') {s s' : σ} (h : I s)
    (hrun : l.foldlM f s = .ok s') : I s' := by
  induction l generalizing s with
  | nil =>
    obtain rfl := Except.ok.inj hrun
    exact h
  | cons a l ih =>
    rw [List.foldlM_cons] at hrun
    rcases hone : f s a with e | s₁
    · rw [hone] at hrun
      cases hrun
    · rw [hone] at hrun
      exact ih (fun a' ha' => hf a' (by simp [ha'])) (hf a (by simp) s s₁ h hone) hrun

end agree

/-! ### Programs that compute a function -/

section computes

variable {Op : Type} {Ans : Op → Type} {E E' α β γ δ τ : Type}

/-- From the state `t` the program does what `r` says: it ends in a way for which `Q` holds, or
it fails with the error that stands for that of `r`. -/
def Computes (g : (op : Op) → τ → Except E (Ans op) × τ) (err : E' → E) (p : Program Op Ans E α)
    (t : τ) (r : Except E' β) (Q : α → β → τ → Prop) : Prop :=
  match r with
  | .ok b => ∃ a t', p.run g t = (.ok a, t') ∧ Q a b t'
  | .error e => ∃ t', p.run g t = (.error (err e), t')

variable {g : (op : Op) → τ → Except E (Ans op) × τ} {err : E' → E} {t : τ}
  {Q : α → β → τ → Prop}

theorem Computes.pure {a : α} {b : β} (h : Q a b t) :
    Computes g err (Pure.pure a) t (.ok b) Q := ⟨a, t, rfl, h⟩

theorem Computes.fail (e : E') :
    Computes g err (.fail (err e) : Program Op Ans E α) t (.error e) Q := ⟨t, rfl⟩

/-- After a part that succeeds. -/
theorem Computes.after {p : Program Op Ans E γ} {c : γ} {t' : τ} (hp : p.run g t = (.ok c, t'))
    {q : γ → Program Op Ans E α} {r : Except E' β} (hq : Computes g err (q c) t' r Q) :
    Computes g err (p >>= q) t r Q := by
  rcases r with e | b
  · obtain ⟨t'', hrun⟩ := hq
    exact ⟨t'', by rw [run_bind, hp]; exact hrun⟩
  · obtain ⟨a, t'', hrun, hQ⟩ := hq
    exact ⟨a, t'', by rw [run_bind, hp]; exact hrun, hQ⟩

/-- One after the other. -/
theorem Computes.bind {p : Program Op Ans E α} {r : Except E' β} (hp : Computes g err p t r Q)
    {q : α → Program Op Ans E γ} {f : β → Except E' δ} {Q' : γ → δ → τ → Prop}
    (hq : ∀ a b t', Q a b t' → Computes g err (q a) t' (f b) Q') :
    Computes g err (p >>= q) t (r >>= f) Q' := by
  rcases r with e | b
  · obtain ⟨t', hrun⟩ := hp
    exact ⟨t', by rw [run_bind, hrun]⟩
  · obtain ⟨a, t', hrun, hQ⟩ := hp
    exact Computes.after hrun (hq a b t' hQ)

/-- A loop, whose state is part of the state of the calls. -/
theorem Computes.forM {l : List γ} {body : γ → Program Op Ans E PUnit} {f : β → γ → Except E' β}
    {I : β → τ → Prop}
    (hbody : ∀ c ∈ l, ∀ b t, I b t → Computes g err (body c) t (f b c) fun _ b' t' => I b' t')
    {b : β} (h : I b t) :
    Computes g err (l.forM body) t (l.foldlM f b) fun _ b' t' => I b' t' := by
  induction l generalizing b t with
  | nil => exact Computes.pure h
  | cons c l ih =>
    rw [List.foldlM_cons]
    exact (hbody c (by simp) b t h).bind fun _ b' t' h' =>
      ih (fun c' hc' => hbody c' (by simp [hc'])) h'

end computes

/-! ### Simulation -/

/-- Call by call, `f` answers what `g` answers and fails as `g` fails, for calls that satisfy
`P`.  `R` relates the states, and `Q` is left to say of the states after a failure. -/
structure Simulates {Op : Type} {Ans : Op → Type} {E σ τ : Type} (P : Op → Prop)
    (f : (op : Op) → σ → Except E (Ans op) × σ) (g : (op : Op) → τ → Except E (Ans op) × τ)
    (R Q : σ → τ → Prop) : Prop where
  ok : ∀ op, P op → ∀ s t a t', R s t → g op t = (.ok a, t') →
    ∃ s', f op s = (.ok a, s') ∧ R s' t'
  error : ∀ op, P op → ∀ s t e t', R s t → g op t = (.error e, t') →
    ∃ s', f op s = (.error e, s') ∧ Q s' t'
  fail : ∀ s t, R s t → Q s t

/-- **Programs can not tell the implementations apart.** -/
theorem Simulates.run {Op : Type} {Ans : Op → Type} {E α σ τ : Type} {P : Op → Prop}
    {f : (op : Op) → σ → Except E (Ans op) × σ} {g : (op : Op) → τ → Except E (Ans op) × τ}
    {R Q : σ → τ → Prop} (h : Simulates P f g R Q) {p : Program Op Ans E α} (hp : p.Always P)
    {s : σ} {t : τ} (hR : R s t) :
    (∀ a t', p.run g t = (.ok a, t') → ∃ s', p.run f s = (.ok a, s') ∧ R s' t')
    ∧ ∀ e t', p.run g t = (.error e, t') → ∃ s', p.run f s = (.error e, s') ∧ Q s' t' := by
  induction p generalizing s t with
  | ret a =>
    refine ⟨?_, nofun⟩
    rintro _ _ ⟨rfl, rfl⟩
    exact ⟨s, rfl, hR⟩
  | fail e =>
    refine ⟨nofun, ?_⟩
    rintro _ _ ⟨rfl, rfl⟩
    exact ⟨s, rfl, h.fail s t hR⟩
  | call op next ih =>
    simp only [Program.run]
    rcases hg : g op t with ⟨e | a, t'⟩
    · obtain ⟨s', hf, hQ⟩ := h.error op hp.1 s t e t' hR hg
      simp only [hf]
      refine ⟨nofun, ?_⟩
      rintro _ _ ⟨rfl, rfl⟩
      exact ⟨s', rfl, hQ⟩
    · obtain ⟨s', hf, hR'⟩ := h.ok op hp.1 s t a t' hR hg
      simp only [hf]
      exact ih a (hp.2 a) hR'

/-- What every call keeps, a program keeps, unless it fails. -/
theorem Program.run_invariant {Op : Type} {Ans : Op → Type} {E α σ : Type} {P : Op → Prop}
    {f : (op : Op) → σ → Except E (Ans op) × σ} {I : σ → Prop}
    (h : ∀ op, P op → ∀ s a s', I s → f op s = (.ok a, s') → I s')
    {p : Program Op Ans E α} (hp : p.Always P) {s s' : σ} {a : α} (hs : I s)
    (hrun : p.run f s = (.ok a, s')) : I s' := by
  have hsim : Simulates P f f (fun s t => s = t ∧ I t) fun _ _ => True :=
    { ok := by
        rintro op hop s _ a t' ⟨rfl, hI⟩ hf
        exact ⟨t', hf, rfl, h op hop s a t' hI hf⟩
      error := by
        rintro op _ s _ e t' ⟨rfl, _⟩ hf
        exact ⟨t', hf, trivial⟩
      fail := fun _ _ _ => trivial }
  obtain ⟨_, _, -, hI⟩ := (hsim.run hp ⟨rfl, hs⟩).1 a s' hrun
  exact hI

end Interaction
