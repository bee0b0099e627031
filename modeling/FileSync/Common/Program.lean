import Mathlib.Tactic.Common
/-!
# Programs that call out

A program over a family of calls `E` either has returned a value or makes
one call and goes on with the answer. It is the text between two await
points that is atomic: everything a program does to the outside goes
through a call, so a reader of `call e k` sees exactly where another
program may come in between.

Two readings are given here. `run` answers every call by a handler on a
state and returns what the program returns; `after n` stops the program
once it has made `n` calls, which is where a process that is killed stands.
`expand` replaces each call by a program over another family, so a request
to a server can be opened into the requests the server makes in turn.
-/

namespace FileSync

/-- A program making calls of the family `E` and returning an `α`. -/
inductive Prog (E : Type → Type) (α : Type) : Type 1
  | done (a : α)
  | call {β : Type} (e : E β) (k : β → Prog E α)

namespace Prog

variable {E F : Type → Type} {α β γ : Type} {σ : Type*}

/-- Run one program, then another on its result. -/
protected def bind : Prog E α → (α → Prog E β) → Prog E β
  | done a, f => f a
  | call e k, f => call e fun b => (k b).bind f

instance : Monad (Prog E) where
  pure := done
  bind := Prog.bind

@[simp] theorem pure_eq (a : α) : (pure a : Prog E α) = done a := rfl

@[simp] theorem done_bind (a : α) (f : α → Prog E β) : done a >>= f = f a := rfl

@[simp] theorem call_bind (e : E γ) (k : γ → Prog E α) (f : α → Prog E β) :
    call e k >>= f = call e fun b => k b >>= f := rfl

theorem bind_done (p : Prog E α) : p >>= done = p := by
  induction p with
  | done a => rfl
  | call e k ih => rw [call_bind]; exact congrArg _ (funext ih)

theorem bind_bind (p : Prog E α) (f : α → Prog E β) (g : β → Prog E γ) :
    p >>= f >>= g = p >>= fun a => f a >>= g := by
  induction p with
  | done a => rfl
  | call e k ih => simp only [call_bind]; exact congrArg _ (funext ih)

instance : LawfulMonad (Prog E) :=
  LawfulMonad.mk' _ bind_done (fun _ _ => rfl) bind_bind

/-- The program that makes one call and returns its answer. -/
def perform (e : E α) : Prog E α := call e done

@[simp] theorem perform_bind (e : E α) (f : α → Prog E β) : perform e >>= f = call e f := rfl

/-- The calls of two families. -/
inductive Either (E F : Type → Type) (β : Type) : Type
  | inl (e : E β)
  | inr (e : F β)

/-- Answer every call by a program over another family. -/
def expand (f : ∀ ⦃β : Type⦄, E β → Prog F β) : Prog E α → Prog F α
  | done a => done a
  | call e k => f e >>= fun b => (k b).expand f

@[simp] theorem expand_done (f : ∀ ⦃β : Type⦄, E β → Prog F β) (a : α) :
    (done a : Prog E α).expand f = done a := rfl

@[simp] theorem expand_call (f : ∀ ⦃β : Type⦄, E β → Prog F β) (e : E β) (k : β → Prog E α) :
    (call e k).expand f = f e >>= fun b => (k b).expand f := rfl

/-- Expanding goes through sequencing. -/
theorem expand_bind (f : ∀ ⦃β : Type⦄, E β → Prog F β) (p : Prog E α) (g : α → Prog E β) :
    (p >>= g).expand f = p.expand f >>= fun a => (g a).expand f := by
  induction p with
  | done a => rfl
  | call e k ih => simp only [call_bind, expand_call, bind_bind, ih]

/-- Opening the calls, and then the calls those are opened into. -/
theorem expand_expand {G : Type → Type} (f : ∀ ⦃β : Type⦄, E β → Prog F β)
    (g : ∀ ⦃β : Type⦄, F β → Prog G β) (p : Prog E α) :
    (p.expand f).expand g = p.expand fun _ e => (f e).expand g := by
  induction p with
  | done a => rfl
  | call e k ih => simp only [expand_call, expand_bind, ih]

/-- Opening every call into itself changes nothing. -/
theorem expand_perform (p : Prog E α) : (p.expand fun _ e => perform e) = p := by
  induction p with
  | done a => rfl
  | call e k ih => rw [expand_call, perform_bind]; exact congrArg _ (funext ih)

/-- What a program that has returned returned. -/
def result? : Prog E α → Option α
  | done a => some a
  | call _ _ => none

theorem result?_eq_some {p : Prog E α} {a : α} : p.result? = some a ↔ p = done a := by
  cases p with
  | done b => simp [result?]
  | call e k => simp [result?]

/-! ## Running a program alone -/

/-- What answers the calls of `E` on a state. -/
abbrev Handler (E : Type → Type) (σ : Type*) := ∀ ⦃β : Type⦄, E β → σ → β × σ

/-- Run a program to its end, every call answered by `h`. -/
def run (h : Handler E σ) : Prog E α → σ → α × σ
  | done a, s => (a, s)
  | call e k, s => (k (h e s).1).run h (h e s).2

/-- Let a program make at most `n` calls: what is left of it, and the state. -/
def after (h : Handler E σ) : ℕ → Prog E α → σ → Prog E α × σ
  | n + 1, call e k, s => (k (h e s).1).after h n (h e s).2
  | _, p, s => (p, s)

variable {h : Handler E σ} {s : σ}

@[simp] theorem run_done (a : α) : (done a : Prog E α).run h s = (a, s) := rfl

@[simp] theorem run_call (e : E β) (k : β → Prog E α) :
    (call e k).run h s = (k (h e s).1).run h (h e s).2 := rfl

theorem run_bind (p : Prog E α) (f : α → Prog E β) :
    (p >>= f).run h s = (f (p.run h s).1).run h (p.run h s).2 := by
  induction p generalizing s with
  | done a => rfl
  | call e k ih => exact ih _

/-- A program whose calls are opened runs as if its handler did. -/
theorem run_expand {h : Handler F σ} (f : ∀ ⦃β : Type⦄, E β → Prog F β) (p : Prog E α) :
    (p.expand f).run h s = p.run (fun _ e s => (f e).run h s) s := by
  induction p generalizing s with
  | done a => rfl
  | call e k ih =>
    rw [expand_call, run_bind, ih]
    rfl

@[simp] theorem after_zero (p : Prog E α) : p.after h 0 s = (p, s) := by cases p <;> rfl

@[simp] theorem after_done (n : ℕ) (a : α) : (done a : Prog E α).after h n s = (done a, s) := by
  cases n <;> rfl

@[simp] theorem after_call (n : ℕ) (e : E β) (k : β → Prog E α) :
    (call e k).after h (n + 1) s = (k (h e s).1).after h n (h e s).2 := rfl

/-- What follows a program and keeps the state may be left off. -/
theorem after_bind_state {p : Prog E α} {f : α → Prog E β}
    (hf : ∀ a n s, ((f a).after h n s).2 = s) (n : ℕ) :
    ((p >>= f).after h n s).2 = (p.after h n s).2 := by
  induction n generalizing p s with
  | zero => rw [after_zero, after_zero]
  | succ n ih =>
    cases p with
    | done a => rw [done_bind, hf, after_done]
    | call e k => exact ih

/-- And at the end of the run. -/
theorem run_invariant {I : σ → Prop} (hI : ∀ ⦃β : Type⦄ (e : E β) s, I s → I (h e s).2)
    (p : Prog E α) (hs : I s) : I (p.run h s).2 := by
  induction p generalizing s with
  | done a => exact hs
  | call e k ih => exact ih _ (hI e s hs)

/-! ## The last call that matters -/

section LastCall

variable {φ ψ : ∀ ⦃β : Type⦄, E β → σ → Prop} {n : ℕ}

end LastCall

/-! ## What a program may call -/

/-- Every call the program can come to make, whatever it is answered, is
one of `φ`. -/
def All (φ : ∀ ⦃β : Type⦄, E β → Prop) : Prog E α → Prop
  | done _ => True
  | call e k => φ e ∧ ∀ b, (k b).All φ

variable {φ ψ : ∀ ⦃β : Type⦄, E β → Prop}

@[simp] theorem all_done (a : α) : (done a : Prog E α).All φ := trivial

@[simp] theorem all_call (e : E β) (k : β → Prog E α) :
    (call e k).All φ ↔ φ e ∧ ∀ b, (k b).All φ := Iff.rfl

theorem all_of_forall (h : ∀ ⦃β : Type⦄ (e : E β), φ e) (p : Prog E α) : p.All φ := by
  induction p with
  | done a => trivial
  | call e k ih => exact ⟨h e, ih⟩

theorem All.bind {p : Prog E α} {f : α → Prog E β} (hp : p.All φ) (hf : ∀ a, (f a).All φ) :
    (p >>= f).All φ := by
  induction p with
  | done a => exact hf a
  | call e k ih => exact ⟨hp.1, fun b => ih b (hp.2 b)⟩

/-- What every call the program may make keeps holds at the end of its
run. -/
theorem All.run_invariant {p : Prog E α} {I : σ → Prop} {h : Handler E σ} {s : σ}
    (hI : ∀ ⦃β : Type⦄ (e : E β), φ e → ∀ s, I s → I (h e s).2) (hp : p.All φ) (hs : I s) :
    I (p.run h s).2 := by
  induction p generalizing s with
  | done a => exact hs
  | call e k ih => exact ih _ (hp.2 _) (hI e hp.1 s hs)

/-- What opened calls make, where the calls are opened into such as make
it. -/
theorem All.expand {χ : ∀ ⦃β : Type⦄, F β → Prop} {f : ∀ ⦃β : Type⦄, E β → Prog F β}
    {p : Prog E α} (hf : ∀ ⦃β : Type⦄ (e : E β), φ e → (f e).All χ) (hp : p.All φ) :
    (p.expand f).All χ := by
  induction p with
  | done a => trivial
  | call e k ih => exact .bind (hf e hp.1) fun b => ih b (hp.2 b)

/-! ## What a run comes to call -/

/-- Every call the run makes satisfies `φ`, in the state it is made in. -/
def Along (h : Handler E σ) (φ : ∀ ⦃β : Type⦄, E β → σ → Prop) : Prog E α → σ → Prop
  | done _, _ => True
  | call e k, s => φ e s ∧ (k (h e s).1).Along h φ (h e s).2

section Along

variable {φ : ∀ ⦃β : Type⦄, E β → σ → Prop}

@[simp] theorem along_done (a : α) : (done a : Prog E α).Along h φ s := trivial

@[simp] theorem along_call (e : E β) (k : β → Prog E α) :
    (call e k).Along h φ s ↔ φ e s ∧ (k (h e s).1).Along h φ (h e s).2 := Iff.rfl

theorem along_bind (p : Prog E α) (f : α → Prog E β) :
    (p >>= f).Along h φ s ↔ p.Along h φ s ∧ (f (p.run h s).1).Along h φ (p.run h s).2 := by
  induction p generalizing s with
  | done a => simp
  | call e k ih => rw [call_bind, along_call, along_call, ih, run_call, and_assoc]

/-- The calls of a program whose calls are opened are those they are opened
into. -/
theorem along_expand {h : Handler F σ} {φ : ∀ ⦃β : Type⦄, F β → σ → Prop}
    (f : ∀ ⦃β : Type⦄, E β → Prog F β) (p : Prog E α) :
    (p.expand f).Along h φ s ↔
      p.Along (fun _ e s => (f e).run h s) (fun _ e s => (f e).Along h φ s) s := by
  induction p generalizing s with
  | done a => simp
  | call e k ih => rw [expand_call, along_bind, along_call, ih]

/-- What holds of every call a program may make holds of those it makes. -/
theorem All.along {ψ : ∀ ⦃β : Type⦄, E β → Prop} {p : Prog E α}
    (h' : ∀ ⦃β : Type⦄ (e : E β), ψ e → ∀ s, φ e s) (hp : p.All ψ) : p.Along h φ s := by
  induction p generalizing s with
  | done a => trivial
  | call e k ih => exact ⟨h' e hp.1 s, ih _ (hp.2 _)⟩

/-- **Where a run is stopped it is about to make one of its calls**, or it
has ended. -/
theorem Along.after {p : Prog E α} (hp : p.Along h φ s) (n : ℕ) :
    (∃ (β : Type) (e : E β) (k : β → Prog E α), (p.after h n s).1 = call e k ∧
      φ e (p.after h n s).2) ∨
      p.after h n s = (done (p.run h s).1, (p.run h s).2) := by
  induction p generalizing n s with
  | done a => exact .inr (after_done n a)
  | call e k ih =>
    cases n with
    | zero => exact .inl ⟨_, e, k, rfl, hp.1⟩
    | succ n => exact ih _ hp.2 n

end Along

/-! ## A call that fails -/

theorem All.mono {p : Prog E α} (h : ∀ ⦃β : Type⦄ (e : E β), φ e → ψ e) (hp : p.All φ) :
    p.All ψ := by
  induction p with
  | done a => trivial
  | call e k ih => exact ⟨h e hp.1, fun b => ih b (hp.2 b)⟩

end Prog

/-! ## Programs that may fail

`ExceptT ε (Prog E)` is the reading of a function that returns a `Result`
and of its `?`. -/

/-- Programs over `E` that return an `α` or fail with an `ε`. -/
abbrev Fallible (E : Type → Type) (ε : Type) := ExceptT ε (Prog E)

namespace Fallible

variable {E : Type → Type} {ε ε' α β : Type} {σ : Type*} {h : Prog.Handler E σ} {s : σ}

/-- A call whose answer may be a failure, the failure passed on through `f`. -/
def ask (f : ε' → ε) (e : E (Except ε' α)) : Fallible E ε α :=
  .mk (.call e fun r => .done (r.mapError f))

/-- Run a program and hand its failure back as a value. -/
def attempt (x : Fallible E ε α) : Fallible E ε' (Except ε α) :=
  .mk (x.run >>= fun r => .done (.ok r))

@[simp] theorem run_ask (f : ε' → ε) (e : E (Except ε' α)) :
    (ask f e : Fallible E ε α).run = .call e fun r => .done (r.mapError f) := rfl

@[simp] theorem run_attempt (x : Fallible E ε α) :
    (attempt x : Fallible E ε' (Except ε α)).run = x.run >>= fun r => .done (.ok r) := rfl

/-- Every call the program can come to make is one of `φ`. -/
def All (φ : ∀ ⦃β : Type⦄, E β → Prop) (x : Fallible E ε α) : Prop := x.run.All φ

section All

variable {φ : ∀ ⦃β : Type⦄, E β → Prop}

@[simp] theorem all_pure (a : α) : All φ (pure a : Fallible E ε α) := trivial

@[simp] theorem all_throw (e : ε) : All φ (throw e : Fallible E ε α) := trivial

@[simp] theorem all_ask (f : ε' → ε) (e : E (Except ε' α)) : All φ (ask f e) ↔ φ e :=
  ⟨fun h => h.1, fun h => ⟨h, fun _ => trivial⟩⟩

theorem All.bind {x : Fallible E ε α} {f : α → Fallible E ε β} (hx : All φ x)
    (hf : ∀ a, All φ (f a)) : All φ (x >>= f) := by
  refine Prog.All.bind hx fun r => ?_
  cases r with
  | ok a => exact hf a
  | error e => trivial

theorem All.attempt {x : Fallible E ε α} (hx : All φ x) :
    All φ (Fallible.attempt x : Fallible E ε' (Except ε α)) :=
  Prog.All.bind hx fun _ => trivial

theorem All.adapt {f : ε → ε'} {x : Fallible E ε α} (hx : All φ x) : All φ (x.adapt f) :=
  Prog.All.bind hx fun _ => trivial

end All

/-- Run a program that may fail to its end. -/
def exec (h : Prog.Handler E σ) (x : Fallible E ε α) (s : σ) : Except ε α × σ := x.run.run h s

@[simp] theorem exec_pure (a : α) : exec h (pure a : Fallible E ε α) s = (.ok a, s) := rfl

@[simp] theorem exec_throw (e : ε) : exec h (throw e : Fallible E ε α) s = (.error e, s) := rfl

@[simp] theorem exec_ask (f : ε' → ε) (e : E (Except ε' α)) :
    exec h (ask f e) s = ((h e s).1.mapError f, (h e s).2) := rfl

/-- **Sequencing, run alone**: the second program runs on the first one's
value, and a failure of the first is the failure of both. -/
theorem exec_bind (x : Fallible E ε α) (f : α → Fallible E ε β) :
    exec h (x >>= f) s =
      match exec h x s with
      | (.ok a, s') => exec h (f a) s'
      | (.error e, s') => (.error e, s') := by
  rw [exec, ExceptT.run_bind, Prog.run_bind]
  show _ = match x.run.run h s with
    | (.ok a, s') => exec h (f a) s'
    | (.error e, s') => (.error e, s')
  rcases x.run.run h s with ⟨a | e, s'⟩ <;> rfl

theorem exec_bind_of_ok {x : Fallible E ε α} {f : α → Fallible E ε β} {a : α} {t : σ}
    (hx : exec h x s = (.ok a, t)) : exec h (x >>= f) s = exec h (f a) t := by
  rw [exec_bind, hx]

theorem exec_bind_of_error {x : Fallible E ε α} {f : α → Fallible E ε β} {e : ε} {t : σ}
    (hx : exec h x s = (.error e, t)) : exec h (x >>= f) s = (.error e, t) := by
  rw [exec_bind, hx]

@[simp] theorem exec_attempt (x : Fallible E ε α) :
    exec h (attempt x : Fallible E ε' (Except ε α)) s = (.ok (exec h x s).1, (exec h x s).2) := by
  rw [exec, run_attempt, Prog.run_bind]
  rfl

@[simp] theorem exec_adapt (f : ε → ε') (x : Fallible E ε α) :
    exec h (x.adapt f) s = ((exec h x s).1.mapError f, (exec h x s).2) := by
  show (x.run >>= fun r => Prog.done (r.mapError f)).run h s = _
  rw [Prog.run_bind]
  rfl

/-! ### Programs that end with their first failure -/

section Aborts

variable {fail : ∀ ⦃β : Type⦄, E β → β}

end Aborts

/-! ### Step by step -/

/-- A call that succeeds, and what is left to do after it. -/
theorem after_ask_of_ok {f : ε' → ε} {e : E (Except ε' α)} {k : α → Fallible E ε β} {a : α}
    {t : σ} (he : h e s = (.ok a, t)) (n : ℕ) :
    (ask f e >>= k).run.after h (n + 1) s = (k a).run.after h n t := by
  show (ExceptT.run (match (h e s).1.mapError f with
    | .ok a => k a
    | .error e => .mk (.done (.error e)))).after h n (h e s).2 = _
  rw [he]
  rfl

/-- A call that fails ends the program. -/
theorem after_ask_of_error {f : ε' → ε} {e : E (Except ε' α)} {k : α → Fallible E ε β} {x : ε'}
    {t : σ} (he : h e s = (.error x, t)) (n : ℕ) :
    (ask f e >>= k).run.after h (n + 1) s = (.done (.error (f x)), t) := by
  show (ExceptT.run (match (h e s).1.mapError f with
    | .ok a => k a
    | .error e => .mk (.done (.error e)))).after h n (h e s).2 = _
  rw [he]
  exact Prog.after_done n _

theorem exec_adapt_of_ok {f : ε → ε'} {x : Fallible E ε α} {a : α} {t : σ}
    (hx : exec h x s = (.ok a, t)) : exec h (x.adapt f) s = (.ok a, t) := by
  rw [exec_adapt, hx]
  rfl

theorem exec_adapt_of_error {f : ε → ε'} {x : Fallible E ε α} {e : ε} {t : σ}
    (hx : exec h x s = (.error e, t)) : exec h (x.adapt f) s = (.error (f e), t) := by
  rw [exec_adapt, hx]
  rfl

theorem exec_attempt_of {x : Fallible E ε α} {r : Except ε α} {t : σ}
    (hx : exec h x s = (r, t)) :
    exec h (attempt x : Fallible E ε' (Except ε α)) s = (.ok r, t) := by
  rw [exec_attempt, hx]

/-! ### Runs that succeed, taken apart -/

theorem exec_bind_eq_ok {x : Fallible E ε α} {f : α → Fallible E ε β} {b : β} {u : σ} :
    exec h (x >>= f) s = (.ok b, u) ↔
      ∃ a t, exec h x s = (.ok a, t) ∧ exec h (f a) t = (.ok b, u) := by
  rcases hx : exec h x s with ⟨e | a, t⟩
  · rw [exec_bind_of_error hx]
    constructor
    · intro he
      cases (Prod.mk.inj he).1
    · rintro ⟨a, t', he, -⟩
      cases (Prod.mk.inj he).1
  · rw [exec_bind_of_ok hx]
    constructor
    · exact fun hf => ⟨a, t, rfl, hf⟩
    · rintro ⟨a', t', he, hf⟩
      obtain ⟨ha, rfl⟩ := Prod.mk.inj he
      rw [Except.ok.inj ha]
      exact hf

theorem exec_adapt_eq_ok {f : ε → ε'} {x : Fallible E ε α} {a : α} {t : σ} :
    exec h (x.adapt f) s = (.ok a, t) ↔ exec h x s = (.ok a, t) := by
  rw [exec_adapt]
  rcases exec h x s with ⟨e | b, u⟩
  · simp [Except.mapError]
  · simp [Except.mapError]

/-! ### What a run comes to call -/

section Along

variable {φ : ∀ ⦃β : Type⦄, E β → σ → Prop}

/-- Every call the run makes satisfies `φ`, in the state it is made in. -/
def Along (h : Prog.Handler E σ) (φ : ∀ ⦃β : Type⦄, E β → σ → Prop) (x : Fallible E ε α) (s : σ) :
    Prop := x.run.Along h φ s

theorem along_bind_of_ok {x : Fallible E ε α} {f : α → Fallible E ε β} {a : α} {t : σ}
    (hx : exec h x s = (.ok a, t)) :
    Along h φ (x >>= f) s ↔ Along h φ x s ∧ Along h φ (f a) t := by
  rw [Along, ExceptT.run_bind, Prog.along_bind]
  rw [exec] at hx
  rw [hx]
  rfl

theorem along_bind_of_error {x : Fallible E ε α} {f : α → Fallible E ε β} {e : ε} {t : σ}
    (hx : exec h x s = (.error e, t)) :
    Along h φ (x >>= f) s ↔ Along h φ x s := by
  rw [Along, ExceptT.run_bind, Prog.along_bind]
  rw [exec] at hx
  rw [hx]
  exact and_iff_left trivial

/-- **Sequencing**: the second program's calls come after the first's, if it
did not fail. -/
theorem along_bind {x : Fallible E ε α} {f : α → Fallible E ε β} :
    Along h φ (x >>= f) s ↔
      Along h φ x s ∧ ∀ a, (exec h x s).1 = .ok a → Along h φ (f a) (exec h x s).2 := by
  cases hx : exec h x s with
  | mk r t =>
    cases r with
    | ok a =>
      rw [along_bind_of_ok hx]
      refine and_congr_right fun _ => ⟨fun hf b hb => ?_, fun hf => hf a rfl⟩
      obtain rfl := Except.ok.inj hb
      exact hf
    | error e =>
      rw [along_bind_of_error hx]
      exact (and_iff_left fun a ha => by cases ha).symm

@[simp] theorem along_attempt (x : Fallible E ε α) :
    Along h φ (attempt x : Fallible E ε' (Except ε α)) s ↔ Along h φ x s := by
  rw [Along, run_attempt, Prog.along_bind]
  exact and_iff_left trivial

@[simp] theorem along_adapt (f : ε → ε') (x : Fallible E ε α) :
    Along h φ (x.adapt f) s ↔ Along h φ x s := by
  show (x.run >>= fun r => Prog.done (r.mapError f)).Along h φ s ↔ _
  rw [Prog.along_bind]
  exact and_iff_left trivial

end Along

end Fallible

end FileSync
