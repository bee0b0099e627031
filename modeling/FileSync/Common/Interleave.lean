import FileSync.Common.Program
import Mathlib.Logic.Relation
import Mathlib.Logic.Function.Basic
import Mathlib.Data.Fintype.Basic
/-!
# Programs side by side

A family of programs runs over one shared state, one call at a time and in
any order; between calls the environment may move too. A `Move` says who
goes next and what was left to chance, so a run is a list of moves and the
order of steps is quantified by quantifying that list.

`Safe` is the rely-guarantee reading of one program of the family: each of
its calls is a step its guarantee allows, and it tolerates any steps its
rely allows before the next. `Triple` states it from a precondition and has
one rule for each way programs are built. `PoolSafe.runs` puts the family
back together.
-/

namespace FileSync

open Relation

/-- What the calls of each task, and the environment's own moves, do to the
shared state. `O` is what a call's outcome leaves to chance. -/
structure Semantics (ι : Type) (E : Type → Type) (O A σ : Type) where
  exec : ι → ∀ ⦃β : Type⦄, E β → O → σ → β × σ
  env : A → σ → σ

/-- Who moves next. -/
inductive Move (ι O A : Type)
  | run (i : ι) (o : O)
  | env (a : A)

/-- What each task has left to do, and the shared state. -/
structure Config (ι : Type) (E : Type → Type) (α σ : Type) where
  task : ι → Prog E α
  state : σ

/-- A condition on the steps of a run: on the call about to be made, or on
the environment's move, and the state before it. -/
structure StepCond (ι : Type) (E : Type → Type) (O A σ : Type) where
  call : ι → ∀ ⦃β : Type⦄, E β → O → σ → Prop
  env : A → σ → Prop

variable {ι : Type} {E : Type → Type} {O A α γ ε σ : Type}

namespace Config

variable [DecidableEq ι]

/-- One move: the task's next call is made and answered, or the environment
steps. A task that has returned stays where it is. -/
def step (S : Semantics ι E O A σ) (c : Config ι E α σ) : Move ι O A → Config ι E α σ
  | .run i o =>
    match c.task i with
    | .done _ => c
    | .call e k =>
      { task := Function.update c.task i (k (S.exec i e o c.state).1)
        state := (S.exec i e o c.state).2 }
  | .env a => { c with state := S.env a c.state }

/-- The configuration a list of moves leads to. -/
def runs (S : Semantics ι E O A σ) (c : Config ι E α σ) (ms : List (Move ι O A)) :
    Config ι E α σ :=
  ms.foldl (step S) c

/-- The condition holds of one move. -/
def Admits (C : StepCond ι E O A σ) (c : Config ι E α σ) : Move ι O A → Prop
  | .run i o =>
    match c.task i with
    | .done _ => True
    | .call e _ => C.call i e o c.state
  | .env a => C.env a c.state

/-- The condition holds of every move of a run. -/
def Meets (S : Semantics ι E O A σ) (C : StepCond ι E O A σ) :
    Config ι E α σ → List (Move ι O A) → Prop
  | _, [] => True
  | c, m :: ms => c.Admits C m ∧ Meets S C (c.step S m) ms

@[simp] theorem runs_nil (S : Semantics ι E O A σ) (c : Config ι E α σ) : c.runs S [] = c := rfl

@[simp] theorem runs_cons (S : Semantics ι E O A σ) (c : Config ι E α σ) (m : Move ι O A)
    (ms : List (Move ι O A)) : c.runs S (m :: ms) = (c.step S m).runs S ms := rfl

/-- A task that has returned has nothing to do. -/
theorem step_of_done {S : Semantics ι E O A σ} {c : Config ι E α σ} {i : ι} {o : O} {a : α}
    (hi : c.task i = .done a) : c.step S (.run i o) = c := by
  simp only [step, hi]

/-- A task that makes a call goes on with the answer. -/
theorem step_of_call {S : Semantics ι E O A σ} {c : Config ι E α σ} {i : ι} {o : O} {β : Type}
    {e : E β} {k : β → Prog E α} (hi : c.task i = .call e k) :
    c.step S (.run i o) = { task := Function.update c.task i (k (S.exec i e o c.state).1)
                            state := (S.exec i e o c.state).2 } := by
  simp only [step, hi]

omit [DecidableEq ι] in
theorem admits_of_call {C : StepCond ι E O A σ} {c : Config ι E α σ} {i : ι} {o : O} {β : Type}
    {e : E β} {k : β → Prog E α} (hi : c.task i = .call e k) :
    c.Admits C (.run i o) ↔ C.call i e o c.state := by
  simp only [Admits, hi]

/-- Every task has returned. -/
def Finished (c : Config ι E α σ) : Prop := ∀ i, (c.task i).result?.isSome = true

instance [Fintype ι] (c : Config ι E α σ) : Decidable c.Finished :=
  inferInstanceAs (Decidable (∀ i, (c.task i).result?.isSome = true))

section Decidable

variable (C : StepCond ι E O A σ) [∀ i β (e : E β) o s, Decidable (C.call i e o s)]
  [∀ a s, Decidable (C.env a s)]

instance decidableAdmits (c : Config ι E α σ) : ∀ m, Decidable (c.Admits C m)
  | .run i o =>
    match h : c.task i with
    | .done _ => .isTrue (by simp only [Admits, h])
    | .call e _ => decidable_of_iff (C.call i e o c.state) (admits_of_call h).symm
  | .env a => inferInstanceAs (Decidable (C.env a c.state))

instance decidableMeets (S : Semantics ι E O A σ) :
    ∀ (ms : List (Move ι O A)) (c : Config ι E α σ), Decidable (c.Meets S C ms)
  | [], _ => .isTrue trivial
  | m :: ms, c =>
    have := decidableMeets S ms (c.step S m)
    inferInstanceAs (Decidable (_ ∧ _))

end Decidable

end Config

/-! ## One program among others -/

/-- What the tasks promise each other: `rely i` is what task `i` tolerates
between its calls, `guar i` what its own calls do. -/
structure Contract (ι σ : Type) where
  rely : ι → σ → σ → Prop
  guar : ι → σ → σ → Prop

/-- The contract is kept: what one task does, the others tolerate, and so
they do the environment's moves. -/
structure Contract.Fits (K : Contract ι σ) (S : Semantics ι E O A σ)
    (C : StepCond ι E O A σ) : Prop where
  guar_rely : ∀ ⦃i j⦄, i ≠ j → ∀ ⦃s s'⦄, K.guar i s s' → K.rely j s s'
  env_rely : ∀ j a s, C.env a s → K.rely j s (S.env a s)

/-- A property the rely of task `i` does not undo. -/
def Contract.Stable (K : Contract ι σ) (i : ι) (P : σ → Prop) : Prop :=
  ∀ ⦃s s'⦄, P s → K.rely i s s' → P s'

theorem Contract.Stable.rtc {K : Contract ι σ} {i : ι} {P : σ → Prop} (hP : K.Stable i P)
    {s s' : σ} (h : ReflTransGen (K.rely i) s s') (hs : P s) : P s' := by
  induction h with
  | refl => exact hs
  | tail _ hstep ih => exact hP ih hstep

/-- No condition on the steps. -/
def StepCond.any : StepCond ι E O A σ := ⟨fun _ _ _ _ _ => True, fun _ _ => True⟩

@[simp] theorem Config.meets_any [DecidableEq ι] {S : Semantics ι E O A σ}
    (ms : List (Move ι O A)) (c : Config ι E α σ) : c.Meets S StepCond.any ms := by
  induction ms generalizing c with
  | nil => trivial
  | cons m ms ih =>
    refine ⟨?_, ih _⟩
    cases m with
    | env a => trivial
    | run i o =>
      cases h : c.task i with
      | done a => simp only [Config.Admits, h]
      | call e k => exact (Config.admits_of_call h).2 trivial

namespace Config

variable [DecidableEq ι] {S : Semantics ι E O A σ} {φ : ∀ ⦃β : Type⦄, E β → Prop} {J : σ → Prop}
  {c : Config ι E α σ}

/-- What every call the tasks can come to make keeps, and the environment,
one move keeps. -/
theorem step_of_all (hexec : ∀ i ⦃β : Type⦄ (e : E β) o s, φ e → J s → J (S.exec i e o s).2)
    (henv : ∀ a s, J s → J (S.env a s)) (hall : ∀ i, (c.task i).All φ) (hJ : J c.state)
    (m : Move ι O A) : (∀ i, ((c.step S m).task i).All φ) ∧ J (c.step S m).state := by
  cases m with
  | env a => exact ⟨hall, henv a c.state hJ⟩
  | run i o =>
    cases hi : c.task i with
    | done a =>
      rw [step_of_done hi]
      exact ⟨hall, hJ⟩
    | call e k =>
      have hcalls := hall i
      rw [hi] at hcalls
      rw [step_of_call hi]
      refine ⟨fun j => ?_, hexec i e o c.state hcalls.1 hJ⟩
      dsimp only
      rcases eq_or_ne j i with rfl | hne
      · rw [Function.update_self]
        exact hcalls.2 _
      · rw [Function.update_of_ne hne]
        exact hall j

/-- **And so does a run.** -/
theorem runs_of_all (hexec : ∀ i ⦃β : Type⦄ (e : E β) o s, φ e → J s → J (S.exec i e o s).2)
    (henv : ∀ a s, J s → J (S.env a s)) (hall : ∀ i, (c.task i).All φ) (hJ : J c.state)
    (ms : List (Move ι O A)) : J (c.runs S ms).state := by
  induction ms generalizing c with
  | nil => exact hJ
  | cons m ms ih =>
    obtain ⟨hall', hJ'⟩ := step_of_all hexec henv hall hJ m
    exact ih hall' hJ'

/-- **A condition may be strengthened by such an invariant.** -/
theorem meets_of_all {C C' : StepCond ι E O A σ}
    (hexec : ∀ i ⦃β : Type⦄ (e : E β) o s, φ e → J s → J (S.exec i e o s).2)
    (henv : ∀ a s, J s → J (S.env a s))
    (hcall : ∀ i ⦃β : Type⦄ (e : E β) o s, φ e → J s → C.call i e o s → C'.call i e o s)
    (harrive : ∀ a s, J s → C.env a s → C'.env a s) {ms : List (Move ι O A)}
    (hall : ∀ i, (c.task i).All φ) (hJ : J c.state) (h : c.Meets S C ms) : c.Meets S C' ms := by
  induction ms generalizing c with
  | nil => trivial
  | cons m ms ih =>
    obtain ⟨hall', hJ'⟩ := step_of_all hexec henv hall hJ m
    refine ⟨?_, ih hall' hJ' h.2⟩
    have hm := h.1
    cases m with
    | env a => exact harrive a c.state hJ hm
    | run i o =>
      cases hi : c.task i with
      | done a => simp only [Admits, hi]
      | call e k =>
        have hcalls := hall i
        rw [hi] at hcalls
        rw [admits_of_call hi] at hm ⊢
        exact hcall i e o c.state hcalls.1 hJ hm

end Config

/-- The contract of a program that is alone: nothing comes between its
calls, and each of them keeps `J`. -/
def Contract.solo (J : σ → Prop) : Contract Unit σ := ⟨fun _ _ _ => False, fun _ _ s' => J s'⟩

theorem Contract.solo_stable {J P : σ → Prop} : (Contract.solo J).Stable () P :=
  fun _ _ _ h => h.elim

theorem Contract.solo_fits {J : σ → Prop} {S : Semantics Unit E O Empty σ}
    {C : StepCond Unit E O Empty σ} : (Contract.solo J).Fits S C :=
  ⟨fun _ _ hne => absurd rfl hne, fun _ a => a.elim⟩

/-- One task and no environment. -/
def Semantics.alone (h : Prog.Handler E σ) : Semantics Unit E Unit Empty σ :=
  ⟨fun _ _ e _ s => h e s, fun a => a.elim⟩

variable {S : Semantics ι E O A σ} {C : StepCond ι E O A σ} {K : Contract ι σ} {i : ι}

/-- **Safety of one task's program.** Each call it makes is a step of its
guarantee, whatever is left to chance, and the rest is safe after any steps
of its rely. What it returns satisfies `Q` and goes on satisfying it. -/
def Safe (S : Semantics ι E O A σ) (C : StepCond ι E O A σ) (K : Contract ι σ) (i : ι)
    (Q : α → σ → Prop) : Prog E α → σ → Prop
  | .done a, s => ∀ s', ReflTransGen (K.rely i) s s' → Q a s'
  | .call e k, s => ∀ o, C.call i e o s →
      K.guar i s (S.exec i e o s).2 ∧
        ∀ s', ReflTransGen (K.rely i) (S.exec i e o s).2 s' →
          Safe S C K i Q (k (S.exec i e o s).1) s'

/-- From `P`, the program is safe. -/
def Triple (S : Semantics ι E O A σ) (C : StepCond ι E O A σ) (K : Contract ι σ) (i : ι)
    (P : σ → Prop) (p : Prog E α) (Q : α → σ → Prop) : Prop :=
  ∀ s, P s → Safe S C K i Q p s

theorem Safe.mono {Q Q' : α → σ → Prop} (hQ : ∀ a s, Q a s → Q' a s) :
    ∀ {p : Prog E α} {s : σ}, Safe S C K i Q p s → Safe S C K i Q' p s
  | .done _, _, h => fun s' hs' => hQ _ _ (h s' hs')
  | .call _ _, _, h => fun o ho =>
    ⟨(h o ho).1, fun s' hs' => Safe.mono hQ ((h o ho).2 s' hs')⟩

/-- **Sequencing.** -/
theorem Safe.bind {Q : α → σ → Prop} {Q' : γ → σ → Prop} {f : α → Prog E γ}
    (hf : ∀ a s, Q a s → Safe S C K i Q' (f a) s) :
    ∀ {p : Prog E α} {s : σ}, Safe S C K i Q p s → Safe S C K i Q' (p >>= f) s
  | .done a, s, h => hf a s (h s .refl)
  | .call _ _, _, h => fun o ho =>
    ⟨(h o ho).1, fun s' hs' => Safe.bind hf ((h o ho).2 s' hs')⟩

theorem Safe.and {Q Q' : α → σ → Prop} : ∀ {p : Prog E α} {s : σ},
    Safe S C K i Q p s → Safe S C K i Q' p s → Safe S C K i (fun a s => Q a s ∧ Q' a s) p s
  | .done _, _, h, h' => fun s' hs' => ⟨h s' hs', h' s' hs'⟩
  | .call _ _, _, h, h' => fun o ho =>
    ⟨(h o ho).1, fun s' hs' => Safe.and ((h o ho).2 s' hs') ((h' o ho).2 s' hs')⟩

/-- **A program alone keeps its invariant** wherever it is stopped. -/
theorem Safe.after {h : Prog.Handler E σ} {J : σ → Prop} {Q : α → σ → Prop} {p : Prog E α} {s : σ}
    (hp : Safe (.alone h) .any (.solo J) () Q p s) (hs : J s) (n : ℕ) : J (p.after h n s).2 := by
  induction n generalizing p s with
  | zero => rwa [Prog.after_zero]
  | succ n ih =>
    cases p with
    | done a => exact hs
    | call e k =>
      obtain ⟨hstep, hrest⟩ := hp () trivial
      exact ih (hrest _ .refl) hstep

/-- And what it ends in is what its run ends in. -/
theorem Safe.run {h : Prog.Handler E σ} {J : σ → Prop} {Q : α → σ → Prop} {p : Prog E α} {s : σ}
    (hp : Safe (.alone h) .any (.solo J) () Q p s) : Q (p.run h s).1 (p.run h s).2 := by
  induction p generalizing s with
  | done a => exact hp s .refl
  | call e k ih =>
    obtain ⟨-, hrest⟩ := hp () trivial
    exact ih _ (hrest _ .refl)

namespace Triple

variable {P P' : σ → Prop} {Q Q' : α → σ → Prop}

/-- A program that has returned. -/
theorem done {a : α} (hst : K.Stable i (Q a)) (h : ∀ s, P s → Q a s) :
    Triple S C K i P (.done a) Q :=
  fun s hs _ hs' => hst.rtc hs' (h s hs)

/-- **One call**: it is a step of the guarantee and establishes `M`, which
is stable and is where the rest starts. -/
theorem call {β : Type} {e : E β} {k : β → Prog E α} (M : β → σ → Prop)
    (hst : ∀ b, K.Stable i (M b))
    (hstep : ∀ o s, P s → C.call i e o s →
      K.guar i s (S.exec i e o s).2 ∧ M (S.exec i e o s).1 (S.exec i e o s).2)
    (hk : ∀ b, Triple S C K i (M b) (k b) Q) : Triple S C K i P (.call e k) Q :=
  fun s hs o ho =>
    ⟨(hstep o s hs ho).1, fun s' hs' => hk _ s' ((hst _).rtc hs' (hstep o s hs ho).2)⟩

/-- One call alone. -/
theorem perform {e : E α} (hst : ∀ a, K.Stable i (Q a))
    (hstep : ∀ o s, P s → C.call i e o s →
      K.guar i s (S.exec i e o s).2 ∧ Q (S.exec i e o s).1 (S.exec i e o s).2) :
    Triple S C K i P (.perform e) Q :=
  call Q hst hstep fun a => done (hst a) fun _ hs => hs

theorem bind {p : Prog E γ} {f : γ → Prog E α} (M : γ → σ → Prop)
    (hp : Triple S C K i P p M) (hf : ∀ a, Triple S C K i (M a) (f a) Q) :
    Triple S C K i P (p >>= f) Q :=
  fun s hs => Safe.bind (fun a s' => hf a s') (hp s hs)

theorem conseq {p : Prog E α} (h : Triple S C K i P p Q) (hP : ∀ s, P' s → P s)
    (hQ : ∀ a s, Q a s → Q' a s) : Triple S C K i P' p Q' :=
  fun s hs => Safe.mono hQ (h s (hP s hs))

/-- What two readings of a program establish, it establishes. -/
theorem and {p : Prog E α} (h : Triple S C K i P p Q) (h' : Triple S C K i P' p Q') :
    Triple S C K i (fun s => P s ∧ P' s) p fun a s => Q a s ∧ Q' a s :=
  fun s hs => Safe.and (h s hs.1) (h' s hs.2)

theorem pre {p : Prog E α} (h : Triple S C K i P p Q) (hP : ∀ s, P' s → P s) :
    Triple S C K i P' p Q :=
  fun s hs => h s (hP s hs)

theorem post {p : Prog E α} (h : Triple S C K i P p Q) (hQ : ∀ a s, Q a s → Q' a s) :
    Triple S C K i P p Q' :=
  fun s hs => Safe.mono hQ (h s hs)

/-- What the precondition says of no state may be used to prove the rest. -/
theorem of_pure {p : Prog E α} {φ : Prop} (hφ : ∀ s, P s → φ)
    (h : φ → Triple S C K i P p Q) : Triple S C K i P p Q :=
  fun s hs => h (hφ s hs) s hs

/-- A witness hidden in the precondition may be named. -/
theorem of_exists {κ : Sort*} {p : Prog E α} {P : κ → σ → Prop}
    (h : ∀ x, Triple S C K i (P x) p Q) : Triple S C K i (fun s => ∃ x, P x s) p Q :=
  fun s ⟨x, hx⟩ => h x s hx

/-- **Sequencing of programs that may fail**: a failure of the first is the
failure of both. -/
theorem bindE {x : Fallible E ε γ} {f : γ → Fallible E ε α} {Q : Except ε α → σ → Prop}
    (M : Except ε γ → σ → Prop) (hx : Triple S C K i P x.run M)
    (hok : ∀ a, Triple S C K i (M (.ok a)) (f a).run Q)
    (hst : ∀ e, K.Stable i (M (.error e))) (herr : ∀ e s, M (.error e) s → Q (.error e) s) :
    Triple S C K i P (x >>= f).run Q := by
  rw [ExceptT.run_bind]
  refine bind M hx fun r => ?_
  cases r with
  | ok a => exact hok a
  | error e => exact fun s hs s' hs' => herr e s' ((hst e).rtc hs' hs)

/-- **A call whose answer may be a failure.** -/
theorem ask {ε' : Type} {f : ε' → ε} {e : E (Except ε' α)} {Q : Except ε α → σ → Prop}
    (hst : ∀ r, K.Stable i (Q r))
    (hstep : ∀ o s, P s → C.call i e o s →
      K.guar i s (S.exec i e o s).2 ∧ Q ((S.exec i e o s).1.mapError f) (S.exec i e o s).2) :
    Triple S C K i P (Fallible.ask f e).run Q :=
  call (fun r s => Q (r.mapError f) s) (fun r => hst (r.mapError f)) hstep
    fun _ => done (hst _) fun _ h => h

/-- **A run handed back as a value** fails only as the program before it. -/
theorem attempt {ε' : Type} {x : Fallible E ε α} {Q : Except ε α → σ → Prop}
    (hst : ∀ r, K.Stable i (Q r)) (hx : Triple S C K i P x.run Q) :
    Triple S C K i P (Fallible.attempt x : Fallible E ε' (Except ε α)).run
      fun r s => ∃ r', r = .ok r' ∧ Q r' s := by
  refine bind Q hx fun r => done ?_ fun s hs => ⟨r, rfl, hs⟩
  rintro s s' ⟨r', hr, hs⟩ h
  exact ⟨r', hr, hst r' hs h⟩

/-- **A program whose every call keeps an invariant** and is a step of the
guarantee where the invariant holds. -/
theorem of_all {φ : ∀ ⦃β : Type⦄, E β → Prop} {I : σ → Prop} {p : Prog E α} (hst : K.Stable i I)
    (hφ : ∀ ⦃β : Type⦄ (e : E β), φ e → ∀ o s, I s → C.call i e o s →
      K.guar i s (S.exec i e o s).2 ∧ I (S.exec i e o s).2)
    (hp : p.All φ) : Triple S C K i I p fun _ => I := by
  induction p with
  | done a => exact done hst fun _ hs => hs
  | call e k ih =>
    exact call (fun _ => I) (fun _ => hst) (hφ e hp.1) fun b => ih b (hp.2 b)

end Triple

/-! ### What a program that may fail does

Its calls are those of another family, each opened by `f` into a program
over `E`. -/

/-- `M` if the program succeeded, `B` if it failed. -/
def Post (B : σ → Prop) (M : α → σ → Prop) : Except ε α → σ → Prop
  | .ok a => M a
  | .error _ => B

theorem stable_post {B : σ → Prop} {M : α → σ → Prop} (hB : K.Stable i B)
    (hM : ∀ a, K.Stable i (M a)) : ∀ r : Except ε α, K.Stable i (Post B M r)
  | .ok a => hM a
  | .error _ => hB

/-- From `P`, the program with its calls opened is safe. -/
def Does {F : Type → Type} (S : Semantics ι E O A σ) (C : StepCond ι E O A σ) (K : Contract ι σ)
    (i : ι) (f : ∀ ⦃β : Type⦄, F β → Prog E β) (P : σ → Prop) (x : Fallible F ε α)
    (Q : Except ε α → σ → Prop) : Prop :=
  Triple S C K i P (x.run.expand f) Q

namespace Does

variable {F : Type → Type} {f : ∀ ⦃β : Type⦄, F β → Prog E β} {ε' : Type} {P P' B B' : σ → Prop}
  {M : α → σ → Prop}

/-- Calls opened into themselves are not opened. -/
theorem iff_triple {x : Fallible E ε α} {Q : Except ε α → σ → Prop} :
    Does S C K i (fun _ e => .perform e) P x Q ↔ Triple S C K i P x.run Q := by
  rw [Does, Prog.expand_perform]

theorem pre {x : Fallible F ε α} {Q : Except ε α → σ → Prop} (h : Does S C K i f P x Q)
    (hP : ∀ s, P' s → P s) : Does S C K i f P' x Q :=
  Triple.pre h hP

/-- A value returned. -/
theorem pure {a : α} (hM : K.Stable i (M a)) (hP : ∀ s, P s → M a s) :
    Does S C K i f P (pure a : Fallible F ε α) (Post B M) :=
  Triple.done (Q := Post B M) hM hP

/-- A failure. -/
theorem throw {e : ε} (hB : K.Stable i B) (hP : ∀ s, P s → B s) :
    Does S C K i f P (throw e : Fallible F ε α) (Post B M) :=
  Triple.done (Q := Post B M) hB hP

/-- **Sequencing**: a failure of the first is the failure of both. -/
theorem bind {x : Fallible F ε γ} {g : γ → Fallible F ε α} (M' : γ → σ → Prop)
    (hB : K.Stable i B) (hx : Does S C K i f P x (Post B M'))
    (hg : ∀ a, Does S C K i f (M' a) (g a) (Post B M)) :
    Does S C K i f P (x >>= g) (Post B M) := by
  rw [Does, ExceptT.run_bind, Prog.expand_bind]
  refine Triple.bind _ hx fun r => ?_
  cases r with
  | ok a => exact hg a
  | error e => exact Triple.done (Q := Post B M) hB fun _ hs => hs

/-- One call that may fail does what it is opened into. -/
theorem ask {g : ε' → ε} {e : F (Except ε' α)} (hB : K.Stable i B) (hM : ∀ a, K.Stable i (M a))
    (he : Triple S C K i P (f e) (Post B M)) :
    Does S C K i f P (Fallible.ask g e) (Post B M) := by
  refine Triple.bind _ he fun r => ?_
  cases r with
  | ok a => exact Triple.done (Q := Post B M) (hM a) fun _ hs => hs
  | error e => exact Triple.done (Q := Post B M) hB fun _ hs => hs

/-- One call that is opened no further. -/
theorem ask_perform {g : ε' → ε} {e : F (Except ε' α)} {e' : E (Except ε' α)}
    (he : f e = .perform e') (hB : K.Stable i B) (hM : ∀ a, K.Stable i (M a))
    (hstep : ∀ o s, P s → C.call i e' o s →
      K.guar i s (S.exec i e' o s).2 ∧
        (∀ a, (S.exec i e' o s).1 = .ok a → M a (S.exec i e' o s).2) ∧
        ∀ x, (S.exec i e' o s).1 = .error x → B (S.exec i e' o s).2) :
    Does S C K i f P (Fallible.ask g e) (Post B M) := by
  refine ask hB hM (he ▸ Triple.perform (stable_post hB hM) fun o s hs ho => ?_)
  obtain ⟨hguar, hok, herr⟩ := hstep o s hs ho
  refine ⟨hguar, ?_⟩
  cases hr : (S.exec i e' o s).1 with
  | ok a => exact hok a hr
  | error x => exact herr x hr

/-- A run handed back as a value does not fail. -/
theorem attempt {x : Fallible F ε α} (hB : K.Stable i B) (hM : ∀ a, K.Stable i (M a))
    (hx : Does S C K i f P x (Post B M)) :
    Does S C K i f P (Fallible.attempt x : Fallible F ε' (Except ε α)) (Post B' (Post B M)) := by
  rw [Does, Fallible.run_attempt, Prog.expand_bind]
  exact Triple.bind _ hx fun r => Triple.done (Q := Post B' (Post B M)) (stable_post hB hM r)
    fun _ hs => hs

/-- Renaming the failure. -/
theorem adapt {g : ε → ε'} {x : Fallible F ε α} (hB : K.Stable i B) (hM : ∀ a, K.Stable i (M a))
    (hx : Does S C K i f P x (Post B M)) : Does S C K i f P (x.adapt g) (Post B M) := by
  show Triple S C K i P ((x.run >>= fun r => .done (r.mapError g)).expand f) _
  rw [Prog.expand_bind]
  refine Triple.bind _ hx fun r => ?_
  cases r with
  | ok a => exact Triple.done (Q := Post B M) (hM a) fun _ hs => hs
  | error e => exact Triple.done (Q := Post B M) hB fun _ hs => hs

theorem mono {M' : α → σ → Prop} {x : Fallible F ε α} (hx : Does S C K i f P x (Post B M))
    (hB : ∀ s, B s → B' s) (hM : ∀ a s, M a s → M' a s) : Does S C K i f P x (Post B' M') :=
  hx.post fun r s hs => by
    cases r with
    | ok a => exact hM a s hs
    | error e => exact hB s hs

/-- **Programs all of whose calls keep `P`** keep it. -/
theorem of_all {φ : ∀ ⦃β : Type⦄, F β → Prop} {x : Fallible F ε α} (hst : K.Stable i P)
    (hφ : ∀ ⦃β : Type⦄ (e : F β), φ e → Triple S C K i P (f e) fun _ => P)
    (hx : Fallible.All φ x) : Does S C K i f P x (Post P fun _ => P) := by
  have hp : ∀ {δ : Type} {p : Prog F δ}, p.All φ → Triple S C K i P (p.expand f) fun _ => P := by
    intro δ p hp
    induction p with
    | done a => exact Triple.done hst fun _ hs => hs
    | call e k ih => exact Triple.bind _ (hφ e hp.1) fun b => ih b (hp.2 b)
  exact (hp hx).post fun r s hs => by cases r <;> exact hs

end Does

/-! ## The programs together -/

/-- Every task is safe from here on. -/
def PoolSafe (S : Semantics ι E O A σ) (C : StepCond ι E O A σ) (K : Contract ι σ)
    (Q : ι → α → σ → Prop) (c : Config ι E α σ) : Prop :=
  ∀ i s', ReflTransGen (K.rely i) c.state s' → Safe S C K i (Q i) (c.task i) s'

namespace PoolSafe

variable {Q : ι → α → σ → Prop} {c : Config ι E α σ}

/-- A family started from preconditions that are stable is safe. -/
theorem init {P : ι → σ → Prop} (hst : ∀ i, K.Stable i (P i)) (hP : ∀ i, P i c.state)
    (h : ∀ i, Triple S C K i (P i) (c.task i) (Q i)) : PoolSafe S C K Q c :=
  fun i s' hs' => h i s' ((hst i).rtc hs' (hP i))

/-- A call a task is about to make is a step of its guarantee. -/
theorem guar (h : PoolSafe S C K Q c) {i : ι} {β : Type} {e : E β} {k : β → Prog E α}
    (hi : c.task i = .call e k) {o : O} (ho : C.call i e o c.state) :
    K.guar i c.state (S.exec i e o c.state).2 := by
  have hsafe := h i c.state .refl
  rw [hi] at hsafe
  exact (hsafe o ho).1

/-- What a task that has returned returned. -/
theorem of_done (h : PoolSafe S C K Q c) {i : ι} {a : α} (hi : c.task i = .done a) :
    Q i a c.state := by
  have hsafe := h i c.state .refl
  rw [hi] at hsafe
  exact hsafe _ .refl

variable [DecidableEq ι]

/-- **One move of any of them keeps every task safe.** -/
theorem step (hK : K.Fits S C) (h : PoolSafe S C K Q c) {m : Move ι O A}
    (hm : c.Admits C m) : PoolSafe S C K Q (c.step S m) := by
  cases m with
  | env a =>
    intro j s' hs'
    exact h j s' (.head (hK.env_rely j a c.state hm) hs')
  | run i o =>
    intro j s' hs'
    cases hi : c.task i with
    | done a =>
      rw [Config.step_of_done hi] at hs' ⊢
      exact h j s' hs'
    | call e k =>
      rw [Config.admits_of_call hi] at hm
      rw [Config.step_of_call hi] at hs' ⊢
      dsimp only at hs' ⊢
      rcases eq_or_ne j i with rfl | hne
      · have hsafe := h j c.state .refl
        rw [hi] at hsafe
        rw [Function.update_self]
        exact (hsafe o hm).2 s' hs'
      · rw [Function.update_of_ne hne]
        exact h j s' (.head (hK.guar_rely hne.symm (h.guar hi hm)) hs')

/-- **A run whose moves meet the condition keeps every task safe.** -/
theorem runs (hK : K.Fits S C) {ms : List (Move ι O A)} (h : PoolSafe S C K Q c)
    (hms : c.Meets S C ms) : PoolSafe S C K Q (c.runs S ms) := by
  induction ms generalizing c with
  | nil => exact h
  | cons m ms ih => exact ih (h.step hK hms.1) hms.2

/-- **An invariant of the run**: what every guarantee and every move of the
environment keep holds at its end. -/
theorem invariant (hK : K.Fits S C) {J : σ → Prop}
    (hguar : ∀ i s s', K.guar i s s' → J s → J s')
    (henv : ∀ a s, C.env a s → J s → J (S.env a s))
    {ms : List (Move ι O A)} (h : PoolSafe S C K Q c) (hms : c.Meets S C ms) (hJ : J c.state) :
    J (c.runs S ms).state := by
  induction ms generalizing c with
  | nil => exact hJ
  | cons m ms ih =>
    refine ih (h.step hK hms.1) hms.2 ?_
    have hm := hms.1
    cases m with
    | env a => exact henv a c.state hm hJ
    | run i o =>
      cases hi : c.task i with
      | done a => rwa [Config.step_of_done hi]
      | call e k =>
        rw [Config.admits_of_call hi] at hm
        rw [Config.step_of_call hi]
        exact hguar i _ _ (h.guar hi hm) hJ

/-- **A program alone keeps its invariant** in every run, wherever it
stops. -/
theorem solo_invariant {S : Semantics Unit E O Empty σ} {C : StepCond Unit E O Empty σ}
    {J P : σ → Prop} {p : Prog E α} {Q : α → σ → Prop} {s : σ}
    (h : Triple S C (.solo J) () P p Q) (hP : P s) (hJ : J s) {ms : List (Move Unit O Empty)}
    (hms : (⟨fun _ => p, s⟩ : Config Unit E α σ).Meets S C ms) :
    J ((⟨fun _ => p, s⟩ : Config Unit E α σ).runs S ms).state :=
  (init (Q := fun _ => Q) (P := fun _ => P) (fun _ => Contract.solo_stable) (fun _ => hP)
    fun _ => h).invariant Contract.solo_fits (fun _ _ _ hg _ => hg) (fun a => a.elim) hms hJ

end PoolSafe

end FileSync
