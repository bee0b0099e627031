import FileSync.Common.Interleave
/-!
# One program on two states

What a program may call depends on what its calls are answered: a program
that asks for a list goes on to call for each entry of it. `Given` is the
reading that assumes something of every answer, and says something of what
the program returns.

Two handlers that answer such calls alike, and whose states stay related,
run such a program to the same end, wherever it is stopped. And programs side
by side that keep an invariant, and answer as is assumed as long as it holds,
keep it in every order of steps.
-/

namespace FileSync

namespace Prog

variable {E : Type → Type} {α β : Type} {σ τ : Type*} {φ φ' : ∀ ⦃β : Type⦄, E β → Prop}
  {ψ : ∀ ⦃β : Type⦄, E β → β → Prop} {G G' : α → Prop}

/-- **Under the assumption `ψ` on answers**, every call is one of `φ` and what
is returned is in `G`. -/
def Given (φ : ∀ ⦃β : Type⦄, E β → Prop) (ψ : ∀ ⦃β : Type⦄, E β → β → Prop) (G : α → Prop) :
    Prog E α → Prop
  | done a => G a
  | call e k => φ e ∧ ∀ b, ψ e b → (k b).Given φ ψ G

@[simp] theorem given_done (a : α) : (done a : Prog E α).Given φ ψ G ↔ G a := Iff.rfl

@[simp] theorem given_call (e : E β) (k : β → Prog E α) :
    (call e k).Given φ ψ G ↔ φ e ∧ ∀ b, ψ e b → (k b).Given φ ψ G := Iff.rfl

theorem Given.bind {p : Prog E α} {f : α → Prog E β} {G' : β → Prop} (hp : p.Given φ ψ G)
    (hf : ∀ a, G a → (f a).Given φ ψ G') : (p >>= f).Given φ ψ G' := by
  induction p with
  | done a => exact hf a hp
  | call e k ih => exact ⟨hp.1, fun b hb => ih b (hp.2 b hb)⟩

theorem Given.mono {p : Prog E α} (hφ : ∀ ⦃β : Type⦄ (e : E β), φ e → φ' e)
    (hG : ∀ a, G a → G' a) (hp : p.Given φ ψ G) : p.Given φ' ψ G' := by
  induction p with
  | done a => exact hG a hp
  | call e k ih => exact ⟨hφ e hp.1, fun b hb => ih b (hp.2 b hb)⟩

/-- Nothing need be assumed of a program all of whose calls are in `φ`. -/
theorem All.given {p : Prog E α} (hp : p.All φ) : p.Given φ ψ fun _ => True := by
  induction p with
  | done a => trivial
  | call e k ih => exact ⟨hp.1, fun b _ => ih b (hp.2 b)⟩

/-- **A refinement**: on related states, both handlers answer a call of `φ`
alike and as is assumed, and leave related states. -/
structure Refines (h : Handler E σ) (g : Handler E τ) (φ : ∀ ⦃β : Type⦄, E β → Prop)
    (ψ : ∀ ⦃β : Type⦄, E β → β → Prop) (R : σ → τ → Prop) : Prop where
  answer : ∀ ⦃β : Type⦄ (e : E β) s t, φ e → R s t → (h e s).1 = (g e t).1
  assumed : ∀ ⦃β : Type⦄ (e : E β) s t, φ e → R s t → ψ e (g e t).1
  related : ∀ ⦃β : Type⦄ (e : E β) s t, φ e → R s t → R (h e s).2 (g e t).2

variable {h : Handler E σ} {g : Handler E τ} {R : σ → τ → Prop} {s : σ} {t : τ}

/-- **A run** comes to the same end on both. -/
theorem Refines.run (href : Refines h g φ ψ R) {p : Prog E α} (hp : p.Given φ ψ G)
    (hst : R s t) : (p.run h s).1 = (p.run g t).1 ∧ G (p.run g t).1 ∧
      R (p.run h s).2 (p.run g t).2 := by
  induction p generalizing s t with
  | done a => exact ⟨rfl, hp, hst⟩
  | call e k ih =>
    have hans := href.answer e s t hp.1 hst
    have hrest := ih _ (hp.2 _ (href.assumed e s t hp.1 hst)) (href.related e s t hp.1 hst)
    rw [run_call, run_call, hans]
    exact hrest

/-- **A run that is stopped** has the same left to do on both. -/
theorem Refines.after (href : Refines h g φ ψ R) {p : Prog E α} (hp : p.Given φ ψ G)
    (hst : R s t) (n : ℕ) : (p.after h n s).1 = (p.after g n t).1 ∧
      R (p.after h n s).2 (p.after g n t).2 := by
  induction n generalizing p s t with
  | zero =>
    rw [after_zero, after_zero]
    exact ⟨rfl, hst⟩
  | succ n ih =>
    cases p with
    | done a =>
      rw [after_done, after_done]
      exact ⟨rfl, hst⟩
    | call e k =>
      have hans := href.answer e s t hp.1 hst
      have hrest := ih (hp.2 _ (href.assumed e s t hp.1 hst)) (href.related e s t hp.1 hst)
      rw [after_call, after_call, hans]
      exact hrest

end Prog

namespace Fallible

variable {E : Type → Type} {ε ε' α β : Type} {φ : ∀ ⦃β : Type⦄, E β → Prop}
  {ψ : ∀ ⦃β : Type⦄, E β → β → Prop} {G : α → Prop} {G' : β → Prop}

/-- What such a program returns, if it does not fail, is in `G`. -/
def Given (φ : ∀ ⦃β : Type⦄, E β → Prop) (ψ : ∀ ⦃β : Type⦄, E β → β → Prop) (G : α → Prop)
    (x : Fallible E ε α) : Prop :=
  x.run.Given φ ψ fun r => ∀ a, r = .ok a → G a

theorem Given.pure {a : α} (h : G a) : Given φ ψ G (pure a : Fallible E ε α) := by
  rintro _ ⟨⟩
  exact h

theorem Given.throw (e : ε) : Given φ ψ G (throw e : Fallible E ε α) := by
  rintro _ ⟨⟩

theorem Given.ask (f : ε' → ε) {e : E (Except ε' α)} (he : φ e)
    (hG : ∀ a, ψ e (.ok a) → G a) : Given φ ψ G (ask f e) := by
  refine ⟨he, fun b hb a ha => ?_⟩
  cases b with
  | error x => cases ha
  | ok a' =>
    obtain rfl := Except.ok.inj ha
    exact hG a' hb

theorem Given.bind {x : Fallible E ε α} {f : α → Fallible E ε β} (hx : Given φ ψ G x)
    (hf : ∀ a, G a → Given φ ψ G' (f a)) : Given φ ψ G' (x >>= f) := by
  refine Prog.Given.bind hx fun r hr => ?_
  cases r with
  | ok a => exact hf a (hr a rfl)
  | error e => exact Given.throw e

theorem Given.attempt {x : Fallible E ε α} (hx : Given φ ψ G x) :
    Given φ ψ (fun r => ∀ a, r = .ok a → G a) (attempt x : Fallible E ε' (Except ε α)) := by
  refine Prog.Given.bind hx fun r hr => ?_
  rintro _ ⟨⟩
  exact hr

theorem Given.adapt {f : ε → ε'} {x : Fallible E ε α} (hx : Given φ ψ G x) :
    Given φ ψ G (x.adapt f) := by
  refine Prog.Given.bind hx fun r hr => ?_
  rintro a ha
  cases r with
  | ok a' => exact hr a (congrArg Except.ok (Except.ok.inj ha))
  | error e => cases ha

/-- Nothing need be assumed of a program all of whose calls are in `φ`. -/
theorem All.given {x : Fallible E ε α} (hx : All φ x) : Given φ ψ (fun _ => True) x :=
  (Prog.All.given hx).mono (fun _ _ h => h) fun _ _ _ _ => trivial

end Fallible

/-! ## Side by side -/

/-- A move of one of these tasks, or the environment's. -/
def Move.isOf {ι O A : Type} (keep : ι → Bool) : Move ι O A → Bool
  | .run i _ => keep i
  | .env _ => true

/-- The same move with another reading of outcomes. -/
def Move.map {ι O O' A : Type} (f : O → O') : Move ι O A → Move ι O' A
  | .run i o => .run i (f o)
  | .env a => .env a

/-- A move whose outcome, or whose change of the environment's, is allowed. -/
def Move.Allowed {ι O A : Type} (okO : O → Prop) (okA : A → Prop) : Move ι O A → Prop
  | .run _ o => okO o
  | .env a => okA a

namespace Config

variable {ι : Type} {E : Type → Type} {O A α σ : Type} [DecidableEq ι] {S : Semantics ι E O A σ}
  {c : Config ι E α σ} {φ : ∀ ⦃β : Type⦄, E β → Prop} {ψ : ∀ ⦃β : Type⦄, E β → β → Prop}
  {G : ι → α → Prop} {J : σ → Prop} {okO : O → Prop} {okA : A → Prop}

/-- **One move** of programs that assume no more of an answer than the invariant
gives. -/
theorem step_of_given
    (hexec : ∀ i ⦃β : Type⦄ (e : E β) o s, okO o → φ e → J s →
      ψ e (S.exec i e o s).1 ∧ J (S.exec i e o s).2)
    (henv : ∀ a s, okA a → J s → J (S.env a s)) (hall : ∀ i, (c.task i).Given φ ψ (G i))
    (hJ : J c.state) {m : Move ι O A} (hm : m.Allowed okO okA) :
    (∀ i, ((c.step S m).task i).Given φ ψ (G i)) ∧ J (c.step S m).state := by
  cases m with
  | env a => exact ⟨hall, henv a c.state hm hJ⟩
  | run i o =>
    cases hi : c.task i with
    | done a =>
      rw [step_of_done hi]
      exact ⟨hall, hJ⟩
    | call e k =>
      have hcalls := hall i
      rw [hi] at hcalls
      obtain ⟨hans, hkept⟩ := hexec i e o c.state hm hcalls.1 hJ
      rw [step_of_call hi]
      refine ⟨fun j => ?_, hkept⟩
      dsimp only
      rcases eq_or_ne j i with rfl | hne
      · rw [Function.update_self]
        exact hcalls.2 _ hans
      · rw [Function.update_of_ne hne]
        exact hall j

/-- **Every run.** -/
theorem runs_of_given
    (hexec : ∀ i ⦃β : Type⦄ (e : E β) o s, okO o → φ e → J s →
      ψ e (S.exec i e o s).1 ∧ J (S.exec i e o s).2)
    (henv : ∀ a s, okA a → J s → J (S.env a s)) (hall : ∀ i, (c.task i).Given φ ψ (G i))
    (hJ : J c.state) {ms : List (Move ι O A)} (hms : ∀ m ∈ ms, m.Allowed okO okA) :
    (∀ i, ((c.runs S ms).task i).Given φ ψ (G i)) ∧ J (c.runs S ms).state := by
  induction ms generalizing c with
  | nil => exact ⟨hall, hJ⟩
  | cons m ms ih =>
    obtain ⟨hall', hJ'⟩ := step_of_given hexec henv hall hJ (hms m List.mem_cons_self)
    exact ih hall' hJ' fun m' hm => hms m' (List.mem_cons_of_mem _ hm)

theorem step_task_of_done {i : ι} {a : α} (h : c.task i = .done a) (m : Move ι O A) :
    (c.step S m).task i = .done a := by
  cases m with
  | env _ => exact h
  | run j o =>
    cases hj : c.task j with
    | done b => rwa [step_of_done hj]
    | call e k =>
      have hne : i ≠ j := by
        rintro rfl
        rw [h] at hj
        cases hj
      rw [step_of_call hj]
      exact (Function.update_of_ne hne _ _).trans h

theorem runs_task_of_done {i : ι} {a : α} (h : c.task i = .done a) (ms : List (Move ι O A)) :
    (c.runs S ms).task i = .done a := by
  induction ms generalizing c with
  | nil => exact h
  | cons m ms ih => exact ih (step_task_of_done h m)

/-- **Tasks that have returned** take no part in a run. -/
theorem runs_filter {keep : ι → Bool} (h : ∀ i, keep i = false → ∃ a, c.task i = .done a)
    (ms : List (Move ι O A)) : c.runs S (ms.filter (Move.isOf keep)) = c.runs S ms := by
  induction ms generalizing c with
  | nil => rfl
  | cons m ms ih =>
    have hrest := ih (c := c.step S m) fun i hi =>
      let ⟨a, ha⟩ := h i hi
      ⟨a, step_task_of_done ha m⟩
    by_cases hkept : Move.isOf keep m = true
    · rw [List.filter_cons_of_pos hkept]
      exact hrest
    · rw [List.filter_cons_of_neg hkept]
      cases m with
      | env a => exact absurd rfl hkept
      | run i o =>
        obtain ⟨a, ha⟩ := h i (by simpa [Move.isOf] using hkept)
        have hstay : c.step S (.run i o) = c := step_of_done ha
        rw [runs_cons, hstay]
        rwa [hstay] at hrest

end Config

/-! ## Calls beside -/

namespace Prog

variable {E F : Type → Type} {α β : Type}

/-- The second program is the first without its calls of `F`, whose answers
make no difference to it. -/
inductive Erases : Prog (Either F E) α → Prog E α → Prop
  | done (a : α) : Erases (done a) (done a)
  | kept {β : Type} (e : E β) {k : β → Prog (Either F E) α} {k' : β → Prog E α}
      (h : ∀ b, Erases (k b) (k' b)) : Erases (call (.inr e) k) (call e k')
  | dropped {β : Type} (f : F β) {k : β → Prog (Either F E) α} {q : Prog E α}
      (h : ∀ b, Erases (k b) q) : Erases (call (.inl f) k) q

theorem Erases.bind {p : Prog (Either F E) α} {q : Prog E α} {f : α → Prog (Either F E) β}
    {g : α → Prog E β} (hp : Erases p q) (hf : ∀ a, Erases (f a) (g a)) :
    Erases (p >>= f) (q >>= g) := by
  induction hp with
  | done a => exact hf a
  | kept e _ ih => exact .kept e fun b => ih b
  | dropped e _ ih => exact .dropped e fun b => ih b

/-- A program of `E` among the calls of both. -/
theorem erases_expand (p : Prog E α) : Erases (p.expand fun _ e => perform (.inr e : Either F E _)) p := by
  induction p with
  | done a => exact .done a
  | call e k ih => exact .kept e ih

/-- A program of `F`, for what it does. -/
theorem erases_unit (p : Prog F Unit) :
    Erases (p.expand fun _ e => perform (.inl e : Either F E _)) (done ()) := by
  induction p with
  | done a => exact .done ()
  | call e k ih => exact .dropped e ih

end Prog

namespace Config

open Prog

variable {ι : Type} {E F : Type → Type} {O O' A α σ τ : Type} [DecidableEq ι]
  {S : Semantics ι (Either F E) O A σ} {T : Semantics ι E O' A τ} {view : σ → τ} {outcome : O → O'}
  (hdropped : ∀ i ⦃β : Type⦄ (f : F β) o s, view (S.exec i (.inl f) o s).2 = view s)
  (hkept : ∀ i ⦃β : Type⦄ (e : E β) o s, (S.exec i (.inr e) o s).1 =
    (T.exec i e (outcome o) (view s)).1 ∧
      view (S.exec i (.inr e) o s).2 = (T.exec i e (outcome o) (view s)).2)
  (henv : ∀ a s, view (S.env a s) = T.env a (view s))
  {c : Config ι (Either F E) α σ} {d : Config ι E α τ}

include hdropped hkept henv

/-- **One move** with the calls beside is one move without them, or none. -/
theorem step_of_erases (m : Move ι O A) (hstate : view c.state = d.state)
    (htask : ∀ i, Erases (c.task i) (d.task i)) :
    ∃ ms', ms'.Sublist [Move.map outcome m] ∧ view (c.step S m).state = (d.runs T ms').state ∧
      ∀ i, Erases ((c.step S m).task i) ((d.runs T ms').task i) := by
  cases m with
  | env a => exact ⟨[.env a], .refl _, (henv a c.state).trans (by rw [hstate]; rfl), htask⟩
  | run i o =>
    have hi := htask i
    cases hc : c.task i with
    | done a =>
      rw [step_of_done hc]
      exact ⟨[], List.nil_sublist _, hstate, htask⟩
    | call e k =>
      rw [step_of_call hc]
      rw [hc] at hi
      generalize hd : d.task i = q at hi
      cases hi with
      | dropped f h =>
        -- the other program is where it was
        refine ⟨[], List.nil_sublist _, (hdropped i f o c.state).trans hstate, fun j => ?_⟩
        dsimp only
        rcases eq_or_ne j i with rfl | hne
        · rw [Function.update_self, runs_nil, hd]
          exact h _
        · rw [Function.update_of_ne hne]
          exact htask j
      | kept e h =>
        obtain ⟨hans, hview⟩ := hkept i e o c.state
        rw [hstate] at hans hview
        refine ⟨[.run i (outcome o)], .refl _, ?_, fun j => ?_⟩
        · rw [runs_cons, step_of_call hd]
          exact hview
        · rw [runs_cons, step_of_call hd, runs_nil]
          dsimp only
          rcases eq_or_ne j i with rfl | hne
          · rw [Function.update_self, Function.update_self, hans]
            exact h _
          · rw [Function.update_of_ne hne, Function.update_of_ne hne]
            exact htask j

/-- **Without the calls beside**, the rest of the state comes to be what it
is with them: what is left out of a run is the moves that made them. -/
theorem runs_of_erases (ms : List (Move ι O A)) (hstate : view c.state = d.state)
    (htask : ∀ i, Erases (c.task i) (d.task i)) :
    ∃ ms', ms'.Sublist (ms.map (Move.map outcome)) ∧
      view (c.runs S ms).state = (d.runs T ms').state ∧
        ∀ i, Erases ((c.runs S ms).task i) ((d.runs T ms').task i) := by
  induction ms generalizing c d with
  | nil => exact ⟨[], .slnil, hstate, htask⟩
  | cons m ms ih =>
    obtain ⟨m', hm', hstate', htask'⟩ := step_of_erases hdropped hkept henv m hstate htask
    obtain ⟨ms', hms', hrest⟩ := ih hstate' htask'
    have happend : d.runs T (m' ++ ms') = (d.runs T m').runs T ms' := List.foldl_append
    refine ⟨m' ++ ms', hm'.append hms', ?_⟩
    rwa [happend]

end Config

end FileSync
