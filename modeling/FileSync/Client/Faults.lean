import FileSync.Client.Calls
/-!
# Operations that fail

An operation of the engine may fail before anything has happened, or take
place and be reported as failed all the same. What the engine makes of it
is the same; what it finds afterwards is not. What a hub answers to a pull
may be fixed beforehand, one answer for each request.
-/

namespace FileSync

/-- What becomes of an operation. -/
inductive Fate
  | done
  | refused
  /-- It takes place, and is reported as failed. -/
  | lost
deriving DecidableEq, Repr

/-- What a failed operation answers. A notification answers nothing. -/
def EngineReq.failure ⦃β : Type⦄ : EngineReq β → β
  | .metaGet _ => .error (.io "")
  | .metaPut _ _ => .error (.io "")
  | .metaDelete _ => .error (.io "")
  | .metaListKeys _ => .error (.io "")
  | .fileGet _ => .error (.io "")
  | .filePut _ _ _ => .error (.io "")
  | .fileDelete _ => .error (.io "")
  | .hubChanges _ _ => .error (.transport "")
  | .hubGetFile _ _ => .error (.transport "")
  | .hubPush _ _ => .error (.transport "")
  | .notifyError _ => ()

namespace Fate

/-- An operation's answer and the state after it, given what it does when it
is done. -/
def deal {σ β : Type} (fate : Fate) (e : EngineReq β) (r : β × σ) (s : σ) : β × σ :=
  match fate with
  | done => r
  | refused => (e.failure, s)
  | lost => (e.failure, r.2)

variable {σ β : Type} {fate : Fate} {e : EngineReq β} {r : β × σ} {s : σ}

/-- The state is the old one or the one the operation leads to. -/
theorem deal_snd (fate : Fate) (e : EngineReq β) (r : β × σ) (s : σ) :
    (fate.deal e r s).2 = s ∨ (fate.deal e r s).2 = r.2 := by
  cases fate
  exacts [.inr rfl, .inl rfl, .inr rfl]

end Fate

/-- An operation that answered without a failure was done. -/
theorem Fate.of_ok {σ ε α : Type} {fate : Fate} {e : EngineReq (Except ε α)}
    {r : Except ε α × σ} {s : σ} {a : α} (hfail : ∃ x, e.failure = .error x)
    (h : (fate.deal e r s).1 = .ok a) : r.1 = .ok a ∧ (fate.deal e r s).2 = r.2 := by
  obtain ⟨x, hx⟩ := hfail
  cases fate with
  | done => exact ⟨h, rfl⟩
  | refused => exact absurd (hx.symm.trans h) (by rintro ⟨⟩)
  | lost => exact absurd (hx.symm.trans h) (by rintro ⟨⟩)

/-- What a hub answers: the batch, and to the `n`-th request for a file. -/
structure HubScript where
  changes : Except HubError ChangesResponse
  file : ℕ → Except HubError (Option FileContent)

namespace HubScript

/-- The entries of the batch. -/
def entries (H : HubScript) : List ChangeEntry :=
  match H.changes with
  | .ok resp => resp.changes
  | .error _ => []

theorem entries_of_ok {H : HubScript} {resp : ChangesResponse} (h : H.changes = .ok resp) :
    H.entries = resp.changes := by
  simp only [entries, h]

end HubScript

end FileSync
