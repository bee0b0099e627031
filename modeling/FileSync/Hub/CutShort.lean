import FileSync.Hub.EditWins
import FileSync.Hub.CopyNames
import FileSync.Hub.Updates
import FileSync.Common.Interleave
/-!
# An upsert that is cut short

The hub may stop after any request of an upsert. The database it leaves is
one it could have come to otherwise. The documents beside the path are as
whole as they were, unless the last request wrote the body of a conflict
copy, whose content was still to come: that copy is shown and has none.
-/

namespace FileSync

namespace HalfWritten

open Routes (isSystemId)

/-- What is left of a database when the hub stops `n` requests into an
upsert. -/
def stopped (C : Couch) (env : HubEnv) (change : PushChange) (n : ℕ) (db : Db) : Db :=
  ((Push.postChanges env [change]).run.after C.answer n db).2

/-- A body beside the path is a conflict copy's. -/
def copyBody (path : Path) ⦃β : Type⦄ : CouchReq β → Option Path
  | .putDoc _ id _ _ => if id = path then none else some id
  | _ => none

/-- The requests, with a note of the copy whose body was the last of them. -/
def noting (C : Couch) (path : Path) : Prog.Handler CouchReq (Db × Option Path) := fun _ e s =>
  ((C.answer e s.1).1, (C.answer e s.1).2, copyBody path e)

/-- What is shown has a content. -/
def Whole (t : Tree) : Prop := ∀ w, t.visible = some w → w.content.isSome = true

variable {C : Couch} {env : HubEnv} {change : PushChange} {db db₀ db' : Db} {path p q : Path}
  {t : Tree} {s : Db × Option Path}

/-! ## Where the hub stops -/

/-- Beside the path everything is as whole as it was. -/
def AsWhole (path : Path) (db db' : Db) : Prop :=
  ∀ p, p ≠ path → (Whole (db'.docs p) ↔ Whole (db.docs p))

/-- Between two writes everything beside the path is as whole as it was; in
the midst of a copy that copy is not whole. -/
def Noted (path : Path) (db : Db) (s : Db × Option Path) : Prop :=
  match s.2 with
  | none => AsWhole path db s.1
  | some q => q ≠ path ∧ (isSystemId path = false → isSystemId q = false) ∧ ¬ Whole (s.1.docs q)

/-- No copy is half written. -/
def Resting (path : Path) (db : Db) (s : Db × Option Path) : Prop :=
  s.2 = none ∧ AsWhole path db s.1

theorem Resting.noted (h : Resting path db s) : Noted path db s := by
  unfold Noted
  rw [h.1]
  exact h.2

/-- From `P` the program keeps the note true and ends in `Q`. -/
abbrev Walks (C : Couch) (path : Path) (db : Db) {ε α : Type} (P : Db × Option Path → Prop)
    (x : Hub ε α) (Q : Except ε α → Db × Option Path → Prop) : Prop :=
  Triple (.alone (noting C path)) .any (.solo (Noted path db)) () P x.run Q

variable {ε ε' α γ : Type} {P : Db × Option Path → Prop} {Q : Except ε α → Db × Option Path → Prop}

theorem Walks.bind {x : Hub ε γ} {g : γ → Hub ε α} (M : Except ε γ → Db × Option Path → Prop)
    (hx : Walks C path db P x M) (hg : ∀ a, Walks C path db (M (.ok a)) (g a) Q)
    (herr : ∀ e s, M (.error e) s → Q (.error e) s) : Walks C path db P (x >>= g) Q :=
  Triple.bindE M hx hg (fun _ => Contract.solo_stable) herr

/-- One request. -/
theorem Walks.call {β : Type} {e : CouchReq β} {g : β → Except ε α}
    (hstep : ∀ s, P s → Noted path db (noting C path e s).2 ∧
      Q (g (noting C path e s).1) (noting C path e s).2) :
    Walks C path db P (.mk (.call e fun r => .done (g r))) Q :=
  Triple.call (fun r s => Q (g r) s) (fun _ => Contract.solo_stable) (fun _ s hs _ => hstep s hs)
    fun _ => Triple.done Contract.solo_stable fun _ h => h

theorem Walks.adapt {x : Hub ε α} {g : ε → ε'} {Q : Except ε' α → Db × Option Path → Prop}
    (M : Except ε α → Db × Option Path → Prop) (hx : Walks C path db P x M)
    (hM : ∀ r s, M r s → Q (r.mapError g) s) : Walks C path db P (x.adapt g) Q :=
  Triple.bind M hx fun r => Triple.done Contract.solo_stable (hM r)

theorem Walks.attempt {x : Hub ε α} (hx : Walks C path db P x Q) :
    Walks C path db P (Fallible.attempt x : Hub ε' (Except ε α)) (Post (fun _ => False) Q) := by
  refine Triple.post (Triple.attempt (fun _ => Contract.solo_stable) hx) ?_
  rintro r s ⟨r', rfl, hs⟩
  exact hs

/-- A request that leaves everything beside the path as whole as it was. -/
def Keeps (C : Couch) (path : Path) ⦃β : Type⦄ (e : CouchReq β) : Prop :=
  copyBody path e = none ∧ ∀ db p, p ≠ path → (C.answer e db).2.docs p = db.docs p

/-- A copy's body is there, and its content is not. -/
def Bare (C : Couch) (path : Path) (db : Db) (q : Path) (rev : Rev) (s : Db × Option Path) : Prop :=
  s.2 = some q ∧ q ≠ path ∧ ∃ d parent body, AsWhole path db d ∧ (d.docs q).visible = none ∧
    (∀ p, parent = some p → p ∈ d.docs q) ∧ rev = (C.child (d.docs q) parent false body none).rev ∧
    s.1 = d.write q (C.child (d.docs q) parent false body none)

/-- A name for a copy that is free. -/
def Free (path : Path) (q : Path) (s : Db × Option Path) : Prop :=
  q ≠ path ∧ (isSystemId path = false → isSystemId q = false) ∧ (s.1.docs q).visible = none

/-- No copy is half written, unless its content could not be sent. -/
def Calm (path : Path) (db : Db) : Except ResolveError α → Db × Option Path → Prop
  | .ok _, s => Resting path db s
  | .error e, s => e = .couch .transport ∨ Resting path db s

end HalfWritten

end FileSync
