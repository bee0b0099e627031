import FileSync.Hub.Tree
import FileSync.Model.Routes
/-!
# Hub programs run alone

What each request of the hub's CouchDB client comes to when nothing else
writes to the database: the answer as a function of the document, and the
database after it. The programs built from them are then run by rewriting.
-/

namespace FileSync

/-- Run a hub program against CouchDB with nobody else there. -/
abbrev Hub.exec {ε α : Type} (C : Couch) (x : Hub ε α) (db : Db) : Except ε α × Db :=
  Fallible.exec C.answer x db

variable {C : Couch} {db : Db} {id : Path} {r : Rev}

namespace CouchClient

@[simp] theorem exec_getDoc : Hub.exec C (getDoc id) db = (.ok (db.docs id).doc?, db) := by
  show ((orMissing none ((Couch.orNotFound (db.docs id).doc?).map some)), db) = _
  cases (db.docs id).doc? <;> rfl

@[simp] theorem exec_getDocAtRev :
    Hub.exec C (getDocAtRev id r) db =
      (.ok (((db.docs id).find? r).map Node.toRevDoc), db) := by
  show ((orMissing none ((Couch.orNotFound (((db.docs id).find? r).map Node.toRevDoc)).map some)),
    db) = _
  cases (db.docs id).find? r <;> rfl

/-- The leaves and what is read off their contents, and nothing of a document
that is not there. -/
@[simp] theorem exec_getDocLeaves {lines : Bytes → List RevDoc} :
    Hub.exec C (getDocLeaves lines id) db =
      (.ok (leavesOfParts lines ((db.docs id).leaves.map Node.toPart)), db) := by
  show ((orMissing [] ((Couch.orNotFound (if (db.docs id) = [] then none
    else some ((db.docs id).leaves.map Node.toPart))).map (leavesOfParts lines))), db) = _
  by_cases h : db.docs id = []
  · rw [if_pos h, h]
    rfl
  · rw [if_neg h]
    rfl

@[simp] theorem exec_getAttachment {rev : Option Rev} :
    Hub.exec C (getAttachment id rev) db =
      ((Couch.orNotFound ((db.docs id).content? rev)).mapError CouchError.ofFailure, db) := rfl

@[simp] theorem exec_deleteDoc {caller : Caller} :
    Hub.exec C (deleteDoc caller id r) db =
      ((C.answer (.deleteDoc caller id r) db).1.mapError (CouchError.ofPut id),
        (C.answer (.deleteDoc caller id r) db).2) := rfl

@[simp] theorem exec_putDoc {caller : Caller} {rev : Option Rev} {body : Body} :
    Hub.exec C (putDoc caller id rev body) db =
      ((C.answer (.putDoc caller id rev body) db).1.mapError (CouchError.ofPut id),
        (C.answer (.putDoc caller id rev body) db).2) := rfl

theorem exec_putAttachment {caller : Caller} {contentType : String} {bytes : Bytes}
    (h : HeaderValue.accepts contentType = true) :
    Hub.exec C (putAttachment caller id r contentType bytes) db =
      ((C.answer (.putAttachment caller id r ⟨contentType, bytes⟩) db).1.mapError
        (CouchError.ofPut id), (C.answer (.putAttachment caller id r ⟨contentType, bytes⟩) db).2) := by
  rw [putAttachment, if_pos h]
  rfl

/-- What is no header's value is not sent. -/
theorem exec_putAttachment_unsent {caller : Caller} {contentType : String} {bytes : Bytes}
    (h : HeaderValue.accepts contentType = false) :
    Hub.exec C (putAttachment caller id r contentType bytes) db = (.error .transport, db) := by
  rw [putAttachment, h, if_neg Bool.false_ne_true]
  rfl

/-- An attachment that is accepted was sent. -/
theorem accepts_of_putAttachment {caller : Caller} {contentType : String} {bytes : Bytes}
    {rev : Rev} {db' : Db}
    (h : Hub.exec C (putAttachment caller id r contentType bytes) db = (.ok rev, db')) :
    HeaderValue.accepts contentType = true := by
  by_contra hnot
  rw [exec_putAttachment_unsent (Bool.not_eq_true _ ▸ hnot)] at h
  cases (Prod.mk.inj h).1

/-- Inserting a revision is never refused. -/
@[simp] theorem exec_putRevision {doc : BranchDoc} :
    Hub.exec C (putRevision doc) db = (.ok (), (C.answer (.bulkDocs doc) db).2) := by
  show ((C.answer (.bulkDocs doc) db).1.mapError CouchError.ofFailure, _) = _
  simp only [Couch.answer]
  cases (db.docs doc.id).find? doc.rev <;> rfl

/-! ## Leaves that are read as they are -/

/-- No line of a live leaf's content is read as a document. -/
def NoStrays (lines : Bytes → List RevDoc) (t : Tree) : Prop :=
  ∀ n ∈ t.liveLeaves, ∀ a ∈ n.content, lines a.data = []

/-- **The leaves are read as they are where nothing strays from their
contents.** -/
theorem leavesOfParts_of_noStrays {lines : Bytes → List RevDoc} {t : Tree}
    (h : NoStrays lines t) :
    leavesOfParts lines (t.leaves.map Node.toPart) = t.leaves.map Node.toRevDoc := by
  have hone : ∀ n ∈ t.leaves,
      (n.toPart.doc :: n.toPart.content.elim [] lines) = [n.toRevDoc] := by
    intro n hn
    have hnone : n.toPart.content.elim [] lines = [] := by
      rw [Node.toPart]
      cases hdel : n.deleted with
      | true => rfl
      | false =>
        cases hc : n.content with
        | none => rfl
        | some a => exact h n (Tree.mem_liveLeaves.2 ⟨hn, hdel⟩) a hc
    rw [hnone]
    rfl
  rw [leavesOfParts, List.flatMap_map, List.flatMap_congr hone, List.map_eq_flatMap]

end CouchClient

/-! ## One step at a time -/

namespace Hub

variable {ε ε' α β : Type} {x : Hub ε α} {f : α → Hub ε β} {g : ε → ε'} {db' : Db} {a : α} {e : ε}

theorem exec_bind_of_ok (hx : Hub.exec C x db = (.ok a, db')) :
    Hub.exec C (x >>= f) db = Hub.exec C (f a) db' :=
  Fallible.exec_bind_of_ok hx

theorem exec_bind_of_error (hx : Hub.exec C x db = (.error e, db')) :
    Hub.exec C (x >>= f) db = (.error e, db') :=
  Fallible.exec_bind_of_error hx

theorem exec_adapt_of_ok (hx : Hub.exec C x db = (.ok a, db')) :
    Hub.exec C (x.adapt g) db = (.ok a, db') :=
  Fallible.exec_adapt_of_ok hx

theorem exec_adapt_of_error (hx : Hub.exec C x db = (.error e, db')) :
    Hub.exec C (x.adapt g) db = (.error (g e), db') :=
  Fallible.exec_adapt_of_error hx

theorem exec_attempt_of {r : Except ε α} (hx : Hub.exec C x db = (r, db')) :
    Hub.exec C (Fallible.attempt x : Hub ε' (Except ε α)) db = (.ok r, db') :=
  Fallible.exec_attempt_of hx

theorem exec_bind_eq_ok {b : β} (h : Hub.exec C (x >>= f) db = (.ok b, db')) :
    ∃ a db₁, Hub.exec C x db = (.ok a, db₁) ∧ Hub.exec C (f a) db₁ = (.ok b, db') :=
  Fallible.exec_bind_eq_ok.1 h

theorem exec_adapt_eq_ok (h : Hub.exec C (x.adapt g) db = (.ok a, db')) :
    Hub.exec C x db = (.ok a, db') :=
  Fallible.exec_adapt_eq_ok.1 h

theorem exec_pure_eq_ok {b : α} (h : Hub.exec C (pure a : Hub ε α) db = (.ok b, db')) :
    a = b ∧ db = db' := by
  obtain ⟨ha, hdb⟩ := Prod.mk.inj h
  exact ⟨Except.ok.inj ha, hdb⟩

theorem not_exec_throw_eq_ok {b : α} (h : Hub.exec C (throw e : Hub ε α) db = (.ok b, db')) :
    False := by
  cases (Prod.mk.inj h).1

end Hub

end FileSync
