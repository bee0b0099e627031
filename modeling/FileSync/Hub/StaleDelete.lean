import FileSync.Hub.Alone
/-!
# Deleting what is deleted

A path whose leaves are all tombstones is invisible to `get_doc`, and every
step of the push path treats that as the document not being there: the
conditioned delete is refused, the resolver finds nothing to resolve, and
the winner the branch was to be answered with is not found.
-/

namespace FileSync

/-- Every leaf is a tombstone: the path's visible state is "deleted". -/
def Tree.Tombstoned (t : Tree) : Prop := ∀ n ∈ t.leaves, n.deleted = true

instance (t : Tree) : Decidable t.Tombstoned :=
  inferInstanceAs (Decidable (∀ n ∈ t.leaves, n.deleted = true))

namespace Tree.Tombstoned

variable {t : Tree} {b : Node}

theorem doc?_eq_none (h : t.Tombstoned) : t.doc? = none :=
  Tree.doc?_eq_none.2 (Tree.visible_eq_none.2 h)

/-- A tombstone more leaves the path deleted. -/
theorem append (h : t.Tombstoned) (hb : b.deleted = true) : Tree.Tombstoned (t ++ [b]) := by
  intro n hn
  rcases Tree.mem_leaves_append.1 hn with ⟨hn, -⟩ | ⟨rfl, -⟩
  exacts [h n hn, hb]

theorem noStrays {lines : Bytes → List RevDoc} (h : t.Tombstoned) :
    CouchClient.NoStrays lines t := by
  intro n hn
  obtain ⟨hleaf, hlive⟩ := Tree.mem_liveLeaves.1 hn
  rw [h n hleaf] at hlive
  cases hlive

/-- No leaf is a revision that was once alive. -/
theorem leaf?_eq_none (h : t.Tombstoned) {n : Node} (hn : n ∈ t) (hlive : n.deleted = false) :
    t.leaf? n.rev = none := by
  refine Tree.leaf?_eq_none.2 fun m hm heq => ?_
  have hleaf : n ∈ t.leaves := Tree.mem_leaves.2 ⟨hn, heq ▸ (Tree.mem_leaves.1 hm).2⟩
  rw [h n hleaf] at hlive
  cases hlive

end Tree.Tombstoned

variable {C : Couch} {env : HubEnv} {db : Db} {path : Path} {change : PushChange}

namespace Resolver

/-- A tombstone as the resolver reads it. -/
def tombstoneLeaf (doc : RevDoc) : Leaf :=
  ⟨doc.rev, true, doc.body.mtime.getD 0, doc.body.contentType.getD octetStream, [],
    some doc.revisions⟩

theorem exec_leavesFromDocs_of_deleted {docs : List RevDoc} (h : ∀ d ∈ docs, d.deleted = true) :
    Hub.exec C (leavesFromDocs path docs) db = (.ok (docs.map tombstoneLeaf), db) := by
  induction docs with
  | nil => rfl
  | cons d docs ih =>
    have hd : Hub.exec C (leafFromDoc path d) db = (.ok (tombstoneLeaf d), db) := by
      rw [leafFromDoc, h d List.mem_cons_self]
      rfl
    rw [leavesFromDocs, Hub.exec_bind_of_ok hd,
      Hub.exec_bind_of_ok (ih fun d hd => h d (List.mem_cons_of_mem _ hd))]
    rfl

/-- Among tombstones only, there is no edit to bring back. -/
theorem planDeleteWinner_tombstones (docs : List RevDoc) :
    planDeleteWinner (docs.map tombstoneLeaf) = none := by
  have hnone : (docs.map tombstoneLeaf).filter (fun l => !l.deleted) = [] := by
    refine List.filter_eq_nil_iff.2 fun l hl => ?_
    obtain ⟨d, -, rfl⟩ := List.mem_map.1 hl
    exact Bool.false_ne_true
  rw [planDeleteWinner, hnone]
  rfl

theorem exec_resolveDeleteWinner_of_tombstoned (h : (db.docs path).Tombstoned) :
    Hub.exec C (resolveDeleteWinner env path) db = (.ok .noConflict, db) := by
  have hdel : ∀ d ∈ (db.docs path).leaves.map Node.toRevDoc, d.deleted = true := by
    intro d hd
    obtain ⟨n, hn, rfl⟩ := List.mem_map.1 hd
    exact h n hn
  -- a tombstone has no content, so nothing strays from one
  have hread := CouchClient.leavesOfParts_of_noStrays
    (h.noStrays : CouchClient.NoStrays env.leafLines (db.docs path))
  rw [resolveDeleteWinner, maxRetries, resolveDeleteWinnerLoop,
    Hub.exec_bind_of_ok (Hub.exec_adapt_of_ok CouchClient.exec_getDocLeaves), hread]
  split
  · rfl
  · rw [Hub.exec_bind_of_ok (exec_leavesFromDocs_of_deleted hdel), planDeleteWinner_tombstones]
    rfl

/-- **A deleted path has no conflict to resolve**, however many tombstones
it ends in. -/
theorem exec_resolve_of_tombstoned (h : (db.docs path).Tombstoned) :
    Hub.exec C (resolve env path) db = (.ok .noConflict, db) := by
  rw [resolve, maxRetries, resolveLoop,
    Hub.exec_bind_of_ok (Hub.exec_adapt_of_ok CouchClient.exec_getDoc),
    h.doc?_eq_none]
  exact exec_resolveDeleteWinner_of_tombstoned h

end Resolver

namespace Push

/-- Inserting a tombstone leaves a deleted path deleted. -/
theorem tombstoned_bulkDocs {doc : BranchDoc} (h : (db.docs doc.id).Tombstoned)
    (hdoc : doc.deleted = true) : ((C.answer (.bulkDocs doc) db).2.docs doc.id).Tombstoned := by
  simp only [Couch.answer]
  cases (db.docs doc.id).find? doc.rev with
  | some n => exact h
  | none =>
    rw [Db.write_docs_self]
    exact h.append hdoc

/-- Branching a tombstone off a deleted path ends in a conflict: the
resolver returns, and then there is no visible winner to answer. -/
theorem exec_branchAndResolve_of_tombstoned (C : Couch) (env : HubEnv)
    (h : (db.docs change.path).Tombstoned) :
    ∃ db', Hub.exec C (branchAndResolve env change true none) db = (.error .conflict, db') ∧
      (db'.docs change.path).Tombstoned := by
  have hparent : ∃ p, Hub.exec C (branchParent change) db = (p, db) ∧
      ∀ e, p = .error e → e = .conflict := by
    cases hb : change.baseRev with
    | none => exact ⟨.ok ⟨0, []⟩, by rw [branchParent, hb]; rfl, by rintro e ⟨⟩⟩
    | some r =>
      rw [branchParent, hb]
      dsimp only
      rw [Hub.exec_bind_of_ok (Hub.exec_adapt_of_ok CouchClient.exec_getDocAtRev)]
      cases (db.docs change.path).find? r with
      | none => exact ⟨.error .conflict, rfl, by rintro e ⟨⟩; rfl⟩
      | some n => exact ⟨.ok n.revisions, rfl, by rintro e ⟨⟩⟩
  obtain ⟨p | p, hp, herr⟩ := hparent
  · refine ⟨db, ?_, h⟩
    rw [branchAndResolve, Hub.exec_bind_of_error hp, herr p rfl]
  · have hdb : ((C.answer (.bulkDocs (branchDoc change true none p)) db).2.docs
        change.path).Tombstoned := tombstoned_bulkDocs h rfl
    refine ⟨_, ?_, hdb⟩
    rw [branchAndResolve, Hub.exec_bind_of_ok hp, Hub.exec_bind_of_ok (Hub.exec_adapt_of_ok CouchClient.exec_putRevision),
      Hub.exec_bind_of_ok (Hub.exec_attempt_of (Resolver.exec_resolve_of_tombstoned hdb)),
      Hub.exec_bind_of_ok (Hub.exec_adapt_of_ok CouchClient.exec_getDoc),
      Tree.Tombstoned.doc?_eq_none hdb]
    rfl

/-- A delete conditioned on what is no leaf is refused, as gone or as a
conflict. -/
theorem exec_deleteDoc_of_leaf?_eq_none (caller : Caller) {r : Rev}
    (hr : (db.docs path).leaf? r = none) :
    Hub.exec C (CouchClient.deleteDoc caller path r) db = (.error (.api 404 "not_found"), db) ∨
      Hub.exec C (CouchClient.deleteDoc caller path r) db = (.error (.revConflict path), db) := by
  rw [CouchClient.exec_deleteDoc]
  simp only [Couch.answer, Couch.deleteParent]
  cases hw : (db.docs path).winner with
  | none => exact .inl rfl
  | some w =>
    dsimp only
    by_cases hgone : (w.deleted && C.goneAs404) = true
    · rw [if_pos hgone]
      exact .inl rfl
    · rw [if_neg hgone, hr]
      exact .inr rfl

theorem applyDelete_of_base (env : HubEnv) {r : Rev} (hbase : change.baseRev = some r) :
    applyDelete env change = (do
      match ← Fallible.attempt (CouchClient.deleteDoc .push change.path r) with
      | .ok result => return some result
      | .error (.revConflict _) => branchAndResolve env change true none
      | .error e => throw (.couch e)) := by
  unfold applyDelete
  split
  · rename_i hnone
    rw [hbase] at hnone
    cases hnone
  · rename_i r' hsome
    obtain rfl := Option.some.inj (hbase.symm.trans hsome)
    rfl

/-- A delete based on a revision that was alive ends in one of two errors on
a deleted path, and leaves it deleted. -/
theorem exec_applyDelete_of_tombstoned (C : Couch) (env : HubEnv) {r : Rev} (hbase : change.baseRev = some r)
    (h : (db.docs change.path).Tombstoned) (hr : (db.docs change.path).leaf? r = none) :
    ∃ e db', Hub.exec C (applyDelete env change) db = (.error e, db') ∧
      (e = .couch (.api 404 "not_found") ∨ e = .conflict) ∧
      (db'.docs change.path).Tombstoned := by
  rcases exec_deleteDoc_of_leaf?_eq_none (C := C) .push hr with hd | hd
  · refine ⟨_, db, ?_, .inl rfl, h⟩
    rw [applyDelete_of_base env hbase, Hub.exec_bind_of_ok (Hub.exec_attempt_of hd)]
    rfl
  · obtain ⟨db', hb, hdb'⟩ := exec_branchAndResolve_of_tombstoned C env h
    refine ⟨_, db', ?_, .inr rfl, hdb'⟩
    rw [applyDelete_of_base env hbase, Hub.exec_bind_of_ok (Hub.exec_attempt_of hd)]
    exact hb

/-- The request acknowledges a lone change and leaves its path deleted. -/
def AcknowledgesDelete (C : Couch) (env : HubEnv) (db : Db) (change : PushChange) : Prop :=
  (∃ rev, (Hub.exec C (postChanges env [change]) db).1 = .ok [⟨change.path, rev⟩]) ∧
    ((Hub.exec C (postChanges env [change]) db).2.docs change.path).Tombstoned

/-- Two devices hold the first revision of a file; one deletes it. -/
def deletedOnce (C : Couch) : Db :=
  (Hub.exec C (postChanges .plain
    [⟨"a", false, none, 1, none, some (.encode [1])⟩,
     ⟨"a", true, some ⟨2, "xx"⟩, 2, none, none⟩]) Db.empty).2

/-- The other device's delete of the same revision. -/
def secondDelete : PushChange := ⟨"a", true, some ⟨2, "xx"⟩, 3, none, none⟩

/-- The document is deleted, and the change's base is of when it was not. -/
def Undeleted (change : PushChange) (t : Tree) : Prop :=
  (∃ n ∈ t, change.baseRev = some n.rev ∧ n.deleted = false) ∧ t.Tombstoned

/-- **A delete of what another device has deleted is answered with an
error**, whether CouchDB calls the document gone or the revision stale. -/
theorem second_delete_refused :
    (Undeleted secondDelete ((deletedOnce (.counting false)).docs "a") ∧
      (Hub.exec (.counting false) (postChanges .plain [secondDelete])
        (deletedOnce (.counting false))).1 = .error ⟨409, "cannot apply change to a"⟩) ∧
    (Undeleted secondDelete ((deletedOnce (.counting true)).docs "a") ∧
      (Hub.exec (.counting true) (postChanges .plain [secondDelete])
        (deletedOnce (.counting true))).1 = .error ⟨502, "couchdb returned 404: not_found"⟩) := by
  unfold Undeleted
  decide +kernel

/-- **A delete of what is deleted is never acknowledged.** Whatever
tombstones a path ends in, a delete based on a revision that was once alive
ends the request with a 409 or a 502, at any place in a batch; the path
stays deleted. -/
theorem delete_of_deleted_never_acknowledged (C : Couch) (env : HubEnv) (db : Db)
    (change : PushChange) (rest : List PushChange) (n : Node)
    (hdel : change.deleted = true) (hbase : change.baseRev = some n.rev)
    (hn : n ∈ db.docs change.path) (hlive : n.deleted = false)
    (h : (db.docs change.path).Tombstoned) :
    ¬ AcknowledgesDelete C env db change ∧
      ∃ e db', Hub.exec C (postChanges env (change :: rest)) db = (.error e, db') ∧
        (e.status = 409 ∨ e.status = 502) ∧ (db'.docs change.path).Tombstoned := by
  obtain ⟨e, db', hrun, he, hdb'⟩ :=
    exec_applyDelete_of_tombstoned C env hbase h (h.leaf?_eq_none hn hlive)
  have hone : ∀ rest, Hub.exec C (postChanges env (change :: rest)) db =
      (.error (e.intoApi change.path), db') := by
    intro rest
    have happly : Hub.exec C (apply env change) db = (.error e, db') := by
      rw [apply, if_pos hdel]
      exact hrun
    rw [postChanges]
    refine Hub.exec_bind_of_error ?_
    rw [applyOne]
    exact Hub.exec_bind_of_error (Hub.exec_adapt_of_error happly)
  refine ⟨?_, _, db', hone rest, ?_, hdb'⟩
  · rintro ⟨⟨rev, hok⟩, -⟩
    rw [hone []] at hok
    cases hok
  · rcases he with rfl | rfl
    exacts [.inr rfl, .inl rfl]

theorem second_delete_never_acknowledged :
    ¬ AcknowledgesDelete (.counting true) .plain (deletedOnce (.counting true)) secondDelete ∧
      ∃ e db', Hub.exec (.counting true) (postChanges .plain (secondDelete :: []))
          (deletedOnce (.counting true)) = (.error e, db') ∧
        (e.status = 409 ∨ e.status = 502) ∧ (db'.docs secondDelete.path).Tombstoned :=
  delete_of_deleted_never_acknowledged _ _ _ _ []
    ⟨⟨2, "xx"⟩, ["x"], false, ⟨some "a", some 1, some octetStream⟩, some ⟨octetStream, [1]⟩⟩
    rfl rfl (by decide +kernel) rfl (by decide +kernel)

end Push

end FileSync
