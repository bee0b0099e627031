import FileSync.Hub.Alone
/-!
# Pushes, run alone

What applying one change comes to when nobody else writes to the database.
A write on a leaf goes through; a stale one becomes a branch off the
revision it names, and the answer is the winner that resolving leaves.
-/

namespace FileSync

namespace Push

variable {C : Couch} {env : HubEnv} {db : Db} {change : PushChange} {content : Bytes}

/-- The history a stale change hangs off. -/
def parentIn (t : Tree) (change : PushChange) : Except ApplyError Revisions :=
  match change.baseRev with
  | none => .ok ⟨0, []⟩
  | some r =>
    match t.find? r with
    | some n => .ok n.revisions
    | none => .error .conflict

theorem exec_branchParent :
    Hub.exec C (branchParent change) db = (parentIn (db.docs change.path) change, db) := by
  unfold branchParent parentIn
  cases hb : change.baseRev with
  | none => rfl
  | some r =>
    dsimp only
    rw [Hub.exec_bind_of_ok (Hub.exec_adapt_of_ok CouchClient.exec_getDocAtRev)]
    cases (db.docs change.path).find? r <;> rfl

/-- Where a change hangs off: nothing, or the revision it names. -/
theorem parentIn_eq_ok {t : Tree} {parent : Revisions} (h : parentIn t change = .ok parent) :
    parent = ⟨0, []⟩ ∧ change.baseRev = none ∨
      ∃ p ∈ t, change.baseRev = some p.rev ∧ parent = p.revisions := by
  unfold parentIn at h
  cases hb : change.baseRev with
  | none =>
    rw [hb] at h
    exact .inl ⟨(Except.ok.inj h).symm, rfl⟩
  | some r =>
    rw [hb] at h
    dsimp only at h
    cases hf : t.find? r with
    | none =>
      rw [hf] at h
      cases h
    | some p =>
      rw [hf] at h
      obtain ⟨hp, rfl⟩ := Tree.find?_eq_some hf
      exact .inr ⟨p, hp, rfl, (Except.ok.inj h).symm⟩

/-- A branch is a child of that revision. -/
theorem ancestors_branch {deleted : Bool} {content : Option Bytes} {p : Node} :
    (branchDoc change deleted content p.revisions).toNode.ancestors = p.rev :: p.ancestors :=
  Node.ancestors_child rfl rfl

/-- The database with a stale change branched off. -/
def branched (C : Couch) (change : PushChange) (deleted : Bool) (content : Option Bytes)
    (parent : Revisions) (db : Db) : Db :=
  (C.answer (.bulkDocs (branchDoc change deleted content parent)) db).2

/-- **A stale change**: branched off, resolved, and answered by the winner. -/
theorem exec_branchAndResolve {deleted : Bool} {content : Option Bytes} :
    Hub.exec C (branchAndResolve env change deleted content) db =
      match parentIn (db.docs change.path) change with
      | .error e => (.error e, db)
      | .ok parent =>
        match Hub.exec C (Resolver.resolve env change.path)
            (branched C change deleted content parent db) with
        | (.error _, db') => (.error .conflict, db')
        | (.ok _, db') =>
          match (db'.docs change.path).doc? with
          | none => (.error .conflict, db')
          | some doc => (.ok (some doc.rev), db') := by
  unfold branchAndResolve
  cases hp : parentIn (db.docs change.path) change with
  | error e =>
    rw [Hub.exec_bind_of_error (exec_branchParent.trans (by rw [hp]))]
  | ok parent =>
    have hput : Hub.exec C (orCouch (CouchClient.putRevision
        (branchDoc change deleted content parent))) db =
          (.ok (), branched C change deleted content parent db) :=
      Hub.exec_adapt_of_ok CouchClient.exec_putRevision
    rw [Hub.exec_bind_of_ok (exec_branchParent.trans (by rw [hp])), Hub.exec_bind_of_ok hput]
    rcases hres : Hub.exec C (Resolver.resolve env change.path)
        (branched C change deleted content parent db) with ⟨e | o, db'⟩
    · rw [Hub.exec_bind_of_ok (Hub.exec_attempt_of hres)]
      dsimp only
      rw [hres]
      rfl
    · rw [Hub.exec_bind_of_ok (Hub.exec_attempt_of hres)]
      dsimp only
      rw [hres, Hub.exec_bind_of_ok (Hub.exec_adapt_of_ok CouchClient.exec_getDoc)]
      dsimp only
      cases (db'.docs change.path).doc? <;> rfl

theorem exec_branchAndResolve_eq_ok {deleted : Bool} {content : Option Bytes} {rev : Option Rev}
    {db' : Db} (h : Hub.exec C (branchAndResolve env change deleted content) db = (.ok rev, db')) :
    ∃ parent o doc, parentIn (db.docs change.path) change = .ok parent ∧
      Hub.exec C (Resolver.resolve env change.path)
        (branched C change deleted content parent db) = (.ok o, db') ∧
      (db'.docs change.path).doc? = some doc ∧ rev = some doc.rev := by
  rw [exec_branchAndResolve] at h
  cases hp : parentIn (db.docs change.path) change with
  | error e =>
    rw [hp] at h
    cases (Prod.mk.inj h).1
  | ok parent =>
    rw [hp] at h
    dsimp only at h
    rcases hres : Hub.exec C (Resolver.resolve env change.path)
        (branched C change deleted content parent db) with ⟨e | o, db₁⟩
    · rw [hres] at h
      cases (Prod.mk.inj h).1
    · rw [hres] at h
      dsimp only at h
      cases hd : (db₁.docs change.path).doc? with
      | none =>
        rw [hd] at h
        cases (Prod.mk.inj h).1
      | some doc =>
        rw [hd] at h
        obtain ⟨hrev, rfl⟩ := Prod.mk.inj h
        exact ⟨parent, o, doc, rfl, hres, hd, (Except.ok.inj hrev).symm⟩

/-- One change, answered or refused. -/
theorem exec_postChanges_singleton :
    Hub.exec C (postChanges env [change]) db =
      match Hub.exec C (apply env change) db with
      | (.ok rev, db') => (.ok [⟨change.path, rev⟩], db')
      | (.error e, db') => (.error (e.intoApi change.path), db') := by
  rcases hrun : Hub.exec C (apply env change) db with ⟨e | rev, db'⟩
  · have hone : Hub.exec C (applyOne env change) db = (.error (e.intoApi change.path), db') :=
      Hub.exec_bind_of_error (Hub.exec_adapt_of_error hrun)
    exact Hub.exec_bind_of_error hone
  · have hone : Hub.exec C (applyOne env change) db = (.ok ⟨change.path, rev⟩, db') :=
      Hub.exec_bind_of_ok (Hub.exec_adapt_of_ok hrun)
    exact Hub.exec_bind_of_ok hone

/-! ## Writes on a leaf -/

/-- The body an upsert is stored with. -/
def upsertBody (change : PushChange) : Body :=
  ⟨some change.path, some change.mtime, some (change.contentType.getD octetStream)⟩

/-- The content can be sent to CouchDB under its type. -/
def sendable (change : PushChange) : Bool :=
  HeaderValue.accepts (change.contentType.getD octetStream)

/-- An upsert's first revision, which has no content yet. -/
def bodyNode (C : Couch) (t : Tree) (parent : Option Node) (change : PushChange) : Node :=
  C.child t parent false (upsertBody change) none

/-- Its second one, which has. -/
def contentNode (C : Couch) (t : Tree) (parent : Option Node) (change : PushChange)
    (content : Bytes) : Node :=
  C.child (t ++ [bodyNode C t parent change]) (some (bodyNode C t parent change)) false
    (upsertBody change) (some ⟨change.contentType.getD octetStream, content⟩)

/-- A revision just written is a leaf. -/
theorem leaf?_append_child {t : Tree} {parent : Option Node} {d : Bool} {body : Body}
    {a : Option Attachment} (hparent : ∀ p, parent = some p → p ∈ t) :
    Tree.leaf? (t ++ [C.child t parent d body a]) (C.child t parent d body a).rev =
      some (C.child t parent d body a) := by
  have hleaf : C.child t parent d body a ∈ Tree.leaves (t ++ [C.child t parent d body a]) := by
    refine Tree.mem_leaves_append.2
      (.inr ⟨rfl, fun m hm => Couch.child_rev_not_mem_ancestors hm, ?_⟩)
    cases parent with
    | none => exact List.not_mem_nil
    | some p =>
      rw [Couch.ancestors_child_some, List.mem_cons, not_or]
      exact ⟨Couch.child_rev_ne (hparent p rfl), Couch.child_rev_not_mem_ancestors (hparent p rfl)⟩
  cases hf : Tree.leaf? (t ++ [C.child t parent d body a]) (C.child t parent d body a).rev with
  | none => exact absurd rfl (Tree.leaf?_eq_none.1 hf _ hleaf)
  | some n =>
    obtain ⟨hn, hrev⟩ := Tree.leaf?_eq_some hf
    rcases List.mem_append.1 (Tree.mem_of_mem_leaves hn) with hmem | hmem
    · exact absurd hrev.symm (Couch.child_rev_ne hmem)
    · rw [List.mem_singleton.1 hmem]

theorem putParent_mem {t : Tree} {rev : Option Rev} {parent : Option Node}
    (h : Couch.putParent t rev = .ok parent) : ∀ p, parent = some p → p ∈ t.leaves := by
  rintro p rfl
  unfold Couch.putParent at h
  split at h
  · split at h
    · rename_i n hn
      obtain rfl := Option.some.inj (Except.ok.inj h)
      exact (Tree.leaf?_eq_some hn).1
    · cases h
  · split at h
    · cases h
    · rename_i n hn
      split at h
      · obtain rfl := Option.some.inj (Except.ok.inj h)
        exact Tree.winner_mem hn
      · cases h

/-- A conditional write that is refused is refused as a conflict. -/
theorem putParent_error {t : Tree} {rev : Option Rev} {e : HttpFailure}
    (h : Couch.putParent t rev = .error e) : e = Couch.conflict := by
  unfold Couch.putParent at h
  split at h
  · split at h
    · cases h
    · exact (Except.error.inj h).symm
  · split at h
    · cases h
    · split at h
      · cases h
      · exact (Except.error.inj h).symm

theorem exec_applyUpsert_of_decoded
    (hcontent : (change.contentBase64.getD .empty).decode = .ok content) :
    Hub.exec C (applyUpsert env change) db = Hub.exec C (do
      match ← Fallible.attempt (CouchClient.putDoc .push change.path change.baseRev
        (upsertBody change)) with
      | .ok rev =>
        let rev ← orCouch (CouchClient.putAttachment .push change.path rev
          (change.contentType.getD octetStream) content)
        return some rev
      | .error (.revConflict _) => branchAndResolve env change false (some content)
      | .error e => throw (.couch e)) db := by
  unfold applyUpsert
  rw [hcontent]
  rfl

/-- **An upsert**: two revisions on top of the leaf it names, or only the
first of them where the second cannot be sent; or a branch. -/
theorem exec_applyUpsert (hcontent : (change.contentBase64.getD .empty).decode = .ok content) :
    Hub.exec C (applyUpsert env change) db =
      match Couch.putParent (db.docs change.path) change.baseRev with
      | .ok parent =>
        if sendable change then
          (.ok (some (contentNode C (db.docs change.path) parent change content).rev),
            (db.write change.path (bodyNode C (db.docs change.path) parent change)).write change.path
              (contentNode C (db.docs change.path) parent change content))
        else (.error (.couch .transport),
          db.write change.path (bodyNode C (db.docs change.path) parent change))
      | .error _ => Hub.exec C (branchAndResolve env change false (some content)) db := by
  rw [exec_applyUpsert_of_decoded hcontent,
    Hub.exec_bind_of_ok (Hub.exec_attempt_of CouchClient.exec_putDoc)]
  simp only [Couch.answer]
  cases hp : Couch.putParent (db.docs change.path) change.baseRev with
  | error e =>
    obtain rfl := putParent_error hp
    rfl
  | ok parent =>
    have hleaf : Tree.leaf? (db.docs change.path ++ [C.child (db.docs change.path) parent false
        (upsertBody change) none]) _ = _ :=
      leaf?_append_child fun p hparent => Tree.mem_of_mem_leaves (putParent_mem hp p hparent)
    show Hub.exec C (orCouch (CouchClient.putAttachment .push change.path
      (bodyNode C (db.docs change.path) parent change).rev
      (change.contentType.getD octetStream) content) >>= fun rev => pure (some rev))
      (db.write change.path (bodyNode C (db.docs change.path) parent change)) = _
    cases hsend : sendable change with
    | true =>
      refine Hub.exec_bind_of_ok (Hub.exec_adapt_of_ok ?_)
      rw [CouchClient.exec_putAttachment hsend]
      simp only [Couch.answer, Db.write_docs_self, bodyNode, hleaf]
      rfl
    | false =>
      exact Hub.exec_bind_of_error (Hub.exec_adapt_of_error
        (CouchClient.exec_putAttachment_unsent hsend))

/-- A change with a text that encodes nothing is refused. -/
theorem exec_applyUpsert_of_malformed {text : String}
    (hcontent : (change.contentBase64.getD .empty).decode = .error text) :
    Hub.exec C (applyUpsert env change) db =
      (.error (.couch (.decode s!"bad base64: {text}")), db) := by
  unfold applyUpsert
  rw [hcontent]
  rfl

/-- **A delete** of a known revision: a tombstone on top of it, a refusal, or
a branch. -/
theorem exec_applyDelete {r : Rev} (hbase : change.baseRev = some r) :
    Hub.exec C (applyDelete env change) db =
      match C.deleteParent (db.docs change.path) r with
      | .ok p =>
        (.ok (some (C.child (db.docs change.path) (some p) true ⟨none, none, none⟩ none).rev),
          db.write change.path (C.child (db.docs change.path) (some p) true ⟨none, none, none⟩ none))
      | .error (.status 409 _) => Hub.exec C (branchAndResolve env change true none) db
      | .error e => (.error (.couch (.ofFailure e)), db) := by
  unfold applyDelete
  rw [hbase]
  dsimp only
  rw [Hub.exec_bind_of_ok (Hub.exec_attempt_of CouchClient.exec_deleteDoc)]
  simp only [Couch.answer]
  unfold Couch.deleteParent
  cases hw : (db.docs change.path).winner with
  | none => rfl
  | some w =>
    dsimp only
    by_cases hgone : (w.deleted && C.goneAs404) = true
    · rw [if_pos hgone]
      rfl
    · rw [if_neg hgone]
      cases (db.docs change.path).leaf? r <;> rfl

end Push

end FileSync
