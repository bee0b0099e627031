import FileSync.Hub.StaleDelete
import FileSync.Hub.Pushes
import FileSync.Hub.Calls
/-!
# A resolution, run alone

What the resolver leaves when nobody writes in between. It reads without
writing, its copies go to other paths, and what it writes at the path takes
the place of one leaf after the other, until one of them is live. Of two
live leaves with contents it is said exactly what is written.
-/

namespace FileSync

/-! ## Requests and sound documents -/

/-- A branch hangs off nothing, or off a revision that is there. -/
def CouchReq.Hangs (db : Db) ⦃β : Type⦄ : CouchReq β → Prop
  | .bulkDocs doc => ∃ change deleted content parent,
      doc = Push.branchDoc change deleted content parent ∧
        (parent = ⟨0, []⟩ ∨ ∃ n ∈ db.docs change.path, parent = n.revisions)
  | _ => True

variable {C : Couch} {env : HubEnv} {db db' : Db} {path p : Path}

theorem Db.sound_write {id : Path} {n : Node} (h : Tree.Sound (db.docs p))
    (hn : Tree.Sound (db.docs id) → Tree.Sound (db.docs id ++ [n])) :
    Tree.Sound ((db.write id n).docs p) := by
  by_cases hp : p = id
  · subst hp
    rw [Db.write_docs_self]
    exact hn h
  · rwa [Db.write_docs_of_ne hp]

/-- **A request keeps a document sound.** -/
theorem Couch.sound_answer ⦃β : Type⦄ (e : CouchReq β) (hangs : e.Hangs db)
    (h : Tree.Sound (db.docs p)) : Tree.Sound ((C.answer e db).2.docs p) := by
  cases e with
  | getDoc | getDocAtRev | getAttachment | openRevs | changes => exact h
  | putDoc caller id rev body =>
    simp only [answer]
    cases hp : putParent (db.docs id) rev with
    | error e => exact h
    | ok parent =>
      exact Db.sound_write h fun hs => sound_append_child hs fun q hq =>
        Tree.mem_of_mem_leaves (Push.putParent_mem hp q hq)
  | putAttachment caller id rev a =>
    simp only [answer]
    cases hl : (db.docs id).leaf? rev with
    | none => exact h
    | some q =>
      refine Db.sound_write h fun hs => sound_append_child hs ?_
      rintro q' ⟨⟩
      exact Tree.mem_of_mem_leaves (Tree.leaf?_eq_some hl).1
  | deleteDoc caller id rev =>
    simp only [answer]
    cases hd : C.deleteParent (db.docs id) rev with
    | error e => exact h
    | ok q =>
      have hq : q ∈ db.docs id := by
        unfold deleteParent at hd
        split at hd
        · cases hd
        split at hd
        · cases hd
        split at hd
        · rename_i n hn
          cases hd
          exact Tree.mem_of_mem_leaves (Tree.leaf?_eq_some hn).1
        · cases hd
      refine Db.sound_write h fun hs => sound_append_child hs ?_
      rintro q' ⟨⟩
      exact hq
  | bulkDocs doc =>
    obtain ⟨change, deleted, content, parent, rfl, hparent⟩ := hangs
    simp only [answer]
    cases hf : (db.docs _).find? _ with
    | some n => exact h
    | none =>
      refine Db.sound_write h fun hs => hs.append (Tree.find?_eq_none.1 hf) fun r hr => ?_
      rcases hparent with rfl | ⟨n, hn, rfl⟩
      · exact absurd hr List.not_mem_nil
      · rw [Push.ancestors_branch, List.mem_cons] at hr
        rcases hr with rfl | hr
        exacts [⟨n, hn, rfl⟩, hs.closed n hn r hr]

/-- The states a hub comes to: whatever is asked of CouchDB, by anybody and
in any order, and whatever revisions come from another hub. -/
inductive Reachable (C : Couch) : Db → Prop
  | empty : Reachable C Db.empty
  | request {db : Db} {β : Type} (e : CouchReq β) (hangs : e.Hangs db) (h : Reachable C db) :
      Reachable C (C.answer e db).2
  | replicated {db : Db} (path : Path) (n : Node) (hnew : ∀ m ∈ db.docs path, m.rev ≠ n.rev)
      (hparents : ∀ r ∈ n.ancestors, ∃ m ∈ db.docs path, m.rev = r) (h : Reachable C db) :
      Reachable C (db.write path n)

/-- **Every document a hub comes to hold is sound.** -/
theorem Reachable.sound (h : Reachable C db) (p : Path) : Tree.Sound (db.docs p) := by
  induction h with
  | empty => exact .nil
  | request e hangs _ ih => exact Couch.sound_answer e hangs ih
  | replicated path n hnew hparents _ ih =>
    exact Db.sound_write ih fun hs => hs.append hnew hparents

namespace Resolver

/-- No request of the resolver's is a branch. -/
theorem hangs : ResolverCalls fun _ e => ∀ db : Db, e.Hangs db where
  getDoc _ _ := trivial
  getDocAtRev _ _ _ := trivial
  getAttachment _ _ _ := trivial
  openRevs _ _ := trivial
  putDoc _ _ _ _ := trivial
  putAttachment _ _ _ _ := trivial
  deleteDoc _ _ _ := trivial

theorem sound_exec {ε α : Type} {x : Hub ε α} (hx : Fallible.All (fun _ e => ∀ db : Db, e.Hangs db) x)
    (h : Tree.Sound (db.docs p)) : Tree.Sound ((Hub.exec C x db).2.docs p) :=
  Prog.All.run_invariant (I := fun db : Db => Tree.Sound (db.docs p))
    (fun _ e he db hdb => Couch.sound_answer e (he db) hdb) hx h

/-! ## Reading -/

variable {winner loser : Leaf} {loserRevs : List Rev}

/-- A live leaf as the resolver reads it. -/
def leafOf (n : Node) (content : Bytes) : Leaf :=
  ⟨n.rev, n.deleted, n.body.mtime.getD 0, n.body.contentType.getD octetStream, content,
    some n.revisions⟩

theorem exec_orMissingLeaf {α : Type} {a? : Option α} {a : α}
    (h : Hub.exec C (orMissingLeaf a?) db = (.ok a, db')) : a? = some a ∧ db = db' := by
  cases a? with
  | none => exact (Hub.not_exec_throw_eq_ok h).elim
  | some b =>
    obtain ⟨rfl, rfl⟩ := Hub.exec_pure_eq_ok h
    exact ⟨rfl, rfl⟩

theorem exec_leafFromDoc {doc : RevDoc} {leaf : Leaf}
    (h : Hub.exec C (leafFromDoc path doc) db = (.ok leaf, db')) :
    db = db' ∧ leaf.rev = doc.rev := by
  unfold leafFromDoc at h
  dsimp only at h
  split at h
  · obtain ⟨rfl, rfl⟩ := Hub.exec_pure_eq_ok h
    exact ⟨rfl, rfl⟩
  · obtain ⟨content, db₁, hcontent, hpure⟩ := Hub.exec_bind_eq_ok h
    obtain ⟨rfl, rfl⟩ := Hub.exec_pure_eq_ok hpure
    have hread := Hub.exec_adapt_eq_ok hcontent
    rw [CouchClient.exec_getAttachment] at hread
    exact ⟨(Prod.mk.inj hread).2, rfl⟩

theorem exec_fetchLeaf {r : Rev} {leaf : Leaf}
    (h : Hub.exec C (fetchLeaf path r) db = (.ok leaf, db')) : db = db' ∧ leaf.rev = r := by
  unfold fetchLeaf at h
  obtain ⟨doc?, db₁, hget, hrest⟩ := Hub.exec_bind_eq_ok h
  have hdoc := Hub.exec_adapt_eq_ok hget
  rw [CouchClient.exec_getDocAtRev] at hdoc
  obtain ⟨hok, rfl⟩ := Prod.mk.inj hdoc
  obtain ⟨doc, db₂, hsome, hleaf⟩ := Hub.exec_bind_eq_ok hrest
  obtain ⟨rfl, rfl⟩ := exec_orMissingLeaf hsome
  obtain ⟨n, hn, rfl⟩ := Option.map_eq_some_iff.1 (Except.ok.inj hok)
  obtain ⟨hdb, hrev⟩ := exec_leafFromDoc hleaf
  exact ⟨hdb, hrev.trans (Tree.find?_eq_some hn).2⟩

theorem exec_fetchLeaves {revs : List Rev} {leaves : List Leaf}
    (h : Hub.exec C (fetchLeaves path revs) db = (.ok leaves, db')) :
    db = db' ∧ leaves.map Leaf.rev = revs := by
  induction revs generalizing leaves db db' with
  | nil =>
    obtain ⟨rfl, rfl⟩ := Hub.exec_pure_eq_ok h
    exact ⟨rfl, rfl⟩
  | cons r revs ih =>
    unfold fetchLeaves at h
    obtain ⟨leaf, db₁, hleaf, htail⟩ := Hub.exec_bind_eq_ok h
    obtain ⟨rfl, rfl⟩ := exec_fetchLeaf hleaf
    obtain ⟨rest, db₂, hrest, hpure⟩ := Hub.exec_bind_eq_ok htail
    obtain ⟨rfl, rfl⟩ := ih hrest
    obtain ⟨rfl, rfl⟩ := Hub.exec_pure_eq_ok hpure
    exact ⟨rfl, rfl⟩

/-- A live leaf that has a content is read with it. -/
theorem exec_fetchLeaf_of_content {n : Node} {a : Attachment}
    (hf : (db.docs path).find? n.rev = some n) (hd : n.deleted = false)
    (ha : n.content = some a) :
    Hub.exec C (fetchLeaf path n.rev) db = (.ok (leafOf n a.data), db) := by
  have hcontent : Hub.exec C (orCouch (CouchClient.getAttachment path (some n.rev))) db =
      (.ok a.data, db) := by
    refine Hub.exec_adapt_of_ok ?_
    rw [CouchClient.exec_getAttachment]
    simp [Tree.content?, hf, ha, Couch.orNotFound, Except.mapError]
  have hdoc : Hub.exec C (orMissingLeaf (((db.docs path).find? n.rev).map Node.toRevDoc)) db =
      (.ok n.toRevDoc, db) := by
    rw [hf]
    rfl
  unfold fetchLeaf
  rw [Hub.exec_bind_of_ok (Hub.exec_adapt_of_ok CouchClient.exec_getDocAtRev),
    Hub.exec_bind_of_ok hdoc]
  unfold leafFromDoc
  rw [show n.toRevDoc.deleted = false from hd, if_neg Bool.false_ne_true]
  refine (Hub.exec_bind_of_ok hcontent).trans ?_
  show (Except.ok (Leaf.mk n.rev false _ _ _ _), db) = _
  rw [leafOf, hd]
  rfl

/-! ## Planning -/

/-- The bytes two leaves are merged over. -/
def mergeBaseIn (t : Tree) (winner loser : Leaf) : Bytes :=
  match winner.revisions, loser.revisions with
  | some a, some b =>
    match Diff3.commonAncestor a.ids b.start b.ids with
    | some rev => (t.content? (some rev)).getD []
    | none => []
  | _, _ => []

theorem exec_mergeBase :
    Hub.exec C (mergeBase path winner loser) db =
      (.ok (mergeBaseIn (db.docs path) winner loser), db) := by
  unfold mergeBase mergeBaseIn
  cases winner.revisions with
  | none => rfl
  | some a =>
    cases loser.revisions with
    | none => rfl
    | some b =>
      dsimp only
      cases Diff3.commonAncestor a.ids b.start b.ids with
      | none => rfl
      | some rev =>
        dsimp only
        rw [Hub.exec_bind_of_ok (Hub.exec_attempt_of CouchClient.exec_getAttachment)]
        cases (db.docs path).content? (some rev) <;> rfl

/-- What is planned for two live leaves over a base. -/
def editVsEdit (env : HubEnv) (base : Bytes) (winner loser : Leaf) (loserRevs : List Rev) : Plan :=
  match Diff3.merge env.mergeStrings base winner.content loser.content with
  | .ok merged =>
    { kind := .merged, winnerRev := winner.rev, finalContent := some merged
      finalMtime := max winner.mtime loser.mtime, finalContentType := winner.contentType
      copies := [], loserRevs := loserRevs }
  | .error _ => keepNewer winner loser loserRevs

theorem exec_planEditVsEdit :
    Hub.exec C (planEditVsEdit env path winner loser loserRevs) db =
      (.ok (editVsEdit env (mergeBaseIn (db.docs path) winner loser) winner loser loserRevs),
        db) := by
  unfold planEditVsEdit
  rw [Hub.exec_bind_of_ok exec_mergeBase]
  unfold editVsEdit
  cases Diff3.merge env.mergeStrings (mergeBaseIn (db.docs path) winner loser) winner.content
    loser.content <;> rfl

theorem editVsEdit_revs {base : Bytes} :
    (editVsEdit env base winner loser loserRevs).winnerRev = winner.rev ∧
      (editVsEdit env base winner loser loserRevs).loserRevs = loserRevs := by
  unfold editVsEdit keepNewer
  split <;> exact ⟨rfl, rfl⟩

/-- Whatever is planned goes on top of the winner, and every other leaf is to
be deleted. -/
theorem exec_planResolution {leaves : List Leaf} {r : Rev} {plan : Plan}
    (h : Hub.exec C (planResolution env path leaves r) db = (.ok plan, db')) :
    db = db' ∧ plan.winnerRev = r ∧
      plan.loserRevs = (leaves.filter fun l => l.rev ≠ r).map Leaf.rev := by
  unfold planResolution at h
  obtain ⟨winner, db₁, hwinner, hrest⟩ := Hub.exec_bind_eq_ok h
  obtain ⟨hfind, rfl⟩ := exec_orMissingLeaf hwinner
  have hrev : winner.rev = r := by simpa using List.find?_some hfind
  dsimp only at hrest
  split at hrest
  · obtain ⟨other, db₂, hother, hplan⟩ := Hub.exec_bind_eq_ok hrest
    obtain ⟨-, rfl⟩ := exec_orMissingLeaf hother
    rw [exec_planEditVsEdit] at hplan
    obtain ⟨hok, rfl⟩ := Prod.mk.inj hplan
    rw [← Except.ok.inj hok, editVsEdit_revs.1, editVsEdit_revs.2]
    exact ⟨rfl, hrev, rfl⟩
  · split at hrest
    · obtain ⟨rfl, rfl⟩ := Hub.exec_pure_eq_ok hrest
      exact ⟨rfl, rfl, rfl⟩
    · obtain ⟨rfl, rfl⟩ := Hub.exec_pure_eq_ok hrest
      exact ⟨rfl, hrev, rfl⟩

/-! ## Copies -/

variable {copy : Copy} {copies : List Copy} {plan : Plan} {written : List Path}

/-- No copy has the name of what it is a copy of. -/
theorem conflictName_ne (base today : String) (k : ℕ) : conflictName base today k ≠ base := by
  intro h
  have hlen := congrArg String.length h
  have hmark : (toString ".conflict-").length = 10 := by decide
  have hbase : (toString base).length = base.length := rfl
  cases k <;> simp [conflictName, String.length_append] at hlen <;> omega

/-- The name found is that of no visible document, and one is found unless
all candidates are taken. -/
theorem exec_firstFree (C : Couch) (db : Db) (base today : String) (k fuel : ℕ) :
    (∃ n, Hub.exec C (firstFree base today k fuel) db = (.ok (conflictName base today n), db) ∧
      (db.docs (conflictName base today n)).visible = none) ∨
    Hub.exec C (firstFree base today k fuel) db = (.error .suffixOverflow, db) ∧
      ∀ j, k ≤ j → j < k + fuel → (db.docs (conflictName base today j)).visible ≠ none := by
  induction fuel generalizing k with
  | zero => exact .inr ⟨rfl, fun j hkj hj => by omega⟩
  | succ fuel ih =>
    have hdoc : Hub.exec C (orCouch (CouchClient.getDoc (conflictName base today k))) db =
        (.ok (db.docs (conflictName base today k)).doc?, db) :=
      Hub.exec_adapt_of_ok CouchClient.exec_getDoc
    unfold firstFree
    rw [Hub.exec_bind_of_ok hdoc]
    cases hd : (db.docs (conflictName base today k)).doc? with
    | none => exact .inl ⟨k, rfl, Tree.doc?_eq_none.1 hd⟩
    | some doc =>
      rcases ih (k + 1) with hfound | ⟨hfull, hall⟩
      · exact .inl hfound
      · refine .inr ⟨hfull, fun j hkj hj => ?_⟩
        rcases Nat.eq_or_lt_of_le hkj with rfl | hlt
        · intro hv
          rw [Tree.doc?_eq_none.2 hv] at hd
          cases hd
        · exact hall j hlt (by omega)

/-- Every candidate for a copy's name is taken. -/
def Crowded (env : HubEnv) (path : Path) (db : Db) : Prop :=
  ∀ k < 2 ^ 32, (db.docs (conflictName path env.today k)).visible ≠ none

/-- What a copy that was written leaves: a document more, at another path. -/
structure Copied (path q : Path) (db db' : Db) : Prop where
  ne : q ≠ path
  before : (db.docs q).visible = none
  after : (db'.docs q).visible ≠ none
  others : ∀ p, p ≠ q → db'.docs p = db.docs p

/-- A body and then a content, on a document that shows nothing, are what it
shows. -/
theorem visible_append_two {t : Tree} {parent : Option Node} {body : Body} {a : Attachment}
    (hnone : t.visible = none) :
    let b := C.child t parent false body none
    Tree.visible (t ++ [b] ++ [C.child (t ++ [b]) (some b) b.deleted b.body (some a)]) =
      some (C.child (t ++ [b]) (some b) b.deleted b.body (some a)) := by
  intro b
  set c := C.child (t ++ [b]) (some b) b.deleted b.body (some a) with hc
  have hbmem : ∀ p, some b = some p → p ∈ t ++ [b] := by
    rintro p ⟨⟩
    exact List.mem_append_right _ (List.mem_singleton_self b)
  have hcleaf : c ∈ Tree.leaves (t ++ [b] ++ [c]) :=
    (Tree.leaf?_eq_some (Push.leaf?_append_child hbmem)).1
  obtain ⟨v, hv⟩ := Tree.exists_visible (n := c) (Tree.mem_liveLeaves.2 ⟨hcleaf, rfl⟩)
  obtain ⟨hvleaf, hvd⟩ := Tree.mem_liveLeaves.1 (Tree.visible_mem hv)
  rw [hv]
  rcases Tree.mem_leaves_append.1 hvleaf with ⟨hold, hover⟩ | ⟨rfl, -⟩
  · rcases Tree.mem_leaves_append.1 hold with ⟨hold, -⟩ | ⟨rfl, -⟩
    · rw [Tree.visible_eq_none.1 hnone v hold] at hvd
      cases hvd
    · rw [hc, Couch.ancestors_child_some] at hover
      exact absurd List.mem_cons_self hover
  · rfl

/-- The body of a copy goes where nothing is shown. -/
theorem exec_putDoc_copy (C : Couch) (copy : Copy) {q : Path} (hnone : (db.docs q).visible = none) :
    ∃ parent, (∀ p, parent = some p → p ∈ db.docs q) ∧
      Hub.exec C (orCas (CouchClient.putDoc .resolver q none
        ⟨some q, some copy.mtime, some copy.contentType⟩)) db =
        (.ok (C.child (db.docs q) parent false
            ⟨some q, some copy.mtime, some copy.contentType⟩ none).rev,
          db.write q (C.child (db.docs q) parent false
            ⟨some q, some copy.mtime, some copy.contentType⟩ none)) := by
  have hparent : ∃ parent, Couch.putParent (db.docs q) none = .ok parent := by
    unfold Couch.putParent
    cases hw : (db.docs q).winner with
    | none => exact ⟨none, rfl⟩
    | some w =>
      have hdel : w.deleted = true := Tree.visible_eq_none.1 hnone w (Tree.winner_mem hw)
      exact ⟨some w, if_pos hdel⟩
  obtain ⟨parent, hparent⟩ := hparent
  refine ⟨parent, fun p hp => Tree.mem_of_mem_leaves (Push.putParent_mem hparent p hp), ?_⟩
  refine Hub.exec_adapt_of_ok ?_
  rw [CouchClient.exec_putDoc]
  simp only [Couch.answer, hparent]
  rfl

/-- A copy that can be sent is what is read at its name, once it is
written. -/
theorem exec_writeCopy_content (C : Couch) (env : HubEnv) (db : Db) (path : Path) (copy : Copy)
    (hsend : HeaderValue.accepts copy.contentType = true) :
    (∃ q db', Hub.exec C (writeCopy env path copy) db = (.ok q, db') ∧ Copied path q db db' ∧
      (db'.docs q).content? none = some copy.content) ∨
      Hub.exec C (writeCopy env path copy) db = (.error .suffixOverflow, db) ∧
        Crowded env path db := by
  unfold writeCopy conflictCopyPath
  rcases exec_firstFree C db path env.today 0 (2 ^ 32) with ⟨n, hfree, hnone⟩ | ⟨hfull, hall⟩
  · refine .inl ⟨conflictName path env.today n, ?_⟩
    generalize hq : conflictName path env.today n = q at hfree hnone ⊢
    -- the body first, then the content on top of it
    obtain ⟨parent, hmem, hput⟩ := exec_putDoc_copy C copy hnone
    set body : Body := ⟨some q, some copy.mtime, some copy.contentType⟩
    set b := C.child (db.docs q) parent false body none with hb
    have hleaf : Tree.leaf? (db.docs q ++ [b]) b.rev = some b := Push.leaf?_append_child hmem
    set c := C.child (db.docs q ++ [b]) (some b) b.deleted b.body
      (some ⟨copy.contentType, copy.content⟩) with hc
    have hattach : Hub.exec C (orCas (CouchClient.putAttachment .resolver q b.rev copy.contentType
        copy.content)) (db.write q b) = (.ok c.rev, (db.write q b).write q c) := by
      refine Hub.exec_adapt_of_ok ?_
      rw [CouchClient.exec_putAttachment hsend]
      simp only [Couch.answer, Db.write_docs_self, hleaf]
      rfl
    have hdocs : ((db.write q b).write q c).docs q = db.docs q ++ [b] ++ [c] := by
      rw [Db.write_docs_self, Db.write_docs_self]
    have hshown : (((db.write q b).write q c).docs q).visible = some c := by
      rw [hdocs]
      exact visible_append_two hnone
    refine ⟨(db.write q b).write q c, ?_, ⟨hq ▸ conflictName_ne _ _ _, hnone, ?_, fun p hp => ?_⟩,
      ?_⟩
    · rw [Hub.exec_bind_of_ok hfree]
      exact (Hub.exec_bind_of_ok hput).trans (Hub.exec_bind_of_ok hattach)
    · rw [hshown]
      exact Option.some_ne_none c
    · rw [Db.write_docs_of_ne hp, Db.write_docs_of_ne hp]
    · rw [Tree.content?, Option.elim_none, hshown]
      rfl
  · exact .inr ⟨Hub.exec_bind_of_error hfull, fun k hk => hall k (Nat.zero_le k) (by omega)⟩

/-- One that cannot be sent is an error, which no other attempt follows; its
body may have been written. -/
theorem exec_writeCopy_unsent (C : Couch) (env : HubEnv) (db : Db) (path : Path) (copy : Copy)
    (hsend : HeaderValue.accepts copy.contentType = false) :
    ∃ e db', Hub.exec C (writeCopy env path copy) db = (.error e, db') ∧ e ≠ .casConflict ∧
      (db' = db ∨ ∃ q b, q ≠ path ∧ (db.docs q).visible = none ∧ db' = db.write q b) := by
  unfold writeCopy conflictCopyPath
  rcases exec_firstFree C db path env.today 0 (2 ^ 32) with ⟨n, hfree, hnone⟩ | ⟨hfull, -⟩
  · have hne : conflictName path env.today n ≠ path := conflictName_ne _ _ _
    generalize conflictName path env.today n = q at hfree hnone hne
    obtain ⟨parent, -, hput⟩ := exec_putDoc_copy C copy hnone
    set b := C.child (db.docs q) parent false ⟨some q, some copy.mtime, some copy.contentType⟩ none
    have hattach : Hub.exec C (orCas (CouchClient.putAttachment .resolver q b.rev copy.contentType
        copy.content)) (db.write q b) = (.error (.couch .transport), db.write q b) :=
      Hub.exec_adapt_of_error (CouchClient.exec_putAttachment_unsent hsend)
    refine ⟨.couch .transport, db.write q b, ?_, by simp, .inr ⟨q, b, hne, hnone, rfl⟩⟩
    rw [Hub.exec_bind_of_ok hfree]
    exact (Hub.exec_bind_of_ok hput).trans (Hub.exec_bind_of_error hattach)
  · exact ⟨.suffixOverflow, db, Hub.exec_bind_of_error hfull, by simp, .inl rfl⟩

/-- Whether a copy is written or not, the path's document is left alone. -/
theorem docs_writeCopy (C : Couch) (env : HubEnv) (db : Db) (path : Path) (copy : Copy) :
    (Hub.exec C (writeCopy env path copy) db).2.docs path = db.docs path := by
  cases hsend : HeaderValue.accepts copy.contentType with
  | true =>
    rcases exec_writeCopy_content C env db path copy hsend with
      ⟨q, db', hrun, hcopied, -⟩ | ⟨hfull, -⟩
    · rw [hrun]
      exact hcopied.others path hcopied.ne.symm
    · rw [hfull]
  | false =>
    obtain ⟨e, db', hrun, -, hwrote⟩ := exec_writeCopy_unsent C env db path copy hsend
    rw [hrun]
    rcases hwrote with rfl | ⟨q, b, hne, -, rfl⟩
    · rfl
    · exact Db.write_docs_of_ne hne.symm

/-- Copies leave the path alone. -/
theorem docs_writeCopies (C : Couch) (env : HubEnv) (db : Db) (path : Path)
    (copies : List Copy) :
    (Hub.exec C (writeCopies env path copies) db).2.docs path = db.docs path := by
  induction copies generalizing db with
  | nil => rfl
  | cons copy copies ih =>
    unfold writeCopies
    have hone := docs_writeCopy C env db path copy
    rcases hrun : Hub.exec C (writeCopy env path copy) db with ⟨e | q, db'⟩
    · rw [Hub.exec_bind_of_error hrun]
      rwa [hrun] at hone
    · rw [Hub.exec_bind_of_ok hrun]
      rw [hrun] at hone
      have hother := ih db'
      rcases hrest : Hub.exec C (writeCopies env path copies) db' with ⟨e | written, db''⟩
      · rw [Hub.exec_bind_of_error hrest]
        rw [hrest] at hother
        exact hother.trans hone
      · rw [Hub.exec_bind_of_ok hrest]
        rw [hrest] at hother
        exact hother.trans hone

/-! ## Writing the plan -/

theorem exec_putDoc_eq_ok {caller : Caller} {r new : Rev} {body : Body}
    (h : Hub.exec C (orCas (CouchClient.putDoc caller path (some r) body)) db = (.ok new, db')) :
    ∃ q, q.rev = r ∧ new = (C.child (db.docs path) (some q) false body none).rev ∧
      db' = db.write path (C.child (db.docs path) (some q) false body none) := by
  have hput := Hub.exec_adapt_eq_ok h
  rw [CouchClient.exec_putDoc] at hput
  simp only [Couch.answer, Couch.putParent] at hput
  cases hl : (db.docs path).leaf? r with
  | none =>
    rw [hl] at hput
    cases (Prod.mk.inj hput).1
  | some q =>
    rw [hl] at hput
    obtain ⟨hnew, rfl⟩ := Prod.mk.inj hput
    exact ⟨q, (Tree.leaf?_eq_some hl).2, (Except.ok.inj hnew).symm, rfl⟩

theorem exec_putAttachment_eq_ok {caller : Caller} {r new : Rev} {contentType : String}
    {bytes : Bytes}
    (h : Hub.exec C (orCas (CouchClient.putAttachment caller path r contentType bytes)) db =
      (.ok new, db')) :
    ∃ q, q.rev = r ∧
      new = (C.child (db.docs path) (some q) q.deleted q.body (some ⟨contentType, bytes⟩)).rev ∧
      db' = db.write path
        (C.child (db.docs path) (some q) q.deleted q.body (some ⟨contentType, bytes⟩)) := by
  have hput := Hub.exec_adapt_eq_ok h
  rw [CouchClient.exec_putAttachment (CouchClient.accepts_of_putAttachment hput)] at hput
  simp only [Couch.answer] at hput
  cases hl : (db.docs path).leaf? r with
  | none =>
    rw [hl] at hput
    cases (Prod.mk.inj hput).1
  | some q =>
    rw [hl] at hput
    obtain ⟨hnew, rfl⟩ := Prod.mk.inj hput
    exact ⟨q, (Tree.leaf?_eq_some hl).2, (Except.ok.inj hnew).symm, rfl⟩

theorem exec_deleteDoc_eq_ok {caller : Caller} {r new : Rev}
    (h : Hub.exec C (orCas (CouchClient.deleteDoc caller path r)) db = (.ok new, db')) :
    ∃ q, q.rev = r ∧
      db' = db.write path (C.child (db.docs path) (some q) true ⟨none, none, none⟩ none) := by
  have hput := Hub.exec_adapt_eq_ok h
  rw [CouchClient.exec_deleteDoc] at hput
  simp only [Couch.answer, Couch.deleteParent] at hput
  cases hw : (db.docs path).winner with
  | none =>
    rw [hw] at hput
    cases (Prod.mk.inj hput).1
  | some w =>
    rw [hw] at hput
    dsimp only at hput
    split at hput
    · rename_i q hq
      obtain ⟨-, rfl⟩ := Prod.mk.inj hput
      split at hq
      · cases hq
      split at hq
      · rename_i n hn
        obtain rfl := Except.ok.inj hq
        exact ⟨n, (Tree.leaf?_eq_some hn).2, rfl⟩
      · cases hq
    · cases (Prod.mk.inj hput).1

/-- What is written at the end takes the winner's place. -/
theorem liveWithin_writeFinal {revs : List Rev}
    (h : Hub.exec C (writeFinal path plan) db = (.ok (), db'))
    (hlive : Tree.LiveWithin (db.docs path) (plan.winnerRev :: revs)) :
    ∃ r, Tree.LiveWithin (db'.docs path) (r :: revs) := by
  unfold writeFinal at h
  cases hf : plan.finalContent with
  | none =>
    rw [hf] at h
    obtain ⟨-, rfl⟩ := Hub.exec_pure_eq_ok h
    exact ⟨_, hlive⟩
  | some content =>
    rw [hf] at h
    obtain ⟨rev, db₁, hput, hrest⟩ := Hub.exec_bind_eq_ok h
    obtain ⟨q, hq, rfl, rfl⟩ := exec_putDoc_eq_ok hput
    obtain ⟨rev', db₂, hattach, hpure⟩ := Hub.exec_bind_eq_ok hrest
    obtain ⟨m, hm, rfl, rfl⟩ := exec_putAttachment_eq_ok hattach
    obtain ⟨-, rfl⟩ := Hub.exec_pure_eq_ok hpure
    rw [Db.write_docs_self, Db.write_docs_self]
    exact ⟨_, Couch.liveWithin_append_child (Couch.liveWithin_append_child hlive hq) hm⟩

/-- Then every loser is deleted. -/
theorem liveWithin_deleteLosers {r : Rev} {revs : List Rev}
    (h : Hub.exec C (deleteLosers path revs) db = (.ok (), db'))
    (hlive : Tree.LiveWithin (db.docs path) (r :: revs)) :
    Tree.LiveWithin (db'.docs path) [r] := by
  induction revs generalizing db with
  | nil =>
    obtain ⟨-, rfl⟩ := Hub.exec_pure_eq_ok h
    exact hlive
  | cons rev revs ih =>
    unfold deleteLosers at h
    obtain ⟨new, db₁, hdelete, hrest⟩ := Hub.exec_bind_eq_ok h
    obtain ⟨q, hq, rfl⟩ := exec_deleteDoc_eq_ok hdelete
    refine ih hrest ?_
    have hswap : Tree.LiveWithin (db.docs path) (rev :: r :: revs) := fun n hn => by
      have := hlive n hn
      simp only [List.mem_cons] at this ⊢
      tauto
    rw [Db.write_docs_self]
    exact Couch.liveWithin_append_tombstone hswap hq

/-- **A plan that is written** leaves one live leaf of the winner and those
it deletes. -/
theorem liveWithin_applyPlan
    (h : Hub.exec C (applyPlan env path plan) db = (.ok written, db'))
    (hlive : Tree.LiveWithin (db.docs path) (plan.winnerRev :: plan.loserRevs)) :
    ∃ r, Tree.LiveWithin (db'.docs path) [r] := by
  unfold applyPlan at h
  obtain ⟨copies, db₁, hcopies, hrest⟩ := Hub.exec_bind_eq_ok h
  have hsame : db₁.docs path = db.docs path := by
    have hother := docs_writeCopies C env db path plan.copies
    rwa [hcopies] at hother
  obtain ⟨u, db₂, hfinal, hlosers⟩ := Hub.exec_bind_eq_ok hrest
  rw [← hsame] at hlive
  obtain ⟨r, hr⟩ := liveWithin_writeFinal hfinal hlive
  obtain ⟨u', db₃, hdelete, hpure⟩ := Hub.exec_bind_eq_ok hlosers
  obtain ⟨-, rfl⟩ := Hub.exec_pure_eq_ok hpure
  exact ⟨r, liveWithin_deleteLosers hdelete hr⟩

theorem exec_applyPlan_of {db₁ db₂ : Db}
    (hcopies : Hub.exec C (writeCopies env path plan.copies) db = (.ok written, db₁))
    (hfinal : Hub.exec C (writeFinal path plan) db₁ = (.ok (), db₂))
    (hlosers : Hub.exec C (deleteLosers path plan.loserRevs) db₂ = (.ok (), db')) :
    Hub.exec C (applyPlan env path plan) db = (.ok written, db') := by
  unfold applyPlan
  rw [Hub.exec_bind_of_ok hcopies, Hub.exec_bind_of_ok hfinal, Hub.exec_bind_of_ok hlosers]
  rfl

/-! ## The loop -/

/-- A plan is written, or the loop goes round again. -/
theorem exec_applyOrRetry {again : Hub ResolveError Outcome} :
    Hub.exec C (applyOrRetry env path plan again) db =
      match Hub.exec C (applyPlan env path plan) db with
      | (.ok copies, db') => (.ok (.resolved ⟨path, plan.kind, copies⟩), db')
      | (.error .casConflict, db') => Hub.exec C again db'
      | (.error e, db') => (.error e, db') := by
  unfold applyOrRetry
  rcases hrun : Hub.exec C (applyPlan env path plan) db with ⟨(_ | _ | _ | _ | _) | copies, db'⟩
  all_goals exact Hub.exec_bind_of_ok (Hub.exec_attempt_of hrun)

/-- What a reader is shown names every live leaf. -/
theorem liveWithin_doc {t : Tree} {doc : Doc} (h : t.doc? = some doc) :
    Tree.LiveWithin t (doc.rev :: doc.conflicts) := by
  obtain ⟨w, hw, rfl⟩ := Option.map_eq_some_iff.1 h
  intro n hn
  by_cases hrev : n.rev = w.rev
  · rw [hrev]
    exact List.mem_cons_self
  · exact List.mem_cons_of_mem _ (List.mem_map.2 ⟨n, List.mem_filter.2 ⟨hn, by simpa using hrev⟩, rfl⟩)

/-- What is listed is in the plan, as its winner or to be deleted. -/
theorem liveWithin_plan {t : Tree} {leaves : List Leaf} {r : Rev} {revs : List Rev}
    (hwithin : t.LiveWithin revs) (hrevs : leaves.map Leaf.rev = revs) :
    t.LiveWithin (r :: (leaves.filter fun l => l.rev ≠ r).map Leaf.rev) := by
  intro n hn
  have hmem := hwithin n hn
  rw [← hrevs] at hmem
  obtain ⟨l, hl, hrev⟩ := List.mem_map.1 hmem
  rw [← hrev]
  by_cases hw : l.rev = r
  · rw [hw]
    exact List.mem_cons_self
  · exact List.mem_cons_of_mem _
      (List.mem_map.2 ⟨l, List.mem_filter.2 ⟨hl, by simpa using hw⟩, rfl⟩)

/-- **A resolution that succeeds leaves one live leaf at most.** -/
theorem length_liveLeaves_of_resolve {o : Outcome} (hs : Tree.Sound (db.docs path))
    (h : Hub.exec C (resolve env path) db = (.ok o, db')) :
    (db'.docs path).liveLeaves.length ≤ 1 := by
  -- by induction on the tries left: only a refused write is tried again
  have hloop : ∀ tries (db : Db), Tree.Sound (db.docs path) →
      Hub.exec C (resolveLoop env path tries) db = (.ok o, db') →
      (db'.docs path).liveLeaves.length ≤ 1 := by
    intro tries
    induction tries with
    | zero => exact fun db _ h => (Hub.not_exec_throw_eq_ok h).elim
    | succ tries ih =>
      intro db hs h
      unfold resolveLoop at h
      rw [Hub.exec_bind_of_ok (Hub.exec_adapt_of_ok CouchClient.exec_getDoc)] at h
      cases hd : (db.docs path).doc? with
      | none =>
        rw [hd] at h
        have htomb : (db.docs path).Tombstoned := Tree.visible_eq_none.1 (Tree.doc?_eq_none.1 hd)
        dsimp only at h
        rw [exec_resolveDeleteWinner_of_tombstoned htomb] at h
        obtain ⟨-, rfl⟩ := Prod.mk.inj h
        have hnone : (db.docs path).liveLeaves = [] :=
          List.filter_eq_nil_iff.2 fun n hn => by simp [htomb n hn]
        rw [hnone]
        exact Nat.zero_le 1
      | some doc =>
        rw [hd] at h
        dsimp only at h
        have hwithin := liveWithin_doc hd
        split at h
        · rename_i hempty
          obtain ⟨-, rfl⟩ := Hub.exec_pure_eq_ok h
          rw [List.isEmpty_iff.1 hempty] at hwithin
          exact hwithin.length_le hs
        · obtain ⟨leaves, db₁, hleaves, hrest⟩ := Hub.exec_bind_eq_ok h
          obtain ⟨rfl, hrevs⟩ := exec_fetchLeaves hleaves
          obtain ⟨plan, db₂, hplan, happly⟩ := Hub.exec_bind_eq_ok hrest
          obtain ⟨rfl, hwinner, hlosers⟩ := exec_planResolution hplan
          rw [exec_applyOrRetry] at happly
          rcases hrun : Hub.exec C (applyPlan env path plan) db with ⟨e | written, db₃⟩
          · rw [hrun] at happly
            cases e with
            | casConflict =>
              refine ih db₃ ?_ happly
              have hsound := sound_exec (C := C) (x := applyPlan env path plan)
                (all_applyPlan hangs plan) hs
              rwa [hrun] at hsound
            | _ => cases (Prod.mk.inj happly).1
          · rw [hrun] at happly
            obtain ⟨-, rfl⟩ := Prod.mk.inj happly
            have hsound := sound_exec (C := C) (x := applyPlan env path plan)
              (all_applyPlan hangs plan) hs
            rw [hrun] at hsound
            have hplanned : Tree.LiveWithin (db.docs path) (plan.winnerRev :: plan.loserRevs) := by
              rw [hwinner, hlosers]
              exact liveWithin_plan hwithin hrevs
            obtain ⟨r, hr⟩ := liveWithin_applyPlan hrun hplanned
            exact hr.length_le hsound
  exact hloop maxRetries db hs h

/-! ## Two live leaves -/

/-- The revisions written on top of a leaf: a body, and then the content. -/
def finalBody (C : Couch) (path : Path) (t : Tree) (w : Node) (plan : Plan) : Node :=
  C.child t (some w) false ⟨some path, some plan.finalMtime, some plan.finalContentType⟩ none

def finalNode (C : Couch) (path : Path) (t : Tree) (w : Node) (plan : Plan) (content : Bytes) :
    Node :=
  C.child (t ++ [finalBody C path t w plan]) (some (finalBody C path t w plan)) false
    ⟨some path, some plan.finalMtime, some plan.finalContentType⟩
    (some ⟨plan.finalContentType, content⟩)

theorem exec_writeFinal {w : Node} {content : Bytes} (hfinal : plan.finalContent = some content)
    (hsend : HeaderValue.accepts plan.finalContentType = true)
    (hw : (db.docs path).leaf? plan.winnerRev = some w) :
    Hub.exec C (writeFinal path plan) db = (.ok (),
      (db.write path (finalBody C path (db.docs path) w plan)).write path
        (finalNode C path (db.docs path) w plan content)) := by
  have hput : Hub.exec C (orCas (CouchClient.putDoc .resolver path (some plan.winnerRev)
      ⟨some path, some plan.finalMtime, some plan.finalContentType⟩)) db =
      (.ok (finalBody C path (db.docs path) w plan).rev,
        db.write path (finalBody C path (db.docs path) w plan)) := by
    refine Hub.exec_adapt_of_ok ?_
    rw [CouchClient.exec_putDoc]
    simp only [Couch.answer, Couch.putParent, hw]
    rfl
  have hleaf : Tree.leaf? (db.docs path ++ [finalBody C path (db.docs path) w plan])
      (finalBody C path (db.docs path) w plan).rev =
      some (finalBody C path (db.docs path) w plan) := by
    refine Push.leaf?_append_child ?_
    rintro p ⟨⟩
    exact Tree.mem_of_mem_leaves (Tree.leaf?_eq_some hw).1
  have hattach : Hub.exec C (orCas (CouchClient.putAttachment .resolver path
      (finalBody C path (db.docs path) w plan).rev plan.finalContentType content))
      (db.write path (finalBody C path (db.docs path) w plan)) =
      (.ok (finalNode C path (db.docs path) w plan content).rev,
        (db.write path (finalBody C path (db.docs path) w plan)).write path
          (finalNode C path (db.docs path) w plan content)) := by
    refine Hub.exec_adapt_of_ok ?_
    rw [CouchClient.exec_putAttachment hsend]
    simp only [Couch.answer, Db.write_docs_self, hleaf]
    rfl
  unfold writeFinal
  rw [hfinal]
  exact (Hub.exec_bind_of_ok hput).trans (Hub.exec_bind_of_ok hattach)

/-- A leaf of a visible document is deleted. -/
theorem exec_deleteLosers_singleton {w l : Node} {r : Rev}
    (hw : (db.docs path).visible = some w) (hl : (db.docs path).leaf? r = some l) :
    Hub.exec C (deleteLosers path [r]) db = (.ok (),
      db.write path (C.child (db.docs path) (some l) true ⟨none, none, none⟩ none)) := by
  obtain ⟨hwinner, hd⟩ := Tree.visible_eq_some.1 hw
  have hdelete : Hub.exec C (orCas (CouchClient.deleteDoc .resolver path r)) db =
      (.ok (C.child (db.docs path) (some l) true ⟨none, none, none⟩ none).rev,
        db.write path (C.child (db.docs path) (some l) true ⟨none, none, none⟩ none)) := by
    refine Hub.exec_adapt_of_ok ?_
    rw [CouchClient.exec_deleteDoc]
    simp only [Couch.answer, Couch.deleteParent, hwinner, hd, hl, Bool.false_and,
      Bool.false_eq_true, if_false]
    rfl
  exact Hub.exec_bind_of_ok hdelete

/-- **The result on top of the winner and the loser deleted**: the result is
the one live leaf. -/
theorem exec_writeTwo (C : Couch) (db : Db) (plan : Plan) {w l : Node} {content : Bytes} (hs : Tree.Sound (db.docs path))
    (hw : w ∈ (db.docs path).leaves) (hl : l ∈ (db.docs path).leaves) (hne : l.rev ≠ w.rev)
    (hlive : Tree.LiveWithin (db.docs path) [w.rev, l.rev])
    (hfinal : plan.finalContent = some content)
    (hsend : HeaderValue.accepts plan.finalContentType = true) (hwinner : plan.winnerRev = w.rev)
    (hloser : plan.loserRevs = [l.rev]) :
    ∃ db₁ db' n, Hub.exec C (writeFinal path plan) db = (.ok (), db₁) ∧
      Hub.exec C (deleteLosers path plan.loserRevs) db₁ = (.ok (), db') ∧
      (db'.docs path).liveLeaves = [n] ∧ n.content = some ⟨plan.finalContentType, content⟩ ∧
      ∀ p, p ≠ path → db'.docs p = db.docs p := by
  have hwf : (db.docs path).leaf? plan.winnerRev = some w := hwinner ▸ hs.leaf?_rev hw
  have hrun := exec_writeFinal (C := C) hfinal hsend hwf
  set b := finalBody C path (db.docs path) w plan with hb
  set n := finalNode C path (db.docs path) w plan content with hn
  have hbmem : ∀ p, some b = some p → p ∈ db.docs path ++ [b] := by
    rintro p ⟨⟩
    exact List.mem_append_right _ (List.mem_singleton_self b)
  have hs₁ : Tree.Sound (db.docs path ++ [b] ++ [n]) := by
    refine Couch.sound_append_child (Couch.sound_append_child hs ?_) hbmem
    rintro p ⟨⟩
    exact Tree.mem_of_mem_leaves hw
  have hnleaf : n ∈ Tree.leaves (db.docs path ++ [b] ++ [n]) :=
    (Tree.leaf?_eq_some (Push.leaf?_append_child hbmem)).1
  -- the loser is a leaf still: the result is on top of the winner only
  have hnot : ∀ m ∈ db.docs path, l.rev ∉ m.ancestors := (Tree.mem_leaves.1 hl).2
  have hbanc : l.rev ∉ b.ancestors := by
    rw [hb, finalBody, Couch.ancestors_child_some, List.mem_cons, not_or]
    exact ⟨hne, hnot w (Tree.mem_of_mem_leaves hw)⟩
  have hlleaf : l ∈ Tree.leaves (db.docs path ++ [b] ++ [n]) := by
    refine Tree.mem_leaves_append.2 (.inl ⟨Tree.mem_leaves_append.2 (.inl ⟨hl, hbanc⟩), ?_⟩)
    rw [hn, finalNode, Couch.ancestors_child_some, List.mem_cons, not_or]
    refine ⟨fun h => ?_, hbanc⟩
    exact Couch.child_rev_ne (C := C) (Tree.mem_of_mem_leaves hl) (h.symm)
  have hdocs : ((db.write path b).write path n).docs path = db.docs path ++ [b] ++ [n] := by
    rw [Db.write_docs_self, Db.write_docs_self]
  obtain ⟨v, hv⟩ := Tree.exists_visible (n := n) (Tree.mem_liveLeaves.2 ⟨hnleaf, rfl⟩)
  have hdelete := exec_deleteLosers_singleton (C := C) (r := l.rev) (l := l)
    (show (((db.write path b).write path n).docs path).visible = some v by rw [hdocs, hv])
    (by rw [hdocs]; exact hs₁.leaf?_rev hlleaf)
  rw [← hloser, hdocs] at hdelete
  set d := C.child (db.docs path ++ [b] ++ [n]) (some l) true ⟨none, none, none⟩ none with hd
  refine ⟨_, _, n, hrun, hdelete, ?_, rfl, fun p hp => ?_⟩
  · rw [Db.write_docs_self, hdocs]
    have hs₂ : Tree.Sound (db.docs path ++ [b] ++ [n] ++ [d]) := by
      refine Couch.sound_append_child hs₁ ?_
      rintro p ⟨⟩
      exact Tree.mem_of_mem_leaves hlleaf
    have hlmem : l ∈ db.docs path ++ [b] := List.mem_append_left _ (Tree.mem_of_mem_leaves hl)
    have hndanc : n.rev ∉ d.ancestors := by
      rw [hd, Couch.ancestors_child_some, List.mem_cons, not_or]
      exact ⟨Couch.child_rev_ne hlmem, Couch.child_rev_not_mem_ancestors hlmem⟩
    have hwithin : Tree.LiveWithin (db.docs path ++ [b] ++ [n] ++ [d]) [n.rev] := by
      refine Couch.liveWithin_append_tombstone (r := l.rev) ?_ rfl
      have hover : Tree.LiveWithin (db.docs path ++ [b] ++ [n]) [n.rev, l.rev] :=
        Couch.liveWithin_append_child (Couch.liveWithin_append_child hlive rfl) rfl
      intro m hm
      simpa [or_comm] using hover m hm
    refine hs₂.liveLeaves_eq (Tree.mem_liveLeaves.2
      ⟨Tree.mem_leaves_append.2 (.inl ⟨hnleaf, hndanc⟩), rfl⟩) fun m hm => ?_
    exact List.mem_singleton.1 (hwithin m hm)
  · rw [Db.write_docs_of_ne hp, Db.write_docs_of_ne hp, Db.write_docs_of_ne hp]

/-- **Two live leaves with contents** are planned over what they share. -/
theorem exec_resolve_of_two (C : Couch) (env : HubEnv) {w l : Node} {a b : Attachment} (hs : Tree.Sound (db.docs path))
    (hw : (db.docs path).visible = some w)
    (hl : ((db.docs path).liveLeaves.filter fun n => n.rev ≠ w.rev) = [l])
    (ha : w.content = some a) (hb : l.content = some b) :
    Hub.exec C (resolve env path) db = Hub.exec C (applyOrRetry env path
      (editVsEdit env (mergeBaseIn (db.docs path) (leafOf w a.data) (leafOf l b.data))
        (leafOf w a.data) (leafOf l b.data) [l.rev]) (resolveLoop env path 4)) db := by
  obtain ⟨hwleaf, hwd⟩ := Tree.mem_liveLeaves.1 (Tree.visible_mem hw)
  have hlmem : l ∈ (db.docs path).liveLeaves.filter fun n => n.rev ≠ w.rev := by
    rw [hl]
    exact List.mem_singleton_self l
  obtain ⟨hllive, hrev⟩ := List.mem_filter.1 hlmem
  have hne : l.rev ≠ w.rev := by simpa using hrev
  obtain ⟨hlleaf, hld⟩ := Tree.mem_liveLeaves.1 hllive
  have hdoc : (db.docs path).doc? = some ⟨w.rev, w.body, [l.rev]⟩ := by
    rw [Tree.doc?, hw, Option.map_some, hl, List.map_singleton]
  have hfetch : Hub.exec C (fetchLeaves path [w.rev, l.rev]) db =
      (.ok [leafOf w a.data, leafOf l b.data], db) := by
    have hreadw : Hub.exec C (fetchLeaf path w.rev) db = (.ok (leafOf w a.data), db) :=
      exec_fetchLeaf_of_content (hs.find?_rev (Tree.mem_of_mem_leaves hwleaf)) hwd ha
    have hreadl : Hub.exec C (fetchLeaf path l.rev) db = (.ok (leafOf l b.data), db) :=
      exec_fetchLeaf_of_content (hs.find?_rev (Tree.mem_of_mem_leaves hlleaf)) hld hb
    exact (Hub.exec_bind_of_ok hreadw).trans
      (Hub.exec_bind_of_ok ((Hub.exec_bind_of_ok hreadl).trans rfl))
  have hplan : Hub.exec C (planResolution env path [leafOf w a.data, leafOf l b.data] w.rev) db =
      (.ok (editVsEdit env (mergeBaseIn (db.docs path) (leafOf w a.data) (leafOf l b.data))
        (leafOf w a.data) (leafOf l b.data) [l.rev]), db) := by
    have hwinner : [leafOf w a.data, leafOf l b.data].find? (fun m => decide (m.rev = w.rev)) =
        some (leafOf w a.data) := by simp [leafOf]
    have hlosers : ([leafOf w a.data, leafOf l b.data].filter fun m => m.rev ≠ w.rev).map
        Leaf.rev = [l.rev] := by simp [leafOf, hne]
    have hlive : [leafOf w a.data, leafOf l b.data].filter (fun m => !m.deleted) =
        [leafOf w a.data, leafOf l b.data] := by simp [leafOf, hwd, hld]
    have hother : [leafOf w a.data, leafOf l b.data].find?
        (fun m => decide (m.rev ≠ (leafOf w a.data).rev)) = some (leafOf l b.data) := by
      simp [leafOf, hne]
    unfold planResolution
    rw [hwinner, Hub.exec_bind_of_ok (show Hub.exec C (orMissingLeaf (some (leafOf w a.data))) db =
      _ from rfl)]
    dsimp only
    rw [hlosers, hlive, if_pos ⟨rfl, rfl⟩, hother, Hub.exec_bind_of_ok
      (show Hub.exec C (orMissingLeaf (some (leafOf l b.data))) db = _ from rfl)]
    exact exec_planEditVsEdit
  rw [resolve, maxRetries, resolveLoop,
    Hub.exec_bind_of_ok (Hub.exec_adapt_of_ok CouchClient.exec_getDoc), hdoc]
  dsimp only
  rw [if_neg (by simp), Hub.exec_bind_of_ok hfetch, Hub.exec_bind_of_ok hplan]

end Resolver

end FileSync
