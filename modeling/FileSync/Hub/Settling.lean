import FileSync.Hub.CopyNames
import FileSync.Hub.Planning
/-!
# A plan is carried out

What a plan comes to when nobody else writes: the copies are put under names
no document has, the result goes on top of the winner, and every other leaf
is deleted, whatever their number. One live leaf is left.
-/

namespace FileSync

namespace Resolver

variable {C : Couch} {env : HubEnv} {db db' : Db} {path p q : Path} {plan : Plan}
variable {n w l : Node} {revs : List Rev} {nodes : List Node}

/-! ## Reading -/

/-- The content a revision carries. -/
def dataOf (n : Node) : Bytes := (n.content.map Attachment.data).getD []

/-- A revision as the resolver reads it: a tombstone's content is not looked
at. -/
def readLeaf (n : Node) : Leaf := leafOf n (if n.deleted then [] else dataOf n)

@[simp] theorem readLeaf_rev (n : Node) : (readLeaf n).rev = n.rev := rfl

@[simp] theorem readLeaf_deleted (n : Node) : (readLeaf n).deleted = n.deleted := rfl

theorem readLeaf_content (h : n.deleted = false) : (readLeaf n).content = dataOf n :=
  if_neg (by simp [h])

/-- A revision is read where it carries a content, or is a tombstone. -/
theorem exec_leafFromDoc_of (hf : (db.docs path).find? n.rev = some n)
    (hread : n.deleted = true ∨ n.content.isSome = true) :
    Hub.exec C (leafFromDoc path n.toRevDoc) db = (.ok (readLeaf n), db) := by
  have hdel : n.toRevDoc.deleted = n.deleted := rfl
  unfold leafFromDoc readLeaf
  rw [hdel]
  cases hd : n.deleted with
  | true => rw [leafOf, hd]; rfl
  | false =>
    rw [hd] at hread
    obtain ⟨a, ha⟩ := Option.isSome_iff_exists.1 (hread.resolve_left Bool.false_ne_true)
    have hcontent : Hub.exec C (orCouch (CouchClient.getAttachment path (some n.rev))) db =
        (.ok a.data, db) := by
      refine Hub.exec_adapt_of_ok ?_
      rw [CouchClient.exec_getAttachment]
      simp [Tree.content?, hf, ha, Couch.orNotFound, Except.mapError]
    rw [if_neg Bool.false_ne_true]
    refine (Hub.exec_bind_of_ok hcontent).trans ?_
    rw [leafOf, hd, dataOf, ha]
    rfl

theorem exec_fetchLeaf_of (hf : (db.docs path).find? n.rev = some n)
    (hread : n.deleted = true ∨ n.content.isSome = true) :
    Hub.exec C (fetchLeaf path n.rev) db = (.ok (readLeaf n), db) := by
  have hdoc : Hub.exec C (orMissingLeaf (((db.docs path).find? n.rev).map Node.toRevDoc)) db =
      (.ok n.toRevDoc, db) := by
    rw [hf]
    rfl
  unfold fetchLeaf
  rw [Hub.exec_bind_of_ok (Hub.exec_adapt_of_ok CouchClient.exec_getDocAtRev),
    Hub.exec_bind_of_ok hdoc]
  exact exec_leafFromDoc_of hf hread

/-- Revisions that can be read, in a document. -/
def Readable (t : Tree) (nodes : List Node) : Prop :=
  ∀ n ∈ nodes, t.find? n.rev = some n ∧ (n.deleted = true ∨ n.content.isSome = true)

theorem Readable.tail {t : Tree} (h : Readable t (n :: nodes)) : Readable t nodes :=
  fun m hm => h m (List.mem_cons_of_mem _ hm)

theorem exec_fetchLeaves_of (h : Readable (db.docs path) nodes) :
    Hub.exec C (fetchLeaves path (nodes.map Node.rev)) db = (.ok (nodes.map readLeaf), db) := by
  induction nodes with
  | nil => rfl
  | cons n nodes ih =>
    obtain ⟨hf, hread⟩ := h n List.mem_cons_self
    exact (Hub.exec_bind_of_ok (exec_fetchLeaf_of hf hread)).trans
      ((Hub.exec_bind_of_ok (ih h.tail)).trans rfl)

theorem exec_leavesFromDocs_of (h : Readable (db.docs path) nodes) :
    Hub.exec C (leavesFromDocs path (nodes.map Node.toRevDoc)) db =
      (.ok (nodes.map readLeaf), db) := by
  induction nodes with
  | nil => rfl
  | cons n nodes ih =>
    obtain ⟨hf, hread⟩ := h n List.mem_cons_self
    exact (Hub.exec_bind_of_ok (exec_leafFromDoc_of hf hread)).trans
      ((Hub.exec_bind_of_ok (ih h.tail)).trans rfl)

/-! ## Copies -/

variable {copy : Copy} {copies : List Copy} {written : List Path}

/-- What copies that were written leave: each is shown at a name of its own,
where nothing was, and no other document has changed. -/
structure CopiesWritten (path : Path) (copies : List Copy) (written : List Path) (db db' : Db) :
    Prop where
  others : ∀ p, p ∉ written → db'.docs p = db.docs p
  fresh : ∀ q ∈ written, q ≠ path ∧ (db.docs q).visible = none
  contents : List.Forall₂ (fun copy q => (db'.docs q).content? none = some copy.content)
    copies written

namespace CopiesWritten

theorem docs_path (h : CopiesWritten path copies written db db') : db'.docs path = db.docs path :=
  h.others path fun hmem => (h.fresh path hmem).1 rfl

theorem docs_of_visible (h : CopiesWritten path copies written db db')
    (hp : (db.docs p).visible ≠ none) : db'.docs p = db.docs p :=
  h.others p fun hmem => hp (h.fresh p hmem).2

theorem cons {db₁ : Db} (h : CopiesWritten path copies written db₁ db')
    (hcopied : Copied path q db db₁) (hq : (db₁.docs q).content? none = some copy.content) :
    CopiesWritten path (copy :: copies) (q :: written) db db' := by
  have hnot : q ∉ written := fun hmem => hcopied.after (h.fresh q hmem).2
  refine ⟨fun p hp => ?_, fun p hp => ?_, .cons ?_ h.contents⟩
  · rw [List.mem_cons, not_or] at hp
    rw [h.others p hp.2, hcopied.others p hp.1]
  · rcases List.mem_cons.1 hp with rfl | hp
    · exact ⟨hcopied.ne, hcopied.before⟩
    · obtain ⟨hne, hnone⟩ := h.fresh p hp
      rw [hcopied.others p (ne_of_mem_of_not_mem hp hnot)] at hnone
      exact ⟨hne, hnone⟩
  · rw [h.others q hnot, hq]

end CopiesWritten

/-- Copies that can be sent, with a free name for each. -/
def Copiable (env : HubEnv) (path : Path) (db : Db) (copies : List Copy) : Prop :=
  (∀ copy ∈ copies, HeaderValue.accepts copy.contentType = true) ∧ Room env path db copies.length

/-- **Copies are written exactly where each can be sent and finds a name.** -/
theorem exec_writeCopies (C : Couch) (env : HubEnv) (path : Path) (copies : List Copy) (db : Db) :
    (Copiable env path db copies ∧ ∃ written db',
      Hub.exec C (writeCopies env path copies) db = (.ok written, db') ∧
        CopiesWritten path copies written db db') ∨
    ¬ Copiable env path db copies ∧ ∃ e db',
      Hub.exec C (writeCopies env path copies) db = (.error e, db') ∧ e ≠ .casConflict := by
  induction copies generalizing db with
  | nil =>
    refine .inl ⟨⟨by simp, room_zero⟩, [], db, rfl, fun _ _ => rfl, by simp, .nil⟩
  | cons copy copies ih =>
    unfold writeCopies
    cases hsend : HeaderValue.accepts copy.contentType with
    | false =>
      obtain ⟨e, db', hrun, hcas, -⟩ := exec_writeCopy_unsent C env db path copy hsend
      refine .inr ⟨fun h => ?_, e, db', Hub.exec_bind_of_error hrun, hcas⟩
      have hhead := h.1 copy List.mem_cons_self
      rw [hsend] at hhead
      cases hhead
    | true =>
      rcases exec_writeCopy_content C env db path copy hsend with
        ⟨q, db₁, hrun, hcopied, hq⟩ | ⟨hfull, hcrowded⟩
      · obtain ⟨k, hk, rfl⟩ := writeCopy_eq_ok hrun
        have hiff : Copiable env path db (copy :: copies) ↔ Copiable env path db₁ copies := by
          rw [Copiable, Copiable, List.length_cons, room_succ hk hcopied, List.forall_mem_cons]
          exact and_congr_left fun _ => and_iff_right hsend
        rw [hiff, Hub.exec_bind_of_ok hrun]
        rcases ih db₁ with ⟨hcan, written, db', hrest, hwritten⟩ | ⟨hcannot, e, db', hrest, hcas⟩
        · exact .inl ⟨hcan, _, db', (Hub.exec_bind_of_ok hrest).trans rfl, hwritten.cons hcopied hq⟩
        · exact .inr ⟨hcannot, e, db', Hub.exec_bind_of_error hrest, hcas⟩
      · exact .inr ⟨fun h => not_room_of_crowded hcrowded h.2, _, db, Hub.exec_bind_of_error hfull,
          by simp⟩

/-! ## Deleting the losers -/

/-- A leaf that is not deleted stays one. -/
theorem mem_leaves_append_over {t : Tree} {a : Option Attachment} {d : Bool} {body : Body}
    (hn : n ∈ Tree.leaves t) (hl : l ∈ t) (hne : n.rev ≠ l.rev) :
    n ∈ Tree.leaves (t ++ [C.child t (some l) d body a]) := by
  refine Tree.mem_leaves_append.2 (.inl ⟨hn, ?_⟩)
  rw [Couch.ancestors_child_some, List.mem_cons, not_or]
  exact ⟨hne, (Tree.mem_leaves.1 hn).2 l hl⟩

/-- Leaves of a document, by their revisions. -/
def AreLeaves (t : Tree) (revs : List Rev) : Prop := ∀ r ∈ revs, ∃ l ∈ Tree.leaves t, l.rev = r

/-- **Deleting all leaves but a live one** leaves that one. -/
theorem exec_deleteLosers (hs : Tree.Sound (db.docs path)) (hn : n ∈ (db.docs path).liveLeaves)
    (hleaves : AreLeaves (db.docs path) revs) (hnodup : (n.rev :: revs).Nodup)
    (hlive : Tree.LiveWithin (db.docs path) (n.rev :: revs)) :
    ∃ db', Hub.exec C (deleteLosers path revs) db = (.ok (), db') ∧
      (db'.docs path).liveLeaves = [n] ∧ ∀ p, p ≠ path → db'.docs p = db.docs p := by
  induction revs generalizing db with
  | nil =>
    refine ⟨db, rfl, hs.liveLeaves_eq hn fun m hm => ?_, fun _ _ => rfl⟩
    exact List.mem_singleton.1 (hlive m hm)
  | cons r revs ih =>
    -- the leaf stays alive over each tombstone, and the others that are listed stay leaves
    obtain ⟨l, hl, rfl⟩ := hleaves r List.mem_cons_self
    obtain ⟨hnleaf, hnd⟩ := Tree.mem_liveLeaves.1 hn
    have hlmem := Tree.mem_of_mem_leaves hl
    have hnl : n.rev ≠ l.rev := fun h => (List.nodup_cons.1 hnodup).1 (h ▸ List.mem_cons_self)
    have hrest : (l.rev :: revs).Nodup := (List.nodup_cons.1 hnodup).2
    obtain ⟨v, hv⟩ := Tree.exists_visible hn
    obtain ⟨hwinner, hvd⟩ := Tree.visible_eq_some.1 hv
    set d := C.child (db.docs path) (some l) true ⟨none, none, none⟩ none with hd
    have hdelete : Hub.exec C (orCas (CouchClient.deleteDoc .resolver path l.rev)) db =
        (.ok d.rev, db.write path d) := by
      refine Hub.exec_adapt_of_ok ?_
      rw [CouchClient.exec_deleteDoc]
      simp only [Couch.answer, Couch.deleteParent, hwinner, hvd, hs.leaf?_rev hl, Bool.false_and,
        Bool.false_eq_true, if_false]
      rfl
    have hdocs : (db.write path d).docs path = db.docs path ++ [d] := Db.write_docs_self
    have hs' : Tree.Sound ((db.write path d).docs path) := by
      rw [hdocs]
      refine Couch.sound_append_child hs ?_
      rintro p ⟨⟩
      exact hlmem
    have hn' : n ∈ ((db.write path d).docs path).liveLeaves := by
      rw [hdocs]
      exact Tree.mem_liveLeaves.2 ⟨mem_leaves_append_over hnleaf hlmem hnl, hnd⟩
    have hleaves' : AreLeaves ((db.write path d).docs path) revs := by
      intro r hr
      obtain ⟨m, hm, rfl⟩ := hleaves r (List.mem_cons_of_mem _ hr)
      have hml : m.rev ≠ l.rev := fun h => (List.nodup_cons.1 hrest).1 (h ▸ hr)
      rw [hdocs]
      exact ⟨m, mem_leaves_append_over hm hlmem hml, rfl⟩
    have hlive' : Tree.LiveWithin ((db.write path d).docs path) (n.rev :: revs) := by
      rw [hdocs]
      refine Couch.liveWithin_append_tombstone (r := l.rev) (fun m hm => ?_) rfl
      have hwithin := hlive m hm
      simp only [List.mem_cons] at hwithin ⊢
      tauto
    have hnodup' : (n.rev :: revs).Nodup := by
      refine List.nodup_cons.2 ⟨fun h => ?_, (List.nodup_cons.1 hrest).2⟩
      exact (List.nodup_cons.1 hnodup).1 (List.mem_cons_of_mem _ h)
    obtain ⟨db', hrun, hone, hothers⟩ := ih hs' hn' hleaves' hnodup' hlive'
    refine ⟨db', (Hub.exec_bind_of_ok hdelete).trans hrun, hone, fun p hp => ?_⟩
    rw [hothers p hp, Db.write_docs_of_ne hp]

/-! ## The plan as a whole -/

/-- **The result on top of a leaf, and all others deleted.** -/
theorem exec_writeResult {content : Bytes} (plan : Plan)
    (hs : Tree.Sound (db.docs path))
    (hw : w ∈ (db.docs path).leaves) (hleaves : AreLeaves (db.docs path) plan.loserRevs)
    (hnodup : (w.rev :: plan.loserRevs).Nodup)
    (hlive : Tree.LiveWithin (db.docs path) (w.rev :: plan.loserRevs))
    (hfinal : plan.finalContent = some content)
    (hsend : HeaderValue.accepts plan.finalContentType = true) (hwinner : plan.winnerRev = w.rev) :
    ∃ db₁ db', Hub.exec C (writeFinal path plan) db = (.ok (), db₁) ∧
      Hub.exec C (deleteLosers path plan.loserRevs) db₁ = (.ok (), db') ∧
      (db'.docs path).liveLeaves = [finalNode C path (db.docs path) w plan content] ∧
      ∀ p, p ≠ path → db'.docs p = db.docs p := by
  have hwf : (db.docs path).leaf? plan.winnerRev = some w := hwinner ▸ hs.leaf?_rev hw
  have hwmem := Tree.mem_of_mem_leaves hw
  have hrun := exec_writeFinal (C := C) hfinal hsend hwf
  set b := finalBody C path (db.docs path) w plan with hb
  set n := finalNode C path (db.docs path) w plan content with hn
  have hbmem : b ∈ db.docs path ++ [b] := List.mem_append_right _ (List.mem_singleton_self b)
  have hdocs : ((db.write path b).write path n).docs path = db.docs path ++ [b] ++ [n] := by
    rw [Db.write_docs_self, Db.write_docs_self]
  have hs' : Tree.Sound (db.docs path ++ [b] ++ [n]) := by
    refine Couch.sound_append_child (Couch.sound_append_child hs ?_) ?_
    · rintro p ⟨⟩
      exact hwmem
    · rintro p ⟨⟩
      exact hbmem
  have hnleaf : n ∈ Tree.leaves (db.docs path ++ [b] ++ [n]) := by
    refine (Tree.leaf?_eq_some (Push.leaf?_append_child ?_)).1
    rintro p ⟨⟩
    exact hbmem
  -- what is to be deleted is in the document still, and the result is none of it
  have hleaves' : AreLeaves (db.docs path ++ [b] ++ [n]) plan.loserRevs := by
    intro r hr
    obtain ⟨l, hl, rfl⟩ := hleaves r hr
    have hne : l.rev ≠ w.rev := fun h => (List.nodup_cons.1 hnodup).1 (h ▸ hr)
    have hlb : l.rev ≠ b.rev := (Couch.child_rev_ne (C := C) (Tree.mem_of_mem_leaves hl)).symm
    exact ⟨l, mem_leaves_append_over (mem_leaves_append_over hl hwmem hne) hbmem hlb, rfl⟩
  have hnew : ∀ l ∈ db.docs path, n.rev ≠ l.rev := fun l hl =>
    Couch.child_rev_ne (List.mem_append_left _ hl)
  have hnodup' : (n.rev :: plan.loserRevs).Nodup := by
    refine List.nodup_cons.2 ⟨fun h => ?_, (List.nodup_cons.1 hnodup).2⟩
    obtain ⟨l, hl, hr⟩ := hleaves _ h
    exact hnew l (Tree.mem_of_mem_leaves hl) hr.symm
  have hlive' : Tree.LiveWithin (db.docs path ++ [b] ++ [n]) (n.rev :: plan.loserRevs) :=
    Couch.liveWithin_append_child (Couch.liveWithin_append_child hlive rfl) rfl
  rw [← hdocs] at hs' hnleaf hleaves' hlive'
  obtain ⟨db', hdelete, hone, hothers⟩ := exec_deleteLosers (C := C) hs'
    (Tree.mem_liveLeaves.2 ⟨hnleaf, rfl⟩) hleaves' hnodup' hlive'
  refine ⟨_, db', hrun, hdelete, hone, fun p hp => ?_⟩
  rw [hothers p hp, Db.write_docs_of_ne hp, Db.write_docs_of_ne hp]

/-- What a plan has come to once it is carried out. -/
structure CarriedOut (plan : Plan) (path : Path) (written : List Path) (db db' : Db) (n : Node) :
    Prop where
  only : (db'.docs path).liveLeaves = [n]
  content : n.content.map Attachment.data = plan.finalContent
  mtime : n.body.mtime = some plan.finalMtime
  contentType : n.body.contentType = some plan.finalContentType
  copies : List.Forall₂ (fun copy q => (db'.docs q).content? none = some copy.content)
    plan.copies written
  others : ∀ p, p ≠ path → (db.docs p).visible ≠ none → db'.docs p = db.docs p

/-- What is read of the document then. -/
theorem CarriedOut.doc?_eq (h : CarriedOut plan path written db db' n) :
    (db'.docs path).doc? = some ⟨n.rev, n.body, []⟩ := by
  rw [Tree.doc?, Tree.visible_of_liveLeaves h.only, h.only]
  simp

/-- What a plan writes can be sent, and there is a name for each copy. -/
def Writable (env : HubEnv) (path : Path) (db : Db) (plan : Plan) : Prop :=
  HeaderValue.accepts plan.finalContentType = true ∧ Copiable env path db plan.copies

/-- A result that cannot be sent is an error, which no other attempt
follows. -/
theorem exec_writeFinal_unsent {content : Bytes} (hfinal : plan.finalContent = some content)
    (hsend : HeaderValue.accepts plan.finalContentType = false)
    (hw : (db.docs path).leaf? plan.winnerRev = some w) :
    ∃ db', Hub.exec C (writeFinal path plan) db = (.error (.couch .transport), db') := by
  have hput : Hub.exec C (orCas (CouchClient.putDoc .resolver path (some plan.winnerRev)
      ⟨some path, some plan.finalMtime, some plan.finalContentType⟩)) db =
      (.ok (finalBody C path (db.docs path) w plan).rev,
        db.write path (finalBody C path (db.docs path) w plan)) := by
    refine Hub.exec_adapt_of_ok ?_
    rw [CouchClient.exec_putDoc]
    simp only [Couch.answer, Couch.putParent, hw]
    rfl
  have hattach : Hub.exec C (orCas (CouchClient.putAttachment .resolver path
      (finalBody C path (db.docs path) w plan).rev plan.finalContentType content))
      (db.write path (finalBody C path (db.docs path) w plan)) =
      (.error (.couch .transport), db.write path (finalBody C path (db.docs path) w plan)) :=
    Hub.exec_adapt_of_error (CouchClient.exec_putAttachment_unsent hsend)
  unfold writeFinal
  rw [hfinal]
  exact ⟨_, (Hub.exec_bind_of_ok hput).trans (Hub.exec_bind_of_error hattach)⟩

/-- **A plan on top of a leaf that deletes all others is carried out exactly
where what it writes can be written.** -/
theorem exec_applyPlan {content : Bytes} (env : HubEnv) (plan : Plan)
    (hs : Tree.Sound (db.docs path))
    (hw : w ∈ (db.docs path).leaves) (hleaves : AreLeaves (db.docs path) plan.loserRevs)
    (hnodup : (w.rev :: plan.loserRevs).Nodup)
    (hlive : Tree.LiveWithin (db.docs path) (w.rev :: plan.loserRevs))
    (hfinal : plan.finalContent = some content) (hwinner : plan.winnerRev = w.rev) :
    (Writable env path db plan ∧ ∃ written db' n,
      Hub.exec C (applyPlan env path plan) db = (.ok written, db') ∧
      n.rev ∉ (db.docs path).map Node.rev ∧ CarriedOut plan path written db db' n) ∨
    ¬ Writable env path db plan ∧ ∃ e db',
      Hub.exec C (applyPlan env path plan) db = (.error e, db') ∧ e ≠ .casConflict := by
  -- the copies come first: the path is untouched until all of them are written
  rcases exec_writeCopies C env path plan.copies db with
    ⟨hcan, written, db₁, hcopies, hwritten⟩ | ⟨hcannot, e, db', hfail, hcas⟩
  · have hpath := hwritten.docs_path
    rw [← hpath] at hs hw hleaves hlive
    cases hsend : HeaderValue.accepts plan.finalContentType with
    | false =>
      obtain ⟨db', hfail⟩ := exec_writeFinal_unsent (C := C) hfinal hsend
        (hwinner ▸ hs.leaf?_rev hw)
      refine .inr ⟨fun h => ?_, .couch .transport, db', ?_, (nomatch ·)⟩
      · have hfirst := h.1
        rw [hsend] at hfirst
        cases hfirst
      · unfold applyPlan
        exact (Hub.exec_bind_of_ok hcopies).trans (Hub.exec_bind_of_error hfail)
    | true =>
      obtain ⟨db₂, db', hresult, hdelete, hone, hothers⟩ :=
        exec_writeResult (C := C) plan hs hw hleaves hnodup hlive hfinal hsend hwinner
      refine .inl ⟨⟨hsend, hcan⟩, written, db', _, exec_applyPlan_of hcopies hresult hdelete, ?_,
        ⟨hone, hfinal.symm, rfl, rfl, ?_, fun p hp hv => ?_⟩⟩
      · rw [← hpath]
        intro hmem
        obtain ⟨m, hm, hrev⟩ := List.mem_map.1 hmem
        exact Couch.child_rev_ne (List.mem_append_left _ hm) hrev.symm
      · refine List.forall₂_iff_get.2 ⟨hwritten.contents.length_eq, fun i hi hj => ?_⟩
        have hne : written[i] ≠ path := (hwritten.fresh _ (List.getElem_mem hj)).1
        have hcontent := (List.forall₂_iff_get.1 hwritten.contents).2 i hi hj
        simp only [List.get_eq_getElem] at hcontent ⊢
        rw [hothers _ hne, hcontent]
      · rw [hothers p hp, hwritten.docs_of_visible hv]
  · refine .inr ⟨fun h => hcannot h.2, e, db', ?_, hcas⟩
    unfold applyPlan
    exact Hub.exec_bind_of_error hfail

/-! ## A live winner -/

/-- The live leaves beside the winner: what `_conflicts` lists. -/
def liveLosers (t : Tree) (w : Node) : List Node := t.liveLeaves.filter fun n => n.rev ≠ w.rev

/-- The leaves as they are fetched. -/
def conflicted (t : Tree) (w : Node) : List Node := w :: liveLosers t w

theorem mem_conflicted {t : Tree} (hs : Tree.Sound t) (hw : t.visible = some w) :
    n ∈ conflicted t w ↔ n ∈ t.liveLeaves := by
  have hwlive := Tree.visible_mem hw
  constructor
  · intro hn
    rcases List.mem_cons.1 hn with rfl | hn
    · exact hwlive
    · exact List.mem_of_mem_filter hn
  · intro hn
    by_cases hrev : n.rev = w.rev
    · rw [hs.eq_of_rev (Tree.mem_of_mem_leaves (Tree.mem_liveLeaves.1 hn).1)
        (Tree.mem_of_mem_leaves (Tree.mem_liveLeaves.1 hwlive).1) hrev]
      exact List.mem_cons_self
    · exact List.mem_cons_of_mem _ (List.mem_filter.2 ⟨hn, by simpa using hrev⟩)

theorem nodup_conflicted {t : Tree} (hs : Tree.Sound t) (w : Node) :
    ((conflicted t w).map Node.rev).Nodup := by
  have hlive : (t.liveLeaves.map Node.rev).Nodup :=
    hs.nodup.sublist (((List.filter_sublist ..).trans (List.filter_sublist ..)).map _)
  rw [conflicted, List.map_cons, List.nodup_cons]
  refine ⟨fun h => ?_, hlive.sublist ((List.filter_sublist ..).map _)⟩
  obtain ⟨m, hm, hrev⟩ := List.mem_map.1 h
  exact absurd hrev (by simpa using (List.mem_filter.1 hm).2)

theorem doc?_eq_conflicted {t : Tree} (hw : t.visible = some w) :
    t.doc? = some ⟨w.rev, w.body, (liveLosers t w).map Node.rev⟩ := by
  rw [Tree.doc?, hw]
  rfl

/-- Every live leaf carries a content. -/
def Filled (t : Tree) : Prop := ∀ n ∈ t.liveLeaves, n.content.isSome = true

instance {t : Tree} : Decidable (Filled t) := List.decidableBAll ..

theorem readable_conflicted {t : Tree} (hs : Tree.Sound t) (hw : t.visible = some w)
    (hfilled : Filled t) : Readable t (conflicted t w) := by
  intro n hn
  have hlive := (mem_conflicted hs hw).1 hn
  exact ⟨hs.find?_rev (Tree.mem_of_mem_leaves (Tree.mem_liveLeaves.1 hlive).1),
    .inr (hfilled n hlive)⟩

/-- A document with one live leaf is not resolved. -/
theorem exec_resolve_of_alone (env : HubEnv) (hw : (db.docs path).visible = some w)
    (hnone : liveLosers (db.docs path) w = []) :
    Hub.exec C (resolve env path) db = (.ok .noConflict, db) := by
  rw [resolve, maxRetries, resolveLoop,
    Hub.exec_bind_of_ok (Hub.exec_adapt_of_ok CouchClient.exec_getDoc), doc?_eq_conflicted hw, hnone]
  rfl

/-- What is planned for a document with a live winner. -/
def planFor (env : HubEnv) (t : Tree) (w : Node) : Plan :=
  planLive env t ((conflicted t w).map readLeaf) (readLeaf w)

/-- The plan is the one the code makes of the leaves it fetches. -/
theorem exec_planFor (env : HubEnv) (hs : Tree.Sound (db.docs path))
    (hw : (db.docs path).visible = some w) (hfilled : Filled (db.docs path)) :
    Hub.exec C (fetchLeaves path ((conflicted (db.docs path) w).map Node.rev)) db =
        (.ok ((conflicted (db.docs path) w).map readLeaf), db) ∧
      Hub.exec C (planResolution env path ((conflicted (db.docs path) w).map readLeaf) w.rev) db =
        (.ok (planFor env (db.docs path) w), db) := by
  refine ⟨exec_fetchLeaves_of (readable_conflicted hs hw hfilled), ?_⟩
  refine exec_planResolution_live (w := readLeaf w) ?_ List.mem_cons_self (Tree.visible_eq_some.1 hw).2
  rw [List.map_map]
  exact nodup_conflicted hs w

theorem exec_resolve_of_conflict (env : HubEnv) (hs : Tree.Sound (db.docs path))
    (hw : (db.docs path).visible = some w) (hfilled : Filled (db.docs path))
    (hne : liveLosers (db.docs path) w ≠ []) :
    Hub.exec C (resolve env path) db = Hub.exec C (applyOrRetry env path
      (planFor env (db.docs path) w) (resolveLoop env path 4)) db := by
  obtain ⟨hfetch, hplan⟩ := exec_planFor (C := C) env hs hw hfilled
  have hconflicts : ((liveLosers (db.docs path) w).map Node.rev).isEmpty = false := by
    rw [List.isEmpty_eq_false_iff]
    exact fun h => hne (List.map_eq_nil_iff.1 h)
  rw [resolve, maxRetries, resolveLoop,
    Hub.exec_bind_of_ok (Hub.exec_adapt_of_ok CouchClient.exec_getDoc), doc?_eq_conflicted hw]
  dsimp only
  rw [hconflicts, if_neg Bool.false_ne_true]
  exact (Hub.exec_bind_of_ok hfetch).trans (Hub.exec_bind_of_ok hplan)

/-- What a live leaf's content has come to: it is the result, an input of the
clean merge that made the result, or a copy's that is reported. -/
def Preserved (env : HubEnv) (t : Tree) (w n : Node) (kind : ResolutionKind) (written : List Path)
    (db' : Db) (bytes : Bytes) : Prop :=
  n.content.map Attachment.data = some bytes ∨
    (kind = .merged ∧ ∃ l result, liveLosers t w = [l] ∧
      Diff3.merge env.mergeStrings (mergeBaseIn t (readLeaf w) (readLeaf l)) (dataOf w) (dataOf l) =
        .ok result ∧
      n.content.map Attachment.data = some result ∧ (bytes = dataOf w ∨ bytes = dataOf l)) ∨
    ∃ q ∈ written, (db'.docs q).content? none = some bytes

/-- What settling a path completely means: where nothing conflicts nothing is
done, and otherwise the plan for the leaves is carried out, no live leaf's
content is lost, no other document that is shown changes, and there is
nothing left to resolve. -/
structure Settles (C : Couch) (env : HubEnv) (db : Db) (path : Path) (w : Node) : Prop where
  alone : liveLosers (db.docs path) w = [] →
    Hub.exec C (resolve env path) db = (.ok .noConflict, db)
  conflict : liveLosers (db.docs path) w ≠ [] → ∃ leaves plan written db' n,
    Hub.exec C (fetchLeaves path (w.rev :: (liveLosers (db.docs path) w).map Node.rev)) db =
        (.ok leaves, db) ∧
      Hub.exec C (planResolution env path leaves w.rev) db = (.ok plan, db) ∧
      Hub.exec C (resolve env path) db = (.ok (.resolved ⟨path, plan.kind, written⟩), db') ∧
      CarriedOut plan path written db db' n ∧
      (db'.docs path).doc? = some ⟨n.rev, n.body, []⟩ ∧
      (∀ m ∈ (db.docs path).liveLeaves,
        Preserved env (db.docs path) w n plan.kind written db' (dataOf m)) ∧
      Hub.exec C (resolve env path) db' = (.ok .noConflict, db')

/-- What the leaves come to without the winner. -/
theorem filter_conflicted (t : Tree) (w : Node) :
    ((conflicted t w).map readLeaf).filter (fun l => l.rev ≠ (readLeaf w).rev) =
      (liveLosers t w).map readLeaf := by
  have hall : (liveLosers t w).filter ((fun l : Leaf => decide (l.rev ≠ (readLeaf w).rev)) ∘
      readLeaf) = liveLosers t w :=
    List.filter_eq_self.2 fun m hm => (List.mem_filter.1 hm).2
  rw [conflicted, List.map_cons, List.filter_cons_of_neg (by simp), List.filter_map, hall]

theorem losers_conflicted (t : Tree) (w : Node) :
    losers ((conflicted t w).map readLeaf) (readLeaf w) = (liveLosers t w).map Node.rev := by
  rw [losers, filter_conflicted, List.map_map]
  rfl

theorem rivals_conflicted (t : Tree) (w : Node) :
    rivals ((conflicted t w).map readLeaf) (readLeaf w) = (liveLosers t w).map readLeaf := by
  rw [rivals, List.filter_comm, filter_conflicted, List.filter_eq_self]
  intro l hl
  obtain ⟨m, hm, rfl⟩ := List.mem_map.1 hl
  have hmd := (Tree.mem_liveLeaves.1 (List.mem_of_mem_filter hm)).2
  simp [hmd]

/-- The plan writes on top of the winner and deletes the other live leaves. -/
theorem planFor_revs (env : HubEnv) {t : Tree} (hw : t.visible = some w) :
    (planFor env t w).winnerRev = w.rev ∧
      (planFor env t w).loserRevs = (liveLosers t w).map Node.rev ∧
      ∃ content, (planFor env t w).finalContent = some content := by
  obtain ⟨hwinner, hlosers, hfinal⟩ := planLive_revs env t ((conflicted t w).map readLeaf)
    (readLeaf w) (Tree.visible_eq_some.1 hw).2
  exact ⟨hwinner, hlosers.trans (losers_conflicted t w), hfinal⟩

theorem keeps_planFor (env : HubEnv) {t : Tree} (hs : Tree.Sound t) (hw : t.visible = some w)
    (hn : n ∈ t.liveLeaves) : Keeps env t ((conflicted t w).map readLeaf) (readLeaf w)
      (planFor env t w) (dataOf n) := by
  have hd := (Tree.mem_liveLeaves.1 hn).2
  rw [← readLeaf_content hd]
  refine keeps_planLive List.mem_cons_self ?_ (Tree.visible_eq_some.1 hw).2
    (List.mem_map.2 ⟨n, (mem_conflicted hs hw).2 hn, rfl⟩) hd
  rw [List.map_map]
  exact nodup_conflicted hs w

/-- A plan that is carried out keeps what it says it keeps. -/
theorem CarriedOut.preserved {t : Tree} {bytes : Bytes}
    (h : CarriedOut (planFor env t w) path written db db' n) (hw : t.visible = some w)
    (hkeeps : Keeps env t ((conflicted t w).map readLeaf) (readLeaf w) (planFor env t w) bytes) :
    Preserved env t w n (planFor env t w).kind written db' bytes := by
  have hwd := (Tree.visible_eq_some.1 hw).2
  rcases hkeeps with hresult | ⟨other, result, hother, hkind, hmerge, hresult, hinput⟩ |
    ⟨copy, hcopy, rfl⟩
  · exact .inl (h.content.trans hresult)
  · rw [rivals_conflicted] at hother
    obtain ⟨l, hl, rfl⟩ := List.map_eq_singleton_iff.1 hother
    have hld : l.deleted = false := by
      have hmem : l ∈ liveLosers t w := by
        rw [hl]
        exact List.mem_singleton_self l
      exact (Tree.mem_liveLeaves.1 (List.mem_of_mem_filter hmem)).2
    rw [readLeaf_content hwd, readLeaf_content hld] at hmerge hinput
    exact .inr (.inl ⟨hkind, l, result, hl, hmerge, h.content.trans hresult, hinput⟩)
  · obtain ⟨i, hi, rfl⟩ := List.mem_iff_getElem.1 hcopy
    have hlen := h.copies.length_eq
    have hq := (List.forall₂_iff_get.1 h.copies).2 i hi (hlen ▸ hi)
    exact .inr (.inr ⟨_, List.getElem_mem (hlen ▸ hi), hq⟩)

/-- Of the live leaves it writes on one and deletes the others. -/
theorem planFor_within (env : HubEnv) {t : Tree} (hs : Tree.Sound t) (hw : t.visible = some w) :
    AreLeaves t (planFor env t w).loserRevs ∧ (w.rev :: (planFor env t w).loserRevs).Nodup ∧
      Tree.LiveWithin t (w.rev :: (planFor env t w).loserRevs) := by
  obtain ⟨-, hlosers, -⟩ := planFor_revs env hw
  rw [hlosers]
  refine ⟨fun r hr => ?_, nodup_conflicted hs w, fun m hm => ?_⟩
  · obtain ⟨m, hm, rfl⟩ := List.mem_map.1 hr
    exact ⟨m, (Tree.mem_liveLeaves.1 (List.mem_of_mem_filter hm)).1, rfl⟩
  · exact List.mem_map_of_mem ((mem_conflicted hs hw).2 hm)

/-! ## What can be settled -/

/-- The leaf's content can be sent to CouchDB under its type. -/
def typed (n : Node) : Bool := HeaderValue.accepts (n.body.contentType.getD octetStream)

/-- There are two live leaves, and their contents merge. -/
def Merges (env : HubEnv) (t : Tree) (w : Node) : Prop :=
  ∃ l result, liveLosers t w = [l] ∧
    Diff3.merge env.mergeStrings (mergeBaseIn t (readLeaf w) (readLeaf l)) (dataOf w) (dataOf l) =
      .ok result

/-- There is no conflict; or the leaves merge, and the winner's content type
can be sent; or each live leaf's can be, and as many names for copies are
free as there are losers. -/
def Settleable (env : HubEnv) (db : Db) (path : Path) (w : Node) : Prop :=
  liveLosers (db.docs path) w = [] ∨
    Merges env (db.docs path) w ∧ typed w = true ∨
    ¬ Merges env (db.docs path) w ∧ (∀ n ∈ conflicted (db.docs path) w, typed n = true) ∧
      Room env path db (liveLosers (db.docs path) w).length

/-- What a plan that keeps the winner makes copies of. -/
theorem copies_keepWinner (t : Tree) (hwd : w.deleted = false) (revs : List Rev) :
    (keepWinner ((conflicted t w).map readLeaf) (readLeaf w) revs).copies =
      (liveLosers t w).map fun n => ⟨(readLeaf n).content, (readLeaf n).mtime,
        (readLeaf n).contentType⟩ := by
  have hfilter := rivals_conflicted t w
  rw [rivals, List.filter_filter] at hfilter
  simp only [keepWinner, readLeaf_deleted, hwd, Bool.not_false, if_true, Option.map_some,
    Option.getD_some]
  have hsame : ((conflicted t w).map readLeaf).filter
      (fun l => !l.deleted && decide (l.rev ≠ (readLeaf w).rev)) = (liveLosers t w).map readLeaf := by
    rw [← hfilter]
    exact List.filter_congr fun l _ => Bool.and_comm _ _
  rw [hsame, List.map_map]
  rfl

/-- **What is planned can be written exactly where the leaves can be
settled.** -/
theorem writable_planFor_iff (env : HubEnv) (hw : (db.docs path).visible = some w)
    (hne : liveLosers (db.docs path) w ≠ []) :
    Writable env path db (planFor env (db.docs path) w) ↔ Settleable env db path w := by
  have hwd := (Tree.visible_eq_some.1 hw).2
  rw [Settleable, or_iff_right hne]
  set t := db.docs path with ht
  unfold planFor planLive
  rw [rivals_conflicted]
  cases hl : liveLosers t w with
  | nil => exact absurd hl hne
  | cons l rest =>
    cases rest with
    | nil =>
      have hld : l.deleted = false := by
        have hmem : l ∈ liveLosers t w := by
          rw [hl]
          exact List.mem_singleton_self l
        exact (Tree.mem_liveLeaves.1 (List.mem_of_mem_filter hmem)).2
      have htwo : ((conflicted t w).map readLeaf).length = 2 := by
        rw [List.length_map, conflicted, hl]
        rfl
      rw [List.map_singleton]
      dsimp only
      rw [if_pos htwo]
      unfold editVsEdit
      rw [readLeaf_content hwd, readLeaf_content hld]
      cases hmerge : Diff3.merge env.mergeStrings (mergeBaseIn t (readLeaf w) (readLeaf l))
          (dataOf w) (dataOf l) with
      | ok result =>
        have hmerges : Merges env t w := ⟨l, result, hl, hmerge⟩
        simp only [hmerges, true_and, not_true, false_and, or_false]
        exact and_iff_left ⟨by simp, room_zero⟩
      | error e =>
        have hnot : ¬ Merges env t w := by
          rintro ⟨l', result, hl', hmerge'⟩
          obtain rfl := (List.singleton_inj.1 (hl.symm.trans hl'))
          rw [hmerge] at hmerge'
          cases hmerge'
        simp only [hnot, false_and, not_false_eq_true, true_and, false_or]
        rw [conflicted, hl, List.forall_mem_cons, List.forall_mem_singleton]
        unfold keepNewer
        -- the newer file is the result, the older one the copy
        by_cases hle : (readLeaf l).mtime ≤ (readLeaf w).mtime
        · rw [if_pos hle]
          exact ⟨fun h => ⟨⟨h.1, h.2.1 _ List.mem_cons_self⟩, h.2.2⟩,
            fun h => ⟨h.1.1, List.forall_mem_singleton.2 h.1.2, h.2⟩⟩
        · rw [if_neg hle]
          exact ⟨fun h => ⟨⟨h.2.1 _ List.mem_cons_self, h.1⟩, h.2.2⟩,
            fun h => ⟨h.1.2, List.forall_mem_singleton.2 h.1.1, h.2⟩⟩
    | cons l' rest =>
      have hnot : ¬ Merges env t w := by
        rintro ⟨k, result, hk, -⟩
        rw [hl] at hk
        cases hk
      have hcopies := copies_keepWinner t hwd (losers ((conflicted t w).map readLeaf) (readLeaf w))
      simp only [hnot, false_and, not_false_eq_true, true_and, false_or, List.map_cons]
      rw [Writable, Copiable, hcopies, List.length_map, List.forall_mem_map, hl, conflicted, hl]
      have hfinal : (keepWinner ((w :: l :: l' :: rest).map readLeaf) (readLeaf w)
          (losers ((w :: l :: l' :: rest).map readLeaf) (readLeaf w))).finalContentType =
            w.body.contentType.getD octetStream := by
        simp [keepWinner, hwd, readLeaf, leafOf]
      rw [hfinal]
      refine ⟨fun h => ⟨List.forall_mem_cons.2 ⟨h.1, h.2.1⟩, h.2.2⟩, fun h => ?_⟩
      obtain ⟨hwinner, hrest⟩ := List.forall_mem_cons.1 h.1
      exact ⟨hwinner, hrest, h.2⟩

/-- A conflict whose leaves have their contents is resolved where it can be
settled, and is an error where it cannot. -/
theorem exec_resolve_of_filled (C : Couch) (env : HubEnv) (hs : Tree.Sound (db.docs path))
    (hw : (db.docs path).visible = some w) (hfilled : Filled (db.docs path))
    (hne : liveLosers (db.docs path) w ≠ []) :
    (Settleable env db path w ∧ ∃ written db' n,
      Hub.exec C (resolve env path) db =
        (.ok (.resolved ⟨path, (planFor env (db.docs path) w).kind, written⟩), db') ∧
      CarriedOut (planFor env (db.docs path) w) path written db db' n) ∨
    ¬ Settleable env db path w ∧ ∃ e db', Hub.exec C (resolve env path) db = (.error e, db') := by
  obtain ⟨hwinner, -, content, hfinal⟩ := planFor_revs env hw
  obtain ⟨hleaves, hnodup, hlive⟩ := planFor_within env hs hw
  have hrun := exec_resolve_of_conflict (C := C) env hs hw hfilled hne
  rw [exec_applyOrRetry] at hrun
  rw [← writable_planFor_iff env hw hne]
  rcases exec_applyPlan (C := C) env _ hs (Tree.mem_liveLeaves.1 (Tree.visible_mem hw)).1
    hleaves hnodup hlive hfinal hwinner with
    ⟨hcan, written, db', n, happly, -, hcarried⟩ | ⟨hcannot, e, db', hfail, hcas⟩
  · rw [happly] at hrun
    exact .inl ⟨hcan, written, db', n, hrun, hcarried⟩
  · rw [hfail] at hrun
    refine .inr ⟨hcannot, e, db', hrun.trans ?_⟩
    cases e with
    | casConflict => exact absurd rfl hcas
    | _ => rfl

/-- **A conflict under a live winner is settled completely** by a resolution
nobody interferes with, however many leaves there are, exactly where it can
be. -/
theorem resolve_settles_iff (C : Couch) (env : HubEnv) (db : Db) (path : Path) (w : Node)
    (hs : Tree.Sound (db.docs path)) (hw : (db.docs path).visible = some w)
    (hfilled : Filled (db.docs path)) :
    Settles C env db path w ↔ Settleable env db path w := by
  by_cases hne : liveLosers (db.docs path) w = []
  · exact iff_of_true ⟨fun _ => exec_resolve_of_alone env hw hne, fun h => absurd hne h⟩ (.inl hne)
  obtain ⟨hfetch, hplan⟩ := exec_planFor (C := C) env hs hw hfilled
  rcases exec_resolve_of_filled C env hs hw hfilled hne with
    ⟨hcan, written, db', n, hrun, hcarried⟩ | ⟨hcannot, e, db', hrun⟩
  · refine iff_of_true ⟨fun h => absurd h hne, fun _ => ⟨_, _, written, db', n, hfetch, hplan, hrun,
      hcarried, hcarried.doc?_eq,
      fun m hm => hcarried.preserved hw (keeps_planFor env hs hw hm), ?_⟩⟩ hcan
    refine exec_resolve_of_alone env (Tree.visible_of_liveLeaves hcarried.only) ?_
    rw [liveLosers, hcarried.only]
    simp
  · refine iff_of_false (fun h => ?_) hcannot
    obtain ⟨leaves, plan, written, db', n, -, -, hresolved, -⟩ := h.conflict hne
    rw [hrun] at hresolved
    cases (Prod.mk.inj hresolved).1

/-! ## Three leaves -/

/-- A first revision with a content. -/
def firstRevision (hash : String) (content : Bytes) (mtime : ℤ) : Node :=
  ⟨⟨1, hash⟩, [], false, ⟨none, some mtime, none⟩, some ⟨octetStream, content⟩⟩

def threeLeaves : Tree :=
  [firstRevision "a" [1] 1, firstRevision "b" [2] 2, firstRevision "c" [3] 3]

theorem sound_threeLeaves : Tree.Sound threeLeaves := ⟨by decide, by decide⟩

/-- Three devices have written `a.txt`. -/
def threeWrote : Db := ⟨fun p => if p = "a.txt" then threeLeaves else [], []⟩

/-- Two have, and one of them says that the content is of the type `a\nb`. -/
def untyped : Db :=
  ⟨fun p => if p = "a.txt" then
      [firstRevision "a" [1] 1,
        { firstRevision "b" [2] 2 with body := ⟨none, some 2, some "a\nb"⟩ }]
    else [], []⟩

/-- **A content type that is no header's value leaves the conflict as it was,
with a leaf more that has no content.** -/
theorem untyped_not_settled :
    let w : Node := { firstRevision "b" [2] 2 with body := ⟨none, some 2, some "a\nb"⟩ }
    Tree.Sound (untyped.docs "a.txt") ∧ (untyped.docs "a.txt").visible = some w ∧
      Filled (untyped.docs "a.txt") ∧ ¬ Settles (.counting false) .plain untyped "a.txt" w := by
  have hs : Tree.Sound (untyped.docs "a.txt") := ⟨by decide, by decide⟩
  refine ⟨hs, by decide, by decide, fun h => ?_⟩
  obtain ⟨leaves, plan, written, db', n, -, -, hrun, -⟩ := h.conflict (by decide)
  have hfailed : (Hub.exec (.counting false) (resolve .plain "a.txt") untyped).1.isOk = false := by
    decide +kernel
  rw [hrun] at hfailed
  cases hfailed

/-- With the names free three versions are settled. -/
theorem three_settled :
    Settles (.counting false) .plain threeWrote "a.txt" (firstRevision "c" [3] 3) := by
  refine (resolve_settles_iff (.counting false) .plain threeWrote "a.txt" (firstRevision "c" [3] 3)
    sound_threeLeaves (by decide) (by decide)).2 (.inr (.inr ⟨?_, by decide, {0, 1}, rfl, ?_⟩))
  · rintro ⟨l, result, hl, -⟩
    have hlen : (liveLosers (threeWrote.docs "a.txt") (firstRevision "c" [3] 3)).length = 2 := by
      decide
    rw [hl] at hlen
    cases hlen
  · decide +kernel

end Resolver

end FileSync
