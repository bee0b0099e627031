import FileSync.Hub.Resend
/-!
# An edit and deletes of the same revision

An upsert and any number of deletes name the revision a path is at, and reach
the hub one after the other. The first of them is accepted; every later one
is stale. What an upsert leaves stays alive under the deletes' branches, and
a deleted path comes back to life under the upsert's, unless that branch has
the name of a revision that is there: then nothing is inserted. The content of
the first is lost where its type cannot be sent; that of a branch goes with
the document.
-/

namespace FileSync

namespace EditWins

open Resend (Stale stale_of sound_branched exec_resolve_of_sole)

/-- A delete of a path at a revision. -/
structure IsDelete (path : Path) (r : Rev) (change : PushChange) : Prop where
  path_eq : change.path = path
  deleted : change.deleted = true
  base : change.baseRev = some r

/-- Changes that come one after the other, each in a request of its own. -/
def pushAll (C : Couch) (env : HubEnv) (changes : List PushChange) (db : Db) : Db :=
  changes.foldl (fun db change => (Hub.exec C (Push.postChanges env [change]) db).2) db

/-- **The edit has won**: the path has its bytes and no conflict, and no
other document was touched. -/
structure Won (db db' : Db) (path : Path) (content : Bytes) : Prop where
  content : (db'.docs path).content? none = some content
  noConflict : ∃ doc, (db'.docs path).doc? = some doc ∧ doc.conflicts = []
  others : ∀ p, p ≠ path → db'.docs p = db.docs p

/-- The revision a stale change is branched off as. -/
def branchName (w : Node) (change : PushChange) (content : Option Bytes) : Rev :=
  (Push.branchDoc change change.deleted content w.revisions).rev

/-- The tombstone of the delete that comes first. -/
def firstTombstone (C : Couch) (t : Tree) (w : Node) : Node :=
  C.child t (some w) true ⟨none, none, none⟩ none

/-- Where deletes come first, the name of the upsert's branch is not taken:
neither in the tree, nor by the first delete, nor by the branch of a later
one. CouchDB lets none of these in if it calls the document gone. -/
def NameFree (C : Couch) (t : Tree) (w : Node) (deletes : List PushChange) (edit : PushChange)
    (content : Bytes) : Prop :=
  ∀ d ds, deletes = d :: ds → t.find? (branchName w edit (some content)) = none ∧
    branchName w edit (some content) ≠ (firstTombstone C t w).rev ∧
    (C.goneAs404 = false → ∀ d ∈ ds, branchName w edit (some content) ≠ branchName w d none)

variable {C : Couch} {env : HubEnv} {db : Db} {change : PushChange} {content : Bytes} {t : Tree}
  {w n : Node} {path : Path} {changes : List PushChange}

theorem docs_postChanges :
    (Hub.exec C (Push.postChanges env [change]) db).2 = (Hub.exec C (Push.apply env change) db).2 := by
  rw [Push.exec_postChanges_singleton]
  rcases Hub.exec C (Push.apply env change) db with ⟨e | rev, db'⟩ <;> rfl

/-! ## While the path is alive -/

/-- The revision the changes name has been written over, and one leaf is
live. -/
structure Alive (w n : Node) (t : Tree) : Prop where
  sound : Tree.Sound t
  mem : w ∈ t
  covered : ∃ m ∈ t, w.rev ∈ m.ancestors
  sole : t.liveLeaves = [n]

theorem Alive.not_leaf (h : Alive w n t) : t.leaf? w.rev = none := by
  obtain ⟨m, hm, hr⟩ := h.covered
  refine Tree.leaf?_eq_none.2 fun q hq heq => ?_
  exact (Tree.mem_leaves.1 hq).2 m hm (heq ▸ hr)

theorem Alive.node (h : Alive w n t) : n ∈ t.leaves ∧ n.deleted = false :=
  Tree.mem_liveLeaves.1 (h.sole ▸ List.mem_singleton_self n)

/-- A tombstone on top of what the changes name leaves the path as it is. -/
theorem Alive.append {b : Node} (h : Alive w n t) (hb : b.deleted = true)
    (hanc : b.ancestors = w.rev :: w.ancestors) (hnew : ∀ m ∈ t, m.rev ≠ b.rev) :
    Alive w n (t ++ [b]) := by
  obtain ⟨hnleaf, hnd⟩ := h.node
  have hs : Tree.Sound (t ++ [b]) := by
    refine h.sound.append hnew fun r hr => ?_
    rw [hanc, List.mem_cons] at hr
    rcases hr with rfl | hr
    exacts [⟨w, h.mem, rfl⟩, h.sound.closed w h.mem r hr]
  obtain ⟨m, hm, hr⟩ := h.covered
  refine ⟨hs, List.mem_append_left _ h.mem, ⟨m, List.mem_append_left _ hm, hr⟩, ?_⟩
  have hnot : n.rev ∉ b.ancestors := by
    rw [hanc, List.mem_cons, not_or]
    refine ⟨fun heq => ?_, (Tree.mem_leaves.1 hnleaf).2 w h.mem⟩
    exact (Tree.mem_leaves.1 hnleaf).2 m hm (heq ▸ hr)
  refine hs.liveLeaves_eq (Tree.mem_liveLeaves.2
    ⟨Tree.mem_leaves_append.2 (.inl ⟨hnleaf, hnot⟩), hnd⟩) fun q hq => ?_
  obtain ⟨hqleaf, hqd⟩ := Tree.mem_liveLeaves.1 hq
  rcases Tree.mem_leaves_append.1 hqleaf with ⟨hold, -⟩ | ⟨rfl, -⟩
  · have hmem : q ∈ t.liveLeaves := Tree.mem_liveLeaves.2 ⟨hold, hqd⟩
    rw [h.sole, List.mem_singleton] at hmem
    rw [hmem]
  · rw [hb] at hqd
    cases hqd

/-- Where a change at `w` hangs off. -/
theorem parentIn_of_base (hs : Tree.Sound t) (hw : w ∈ t) (hbase : change.baseRev = some w.rev) :
    Push.parentIn t change = .ok w.revisions := by
  unfold Push.parentIn
  rw [hbase]
  dsimp only
  rw [hs.find?_rev hw]

/-- What is branched off is there already, or is appended. -/
theorem docs_branched (C : Couch) (db : Db) (change : PushChange) (deleted : Bool)
    (bytes : Option Bytes) (parent : Revisions) :
    (Push.branched C change deleted bytes parent db).docs change.path =
      (match (db.docs change.path).find? (Push.branchDoc change deleted bytes parent).rev with
      | some _ => db.docs change.path
      | none => db.docs change.path ++ [(Push.branchDoc change deleted bytes parent).toNode]) ∧
    ∀ p, p ≠ change.path → (Push.branched C change deleted bytes parent db).docs p = db.docs p := by
  unfold Push.branched
  simp only [Couch.answer]
  rw [show (Push.branchDoc change deleted bytes parent).id = change.path from rfl]
  cases (db.docs change.path).find? (Push.branchDoc change deleted bytes parent).rev with
  | some m => exact ⟨rfl, fun _ _ => rfl⟩
  | none => exact ⟨Db.write_docs_self, fun p hp => Db.write_docs_of_ne hp⟩

/-- **A delete of what was written over** leaves the path alive. -/
theorem alive_delete (C : Couch) (env : HubEnv) (h : Alive w n (db.docs path)) (hc : IsDelete path w.rev change) :
    Alive w n ((Hub.exec C (Push.postChanges env [change]) db).2.docs path) ∧
      ∀ p, p ≠ path → (Hub.exec C (Push.postChanges env [change]) db).2.docs p = db.docs p := by
  obtain ⟨rfl, hdel, hbase⟩ := hc
  obtain ⟨hwinner, hwd⟩ := Tree.visible_eq_some.1 (Tree.visible_of_liveLeaves h.sole)
  have hrefused : C.deleteParent (db.docs change.path) w.rev = .error Couch.conflict := by
    simp [Couch.deleteParent, hwinner, hwd, h.not_leaf]
  have halive : Alive w n ((Push.branched C change true none w.revisions db).docs change.path) := by
    rw [(docs_branched C db change true none w.revisions).1]
    cases hf : (db.docs change.path).find? (Push.branchDoc change true none w.revisions).rev with
    | some m => exact h
    | none => exact h.append rfl Push.ancestors_branch (Tree.find?_eq_none.1 hf)
  obtain ⟨hresolve, hdoc⟩ := exec_resolve_of_sole C env halive.sole
  have hrun : (Hub.exec C (Push.apply env change) db).2 =
      Push.branched C change true none w.revisions db := by
    rw [Push.apply, if_pos hdel, Push.exec_applyDelete hbase, hrefused]
    show (Hub.exec C (Push.branchAndResolve env change true none) db).2 = _
    rw [Push.exec_branchAndResolve, parentIn_of_base h.sound h.mem hbase]
    dsimp only
    rw [hresolve]
    dsimp only
    rw [hdoc]
  rw [docs_postChanges, hrun]
  exact ⟨halive, (docs_branched C db change true none w.revisions).2⟩

/-- And so do any number of them. -/
theorem alive_pushAll (C : Couch) (env : HubEnv) (h : Alive w n (db.docs path)) (hall : ∀ c ∈ changes, IsDelete path w.rev c) :
    Alive w n ((pushAll C env changes db).docs path) ∧
      ∀ p, p ≠ path → (pushAll C env changes db).docs p = db.docs p := by
  induction changes generalizing db with
  | nil => exact ⟨h, fun _ _ => rfl⟩
  | cons c changes ih =>
    obtain ⟨halive, hothers⟩ := alive_delete C env h (hall c List.mem_cons_self)
    obtain ⟨hrest, hrest'⟩ := ih halive fun c hc => hall c (List.mem_cons_of_mem _ hc)
    exact ⟨hrest, fun p hp => (hrest' p hp).trans (hothers p hp)⟩

/-- The path is alive with these bytes. -/
def AliveWith (w : Node) (content : Bytes) (t : Tree) : Prop :=
  ∃ n a, Alive w n t ∧ n.content = some a ∧ a.data = content

/-! ## While the path is deleted -/

/-- The revision the changes name is there, and every leaf is a tombstone. -/
structure Dead (w : Node) (t : Tree) : Prop where
  sound : Tree.Sound t
  mem : w ∈ t
  live : w.deleted = false
  tombstoned : t.Tombstoned
  leaf : t.leaves ≠ []

theorem Dead.not_leaf (h : Dead w t) : t.leaf? w.rev = none := h.tombstoned.leaf?_eq_none h.mem h.live

theorem Dead.parents (h : Dead w t) {b : Node} (hanc : b.ancestors = w.rev :: w.ancestors) :
    ∀ r ∈ b.ancestors, ∃ m ∈ t, m.rev = r := by
  intro r hr
  rw [hanc, List.mem_cons] at hr
  rcases hr with rfl | hr
  exacts [⟨w, h.mem, rfl⟩, h.sound.closed w h.mem r hr]

/-- What a later delete leaves of a deleted path: the path as it is if
CouchDB calls it gone, and else a tombstone more, if its name is free. -/
def buried (C : Couch) (w : Node) (change : PushChange) (t : Tree) : Tree :=
  if C.goneAs404 then t
  else
    match t.find? (Push.branchDoc change true none w.revisions).rev with
    | some _ => t
    | none => t ++ [(Push.branchDoc change true none w.revisions).toNode]

theorem Dead.buried (h : Dead w t) : Dead w (buried C w change t) := by
  unfold EditWins.buried
  split
  · exact h
  cases hf : t.find? (Push.branchDoc change true none w.revisions).rev with
  | some m => exact h
  | none =>
    have hnew := Tree.find?_eq_none.1 hf
    have hparents : ∀ r ∈ (Push.branchDoc change true none w.revisions).toNode.ancestors,
        ∃ m ∈ t, m.rev = r := h.parents Push.ancestors_branch
    exact ⟨h.sound.append hnew hparents, List.mem_append_left _ h.mem, h.live,
      h.tombstoned.append rfl, List.ne_nil_of_mem (h.sound.mem_leaves_append_self hnew hparents)⟩

/-- **A delete of a deleted path** leaves it deleted. -/
theorem docs_delete_of_dead (C : Couch) (env : HubEnv) (h : Dead w (db.docs path))
    (hc : IsDelete path w.rev change) :
    (Hub.exec C (Push.postChanges env [change]) db).2.docs path = buried C w change (db.docs path) ∧
      ∀ p, p ≠ path → (Hub.exec C (Push.postChanges env [change]) db).2.docs p = db.docs p := by
  obtain ⟨rfl, hdel, hbase⟩ := hc
  obtain ⟨v, hv⟩ : ∃ v, (db.docs change.path).winner = some v := by
    cases hv : (db.docs change.path).winner with
    | none => exact absurd (Tree.winner_eq_none.1 hv) h.leaf
    | some v => exact ⟨v, rfl⟩
  have hvd : v.deleted = true := h.tombstoned v (Tree.winner_mem hv)
  have happly : Hub.exec C (Push.apply env change) db = Hub.exec C (Push.applyDelete env change) db := by
    rw [Push.apply, if_pos hdel]
  rw [docs_postChanges, happly, Push.exec_applyDelete hbase]
  unfold buried
  by_cases hgone : C.goneAs404 = true
  · -- refused as gone, and nothing is written
    have hrefused : C.deleteParent (db.docs change.path) w.rev = .error Couch.notFound := by
      simp [Couch.deleteParent, hv, hvd, hgone]
    rw [hrefused, if_pos hgone]
    exact ⟨rfl, fun _ _ => rfl⟩
  · have hrefused : C.deleteParent (db.docs change.path) w.rev = .error Couch.conflict := by
      simp [Couch.deleteParent, hv, hgone, h.not_leaf]
    have hdead : ((Push.branched C change true none w.revisions db).docs change.path).Tombstoned := by
      rw [(docs_branched C db change true none w.revisions).1]
      cases (db.docs change.path).find? (Push.branchDoc change true none w.revisions).rev with
      | some m => exact h.tombstoned
      | none => exact h.tombstoned.append rfl
    have hrun : (Hub.exec C (Push.branchAndResolve env change true none) db).2 =
        Push.branched C change true none w.revisions db := by
      rw [Push.exec_branchAndResolve, parentIn_of_base h.sound h.mem hbase]
      dsimp only
      rw [Resolver.exec_resolve_of_tombstoned hdead]
      dsimp only
      rw [hdead.doc?_eq_none]
    rw [hrefused, if_neg hgone]
    show (Hub.exec C (Push.branchAndResolve env change true none) db).2.docs _ = _ ∧
      ∀ p, _ → (Hub.exec C (Push.branchAndResolve env change true none) db).2.docs p = _
    rw [hrun]
    obtain ⟨hdocs, hothers⟩ := docs_branched C db change true none w.revisions
    refine ⟨hdocs.trans ?_, hothers⟩
    generalize (Push.branchDoc change true none w.revisions) = d
    cases (db.docs change.path).find? d.rev <;> rfl

theorem docs_deletes_of_dead (C : Couch) (env : HubEnv) (h : Dead w (db.docs path))
    (hall : ∀ c ∈ changes, IsDelete path w.rev c) :
    (pushAll C env changes db).docs path =
        changes.foldl (fun t c => buried C w c t) (db.docs path) ∧
      Dead w ((pushAll C env changes db).docs path) ∧
      ∀ p, p ≠ path → (pushAll C env changes db).docs p = db.docs p := by
  induction changes generalizing db with
  | nil => exact ⟨rfl, h, fun _ _ => rfl⟩
  | cons c changes ih =>
    obtain ⟨hdocs, hothers⟩ := docs_delete_of_dead C env h (hall c List.mem_cons_self)
    have hdead : Dead w (buried C w c (db.docs path)) := h.buried
    rw [← hdocs] at hdead
    obtain ⟨hrest, hdead', hothers'⟩ := ih hdead fun c hc => hall c (List.mem_cons_of_mem _ hc)
    refine ⟨hrest.trans ?_, hdead', fun p hp => (hothers' p hp).trans (hothers p hp)⟩
    rw [hdocs]
    rfl

theorem find?_append_eq_none {b : Node} {r : Rev} :
    Tree.find? (t ++ [b]) r = none ↔ t.find? r = none ∧ r ≠ b.rev := by
  simp only [Tree.find?_eq_none, List.mem_append, List.mem_singleton]
  constructor
  · exact fun h => ⟨fun n hn => h n (.inl hn), fun hr => h b (.inr rfl) hr.symm⟩
  · rintro ⟨h, hne⟩ n (hn | rfl)
    exacts [h n hn, fun hr => hne hr.symm]

/-- Which names are taken after deletes of a deleted path. -/
theorem find?_buried (r : Rev) :
    (changes.foldl (fun t c => buried C w c t) t).find? r = none ↔ t.find? r = none ∧
      (C.goneAs404 = false →
        ∀ c ∈ changes, r ≠ (Push.branchDoc c true none w.revisions).rev) := by
  induction changes generalizing t with
  | nil => simp
  | cons c changes ih =>
    rw [List.foldl_cons, ih]
    have hone : (buried C w c t).find? r = none ↔ t.find? r = none ∧
        (C.goneAs404 = false → r ≠ (Push.branchDoc c true none w.revisions).rev) := by
      unfold buried
      generalize Push.branchDoc c true none w.revisions = d
      by_cases hgone : C.goneAs404 = true
      · simp [hgone]
      · rw [if_neg hgone, Bool.eq_false_iff.2 hgone]
        cases hf : t.find? d.rev with
        | some m =>
          refine ⟨fun h => ⟨h, ?_⟩, And.left⟩
          rintro - rfl
          rw [hf] at h
          cases h
        | none =>
          show Tree.find? (t ++ [d.toNode]) r = none ↔ _
          rw [find?_append_eq_none]
          exact ⟨fun ⟨h, hr⟩ => ⟨h, fun _ => hr⟩, fun ⟨h, hr⟩ => ⟨h, hr rfl⟩⟩
    rw [hone]
    constructor
    · rintro ⟨⟨h, hc⟩, hcs⟩
      exact ⟨h, fun hg => List.forall_mem_cons.2 ⟨hc hg, hcs hg⟩⟩
    · rintro ⟨h, hall⟩
      exact ⟨⟨h, fun hg => (List.forall_mem_cons.1 (hall hg)).1⟩,
        fun hg => (List.forall_mem_cons.1 (hall hg)).2⟩

/-- What a branch off the revision the changes name is, on a deleted path. -/
theorem alive_of_branch (h : Dead w t)
    (hnew : ∀ m ∈ t, m.rev ≠ (Push.branchDoc change false (some content) w.revisions).rev) :
    AliveWith w content (t ++ [(Push.branchDoc change false (some content) w.revisions).toNode]) := by
  set b := (Push.branchDoc change false (some content) w.revisions).toNode with hb
  have hanc : b.ancestors = w.rev :: w.ancestors := Push.ancestors_branch
  have hs : Tree.Sound (t ++ [b]) := h.sound.append hnew (h.parents hanc)
  have hleaf : b ∈ Tree.leaves (t ++ [b]) := h.sound.mem_leaves_append_self hnew (h.parents hanc)
  refine ⟨b, ⟨change.contentType.getD octetStream, content⟩, ⟨hs, List.mem_append_left _ h.mem,
    ⟨b, List.mem_append_right _ (List.mem_singleton_self b), hanc ▸ List.mem_cons_self⟩,
    hs.liveLeaves_eq (Tree.mem_liveLeaves.2 ⟨hleaf, rfl⟩) fun m hm => ?_⟩, rfl, rfl⟩
  obtain ⟨hmleaf, hmd⟩ := Tree.mem_liveLeaves.1 hm
  rcases Tree.mem_leaves_append.1 hmleaf with ⟨hold, -⟩ | ⟨rfl, -⟩
  · rw [h.tombstoned m hold] at hmd
    cases hmd
  · rfl

theorem branchName_delete {r : Rev} (h : IsDelete path r change) :
    branchName w change none = (Push.branchDoc change true none w.revisions).rev := by
  rw [branchName, h.deleted]

/-! ## The first push -/

/-- **The delete that comes first** is accepted. -/
theorem dead_of_first (C : Couch) (env : HubEnv) (hs : Tree.Sound (db.docs path))
    (hcurrent : (db.docs path).liveLeaves = [w]) (hc : IsDelete path w.rev change) :
    (Hub.exec C (Push.postChanges env [change]) db).2.docs path =
        db.docs path ++ [firstTombstone C (db.docs path) w] ∧
      Dead w (db.docs path ++ [firstTombstone C (db.docs path) w]) ∧
      ∀ p, p ≠ path → (Hub.exec C (Push.postChanges env [change]) db).2.docs p = db.docs p := by
  obtain ⟨rfl, hdel, hbase⟩ := hc
  obtain ⟨hwinner, hwd⟩ := Tree.visible_eq_some.1 (Tree.visible_of_liveLeaves hcurrent)
  have hwleaf : w ∈ (db.docs change.path).leaves := Tree.winner_mem hwinner
  have hwmem := Tree.mem_of_mem_leaves hwleaf
  have haccepted : C.deleteParent (db.docs change.path) w.rev = .ok w := by
    simp [Couch.deleteParent, hwinner, hwd, hs.leaf?_rev hwleaf]
  have hrun : (Hub.exec C (Push.apply env change) db).2 =
      db.write change.path (firstTombstone C (db.docs change.path) w) := by
    rw [Push.apply, if_pos hdel, Push.exec_applyDelete hbase, haccepted]
    rfl
  have hmem : ∀ q, some w = some q → q ∈ db.docs change.path := by
    rintro q ⟨⟩
    exact hwmem
  rw [docs_postChanges, hrun]
  refine ⟨Db.write_docs_self, ⟨Couch.sound_append_child hs hmem, List.mem_append_left _ hwmem, hwd,
    fun m hm => ?_, List.ne_nil_of_mem (Tree.leaf?_eq_some (Push.leaf?_append_child hmem)).1⟩,
    fun p hp => Db.write_docs_of_ne hp⟩
  -- the one live leaf is under the tombstone
  rcases Tree.mem_leaves_append.1 hm with ⟨hold, hnot⟩ | ⟨rfl, -⟩
  · by_contra hmd
    have hlive : m ∈ (db.docs change.path).liveLeaves :=
      Tree.mem_liveLeaves.2 ⟨hold, by simpa using hmd⟩
    rw [hcurrent, List.mem_singleton] at hlive
    subst hlive
    rw [firstTombstone, Couch.ancestors_child_some] at hnot
    exact hnot List.mem_cons_self
  · rfl

/-- An upsert of a path at a revision. -/
structure IsEdit (path : Path) (r : Rev) (content : Bytes) (change : PushChange) : Prop where
  path_eq : change.path = path
  upsert : change.deleted = false
  base : change.baseRev = some r
  decodes : (change.contentBase64.getD .empty).decode = .ok content

theorem IsEdit.exec_apply (h : IsEdit path w.rev content change) :
    Hub.exec C (Push.apply env change) db = Hub.exec C (Push.applyUpsert env change) db := by
  rw [Push.apply, if_neg (by rw [h.upsert]; exact Bool.false_ne_true)]

/-- **The upsert that comes first** is accepted, and the path has its content
if that can be sent. -/
theorem alive_of_first (C : Couch) (env : HubEnv) (hs : Tree.Sound (db.docs path))
    (hcurrent : (db.docs path).liveLeaves = [w]) (he : IsEdit path w.rev content change) :
    (∃ n, Alive w n ((Hub.exec C (Push.postChanges env [change]) db).2.docs path) ∧
      n.content = if Push.sendable change then some ⟨change.contentType.getD octetStream, content⟩
        else none) ∧
      ∀ p, p ≠ path → (Hub.exec C (Push.postChanges env [change]) db).2.docs p = db.docs p := by
  have happly : Hub.exec C (Push.apply env change) db = _ := he.exec_apply
  obtain ⟨rfl, -, hbase, hcontent⟩ := he
  obtain ⟨hwleaf, -⟩ := Tree.mem_liveLeaves.1 (Tree.visible_mem (Tree.visible_of_liveLeaves hcurrent))
  have hwmem := Tree.mem_of_mem_leaves hwleaf
  have haccepted : Couch.putParent (db.docs change.path) change.baseRev = .ok (some w) := by
    simp [Couch.putParent, hbase, hs.leaf?_rev hwleaf]
  set t := db.docs change.path with ht
  set b := Push.bodyNode C t (some w) change with hb
  set n := Push.contentNode C t (some w) change content with hn
  have hwsome : ∀ q, some w = some q → q ∈ t := by
    rintro q ⟨⟩
    exact hwmem
  have hbmem : ∀ q, some b = some q → q ∈ t ++ [b] := by
    rintro q ⟨⟩
    exact List.mem_append_right _ (List.mem_singleton_self b)
  have hcover : w.rev ∈ b.ancestors := by
    rw [hb, Push.bodyNode, Couch.ancestors_child_some]
    exact List.mem_cons_self
  have hone : Tree.LiveWithin t [w.rev] := by
    intro m hm
    rw [hcurrent, List.mem_singleton] at hm
    rw [hm]
    exact List.mem_singleton_self _
  have hs₁ : Tree.Sound (t ++ [b]) := Couch.sound_append_child hs hwsome
  have hwithin : Tree.LiveWithin (t ++ [b]) [b.rev] := Couch.liveWithin_append_child hone rfl
  rw [docs_postChanges, happly, Push.exec_applyUpsert hcontent, haccepted]
  dsimp only
  -- the body is written on `w`, and the content on the body if it can be sent
  cases hsend : Push.sendable change with
  | true =>
    rw [if_pos rfl, if_pos rfl]
    have hs₂ : Tree.Sound (t ++ [b] ++ [n]) := Couch.sound_append_child hs₁ hbmem
    have hwithin₂ : Tree.LiveWithin (t ++ [b] ++ [n]) [n.rev] :=
      Couch.liveWithin_append_child hwithin rfl
    refine ⟨⟨n, ?_, rfl⟩, fun p hp => by rw [Db.write_docs_of_ne hp, Db.write_docs_of_ne hp]⟩
    rw [Db.write_docs_self, Db.write_docs_self]
    exact ⟨hs₂, List.mem_append_left _ (List.mem_append_left _ hwmem),
      ⟨b, List.mem_append_left _ (hbmem b rfl), hcover⟩,
      hs₂.liveLeaves_eq (Tree.mem_liveLeaves.2
        ⟨(Tree.leaf?_eq_some (Push.leaf?_append_child hbmem)).1, rfl⟩)
        fun m hm => List.mem_singleton.1 (hwithin₂ m hm)⟩
  | false =>
    rw [if_neg Bool.false_ne_true, if_neg Bool.false_ne_true]
    refine ⟨⟨b, ?_, rfl⟩, fun p hp => Db.write_docs_of_ne hp⟩
    rw [Db.write_docs_self]
    exact ⟨hs₁, List.mem_append_left _ hwmem, ⟨b, hbmem b rfl, hcover⟩,
      hs₁.liveLeaves_eq (Tree.mem_liveLeaves.2
        ⟨(Tree.leaf?_eq_some (Push.leaf?_append_child hwsome)).1, rfl⟩)
        fun m hm => List.mem_singleton.1 (hwithin m hm)⟩

/-! ## The upsert of a deleted path -/

/-- **An upsert of a deleted path** brings it back under its branch, unless
the branch's name is taken. -/
theorem docs_edit_of_dead (C : Couch) (env : HubEnv) (h : Dead w (db.docs path))
    (he : IsEdit path w.rev content change) :
    ((db.docs path).find? (branchName w change (some content)) = none →
      AliveWith w content ((Hub.exec C (Push.postChanges env [change]) db).2.docs path)) ∧
    ((db.docs path).find? (branchName w change (some content)) ≠ none →
      Dead w ((Hub.exec C (Push.postChanges env [change]) db).2.docs path)) ∧
    ∀ p, p ≠ path → (Hub.exec C (Push.postChanges env [change]) db).2.docs p = db.docs p := by
  have happly : Hub.exec C (Push.apply env change) db = _ := he.exec_apply
  obtain ⟨rfl, hupsert, hbase, hcontent⟩ := he
  have hstale : Couch.putParent (db.docs change.path) change.baseRev = .error Couch.conflict := by
    simp [Couch.putParent, hbase, h.not_leaf]
  rw [branchName, hupsert, docs_postChanges, happly, Push.exec_applyUpsert hcontent, hstale]
  dsimp only
  rw [Push.exec_branchAndResolve, parentIn_of_base h.sound h.mem hbase]
  dsimp only
  obtain ⟨hdocs, hothers⟩ := docs_branched C db change false (some content) w.revisions
  cases hf : (db.docs change.path).find?
      (Push.branchDoc change false (some content) w.revisions).rev with
  | some m =>
    rw [hf] at hdocs
    have hdead : Dead w ((Push.branched C change false (some content) w.revisions db).docs
        change.path) := by
      rw [hdocs]
      exact h
    rw [Resolver.exec_resolve_of_tombstoned hdead.tombstoned]
    dsimp only
    rw [hdead.tombstoned.doc?_eq_none]
    exact ⟨fun hnone => absurd hnone (Option.some_ne_none m), fun _ => hdead, hothers⟩
  | none =>
    rw [hf] at hdocs
    have halive : AliveWith w content ((Push.branched C change false (some content) w.revisions
        db).docs change.path) := by
      rw [hdocs]
      exact alive_of_branch h (Tree.find?_eq_none.1 hf)
    obtain ⟨n, a, hn, ha, hdata⟩ := halive
    obtain ⟨hresolve, hdoc⟩ := exec_resolve_of_sole C env hn.sole
    rw [hresolve]
    dsimp only
    rw [hdoc]
    exact ⟨fun _ => ⟨n, a, hn, ha, hdata⟩, fun hne => absurd rfl hne, hothers⟩

/-! ## Any order -/

theorem won_of_alive {db' : Db} (h : AliveWith w content (db'.docs path))
    (hothers : ∀ p, p ≠ path → db'.docs p = db.docs p) : Won db db' path content := by
  obtain ⟨n, a, hn, ha, rfl⟩ := h
  have hvisible := Tree.visible_of_liveLeaves hn.sole
  refine ⟨?_, ⟨⟨n.rev, n.body, []⟩, ?_, rfl⟩, hothers⟩
  · rw [Tree.content?, Option.elim, hvisible, Option.bind_some, ha]
    rfl
  · rw [Tree.doc?, hvisible, Option.map_some, hn.sole]
    simp

theorem not_won_of_dead {db' : Db} (h : Dead w (db'.docs path)) : ¬ Won db db' path content := by
  intro hwon
  have hnone : (db'.docs path).visible = none := Tree.visible_eq_none.2 h.tombstoned
  have hcontent := hwon.content
  rw [Tree.content?, Option.elim, hnone] at hcontent
  cases hcontent

theorem not_won_of_bare {db' : Db} (h : Alive w n (db'.docs path)) (hbare : n.content = none) :
    ¬ Won db db' path content := by
  intro hwon
  have hcontent := hwon.content
  rw [Tree.content?, Option.elim, Tree.visible_of_liveLeaves h.sole, Option.bind_some, hbare] at hcontent
  cases hcontent

/-- After the upsert, deletes change nothing about it. -/
theorem won_of_deletes (C : Couch) (env : HubEnv) {db₁ : Db}
    (h : AliveWith w content (db₁.docs path)) (hothers : ∀ p, p ≠ path → db₁.docs p = db.docs p)
    (hall : ∀ c ∈ changes, IsDelete path w.rev c) :
    Won db (pushAll C env changes db₁) path content := by
  obtain ⟨n, a, hn, ha, hdata⟩ := h
  obtain ⟨halive, hothers'⟩ := alive_pushAll C env hn hall
  exact won_of_alive ⟨n, a, halive, ha, hdata⟩ fun p hp => (hothers' p hp).trans (hothers p hp)

/-- **An edit beats deletes in every order** exactly when it comes first and
its content can be sent, or it comes later and its branch's name is free:
whatever the path's history, the bytes, the number of deletes and the times
they carry. -/
theorem edit_wins_iff (C : Couch) (env : HubEnv) (db : Db) (path : Path) (w : Node)
    (edit : PushChange) (content : Bytes) (earlier later : List PushChange)
    (hreach : Reachable C db) (hcurrent : (db.docs path).liveLeaves = [w])
    (hedit : IsEdit path w.rev content edit) (hearlier : ∀ c ∈ earlier, IsDelete path w.rev c)
    (hlater : ∀ c ∈ later, IsDelete path w.rev c) :
    Won db (pushAll C env (earlier ++ edit :: later) db) path content ↔
      (earlier = [] → Push.sendable edit = true) ∧
        NameFree C (db.docs path) w earlier edit content := by
  have hs : Tree.Sound (db.docs path) := hreach.sound path
  -- an upsert that comes first is written on `r` itself, any other branches off
  cases earlier with
  | nil =>
    obtain ⟨⟨n, halive, hn⟩, hothers⟩ := alive_of_first C env hs hcurrent hedit
    have hname : NameFree C (db.docs path) w [] edit content := by rintro d ds ⟨⟩
    cases hsend : Push.sendable edit with
    | true =>
      rw [hsend, if_pos rfl] at hn
      have hwon : Won db (pushAll C env later (Hub.exec C (Push.postChanges env [edit]) db).2) path
          content := won_of_deletes C env ⟨n, _, halive, hn, rfl⟩ hothers hlater
      exact iff_of_true hwon ⟨fun _ => rfl, hname⟩
    | false =>
      rw [hsend, if_neg Bool.false_ne_true] at hn
      refine iff_of_false (not_won_of_bare (alive_pushAll C env halive hlater).1 hn) ?_
      rintro ⟨hfirst, -⟩
      cases hfirst rfl
  | cons d ds =>
    obtain ⟨hd, hds⟩ := List.forall_mem_cons.1 hearlier
    obtain ⟨hdocs, hdead, hothers⟩ := dead_of_first C env hs hcurrent hd
    rw [← hdocs] at hdead
    obtain ⟨hdocs', hdead', hothers'⟩ := docs_deletes_of_dead C env hdead hds
    obtain ⟨hfree, htaken, hothers''⟩ := docs_edit_of_dead C env hdead' hedit
    have hrun : pushAll C env (d :: ds ++ edit :: later) db = pushAll C env later
        (Hub.exec C (Push.postChanges env [edit]) (pushAll C env ds
          (Hub.exec C (Push.postChanges env [d]) db).2)).2 := by
      rw [List.cons_append]
      show pushAll C env (ds ++ edit :: later) _ = _
      rw [pushAll, List.foldl_append]
      rfl
    have hall : ∀ p, p ≠ path → (Hub.exec C (Push.postChanges env [edit]) (pushAll C env ds
        (Hub.exec C (Push.postChanges env [d]) db).2)).2.docs p = db.docs p := fun p hp =>
      (hothers'' p hp).trans ((hothers' p hp).trans (hothers p hp))
    have hname : NameFree C (db.docs path) w (d :: ds) edit content ↔
        ((pushAll C env ds (Hub.exec C (Push.postChanges env [d]) db).2).docs path).find?
          (branchName w edit (some content)) = none := by
      rw [hdocs', find?_buried, hdocs, find?_append_eq_none]
      constructor
      · intro h
        obtain ⟨h₁, h₂, h₃⟩ := h d ds rfl
        refine ⟨⟨h₁, h₂⟩, fun hg c hc => ?_⟩
        rw [← branchName_delete (hds c hc)]
        exact h₃ hg c hc
      · rintro ⟨⟨h₁, h₂⟩, h₃⟩ d' ds' heq
        obtain ⟨rfl, rfl⟩ := List.cons.inj heq
        refine ⟨h₁, h₂, fun hg c hc => ?_⟩
        rw [branchName_delete (hds c hc)]
        exact h₃ hg c hc
    rw [and_iff_right (by rintro ⟨⟩), hname, hrun]
    constructor
    · intro hwon
      by_contra htook
      have hdead'' := (docs_deletes_of_dead C env (htaken htook) hlater).2.1
      exact not_won_of_dead hdead'' hwon
    · exact fun h => won_of_deletes C env (hfree h) hall hlater

/-! ## An edit whose content cannot be sent -/

/-- The path's current revision: a file's first version. -/
def current : Node :=
  ⟨⟨2, "xx"⟩, ["x"], false, ⟨some "a", some 1, some octetStream⟩, some ⟨octetStream, [0]⟩⟩

/-- A hub with that file. -/
def created : Db :=
  ((Couch.counting true).answer (.putAttachment .push "a" ⟨1, "x"⟩ ⟨octetStream, [0]⟩)
    ((Couch.counting true).answer (.putDoc .push "a" none current.body) Db.empty).2).2

theorem reachable_created : Reachable (.counting true) created :=
  .request _ trivial (.request _ trivial .empty)

def deleteAt (mtime : ℤ) : PushChange := ⟨"a", true, some ⟨2, "xx"⟩, mtime, none, none⟩

def editAs (contentType : Option String) : PushChange :=
  ⟨"a", false, some ⟨2, "xx"⟩, 5, contentType, some (.encode [1])⟩

theorem isDelete_deleteAt (mtime : ℤ) : IsDelete "a" current.rev (deleteAt mtime) := ⟨rfl, rfl, rfl⟩

theorem isEdit_editAs (contentType : Option String) :
    IsEdit "a" current.rev [1] (editAs contentType) := ⟨rfl, rfl, rfl, rfl⟩

/-- **An edit is lost before any delete comes**, if its content type is no
header's value: the path is left without a content. -/
theorem untyped_edit_lost :
    Reachable (.counting true) created ∧ (created.docs "a").liveLeaves = [current] ∧
      IsEdit "a" current.rev [1] (editAs (some "a\nb")) ∧
      (∀ c ∈ [deleteAt 6], IsDelete "a" current.rev c) ∧
      ¬ Won created (pushAll (.counting true) .plain
        ([] ++ editAs (some "a\nb") :: [deleteAt 6]) created) "a" [1] := by
  refine ⟨reachable_created, by decide +kernel, isEdit_editAs _, ?_, fun h => ?_⟩
  · exact List.forall_mem_singleton.2 (isDelete_deleteAt 6)
  · have hnone : ((pushAll (.counting true) .plain
        ([] ++ editAs (some "a\nb") :: [deleteAt 6]) created).docs "a").content? none = none := by
      decide +kernel
    rw [h.content] at hnone
    cases hnone

theorem edit_wins_over_two_deletes :
    Won created (pushAll (.counting true) .plain
      ([deleteAt 3, deleteAt 4] ++ editAs none :: [deleteAt 6]) created) "a" [1] :=
  (edit_wins_iff (.counting true) .plain created "a" current (editAs none) [1]
    [deleteAt 3, deleteAt 4] [deleteAt 6] reachable_created (by decide +kernel) (isEdit_editAs none)
    (List.forall_mem_cons.2 ⟨isDelete_deleteAt 3, List.forall_mem_singleton.2 (isDelete_deleteAt 4)⟩)
    (List.forall_mem_singleton.2 (isDelete_deleteAt 6))).2 ⟨by rintro ⟨⟩, fun d ds heq => by
      obtain ⟨rfl, rfl⟩ := List.cons.inj heq
      exact ⟨by decide +kernel, by decide +kernel, fun _ => by decide +kernel⟩⟩

end EditWins

end FileSync
