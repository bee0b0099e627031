import FileSync.Hub.Settling
/-!
# Edits under a deleted winner

Where a tombstone wins, one edit is brought back on top of a tombstone and
every other leaf is deleted, edits among them, and no copy is made. So edits
are lost unless all of them have the same content, or unless the resolution
fails: one cannot be read, or the one that is brought back cannot be written.
All this is of leaves that are read as they are. A line of a file that is
read as a leaf can take the place of an edit.
-/

namespace FileSync

namespace Outcome

/-- The copies an outcome reports. -/
def copies : Outcome → List Path
  | noConflict => []
  | resolved r => r.conflictCopies

/-- The outcome of a clean merge. -/
def isMerge : Outcome → Bool
  | noConflict => false
  | resolved r => r.kind = .merged

end Outcome

namespace Resolver

variable {C : Couch} {env : HubEnv} {db db' : Db} {path : Path} {n m : Node} {nodes : List Node}
variable {o : Outcome}

/-! ## Reading the leaves -/

/-- A leaf that was read could be: a live one is read with its attachment. -/
theorem readable_of_leafFromDoc {leaf : Leaf}
    (h : Hub.exec C (leafFromDoc path n.toRevDoc) db = (.ok leaf, db'))
    (hfind : (db.docs path).find? n.rev = some n) : n.deleted = true ∨ n.content.isSome = true := by
  cases hd : n.deleted with
  | true => exact .inl rfl
  | false =>
    unfold leafFromDoc at h
    have hdel : n.toRevDoc.deleted = false := hd
    rw [hdel, if_neg Bool.false_ne_true] at h
    obtain ⟨content, db₁, hcontent, -⟩ := Hub.exec_bind_eq_ok h
    have hread := Hub.exec_adapt_eq_ok hcontent
    rw [CouchClient.exec_getAttachment] at hread
    have hfound := (Prod.mk.inj hread).1
    have hrev : (db.docs path).find? n.toRevDoc.rev = some n := hfind
    rw [Tree.content?, Option.elim_some, hrev, Option.bind_some] at hfound
    cases ha : n.content with
    | some a => exact .inr rfl
    | none =>
      rw [ha] at hfound
      cases hfound

/-- Leaves that were read could be. -/
theorem readable_of_leavesFromDocs {leaves : List Leaf}
    (h : Hub.exec C (leavesFromDocs path (nodes.map Node.toRevDoc)) db = (.ok leaves, db'))
    (hfind : ∀ n ∈ nodes, (db.docs path).find? n.rev = some n) : Readable (db.docs path) nodes := by
  induction nodes generalizing leaves db' with
  | nil => exact fun n hn => absurd hn List.not_mem_nil
  | cons n nodes ih =>
    rw [List.map_cons] at h
    unfold leavesFromDocs at h
    obtain ⟨leaf, db₁, hleaf, hrest⟩ := Hub.exec_bind_eq_ok h
    obtain ⟨rfl, -⟩ := exec_leafFromDoc hleaf
    obtain ⟨rest, db₂, htail, -⟩ := Hub.exec_bind_eq_ok hrest
    intro m hm
    refine ⟨hfind m hm, ?_⟩
    rcases List.mem_cons.1 hm with rfl | hm
    · exact readable_of_leafFromDoc hleaf (hfind m List.mem_cons_self)
    · exact (ih htail (fun k hk => hfind k (List.mem_cons_of_mem _ hk)) m hm).2

theorem readable_leaves {t : Tree} (hs : Tree.Sound t) (hfilled : Filled t) :
    Readable t t.leaves := by
  intro n hn
  refine ⟨hs.find?_rev (Tree.mem_of_mem_leaves hn), ?_⟩
  cases hd : n.deleted with
  | true => exact .inl rfl
  | false => exact .inr (hfilled n (Tree.mem_liveLeaves.2 ⟨hn, hd⟩))

/-- A live leaf and a tombstone are two leaves. -/
theorem two_le_leaves {t : Tree} (hn : n ∈ t.liveLeaves) (hm : m ∈ t.leaves)
    (hd : m.deleted = true) : ¬ (t.leaves.map Node.toRevDoc).length < 2 := by
  obtain ⟨hnleaf, hnd⟩ := Tree.mem_liveLeaves.1 hn
  intro hlt
  rw [List.length_map] at hlt
  have heq : n = m := by
    match hl : t.leaves, hlt with
    | [], _ =>
      rw [hl] at hm
      exact absurd hm List.not_mem_nil
    | [a], _ =>
      rw [hl, List.mem_singleton] at hnleaf hm
      rw [hnleaf, hm]
  rw [heq, hd] at hnd
  cases hnd

/-- **A resolution that succeeds has read every live leaf.** -/
theorem filled_of_resolved (hs : Tree.Sound (db.docs path))
    (hstray : CouchClient.NoStrays env.leafLines (db.docs path))
    (hm : m ∈ (db.docs path).leaves)
    (hd : m.deleted = true) (hn : n ∈ (db.docs path).liveLeaves)
    (h : Hub.exec C (resolveDeleteWinner env path) db = (.ok o, db')) : Filled (db.docs path) := by
  rw [resolveDeleteWinner, maxRetries, resolveDeleteWinnerLoop,
    Hub.exec_bind_of_ok (Hub.exec_adapt_of_ok CouchClient.exec_getDocLeaves),
    CouchClient.leavesOfParts_of_noStrays hstray, if_neg (two_le_leaves hn hm hd)] at h
  obtain ⟨leaves, db₁, hread, -⟩ := Hub.exec_bind_eq_ok h
  have hreadable := readable_of_leavesFromDocs hread fun k hk =>
    hs.find?_rev (Tree.mem_of_mem_leaves hk)
  intro k hk
  obtain ⟨hkleaf, hkd⟩ := Tree.mem_liveLeaves.1 hk
  exact (hreadable k hkleaf).2.resolve_left (by simp [hkd])

/-- The losers to a leaf are the other leaves. -/
theorem mem_losers_leaves {t : Tree} {r : Rev} :
    r ∈ losers (t.leaves.map readLeaf) (readLeaf m) ↔ ∃ l ∈ t.leaves, l.rev ≠ m.rev ∧ l.rev = r := by
  simp only [losers, List.mem_map, List.mem_filter]
  constructor
  · rintro ⟨leaf, ⟨⟨l, hl, rfl⟩, hne⟩, rfl⟩
    exact ⟨l, hl, of_decide_eq_true hne, rfl⟩
  · rintro ⟨l, hl, hne, rfl⟩
    exact ⟨readLeaf l, ⟨⟨l, hl, rfl⟩, decide_eq_true hne⟩, rfl⟩

/-- Each of them is a leaf, none is there twice, and with the leaf itself they
are all there is alive. -/
theorem losers_leaves {t : Tree} (hs : Tree.Sound t) (m : Node) :
    AreLeaves t (losers (t.leaves.map readLeaf) (readLeaf m)) ∧
      (m.rev :: losers (t.leaves.map readLeaf) (readLeaf m)).Nodup ∧
        Tree.LiveWithin t (m.rev :: losers (t.leaves.map readLeaf) (readLeaf m)) := by
  have hrevs : (t.leaves.map readLeaf).map Leaf.rev = t.leaves.map Node.rev := by
    rw [List.map_map]
    rfl
  have hnodup : ((t.leaves.map readLeaf).map Leaf.rev).Nodup := by
    rw [hrevs]
    exact hs.nodup.sublist ((List.filter_sublist ..).map _)
  refine ⟨fun r hr => ?_, List.nodup_cons.2 ⟨fun h => ?_,
    hnodup.sublist ((List.filter_sublist ..).map _)⟩, fun l hl => ?_⟩
  · obtain ⟨l, hl, -, hlr⟩ := mem_losers_leaves.1 hr
    exact ⟨l, hl, hlr⟩
  · obtain ⟨l, -, hne, hlr⟩ := mem_losers_leaves.1 h
    exact hne hlr
  · by_cases hlm : l.rev = m.rev
    · rw [hlm]
      exact List.mem_cons_self
    · exact List.mem_cons_of_mem _
        (mem_losers_leaves.2 ⟨l, (Tree.mem_liveLeaves.1 hl).1, hlm, rfl⟩)

/-- **One edit is brought back**, and it is all that is left; unless it cannot
be sent to CouchDB under its content type. -/
theorem exec_resolveDeleteWinner {e tombstone : Leaf} (env : HubEnv)
    (hs : Tree.Sound (db.docs path))
    (hstray : CouchClient.NoStrays env.leafLines (db.docs path)) (hfilled : Filled (db.docs path))
    (he : maxByKey Leaf.mtime (edits ((db.docs path).leaves.map readLeaf)) = some e)
    (ht : maxByKey (fun l : Leaf => l.rev.gen) (tombstones ((db.docs path).leaves.map readLeaf)) =
      some tombstone) :
    (HeaderValue.accepts e.contentType = true ∧ ∃ db' n,
      Hub.exec C (resolveDeleteWinner env path) db =
        (.ok (.resolved ⟨path, .editWon, []⟩), db') ∧
      n.rev ∉ (db.docs path).map Node.rev ∧ (db'.docs path).liveLeaves = [n] ∧
      (db'.docs path).content? none = some e.content) ∨
    HeaderValue.accepts e.contentType = false ∧ ∃ err db',
      Hub.exec C (resolveDeleteWinner env path) db = (.error err, db') := by
  obtain ⟨htmem, htd⟩ := List.mem_filter.1 (maxByKey_mem ht)
  obtain ⟨w, hw, rfl⟩ := List.mem_map.1 htmem
  obtain ⟨hemem, hed⟩ := List.mem_filter.1 (maxByKey_mem he)
  obtain ⟨k, hk, rfl⟩ := List.mem_map.1 hemem
  have hkd : k.deleted = false := by simpa using hed
  set leaves := (db.docs path).leaves.map readLeaf with hleaves
  have hplan : planDeleteWinner leaves =
      some (editWon (readLeaf k) w.rev (losers leaves (readLeaf w))) := by
    rw [planDeleteWinner_eq, he, ht]
    rfl
  set plan := editWon (readLeaf k) w.rev (losers leaves (readLeaf w)) with hpl
  obtain ⟨hare, hdistinct, hwithin⟩ := losers_leaves hs w
  have htwo := two_le_leaves (Tree.mem_liveLeaves.2 ⟨hk, hkd⟩) hw htd
  have hloop : Hub.exec C (resolveDeleteWinner env path) db = Hub.exec C (applyOrRetry env path plan
      (resolveDeleteWinnerLoop env path 4)) db := by
    rw [resolveDeleteWinner, maxRetries, resolveDeleteWinnerLoop,
      Hub.exec_bind_of_ok (Hub.exec_adapt_of_ok CouchClient.exec_getDocLeaves),
      CouchClient.leavesOfParts_of_noStrays hstray, if_neg htwo,
      Hub.exec_bind_of_ok (exec_leavesFromDocs_of (readable_leaves hs hfilled)), ← hleaves, hplan]
  rw [hloop, exec_applyOrRetry]
  -- the put of the document goes through either way, that of the attachment only if it is sent
  cases hsend : HeaderValue.accepts (readLeaf k).contentType with
  | true =>
    obtain ⟨db₁, db', hfinal, hdelete, hone, -⟩ :=
      exec_writeResult (C := C) plan hs hw hare hdistinct hwithin rfl hsend rfl
    have happly : Hub.exec C (applyPlan env path plan) db = (.ok [], db') :=
      exec_applyPlan_of rfl hfinal hdelete
    refine .inl ⟨rfl, db', _, by rw [happly]; rfl, fun h => ?_, hone, ?_⟩
    · obtain ⟨l, hl, hrev⟩ := List.mem_map.1 h
      exact Couch.child_rev_ne (List.mem_append_left _ hl) hrev.symm
    · rw [Tree.content?, Option.elim_none, Tree.visible_of_liveLeaves hone]
      rfl
  | false =>
    have hunsent : ∃ db', Hub.exec C (writeFinal path plan) db =
      (.error (.couch .transport), db') := exec_writeFinal_unsent rfl hsend (hs.leaf?_rev hw)
    obtain ⟨db', hfinal⟩ := hunsent
    have happly : Hub.exec C (applyPlan env path plan) db = (.error (.couch .transport), db') := by
      unfold applyPlan
      exact (Hub.exec_bind_of_ok rfl).trans (Hub.exec_bind_of_error hfinal)
    exact .inr ⟨rfl, .couch .transport, db', by rw [happly]⟩

/-! ## What is kept -/

/-- Every live edit the call deletes is what is visible then, an input of a
clean merge that made it, or a copy's content. -/
def KeepsEdits (C : Couch) (env : HubEnv) (db : Db) (path : Path) : Prop :=
  ∀ o db', Hub.exec C (resolveDeleteWinner env path) db = (.ok o, db') →
    ∀ m ∈ (db.docs path).liveLeaves, m ∉ (db'.docs path).liveLeaves →
      (db'.docs path).content? none = some (dataOf m) ∨ o.isMerge = true ∨
        ∃ q ∈ o.copies, (db'.docs q).content? none = some (dataOf m)

/-- All edits come to one content. -/
def EditsAgree (t : Tree) : Prop :=
  ∀ m ∈ t.liveLeaves, ∀ m' ∈ t.liveLeaves, dataOf m = dataOf m'

instance {t : Tree} : Decidable (EditsAgree t) := inferInstanceAs (Decidable (∀ _ ∈ _, ∀ _ ∈ _, _))

/-- With a live leaf and a tombstone, an edit and a tombstone are chosen. -/
theorem exists_chosen {t : Tree} (hn : n ∈ t.liveLeaves) (hm : m ∈ t.leaves)
    (hd : m.deleted = true) : ∃ e tombstone,
    maxByKey Leaf.mtime (edits (t.leaves.map readLeaf)) = some e ∧
      maxByKey (fun l : Leaf => l.rev.gen) (tombstones (t.leaves.map readLeaf)) =
        some tombstone := by
  obtain ⟨hnleaf, hnd⟩ := Tree.mem_liveLeaves.1 hn
  have hedit : readLeaf n ∈ edits (t.leaves.map readLeaf) :=
    List.mem_filter.2 ⟨List.mem_map_of_mem hnleaf, by simp [hnd]⟩
  have htomb : readLeaf m ∈ tombstones (t.leaves.map readLeaf) :=
    List.mem_filter.2 ⟨List.mem_map_of_mem hm, hd⟩
  cases he : maxByKey Leaf.mtime (edits (t.leaves.map readLeaf)) with
  | none =>
    rw [maxByKey_eq_none.1 he] at hedit
    exact absurd hedit List.not_mem_nil
  | some e =>
    cases ht : maxByKey (fun l : Leaf => l.rev.gen) (tombstones (t.leaves.map readLeaf)) with
    | none =>
      rw [maxByKey_eq_none.1 ht] at htomb
      exact absurd htomb List.not_mem_nil
    | some tombstone => exact ⟨e, tombstone, rfl, rfl⟩

/-- The edit that is chosen, the last listed of those with the latest edit
time, is of a content type that cannot be sent. -/
def ChosenUntyped (t : Tree) : Prop :=
  ∃ e, maxByKey Leaf.mtime (edits (t.leaves.map readLeaf)) = some e ∧
    HeaderValue.accepts e.contentType = false

/-- Edits that are all read, written and kept agree. -/
theorem editsAgree_of_keepsEdits (hs : Tree.Sound (db.docs path))
    (hstray : CouchClient.NoStrays env.leafLines (db.docs path))
    (hm : m ∈ (db.docs path).leaves) (hd : m.deleted = true) (hfilled : Filled (db.docs path))
    (htyped : ¬ ChosenUntyped (db.docs path)) (h : KeepsEdits C env db path) :
    EditsAgree (db.docs path) := by
  intro a ha b hb
  obtain ⟨e, tombstone, he, ht⟩ := exists_chosen ha hm hd
  obtain ⟨-, db', n, hrun, hnew, hone, hcontent⟩ :=
    (exec_resolveDeleteWinner (C := C) env hs hstray hfilled he ht).resolve_right
      fun hnot => htyped ⟨e, he, hnot.1⟩
  have hkept : ∀ k ∈ (db.docs path).liveLeaves, dataOf k = e.content := by
    intro k hk
    have hgone : k ∉ (db'.docs path).liveLeaves := by
      rw [hone, List.mem_singleton]
      rintro rfl
      exact hnew (List.mem_map_of_mem (Tree.mem_of_mem_leaves (Tree.mem_liveLeaves.1 hk).1))
    rcases h _ _ hrun k hk hgone with hvisible | hmerge | ⟨q, hq, -⟩
    · rw [hcontent] at hvisible
      exact (Option.some.inj hvisible).symm
    · cases hmerge
    · cases hq
  rw [hkept a ha, hkept b hb]

/-- **No edit is lost under a deleted winner exactly where the edits agree**,
or one of them cannot be read, or the chosen one cannot be written; as long as
no line of an edit is read as a leaf. -/
theorem keepsEdits_iff (C : Couch) (env : HubEnv) (db : Db) (path : Path)
    (hs : Tree.Sound (db.docs path)) (htomb : ∃ m ∈ (db.docs path).leaves, m.deleted = true)
    (hstray : CouchClient.NoStrays env.leafLines (db.docs path)) :
    KeepsEdits C env db path ↔ ¬ Filled (db.docs path) ∨ ChosenUntyped (db.docs path) ∨
      EditsAgree (db.docs path) := by
  obtain ⟨m, hm, hd⟩ := htomb
  constructor
  · intro h
    by_cases hfilled : Filled (db.docs path)
    · by_cases htyped : ChosenUntyped (db.docs path)
      · exact .inr (.inl htyped)
      · exact .inr (.inr (editsAgree_of_keepsEdits hs hstray hm hd hfilled htyped h))
    · exact .inl hfilled
  · intro h o db' hrun a ha _
    have hfilled := filled_of_resolved hs hstray hm hd ha hrun
    obtain ⟨e, tombstone, he, ht⟩ := exists_chosen ha hm hd
    rcases exec_resolveDeleteWinner (C := C) env hs hstray hfilled he ht with
      ⟨hsend, db₁, n, hrun', -, -, hcontent⟩ | ⟨-, err, db₁, hrun'⟩
    · rw [hrun] at hrun'
      obtain ⟨-, rfl⟩ := Prod.mk.inj hrun'
      have hagree : EditsAgree (db.docs path) := by
        refine (h.resolve_left (not_not_intro hfilled)).resolve_left ?_
        rintro ⟨e', he', hnot⟩
        obtain rfl := Option.some.inj (he.symm.trans he')
        rw [hsend] at hnot
        cases hnot
      obtain ⟨hemem, hed⟩ := List.mem_filter.1 (maxByKey_mem he)
      obtain ⟨k, hk, rfl⟩ := List.mem_map.1 hemem
      have hkd : k.deleted = false := by simpa using hed
      refine .inl ?_
      rw [hcontent, readLeaf_content hkd, hagree k (Tree.mem_liveLeaves.2 ⟨hk, hkd⟩) a ha]
    · rw [hrun] at hrun'
      cases (Prod.mk.inj hrun').1

/-! ## Two edits -/

/-- A deleted file of which two stale edits have arrived. -/
def hiddenEdits (content : Bytes) : Tree :=
  [⟨⟨1, "r"⟩, [], false, ⟨none, none, none⟩, none⟩,
    ⟨⟨2, "t"⟩, ["r"], true, ⟨none, none, none⟩, none⟩,
    firstRevision "a" [1] 1, firstRevision "b" content 2]

def hiddenDb (content : Bytes) : Db :=
  ⟨fun p => if p = "a.txt" then hiddenEdits content else [], []⟩

/-- **The older of two edits is lost.** -/
theorem older_edit_lost :
    ¬ KeepsEdits (.counting false) .plain (hiddenDb [2]) "a.txt" := by
  intro h
  have hs : Tree.Sound ((hiddenDb [2]).docs "a.txt") := ⟨by decide, by decide⟩
  have hchosen : maxByKey Leaf.mtime (edits (((hiddenDb [2]).docs "a.txt").leaves.map readLeaf)) =
      some (readLeaf (firstRevision "b" [2] 2)) := by decide
  have htyped : ¬ ChosenUntyped ((hiddenDb [2]).docs "a.txt") := by
    rintro ⟨e, he, hnot⟩
    obtain rfl := Option.some.inj (hchosen.symm.trans he)
    revert hnot
    decide
  have hagree := editsAgree_of_keepsEdits (m := ⟨⟨2, "t"⟩, ["r"], true, ⟨none, none, none⟩, none⟩)
    hs (fun _ _ _ _ => rfl) (by decide) rfl (by decide) htyped h
  revert hagree
  decide

/-- The same edit twice is not. -/
theorem same_edit_kept : KeepsEdits (.counting false) .plain (hiddenDb [1]) "a.txt" :=
  (keepsEdits_iff _ _ _ _ ⟨by decide, by decide⟩ (by decide) fun _ _ _ _ => rfl).2
    (.inr (.inr (by decide)))

/-- A deleted file with one edit, and its first version under the
tombstone. -/
def strayDb : Db where
  docs p :=
    if p = "a.txt" then
      [⟨⟨1, "o"⟩, [], false, ⟨none, some 1, none⟩, some ⟨octetStream, [9]⟩⟩,
        ⟨⟨2, "t"⟩, ["o"], true, ⟨none, none, none⟩, none⟩, firstRevision "e" [7] 5]
    else []
  log := []

/-- **One edit alone is lost too**, where a line of it is read as a leaf: the
line names the first version, with a later time. -/
theorem edit_lost_to_its_line :
    ¬ KeepsEdits (.counting false)
      { HubEnv.plain with leafLines := fun content =>
          if content = [7] then [⟨⟨1, "o"⟩, false, ⟨none, some 100, none⟩, ⟨0, []⟩⟩] else [] }
      strayDb "a.txt" := by
  intro h
  have hlost := h (.resolved ⟨"a.txt", .editWon, []⟩) _ (Prod.ext (by decide +kernel) rfl)
    (firstRevision "e" [7] 5) (by decide +kernel) (by decide +kernel)
  revert hlost
  decide +kernel

end Resolver

end FileSync
