import FileSync.Hub.Tree
import FileSync.Hub.Calls
import FileSync.Model.Routes
import Mathlib.Data.List.Dedup
import Mathlib.Data.List.Infix
/-!
# The update log

A write appends one revision to one document and that document's path to
the log, whose length is what a checkpoint counts. So a document that has
not been written since a checkpoint is as it was then, and the changes
after one are all that differs.
-/

namespace FileSync

/-! ## The winner of a document -/

theorem gen_le_of_mem_lineage {r : Rev} {start : ℕ} {ids : List String}
    (h : r ∈ lineage start ids) : r.gen ≤ start := by
  induction ids generalizing start with
  | nil => exact absurd h List.not_mem_nil
  | cons id ids ih =>
    rcases List.mem_cons.1 h with rfl | h
    · exact le_refl _
    · have hle := ih h
      omega

/-- **A document with revisions has a winner**: nothing was written on top
of one of the highest generation. -/
theorem Tree.exists_winner {t : Tree} (hpos : ∀ n ∈ t, 0 < n.rev.gen) (ht : t ≠ []) :
    ∃ w, t.winner = some w := by
  obtain ⟨n, hn⟩ : ∃ n, t.argmax (fun n => n.rev.gen) = some n := by
    cases h : t.argmax fun n => n.rev.gen with
    | some n => exact ⟨n, rfl⟩
    | none => exact absurd (List.argmax_eq_none.1 h) ht
  have hleaf : n ∈ t.leaves := by
    refine Tree.mem_leaves.2 ⟨List.argmax_mem hn, fun m hm hr => ?_⟩
    have hhigh : m.rev.gen ≤ n.rev.gen :=
      List.le_of_mem_argmax (f := fun n : Node => n.rev.gen) hm hn
    have hover : n.rev.gen ≤ m.rev.gen - 1 := gen_le_of_mem_lineage hr
    have hm' := hpos m hm
    omega
  cases hw : t.winner with
  | some w => exact ⟨w, rfl⟩
  | none =>
    rw [Tree.winner_eq_none.1 hw] at hleaf
    exact absurd hleaf List.not_mem_nil

/-! ## What a request writes -/

/-- The revisions of a branch are numbered from 1. -/
def CouchReq.Numbered ⦃β : Type⦄ : CouchReq β → Prop
  | .bulkDocs doc => 0 < doc.rev.gen
  | _ => True

/-- **A request writes one revision or none.** -/
theorem Couch.answer_writes (C : Couch) ⦃β : Type⦄ (e : CouchReq β) (db : Db) :
    (C.answer e db).2 = db ∨
      ∃ id n, (C.answer e db).2 = db.write id n ∧ (e.Numbered → 0 < n.rev.gen) := by
  cases e with
  | getDoc | getDocAtRev | getAttachment | openRevs | changes => exact .inl rfl
  | putDoc caller id rev body =>
    simp only [answer]
    split
    · exact .inr ⟨_, _, rfl, fun _ => Nat.succ_pos _⟩
    · exact .inl rfl
  | putAttachment caller id rev attachment =>
    simp only [answer]
    split
    · exact .inr ⟨_, _, rfl, fun _ => Nat.succ_pos _⟩
    · exact .inl rfl
  | deleteDoc caller id rev =>
    simp only [answer]
    split
    · exact .inr ⟨_, _, rfl, fun _ => Nat.succ_pos _⟩
    · exact .inl rfl
  | bulkDocs doc =>
    simp only [answer]
    split
    · exact .inl rfl
    · exact .inr ⟨_, _, rfl, fun h => h⟩

/-- **Documents grow.** -/
theorem Couch.docs_answer (C : Couch) ⦃β : Type⦄ (e : CouchReq β) (db : Db) (p : Path) :
    db.docs p <+: (C.answer e db).2.docs p := by
  rcases C.answer_writes e db with h | ⟨id, n, h, -⟩
  · rw [h]
  · rw [h]
    by_cases hp : p = id
    · rw [hp, Db.write_docs_self]
      exact List.prefix_append _ _
    · rw [Db.write_docs_of_ne hp]

/-- The hub's requests are such. -/
theorem CouchReq.numbered_calls : PushCalls fun _ e => e.Numbered where
  getDoc _ := trivial
  getDocAtRev _ _ := trivial
  getAttachment _ _ := trivial
  openRevs _ := trivial
  putDoc _ _ _ := trivial
  putAttachment _ _ _ := trivial
  deleteDoc _ _ := trivial
  putDocPush _ _ _ := trivial
  putAttachmentPush _ _ _ := trivial
  deleteDocPush _ _ := trivial
  bulkDocs _ _ _ parent := Nat.succ_pos parent.start

namespace Db

/-- What `GET /file` reads: the visible revision's content. -/
def served (db : Db) (path : Path) : Option Bytes := (db.docs path).content? none

/-- The path was written since the log had that length. -/
def Changed (db : Db) (since : ℕ) (path : Path) : Prop := path ∈ db.log.drop since

instance (db : Db) (since : ℕ) (path : Path) : Decidable (db.Changed since path) :=
  inferInstanceAs (Decidable (_ ∈ _))

/-- What writes make of a database. -/
structure Grows (db db' : Db) : Prop where
  log : db.log <+: db'.log
  docs : ∀ p, ¬ db'.Changed db.log.length p → db'.docs p = db.docs p

/-- Revisions are numbered from 1, and what is in the log is a document. -/
structure Numbered (db : Db) : Prop where
  pos : ∀ p, ∀ n ∈ db.docs p, 0 < n.rev.gen
  logged : ∀ p ∈ db.log, db.docs p ≠ []

variable {db db' db'' : Db} {id p : Path} {n : Node} {since : ℕ}

namespace Grows

theorem refl (db : Db) : Grows db db := ⟨List.prefix_rfl, fun _ _ => rfl⟩

theorem length_le (h : Grows db db') : db.log.length ≤ db'.log.length := h.log.length_le

/-- What was written since stays so. -/
theorem changed (h : Grows db db') (hp : db.Changed since p) : db'.Changed since p := by
  obtain ⟨more, hmore⟩ := h.log
  unfold Changed
  rw [← hmore, List.drop_append]
  exact List.mem_append_left _ hp

/-- And what was written later was written since. -/
theorem changed_of_le {later : ℕ} (hle : since ≤ later) (hp : db.Changed later p) :
    db.Changed since p := by
  unfold Changed at hp ⊢
  obtain ⟨k, rfl⟩ := Nat.exists_eq_add_of_le hle
  rw [← List.drop_drop] at hp
  exact List.mem_of_mem_drop hp

theorem trans (h : Grows db db') (h' : Grows db' db'') : Grows db db'' := by
  refine ⟨h.log.trans h'.log, fun p hp => ?_⟩
  have hlater : ¬ db''.Changed db'.log.length p := fun hc => hp (changed_of_le h.length_le hc)
  have hfirst : ¬ db'.Changed db.log.length p := fun hc => hp (h'.changed hc)
  rw [h'.docs p hlater, h.docs p hfirst]

theorem write (db : Db) (id : Path) (n : Node) : Grows db (db.write id n) := by
  refine ⟨List.prefix_append _ _, fun p hp => Db.write_docs_of_ne ?_⟩
  rintro rfl
  refine hp ?_
  rw [Changed, Db.write, List.drop_left]
  exact List.mem_singleton_self p

/-- A document that is served otherwise than before was written. -/
theorem served_or (h : Grows db db') (hle : since ≤ db.log.length) (p : Path) :
    db'.Changed since p ∨ db'.served p = db.served p := by
  by_cases hp : db'.Changed db.log.length p
  · exact .inl (changed_of_le hle hp)
  · exact .inr (by rw [served, served, h.docs p hp])

end Grows

theorem changed_write (hle : since ≤ db.log.length) : (db.write p n).Changed since p := by
  rw [Changed, Db.write, List.drop_append_of_le_length hle]
  exact List.mem_append_right _ (List.mem_singleton_self p)

namespace Numbered

theorem empty : Db.empty.Numbered :=
  ⟨fun _ _ hn => absurd hn List.not_mem_nil, fun _ hp => absurd hp List.not_mem_nil⟩

theorem write (h : db.Numbered) (hn : 0 < n.rev.gen) : (db.write id n).Numbered := by
  refine ⟨fun p m hm => ?_, fun p hp => ?_⟩
  · by_cases hpid : p = id
    · subst hpid
      rw [write_docs_self] at hm
      rcases List.mem_append.1 hm with hm | hm
      · exact h.pos p m hm
      · rw [List.mem_singleton.1 hm]
        exact hn
    · rw [write_docs_of_ne hpid] at hm
      exact h.pos p m hm
  · by_cases hpid : p = id
    · subst hpid
      rw [write_docs_self]
      simp
    · rw [write_docs_of_ne hpid]
      rcases List.mem_append.1 hp with hp | hp
      · exact h.logged p hp
      · exact absurd (List.mem_singleton.1 hp) hpid

theorem exists_winner (h : db.Numbered) (hp : db.Changed since p) :
    ∃ w, (db.docs p).winner = some w :=
  Tree.exists_winner (h.pos p) (h.logged p (List.mem_of_mem_drop hp))

end Numbered

/-- **A request makes the database grow.** -/
theorem grows_answer (C : Couch) ⦃β : Type⦄ (e : CouchReq β) (db : Db) :
    Grows db (C.answer e db).2 := by
  rcases C.answer_writes e db with h | ⟨id, n, h, -⟩
  · rw [h]
    exact .refl db
  · rw [h]
    exact .write db id n

theorem numbered_answer (C : Couch) {β : Type} {e : CouchReq β} (he : e.Numbered)
    (h : db.Numbered) : (C.answer e db).2.Numbered := by
  rcases C.answer_writes e db with hw | ⟨id, n, hw, hpos⟩
  · rwa [hw]
  · rw [hw]
    exact h.write (hpos he)

/-! ## The feed -/

/-- **The feed after a checkpoint** lists the user's paths written since,
each as its winner is now. -/
theorem mem_changes {token : Option Checkpoint} {entry : ChangeEntry} :
    entry ∈ (Routes.toResponse (Couch.changesSince db token)).changes ↔
      db.Changed (token.getD 0) entry.path ∧ Routes.isSystemId entry.path = false ∧
        ∃ w, (db.docs entry.path).winner = some w ∧ entry = ⟨entry.path, w.deleted, w.rev⟩ := by
  simp only [Routes.toResponse, Couch.changesSince, Changed, List.mem_filterMap, List.mem_filter,
    List.mem_dedup]
  constructor
  · rintro ⟨row, ⟨⟨p, hp, hrow⟩, hsystem⟩, hentry⟩
    obtain ⟨w, hw, rfl⟩ := Option.map_eq_some_iff.1 hrow
    obtain rfl : _ = entry := Option.some.inj hentry
    exact ⟨hp, by simpa using hsystem, w, hw, rfl⟩
  · rintro ⟨hp, hsystem, w, hw, hentry⟩
    refine ⟨⟨entry.path, w.deleted, w.rev ::
      ((db.docs entry.path).leaves.filter fun n => n.rev ≠ w.rev).map Node.rev⟩,
      ⟨⟨entry.path, hp, by rw [hw]; rfl⟩, by simpa using hsystem⟩, ?_⟩
    rw [hentry]
    rfl

/-- A deleted entry's path serves nothing. -/
theorem served_of_deleted {w : Node} (hw : (db.docs p).winner = some w)
    (hd : w.deleted = true) : db.served p = none := by
  simp [served, Tree.content?, Tree.visible, hw, hd]

end Db

end FileSync
