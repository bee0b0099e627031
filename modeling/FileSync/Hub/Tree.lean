import FileSync.Model.Couch
/-!
# Revision trees

What a write does to a document's leaves. A write on top of a leaf takes
that leaf's place and leaves every other one alone; the revision it makes
is new to the document. The document is visible exactly when some leaf is
live.
-/

namespace FileSync

/-! ## Ancestors -/

theorem hash_mem_of_mem_lineage {r : Rev} {start : ℕ} {ids : List String}
    (h : r ∈ lineage start ids) : r.hash ∈ ids := by
  induction ids generalizing start with
  | nil => simp [lineage] at h
  | cons id ids ih =>
    rcases List.mem_cons.1 h with rfl | h
    · simp
    · exact List.mem_cons_of_mem _ (ih h)

namespace Node

/-- The revision a node was written on, and that one's own ancestors, are
its ancestors. -/
theorem ancestors_child {p n : Node} (hgen : n.rev.gen = p.rev.gen + 1)
    (holder : n.older = p.rev.hash :: p.older) : n.ancestors = p.rev :: p.ancestors := by
  simp only [ancestors, hgen, holder, lineage, Nat.add_sub_cancel]

end Node

namespace Tree

variable {t : Tree} {n m b w : Node} {r : Rev}

/-! ## Leaves -/

theorem isLeaf_iff : isLeaf t r = true ↔ ∀ m ∈ t, r ∉ m.ancestors := by
  simp [isLeaf]

theorem mem_leaves : n ∈ leaves t ↔ n ∈ t ∧ ∀ m ∈ t, n.rev ∉ m.ancestors := by
  rw [leaves, List.mem_filter, isLeaf_iff]

theorem mem_of_mem_leaves (h : n ∈ leaves t) : n ∈ t := (mem_leaves.1 h).1

theorem mem_liveLeaves : n ∈ liveLeaves t ↔ n ∈ leaves t ∧ n.deleted = false := by
  simp [liveLeaves]

theorem leaf?_eq_some (h : leaf? t r = some n) : n ∈ leaves t ∧ n.rev = r :=
  ⟨List.mem_of_find?_eq_some h, by simpa using List.find?_some h⟩

theorem leaf?_eq_none : leaf? t r = none ↔ ∀ n ∈ leaves t, n.rev ≠ r := by
  simp [leaf?]

theorem find?_eq_some (h : find? t r = some n) : n ∈ t ∧ n.rev = r :=
  ⟨List.mem_of_find?_eq_some h, by simpa using List.find?_some h⟩

theorem find?_eq_none : find? t r = none ↔ ∀ n ∈ t, n.rev ≠ r := by
  simp [find?]

theorem exists_find? (h : n ∈ t) : ∃ m, find? t n.rev = some m := by
  cases hf : find? t n.rev with
  | none => exact absurd rfl (find?_eq_none.1 hf n h)
  | some m => exact ⟨m, rfl⟩

/-- What a leaf's revision is once another revision is there: a leaf, unless
the new one was written on top of it. -/
theorem mem_leaves_append :
    n ∈ leaves (t ++ [b]) ↔ (n ∈ leaves t ∧ n.rev ∉ b.ancestors) ∨
      n = b ∧ (∀ m ∈ t, b.rev ∉ m.ancestors) ∧ b.rev ∉ b.ancestors := by
  simp only [mem_leaves, List.mem_append, List.mem_singleton]
  constructor
  · rintro ⟨h | rfl, hm⟩
    · exact .inl ⟨⟨h, fun m h' => hm m (.inl h')⟩, hm b (.inr rfl)⟩
    · exact .inr ⟨rfl, fun m h' => hm m (.inl h'), hm _ (.inr rfl)⟩
  · rintro (⟨⟨h, hm⟩, hb⟩ | ⟨rfl, hm, hb⟩)
    · refine ⟨.inl h, ?_⟩
      rintro m (h' | rfl)
      exacts [hm m h', hb]
    · refine ⟨.inr rfl, ?_⟩
      rintro m (h' | rfl)
      exacts [hm m h', hb]

/-! ## The winner -/

theorem winner_eq_none : winner t = none ↔ leaves t = [] := List.argmax_eq_none

theorem winner_mem (h : winner t = some w) : w ∈ leaves t := List.argmax_mem h

theorem rank_le_winner (h : winner t = some w) (hn : n ∈ leaves t) : n.rank ≤ w.rank :=
  List.le_of_mem_argmax hn h

/-- No tombstone outranks a live leaf. -/
theorem deleted_of_winner_deleted (h : winner t = some w) (hw : w.deleted = true)
    (hn : n ∈ leaves t) : n.deleted = true := by
  have hle := rank_le_winner h hn
  simp only [Node.rank, hw, Bool.not_true] at hle
  cases hd : n.deleted with
  | true => rfl
  | false =>
    rw [hd, Prod.Lex.toLex_le_toLex] at hle
    simp only [Bool.not_false, Bool.true_eq_false, false_and, or_false] at hle
    exact absurd hle (by decide)

theorem visible_eq_some : visible t = some w ↔ winner t = some w ∧ w.deleted = false := by
  simp [visible, Option.filter_eq_some_iff]

/-- **A document is hidden exactly when every leaf is a tombstone.** -/
theorem visible_eq_none : visible t = none ↔ ∀ n ∈ leaves t, n.deleted = true := by
  constructor
  · intro h n hn
    cases hw : winner t with
    | none => rw [winner_eq_none.1 hw] at hn; cases hn
    | some w =>
      refine deleted_of_winner_deleted hw ?_ hn
      simpa [visible, hw, Option.filter] using h
  · intro h
    cases hv : visible t with
    | none => rfl
    | some w =>
      obtain ⟨hw, hd⟩ := visible_eq_some.1 hv
      rw [h w (winner_mem hw)] at hd
      cases hd

theorem doc?_eq_none : doc? t = none ↔ visible t = none := by
  simp [doc?]

theorem visible_mem (h : visible t = some w) : w ∈ liveLeaves t := by
  obtain ⟨hw, hd⟩ := visible_eq_some.1 h
  exact mem_liveLeaves.2 ⟨winner_mem hw, hd⟩

/-- Where a leaf is live, one is visible. -/
theorem exists_visible (h : n ∈ liveLeaves t) : ∃ w, visible t = some w := by
  obtain ⟨hn, hd⟩ := mem_liveLeaves.1 h
  cases hv : visible t with
  | some w => exact ⟨w, rfl⟩
  | none =>
    rw [visible_eq_none.1 hv n hn] at hd
    cases hd

/-- The only live leaf is the visible revision. -/
theorem visible_of_liveLeaves (h : liveLeaves t = [n]) : visible t = some n := by
  obtain ⟨w, hw⟩ := exists_visible (n := n) (by rw [h]; exact List.mem_singleton_self n)
  have hmem := visible_mem hw
  rw [h, List.mem_singleton] at hmem
  rw [hw, hmem]

/-! ## Sound trees -/

/-- No revision is in the document twice, and every one is there that another
was written on top of. -/
structure Sound (t : Tree) : Prop where
  nodup : (t.map Node.rev).Nodup
  closed : ∀ n ∈ t, ∀ r ∈ n.ancestors, ∃ m ∈ t, m.rev = r

namespace Sound

theorem nil : Sound [] := ⟨List.nodup_nil, fun _ hn => absurd hn List.not_mem_nil⟩

/-- A revision that is new and hangs off what is there keeps a tree sound. -/
theorem append (h : Sound t) (hnew : ∀ n ∈ t, n.rev ≠ b.rev)
    (hparents : ∀ r ∈ b.ancestors, ∃ m ∈ t, m.rev = r) : Sound (t ++ [b]) := by
  refine ⟨?_, fun n hn r hr => ?_⟩
  · rw [List.map_append, List.nodup_append]
    refine ⟨h.nodup, List.nodup_singleton _, fun r hr r' hr' => ?_⟩
    obtain ⟨n, hn, rfl⟩ := List.mem_map.1 hr
    rw [List.map_singleton, List.mem_singleton] at hr'
    rw [hr']
    exact hnew n hn
  · rcases List.mem_append.1 hn with hn | hn
    · obtain ⟨m, hm, hmr⟩ := h.closed n hn r hr
      exact ⟨m, List.mem_append_left _ hm, hmr⟩
    · rw [List.mem_singleton] at hn
      subst hn
      obtain ⟨m, hm, hmr⟩ := hparents r hr
      exact ⟨m, List.mem_append_left _ hm, hmr⟩

/-- And is a leaf of it. -/
theorem mem_leaves_append_self (h : Sound t) (hnew : ∀ n ∈ t, n.rev ≠ b.rev)
    (hparents : ∀ r ∈ b.ancestors, ∃ m ∈ t, m.rev = r) : b ∈ leaves (t ++ [b]) := by
  refine mem_leaves_append.2 (.inr ⟨rfl, fun m hm hr => ?_, fun hr => ?_⟩)
  · obtain ⟨q, hq, hqr⟩ := h.closed m hm _ hr
    exact hnew q hq hqr
  · obtain ⟨q, hq, hqr⟩ := hparents _ hr
    exact hnew q hq hqr

theorem eq_of_rev (h : Sound t) (hn : n ∈ t) (hm : m ∈ t) (heq : n.rev = m.rev) : n = m :=
  List.inj_on_of_nodup_map h.nodup hn hm heq

/-- A revision is found by its name. -/
theorem find?_rev (h : Sound t) (hn : n ∈ t) : find? t n.rev = some n := by
  obtain ⟨m, hm⟩ := exists_find? hn
  obtain ⟨hmem, hrev⟩ := find?_eq_some hm
  rw [hm, h.eq_of_rev hmem hn hrev]

theorem leaf?_rev (h : Sound t) (hn : n ∈ leaves t) : leaf? t n.rev = some n := by
  cases hf : leaf? t n.rev with
  | none => exact absurd rfl (leaf?_eq_none.1 hf n hn)
  | some m =>
    obtain ⟨hm, hrev⟩ := leaf?_eq_some hf
    rw [h.eq_of_rev (mem_of_mem_leaves hm) (mem_of_mem_leaves hn) hrev]

theorem nodup_liveLeaves (h : Sound t) : (liveLeaves t).Nodup :=
  ((h.nodup.of_map _).filter _).filter _

/-- A live leaf that every live leaf is. -/
theorem liveLeaves_eq (h : Sound t) (hn : n ∈ liveLeaves t)
    (hall : ∀ m ∈ liveLeaves t, m.rev = n.rev) : liveLeaves t = [n] := by
  have heq : ∀ m ∈ liveLeaves t, m = n := fun m hm =>
    h.eq_of_rev (mem_of_mem_leaves (mem_liveLeaves.1 hm).1)
      (mem_of_mem_leaves (mem_liveLeaves.1 hn).1) (hall m hm)
  refine List.perm_singleton.1 ((List.perm_ext_iff_of_nodup h.nodup_liveLeaves
    (List.nodup_singleton n)).2 fun m => ?_)
  rw [List.mem_singleton]
  exact ⟨heq m, fun hm => hm ▸ hn⟩

end Sound

/-! ## Live leaves among some -/

/-- Every live leaf is one of these revisions. -/
def LiveWithin (t : Tree) (revs : List Rev) : Prop := ∀ n ∈ liveLeaves t, n.rev ∈ revs

theorem LiveWithin.length_le (h : LiveWithin t [r]) (hs : Sound t) : (liveLeaves t).length ≤ 1 := by
  rcases hl : liveLeaves t with _ | ⟨n, l⟩
  · exact Nat.zero_le 1
  · have hn : n ∈ liveLeaves t := by rw [hl]; exact List.mem_cons_self
    rw [← hl, hs.liveLeaves_eq hn fun m hm => by
      rw [List.mem_singleton.1 (h m hm), List.mem_singleton.1 (h n hn)]]
    exact le_refl 1

/-! ## Documents grow -/

theorem find?_of_grown {t' : Tree} (h : t <+: t') (hf : find? t r = some n) :
    find? t' r = some n := by
  obtain ⟨rest, rfl⟩ := h
  unfold find? at hf ⊢
  rw [List.find?_append, hf]
  rfl

/-- A content that is there stays. -/
theorem content?_of_grown {t' : Tree} {bytes : Bytes} (h : t <+: t')
    (hc : content? t (some r) = some bytes) : content? t' (some r) = some bytes := by
  unfold content? at hc ⊢
  rw [Option.elim_some] at hc ⊢
  cases hf : find? t r with
  | none =>
    rw [hf] at hc
    cases hc
  | some m =>
    rw [hf] at hc
    rw [find?_of_grown h hf]
    exact hc

end Tree

/-! ## What a write adds -/

namespace Couch

variable {C : Couch} {t : Tree} {p : Option Node} {d : Bool} {body : Body}
  {a : Option Attachment} {n m q : Node}

@[simp] theorem child_deleted : (C.child t p d body a).deleted = d := rfl

@[simp] theorem child_content : (C.child t p d body a).content = a := rfl

@[simp] theorem child_body : (C.child t p d body a).body = body := rfl

@[simp] theorem ancestors_child_some :
    (C.child t (some q) d body a).ancestors = q.rev :: q.ancestors :=
  Node.ancestors_child rfl rfl

theorem child_hash_fresh (hn : n ∈ t) :
    (C.child t p d body a).rev.hash ∉ n.rev.hash :: n.older :=
  C.fresh t p d body a n hn

/-- The new revision is none of the document's. -/
theorem child_rev_ne (hn : n ∈ t) : (C.child t p d body a).rev ≠ n.rev := by
  intro h
  have hfresh : (C.child t p d body a).rev.hash ∉ n.rev.hash :: n.older := child_hash_fresh hn
  exact hfresh (by rw [h]; simp)

/-- The new revision is found under its name. -/
theorem find?_append_child : Tree.find? (t ++ [C.child t p d body a]) (C.child t p d body a).rev =
    some (C.child t p d body a) := by
  have hnone : Tree.find? t (C.child t p d body a).rev = none :=
    Tree.find?_eq_none.2 fun n hn => (child_rev_ne hn).symm
  unfold Tree.find? at hnone ⊢
  rw [List.find?_append, hnone, List.find?_cons_of_pos (by simp)]
  rfl

/-- Nothing in the document was written on top of the new revision. -/
theorem child_rev_not_mem_ancestors (hn : n ∈ t) :
    (C.child t p d body a).rev ∉ n.ancestors := fun h =>
  child_hash_fresh (C := C) hn (List.mem_cons_of_mem _ (hash_mem_of_mem_lineage h))

theorem sound_append_child (h : Tree.Sound t) (hparent : ∀ q, p = some q → q ∈ t) :
    Tree.Sound (t ++ [C.child t p d body a]) := by
  refine h.append (fun n hn => (child_rev_ne hn).symm) fun r hr => ?_
  cases p with
  | none => exact absurd hr List.not_mem_nil
  | some q =>
    rw [ancestors_child_some, List.mem_cons] at hr
    rcases hr with rfl | hr
    · exact ⟨q, hparent q rfl, rfl⟩
    · exact h.closed q (hparent q rfl) r hr

/-- What is written on top of a leaf is live in its place. -/
theorem liveWithin_append_child {r : Rev} {revs : List Rev} (h : Tree.LiveWithin t (r :: revs))
    (hq : q.rev = r) :
    Tree.LiveWithin (t ++ [C.child t (some q) d body a])
      ((C.child t (some q) d body a).rev :: revs) := by
  intro n hn
  obtain ⟨hleaf, hd⟩ := Tree.mem_liveLeaves.1 hn
  rcases Tree.mem_leaves_append.1 hleaf with ⟨hold, hover⟩ | ⟨rfl, -⟩
  · rcases List.mem_cons.1 (h n (Tree.mem_liveLeaves.2 ⟨hold, hd⟩)) with hr | hr
    · rw [ancestors_child_some, hq, ← hr] at hover
      exact absurd List.mem_cons_self hover
    · exact List.mem_cons_of_mem _ hr
  · exact List.mem_cons_self

/-- A tombstone on top of a leaf takes it away. -/
theorem liveWithin_append_tombstone {r : Rev} {revs : List Rev}
    (h : Tree.LiveWithin t (r :: revs)) (hq : q.rev = r) :
    Tree.LiveWithin (t ++ [C.child t (some q) true body a]) revs := by
  intro n hn
  obtain ⟨hleaf, hd⟩ := Tree.mem_liveLeaves.1 hn
  rcases Tree.mem_leaves_append.1 hleaf with ⟨hold, hover⟩ | ⟨rfl, -⟩
  · rcases List.mem_cons.1 (h n (Tree.mem_liveLeaves.2 ⟨hold, hd⟩)) with hr | hr
    · rw [ancestors_child_some, hq, ← hr] at hover
      exact absurd List.mem_cons_self hover
    · exact hr
  · cases hd

end Couch

/-! ## Documents -/

namespace Db

variable {db : Db} {id p : Path} {n : Node}

@[simp] theorem write_docs_self : (db.write id n).docs id = db.docs id ++ [n] := by
  simp [write]

theorem write_docs_of_ne (h : p ≠ id) : (db.write id n).docs p = db.docs p := by
  simp [write, h]

end Db

end FileSync
