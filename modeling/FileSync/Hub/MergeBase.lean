import FileSync.Hub.Pushes
/-!
# The base of a merge

Two edits are merged over the deepest revision their histories share. It is
looked for by hash alone, newest first, and its generation is counted off one
of the two histories. Where a hash stands at one generation only, that is the
deepest common ancestor, from whichever side it is looked for; and a branch
that a push makes off a revision shares exactly that revision with what was
written over it.
-/

namespace FileSync

variable {start i : ℕ} {ids : List String} {r q : Rev} {t : Tree} {n m : Node}

/-! ## Histories -/

/-- The entries of a history, counted down from its start. -/
theorem getElem?_lineage (start : ℕ) (ids : List String) (i : ℕ) :
    (lineage start ids)[i]? = ids[i]?.map fun id => ⟨start - i, id⟩ := by
  induction ids generalizing start i with
  | nil => simp [lineage]
  | cons id ids ih =>
    cases i with
    | zero => simp [lineage]
    | succ i =>
      have hsub : start - 1 - i = start - (i + 1) := by omega
      rw [lineage, List.getElem?_cons_succ, List.getElem?_cons_succ, ih, hsub]

theorem mem_lineage : r ∈ lineage start ids ↔ ∃ i, ids[i]? = some r.hash ∧ r.gen = start - i := by
  rw [List.mem_iff_getElem?]
  refine exists_congr fun i => ?_
  rw [getElem?_lineage, Option.map_eq_some_iff]
  constructor
  · rintro ⟨id, hid, rfl⟩
    exact ⟨hid, rfl⟩
  · rintro ⟨hid, hgen⟩
    exact ⟨r.hash, hid, by rw [← hgen]⟩

/-- Of each generation there is one revision, in a history no longer than its
start. -/
theorem eq_of_gen (hlen : ids.length ≤ start) (hr : r ∈ lineage start ids)
    (hq : q ∈ lineage start ids) (hgen : r.gen = q.gen) : r = q := by
  obtain ⟨i, hi, hri⟩ := mem_lineage.1 hr
  obtain ⟨j, hj, hqj⟩ := mem_lineage.1 hq
  have hilt := (List.getElem?_eq_some_iff.1 hi).1
  have hjlt := (List.getElem?_eq_some_iff.1 hj).1
  obtain rfl : i = j := by omega
  obtain ⟨gen, hash⟩ := r
  obtain ⟨gen', hash'⟩ := q
  obtain rfl : gen = gen' := hgen
  obtain rfl : hash = hash' := Option.some.inj (hi.symm.trans hj)
  rfl

/-- A revision and those it was written on top of, newest first. -/
def Node.history (n : Node) : List Rev := lineage n.rev.gen (n.rev.hash :: n.older)

theorem Node.history_eq (n : Node) : n.history = n.rev :: n.ancestors := rfl

/-! ## What two histories share -/

/-- **A hash stands at one generation only**, in full histories. -/
structure Graded (t : Tree) : Prop where
  full : ∀ n ∈ t, n.older.length + 1 = n.rev.gen
  one : ∀ n ∈ t, ∀ m ∈ t, ∀ r ∈ n.history, ∀ q ∈ m.history, r.hash = q.hash → r.gen = q.gen

/-- The deepest revision two histories share. -/
structure Deepest (n m : Node) (r : Rev) : Prop where
  left : r ∈ n.history
  right : r ∈ m.history
  below : ∀ q ∈ n.history, q ∈ m.history → q.gen ≤ r.gen

theorem Deepest.symm (h : Deepest n m r) : Deepest m n r :=
  ⟨h.right, h.left, fun q hm hn => h.below q hn hm⟩

namespace Diff3

/-- What the merge of two revisions takes for their base. -/
def baseOf (n m : Node) : Option Rev :=
  commonAncestor n.revisions.ids m.revisions.start m.revisions.ids

end Diff3

namespace Graded

variable (h : Graded t)

include h

theorem length_le (hn : n ∈ t) : n.revisions.ids.length ≤ n.rev.gen := by
  have hfull := h.full n hn
  show (n.rev.hash :: n.older).length ≤ n.rev.gen
  rw [List.length_cons]
  omega

/-- A hash that two histories share is a revision they share. -/
theorem mem_of_hash (hn : n ∈ t) (hm : m ∈ t) (hr : r ∈ m.history)
    (hhash : r.hash ∈ n.revisions.ids) : r ∈ n.history := by
  obtain ⟨i, hi⟩ := List.mem_iff_getElem?.1 hhash
  have hmem : ⟨n.rev.gen - i, r.hash⟩ ∈ n.history := mem_lineage.2 ⟨i, hi, rfl⟩
  have hgen : n.rev.gen - i = r.gen := h.one n hn m hm _ hmem r hr rfl
  rwa [hgen] at hmem

/-- What the search finds is the first entry that the other history has. -/
theorem baseOf_eq_some (hm : m ∈ t) : Diff3.baseOf n m = some r ↔
    ∃ i, m.revisions.ids.findIdx? (fun id => decide (id ∈ n.revisions.ids)) = some i ∧
      m.revisions.ids[i]? = some r.hash ∧ r.gen = m.rev.gen - i := by
  have hlen := h.length_le hm
  unfold Diff3.baseOf Diff3.commonAncestor
  rw [Option.bind_eq_some_iff]
  refine exists_congr fun i => and_congr_right fun hi => ?_
  have hle : i ≤ m.revisions.start := by
    have hlt := (List.findIdx?_eq_some_iff_getElem.1 hi).1
    show i ≤ m.rev.gen
    omega
  rw [Diff3.revisionAt, if_pos hle, Option.map_eq_some_iff]
  constructor
  · rintro ⟨id, hid, rfl⟩
    exact ⟨hid, rfl⟩
  · rintro ⟨hid, hgen⟩
    exact ⟨r.hash, hid, by rw [show m.revisions.start - i = r.gen from hgen.symm]⟩

/-- **What is found is the deepest common revision.** -/
theorem deepest_of_baseOf (hn : n ∈ t) (hm : m ∈ t) (hbase : Diff3.baseOf n m = some r) :
    Deepest n m r := by
  obtain ⟨i, hi, hid, hgen⟩ := (h.baseOf_eq_some hm).1 hbase
  obtain ⟨hlt, hshared, hfirst⟩ := List.findIdx?_eq_some_iff_getElem.1 hi
  have hhash : m.revisions.ids[i] = r.hash := (List.getElem?_eq_some_iff.1 hid).2
  have hright : r ∈ m.history := mem_lineage.2 ⟨i, hid, hgen⟩
  rw [hhash, decide_eq_true_iff] at hshared
  refine ⟨h.mem_of_hash hn hm hright hshared, hright, fun q hqn hqm => ?_⟩
  obtain ⟨j, hj, hqgen⟩ := mem_lineage.1 hqm
  -- an entry before the first one found is not shared
  have hij : i ≤ j := by
    by_contra hlt'
    have hnot := hfirst j (by omega)
    have hjlt : j < m.revisions.ids.length := (List.getElem?_eq_some_iff.1 hj).1
    have hqhash : m.revisions.ids[j] = q.hash := (List.getElem?_eq_some_iff.1 hj).2
    rw [hqhash, decide_eq_true_iff] at hnot
    exact hnot (hash_mem_of_mem_lineage hqn)
  omega

theorem exists_baseOf (hm : m ∈ t) (hrn : r ∈ n.history) (hrm : r ∈ m.history) :
    ∃ q, Diff3.baseOf n m = some q := by
  cases hi : m.revisions.ids.findIdx? (fun id => decide (id ∈ n.revisions.ids)) with
  | none =>
    have hnot := List.findIdx?_eq_none_iff.1 hi r.hash (hash_mem_of_mem_lineage hrm)
    exact absurd (hash_mem_of_mem_lineage hrn) (of_decide_eq_false hnot)
  | some i =>
    obtain ⟨hlt, -⟩ := List.findIdx?_eq_some_iff_getElem.1 hi
    exact ⟨⟨m.rev.gen - i, m.revisions.ids[i]⟩,
      (h.baseOf_eq_some hm).2 ⟨i, hi, List.getElem?_eq_getElem hlt, rfl⟩⟩

theorem baseOf_iff (hn : n ∈ t) (hm : m ∈ t) : Diff3.baseOf n m = some r ↔ Deepest n m r := by
  refine ⟨h.deepest_of_baseOf hn hm, fun hr => ?_⟩
  obtain ⟨q, hq⟩ := h.exists_baseOf hm hr.left hr.right
  have hdeep := h.deepest_of_baseOf hn hm hq
  have hgen : q.gen = r.gen :=
    Nat.le_antisymm (hr.below q hdeep.left hdeep.right) (hdeep.below r hr.left hr.right)
  rw [hq, eq_of_gen (h.length_le hm) hdeep.right hr.right hgen]

/-- **None is found exactly where nothing is shared.** -/
theorem baseOf_eq_none (hn : n ∈ t) (hm : m ∈ t) :
    Diff3.baseOf n m = none ↔ ∀ r ∈ n.history, r ∉ m.history := by
  constructor
  · intro hnone r hrn hrm
    obtain ⟨q, hq⟩ := h.exists_baseOf hm hrn hrm
    rw [hnone] at hq
    cases hq
  · intro hnot
    cases hbase : Diff3.baseOf n m with
    | none => rfl
    | some r =>
      have hdeep := h.deepest_of_baseOf hn hm hbase
      exact absurd hdeep.right (hnot r hdeep.left)

/-- **The two histories may be swapped.** -/
theorem baseOf_comm (hn : n ∈ t) (hm : m ∈ t) : Diff3.baseOf n m = Diff3.baseOf m n := by
  refine Option.ext fun r => ?_
  rw [h.baseOf_iff hn hm, h.baseOf_iff hm hn]
  exact ⟨Deepest.symm, Deepest.symm⟩

end Graded

/-! ## Branches -/

namespace Push

variable {change : PushChange} {deleted : Bool} {content : Option Bytes} {p w : Node}

/-- A branch's history is its own revision on top of its base's. -/
theorem history_branch : (branchDoc change deleted content p.revisions).toNode.history =
    (branchDoc change deleted content p.revisions).rev :: p.history :=
  congrArg _ ancestors_branch

/-- **A branch shares with what was written over its base** that base, and
nothing deeper. -/
theorem deepest_branch (hs : Tree.Sound t) (hw : w ∈ t) (hover : p.rev ∈ w.history)
    (hnew : t.find? (branchDoc change deleted content p.revisions).rev = none) :
    Deepest w (branchDoc change deleted content p.revisions).toNode p.rev := by
  set b := (branchDoc change deleted content p.revisions).toNode with hb
  have hbmem : b ∈ t ++ [b] := List.mem_append_right _ (List.mem_singleton_self b)
  have hbase : p.rev ∈ b.history := by
    rw [history_branch]
    exact List.mem_cons_of_mem _ List.mem_cons_self
  refine ⟨hover, hbase, fun q hqw hqb => ?_⟩
  -- the branch's own revision is new, so it is in no history
  have hqt : ∃ k ∈ t, k.rev = q := by
    rw [Node.history_eq, List.mem_cons] at hqw
    rcases hqw with rfl | hqw
    exacts [⟨w, hw, rfl⟩, hs.closed w hw q hqw]
  rw [history_branch, List.mem_cons] at hqb
  rcases hqb with rfl | hqp
  · obtain ⟨k, hk, hrev⟩ := hqt
    exact absurd hrev (Tree.find?_eq_none.1 hnew k hk)
  · obtain ⟨j, -, hgen⟩ := mem_lineage.1 hqp
    omega

end Push

/-! ## The base is the true one -/

/-- What the base of a merge should be: the deepest common revision of the
two, the same from both sides; and for a branch and what was written over its
base, that base. -/
structure TrueBases (t : Tree) : Prop where
  deepest : ∀ n ∈ t, ∀ m ∈ t, ∀ r, Diff3.baseOf n m = some r ↔ Deepest n m r
  unshared : ∀ n ∈ t, ∀ m ∈ t, Diff3.baseOf n m = none ↔ ∀ r ∈ n.history, r ∉ m.history
  comm : ∀ n ∈ t, ∀ m ∈ t, Diff3.baseOf n m = Diff3.baseOf m n
  branch : ∀ change deleted content parent r, ∀ w ∈ t, change.baseRev = some r →
    Push.parentIn t change = .ok parent → r ∈ w.history →
    t.find? (Push.branchDoc change deleted content parent).rev = none →
    Graded (t ++ [(Push.branchDoc change deleted content parent).toNode]) →
    (Push.branchDoc change deleted content parent).toNode.history[1]? = some r ∧
      Diff3.baseOf w (Push.branchDoc change deleted content parent).toNode = some r ∧
      Diff3.baseOf (Push.branchDoc change deleted content parent).toNode w = some r

/-- **The base of a merge is the true one** in every document in which a hash
stands at one generation only. -/
theorem merge_base_true (t : Tree) (hs : Tree.Sound t) (hg : Graded t) : TrueBases t := by
  refine ⟨fun n hn m hm r => hg.baseOf_iff hn hm, fun n hn m hm => hg.baseOf_eq_none hn hm,
    fun n hn m hm => hg.baseOf_comm hn hm, ?_⟩
  intro change deleted content parent r w hw hbase hparent hover hnew hgraded
  rcases Push.parentIn_eq_ok hparent with ⟨-, hnone⟩ | ⟨p, hp, hsome, rfl⟩
  · rw [hbase] at hnone
    cases hnone
  obtain rfl := Option.some.inj (hbase.symm.trans hsome)
  set b := (Push.branchDoc change deleted content p.revisions).toNode with hb
  have hwmem : w ∈ t ++ [b] := List.mem_append_left _ hw
  have hbmem : b ∈ t ++ [b] := List.mem_append_right _ (List.mem_singleton_self b)
  have hdeep := Push.deepest_branch hs hw hover hnew
  refine ⟨?_, (hgraded.baseOf_iff hwmem hbmem).2 hdeep, (hgraded.baseOf_iff hbmem hwmem).2 hdeep.symm⟩
  rw [Push.history_branch]
  rfl

/-- Two edits of one first revision. -/
def forked : Tree :=
  [⟨⟨1, "r"⟩, [], false, ⟨none, none, none⟩, none⟩,
    ⟨⟨2, "a"⟩, ["r"], false, ⟨none, none, none⟩, none⟩,
    ⟨⟨2, "b"⟩, ["r"], false, ⟨none, none, none⟩, none⟩]

theorem forked_bases_true : TrueBases forked :=
  merge_base_true forked ⟨by decide, by decide⟩ ⟨by decide, by decide⟩

end FileSync
