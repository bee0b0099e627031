import Mathlib.Data.List.Basic
import Mathlib.Data.List.Nodup
import Mathlib.Data.List.Infix
import Mathlib.Data.Prod.Basic
/-!
# Trees of named links

Nodes that hang off one another by name, a node off one other at most. A path
of names leads from the root to one node at most, and no two paths lead to
the same one. Hanging a node somewhere adds paths that go through there, and
taking it off takes away those that do.
-/

namespace FileSync

/-- A link says what hangs off a node under a name. -/
structure Link (κ ν : Type) where
  parent : κ
  name : ν
  child : κ
deriving DecidableEq, Repr

/-- Nodes that hang off one another, and in the end off a root or off one
that hangs nowhere. -/
structure Links (κ ν : Type) (root : κ) where
  links : List (Link κ ν)
  names_nodup : (links.map fun l => (l.parent, l.name)).Nodup
  children_nodup : (links.map Link.child).Nodup
  root_free : ∀ l ∈ links, l.child ≠ root

namespace Links

variable {κ ν : Type} {root : κ} [DecidableEq κ] [DecidableEq ν] (F : Links κ ν root)
  {p d : κ} {n : ν} {path path' : List ν}

/-- What hangs off a node under a name. -/
def child? (p : κ) (n : ν) : Option κ :=
  (F.links.find? fun l => l.parent = p ∧ l.name = n).map Link.child

/-- The names of what hangs off a node. -/
def names (p : κ) : List ν := (F.links.filter fun l => l.parent = p).map Link.name

/-- The node a path leads to. -/
def resolve (path : List ν) : Option κ := path.foldlM F.child? root

/-- Nothing but the root. -/
def empty : Links κ ν root := ⟨[], List.nodup_nil, List.nodup_nil, nofun⟩

/-- The node can be hung there: the name is free, and it hangs nowhere. -/
def Hangs (p : κ) (n : ν) (d : κ) : Prop :=
  F.child? p n = none ∧ d ≠ root ∧ d ∉ F.links.map Link.child

instance : Decidable (F.Hangs p n d) := inferInstanceAs (Decidable (_ ∧ _ ∧ _))

theorem child?_eq_some : F.child? p n = some d ↔ ⟨p, n, d⟩ ∈ F.links := by
  unfold child?
  rw [Option.map_eq_some_iff]
  constructor
  · rintro ⟨l, hl, rfl⟩
    have hpn := List.find?_some hl
    simp only [decide_eq_true_eq] at hpn
    obtain ⟨rfl, rfl⟩ := hpn
    exact List.mem_of_find?_eq_some hl
  · intro hmem
    cases hfound : F.links.find? fun l => l.parent = p ∧ l.name = n with
    | none =>
      have hnone := List.find?_eq_none.1 hfound _ hmem
      simp at hnone
    | some l =>
      have hpn := List.find?_some hfound
      simp only [decide_eq_true_eq] at hpn
      have hsame := List.inj_on_of_nodup_map F.names_nodup (List.mem_of_find?_eq_some hfound) hmem
        (Prod.ext hpn.1 hpn.2)
      exact ⟨l, rfl, congrArg Link.child hsame⟩

theorem mem_names_of_child? (h : F.child? p n = some d) : n ∈ F.names p :=
  List.mem_map.2 ⟨⟨p, n, d⟩, List.mem_filter.2 ⟨F.child?_eq_some.1 h, by simp⟩, rfl⟩

/-- A node hangs in one place. -/
theorem child?_inj {q : κ} {m : ν} (h : F.child? p n = some d) (h' : F.child? q m = some d) :
    p = q ∧ n = m := by
  have hsame := List.inj_on_of_nodup_map F.children_nodup (F.child?_eq_some.1 h)
    (F.child?_eq_some.1 h') rfl
  exact ⟨congrArg Link.parent hsame, congrArg Link.name hsame⟩

theorem child?_ne_root : F.child? p n ≠ some root := fun h =>
  F.root_free _ (F.child?_eq_some.1 h) rfl

@[simp] theorem resolve_nil : F.resolve [] = some root := rfl

theorem resolve_concat : F.resolve (path ++ [n]) = (F.resolve path).bind fun p => F.child? p n := by
  unfold resolve
  rw [List.foldlM_append]
  cases path.foldlM F.child? root with
  | none => rfl
  | some p => exact bind_pure (F.child? p n)

theorem resolve_concat_eq_some :
    F.resolve (path ++ [n]) = some d ↔ ∃ p, F.resolve path = some p ∧ F.child? p n = some d := by
  rw [resolve_concat, Option.bind_eq_some_iff]

/-- What leads somewhere leads somewhere all along. -/
theorem resolve_of_above (h : F.resolve path = some d) (hp : path' <+: path) :
    ∃ q, F.resolve path' = some q := by
  obtain ⟨more, rfl⟩ := hp
  induction more using List.reverseRecOn generalizing d with
  | nil =>
    rw [List.append_nil] at h
    exact ⟨d, h⟩
  | append_singleton more n ih =>
    rw [← List.append_assoc, resolve_concat_eq_some] at h
    obtain ⟨p, hp, -⟩ := h
    exact ih hp

/-- **No two paths lead to one node.** -/
theorem resolve_inj (h : F.resolve path = some d) (h' : F.resolve path' = some d) :
    path = path' := by
  induction path using List.reverseRecOn generalizing path' d with
  | nil =>
    obtain rfl := Option.some.inj h
    rcases List.eq_nil_or_concat' path' with rfl | ⟨path', n, rfl⟩
    · rfl
    · obtain ⟨p, -, hp⟩ := F.resolve_concat_eq_some.1 h'
      exact absurd hp F.child?_ne_root
  | append_singleton path n ih =>
    obtain ⟨p, hp, hd⟩ := F.resolve_concat_eq_some.1 h
    rcases List.eq_nil_or_concat' path' with rfl | ⟨path', m, rfl⟩
    · -- nothing has the root below it
      obtain rfl := Option.some.inj h'
      exact absurd hd F.child?_ne_root
    · obtain ⟨q, hq, hd'⟩ := F.resolve_concat_eq_some.1 h'
      obtain ⟨rfl, rfl⟩ := F.child?_inj hd hd'
      rw [ih hp hq]

/-! ## Hanging and taking off -/

/-- Hang a node off another, if that can be done. -/
def link (p : κ) (n : ν) (d : κ) : Links κ ν root :=
  if h : F.Hangs p n d then
    { links := ⟨p, n, d⟩ :: F.links
      names_nodup := by
        rw [List.map_cons, List.nodup_cons]
        refine ⟨fun hmem => ?_, F.names_nodup⟩
        obtain ⟨⟨p', n', d'⟩, hl, hpn⟩ := List.mem_map.1 hmem
        obtain ⟨rfl, rfl⟩ := Prod.mk.inj hpn
        have hfree := h.1
        rw [F.child?_eq_some.2 hl] at hfree
        cases hfree
      children_nodup := List.nodup_cons.2 ⟨h.2.2, F.children_nodup⟩
      root_free := List.forall_mem_cons.2 ⟨h.2.1, F.root_free⟩ }
  else F

/-- Take off what hangs off a node under a name. -/
def unlink (p : κ) (n : ν) : Links κ ν root where
  links := F.links.filter fun l => ¬ (l.parent = p ∧ l.name = n)
  names_nodup := F.names_nodup.sublist (List.filter_sublist.map _)
  children_nodup := F.children_nodup.sublist (List.filter_sublist.map _)
  root_free l hl := F.root_free l (List.mem_of_mem_filter hl)

theorem child?_link (h : F.Hangs p n d) {q : κ} {m : ν} {e : κ} :
    (F.link p n d).child? q m = some e ↔ F.child? q m = some e ∨ q = p ∧ m = n ∧ e = d := by
  rw [child?_eq_some, child?_eq_some]
  unfold link
  rw [dif_pos h]
  constructor
  · intro hmem
    rcases List.mem_cons.1 hmem with heq | hmem
    · obtain ⟨rfl, rfl, rfl⟩ := Link.mk.inj heq
      exact .inr ⟨rfl, rfl, rfl⟩
    · exact .inl hmem
  · rintro (hmem | ⟨rfl, rfl, rfl⟩)
    · exact List.mem_cons_of_mem _ hmem
    · exact List.mem_cons_self

theorem child?_of_unlink {q : κ} {m : ν} {e : κ} (h : (F.unlink p n).child? q m = some e) :
    F.child? q m = some e ∧ ¬ (q = p ∧ m = n) := by
  rw [child?_eq_some] at h ⊢
  obtain ⟨hmem, hne⟩ := List.mem_filter.1 h
  exact ⟨hmem, of_decide_eq_true hne⟩

/-- Paths stay as a node is hung somewhere. -/
theorem resolve_link_of_resolve (h : F.Hangs p n d) {e : κ} (hpath : F.resolve path = some e) :
    (F.link p n d).resolve path = some e := by
  induction path using List.reverseRecOn generalizing e with
  | nil => exact hpath
  | append_singleton path m ih =>
    obtain ⟨q, hq, he⟩ := F.resolve_concat_eq_some.1 hpath
    exact (resolve_concat_eq_some _).2 ⟨q, ih hq, (F.child?_link h).2 (.inl he)⟩

/-- **New paths go through the new link.** -/
theorem resolve_of_link (h : F.Hangs p n d) {e : κ}
    (hpath : (F.link p n d).resolve path = some e) :
    F.resolve path = some e ∨ ∃ above, above ++ [n] <+: path ∧ F.resolve above = some p := by
  induction path using List.reverseRecOn generalizing e with
  | nil => exact .inl hpath
  | append_singleton path m ih =>
    obtain ⟨q, hq, he⟩ := (resolve_concat_eq_some _).1 hpath
    rcases ih hq with hold | ⟨above, habove, hp⟩
    · -- the path is old up to its last name, so that one may be the link's
      rcases (F.child?_link h).1 he with he | ⟨rfl, rfl, rfl⟩
      · exact .inl (F.resolve_concat_eq_some.2 ⟨q, hold, he⟩)
      · exact .inr ⟨path, List.prefix_rfl, hold⟩
    · exact .inr ⟨above, habove.trans (List.prefix_append _ _), hp⟩

/-- **Taking off makes no paths.** -/
theorem resolve_of_unlink {e : κ} (hpath : (F.unlink p n).resolve path = some e) :
    F.resolve path = some e := by
  induction path using List.reverseRecOn generalizing e with
  | nil => exact hpath
  | append_singleton path m ih =>
    obtain ⟨q, hq, he⟩ := (resolve_concat_eq_some _).1 hpath
    exact F.resolve_concat_eq_some.2 ⟨q, ih hq, (F.child?_of_unlink he).1⟩

/-- What has been taken off is not to be found. -/
theorem resolve_unlink_ne (h : F.child? p n = some d) : (F.unlink p n).resolve path ≠ some d := by
  intro hpath
  rcases List.eq_nil_or_concat' path with rfl | ⟨path, m, rfl⟩
  · obtain rfl := Option.some.inj hpath
    exact F.child?_ne_root h
  · obtain ⟨q, -, hd⟩ := (resolve_concat_eq_some _).1 hpath
    obtain ⟨hd, hne⟩ := F.child?_of_unlink hd
    exact hne (F.child?_inj hd h)

end Links

end FileSync
