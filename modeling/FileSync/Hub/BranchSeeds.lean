import Mathlib.Algebra.Group.Int.Defs
import FileSync.Common.Bytes
import FileSync.Hub.Pushes
/-!
# What a branch's revision says of its push

The hash of a branch is taken of the base's name, a zero byte, the deletion
flag, the edit time in eight bytes and the content, one after the other. The
base's name has no zero byte in it and the other fields but the last have a
fixed width, so the fields can be told apart again. The content type is not
among them, though the branch stores it.
-/

namespace FileSync

namespace Push

/-- A number is told by its eight bytes. -/
theorem beBytes_injective {m n : UInt64} (h : beBytes m = beBytes n) : m = n := by
  simp only [beBytes, List.map_cons, List.map_nil, List.cons.injEq, and_true] at h
  obtain ⟨h7, h6, h5, h4, h3, h2, h1, h0⟩ := h
  have hbyte : ∀ (k : UInt64) (j : ℕ), k.toNat = 8 * j → j < 8 →
      (m >>> k).toUInt8 = (n >>> k).toUInt8 →
      m.toNat / 256 ^ j % 256 = n.toNat / 256 ^ j % 256 := by
    intro k j hk hj heq
    have hmod : 8 * j % 64 = 8 * j := Nat.mod_eq_of_lt (by omega)
    have hpow : 2 ^ (8 * j) = 256 ^ j := pow_mul 2 8 j
    have hnat := congrArg UInt8.toNat heq
    simpa only [UInt64.toNat_toUInt8, UInt64.toNat_shiftRight, hk, hmod,
      Nat.shiftRight_eq_div_pow, hpow] using hnat
  have hhigh : ∀ k : UInt64, k.toNat / 256 ^ 8 = 0 := fun k =>
    Nat.div_eq_of_lt (k.toNat_lt.trans_eq (by rfl))
  refine UInt64.toNat_inj.1 (Bytes.eq_of_digits 8 ((hhigh m).trans (hhigh n).symm) fun j hj => ?_)
  match j, hj with
  | 0, _ => exact hbyte 0 0 rfl (by omega) h0
  | 1, _ => exact hbyte 8 1 rfl (by omega) h1
  | 2, _ => exact hbyte 16 2 rfl (by omega) h2
  | 3, _ => exact hbyte 24 3 rfl (by omega) h3
  | 4, _ => exact hbyte 32 4 rfl (by omega) h4
  | 5, _ => exact hbyte 40 5 rfl (by omega) h5
  | 6, _ => exact hbyte 48 6 rfl (by omega) h6
  | 7, _ => exact hbyte 56 7 rfl (by omega) h7

/-- A time that is an `i64`. -/
def IsI64 (m : ℤ) : Prop := -2 ^ 63 ≤ m ∧ m < 2 ^ 63

theorem ofInt_injective {m n : ℤ} (hm : IsI64 m) (hn : IsI64 n)
    (h : UInt64.ofInt m = UInt64.ofInt n) : m = n := by
  obtain ⟨hm₁, hm₂⟩ := hm
  obtain ⟨hn₁, hn₂⟩ := hn
  have hnat := congrArg UInt64.toNat h
  simp only [UInt64.ofInt, UInt64.toNat_ofNat'] at hnat
  omega

end Push

/-! ## Names of revisions -/

/-- A revision is told by its name. -/
theorem Rev.toString_injective {r q : Rev} (h : toString r = toString q) : r = q := by
  have hname : ∀ r : Rev, (toString r).toList = Nat.toDigits 10 r.gen ++ '-' :: r.hash.toList := by
    intro r
    have hdash : (toString "-").toList = ['-'] := rfl
    have hhash : (toString r.hash).toList = r.hash.toList := rfl
    show (s!"{r.gen}-{r.hash}").toList = _
    simp [hdash, hhash]
  have hdigit : ∀ r : Rev, '-' ∉ Nat.toDigits 10 r.gen := by
    intro r hmem
    have hd := Nat.isDigit_of_mem_toDigits (by omega) (by omega) hmem
    exact absurd hd (by decide)
  have hback : ∀ n, Nat.ofDigitChars 10 (Nat.toDigits 10 n) 0 = n := fun n =>
    Nat.ofDigitChars_toDigits (by omega) (by omega)
  have hlist := congrArg String.toList h
  rw [hname, hname] at hlist
  obtain ⟨hdigits, hhash⟩ := Bytes.append_cons_inj (hdigit r) (hdigit q) hlist
  obtain ⟨gen, hash⟩ := r
  obtain ⟨gen', hash'⟩ := q
  obtain rfl : gen = gen' := by rw [← hback gen, ← hback gen', hdigits]
  obtain rfl : hash = hash' := String.toList_inj.1 hhash
  rfl

/-- No name of a revision is empty. -/
theorem Rev.toString_ne_empty (r : Rev) : toString r ≠ "" := by
  intro h
  have hlen := congrArg (fun s => s.toList.length) h
  have hdash : (toString "-").toList = ['-'] := rfl
  simp [show toString r = s!"{r.gen}-{r.hash}" from rfl, hdash] at hlen

namespace Push

/-! ## Seeds -/

/-- The name of the base, as the seed begins with. -/
def baseName (baseRev : Option Rev) : String := (baseRev.map toString).getD ""

theorem baseName_injective {b b' : Option Rev} (h : baseName b = baseName b') : b = b' := by
  cases b with
  | none =>
    cases b' with
    | none => rfl
    | some r => exact absurd h.symm r.toString_ne_empty
  | some r =>
    cases b' with
    | none => exact absurd h r.toString_ne_empty
    | some q => exact congrArg some (Rev.toString_injective h)

variable {t : Tree} {path : Path}

/-- A push to `path` that is branched off: with a base that is there or none,
and the content of an upsert. -/
structure Branching (t : Tree) (path : Path) where
  change : PushChange
  content : Option Bytes
  parent : Revisions
  path_eq : change.path = path
  known : parentIn t change = .ok parent
  carries : content.isSome = !change.deleted
  decodes : ∀ bytes, content = some bytes →
    (change.contentBase64.getD .empty).decode = .ok bytes
  zero : 0 ∉ (baseName change.baseRev).toUTF8.toList
  i64 : IsI64 change.mtime

namespace Branching

variable (a b : Branching t path)

/-- What it is branched off as. -/
def doc : BranchDoc := branchDoc a.change a.change.deleted a.content a.parent

/-- What the hash is taken of. -/
def seed : Bytes := branchSeed a.change a.change.deleted a.content

/-- The two agree on all the hash is taken of. -/
structure SameSeed : Prop where
  base : a.change.baseRev = b.change.baseRev
  deleted : a.change.deleted = b.change.deleted
  mtime : a.change.mtime = b.change.mtime
  content : a.content = b.content

/-- They agree on the content type as well. -/
structure Agree : Prop extends SameSeed a b where
  contentType : a.change.contentType = b.change.contentType

variable {a b}

/-- **A seed tells its fields.** -/
theorem sameSeed_of_seed (h : a.seed = b.seed) : SameSeed a b := by
  have hseed : ∀ c : Branching t path, c.seed = (baseName c.change.baseRev).toUTF8.toList ++
      0 :: ((if c.change.deleted then 1 else 0) :: (beBytes (UInt64.ofInt c.change.mtime) ++
        c.content.getD [])) := by
    intro c
    simp [seed, branchSeed, baseName]
  rw [hseed, hseed] at h
  obtain ⟨hbase, hrest⟩ := Bytes.append_cons_inj a.zero b.zero h
  obtain ⟨hflag, hrest⟩ := List.cons.inj hrest
  obtain ⟨hmtime, hcontent⟩ := List.append_inj hrest rfl
  have hdeleted : a.change.deleted = b.change.deleted := by
    cases ha : a.change.deleted <;> cases hb : b.change.deleted <;> rw [ha, hb] at hflag
    all_goals first | rfl | exact absurd hflag (by decide)
  refine ⟨baseName_injective (Bytes.toUTF8_toList_injective hbase), hdeleted,
    ofInt_injective a.i64 b.i64 (beBytes_injective hmtime), ?_⟩
  -- both have a content or neither has one
  have hsome : a.content.isSome = b.content.isSome := by rw [a.carries, b.carries, hdeleted]
  cases ha : a.content with
  | none =>
    cases hb : b.content with
    | none => rfl
    | some d =>
      rw [ha, hb] at hsome
      cases hsome
  | some c =>
    cases hb : b.content with
    | none =>
      rw [ha, hb] at hsome
      cases hsome
    | some d =>
      rw [ha, hb] at hcontent
      exact congrArg some hcontent

/-- Pushes of one base hang off the same history. -/
theorem SameSeed.parent (h : SameSeed a b) : a.parent = b.parent := by
  have hknown := a.known
  have hsame : parentIn t a.change = parentIn t b.change := by
    unfold parentIn
    rw [h.base]
  rw [hsame, b.known] at hknown
  exact (Except.ok.inj hknown).symm

theorem SameSeed.seed (h : SameSeed a b) : a.seed = b.seed := by
  unfold Branching.seed branchSeed
  rw [h.base, h.deleted, h.mtime, h.content]

theorem rev_doc (a : Branching t path) : a.doc.rev = ⟨a.parent.start + 1, revHash a.seed⟩ := rfl

theorem SameSeed.rev_doc (h : SameSeed a b) : a.doc.rev = b.doc.rev := by
  rw [Branching.rev_doc, Branching.rev_doc, h.parent, h.seed]

/-- **The branch is named by the seed's fields.** -/
theorem rev_doc_iff (hhash : revHash a.seed = revHash b.seed → a.seed = b.seed) :
    a.doc.rev = b.doc.rev ↔ SameSeed a b := by
  refine ⟨fun h => ?_, SameSeed.rev_doc⟩
  rw [rev_doc, rev_doc] at h
  exact sameSeed_of_seed (hhash (congrArg Rev.hash h))

theorem Agree.doc (h : Agree a b) : a.doc = b.doc := by
  have hseed : branchSeed a.change a.change.deleted a.content =
      branchSeed b.change b.change.deleted b.content := h.toSameSeed.seed
  unfold Branching.doc branchDoc
  rw [hseed, h.toSameSeed.parent, a.path_eq, b.path_eq, h.deleted, h.mtime, h.content,
    h.contentType]

/-! ## One branch for one push -/

/-- **Branches identify their pushes**: two have one revision exactly when
the pushes agree, no branch is put in another's place, and the one that comes
second when they agree adds nothing. -/
structure Identified (C : Couch) (a b : Branching t path) : Prop where
  rev : a.doc.rev = b.doc.rev ↔ Agree a b
  stored : a.doc.rev = b.doc.rev → a.doc = b.doc
  repeated : Agree a b → ∀ db, (C.answer (.bulkDocs b.doc) (C.answer (.bulkDocs a.doc) db).2).2 =
    (C.answer (.bulkDocs a.doc) db).2

/-- What has been branched off is not branched off again. -/
theorem answer_bulkDocs_twice (C : Couch) (doc : BranchDoc) (db : Db) :
    (C.answer (.bulkDocs doc) (C.answer (.bulkDocs doc) db).2).2 =
      (C.answer (.bulkDocs doc) db).2 := by
  cases hf : (db.docs doc.id).find? doc.rev with
  | some n => simp only [Couch.answer, hf]
  | none =>
    have hthere : ∃ m, ((db.write doc.id doc.toNode).docs doc.id).find? doc.rev = some m := by
      rw [Db.write_docs_self]
      exact Tree.exists_find? (n := doc.toNode)
        (List.mem_append_right _ (List.mem_singleton_self doc.toNode))
    obtain ⟨m, hm⟩ := hthere
    simp only [Couch.answer, hf, hm]

/-- **A branch identifies its push exactly when the content type has not to
tell them apart.** -/
theorem identified_iff (C : Couch) (t : Tree) (path : Path) (a b : Branching t path)
    (hhash : revHash a.seed = revHash b.seed → a.seed = b.seed) :
    Identified C a b ↔ (SameSeed a b → a.change.contentType = b.change.contentType) := by
  have hrev := rev_doc_iff hhash
  constructor
  · intro h hsame
    exact (h.rev.1 (hrev.2 hsame)).contentType
  · intro h
    have hagree : a.doc.rev = b.doc.rev ↔ Agree a b :=
      hrev.trans ⟨fun hsame => ⟨hsame, h hsame⟩, Agree.toSameSeed⟩
    refine ⟨hagree, fun heq => (hagree.1 heq).doc, fun hab db => ?_⟩
    rw [hab.doc]
    exact answer_bulkDocs_twice C b.doc db

/-- A push to a path that another device has taken meanwhile. -/
def takenPush (contentType : String) (content : Bytes) : Branching [] "a" where
  change := ⟨"a", false, none, 1, some contentType, some (.encode content)⟩
  content := some content
  parent := ⟨0, []⟩
  path_eq := rfl
  known := rfl
  carries := rfl
  decodes bytes h := by
    obtain rfl := Option.some.inj h
    rfl
  zero := by
    rw [show baseName none = "" from rfl, Bytes.toList_eq_data]
    exact List.not_mem_nil
  i64 := ⟨(by decide : (-2 ^ 63 : ℤ) ≤ 1), (by decide : (1 : ℤ) < 2 ^ 63)⟩

/-- **Two pushes that differ in their content type alone are taken for one**,
though they store different documents. -/
theorem content_type_not_identified :
    ¬ Identified (.counting false) (takenPush "text/plain" [1]) (takenPush "image/png" [1]) := by
  intro h
  have hstored := h.stored (SameSeed.rev_doc ⟨rfl, rfl, rfl, rfl⟩)
  exact absurd (congrArg (fun doc => doc.body.contentType) hstored) (by decide)

/-- Pushes of different contents are told apart. -/
theorem contents_identified :
    Identified (.counting false) (takenPush "text/plain" [1]) (takenPush "text/plain" [2]) :=
  (identified_iff _ _ _ _ _ fun h => absurd h (by decide +kernel)).2 fun _ => rfl

end Branching

end Push

end FileSync
