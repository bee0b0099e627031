import FileSync.Client.Bookkeeping
import FileSync.Client.HandleTree
import FileSync.Hub.Addressing
import FileSync.Model.FileStore
/-!
# The browser's stores as maps

A tree of handles holds a map as long as no two of its places are on one
line from the root. Content is at the places paths lead to, and is a map for
exactly the sets of paths of which no one leads to another or through it; a
key's place is its own, whatever the key.
-/

namespace FileSync

namespace OpfsRoot

variable {α : Type} {P : Platform} {ids : Set String} {place : String → Place} {r r' : OpfsRoot α}
  {m : AList fun _ : String => α} {i : String} {path : String} {x data : α} {q : Place}

/-- **Places that do not meet.** -/
structure Apart (P : Platform) (ids : Set String) (place : String → Place) : Prop where
  ne_nil : ∀ i ∈ ids, place i ≠ []
  valid : ∀ i ∈ ids, ∀ name ∈ place i, P.validName name = true
  apart : ∀ i ∈ ids, ∀ j ∈ ids, i ≠ j → ¬ place i <+: place j

theorem Apart.inj {j : String} (hap : Apart P ids place) (hi : i ∈ ids) (hj : j ∈ ids)
    (h : place i = place j) : i = j := by
  by_contra hne
  exact hap.apart i hi j hj hne (h ▸ List.prefix_rfl)

/-- **The tree holds what the map does**, each file at its place, and only
directories above such places besides. -/
structure Holds (ids : Set String) (place : String → Place) (r : OpfsRoot α)
    (m : AList fun _ : String => α) : Prop where
  file : ∀ p x, r.entries.lookup p = some (.file x) → ∃ i ∈ ids, place i = p ∧ m.lookup i = some x
  here : ∀ i ∈ ids, ∀ x, m.lookup i = some x → r.entries.lookup (place i) = some (.file x)
  dir : ∀ p, r.entries.lookup p = some .dir → ∃ i ∈ ids, p ∈ Disk.parents (place i)
  up : ∀ p x, r.entries.lookup p = some (.file x) →
    ∀ q ∈ Disk.parents p, r.entries.lookup q = some .dir

theorem holds_empty : Holds ids place (.empty : OpfsRoot α) ∅ := by
  constructor
  · intro p x h
    cases h
  · intro i _ x h
    cases h
  · intro p h
    cases h
  · intro p x h
    cases h

namespace Holds

/-- No file is above a place. -/
theorem not_file (h : Holds ids place r m) (hap : Apart P ids place) (hi : i ∈ ids)
    (hq : q ∈ Disk.parents (place i)) (x : α) : r.entries.lookup q ≠ some (.file x) := by
  intro hfile
  obtain ⟨j, hj, rfl, -⟩ := h.file q x hfile
  obtain ⟨hpre, -, hne⟩ := Disk.mem_parents.1 hq
  refine hap.apart j hj i hi (fun hji => hne ?_) hpre
  rw [hji]

/-- No directory is at a place. -/
theorem not_dir (h : Holds ids place r m) (hap : Apart P ids place) (hi : i ∈ ids) :
    r.entries.lookup (place i) ≠ some .dir := by
  intro hdir
  obtain ⟨j, hj, hmem⟩ := h.dir _ hdir
  obtain ⟨hpre, -, hne⟩ := Disk.mem_parents.1 hmem
  refine hap.apart i hi j hj (fun hij => hne ?_) hpre
  rw [hij]

/-- What is at a place is what the map has. -/
theorem lookup_place (h : Holds ids place r m) (hap : Apart P ids place) (hi : i ∈ ids) :
    r.entries.lookup (place i) = (m.lookup i).map .file := by
  cases hlook : r.entries.lookup (place i) with
  | none =>
    cases hm : m.lookup i with
    | none => rfl
    | some x =>
      rw [h.here i hi x hm] at hlook
      cases hlook
  | some e =>
    cases e with
    | dir => exact absurd hlook (h.not_dir hap hi)
    | file x =>
      obtain ⟨j, hj, hplace, hm⟩ := h.file _ x hlook
      obtain rfl := hap.inj hj hi hplace
      rw [hm]
      rfl

variable [Inhabited α]

/-- **Reading.** -/
theorem read (h : Holds ids place r m) (hap : Apart P ids place) (hi : i ∈ ids)
    (hpath : tokens path = place i) : r.read P path = .ok (m.lookup i) := by
  have hplace := h.lookup_place hap hi
  have hne := hap.ne_nil i hi
  have hvalid := hap.valid i hi
  rw [← hpath] at hplace hne hvalid
  cases hm : m.lookup i with
  | none =>
    rw [hm] at hplace
    exact read_of_not_file fun x hx => by
      rw [hplace] at hx
      cases hx
  | some x =>
    rw [hm] at hplace
    exact read_of_file hne hvalid (h.up _ x hplace) hplace

omit [Inhabited α] in
/-- The file is there, with the directories on the way to it, and nothing else
has changed. -/
theorem written (h : Holds ids place r m) (hap : Apart P ids place) (hi : i ∈ ids)
    (hdirs : ∀ q ∈ Disk.parents (place i), r'.entries.lookup q = some .dir)
    (hfile : r'.entries.lookup (place i) = some (.file data))
    (hother : ∀ p, p ∉ Disk.parents (place i) → p ≠ place i →
      r'.entries.lookup p = r.entries.lookup p) :
    Holds ids place r' (m.insert i data) := by
  have hold : ∀ {p x}, p ≠ place i → r'.entries.lookup p = some (.file x) →
      r.entries.lookup p = some (.file x) := by
    intro p x hpi hp
    by_cases hpar : p ∈ Disk.parents (place i)
    · rw [hdirs p hpar] at hp
      cases hp
    · rwa [hother p hpar hpi] at hp
  constructor
  · intro p x hp
    by_cases hpi : p = place i
    · rw [hpi, hfile] at hp
      obtain rfl : data = x := by simpa using hp
      exact ⟨i, hi, hpi.symm, AList.lookup_insert _⟩
    · obtain ⟨j, hj, rfl, hm⟩ := h.file p x (hold hpi hp)
      have hne : j ≠ i := fun hji => hpi (by rw [hji])
      exact ⟨j, hj, rfl, (AList.lookup_insert_ne hne).trans hm⟩
  · intro j hj x hm
    by_cases hji : j = i
    · subst hji
      rw [AList.lookup_insert] at hm
      obtain rfl := Option.some.inj hm
      exact hfile
    rw [AList.lookup_insert_ne hji] at hm
    -- no file's place is on the way to another's
    have hnot : place j ∉ Disk.parents (place i) := fun hmem =>
      hap.apart j hj i hi hji (Disk.mem_parents.1 hmem).1
    rw [hother _ hnot fun heq => hji (hap.inj hj hi heq)]
    exact h.here j hj x hm
  · intro p hp
    by_cases hpi : p = place i
    · rw [hpi, hfile] at hp
      cases hp
    by_cases hpar : p ∈ Disk.parents (place i)
    · exact ⟨i, hi, hpar⟩
    · rw [hother p hpar hpi] at hp
      exact h.dir p hp
  · intro p x hp q hq
    by_cases hpi : p = place i
    · exact hdirs q (hpi ▸ hq)
    have hdir := h.up p x (hold hpi hp) q hq
    by_cases hqpar : q ∈ Disk.parents (place i)
    · exact hdirs q hqpar
    · have hqi : q ≠ place i := by
        rintro rfl
        exact h.not_dir hap hi hdir
      rw [hother q hqpar hqi]
      exact hdir

/-- **Writing.** -/
theorem write (h : Holds ids place r m) (hap : Apart P ids place) (hi : i ∈ ids)
    (hpath : tokens path = place i) (data : α) :
    ∃ r', r.write P path data = (.ok (), r') ∧ Holds ids place r' (m.insert i data) := by
  have hfiles : ∀ q ∈ Disk.parents (tokens path), ∀ x, r.entries.lookup q ≠ some (.file x) := by
    rw [hpath]
    exact fun q hq => h.not_file hap hi hq
  have hnot : r.entries.lookup (tokens path) ≠ some .dir := hpath ▸ h.not_dir hap hi
  obtain ⟨r', hwrite⟩ := write_of_ready (hpath ▸ hap.ne_nil i hi) (hpath ▸ hap.valid i hi) hfiles
    hnot data
  obtain ⟨-, -, hdirs, hfile, hother⟩ := write_ok hwrite
  rw [hpath] at hdirs hfile hother
  exact ⟨r', hwrite, h.written hap hi (fun q hq => (hdirs q hq).1) hfile hother⟩

omit [Inhabited α]

/-- A file is taken out, and the directories on the way to it stay. -/
theorem erased (h : Holds ids place r m) (hap : Apart P ids place) (hi : i ∈ ids) :
    Holds ids place ⟨r.entries.erase (place i)⟩ (m.erase i) := by
  have hold : ∀ {p e}, (r.entries.erase (place i)).lookup p = some e →
      p ≠ place i ∧ r.entries.lookup p = some e := by
    intro p e hp
    have hpi : p ≠ place i := by
      rintro rfl
      rw [AList.lookup_erase] at hp
      cases hp
    exact ⟨hpi, (AList.lookup_erase_ne hpi).symm.trans hp⟩
  constructor
  · intro p y hp
    obtain ⟨hpi, hp⟩ := hold hp
    obtain ⟨j, hj, rfl, hy⟩ := h.file p y hp
    have hji : j ≠ i := fun hji => hpi (by rw [hji])
    exact ⟨j, hj, rfl, (AList.lookup_erase_ne hji).trans hy⟩
  · intro j hj y hy
    have hji : j ≠ i := by
      rintro rfl
      rw [AList.lookup_erase] at hy
      cases hy
    rw [AList.lookup_erase_ne hji] at hy
    rw [AList.lookup_erase_ne fun heq => hji (hap.inj hj hi heq)]
    exact h.here j hj y hy
  · intro p hp
    exact h.dir p (hold hp).2
  · intro p y hp q hq
    have hdir := h.up p y (hold hp).2 q hq
    have hqi : q ≠ place i := by
      rintro rfl
      exact h.not_dir hap hi hdir
    rw [AList.lookup_erase_ne hqi]
    exact hdir

/-- **Removing.** -/
theorem remove (h : Holds ids place r m) (hap : Apart P ids place) (hi : i ∈ ids)
    (hpath : tokens path = place i) :
    ∃ r', r.remove P path = (.ok (), r') ∧ Holds ids place r' (m.erase i) := by
  have hplace := h.lookup_place hap hi
  cases hm : m.lookup i with
  | none =>
    rw [hm] at hplace
    have hsame : ∀ j, (m.erase i).lookup j = m.lookup j := fun j => by
      by_cases hji : j = i
      · rw [hji, AList.lookup_erase, hm]
      · exact AList.lookup_erase_ne hji
    refine ⟨r, remove_of_none (hpath ▸ hap.valid i hi) ?_ (hpath ▸ hplace), ?_⟩
    · rw [hpath]
      exact fun q hq => h.not_file hap hi hq
    · refine ⟨fun p x hp => ?_, fun j hj x hx => h.here j hj x ((hsame j).symm.trans hx), h.dir, h.up⟩
      obtain ⟨j, hj, hjp, hx⟩ := h.file p x hp
      exact ⟨j, hj, hjp, (hsame j).trans hx⟩
  | some x =>
    rw [hm] at hplace
    have hremove : r.remove P path = (.ok (), ⟨r.entries.erase (tokens path)⟩) :=
      remove_of_file (hpath ▸ hap.ne_nil i hi) (hpath ▸ hap.valid i hi)
        (hpath ▸ h.up _ x hplace) (hpath ▸ hplace)
    rw [hpath] at hremove
    exact ⟨_, hremove, h.erased hap hi⟩

end Holds

end OpfsRoot

/-! ## Content -/

namespace OpfsFileStore

open OpfsRoot (Apart Holds)

variable {P : Platform} {root root' : OpfsRoot Bytes} {p q : Path} {data : Bytes}
  {paths : Set Path}

/-- Where a path leads. -/
def place (p : Path) : Place := "content" :: tokens p

theorem tokens_path (p : Path) : tokens (path p) = place p := by
  have hpath : path p = "content" ++ "/" ++ p := by
    rw [path, show "content/" = "content" ++ "/" from rfl]
  have hdir : tokens "content" = ["content"] := by decide
  rw [hpath, Addressing.tokens_append_slash, hdir]
  rfl

/-- **A map from these paths to bytes**: it answers as the in-memory store
does. -/
def IsMap (P : Platform) (paths : Set Path) : Prop :=
  ∀ calls : List FileCall, (∀ c ∈ calls, c.path ∈ paths) →
    FileCall.answers (FileCall.onOpfs P) .empty calls =
      FileCall.answers FileCall.inMemory .empty calls

/-- **What makes them one**: every name is one a handle takes, and no path
leads where another does, or through it. -/
structure Clean (P : Platform) (paths : Set Path) : Prop where
  valid : ∀ p ∈ paths, ∀ name ∈ tokens p, P.validName name = true
  apart : ∀ p ∈ paths, ∀ q ∈ paths, p ≠ q → ¬ tokens p <+: tokens q

/-- Names made of what URLs are written with. -/
theorem validName_of_plain {name : String} (h : name ≠ "") (h' : name ≠ ".") (h'' : name ≠ "..")
    (hchars : ∀ c ∈ name.toList, Percent.isUnreserved c = true ∨ Percent.isEscape c = true) :
    P.validName name = true := by
  have hslash : ¬ (Percent.isUnreserved '/' = true ∨ Percent.isEscape '/' = true) := by decide
  have hnone : (name.toList.any fun c => c = '/' || P.isSeparator c) = false := by
    rw [List.any_eq_false]
    intro c hc
    have hplain := hchars c hc
    have hne : c ≠ '/' := by
      rintro rfl
      exact hslash hplain
    simp [hne, P.plain c hplain]
  simp [Platform.validName, h, h', h'', hnone]

theorem validName_content : P.validName "content" = true :=
  validName_of_plain (by decide) (by decide) (by decide) fun c hc => .inl
    (List.all_eq_true.1 (by decide : "content".toList.all Percent.isUnreserved = true) c hc)

theorem Clean.places (h : Clean P paths) : Apart P paths place where
  ne_nil _ _ := List.cons_ne_nil _ _
  valid p hp := List.forall_mem_cons.2 ⟨validName_content, h.valid p hp⟩
  apart p hp q hq hne hpre := h.apart p hp q hq hne (List.cons_prefix_cons.1 hpre).2

variable {m : AList fun _ : Path => Bytes}

theorem get_eq (h : Holds paths place root m) (hc : Clean P paths) (hp : p ∈ paths) :
    get P root p = .ok (m.lookup p) :=
  h.read hc.places hp (tokens_path p)

theorem put_eq (h : Holds paths place root m) (hc : Clean P paths) (hp : p ∈ paths)
    (data : Bytes) (mtime : ℤ) : (put P root p data mtime).1 = .ok () ∧
      Holds paths place (put P root p data mtime).2 (m.insert p data) := by
  obtain ⟨root', hwrite, hholds⟩ := h.write hc.places hp (tokens_path p) data
  rw [put, hwrite]
  exact ⟨rfl, hholds⟩

theorem delete_eq (h : Holds paths place root m) (hc : Clean P paths) (hp : p ∈ paths) :
    (delete P root p).1 = .ok () ∧ Holds paths place (delete P root p).2 (m.erase p) := by
  obtain ⟨root', hremove, hholds⟩ := h.remove hc.places hp (tokens_path p)
  rw [delete, hremove]
  exact ⟨rfl, hholds⟩

/-- **One call** is answered as in memory, and the tree goes on holding what the
memory does. -/
theorem onOpfs_eq {s : MemStore} (h : Holds paths place root s.files) (hc : Clean P paths)
    {c : FileCall} (hp : c.path ∈ paths) : (c.onOpfs P root).1 = (c.inMemory s).1 ∧
      Holds paths place (c.onOpfs P root).2 (c.inMemory s).2.files := by
  cases c with
  | get p =>
    have hget : get P root p = .ok (s.files.lookup p) := get_eq h hc hp
    refine ⟨?_, h⟩
    simp only [FileCall.onOpfs, hget]
    rfl
  | put p data mtime =>
    obtain ⟨hdone, hholds⟩ : (put P root p data mtime).1 = .ok () ∧
        Holds paths place (put P root p data mtime).2 (s.files.insert p data) :=
      put_eq h hc hp data mtime
    refine ⟨?_, hholds⟩
    simp only [FileCall.onOpfs, hdone]
    rfl
  | delete p =>
    obtain ⟨hdone, hholds⟩ : (delete P root p).1 = .ok () ∧
        Holds paths place (delete P root p).2 (s.files.erase p) := delete_eq h hc hp
    refine ⟨?_, hholds⟩
    simp only [FileCall.onOpfs, hdone]
    rfl

/-- **Clean paths are a map.** -/
theorem isMap_of_clean (hc : Clean P paths) : IsMap P paths := by
  have hrun : ∀ (calls : List FileCall) (root : OpfsRoot Bytes) (s : MemStore),
      Holds paths place root s.files → (∀ c ∈ calls, c.path ∈ paths) →
        FileCall.answers (FileCall.onOpfs P) root calls =
          FileCall.answers FileCall.inMemory s calls := by
    intro calls
    induction calls with
    | nil => exact fun _ _ _ _ => rfl
    | cons c calls ih =>
      intro root s h hcalls
      obtain ⟨hanswer, hholds⟩ := onOpfs_eq h hc (hcalls c List.mem_cons_self)
      exact List.cons_eq_cons.2
        ⟨hanswer, ih _ _ hholds fun c' hc' => hcalls c' (List.mem_cons_of_mem _ hc')⟩
  exact fun calls => hrun calls .empty .empty OpfsRoot.holds_empty

/-- A put that is answered well was written. -/
theorem write_of_answer {mtime : ℤ} (h : (FileCall.onOpfs P root (.put p data mtime)).1 = .ok .done) :
    root.write P (path p) data = (.ok (), (FileCall.onOpfs P root (.put p data mtime)).2) := by
  simp only [FileCall.onOpfs, put] at h ⊢
  cases hwrite : root.write P (path p) data with
  | mk e root' =>
    rw [hwrite] at h
    cases e with
    | error e => cases h
    | ok u => rfl

/-- Where a path leads is all that reading asks. -/
theorem get_congr (h : tokens p = tokens q) : get P root p = get P root q := by
  have hpath : tokens (path p) = tokens (path q) := by
    rw [tokens_path, tokens_path, place, h, place]
  simp only [get, OpfsRoot.read, OpfsRoot.fileHandle, hpath]

/-- **The browser's file store is a map** on exactly the sets of paths that are
clean. -/
theorem isMap_iff (P : Platform) (paths : Set Path) : IsMap P paths ↔ Clean P paths := by
  refine ⟨fun h => ⟨fun p hp => ?_, fun p hp q hq hne hpre => ?_⟩, isMap_of_clean⟩
  · -- a name no handle takes is refused at once
    have hput := List.cons_eq_cons.1 (h [.put p [] 0] (List.forall_mem_singleton.2 hp))
    obtain ⟨-, hvalid, -⟩ := OpfsRoot.write_ok (write_of_answer hput.1)
    rw [tokens_path] at hvalid
    exact fun name hname => hvalid name (List.mem_cons_of_mem _ hname)
  · have hfirst := List.cons_eq_cons.1 (h [.put p [0] 0] (List.forall_mem_singleton.2 hp))
    obtain ⟨-, -, -, hfile, -⟩ := OpfsRoot.write_ok (write_of_answer hfirst.1)
    rw [tokens_path] at hfile
    by_cases heq : tokens p = tokens q
    · -- what is put under the one is found under the other
      have hboth := h [.put p [0] 0, .get q] (List.forall_mem_cons.2
        ⟨hp, List.forall_mem_singleton.2 hq⟩)
      have hsame := h [.put p [0] 0, .get p] (List.forall_mem_cons.2
        ⟨hp, List.forall_mem_singleton.2 hp⟩)
      have hother := (List.cons_eq_cons.1 (List.cons_eq_cons.1 hboth).2).1
      have hself := (List.cons_eq_cons.1 (List.cons_eq_cons.1 hsame).2).1
      simp only [FileCall.onOpfs, FileCall.inMemory] at hother hself
      rw [get_congr heq] at hself
      rw [hself, AList.lookup_insert, AList.lookup_insert_ne (Ne.symm hne)] at hother
      cases hother
    · -- the file of the one is in the way of the other
      have hboth := h [.put p [0] 0, .put q [0] 0] (List.forall_mem_cons.2
        ⟨hp, List.forall_mem_singleton.2 hq⟩)
      have hsecond := (List.cons_eq_cons.1 (List.cons_eq_cons.1 hboth).2).1
      obtain ⟨-, -, hdirs, -⟩ := OpfsRoot.write_ok (write_of_answer hsecond)
      rw [tokens_path] at hdirs
      have hmem : place p ∈ Disk.parents (place q) := Disk.mem_parents.2
        ⟨List.cons_prefix_cons.2 ⟨rfl, hpre⟩, List.cons_ne_nil _ _, fun hpl =>
          heq (List.cons_inj_right _ |>.1 hpl)⟩
      exact (hdirs _ hmem).2 _ hfile

end OpfsFileStore

/-! ## Bookkeeping -/

namespace OpfsMetaStore

open Bookkeeping (IsKey)
open OpfsRoot (Apart Holds)

variable {P : Platform} {E : UrlEncoding} {root root' : OpfsRoot Blob} {key : String}
  {m : AList fun _ : String => Blob}

/-- A key's place. -/
def place (E : UrlEncoding) (key : String) : Place := ["meta", E.encode key]

/-- A key's name begins with a letter. -/
theorem head_encode (h : IsKey key) : ∃ c cs, (E.encode key).toList = c :: cs ∧ c ≠ '.' := by
  obtain ⟨c, cs, hkey, hc, hne⟩ := h.head
  refine ⟨c, E.chars cs, ?_, hne⟩
  rw [E.toList_encode, hkey, ← List.singleton_append, E.chars_append, E.chars_singleton,
    E.encode_unreserved c hc, String.toList_singleton, List.singleton_append]

theorem validName_encode (h : IsKey key) : P.validName (E.encode key) = true := by
  obtain ⟨c, cs, hname, hne⟩ := head_encode (E := E) h
  have hdot : ∀ cs', (E.encode key).toList ≠ '.' :: cs' := fun cs' heq => by
    rw [hname] at heq
    exact hne (List.cons_eq_cons.1 heq).1
  refine OpfsFileStore.validName_of_plain (fun heq => ?_) (fun heq => hdot [] (by rw [heq]; rfl))
    (fun heq => hdot ['.'] (by rw [heq]; rfl)) ?_
  · rw [heq] at hname
    cases hname
  · rw [E.toList_encode]
    exact E.unreserved_or_escape _

theorem validName_meta : P.validName "meta" = true :=
  OpfsFileStore.validName_of_plain (by decide) (by decide) (by decide) fun c hc => .inl
    (List.all_eq_true.1 (by decide : "meta".toList.all Percent.isUnreserved = true) c hc)

theorem tokens_path (h : IsKey key) : tokens (path E key) = place E key := by
  have hpath : path E key = "meta" ++ "/" ++ E.encode key := by
    rw [path, show "meta/" = "meta" ++ "/" from rfl]
  have hdir : tokens "meta" = ["meta"] := by decide
  obtain ⟨c, cs, hname, -⟩ := head_encode (E := E) h
  have hne : E.encode key ≠ "" := by
    intro heq
    rw [heq] at hname
    cases hname
  have hslash : '/' ∉ (E.encode key).toList := by
    intro hmem
    rw [E.toList_encode] at hmem
    have hplain := E.unreserved_or_escape _ _ hmem
    revert hplain
    decide
  rw [hpath, Addressing.tokens_append_slash, hdir, Addressing.tokens_of_not_mem hslash, if_neg hne]
  rfl

/-- **No two keys' places meet.** -/
theorem places (P : Platform) (E : UrlEncoding) : Apart P {key | IsKey key} (place E) where
  ne_nil _ _ := List.cons_ne_nil _ _
  valid key hkey := List.forall_mem_cons.2
    ⟨validName_meta, List.forall_mem_singleton.2 (validName_encode hkey)⟩
  apart key _ key' _ hne hpre := by
    have hname := (List.cons_prefix_cons.1 hpre).2
    exact hne (E.encode_injective (List.cons_prefix_cons.1 hname).1)

theorem get_eq (h : Holds {key | IsKey key} (place E) root m) (hkey : IsKey key) :
    get P E root key = .ok (m.lookup key) :=
  h.read (places P E) hkey (tokens_path hkey)

theorem put_eq (h : Holds {key | IsKey key} (place E) root m) (hkey : IsKey key) (value : Blob) :
    (put P E root key value).1 = .ok () ∧
      Holds {key | IsKey key} (place E) (put P E root key value).2 (m.insert key value) := by
  obtain ⟨root', hwrite, hholds⟩ := h.write (places P E) hkey (tokens_path hkey) value
  rw [put, hwrite]
  exact ⟨rfl, hholds⟩

theorem delete_eq (h : Holds {key | IsKey key} (place E) root m) (hkey : IsKey key) :
    (delete P E root key).1 = .ok () ∧
      Holds {key | IsKey key} (place E) (delete P E root key).2 (m.erase key) := by
  obtain ⟨root', hremove, hholds⟩ := h.remove (places P E) hkey (tokens_path hkey)
  rw [delete, hremove]
  exact ⟨rfl, hholds⟩

/-! ### Listing -/

theorem listedIn_eq_some {p : Place} {e : OpfsEntry Blob} {name : String} :
    OpfsRoot.listedIn ["meta"] p e = some name ↔ p = ["meta", name] ∧ ∃ b, e = .file b := by
  cases e with
  | dir => simp [OpfsRoot.listedIn]
  | file b =>
    constructor
    · intro h
      rw [OpfsRoot.listedIn] at h
      by_cases hdir : p.dropLast = ["meta"]
      · rw [if_pos hdir] at h
        obtain ⟨p', last, rfl⟩ : ∃ p' last, p = p' ++ [last] := by
          rcases List.eq_nil_or_concat' p with rfl | hp
          · cases h
          · exact hp
        rw [List.dropLast_concat] at hdir
        rw [List.getLast?_concat] at h
        rw [hdir, Option.some.inj h]
        exact ⟨rfl, b, rfl⟩
      · rw [if_neg hdir] at h
        cases h
    · rintro ⟨rfl, -⟩
      rfl

/-- A key that is kept has its file. -/
theorem lookup_of_mem_keys (h : Holds {key | IsKey key} (place E) root m)
    (hm : ∀ key ∈ m.keys, IsKey key) {key : String} (hkey : key ∈ m.keys) :
    ∃ b, root.entries.lookup (place E key) = some (.file b) := by
  obtain ⟨b, hb⟩ := Option.isSome_iff_exists.1 (AList.lookup_isSome.2 (AList.mem_keys.2 hkey))
  exact ⟨b, h.here key (hm key hkey) b hb⟩

/-- Two entries of one name would be at one place. -/
theorem nodup_listed :
    (root.entries.entries.filterMap fun s => OpfsRoot.listedIn ["meta"] s.1 s.2).Nodup := by
  refine List.pairwise_filterMap.2 ((List.nodupKeys_iff_pairwise.1
    root.entries.nodupKeys).imp ?_)
  intro s s' hne name hname name' hname' heq
  obtain ⟨hp, -⟩ := listedIn_eq_some.1 hname
  obtain ⟨hp', -⟩ := listedIn_eq_some.1 hname'
  exact hne (by rw [hp, hp', heq])

theorem mem_listed (h : Holds {key | IsKey key} (place E) root m)
    (hm : ∀ key ∈ m.keys, IsKey key) {name : String} :
    name ∈ (root.entries.entries.filterMap fun s => OpfsRoot.listedIn ["meta"] s.1 s.2) ↔
      ∃ key ∈ m.keys, E.encode key = name := by
  rw [List.mem_filterMap]
  constructor
  · rintro ⟨⟨p, e⟩, hmem, hname⟩
    obtain ⟨rfl, b, rfl⟩ := listedIn_eq_some.1 hname
    have hlook := AList.mem_lookup_iff.2 hmem
    obtain ⟨key, -, hplace, hb⟩ := h.file _ b hlook
    refine ⟨key, AList.mem_keys.1 (AList.lookup_isSome.1 (by rw [hb]; rfl)), ?_⟩
    simpa [place] using hplace
  · rintro ⟨key, hkey, rfl⟩
    obtain ⟨b, hb⟩ := lookup_of_mem_keys h hm hkey
    exact ⟨⟨place E key, .file b⟩, AList.mem_lookup_iff.1 hb,
      listedIn_eq_some.2 ⟨rfl, b, rfl⟩⟩

/-- **The names that are listed** are those of the keys there are. -/
theorem list_names (h : Holds {key | IsKey key} (place E) root m) (hm : ∀ key ∈ m.keys, IsKey key) :
    ∃ names, root.list P "meta" = .ok names ∧ names.Nodup ∧
      ∀ name, name ∈ names ↔ ∃ key ∈ m.keys, E.encode key = name := by
  have htokens : tokens "meta" = ["meta"] := by decide
  cases hdir : root.entries.lookup ["meta"] with
  | none =>
    have hwalk : (root.walk P false [] (tokens "meta")).1 = .error .notFoundError := by
      simp [htokens, OpfsRoot.walk, OpfsRoot.getDirectoryHandle, validName_meta, hdir]
    -- a key's file would have the directory above it
    have hnone : ∀ key, key ∉ m.keys := fun key hkey => by
      obtain ⟨b, hb⟩ := lookup_of_mem_keys h hm hkey
      have hup := h.up _ b hb ["meta"] (Disk.mem_parents.2
        ⟨⟨[E.encode key], rfl⟩, List.cons_ne_nil _ _, by simp [place]⟩)
      rw [hdir] at hup
      cases hup
    refine ⟨[], by simp only [OpfsRoot.list, hwalk], List.nodup_nil, fun name => ?_⟩
    simp only [List.not_mem_nil, false_iff]
    rintro ⟨key, hkey, -⟩
    exact hnone key hkey
  | some e =>
    cases e with
    | file b =>
      obtain ⟨key, -, hplace, -⟩ := h.file _ b hdir
      simp [place] at hplace
    | dir =>
      have hwalk : (root.walk P false [] (tokens "meta")).1 = .ok ["meta"] := by
        simp [htokens, OpfsRoot.walk, OpfsRoot.getDirectoryHandle, validName_meta, hdir]
      exact ⟨_, by simp only [OpfsRoot.list, hwalk], nodup_listed, fun name => mem_listed h hm⟩

/-- **Listing.** -/
theorem listKeys_perm (h : Holds {key | IsKey key} (place E) root m)
    (hm : ∀ key ∈ m.keys, IsKey key) (start : String) :
    ∃ keys, listKeys P E root start = .ok keys ∧
      keys.Perm (m.keys.filter (startsWith start)) := by
  obtain ⟨names, hlist, hnodup, hmem⟩ := list_names (P := P) h hm
  refine ⟨(names.filterMap E.decode).filter (startsWith start), ?_, List.Perm.filter _ ?_⟩
  · rw [listKeys, hlist]
    rfl
  refine (List.perm_ext_iff_of_nodup ?_ m.nodupKeys).2 fun key => ?_
  · refine List.pairwise_filterMap.2 (hnodup.imp_of_mem ?_)
    intro name name' hname hname' hne key hkey key' hkey' heq
    obtain ⟨k, -, rfl⟩ := (hmem name).1 hname
    obtain ⟨k', -, rfl⟩ := (hmem name').1 hname'
    rw [E.decode_encode] at hkey hkey'
    obtain rfl := Option.some.inj hkey
    obtain rfl := Option.some.inj hkey'
    exact hne (by rw [heq])
  · rw [List.mem_filterMap]
    constructor
    · rintro ⟨name, hname, hdecode⟩
      obtain ⟨k, hk, rfl⟩ := (hmem name).1 hname
      rw [E.decode_encode] at hdecode
      exact Option.some.inj hdecode ▸ hk
    · exact fun hkey => ⟨_, (hmem _).2 ⟨key, hkey, rfl⟩, E.decode_encode key⟩

end OpfsMetaStore

end FileSync
