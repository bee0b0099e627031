import FileSync.Model.FileStore
import FileSync.Client.Directory
/-!
# The file store as a map

A map from paths to bytes would answer as the in-memory store does. The
directory does so for a set of paths of which no two lead to one place or
through one another, none asks for a directory, and none runs into the
temporary file of another.
-/

namespace FileSync

namespace FileMap

open Disk
open FsFileStore (pathFor tmpName Occasion)

/-- **A map from these paths to bytes**: what is accepted is inside the
root, two paths are two files, and all answers are those of the in-memory
store. -/
structure IsMap (paths : Set Path) : Prop where
  inside : ∀ p ∈ paths, ∀ l, pathFor p = .ok l → l.place ≠ [] ∧ Named l.place
  apart : ∀ p ∈ paths, ∀ q ∈ paths, p ≠ q → ∀ l m, pathFor p = .ok l → pathFor q = .ok m →
    l.place ≠ m.place
  answers : ∀ calls : List (FileCall × Occasion), (∀ c ∈ calls, c.1.path ∈ paths) →
    FileCall.diskAnswers .empty calls = FileCall.memAnswers .empty (calls.map Prod.fst)

/-- **What makes them one.** -/
structure Clean (paths : Set Path) : Prop where
  /-- No accepted path is the root, asks for a directory, or has a name no
  file can have. -/
  plain : ∀ p ∈ paths, ∀ l, pathFor p = .ok l →
    l.place ≠ [] ∧ l.dirOnly = false ∧ ∀ name ∈ l.place, hasNul name = false
  /-- None leads to the place of another, or through it. -/
  apart : ∀ p ∈ paths, ∀ q ∈ paths, p ≠ q → ∀ l m, pathFor p = .ok l → pathFor q = .ok m →
    ¬ l.place <+: m.place
  /-- None leads to or through the name of a temporary file beside another. -/
  temps : ∀ p ∈ paths, ∀ q ∈ paths, p ≠ q → ∀ l m, pathFor p = .ok l → pathFor q = .ok m →
    ∀ pid n, ¬ tmpPlace (tmpName pid n) m.place <+: l.place

variable {d d' : Disk} {l m : Location} {tmp : String} {c data : Bytes} {t mtime : ℤ}
  {p q path : Path} {q' r : Place} {paths : Set Path} {s : MemStore} {o : Occasion}

/-! ## What a put does -/

/-- **Without links** a place is where it says. -/
theorem eq_of_walk {jump : ℕ → Place → Except IoError (Place × ℕ)} {k k' : ℕ} {here : Place}
    {names : List String} (h : ∀ r, d.links.lookup r = none)
    (hwalk : d.walk jump k here names = .ok (r, k')) : r = here ++ names := by
  induction names generalizing here with
  | nil =>
    obtain ⟨rfl, -⟩ := Prod.mk.inj (Except.ok.inj hwalk)
    rw [List.append_nil]
  | cons name names ih =>
    rw [walk, h] at hwalk
    dsimp only at hwalk
    split at hwalk
    · cases hwalk
    · rw [ih hwalk, List.append_assoc, List.singleton_append]

theorem eq_of_follow (h : ∀ r, d.links.lookup r = none) (hr : d.follow q' = .ok r) : r = q' := by
  unfold follow at hr
  split at hr
  · cases hr
  cases hwalk : d.walkFrom maxLinks maxLinks q' with
  | error e =>
    rw [hwalk] at hr
    cases hr
  | ok w =>
    rw [hwalk] at hr
    obtain rfl := Except.ok.inj hr
    exact eq_of_walk h (show d.walk _ _ [] q' = .ok (w.1, w.2) from hwalk)

theorem unreachable_eq_false : d.unreachable r = false ↔
    (∀ q ∈ Disk.parents r, d.isFile q = false) ∧ ∀ name ∈ r, hasNul name = false := by
  simp [unreachable]

/-- A put will be done. -/
structure Ready (d : Disk) (tmp : String) (l : Location) : Prop where
  ne_root : l.place ≠ []
  parents : ∀ r ∈ Disk.parents l.place, d.isFile r = false
  names : ∀ name ∈ l.place, hasNul name = false
  tmp : (d.makeParents l.place).entries.lookup (tmpPlace tmp l.place) ≠ some .dir
  place : (d.makeParents l.place).entries.lookup l.place ≠ some .dir
  file : l.dirOnly = false

/-- **What a put leaves**: the file, the directories above it, and no
temporary file. -/
def Puts (d : Disk) (tmp : String) (l : Location) (c : Bytes) (t : ℤ) (d' : Disk) : Prop :=
  ∀ r, d'.entries.lookup r =
    if r = l.place then some (.file c t)
    else if r = tmpPlace tmp l.place then none
    else (d.makeParents l.place).entries.lookup r

theorem tmpPlace_ne_nil : tmpPlace tmp r ≠ [] := by simp [tmpPlace]

/-- The temporary file is beside the place, not above it. -/
theorem tmpPlace_not_mem_parents : tmpPlace tmp r ∉ Disk.parents r := by
  intro h
  obtain ⟨hpre, -, hne⟩ := mem_parents.1 h
  refine hne (hpre.eq_of_length_le ?_)
  simp only [tmpPlace, List.length_append, List.length_dropLast, List.length_singleton]
  omega

theorem isFile_eq_false :
    d.isFile r = false ↔ r = [] ∨ ∀ c t, d.entries.lookup r ≠ some (.file c t) := by
  rw [← Bool.not_eq_true, isFile_eq_true]
  by_cases h : r = []
  · simp [entry, h]
  · simp [entry_of_ne h, h]

/-- Nothing above a place becomes a file by making its parents. -/
theorem isFile_makeParents (r' : Place) : (d.makeParents r).isFile r' = d.isFile r' := by
  have hfile := @fileAt_makeParents d r r'
  by_cases h : r' = []
  · simp [isFile, entry, h]
  · unfold fileAt at hfile
    unfold isFile
    rw [entry_of_ne h, entry_of_ne h]
    split at hfile <;> split at hfile <;> simp_all

theorem createParents_of_ready (h : Ready d tmp l) :
    d.createParents l.place = (.ok (), d.makeParents l.place) := by
  have hfiles : (Disk.parents l.place).any d.isFile = false := by
    simpa using h.parents
  have hnames : l.place.dropLast.any hasNul = false := by
    simpa using fun name hname => h.names name (List.dropLast_subset _ hname)
  simp [createParents, hfiles, hnames]

theorem isFile_insert_of_ne {e : Entry} (h : q' ≠ r) :
    { d with entries := d.entries.insert r e }.isFile q' = d.isFile q' := by
  by_cases h0 : q' = []
  · simp [isFile, entry, h0]
  · simp [isFile, entry_of_ne h0, AList.lookup_insert_ne h]

/-- **A put that is ready is done.** -/
theorem putVia_of_ready (h : Ready d tmp l) (c : Bytes) (t : ℤ) :
    ∃ d', d.putVia tmp l c t = (.ok (), d') ∧ d'.links = d.links ∧ Puts d tmp l c t d' := by
  obtain ⟨d₂, hd₂⟩ : ∃ d₂ : Disk, d₂ = { d.makeParents l.place with
      entries := (d.makeParents l.place).entries.insert (tmpPlace tmp l.place) (.file c t) } :=
    ⟨_, rfl⟩
  have hwrite : (d.makeParents l.place).write (tmpPlace tmp l.place) c t = (.ok (), d₂) := by
    unfold write
    rw [entry_of_ne tmpPlace_ne_nil]
    split
    · exact absurd ‹_› h.tmp
    · rw [hd₂]
  have hput : d.putVia tmp l c t = d₂.rename (tmpPlace tmp l.place) l := by
    unfold putVia
    rw [if_neg h.ne_root, createParents_of_ready h]
    simp only [hwrite]
  have htmp : d₂.entries.lookup (tmpPlace tmp l.place) = some (.file c t) := by
    rw [hd₂]
    exact AList.lookup_insert _
  have hother : ∀ r, r ≠ tmpPlace tmp l.place →
      d₂.entries.lookup r = (d.makeParents l.place).entries.lookup r := fun r hr => by
    rw [hd₂]
    exact AList.lookup_insert_ne hr
  have hreach : d₂.unreachable l.place = false := by
    refine unreachable_eq_false.2 ⟨fun r hr => ?_, fun name hname => ?_⟩
    · rw [hd₂, isFile_insert_of_ne fun heq => tmpPlace_not_mem_parents (heq ▸ hr)]
      exact (isFile_makeParents r).trans (h.parents r hr)
    · exact h.names name hname
  have hlinks : d₂.links = d.links := by rw [hd₂]; rfl
  have hentry : d₂.entry l.place ≠ some .dir := by
    rw [entry_of_ne h.ne_root]
    by_cases heq : l.place = tmpPlace tmp l.place
    · rw [heq, htmp]
      simp
    · rw [hother _ heq]
      exact h.place
  have hrename : d₂.rename (tmpPlace tmp l.place) l =
      if tmpPlace tmp l.place = l.place then (.ok (), d₂)
      else (.ok (), { d₂ with
        entries := (d₂.entries.erase (tmpPlace tmp l.place)).insert l.place (.file c t) }) := by
    unfold rename
    simp only [htmp, hreach, h.file, Bool.false_eq_true, if_false]
  rw [hput, hrename]
  -- a path may be named like the temporary file of its own put
  by_cases heq : tmpPlace tmp l.place = l.place
  · refine ⟨d₂, if_pos heq, hlinks, fun r => ?_⟩
    by_cases hr : r = l.place
    · rw [if_pos hr, hr, ← heq, htmp]
    · have hr' : r ≠ tmpPlace tmp l.place := fun h => hr (h.trans heq)
      rw [if_neg hr, if_neg hr', hother r hr']
  · refine ⟨_, if_neg heq, hlinks, fun r => ?_⟩
    by_cases hr : r = l.place
    · rw [if_pos hr, hr]
      exact AList.lookup_insert _
    rw [if_neg hr, AList.lookup_insert_ne hr]
    by_cases hr' : r = tmpPlace tmp l.place
    · rw [if_pos hr', hr', AList.lookup_erase]
    · rw [if_neg hr', AList.lookup_erase_ne hr', hother r hr']

/-- **A put that is done was ready.** -/
theorem ready_of_putVia (h : (d.putVia tmp l c t).1 = .ok ()) : Ready d tmp l := by
  have hne : l.place ≠ [] := by
    intro h0
    simp [putVia, h0] at h
  -- each call went through: the directories, the write and the renaming
  unfold putVia at h
  rw [if_neg hne] at h
  by_cases hblocked : ((Disk.parents l.place).any d.isFile || l.place.dropLast.any hasNul) = true
  · simp [createParents, hblocked] at h
  simp only [createParents, if_neg hblocked] at h
  by_cases htmp : (d.makeParents l.place).entries.lookup (tmpPlace tmp l.place) = some .dir
  · simp [write, entry_of_ne tmpPlace_ne_nil, htmp] at h
  have hwrite : (d.makeParents l.place).write (tmpPlace tmp l.place) c t = (.ok (),
      { d.makeParents l.place with
        entries := (d.makeParents l.place).entries.insert (tmpPlace tmp l.place) (.file c t) }) := by
    unfold write
    rw [entry_of_ne tmpPlace_ne_nil]
    split
    · exact absurd ‹_› htmp
    · rfl
  simp only [hwrite, rename, AList.lookup_insert] at h
  obtain ⟨d₂, hd₂⟩ : ∃ d₂ : Disk, d₂ = { d.makeParents l.place with
      entries := (d.makeParents l.place).entries.insert (tmpPlace tmp l.place) (.file c t) } :=
    ⟨_, rfl⟩
  rw [← hd₂] at h
  by_cases hreach : d₂.unreachable l.place = true
  · simp [hreach] at h
  obtain ⟨-, hnames⟩ := unreachable_eq_false.1 (by simpa using hreach)
  rw [if_neg hreach] at h
  have hentry : d₂.entry l.place ≠ some .dir := fun hdir => by simp [hdir] at h
  have honly : l.dirOnly = false := by
    by_contra honly
    have htrue : l.dirOnly = true := by simpa using honly
    rw [if_pos htrue] at h
    split at h <;> cases h
  have hplace : (d.makeParents l.place).entries.lookup l.place ≠ some .dir := by
    intro hdir
    by_cases heq : l.place = tmpPlace tmp l.place
    · exact htmp (heq ▸ hdir)
    · refine hentry ?_
      rw [entry_of_ne hne, hd₂]
      exact (AList.lookup_insert_ne heq).trans hdir
  simp only [Bool.not_eq_true, Bool.or_eq_false_iff] at hblocked
  refine ⟨hne, ?_, fun name hname => ?_, htmp, hplace, honly⟩
  · simpa using hblocked.1
  · exact hnames name hname

/-! ## A clean set of paths is a map -/

/-- A place that is neither that of one of the paths nor above one. -/
def Beside (paths : Set Path) (r : Place) : Prop :=
  ∀ p ∈ paths, ∀ l, pathFor p = .ok l → ¬ r <+: l.place

/-- **The directory holds what the in-memory store does**, under the places
of these paths, and besides only directories above them and files that are
not in the way. -/
structure Rel (paths : Set Path) (d : Disk) (s : MemStore) : Prop where
  file : ∀ r c t, d.entries.lookup r = some (.file c t) → Beside paths r ∨
    ∃ p ∈ paths, ∃ l, pathFor p = .ok l ∧ l.place = r ∧ s.files.lookup p = some c
  dir : ∀ r, d.entries.lookup r = some .dir →
    ∃ p ∈ paths, ∃ l, pathFor p = .ok l ∧ r ∈ Disk.parents l.place
  here : ∀ p ∈ paths, ∀ l, pathFor p = .ok l → ∀ c, s.files.lookup p = some c →
    ∃ t, d.entries.lookup l.place = some (.file c t)
  links : ∀ r, d.links.lookup r = none

theorem rel_empty : Rel paths .empty .empty := by
  constructor
  · intro r c t h
    cases h
  · intro r h
    cases h
  · intro p _ l _ c h
    cases h
  · exact fun _ => rfl

theorem Clean.eq_of_place (hc : Clean paths) (hp : p ∈ paths) (hq : q ∈ paths)
    (hl : pathFor p = .ok l) (hm : pathFor q = .ok m) (h : l.place = m.place) : p = q := by
  by_contra hne
  exact hc.apart p hp q hq hne l m hl hm (h ▸ List.prefix_rfl)

namespace Rel

/-- Nothing above a path's place is a file. -/
theorem isFile_parents (h : Rel paths d s) (hc : Clean paths) (hp : p ∈ paths)
    (hl : pathFor p = .ok l) : ∀ r ∈ Disk.parents l.place, d.isFile r = false := by
  intro r hr
  obtain ⟨hpre, hne, hne'⟩ := mem_parents.1 hr
  refine isFile_eq_false.2 (.inr fun c t hfile => ?_)
  obtain hbeside | ⟨q, hq, m, hm, rfl, -⟩ := h.file r c t hfile
  · exact hbeside p hp l hl hpre
  have hpq : q ≠ p := by
    rintro rfl
    rw [hl] at hm
    obtain rfl := Except.ok.inj hm
    exact hne' rfl
  exact hc.apart q hq p hp hpq m l hm hl hpre

theorem not_dir (h : Rel paths d s) (hc : Clean paths) (hp : p ∈ paths)
    (hl : pathFor p = .ok l) : d.entries.lookup l.place ≠ some .dir := by
  intro hdir
  obtain ⟨q, hq, m, hm, hmem⟩ := h.dir _ hdir
  obtain ⟨hpre, -, hne⟩ := mem_parents.1 hmem
  have hpq : p ≠ q := by
    rintro rfl
    rw [hl] at hm
    obtain rfl := Except.ok.inj hm
    exact hne rfl
  exact hc.apart p hp q hq hpq l m hl hm hpre

/-- What is at a path's place is what the in-memory store has. -/
theorem at_place (h : Rel paths d s) (hc : Clean paths) (hp : p ∈ paths)
    (hl : pathFor p = .ok l) :
    d.entries.lookup l.place = none ∧ s.files.lookup p = none ∨
      ∃ c t, d.entries.lookup l.place = some (.file c t) ∧ s.files.lookup p = some c := by
  cases hlook : d.entries.lookup l.place with
  | none =>
    refine .inl ⟨rfl, ?_⟩
    cases hfile : s.files.lookup p with
    | none => rfl
    | some c =>
      obtain ⟨t, ht⟩ := h.here p hp l hl c hfile
      rw [hlook] at ht
      cases ht
  | some e =>
    cases e with
    | dir => exact absurd hlook (h.not_dir hc hp hl)
    | file c t =>
      obtain hbeside | ⟨q, hq, m, hm, hplace, hfile⟩ := h.file _ c t hlook
      · exact absurd List.prefix_rfl (hbeside p hp l hl)
      obtain rfl := hc.eq_of_place hq hp hm hl hplace
      exact .inr ⟨c, t, rfl, hfile⟩

/-- Nothing is on the way to it. -/
theorem clear (h : Rel paths d s) (hc : Clean paths) (hp : p ∈ paths) (hl : pathFor p = .ok l) :
    d.Clear l.place := by
  refine ⟨fun r hr => ⟨h.links r, h.isFile_parents hc hp hl r hr⟩, h.links _, fun name hname => ?_⟩
  obtain ⟨hempty, hdot, hdots, hslash⟩ := FsFileStore.named_of_pathFor hl name hname
  exact .inr ⟨hempty, hdot, hdots, hslash,
    by simpa [hasNul] using (hc.plain p hp l hl).2.2 name hname⟩

/-- **Reading.** -/
theorem get (h : Rel paths d s) (hc : Clean paths) (hp : p ∈ paths) (hl : pathFor p = .ok l) :
    FsFileStore.get d p = .ok (s.files.lookup p) := by
  obtain ⟨hne, honly, -⟩ := hc.plain p hp l hl
  have hfollow := follow_of_clear (h.clear hc hp hl)
  rcases h.at_place hc hp hl with ⟨hlook, hfile⟩ | ⟨c, t, hlook, hfile⟩
  · have hread : d.read l = .error .notFound := by
      simp [Disk.read, hfollow, entry_of_ne hne, hlook]
    simp only [FsFileStore.get, hl, hfile, bind, Except.bind, hread]
    rfl
  · have hread : d.read l = .ok c := by
      simp [Disk.read, hfollow, entry_of_ne hne, hlook, honly]
    simp only [FsFileStore.get, hl, hfile, bind, Except.bind, hread]
    rfl

/-- **Deleting.** -/
theorem delete (h : Rel paths d s) (hc : Clean paths) (hp : p ∈ paths)
    (hl : pathFor p = .ok l) : (FsFileStore.delete d p).1 = .ok () ∧
      Rel paths (FsFileStore.delete d p).2 { s with files := s.files.erase p } := by
  obtain ⟨hne, honly, -⟩ := hc.plain p hp l hl
  have hclear := h.clear hc hp hl
  have hfollow := followAbove_of_open hne hclear.above hclear.names
  have hrest : ∀ q, q ≠ p → (s.files.erase p).lookup q = s.files.lookup q := fun q hq =>
    AList.lookup_erase_ne hq
  -- nothing at the place, or the file that is taken away; no other path is there
  rcases h.at_place hc hp hl with ⟨hlook, hfile⟩ | ⟨c, t, hlook, -⟩
  · have hremove : d.remove l = (.error .notFound, d) := by
      simp [Disk.remove, hfollow, entry_of_ne hne, hlook, hclear.here]
    have hdelete : FsFileStore.delete d p = (.ok (), d) := by
      simp only [FsFileStore.delete, hl, hremove]
    rw [hdelete]
    have hsame : ∀ q, (s.files.erase p).lookup q = s.files.lookup q := fun q => by
      by_cases hq : q = p
      · rw [hq, AList.lookup_erase, hfile]
      · exact hrest q hq
    refine ⟨rfl, fun r c t hr => ?_, h.dir, fun q hq m hm c hqc => ?_, h.links⟩
    · refine (h.file r c t hr).imp_right ?_
      rintro ⟨q, hq, m, hm, hplace, hqc⟩
      exact ⟨q, hq, m, hm, hplace, (hsame q).trans hqc⟩
    · exact h.here q hq m hm c ((hsame q).symm.trans hqc)
  · have hremove : d.remove l = (.ok (), d.erase l.place) := by
      simp [Disk.remove, hfollow, entry_of_ne hne, hlook, honly]
    have hdelete : FsFileStore.delete d p = (.ok (), d.erase l.place) := by
      simp only [FsFileStore.delete, hl, hremove]
      rfl
    rw [hdelete]
    have hother : ∀ r, r ≠ l.place → (d.entries.erase l.place).lookup r = d.entries.lookup r :=
      fun r hr => AList.lookup_erase_ne hr
    have hgone : (d.entries.erase l.place).lookup l.place = none := AList.lookup_erase ..
    refine ⟨rfl, fun r c t hr => ?_, fun r hr => ?_, fun q hq m hm c hqc => ?_, fun r => ?_⟩
    · have hne' : r ≠ l.place := by
        rintro rfl
        exact absurd (hgone.symm.trans hr) (by simp)
      refine (h.file r c t ((hother r hne').symm.trans hr)).imp_right ?_
      rintro ⟨q, hq, m, hm, rfl, hqc⟩
      have hqp : q ≠ p := by
        rintro rfl
        rw [hl] at hm
        obtain rfl := Except.ok.inj hm
        exact hne' rfl
      exact ⟨q, hq, m, hm, rfl, (hrest q hqp).trans hqc⟩
    · have hne' : r ≠ l.place := by
        rintro rfl
        exact absurd (hgone.symm.trans hr) (by simp)
      exact h.dir r ((hother r hne').symm.trans hr)
    · have hqp : q ≠ p := by
        rintro rfl
        have hnone : (s.files.erase q).lookup q = none := AList.lookup_erase ..
        exact absurd (hnone.symm.trans hqc) (by simp)
      obtain ⟨t', ht'⟩ := h.here q hq m hm c ((hrest q hqp).symm.trans hqc)
      have hplace : m.place ≠ l.place := fun heq => hqp (hc.eq_of_place hq hp hm hl heq)
      exact ⟨t', (hother _ hplace).trans ht'⟩
    · by_cases hr : r = l.place
      · exact hr ▸ AList.lookup_erase ..
      · exact (AList.lookup_erase_ne hr).trans (h.links r)

/-- A path of a clean set can be put. -/
theorem ready (h : Rel paths d s) (hc : Clean paths) (hp : p ∈ paths) (hl : pathFor p = .ok l)
    (pid n : ℕ) : Ready d (tmpName pid n) l := by
  obtain ⟨hne, honly, hnames⟩ := hc.plain p hp l hl
  refine ⟨hne, h.isFile_parents hc hp hl, hnames, fun hdir => ?_, fun hdir => ?_, honly⟩
  · rw [lookup_makeParents, if_neg tmpPlace_not_mem_parents, Option.or_none] at hdir
    obtain ⟨q, hq, m, hm, hmem⟩ := h.dir _ hdir
    have hqp : q ≠ p := by
      rintro rfl
      rw [hl] at hm
      obtain rfl := Except.ok.inj hm
      exact tmpPlace_not_mem_parents hmem
    exact hc.temps q hq p hp hqp m l hm hl pid n (mem_parents.1 hmem).1
  · rw [lookup_makeParents, if_neg not_mem_parents_self, Option.or_none] at hdir
    exact h.not_dir hc hp hl hdir

/-- **Putting.** -/
theorem put (h : Rel paths d s) (hc : Clean paths) (hp : p ∈ paths) (hl : pathFor p = .ok l)
    (o : Occasion) (data : Bytes) (mtime : ℤ) :
    (FsFileStore.putVia o d p data mtime).1 = .ok () ∧
      Rel paths (FsFileStore.putVia o d p data mtime).2
        { s with files := s.files.insert p data } := by
  obtain ⟨time, htime⟩ : ∃ time, time = d.stamp o.now mtime := ⟨_, rfl⟩
  obtain ⟨d', hput, hlinks, hputs⟩ := putVia_of_ready (h.ready hc hp hl o.pid o.n) data time
  rw [htime] at hput
  have hstore : FsFileStore.putVia o d p data mtime = (.ok (), d') := by
    simp only [FsFileStore.putVia, hl, hput]
    rfl
  rw [hstore]
  -- a file is on the disk because it was there or because it was put, directories alike
  have hself : (s.files.insert p data).lookup p = some data := AList.lookup_insert _
  have hrest : ∀ q, q ≠ p → (s.files.insert p data).lookup q = s.files.lookup q := fun q hq =>
    AList.lookup_insert_ne hq
  refine ⟨rfl, fun r c t hr => ?_, fun r hr => ?_, fun q hq m hm c hqc => ?_,
    fun r => hlinks ▸ h.links r⟩
  · rw [hputs r] at hr
    split_ifs at hr with hplace htmp
    · cases hr
      exact .inr ⟨p, hp, l, hl, hplace.symm, hself⟩
    · rw [lookup_makeParents] at hr
      have hold : d.entries.lookup r = some (.file c t) := by
        rcases Option.or_eq_some_iff.1 hr with hold | ⟨-, hnew⟩
        · exact hold
        · split_ifs at hnew
          cases hnew
      refine (h.file r c t hold).imp_right ?_
      rintro ⟨q, hq, m, hm, rfl, hqc⟩
      have hqp : q ≠ p := by
        rintro rfl
        rw [hl] at hm
        obtain rfl := Except.ok.inj hm
        exact hplace rfl
      exact ⟨q, hq, m, hm, rfl, (hrest q hqp).trans hqc⟩
  · rw [hputs r] at hr
    split_ifs at hr with hplace htmp
    · cases hr
    · rw [lookup_makeParents] at hr
      rcases Option.or_eq_some_iff.1 hr with hold | ⟨-, hnew⟩
      · exact h.dir r hold
      · split_ifs at hnew with hmem
        exact ⟨p, hp, l, hl, hmem⟩
  · by_cases hqp : q = p
    · subst hqp
      rw [hl] at hm
      obtain rfl := Except.ok.inj hm
      obtain rfl := Option.some.inj (hself.symm.trans hqc)
      exact ⟨_, (hputs _).trans (if_pos rfl)⟩
    · obtain ⟨t, ht⟩ := h.here q hq m hm c ((hrest q hqp).symm.trans hqc)
      have hplace : m.place ≠ l.place := fun heq => hqp (hc.eq_of_place hq hp hm hl heq)
      have htmp : m.place ≠ tmpPlace (tmpName o.pid o.n) l.place := fun heq =>
        hc.temps q hq p hp hqp m l hm hl o.pid o.n (heq ▸ List.prefix_rfl)
      refine ⟨t, ?_⟩
      rw [hputs, if_neg hplace, if_neg htmp, lookup_makeParents, ht]
      rfl

/-- **Making some of the directories a path is in.** -/
theorem createParents (h : Rel paths d s) (hp : p ∈ paths) (hl : pathFor p = .ok l)
    (hr : r <+: l.place) : Rel paths (d.createParents r).2 s := by
  unfold Disk.createParents
  split
  · exact h
  have hnew : ∀ q e, (d.makeParents r).entries.lookup q = some e →
      d.entries.lookup q = some e ∨ e = .dir ∧ q ∈ Disk.parents r := by
    intro q e he
    rw [lookup_makeParents] at he
    refine (Option.or_eq_some_iff.1 he).imp_right ?_
    rintro ⟨-, he⟩
    split_ifs at he with hq
    exact ⟨(Option.some.inj he).symm, hq⟩
  refine ⟨fun q c t hq => ?_, fun q hq => ?_, fun q hq m hm c hqc => ?_, h.links⟩
  · rcases hnew q _ hq with hold | ⟨hfile, -⟩
    · exact h.file q c t hold
    · cases hfile
  · rcases hnew q _ hq with hold | ⟨-, hmem⟩
    · exact h.dir q hold
    · obtain ⟨hqr, hq0, hqne⟩ := mem_parents.1 hmem
      refine ⟨p, hp, l, hl, mem_parents.2 ⟨hqr.trans hr, hq0, ?_⟩⟩
      rintro rfl
      exact hqne (hqr.eq_of_length_le hr.length_le)
  · obtain ⟨t, ht⟩ := h.here q hq m hm c hqc
    refine ⟨t, ?_⟩
    show (d.makeParents r).entries.lookup m.place = _
    rw [lookup_makeParents, ht]
    rfl

/-- **A put that has been begun**, with a temporary file that is in nobody's
way. -/
theorem putBegun (h : Rel paths d s) (hp : p ∈ paths) (hl : pathFor p = .ok l)
    (htmp : Beside paths (tmpPlace tmp l.place)) (c : Bytes) (t : ℤ) :
    Rel paths (d.putBegun tmp l.place c t) s := by
  have hmade := h.createParents hp hl List.prefix_rfl
  unfold Disk.putBegun
  generalize d.createParents l.place = made at hmade
  obtain ⟨_ | _, d'⟩ := made
  · exact hmade
  show Rel paths (d'.write (tmpPlace tmp l.place) c t).2 s
  unfold Disk.write
  split
  · exact hmade
  have hother : ∀ q, q ≠ tmpPlace tmp l.place →
      (d'.entries.insert (tmpPlace tmp l.place) (.file c t)).lookup q = d'.entries.lookup q :=
    fun q hq => AList.lookup_insert_ne hq
  refine ⟨fun q c' t' hq => ?_, fun q hq => ?_, fun q hq m hm c' hqc => ?_, hmade.links⟩
  · by_cases heq : q = tmpPlace tmp l.place
    · exact .inl (heq ▸ htmp)
    · exact hmade.file q c' t' ((hother q heq).symm.trans hq)
  · have hne : q ≠ tmpPlace tmp l.place := by
      rintro rfl
      exact absurd ((AList.lookup_insert _).symm.trans hq) (by simp)
    exact hmade.dir q ((hother q hne).symm.trans hq)
  · have hne : m.place ≠ tmpPlace tmp l.place := fun heq =>
      htmp q hq m hm (heq ▸ List.prefix_rfl)
    obtain ⟨t', ht'⟩ := hmade.here q hq m hm c' hqc
    exact ⟨t', (hother _ hne).trans ht'⟩

end Rel

/-- **One call**: the same answer, and the stores go on agreeing. -/
theorem rel_call {call : FileCall} (h : Rel paths d s) (hc : Clean paths)
    (hp : call.path ∈ paths) (hl : pathFor call.path = .ok l) (o : Occasion) :
    (call.onDisk o d).1 = (call.inMemory s).1 ∧
      Rel paths (call.onDisk o d).2 (call.inMemory s).2 := by
  cases call with
  | get path =>
    have hget : FsFileStore.get d path = .ok (s.files.lookup path) := h.get hc hp hl
    refine ⟨?_, h⟩
    show (FsFileStore.get d path).map _ = _
    rw [hget]
    rfl
  | put path data mtime =>
    obtain ⟨hok, hrel⟩ := h.put hc hp hl o data mtime
    have hok : (FsFileStore.putVia o d path data mtime).1 = .ok () := hok
    refine ⟨?_, hrel⟩
    show (FsFileStore.putVia o d path data mtime).1.map _ = _
    rw [hok]
    rfl
  | delete path =>
    obtain ⟨hok, hrel⟩ := h.delete hc hp hl
    have hok : (FsFileStore.delete d path).1 = .ok () := hok
    refine ⟨?_, hrel⟩
    show (FsFileStore.delete d path).1.map _ = _
    rw [hok]
    rfl

/-- A call for a path that is refused fails, and changes nothing. -/
theorem onDisk_refused {call : FileCall} {e : StoreError} (he : pathFor call.path = .error e)
    (o : Occasion) : call.onDisk o d = (.error e, d) := by
  cases call with
  | get path => simp only [FileCall.onDisk, FsFileStore.get, show pathFor path = _ from he]; rfl
  | put path data mtime =>
    simp only [FileCall.onDisk, FsFileStore.putVia, show pathFor path = _ from he]
    rfl
  | delete path =>
    simp only [FileCall.onDisk, FsFileStore.delete, show pathFor path = _ from he]
    rfl

/-- **A run of calls.** -/
theorem answers_of_rel (hc : Clean paths) (calls : List (FileCall × Occasion))
    (hcalls : ∀ c ∈ calls, c.1.path ∈ paths) (h : Rel paths d s) :
    FileCall.diskAnswers d calls = FileCall.memAnswers s (calls.map Prod.fst) := by
  induction calls generalizing d s with
  | nil => rfl
  | cons call calls ih =>
    obtain ⟨call, o⟩ := call
    have hrest : ∀ c ∈ calls, c.1.path ∈ paths := fun c hc => hcalls c (List.mem_cons_of_mem _ hc)
    have hp : call.path ∈ paths := hcalls _ List.mem_cons_self
    rw [List.map_cons, FileCall.diskAnswers, FileCall.memAnswers]
    cases hl : pathFor call.path with
    | error e =>
      rw [onDisk_refused hl o]
      exact congrArg _ (ih hrest h)
    | ok l =>
      obtain ⟨hans, hrel⟩ := rel_call h hc hp hl o
      rw [hans]
      exact congrArg _ (ih hrest hrel)

/-! ## A map comes from a clean set of paths -/

theorem memAnswers_of_ok {call : FileCall} {calls : List FileCall} (hl : pathFor call.path = .ok l) :
    FileCall.memAnswers s (call :: calls) =
      (call.inMemory s).1 :: FileCall.memAnswers (call.inMemory s).2 calls := by
  rw [FileCall.memAnswers, hl]

/-- A put that answers as a map's does was ready, and has been done. -/
theorem puts_of_answer {o : Occasion} (hl : pathFor p = .ok l)
    (h : ((FileCall.put p data mtime).onDisk o d).1 = .ok .done) :
    Ready d (tmpName o.pid o.n) l ∧
      ((FileCall.put p data mtime).onDisk o d).2.links = d.links ∧ ∃ t,
        Puts d (tmpName o.pid o.n) l data t ((FileCall.put p data mtime).onDisk o d).2 := by
  obtain ⟨time, htime⟩ : ∃ time, time = d.stamp o.now mtime := ⟨_, rfl⟩
  have hstore : FsFileStore.putVia o d p data mtime =
      ((d.putVia (tmpName o.pid o.n) l data time).1.mapError FsFileStore.ioErr,
        (d.putVia (tmpName o.pid o.n) l data time).2) := by
    simp only [FsFileStore.putVia, hl, htime]
  have hdone : (d.putVia (tmpName o.pid o.n) l data time).1 = .ok () := by
    have hanswer : ((FsFileStore.putVia o d p data mtime).1.map fun _ => FileAnswer.done) =
        .ok .done := h
    rw [hstore] at hanswer
    cases hr : (d.putVia (tmpName o.pid o.n) l data time).1 with
    | ok a => rfl
    | error e =>
      rw [hr] at hanswer
      cases hanswer
  have hready := ready_of_putVia hdone
  obtain ⟨d', hput, hlinks, hputs⟩ := putVia_of_ready hready data time
  have hleft : ((FileCall.put p data mtime).onDisk o d).2 = d' := by
    show (FsFileStore.putVia o d p data mtime).2 = d'
    rw [hstore, hput]
  rw [hleft]
  exact ⟨hready, hlinks, time, hputs⟩

namespace IsMap

variable (h : IsMap paths)
include h

/-- What two puts in turn do, where they answer as a map's do. -/
theorem two_puts (hp : p ∈ paths) (hq : q ∈ paths) (hl : pathFor p = .ok l)
    (hm : pathFor q = .ok m) (o : Occasion) :
    ∃ d₁ d₂ tmp t t', Puts .empty tmp l [0] t d₁ ∧ Ready d₁ (tmpName o.pid o.n) m ∧
      Puts d₁ (tmpName o.pid o.n) m [1] t' d₂ ∧ (∀ r, d₂.links.lookup r = none) ∧
        (p ≠ q → FsFileStore.get d₂ p = .ok (some [0])) := by
  have hanswers := h.answers [(.put p [0] 1, ⟨0, 0, 0⟩), (.put q [1] 1, o), (.get p, o)] (by
    intro c hc
    simp only [List.mem_cons, List.not_mem_nil, or_false] at hc
    rcases hc with rfl | rfl | rfl
    exacts [hp, hq, hp])
  have hput : pathFor (FileCall.put p [0] 1).path = .ok l := hl
  have hput' : pathFor (FileCall.put q [1] 1).path = .ok m := hm
  have hget : pathFor (FileCall.get p).path = .ok l := hl
  simp only [List.map_cons, List.map_nil, FileCall.diskAnswers, memAnswers_of_ok hput,
    memAnswers_of_ok hput', memAnswers_of_ok hget, List.cons.injEq] at hanswers
  obtain ⟨hfirst, hsecond, hread, -⟩ := hanswers
  obtain ⟨-, hlinks, t, hputs⟩ := puts_of_answer hl hfirst
  obtain ⟨hready, hlinks', t', hputs'⟩ := puts_of_answer hm hsecond
  refine ⟨_, _, _, t, t', hputs, hready, hputs', fun r => ?_, fun hne => ?_⟩
  · rw [hlinks', hlinks]
    rfl
  have hlook : (((∅ : AList fun _ : Path => Bytes).insert p [0]).insert q [1]).lookup p =
      some [0] := (AList.lookup_insert_ne hne).trans (AList.lookup_insert _)
  generalize ((FileCall.put q [1] 1).onDisk o _).2 = d₂ at hread
  have hanswer : (FsFileStore.get d₂ p).map FileAnswer.content = .ok (.content (some [0])) := by
    rw [← hlook]
    exact hread
  cases hr : FsFileStore.get d₂ p with
  | error e =>
    rw [hr] at hanswer
    cases hanswer
  | ok v =>
    rw [hr] at hanswer
    cases hanswer
    rfl

theorem place_plain (hp : p ∈ paths) (hl : pathFor p = .ok l) :
    l.place ≠ [] ∧ l.dirOnly = false ∧ ∀ name ∈ l.place, hasNul name = false := by
  obtain ⟨d₁, -, -, -, -, -, hready, -⟩ := h.two_puts hp hp hl hl ⟨0, 0, 0⟩
  exact ⟨hready.ne_root, hready.file, hready.names⟩

/-- **None leads through the place of another.** -/
theorem not_through (hp : p ∈ paths) (hq : q ∈ paths) (hne : p ≠ q) (hl : pathFor p = .ok l)
    (hm : pathFor q = .ok m) : ¬ l.place <+: m.place := by
  intro hpre
  obtain ⟨d₁, -, tmp, t, -, hputs, hready, -⟩ := h.two_puts hp hq hl hm ⟨0, 0, 0⟩
  have hroot := (h.place_plain hp hl).1
  have hmem : l.place ∈ Disk.parents m.place :=
    mem_parents.2 ⟨hpre, hroot, h.apart p hp q hq hne l m hl hm⟩
  have hfile : d₁.entries.lookup l.place = some (.file [0] t) := (hputs _).trans (if_pos rfl)
  rcases isFile_eq_false.1 (hready.parents _ hmem) with h0 | hnot
  · exact hroot h0
  · exact hnot _ _ hfile

/-- **None leads to or through another's temporary file.** -/
theorem not_tmp (hp : p ∈ paths) (hq : q ∈ paths) (hne : p ≠ q) (hl : pathFor p = .ok l)
    (hm : pathFor q = .ok m) (pid n : ℕ) : ¬ tmpPlace (tmpName pid n) m.place <+: l.place := by
  intro hpre
  obtain ⟨d₁, d₂, tmp, t, t', hputs, hready, hputs', hlinks, hget⟩ := h.two_puts hp hq hl hm ⟨pid, n, 0⟩
  by_cases heq : tmpPlace (tmpName pid n) m.place = l.place
  -- the second put takes the first one's file away
  · have hgone : d₂.entries.lookup l.place = none := by
      rw [hputs' l.place, if_neg (h.apart p hp q hq hne l m hl hm), if_pos heq.symm]
    have hread : ∀ bytes, d₂.read l ≠ .ok bytes := by
      intro bytes
      unfold Disk.read
      cases hfollow : d₂.follow l.place with
      | error e => rintro ⟨⟩
      | ok r =>
        obtain rfl := eq_of_follow hlinks hfollow
        dsimp only
        rw [entry_of_ne (h.place_plain hp hl).1, hgone]
        rintro ⟨⟩
    have hfound := hget hne
    simp only [FsFileStore.get, hl, bind, Except.bind] at hfound
    cases hr : d₂.read l with
    | ok bytes => exact hread bytes hr
    | error e =>
      rw [hr] at hfound
      cases e <;> cases hfound
  -- or finds a directory where its temporary file should be
  · have hmem : tmpPlace (tmpName pid n) m.place ∈ Disk.parents l.place :=
      mem_parents.2 ⟨hpre, tmpPlace_ne_nil, heq⟩
    have hdir : d₁.entries.lookup (tmpPlace (tmpName pid n) m.place) = some .dir := by
      rw [hputs, if_neg heq, if_neg fun htmp => tmpPlace_not_mem_parents (htmp ▸ hmem),
        lookup_makeParents, if_pos hmem]
      rfl
    refine hready.tmp ?_
    rw [lookup_makeParents, hdir]
    rfl

end IsMap

/-- **The file store is a map** on exactly the sets of paths that are
clean. -/
theorem isMap_iff_clean (paths : Set Path) : IsMap paths ↔ Clean paths := by
  constructor
  · intro h
    exact ⟨fun p hp l hl => h.place_plain hp hl,
      fun p hp q hq hne l m hl hm => h.not_through hp hq hne hl hm,
      fun p hp q hq hne l m hl hm pid n => h.not_tmp hp hq hne hl hm pid n⟩
  · intro hc
    refine ⟨fun p hp l hl => ⟨(hc.plain p hp l hl).1, FsFileStore.named_of_pathFor hl⟩,
      fun p hp q hq hne l m hl hm hplace => ?_, fun calls hcalls =>
        answers_of_rel hc calls hcalls rel_empty⟩
    exact hc.apart p hp q hq hne l m hl hm (hplace ▸ List.prefix_rfl)

/-- **Two spellings of one path** are one file: what is put under the one is
found under the other. -/
theorem two_spellings_one_file :
    FileCall.diskAnswers .empty
      [(.put "a/b" [1] 5, ⟨7, 0, 0⟩), (.get "a//b", ⟨7, 0, 0⟩), (.put "a" [2] 5, ⟨7, 1, 0⟩)] =
      [.ok .done, .ok (.content (some [1])), .error (.io "Is a directory")] ∧
    ¬ IsMap Set.univ := by
  refine ⟨by decide +kernel, fun h => ?_⟩
  exact h.apart "a/b" trivial "a//b" trivial (by decide) ⟨["a", "b"], false⟩ ⟨["a", "b"], false⟩
    (by decide +kernel) (by decide +kernel) rfl

end FileMap

end FileSync
