import FileSync.Client.Directory
import FileSync.Model.Opfs
/-!
# Walking a tree of handles

What reading, writing and removing a file come to, in terms of what is at the
file's place and at the places above it.
-/

namespace FileSync

namespace OpfsRoot

variable {α : Type} {P : Platform} {r r' : OpfsRoot α} {dir d p q : Place} {name path : String}
  {parts : List String} {create : Bool} {x data : α}

/-! ## One handle -/

theorem getDirectoryHandle_of_dir (hname : P.validName name = true)
    (h : r.entries.lookup (dir ++ [name]) = some .dir) :
    r.getDirectoryHandle P create dir name = (.ok (dir ++ [name]), r) := by
  simp only [getDirectoryHandle, hname, h, if_true]

theorem getDirectoryHandle_of_none (hname : P.validName name = true)
    (h : r.entries.lookup (dir ++ [name]) = none) :
    r.getDirectoryHandle P true dir name =
      (.ok (dir ++ [name]), ⟨r.entries.insert (dir ++ [name]) .dir⟩) := by
  simp only [getDirectoryHandle, hname, h, if_true]

/-- **What a directory handle says**: there is a directory now, and there was no
file; nothing else changes. -/
theorem getDirectoryHandle_ok (h : r.getDirectoryHandle P create dir name = (.ok d, r')) :
    d = dir ++ [name] ∧ P.validName name = true ∧ r'.entries.lookup d = some .dir ∧
      (∀ x, r.entries.lookup d ≠ some (.file x)) ∧
      ∀ q, q ≠ d → r'.entries.lookup q = r.entries.lookup q := by
  unfold getDirectoryHandle at h
  by_cases hname : P.validName name = true
  · rw [if_pos hname] at h
    split at h
    · obtain ⟨rfl, rfl⟩ : dir ++ [name] = d ∧ r = r' := by simpa using h
      rename_i hdir
      exact ⟨rfl, hname, hdir, fun x hx => (by rw [hdir] at hx; cases hx), fun _ _ => rfl⟩
    · simp at h
    · rename_i hnone
      split at h
      · obtain ⟨rfl, rfl⟩ : dir ++ [name] = d ∧ _ = r' := by simpa using h
        refine ⟨rfl, hname, AList.lookup_insert _, fun x hx => ?_, fun q hq =>
          AList.lookup_insert_ne hq⟩
        rw [hnone] at hx
        cases hx
      · simp at h
  · rw [if_neg hname] at h
    simp at h

theorem getDirectoryHandle_find : (r.getDirectoryHandle P false dir name).2 = r := by
  unfold getDirectoryHandle
  split
  · split <;> rfl
  · rfl

theorem removeEntry_of_file (hname : P.validName name = true)
    (h : r.entries.lookup (dir ++ [name]) = some (.file x)) :
    r.removeEntry P dir name = (.ok (), ⟨r.entries.erase (dir ++ [name])⟩) := by
  simp only [removeEntry, hname, h, if_true]

theorem removeEntry_of_none (hname : P.validName name = true)
    (h : r.entries.lookup (dir ++ [name]) = none) :
    r.removeEntry P dir name = (.error .notFoundError, r) := by
  simp only [removeEntry, hname, h, if_true]

variable [Inhabited α]

theorem getFileHandle_of_file (hname : P.validName name = true)
    (h : r.entries.lookup (dir ++ [name]) = some (.file x)) :
    r.getFileHandle P create dir name = (.ok (dir ++ [name]), r) := by
  simp only [getFileHandle, hname, h, if_true]

/-- **What a file handle says.** -/
theorem getFileHandle_ok (h : r.getFileHandle P create dir name = (.ok d, r')) :
    d = dir ++ [name] ∧ P.validName name = true ∧ r.entries.lookup d ≠ some .dir ∧
      (∃ x, r'.entries.lookup d = some (.file x)) ∧
      ∀ q, q ≠ d → r'.entries.lookup q = r.entries.lookup q := by
  unfold getFileHandle at h
  by_cases hname : P.validName name = true
  · rw [if_pos hname] at h
    split at h
    · obtain ⟨rfl, rfl⟩ : dir ++ [name] = d ∧ r = r' := by simpa using h
      rename_i x hfile
      exact ⟨rfl, hname, fun hx => (by rw [hfile] at hx; cases hx), ⟨x, hfile⟩, fun _ _ => rfl⟩
    · simp at h
    · rename_i hnone
      split at h
      · obtain ⟨rfl, rfl⟩ : dir ++ [name] = d ∧ _ = r' := by simpa using h
        refine ⟨rfl, hname, fun hx => ?_, ⟨_, AList.lookup_insert _⟩, fun q hq =>
          AList.lookup_insert_ne hq⟩
        rw [hnone] at hx
        cases hx
      · simp at h
  · rw [if_neg hname] at h
    simp at h

theorem getFileHandle_find : (r.getFileHandle P false dir name).2 = r := by
  unfold getFileHandle
  split
  · split <;> rfl
  · rfl

/-- A file is made where there is no directory. -/
theorem getFileHandle_create (hname : P.validName name = true)
    (h : r.entries.lookup (dir ++ [name]) ≠ some .dir) :
    ∃ r', r.getFileHandle P true dir name = (.ok (dir ++ [name]), r') := by
  unfold getFileHandle
  rw [if_pos hname]
  split
  · exact ⟨r, rfl⟩
  · exact absurd ‹_› h
  · exact ⟨_, if_pos rfl⟩

/-! ## Directory after directory -/

/-- The directories a walk goes through. -/
def Between (dir : Place) (parts : List String) (q : Place) : Prop :=
  ∃ ps, ps ≠ [] ∧ ps <+: parts ∧ q = dir ++ ps

omit [Inhabited α]

theorem between_cons {part : String} :
    Between dir (part :: parts) q ↔ q = dir ++ [part] ∨ Between (dir ++ [part]) parts q := by
  constructor
  · rintro ⟨ps, hne, hpre, rfl⟩
    obtain ⟨ps, rfl⟩ : ∃ ps', ps = part :: ps' := by
      cases ps with
      | nil => exact absurd rfl hne
      | cons y ps => exact ⟨ps, by rw [(List.cons_prefix_cons.1 hpre).1]⟩
    have hrest := (List.cons_prefix_cons.1 hpre).2
    by_cases hps : ps = []
    · exact .inl (by rw [hps])
    · exact .inr ⟨ps, hps, hrest, by simp⟩
  · rintro (rfl | ⟨ps, hne, hpre, rfl⟩)
    · exact ⟨[part], List.cons_ne_nil _ _, List.cons_prefix_cons.2 ⟨rfl, List.nil_prefix⟩, rfl⟩
    · exact ⟨part :: ps, List.cons_ne_nil _ _, List.cons_prefix_cons.2 ⟨rfl, hpre⟩, by simp⟩

theorem not_between_self : ¬ Between dir parts dir := by
  rintro ⟨ps, hne, -, hps⟩
  exact hne (List.self_eq_append_right.1 hps)

/-- A walk to a place goes through the directories above it. -/
theorem between_dropLast : Between [] p.dropLast q ↔ q ∈ Disk.parents p := by
  rw [Disk.mem_parents]
  constructor
  · rintro ⟨ps, hne, hpre, rfl⟩
    refine ⟨hpre.trans (List.dropLast_prefix p), hne, fun heq => ?_⟩
    have hlen := hpre.length_le
    rw [List.length_dropLast] at hlen
    have hpos : 0 < p.length := by
      rw [← heq]
      exact List.length_pos_iff.2 hne
    rw [show q = p from heq] at hlen
    omega
  · rintro ⟨hpre, hne, hne'⟩
    refine ⟨q, hne, ?_, rfl⟩
    obtain ⟨t, ht⟩ := hpre
    obtain ⟨t, b, rfl⟩ : ∃ t' b, t = t' ++ [b] := by
      rcases List.eq_nil_or_concat' t with rfl | h
      · exact absurd (by simpa using ht) hne'
      · exact h
    rw [← ht, ← List.append_assoc, List.dropLast_concat]
    exact List.prefix_append q t

/-- **What a walk says**: where it leads, that there are directories all along
it now and were no files, and that nothing else changes. -/
theorem walk_ok (h : r.walk P create dir parts = (.ok d, r')) :
    d = dir ++ parts ∧ (∀ name ∈ parts, P.validName name = true) ∧
      (∀ q, Between dir parts q → r'.entries.lookup q = some .dir ∧
        ∀ x, r.entries.lookup q ≠ some (.file x)) ∧
      ∀ q, ¬ Between dir parts q → r'.entries.lookup q = r.entries.lookup q := by
  induction parts generalizing dir r with
  | nil =>
    obtain ⟨rfl, rfl⟩ : dir = d ∧ r = r' := by simpa [walk] using h
    refine ⟨(List.append_nil _).symm, fun _ h => absurd h List.not_mem_nil, ?_, fun _ _ => rfl⟩
    rintro q ⟨ps, hne, hpre, -⟩
    exact absurd (List.prefix_nil.1 hpre) hne
  | cons part parts ih =>
    rw [walk] at h
    cases hstep : r.getDirectoryHandle P create dir part with
    | mk e r₁ =>
      rw [hstep] at h
      cases e with
      | error e => simp at h
      | ok d₁ =>
        obtain ⟨rfl, hname, hdir, hfile, hrest⟩ := getDirectoryHandle_ok hstep
        obtain ⟨rfl, hnames, hbetween, hother⟩ := ih h
        refine ⟨by simp, List.forall_mem_cons.2 ⟨hname, hnames⟩, fun q hq => ?_, fun q hq => ?_⟩
        · -- the first directory, which the rest of the walk leaves alone, or a later one
          rcases between_cons.1 hq with rfl | hq
          · rw [hother _ not_between_self]
            exact ⟨hdir, hfile⟩
          · obtain ⟨hdir', hfile'⟩ := hbetween q hq
            refine ⟨hdir', fun x hx => ?_⟩
            rcases eq_or_ne q (dir ++ [part]) with rfl | hne
            · exact hfile x hx
            · exact hfile' x ((hrest q hne).trans hx)
        · rw [between_cons, not_or] at hq
          rw [hother q hq.2, hrest q hq.1]

theorem walk_find : (r.walk P false dir parts).2 = r := by
  induction parts generalizing dir with
  | nil => rfl
  | cons part parts ih =>
    have hsame : (r.getDirectoryHandle P false dir part).2 = r := getDirectoryHandle_find
    rw [walk]
    cases hstep : r.getDirectoryHandle P false dir part with
    | mk e r₁ =>
      rw [hstep] at hsame
      obtain rfl : r₁ = r := hsame
      cases e with
      | error e => rfl
      | ok d₁ => exact ih

/-- A walk through directories that are all there. -/
theorem walk_of_dirs (hnames : ∀ name ∈ parts, P.validName name = true)
    (h : ∀ q, Between dir parts q → r.entries.lookup q = some .dir) :
    r.walk P create dir parts = (.ok (dir ++ parts), r) := by
  induction parts generalizing dir with
  | nil => simp [walk]
  | cons part parts ih =>
    obtain ⟨hname, hnames⟩ := List.forall_mem_cons.1 hnames
    have hstep : r.getDirectoryHandle P create dir part = (.ok (dir ++ [part]), r) :=
      getDirectoryHandle_of_dir hname (h _ (between_cons.2 (.inl rfl)))
    have hrest := ih hnames fun q hq => h q (between_cons.2 (.inr hq))
    rw [walk, hstep]
    exact hrest.trans (by simp)

/-- **A walk that may make directories** is done if no file is in the way. -/
theorem walk_create (hnames : ∀ name ∈ parts, P.validName name = true)
    (h : ∀ q, Between dir parts q → ∀ x, r.entries.lookup q ≠ some (.file x)) :
    ∃ r', r.walk P true dir parts = (.ok (dir ++ parts), r') := by
  induction parts generalizing dir r with
  | nil => exact ⟨r, by simp [walk]⟩
  | cons part parts ih =>
    obtain ⟨hname, hnames⟩ := List.forall_mem_cons.1 hnames
    have hfirst := h _ (between_cons.2 (.inl rfl))
    obtain ⟨r₁, hstep⟩ : ∃ r₁, r.getDirectoryHandle P true dir part = (.ok (dir ++ [part]), r₁) := by
      cases hlook : r.entries.lookup (dir ++ [part]) with
      | none => exact ⟨_, getDirectoryHandle_of_none hname hlook⟩
      | some e =>
        cases e with
        | dir => exact ⟨r, getDirectoryHandle_of_dir hname hlook⟩
        | file x => exact absurd hlook (hfirst x)
    obtain ⟨-, -, hdir, -, hrest⟩ := getDirectoryHandle_ok hstep
    -- the first directory is in nobody's way
    have hclear : ∀ q, Between (dir ++ [part]) parts q → ∀ x,
        r₁.entries.lookup q ≠ some (.file x) := fun q hq x hx => by
      rcases eq_or_ne q (dir ++ [part]) with rfl | hne
      · rw [hdir] at hx
        cases hx
      · exact h q (between_cons.2 (.inr hq)) x ((hrest q hne).symm.trans hx)
    obtain ⟨r₂, hwalk⟩ := ih hnames hclear
    refine ⟨r₂, ?_⟩
    rw [walk, hstep]
    exact hwalk.trans (by simp)

/-- A walk that makes no directories finds them or misses one, if no file is in
the way. -/
theorem walk_find_or_missing (hnames : ∀ name ∈ parts, P.validName name = true)
    (h : ∀ q, Between dir parts q → ∀ x, r.entries.lookup q ≠ some (.file x)) :
    (r.walk P false dir parts).1 = .ok (dir ++ parts) ∨
      (r.walk P false dir parts).1 = .error .notFoundError := by
  induction parts generalizing dir with
  | nil => exact .inl (by simp [walk])
  | cons part parts ih =>
    obtain ⟨hname, hnames⟩ := List.forall_mem_cons.1 hnames
    cases hlook : r.entries.lookup (dir ++ [part]) with
    | none =>
      have hstep : r.getDirectoryHandle P false dir part = (.error .notFoundError, r) := by
        simp [getDirectoryHandle, hname, hlook]
      exact .inr (by rw [walk, hstep])
    | some e =>
      cases e with
      | file x => exact absurd hlook (h _ (between_cons.2 (.inl rfl)) x)
      | dir =>
        have hrest := ih hnames fun q hq => h q (between_cons.2 (.inr hq))
        rw [List.append_assoc] at hrest
        rw [walk, getDirectoryHandle_of_dir hname hlook]
        exact hrest

/-! ## Files -/

/-- A list is the names before its last one, and that. -/
theorem exists_last {names : List String} (h : names ≠ []) :
    ∃ last, names.getLast? = some last ∧ names.dropLast ++ [last] = names := by
  exact ⟨names.getLast h, List.getLast?_eq_some_getLast h, List.dropLast_append_getLast h⟩

variable [Inhabited α]

/-- **What the handle of a path says.** -/
theorem fileHandle_ok (h : r.fileHandle P path create = (.ok p, r')) :
    p = tokens path ∧ p ≠ [] ∧ (∀ name ∈ p, P.validName name = true) ∧
      (∀ q ∈ Disk.parents p, r'.entries.lookup q = some .dir ∧
        ∀ x, r.entries.lookup q ≠ some (.file x)) ∧
      (∃ x, r'.entries.lookup p = some (.file x)) ∧ r.entries.lookup p ≠ some .dir ∧
      ∀ q, q ∉ Disk.parents p → q ≠ p → r'.entries.lookup q = r.entries.lookup q := by
  unfold fileHandle at h
  by_cases hnil : tokens path = []
  · simp [hnil] at h
  obtain ⟨last, hlast, hsplit⟩ := exists_last hnil
  rw [hlast] at h
  dsimp only at h
  cases hwalk : r.walk P create [] (tokens path).dropLast with
  | mk e r₁ =>
    rw [hwalk] at h
    cases e with
    | error e => simp at h
    | ok d =>
      obtain ⟨rfl, hnames, hbetween, hother⟩ := walk_ok hwalk
      simp only [between_dropLast] at hbetween hother
      cases hfile : r₁.getFileHandle P create ([] ++ (tokens path).dropLast) last with
      | mk e r₂ =>
        simp only [hfile] at h
        cases e with
        | error e => simp [Except.mapError] at h
        | ok d =>
          obtain ⟨rfl, rfl⟩ : d = p ∧ r₂ = r' := by simpa [Except.mapError] using h
          obtain ⟨hp, hname, hdir, hmade, hrest⟩ := getFileHandle_ok hfile
          rw [List.nil_append, hsplit] at hp
          subst hp
          have hself : tokens path ∉ Disk.parents (tokens path) := fun hmem =>
            (Disk.mem_parents.1 hmem).2.2 rfl
          refine ⟨rfl, hnil, ?_, fun q hq => ⟨?_, (hbetween q hq).2⟩, hmade, ?_, fun q hq hne => ?_⟩
          · -- the walk took the names before the last, and the handle that one
            rw [← hsplit]
            intro name hmem
            rcases List.mem_append.1 hmem with hmem | hmem
            · exact hnames name hmem
            · rw [List.mem_singleton] at hmem
              exact hmem ▸ hname
          · rw [hrest q fun heq => hself (heq ▸ hq)]
            exact (hbetween q hq).1
          · rwa [hother _ hself] at hdir
          · rw [hrest q hne, hother q hq]

theorem fileHandle_find : (r.fileHandle P path false).2 = r := by
  unfold fileHandle
  cases (tokens path).getLast? with
  | none => rfl
  | some last =>
    dsimp only
    have hsame : (r.walk P false [] (tokens path).dropLast).2 = r := walk_find
    cases hwalk : r.walk P false [] (tokens path).dropLast with
    | mk e r₁ =>
      rw [hwalk] at hsame
      obtain rfl : r₁ = r := hsame
      cases e with
      | error e => rfl
      | ok d => exact getFileHandle_find

/-- **A file that is there is read.** -/
theorem read_of_file (hne : tokens path ≠ []) (hnames : ∀ name ∈ tokens path, P.validName name = true)
    (hdirs : ∀ q ∈ Disk.parents (tokens path), r.entries.lookup q = some .dir)
    (h : r.entries.lookup (tokens path) = some (.file x)) : r.read P path = .ok (some x) := by
  obtain ⟨last, hlast, hsplit⟩ := exists_last hne
  have hwalk : r.walk P false [] (tokens path).dropLast = (.ok (tokens path).dropLast, r) :=
    walk_of_dirs (fun name hmem => hnames name (List.dropLast_subset _ hmem))
      fun q hq => hdirs q (between_dropLast.1 hq)
  have hvalid : P.validName last = true := hnames last (by
    rw [← hsplit]
    exact List.mem_append_right _ List.mem_cons_self)
  have hfile : r.getFileHandle P false (tokens path).dropLast last =
      (.ok ((tokens path).dropLast ++ [last]), r) := getFileHandle_of_file hvalid (hsplit ▸ h)
  rw [hsplit] at hfile
  have hhandle : r.fileHandle P path false = (.ok (tokens path), r) := by
    simp only [fileHandle, hlast, hwalk, hfile]
    rfl
  simp only [read, hhandle, h]

/-- **Where there is no file nothing is read.** -/
theorem read_of_not_file (h : ∀ x, r.entries.lookup (tokens path) ≠ some (.file x)) :
    r.read P path = .ok none := by
  have hsame : (r.fileHandle P path false).2 = r := fileHandle_find
  unfold read
  cases hhandle : r.fileHandle P path false with
  | mk e r₁ =>
    rw [hhandle] at hsame
    obtain rfl : r₁ = r := hsame
    cases e with
    | error e => rfl
    | ok p =>
      obtain ⟨rfl, -, -, -, ⟨x, hx⟩, -, -⟩ := fileHandle_ok hhandle
      exact absurd hx (h x)

/-- **A write that is done** leaves the file, and directories above it where no
file was. -/
theorem write_ok (h : r.write P path data = (.ok (), r')) :
    tokens path ≠ [] ∧ (∀ name ∈ tokens path, P.validName name = true) ∧
      (∀ q ∈ Disk.parents (tokens path), r'.entries.lookup q = some .dir ∧
        ∀ x, r.entries.lookup q ≠ some (.file x)) ∧
      r'.entries.lookup (tokens path) = some (.file data) ∧
      ∀ q, q ∉ Disk.parents (tokens path) → q ≠ tokens path →
        r'.entries.lookup q = r.entries.lookup q := by
  unfold write at h
  cases hhandle : r.fileHandle P path true with
  | mk e r₁ =>
    rw [hhandle] at h
    cases e with
    | error e => simp at h
    | ok p =>
      obtain ⟨rfl, hne, hnames, hdirs, -, -, hother⟩ := fileHandle_ok hhandle
      obtain rfl : (⟨r₁.entries.insert (tokens path) (.file data)⟩ : OpfsRoot α) = r' := by
        simpa using h
      refine ⟨hne, hnames, fun q hq => ⟨?_, (hdirs q hq).2⟩, AList.lookup_insert _, fun q hq hqne =>
        ?_⟩
      · have hqne : q ≠ tokens path := (Disk.mem_parents.1 hq).2.2
        exact (AList.lookup_insert_ne hqne).trans (hdirs q hq).1
      · exact (AList.lookup_insert_ne hqne).trans (hother q hq hqne)

/-- **A write is done** where its names are valid and nothing is in the way. -/
theorem write_of_ready (hne : tokens path ≠ [])
    (hnames : ∀ name ∈ tokens path, P.validName name = true)
    (hfiles : ∀ q ∈ Disk.parents (tokens path), ∀ x, r.entries.lookup q ≠ some (.file x))
    (hdir : r.entries.lookup (tokens path) ≠ some .dir) (data : α) :
    ∃ r', r.write P path data = (.ok (), r') := by
  obtain ⟨last, hlast, hsplit⟩ := exists_last hne
  obtain ⟨r₁, hwalk⟩ : ∃ r₁, r.walk P true [] (tokens path).dropLast =
      (.ok ([] ++ (tokens path).dropLast), r₁) :=
    walk_create (fun name hmem => hnames name (List.dropLast_subset _ hmem))
      fun q hq => hfiles q (between_dropLast.1 hq)
  rw [List.nil_append] at hwalk
  obtain ⟨-, -, -, hother⟩ := walk_ok hwalk
  have hself : ¬ Between [] (tokens path).dropLast (tokens path) := fun hmem =>
    (Disk.mem_parents.1 (between_dropLast.1 hmem)).2.2 rfl
  have hdir' : r₁.entries.lookup ((tokens path).dropLast ++ [last]) ≠ some .dir := by
    rw [hsplit, hother _ hself]
    exact hdir
  have hvalid : P.validName last = true := hnames last (by
    rw [← hsplit]
    exact List.mem_append_right _ List.mem_cons_self)
  obtain ⟨r₂, hfile⟩ := getFileHandle_create hvalid hdir'
  refine ⟨⟨r₂.entries.insert (tokens path) (.file data)⟩, ?_⟩
  have hhandle : r.fileHandle P path true = (.ok (tokens path), r₂) := by
    simp only [fileHandle, hlast, hwalk, hfile, hsplit]
    rfl
  simp only [write, hhandle]

omit [Inhabited α]

/-- **A file that is there is removed.** -/
theorem remove_of_file (hne : tokens path ≠ [])
    (hnames : ∀ name ∈ tokens path, P.validName name = true)
    (hdirs : ∀ q ∈ Disk.parents (tokens path), r.entries.lookup q = some .dir)
    (h : r.entries.lookup (tokens path) = some (.file x)) :
    r.remove P path = (.ok (), ⟨r.entries.erase (tokens path)⟩) := by
  obtain ⟨last, hlast, hsplit⟩ := exists_last hne
  have hwalk : r.walk P false [] (tokens path).dropLast = (.ok (tokens path).dropLast, r) :=
    walk_of_dirs (fun name hmem => hnames name (List.dropLast_subset _ hmem))
      fun q hq => hdirs q (between_dropLast.1 hq)
  have hvalid : P.validName last = true := hnames last (by
    rw [← hsplit]
    exact List.mem_append_right _ List.mem_cons_self)
  have hremove := removeEntry_of_file hvalid (hsplit ▸ h)
  rw [hsplit] at hremove
  simp only [remove, hlast, hwalk, hremove]
  rfl

/-- **What is not there is removed**, if no file is in the way. -/
theorem remove_of_none (hnames : ∀ name ∈ tokens path, P.validName name = true)
    (hfiles : ∀ q ∈ Disk.parents (tokens path), ∀ x, r.entries.lookup q ≠ some (.file x))
    (h : r.entries.lookup (tokens path) = none) : r.remove P path = (.ok (), r) := by
  by_cases hnil : tokens path = []
  · simp [remove, hnil]
  obtain ⟨last, hlast, hsplit⟩ := exists_last hnil
  have hvalid : P.validName last = true := hnames last (by
    rw [← hsplit]
    exact List.mem_append_right _ List.mem_cons_self)
  have hremove := removeEntry_of_none hvalid (hsplit ▸ h)
  have hwalk : (r.walk P false [] (tokens path).dropLast).1 = .ok (tokens path).dropLast ∨
      (r.walk P false [] (tokens path).dropLast).1 = .error .notFoundError :=
    walk_find_or_missing (fun name hmem => hnames name (List.dropLast_subset _ hmem))
      fun q hq => hfiles q (between_dropLast.1 hq)
  rcases hwalk with hwalk | hwalk
  · simp only [remove, hlast, hwalk, hremove]
  · simp only [remove, hlast, hwalk]

end OpfsRoot

end FileSync
