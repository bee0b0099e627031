import FileSync.Model.Desktop
import Mathlib.Data.List.Infix
/-!
# The synced directory

A directory as a file system leaves it: every name is one, and nothing is
under a file. In such a directory the path the scan gives a file leads back
to the file, and no other scanned path does.
-/

namespace FileSync

/-- What ends without a slash is at the end of what comes after one. -/
theorem suffix_append_cons {α : Type*} {l l₁ l₂ : List α} {a : α} (ha : a ∉ l) :
    l <:+ l₁ ++ a :: l₂ ↔ l <:+ l₂ := by
  refine ⟨fun h => ?_, fun h => h.trans ((List.suffix_cons a l₂).trans (List.suffix_append _ _))⟩
  rcases List.suffix_or_suffix_of_suffix h (List.suffix_append l₁ (a :: l₂)) with h | h
  · rcases List.suffix_cons_iff.1 h with rfl | h
    exacts [absurd List.mem_cons_self ha, h]
  · exact absurd (h.subset List.mem_cons_self) ha

/-- The path the walk names a place by leads to the place. -/
theorem FsFileStore.pathFor_relPath {p : Place} (hp : p ≠ []) (hnames : ∀ name ∈ p, ValidName name) :
    FsFileStore.pathFor (Disk.relPath p) = .ok ⟨p, false⟩ := by
  have hne : p.map String.toList ≠ [] := by simpa using hp
  have hsplit : ((Disk.relPath p).toList.splitOn '/').map String.ofList = p := by
    rw [Disk.relPath, String.toList_ofList, List.splitOn_intercalate _ ?_ hne, List.map_map]
    · simp [Function.comp_def]
    · intro l hl
      obtain ⟨name, hname, rfl⟩ := List.mem_map.1 hl
      exact (hnames name hname).2.2.2.1
  have hhead : (Disk.relPath p).toList.head? ≠ some '/' := by
    intro hslash
    obtain ⟨rest, hrest⟩ : ∃ rest, (Disk.relPath p).toList = '/' :: rest := by
      cases hl : (Disk.relPath p).toList with
      | nil => simp [hl] at hslash
      | cons x rest => exact ⟨rest, by simpa [hl] using hslash⟩
    rw [hrest, List.splitOn_cons_eq_if_modifyHead, if_pos (beq_self_eq_true _)] at hsplit
    have hempty : "" ∈ p := by
      rw [← hsplit]
      simp
    exact (hnames "" hempty).1 rfl
  have hdots : ".." ∉ p := fun hmem => (hnames _ hmem).2.2.1 rfl
  have hkeep : p.filter (fun name => decide (name ≠ "" ∧ name ≠ ".")) = p :=
    List.filter_eq_self.2 fun name hname => by
      simpa using ⟨(hnames name hname).1, (hnames name hname).2.1⟩
  have hlast : ¬ (p.getLast? = some "" ∨ p.getLast? = some ".") := by
    rintro (hl | hl)
    · exact (hnames _ (List.mem_of_getLast? hl)).1 rfl
    · exact (hnames _ (List.mem_of_getLast? hl)).2.1 rfl
  unfold FsFileStore.pathFor
  simp only [hsplit]
  rw [if_neg (by rintro (h | h); exacts [hhead h, hdots h]), hkeep, decide_eq_false hlast]

/-- Two places under the root that the walk names alike are one. -/
theorem Disk.relPath_injOn {p q : Place} (hp : ∀ name ∈ p, ValidName name)
    (hq : ∀ name ∈ q, ValidName name) (h : relPath p = relPath q) : p = q := by
  have hplace : ∀ r : Place, (∀ name ∈ r, ValidName name) →
      ∃ dirOnly, FsFileStore.pathFor (relPath r) = .ok ⟨r, dirOnly⟩ := by
    intro r hr
    by_cases h0 : r = []
    · subst h0
      exact ⟨true, by decide +kernel⟩
    · exact ⟨false, FsFileStore.pathFor_relPath h0 hr⟩
  obtain ⟨b, hb⟩ := hplace p hp
  obtain ⟨b', hb'⟩ := hplace q hq
  rw [h, hb'] at hb
  exact (congrArg Location.place (Except.ok.inj hb)).symm

namespace Disk

/-- A name of an entry, or what leads outside. -/
def PlaceName (name : String) : Prop := name = ".." ∨ ValidName name

/-- **What a file system keeps of every entry.** -/
structure WellFormed (d : Disk) : Prop where
  ne_root : ∀ p e, d.entries.lookup p = some e → p ≠ []
  names : ∀ p e, d.entries.lookup p = some e → ∀ name ∈ p, PlaceName name
  parents : ∀ p e, d.entries.lookup p = some e →
    ∀ q ∈ parents p, d.entries.lookup q = some .dir
  /-- An entry is not a link too. -/
  links : ∀ p t, d.links.lookup p = some t → d.entries.lookup p = none
  targets : ∀ p t, d.links.lookup p = some t → ∀ name ∈ t, PlaceName name

variable {d : Disk} {p q : Place} {c : Bytes} {t : ℤ}

theorem entry_of_ne (h : p ≠ []) : d.entry p = d.entries.lookup p := if_neg h

theorem mem_parents : q ∈ parents p ↔ q <+: p ∧ q ≠ [] ∧ q ≠ p := by
  simp [parents, List.mem_inits]

theorem isFile_eq_true : d.isFile p = true ↔ ∃ c t, d.entry p = some (.file c t) := by
  unfold isFile
  split <;> simp_all

theorem isFile_of_dir (h : d.entries.lookup p = some .dir) : d.isFile p = false := by
  unfold isFile entry
  by_cases hp : p = [] <;> simp [hp, h]

theorem isFile_root : d.isFile [] = false := by simp [isFile, entry]

theorem not_hasNul_of_placeName {name : String} (h : PlaceName name) : hasNul name = false := by
  rcases h with rfl | h
  · decide
  · simpa [hasNul] using h.2.2.2.2

/-- The names of a place under the root. -/
theorem validNames (h : ∀ name ∈ p, PlaceName name) (hin : ".." ∉ p) :
    ∀ name ∈ p, ValidName name := by
  intro name hname
  refine (h name hname).resolve_left ?_
  rintro rfl
  exact hin hname

theorem any_hasNul (h : ∀ name ∈ p, PlaceName name) : p.any hasNul = false := by
  simpa using fun name hname => not_hasNul_of_placeName (h name hname)

theorem wellFormed_empty : empty.WellFormed := by
  constructor <;> (intro p e h; cases h)

theorem parents_trans {r : Place} (hq : q ∈ parents p) (hr : r ∈ parents q) : r ∈ parents p := by
  obtain ⟨hqp, -, hne⟩ := mem_parents.1 hq
  obtain ⟨hrq, hr0, hne'⟩ := mem_parents.1 hr
  refine mem_parents.2 ⟨hrq.trans hqp, hr0, ?_⟩
  rintro rfl
  exact hne (List.IsPrefix.eq_of_length_le hqp hrq.length_le)

theorem not_mem_parents_self : p ∉ parents p := fun h => (mem_parents.1 h).2.2 rfl

/-- What is above an entry is above the directory it is in, or that itself. -/
theorem mem_parents_concat {name : String} :
    q ∈ parents (p ++ [name]) ↔ q ≠ [] ∧ (q = p ∨ q ∈ parents p) := by
  rw [mem_parents, mem_parents, List.prefix_concat_iff]
  constructor
  · rintro ⟨h | h, h0, hne⟩
    · exact absurd h hne
    · by_cases hq : q = p
      exacts [⟨h0, .inl hq⟩, ⟨h0, .inr ⟨h, h0, hq⟩⟩]
  · rintro ⟨h0, rfl | ⟨h, -, -⟩⟩
    · exact ⟨.inr List.prefix_rfl, h0, by simp⟩
    · refine ⟨.inr h, h0, ?_⟩
      rintro rfl
      have hlen := h.length_le
      rw [List.length_append, List.length_singleton] at hlen
      omega

/-! ## Where links lead -/

/-- No link and no file is above the place. -/
def Open (d : Disk) (p : Place) : Prop :=
  ∀ q ∈ parents p, d.links.lookup q = none ∧ d.isFile q = false

/-- Nor is it one itself. -/
structure Clear (d : Disk) (p : Place) : Prop where
  above : d.Open p
  here : d.links.lookup p = none
  names : ∀ name ∈ p, PlaceName name

theorem Open.concat {name : String} (h : d.Open p) (hlink : p ≠ [] → d.links.lookup p = none)
    (hfile : d.isFile p = false) : d.Open (p ++ [name]) := by
  intro q hq
  obtain ⟨h0, rfl | hq⟩ := mem_parents_concat.1 hq
  exacts [⟨hlink h0, hfile⟩, h q hq]

theorem Open.of_prefix (h : d.Open p) (hq : q <+: p) : d.Open q := by
  intro r hr
  obtain ⟨hrq, h0, hne⟩ := mem_parents.1 hr
  refine h r (mem_parents.2 ⟨hrq.trans hq, h0, ?_⟩)
  rintro rfl
  exact hne (hrq.eq_of_length_le hq.length_le)

variable {jump : ℕ → Place → Except IoError (Place × ℕ)} {k k' : ℕ} {here names : List String}

/-- **Where no link is on the way**, a place is where it says. -/
theorem walk_of_open (jump : ℕ → Place → Except IoError (Place × ℕ)) (k : ℕ)
    (h : d.Open (here ++ names)) (hlast : d.links.lookup (here ++ names) = none) :
    d.walk jump k here names = .ok (here ++ names, k) := by
  induction names generalizing here with
  | nil => rw [walk, List.append_nil]
  | cons name names ih =>
    have hassoc : here ++ name :: names = here ++ [name] ++ names := by simp
    rw [hassoc] at h hlast ⊢
    have hnext : d.links.lookup (here ++ [name]) = none ∧
        ¬ (names ≠ [] ∧ d.isFile (here ++ [name]) = true) := by
      by_cases hnames : names = []
      · subst hnames
        rw [List.append_nil] at hlast
        exact ⟨hlast, fun hfile => hfile.1 rfl⟩
      · have habove := h (here ++ [name]) (mem_parents.2 ⟨List.prefix_append _ _, by simp, by
          simpa using hnames⟩)
        exact ⟨habove.1, fun hfile => by rw [habove.2] at hfile; cases hfile.2⟩
    rw [walk, hnext.1]
    dsimp only
    rw [if_neg hnext.2]
    exact ih h hlast

theorem follow_of_clear (h : d.Clear p) : d.follow p = .ok p := by
  rw [follow, any_hasNul h.names, if_neg Bool.false_ne_true]
  show (d.walk (d.walkFrom 39) maxLinks [] p).map Prod.fst = .ok p
  have hwalk : d.walk (d.walkFrom 39) maxLinks [] p = .ok ([] ++ p, maxLinks) :=
    walk_of_open _ _ h.above h.here
  rw [hwalk]
  rfl

theorem followAbove_of_open (h0 : p ≠ []) (h : d.Open p) (hnames : ∀ name ∈ p, PlaceName name) :
    d.followAbove p = .ok p := by
  obtain ⟨above, name, rfl⟩ := List.eq_nil_or_concat' p |>.resolve_left h0
  have habove : above ≠ [] → d.links.lookup above = none ∧ d.isFile above = false := fun ha =>
    h above (mem_parents_concat.2 ⟨ha, .inl rfl⟩)
  have hfile : d.isFile above = false := by
    by_cases ha : above = []
    · rw [ha, isFile_root]
    · exact (habove ha).2
  have hlinks : d.follow above = .ok above := by
    by_cases ha : above = []
    · subst ha
      rfl
    · exact follow_of_clear ⟨h.of_prefix (List.prefix_append _ _), (habove ha).1,
        fun name hname => hnames name (List.mem_append_left _ hname)⟩
  rw [followAbove, List.getLast?_concat]
  dsimp only
  rw [any_hasNul hnames, if_neg Bool.false_ne_true, List.dropLast_concat, hlinks]
  dsimp only
  rw [hfile, if_neg Bool.false_ne_true]

/-- What a walk comes to. -/
structure Entered (d : Disk) (p : Place) : Prop where
  above : d.Open p
  here : p ≠ [] → d.links.lookup p = none
  names : ∀ name ∈ p, PlaceName name

/-- **A walk** comes to a place with no link on the way. -/
theorem entered_of_walk (hd : d.WellFormed)
    (hjump : ∀ k t q k', (∀ name ∈ t, PlaceName name) → jump k t = .ok (q, k') → d.Entered q)
    (hhere : d.Entered here) (hnames : ∀ name ∈ names, PlaceName name)
    (hfile : names ≠ [] → d.isFile here = false) (h : d.walk jump k here names = .ok (p, k')) :
    d.Entered p := by
  induction names generalizing here k with
  | nil =>
    rw [walk] at h
    obtain ⟨rfl, -⟩ := Prod.mk.inj (Except.ok.inj h)
    exact hhere
  | cons name names ih =>
    have hrest : ∀ name ∈ names, PlaceName name := fun n hn => hnames n (List.mem_cons_of_mem _ hn)
    rw [walk] at h
    -- a link jumps to a place that is entered, and a name that is none is entered from here
    cases hlink : d.links.lookup (here ++ [name]) with
    | some target =>
      rw [hlink] at h
      cases k with
      | zero => cases h
      | succ k =>
        dsimp only at h
        cases hthere : jump k target with
        | error e =>
          rw [hthere] at h
          cases h
        | ok r =>
          obtain ⟨there, left⟩ := r
          have hentered := hjump k target there left (hd.targets _ _ hlink) hthere
          rw [hthere] at h
          dsimp only at h
          by_cases hlast : names = []
          · rw [if_pos hlast] at h
            obtain ⟨rfl, -⟩ := Prod.mk.inj (Except.ok.inj h)
            exact hentered
          rw [if_neg hlast] at h
          split at h
          · rename_i hdir
            refine ih hentered hrest (fun _ => ?_) h
            unfold isFile
            rw [hdir]
          · cases h
          · cases h
    | none =>
      rw [hlink] at h
      dsimp only at h
      split at h
      · cases h
      · rename_i hnext
        refine ih ⟨hhere.above.concat hhere.here (hfile (List.cons_ne_nil _ _)), fun _ => hlink, ?_⟩
          hrest (fun hne => ?_) h
        · intro n hn
          rcases List.mem_append.1 hn with hn | hn
          · exact hhere.names n hn
          · exact hnames n (List.mem_singleton.1 hn ▸ List.mem_cons_self)
        · simpa [hne] using hnext

theorem entered_root : d.Entered [] where
  above q hq := by
    obtain ⟨hq, h0, -⟩ := mem_parents.1 hq
    exact absurd (List.prefix_nil.1 hq) h0
  here h := absurd rfl h
  names _ h := absurd h List.not_mem_nil

theorem entered_of_walkFrom (hd : d.WellFormed) (depth : ℕ) (hnames : ∀ name ∈ q, PlaceName name)
    (h : d.walkFrom depth k q = .ok (p, k')) : d.Entered p := by
  induction depth generalizing k q p k' with
  | zero =>
    refine entered_of_walk hd (fun _ _ _ _ _ hjump => ?_) entered_root hnames
      (fun _ => isFile_root) h
    cases hjump
  | succ depth ih =>
    exact entered_of_walk hd (fun _ _ _ _ htarget hjump => ih htarget hjump) entered_root hnames
      (fun _ => isFile_root) h

/-- The place of an entry, if the links above it lead to one. -/
def reaches (d : Disk) (p : Place) : Option Place := (d.followAbove p).toOption

theorem reaches_eq_some : d.reaches p = some q ↔ d.followAbove p = .ok q := by
  unfold reaches
  cases d.followAbove p <;> simp [Except.toOption]

/-- **Where an entry is**, no link and no file is above it. -/
theorem open_of_followAbove (hd : d.WellFormed) (hnames : ∀ name ∈ q, name ≠ "" ∧ name ≠ "." ∧
    name ≠ ".." ∧ '/' ∉ name.toList) (h : d.followAbove q = .ok p) :
    d.Open p ∧ ∀ name ∈ p, PlaceName name := by
  unfold followAbove at h
  cases hlast : q.getLast? with
  | none =>
    rw [hlast] at h
    obtain rfl := Except.ok.inj h
    have hroot := entered_root (d := d)
    exact ⟨hroot.above, hroot.names⟩
  | some name =>
    rw [hlast] at h
    dsimp only at h
    split at h
    · cases h
    rename_i hnul
    have hvalid : ∀ n ∈ q, PlaceName n := by
      intro n hn
      obtain ⟨h1, h2, h3, h4⟩ := hnames n hn
      have hnul' : hasNul n = false := by
        simpa using fun htrue => hnul (List.any_eq_true.2 ⟨n, hn, htrue⟩)
      exact .inr ⟨h1, h2, h3, h4, by simpa [hasNul] using hnul'⟩
    cases habove : d.follow q.dropLast with
    | error e =>
      rw [habove] at h
      cases h
    | ok above =>
      rw [habove] at h
      dsimp only at h
      split at h
      · cases h
      rename_i hfile
      obtain rfl := Except.ok.inj h
      have hentered : d.Entered above := by
        unfold follow at habove
        split at habove
        · cases habove
        cases hwalk : d.walkFrom maxLinks maxLinks q.dropLast with
        | error e =>
          rw [hwalk] at habove
          cases habove
        | ok r =>
          rw [hwalk] at habove
          obtain rfl := Except.ok.inj habove
          exact entered_of_walkFrom hd _
            (fun n hn => hvalid n (List.dropLast_subset _ hn)) hwalk
      refine ⟨hentered.above.concat hentered.here (by simpa using hfile), fun n hn => ?_⟩
      rcases List.mem_append.1 hn with hn | hn
      · exact hentered.names n hn
      · obtain rfl := List.mem_singleton.1 hn
        exact hvalid _ (List.mem_of_getLast? hlast)

namespace WellFormed

/-- Nothing is on the way to an entry. -/
theorem clear (hd : d.WellFormed) {e : Entry} (h : d.entries.lookup p = some e) : d.Clear p := by
  have hnone : ∀ q e, d.entries.lookup q = some e → d.links.lookup q = none := by
    intro q e hq
    cases hlink : d.links.lookup q with
    | none => rfl
    | some t =>
      rw [hd.links q t hlink] at hq
      cases hq
  exact ⟨fun q hq => ⟨hnone q _ (hd.parents p e h q hq), isFile_of_dir (hd.parents p e h q hq)⟩,
    hnone p e h, hd.names p e h⟩

theorem follow (hd : d.WellFormed) {e : Entry} (h : d.entries.lookup p = some e) :
    d.follow p = .ok p := follow_of_clear (hd.clear h)

theorem followAbove (hd : d.WellFormed) {e : Entry} (h : d.entries.lookup p = some e) :
    d.followAbove p = .ok p :=
  followAbove_of_open (hd.ne_root p e h) (hd.clear h).above (hd.clear h).names

/-- The scanned path of a place under the root names it. -/
theorem pathFor_relPath (hd : d.WellFormed) {e : Entry} (h : d.entries.lookup p = some e)
    (hin : ".." ∉ p) : FsFileStore.pathFor (relPath p) = .ok ⟨p, false⟩ :=
   FsFileStore.pathFor_relPath (hd.ne_root p e h) (validNames (hd.names p e h) hin)

/-- Two entries the scan gives one path are one. -/
theorem relPath_inj (hd : d.WellFormed) {e e' : Entry} (h : d.entries.lookup p = some e)
    (h' : d.entries.lookup q = some e') (hp : ".." ∉ p) (hq : ".." ∉ q)
    (heq : relPath p = relPath q) : p = q :=
  relPath_injOn (validNames (hd.names p e h) hp) (validNames (hd.names q e' h') hq) heq

end WellFormed

/-! ## What the operations do -/

theorem lookup_foldl_mkdir (ps : List Place) (es : AList fun _ : Place => Entry) (q : Place) :
    (ps.foldl (fun es q => if (es.lookup q).isSome then es else es.insert q .dir) es).lookup q =
      (es.lookup q).or (if q ∈ ps then some .dir else none) := by
  induction ps generalizing es with
  | nil => simp
  | cons r ps ih =>
    rw [List.foldl_cons, ih]
    by_cases hr : (es.lookup r).isSome
    · rw [if_pos hr]
      by_cases hq : q = r
      · subst hq
        obtain ⟨e, he⟩ := Option.isSome_iff_exists.1 hr
        simp [he]
      · simp [hq]
    · rw [if_neg hr]
      by_cases hq : q = r
      · subst hq
        have hnone : es.lookup q = none := by simpa using hr
        simp [hnone, AList.lookup_insert]
      · simp [hq, AList.lookup_insert_ne hq]

/-- Making a place's parents adds directories where nothing was. -/
theorem lookup_makeParents : (d.makeParents p).entries.lookup q =
    (d.entries.lookup q).or (if q ∈ parents p then some .dir else none) :=
  lookup_foldl_mkdir _ _ _

theorem lookup_insert_self : (d.insert p c t).entries.lookup p = some (.file c t) :=
  AList.lookup_insert _

theorem lookup_insert_of_ne (h : q ≠ p) :
    (d.insert p c t).entries.lookup q = d.entries.lookup q := AList.lookup_insert_ne h

theorem lookup_erase_self : (d.erase p).entries.lookup p = none := AList.lookup_erase ..

theorem lookup_erase_of_ne (h : q ≠ p) : (d.erase p).entries.lookup q = d.entries.lookup q :=
  AList.lookup_erase_ne h

/-- A link that is left was there. -/
theorem lookup_links_erase {r : Place} (h : (d.links.erase p).lookup q = some r) :
    q ≠ p ∧ d.links.lookup q = some r := by
  by_cases hq : q = p
  · subst hq
    rw [AList.lookup_erase] at h
    cases h
  · exact ⟨hq, (AList.lookup_erase_ne hq).symm.trans h⟩

/-- What makes a list of names the place of a sync path. -/
def Named (p : Place) : Prop :=
  ∀ name ∈ p, name ≠ "" ∧ name ≠ "." ∧ name ≠ ".." ∧ '/' ∉ name.toList

namespace WellFormed

/-- Making the parents of a place that no link and no file is above. -/
theorem makeParents (hd : d.WellFormed) (hnames : ∀ name ∈ p, PlaceName name) (hp : d.Open p) :
    (d.makeParents p).WellFormed ∧
      ∀ q ∈ Disk.parents p, (d.makeParents p).entries.lookup q = some .dir := by
  have hdir : ∀ q ∈ Disk.parents p, (d.makeParents p).entries.lookup q = some .dir := by
    intro q hq
    rw [lookup_makeParents, if_pos hq]
    have hq0 : q ≠ [] := (mem_parents.1 hq).2.1
    have hnot := (hp q hq).2
    cases he : d.entries.lookup q with
    | none => rfl
    | some e =>
      cases e with
      | dir => rfl
      | file c t =>
        have htrue : d.isFile q = true := isFile_eq_true.2 ⟨c, t, by rw [entry_of_ne hq0, he]⟩
        rw [htrue] at hnot
        cases hnot
  have hold : ∀ q e, (d.makeParents p).entries.lookup q = some e →
      d.entries.lookup q = some e ∨ q ∈ Disk.parents p := by
    intro q e he
    rw [lookup_makeParents] at he
    by_cases hq : q ∈ Disk.parents p
    · exact .inr hq
    · rw [if_neg hq, Option.or_none] at he
      exact .inl he
  have hup : ∀ q, d.entries.lookup q = some .dir →
      (d.makeParents p).entries.lookup q = some .dir := by
    intro q hq
    rw [lookup_makeParents, hq]
    rfl
  refine ⟨⟨fun q e he => ?_, fun q e he => ?_, fun q e he r hr => ?_, fun q r hq => ?_,
    hd.targets⟩, hdir⟩
  · rcases hold q e he with h | h
    exacts [hd.ne_root q e h, (mem_parents.1 h).2.1]
  · rcases hold q e he with h | h
    · exact hd.names q e h
    · exact fun name hname => hnames name ((mem_parents.1 h).1.subset hname)
  · rcases hold q e he with h | h
    exacts [hup r (hd.parents q e h r hr), hdir r (parents_trans h hr)]
  · have hnot : q ∉ Disk.parents p := fun hmem => by
      have hnone := (hp q hmem).1
      rw [show d.links.lookup q = some r from hq] at hnone
      cases hnone
    rw [lookup_makeParents, hd.links q r hq, if_neg hnot]
    rfl

/-- A file put where its parents are directories and no directory is. -/
theorem insert (hd : d.WellFormed) (hp0 : p ≠ []) (hp : ∀ name ∈ p, PlaceName name)
    (hparents : ∀ q ∈ Disk.parents p, d.entries.lookup q = some .dir)
    (hp' : d.entries.lookup p ≠ some .dir) : (d.insert p c t).WellFormed := by
  have hdir : ∀ q, d.entries.lookup q = some .dir →
      (d.insert p c t).entries.lookup q = some .dir := by
    intro q hq
    have hne : q ≠ p := fun h => hp' (h ▸ hq)
    rw [lookup_insert_of_ne hne, hq]
  have hcase : ∀ q e, (d.insert p c t).entries.lookup q = some e →
      q = p ∨ d.entries.lookup q = some e := by
    intro q e he
    by_cases hq : q = p
    · exact .inl hq
    · rw [lookup_insert_of_ne hq] at he
      exact .inr he
  refine ⟨fun q e he => ?_, fun q e he => ?_, fun q e he r hr => ?_, fun q r hq => ?_,
    fun q r hq => ?_⟩
  · rcases hcase q e he with rfl | h
    exacts [hp0, hd.ne_root q e h]
  · rcases hcase q e he with rfl | h
    exacts [hp, hd.names q e h]
  · rcases hcase q e he with rfl | h
    exacts [hdir r (hparents r hr), hdir r (hd.parents q e h r hr)]
  · obtain ⟨hne, hq⟩ := lookup_links_erase hq
    rw [lookup_insert_of_ne hne]
    exact hd.links q r hq
  · exact hd.targets q r (lookup_links_erase hq).2

/-- A file or a link removed. -/
theorem erase (hd : d.WellFormed) (hp : d.entries.lookup p ≠ some .dir) :
    (d.erase p).WellFormed := by
  have hcase : ∀ q e, (d.erase p).entries.lookup q = some e → d.entries.lookup q = some e := by
    intro q e he
    by_cases hq : q = p
    · subst hq
      rw [lookup_erase_self] at he
      cases he
    · rwa [lookup_erase_of_ne hq] at he
  refine ⟨fun q e he => hd.ne_root q e (hcase q e he), fun q e he => hd.names q e (hcase q e he),
    fun q e he r hr => ?_, fun q r hq => ?_, fun q r hq => ?_⟩
  · have hdir := hd.parents q e (hcase q e he) r hr
    have hne : r ≠ p := fun h => hp (h ▸ hdir)
    rw [lookup_erase_of_ne hne, hdir]
  · obtain ⟨hne, hq⟩ := lookup_links_erase hq
    rw [lookup_erase_of_ne hne]
    exact hd.links q r hq
  · exact hd.targets q r (lookup_links_erase hq).2

end WellFormed

/-! ## Files -/

/-- The file at a place. -/
def fileAt (d : Disk) (p : Place) : Option (Bytes × ℤ) :=
  match d.entries.lookup p with
  | some (.file c t) => some (c, t)
  | _ => none

theorem fileAt_eq_some : d.fileAt p = some (c, t) ↔ d.entries.lookup p = some (.file c t) := by
  unfold fileAt
  split <;> simp_all

theorem fileAt_makeParents : (d.makeParents p).fileAt q = d.fileAt q := by
  unfold fileAt
  rw [lookup_makeParents]
  cases d.entries.lookup q with
  | some e => rfl
  | none =>
    by_cases hq : q ∈ parents p
    · rw [if_pos hq]
      rfl
    · rw [if_neg hq]
      rfl

theorem fileAt_insert_self : (d.insert p c t).fileAt p = some (c, t) :=
  fileAt_eq_some.2 lookup_insert_self

theorem fileAt_insert_of_ne (h : q ≠ p) : (d.insert p c t).fileAt q = d.fileAt q := by
  simp only [fileAt, lookup_insert_of_ne h]

theorem fileAt_erase_of_ne (h : q ≠ p) : (d.erase p).fileAt q = d.fileAt q := by
  simp only [fileAt, lookup_erase_of_ne h]

variable {l : Location}

/-- What a put leaves: nothing but perhaps directories, or the file where
there was no directory. -/
theorem put_cases (d : Disk) (l : Location) (c : Bytes) (t : ℤ) :
    (∃ e, d.put l c t = (.error e, d)) ∨ ∃ p, d.followAbove l.place = .ok p ∧
      ((∃ e, d.put l c t = (.error e, d.makeParents p)) ∨ l.dirOnly = false ∧ p ≠ [] ∧
        (d.makeParents p).entries.lookup p ≠ some .dir ∧
        d.put l c t = (.ok (), (d.makeParents p).insert p c t)) := by
  unfold put
  split
  · exact .inl ⟨_, rfl⟩
  · exact .inl ⟨_, rfl⟩
  rename_i p hp
  refine .inr ⟨p, hp, ?_⟩
  dsimp only
  by_cases h0 : p = []
  · refine .inl ⟨isADirectory, ?_⟩
    simp [entry, h0]
  rw [entry_of_ne h0]
  by_cases hdir : (d.makeParents p).entries.lookup p = some .dir
  · exact .inl ⟨isADirectory, by rw [hdir]⟩
  by_cases honly : l.dirOnly = true
  · refine .inl ⟨notADirectory, ?_⟩
    split
    · exact absurd ‹_› hdir
    · rw [if_pos honly]
  · refine .inr ⟨by simpa using honly, h0, hdir, ?_⟩
    split
    · exact absurd ‹_› hdir
    · rw [if_neg honly]

/-- What a removal leaves. -/
theorem remove_cases (d : Disk) (l : Location) :
    (∃ e, d.remove l = (.error e, d) ∧ (e = .notFound → ∀ p, d.followAbove l.place = .ok p →
      d.entries.lookup p = none)) ∨
      ∃ p, d.followAbove l.place = .ok p ∧ l.dirOnly = false ∧ d.entries.lookup p ≠ some .dir ∧
        d.remove l = (.ok (), d.erase p) := by
  unfold remove
  split
  · rename_i e he
    exact .inl ⟨e, rfl, fun _ p hp => by rw [he] at hp; cases hp⟩
  rename_i p hp
  by_cases h0 : p = []
  · exact .inl ⟨isADirectory, by simp [entry, h0], by rintro ⟨⟩⟩
  rw [entry_of_ne h0]
  by_cases hdir : d.entries.lookup p = some .dir
  · rw [hdir]
    exact .inl ⟨isADirectory, rfl, by rintro ⟨⟩⟩
  split
  · exact absurd ‹_› hdir
  by_cases hnone : d.entries.lookup p = none ∧ d.links.lookup p = none
  · rw [if_pos hnone]
    refine .inl ⟨.notFound, rfl, fun _ p' hp' => ?_⟩
    obtain rfl := Except.ok.inj (hp.symm.trans hp')
    exact hnone.1
  rw [if_neg hnone]
  by_cases honly : l.dirOnly = true
  · exact .inl ⟨notADirectory, if_pos honly, by rintro ⟨⟩⟩
  · exact .inr ⟨p, hp, by simpa using honly, hdir, if_neg honly⟩

/-- **A put keeps the directory well formed**, whatever it is asked to
write. -/
theorem WellFormed.put (hd : d.WellFormed) (hl : Named l.place) : (d.put l c t).2.WellFormed := by
  rcases put_cases d l c t with ⟨e, h⟩ | ⟨p, hp, ⟨e, h⟩ | ⟨-, h0, hdir, h⟩⟩
  · rw [h]
    exact hd
  · obtain ⟨hopen, hnames⟩ := open_of_followAbove hd hl hp
    rw [h]
    exact (hd.makeParents hnames hopen).1
  · obtain ⟨hopen, hnames⟩ := open_of_followAbove hd hl hp
    obtain ⟨hmade, hparents⟩ := hd.makeParents hnames hopen
    rw [h]
    exact hmade.insert h0 hnames hparents hdir

theorem WellFormed.remove (hd : d.WellFormed) : (d.remove l).2.WellFormed := by
  rcases remove_cases d l with ⟨e, h, -⟩ | ⟨p, -, -, hdir, h⟩
  · rw [h]
    exact hd
  · rw [h]
    exact hd.erase hdir

/-- A put changes no file but the one it names. -/
theorem fileAt_put_of_ne (h : d.followAbove l.place ≠ .ok q) :
    (d.put l c t).2.fileAt q = d.fileAt q := by
  rcases put_cases d l c t with ⟨e, hput⟩ | ⟨p, hp, ⟨e, hput⟩ | ⟨-, -, -, hput⟩⟩
  · rw [hput]
  · rw [hput]
    exact fileAt_makeParents
  · have hne : q ≠ p := fun heq => h (heq ▸ hp)
    rw [hput]
    exact (fileAt_insert_of_ne hne).trans fileAt_makeParents

/-- A put that succeeds leaves the file at its place. -/
theorem fileAt_put_of_ok (h : (d.put l c t).1 = .ok ()) :
    ∃ p, d.followAbove l.place = .ok p ∧ (d.put l c t).2.fileAt p = some (c, t) := by
  rcases put_cases d l c t with ⟨e, hput⟩ | ⟨p, hp, ⟨e, hput⟩ | ⟨-, -, -, hput⟩⟩
  · rw [hput] at h
    cases h
  · rw [hput] at h
    cases h
  · exact ⟨p, hp, by rw [hput]; exact fileAt_insert_self⟩

/-- A put that fails changes no file at all. -/
theorem fileAt_put_of_error (h : (d.put l c t).1 ≠ .ok ()) :
    (d.put l c t).2.fileAt q = d.fileAt q := by
  rcases put_cases d l c t with ⟨e, hput⟩ | ⟨p, hp, ⟨e, hput⟩ | ⟨-, -, -, hput⟩⟩
  · rw [hput]
  · rw [hput]
    exact fileAt_makeParents
  · exact absurd (congrArg Prod.fst hput) h

theorem fileAt_remove_of_ne (h : d.followAbove l.place ≠ .ok q) :
    (d.remove l).2.fileAt q = d.fileAt q := by
  rcases remove_cases d l with ⟨e, hrm, -⟩ | ⟨p, hp, -, -, hrm⟩
  · rw [hrm]
  · rw [hrm]
    exact fileAt_erase_of_ne fun heq => h (heq ▸ hp)

theorem fileAt_remove_of_error (h : (d.remove l).1 ≠ .ok ()) :
    (d.remove l).2.fileAt q = d.fileAt q := by
  rcases remove_cases d l with ⟨e, hrm, -⟩ | ⟨p, -, -, -, hrm⟩
  · rw [hrm]
  · exact absurd (congrArg Prod.fst hrm) h

/-- What is shown and how times are kept is the file system's. -/
theorem put_fixed (d : Disk) (l : Location) (c : Bytes) (t : ℤ) :
    (d.put l c t).2.hidden = d.hidden ∧ (d.put l c t).2.keeps = d.keeps := by
  rcases put_cases d l c t with ⟨e, hput⟩ | ⟨p, -, ⟨e, hput⟩ | ⟨-, -, -, hput⟩⟩ <;>
    · rw [hput]
      exact ⟨rfl, rfl⟩

theorem remove_fixed (d : Disk) (l : Location) :
    (d.remove l).2.hidden = d.hidden ∧ (d.remove l).2.keeps = d.keeps := by
  rcases remove_cases d l with ⟨e, hrm, -⟩ | ⟨p, -, -, -, hrm⟩ <;>
    · rw [hrm]
      exact ⟨rfl, rfl⟩

end Disk

/-! ## The file store on a directory -/

namespace FsFileStore

open Disk

variable {d : Disk} {p q : Place} {c : Bytes} {t now mtime : ℤ} {path : Path} {l : Location}

/-- No part of a split list has the separator in it. -/
theorem not_mem_of_mem_splitOn {α : Type} [BEq α] [LawfulBEq α] {a : α} {part xs : List α}
    (h : part ∈ xs.splitOn a) : a ∉ part := by
  induction xs generalizing part with
  | nil =>
    obtain rfl : part = [] := by simpa using h
    exact List.not_mem_nil
  | cons x xs ih =>
    rw [List.splitOn_cons_eq_if_modifyHead] at h
    by_cases hx : (x == a) = true
    · rw [if_pos hx] at h
      rcases List.mem_cons.1 h with rfl | h
      exacts [List.not_mem_nil, ih h]
    · rw [if_neg hx] at h
      cases hs : xs.splitOn a with
      | nil => exact absurd hs (List.splitOn_ne_nil a xs)
      | cons first parts =>
        rw [hs] at h ih
        rcases List.mem_cons.1 h with rfl | h
        · intro hmem
          rcases List.mem_cons.1 hmem with heq | hmem
          · exact hx (heq ▸ beq_self_eq_true x)
          · exact ih List.mem_cons_self hmem
        · exact ih (List.mem_cons_of_mem _ h)

theorem named_of_pathFor (h : pathFor path = .ok l) : Named l.place := by
  unfold pathFor at h
  dsimp only at h
  split at h
  · cases h
  · rename_i hnot
    obtain rfl := Except.ok.inj h
    intro name hname
    obtain ⟨hmem, hkeep⟩ := List.mem_filter.1 hname
    have hne : name ≠ "" ∧ name ≠ "." := by simpa using hkeep
    refine ⟨hne.1, hne.2, fun hdots => hnot (.inr (hdots ▸ hmem)), ?_⟩
    obtain ⟨part, hpart, rfl⟩ := List.mem_map.1 hmem
    rw [String.toList_ofList]
    exact not_mem_of_mem_splitOn hpart

/-- The place a sync path leads to, links followed, if there is one. -/
def leads (d : Disk) (path : Path) : Option Place :=
  (pathFor path).toOption.bind fun l => d.reaches l.place

theorem leads_eq_some : leads d path = some p ↔
    ∃ l, pathFor path = .ok l ∧ d.followAbove l.place = .ok p := by
  unfold leads
  cases hpath : pathFor path with
  | error e => simp [Except.toOption]
  | ok l => simp [Except.toOption, reaches_eq_some]

theorem leads_of_pathFor (hpath : pathFor path = .ok l) (h : d.followAbove l.place = .ok p) :
    leads d path = some p := leads_eq_some.2 ⟨l, hpath, h⟩

theorem names_of_leads (hd : d.WellFormed) (h : leads d path = some p) :
    ∀ name ∈ p, PlaceName name := by
  obtain ⟨l, hl, hp⟩ := leads_eq_some.1 h
  exact (open_of_followAbove hd (named_of_pathFor hl) hp).2

/-- A path from the walk leads where the walk found it. -/
theorem leads_relPath (hd : d.WellFormed) {e : Entry} (h : d.entries.lookup p = some e)
    (hin : ".." ∉ p) : leads d (relPath p) = some p :=
  leads_of_pathFor (hd.pathFor_relPath h hin) (hd.followAbove h)

theorem put_of_pathFor (h : pathFor path = .ok l) : put d now path c mtime =
    ((d.put l c (d.stamp now mtime)).1.mapError ioErr, (d.put l c (d.stamp now mtime)).2) := by
  rw [put, h]

theorem put_of_error {e : StoreError} (h : pathFor path = .error e) :
    put d now path c mtime = (.error e, d) := by rw [put, h]

theorem wellFormed_put (hd : d.WellFormed) : (put d now path c mtime).2.WellFormed := by
  cases hpath : pathFor path with
  | error e =>
    rw [put_of_error hpath]
    exact hd
  | ok l =>
    rw [put_of_pathFor hpath]
    exact hd.put (named_of_pathFor hpath)

theorem delete_snd (h : pathFor path = .ok l) : (delete d path).2 = (d.remove l).2 := by
  rw [delete, h]
  dsimp only
  generalize d.remove l = r
  obtain ⟨e | _, d'⟩ := r
  · cases e <;> rfl
  · rfl

/-- **What a removal comes to**: it fails, nothing is there, or what is there
is taken away. -/
theorem delete_cases (d : Disk) (path : Path) :
    (∃ e, delete d path = (.error e, d)) ∨
      (delete d path = (.ok (), d) ∧ ∀ r, leads d path = some r → d.entries.lookup r = none) ∨
      ∃ r, leads d path = some r ∧ d.entries.lookup r ≠ some .dir ∧
        delete d path = (.ok (), d.erase r) := by
  cases hpath : pathFor path with
  | error e => exact .inl ⟨e, by rw [delete, hpath]⟩
  | ok l =>
    rw [delete, hpath]
    dsimp only
    rcases remove_cases d l with ⟨e, hrm, hnone⟩ | ⟨r, hr, -, hdir, hrm⟩
    · rw [hrm]
      cases e with
      | notFound =>
        refine .inr (.inl ⟨rfl, fun r hr => ?_⟩)
        obtain ⟨l', hl', hr⟩ := leads_eq_some.1 hr
        obtain rfl := Except.ok.inj (hpath.symm.trans hl')
        exact hnone rfl r hr
      | other message => exact .inl ⟨_, rfl⟩
    · rw [hrm]
      exact .inr (.inr ⟨r, leads_of_pathFor hpath hr, hdir, rfl⟩)

theorem wellFormed_delete (hd : d.WellFormed) : (delete d path).2.WellFormed := by
  rcases delete_cases d path with ⟨e, h⟩ | ⟨h, -⟩ | ⟨r, -, hdir, h⟩
  · rw [h]
    exact hd
  · rw [h]
    exact hd
  · rw [h]
    exact hd.erase hdir

/-- What is shown and how times are kept stays. -/
theorem put_fixed (d : Disk) (now : ℤ) (path : Path) (c : Bytes) (mtime : ℤ) :
    (put d now path c mtime).2.hidden = d.hidden ∧ (put d now path c mtime).2.keeps = d.keeps := by
  cases hpath : pathFor path with
  | error e => rw [put_of_error hpath]; exact ⟨rfl, rfl⟩
  | ok l => rw [put_of_pathFor hpath]; exact Disk.put_fixed ..

theorem delete_fixed (d : Disk) (path : Path) :
    (delete d path).2.hidden = d.hidden ∧ (delete d path).2.keeps = d.keeps := by
  rcases delete_cases d path with ⟨e, h⟩ | ⟨h, -⟩ | ⟨r, -, -, h⟩ <;>
    · rw [h]
      exact ⟨rfl, rfl⟩

@[simp] theorem shows_put : (put d now path c mtime).2.shows p = d.shows p := by
  rw [shows, (put_fixed d now path c mtime).1, shows]

@[simp] theorem shows_delete : (delete d path).2.shows p = d.shows p := by
  rw [shows, (delete_fixed d path).1, shows]

@[simp] theorem stamp_put {now' m : ℤ} :
    (put d now path c mtime).2.stamp now' m = d.stamp now' m := by
  rw [stamp, (put_fixed d now path c mtime).2, stamp]

@[simp] theorem stamp_delete {now' m : ℤ} :
    (delete d path).2.stamp now' m = d.stamp now' m := by
  rw [stamp, (delete_fixed d path).2, stamp]

/-- A put changes no file but the one its path leads to. -/
theorem fileAt_put_of_ne (h : leads d path ≠ some q) :
    (put d now path c mtime).2.fileAt q = d.fileAt q := by
  cases hpath : pathFor path with
  | error e => rw [put_of_error hpath]
  | ok l =>
    rw [put_of_pathFor hpath]
    exact Disk.fileAt_put_of_ne fun hq => h (leads_of_pathFor hpath hq)

/-- A put that succeeds leaves the file where its path leads. -/
theorem fileAt_put_of_ok (h : (put d now path c mtime).1 = .ok ()) :
    ∃ r, leads d path = some r ∧
      (put d now path c mtime).2.fileAt r = some (c, d.stamp now mtime) := by
  cases hpath : pathFor path with
  | error e =>
    rw [put_of_error hpath] at h
    cases h
  | ok l =>
    rw [put_of_pathFor hpath] at h ⊢
    have hput : (d.put l c (d.stamp now mtime)).1 = .ok () := by
      cases hr : (d.put l c (d.stamp now mtime)).1 with
      | ok _ => rfl
      | error e =>
        rw [hr] at h
        cases h
    obtain ⟨r, hr, hfile⟩ := Disk.fileAt_put_of_ok hput
    exact ⟨r, leads_of_pathFor hpath hr, hfile⟩

/-- A put that fails changes no file at all. -/
theorem fileAt_put_of_error {e : StoreError} (h : (put d now path c mtime).1 = .error e) :
    (put d now path c mtime).2.fileAt q = d.fileAt q := by
  cases hpath : pathFor path with
  | error e => rw [put_of_error hpath]
  | ok l =>
    rw [put_of_pathFor hpath] at h ⊢
    refine Disk.fileAt_put_of_error fun hok => ?_
    rw [hok] at h
    cases h

theorem fileAt_delete_of_ne (h : leads d path ≠ some q) :
    (delete d path).2.fileAt q = d.fileAt q := by
  rcases delete_cases d path with ⟨e, hdel⟩ | ⟨hdel, -⟩ | ⟨r, hr, -, hdel⟩
  · rw [hdel]
  · rw [hdel]
  · rw [hdel]
    exact fileAt_erase_of_ne fun heq => h (heq ▸ hr)

/-- A removal that fails changes nothing. -/
theorem delete_of_error {e : StoreError} (h : (delete d path).1 = .error e) :
    (delete d path).2 = d := by
  rcases delete_cases d path with ⟨e, hdel⟩ | ⟨hdel, -⟩ | ⟨r, -, -, hdel⟩
  · rw [hdel]
  · rw [hdel]
  · rw [hdel] at h
    cases h

/-- What a removal that succeeds leaves where its path leads. -/
theorem fileAt_delete_of_ok (hr : leads d path = some p) (h : (delete d path).1 = .ok ()) :
    (delete d path).2.fileAt p = none := by
  rcases delete_cases d path with ⟨e, hdel⟩ | ⟨hdel, hnone⟩ | ⟨r, hr', -, hdel⟩
  · rw [hdel] at h
    cases h
  · rw [hdel]
    simp only [fileAt, hnone p hr]
  · obtain rfl := Option.some.inj (hr.symm.trans hr')
    rw [hdel]
    simp only [fileAt, lookup_erase_self]

/-- A removal opens no way, and closes none. -/
theorem clear_delete (h : d.Clear p) : (delete d path).2.Clear p := by
  rcases delete_cases d path with ⟨e, hdel⟩ | ⟨hdel, -⟩ | ⟨r, -, -, hdel⟩
  · rwa [hdel]
  · rwa [hdel]
  rw [hdel]
  have hlink : ∀ q, d.links.lookup q = none → (d.erase r).links.lookup q = none := by
    intro q hq
    by_cases hqr : q = r
    · exact hqr ▸ AList.lookup_erase ..
    · exact (AList.lookup_erase_ne hqr).trans hq
  refine ⟨fun q hq => ⟨hlink q (h.above q hq).1, ?_⟩, hlink p h.here, h.names⟩
  have hfile := (h.above q hq).2
  rw [← Bool.not_eq_true, isFile_eq_true] at hfile ⊢
  rintro ⟨c, t, he⟩
  refine hfile ⟨c, t, ?_⟩
  unfold entry at he ⊢
  split at he
  · cases he
  · rename_i hq0
    have hne : q ≠ r := by
      rintro rfl
      rw [lookup_erase_self] at he
      cases he
    rwa [if_neg hq0, ← lookup_erase_of_ne hne]

/-- A removal makes no file. -/
theorem fileAt_of_delete (h : (delete d path).2.fileAt q = some (c, t)) :
    d.fileAt q = some (c, t) := by
  by_cases hl : leads d path = some q
  · cases hdel : (delete d path).1 with
    | ok _ =>
      rw [fileAt_delete_of_ok hl hdel] at h
      cases h
    | error e => rwa [delete_of_error hdel] at h
  · rwa [fileAt_delete_of_ne hl] at h

/-- A file under the root can be written again. -/
theorem put_existing (hd : d.WellFormed) (h : d.fileAt p = some (c, t)) (hin : ".." ∉ p)
    (now mtime : ℤ) (c' : Bytes) : (put d now (relPath p) c' mtime).1 = .ok () := by
  have he := fileAt_eq_some.1 h
  have hmk : (d.makeParents p).entries.lookup p = some (.file c t) := by
    rw [lookup_makeParents, he]
    rfl
  have h0 := hd.ne_root p _ he
  simp [put, hd.pathFor_relPath he hin, Disk.put, hd.followAbove he, entry_of_ne h0, hmk,
    Except.mapError]

theorem fileAt_put_existing (hd : d.WellFormed) (h : d.fileAt p = some (c, t)) (hin : ".." ∉ p)
    (now mtime : ℤ) (c' : Bytes) :
    (put d now (relPath p) c' mtime).2.fileAt p = some (c', d.stamp now mtime) := by
  obtain ⟨r, hr, hfile⟩ := fileAt_put_of_ok (put_existing hd h hin now mtime c')
  rw [leads_relPath hd (fileAt_eq_some.1 h) hin] at hr
  obtain rfl := Option.some.inj hr
  exact hfile

/-- And it can be read. -/
theorem read_existing (hd : d.WellFormed) (h : d.fileAt p = some (c, t)) :
    d.read ⟨p, false⟩ = .ok c := by
  have he := fileAt_eq_some.1 h
  simp [Disk.read, hd.follow he, entry_of_ne (hd.ne_root p _ he), he]

/-- Reading a path with nothing on the way gives what the file there holds. -/
theorem get_eq_ok_some (hp : d.Clear p) (h0 : p ≠ []) (hpath : pathFor path = .ok ⟨p, false⟩) :
    get d path = .ok (some c) ↔ (d.fileAt p).map Prod.fst = some c := by
  have hread : d.read ⟨p, false⟩ = match d.fileAt p with
      | some (b, _) => .ok b
      | none => if d.entries.lookup p = some .dir then .error isADirectory else .error .notFound := by
    rw [Disk.read, follow_of_clear hp]
    dsimp only
    rw [entry_of_ne h0, fileAt]
    cases d.entries.lookup p with
    | none => rfl
    | some e => cases e <;> rfl
  rw [get, hpath]
  simp only [bind, Except.bind, hread]
  cases d.fileAt p with
  | some f => simp [pure, Except.pure]
  | none =>
    dsimp only
    by_cases hdir : d.entries.lookup p = some .dir
    · simp [hdir, isADirectory]
    · simp [hdir, pure, Except.pure]

/-- Reading its path gives what the file holds. -/
theorem get_existing (hd : d.WellFormed) (h : d.fileAt p = some (c, t)) (hin : ".." ∉ p) :
    get d (relPath p) = .ok (some c) := by
  have hread := read_existing hd h
  rw [get, hd.pathFor_relPath (fileAt_eq_some.1 h) hin]
  simp only [bind, Except.bind, hread]
  rfl

end FsFileStore

/-! ## Directories that differ only in their files' bytes -/

def Entry.isDir : Entry → Bool
  | dir => true
  | file _ _ => false

namespace Disk

/-- The same links and directories, and files at the same places. -/
structure Alike (d d' : Disk) : Prop where
  links : ∀ r, d'.links.lookup r = d.links.lookup r
  entries : ∀ r, (d'.entries.lookup r).map Entry.isDir = (d.entries.lookup r).map Entry.isDir

namespace Alike

variable {d d' d'' : Disk} {p : Place} {c c' : Bytes} {t t' : ℤ}

theorem refl (d : Disk) : Alike d d := ⟨fun _ => rfl, fun _ => rfl⟩

theorem trans (h : Alike d d') (h' : Alike d' d'') : Alike d d'' :=
  ⟨fun r => (h'.links r).trans (h.links r), fun r => (h'.entries r).trans (h.entries r)⟩

theorem entry (h : Alike d d') (r : Place) :
    (d'.entry r).map Entry.isDir = (d.entry r).map Entry.isDir := by
  unfold Disk.entry
  split
  · rfl
  · exact h.entries r

theorem isFile (h : Alike d d') (r : Place) : d'.isFile r = d.isFile r := by
  have hentry := h.entry r
  unfold Disk.isFile
  cases he : d.entry r with
  | none =>
    rw [he] at hentry
    rw [Option.map_eq_none_iff.1 hentry]
  | some e =>
    rw [he] at hentry
    obtain ⟨e', he', hkind⟩ := Option.map_eq_some_iff.1 hentry
    rw [he']
    cases e <;> cases e' <;> first | rfl | cases hkind

/-- **Paths lead to the same places** in both. -/
theorem walk (h : Alike d d') (jump : ℕ → Place → Except IoError (Place × ℕ)) (k : ℕ)
    (here names : List String) : d'.walk jump k here names = d.walk jump k here names := by
  induction names generalizing k here with
  | nil => rfl
  | cons name names ih =>
    rw [Disk.walk, Disk.walk, h.links, h.isFile]
    simp only [ih]
    cases d.links.lookup (here ++ [name]) with
    | none => rfl
    | some target =>
      cases k with
      | zero => rfl
      | succ k =>
        dsimp only
        cases jump k target with
        | error e => rfl
        | ok there =>
          have hentry := h.entry there.1
          dsimp only
          split
          · rfl
          · cases he : d.entry there.1 with
            | none =>
              rw [he] at hentry
              rw [Option.map_eq_none_iff.1 hentry]
            | some e =>
              rw [he] at hentry
              obtain ⟨e', he', hkind⟩ := Option.map_eq_some_iff.1 hentry
              rw [he']
              cases e <;> cases e' <;> first | rfl | cases hkind

theorem walkFrom (h : Alike d d') (depth : ℕ) : d'.walkFrom depth = d.walkFrom depth := by
  induction depth with
  | zero =>
    funext k p
    exact h.walk ..
  | succ depth ih =>
    funext k p
    rw [Disk.walkFrom, Disk.walkFrom, ih]
    exact h.walk ..

theorem follow (h : Alike d d') (p : Place) : d'.follow p = d.follow p := by
  rw [Disk.follow, Disk.follow, h.walkFrom]

theorem followAbove (h : Alike d d') (p : Place) : d'.followAbove p = d.followAbove p := by
  unfold Disk.followAbove
  simp only [h.follow, h.isFile]

theorem clear (h : Alike d d') (hp : d.Clear p) : d'.Clear p :=
  ⟨fun q hq => ⟨(h.links q).trans (hp.above q hq).1, (h.isFile q).trans (hp.above q hq).2⟩,
    (h.links p).trans hp.here, hp.names⟩

theorem leads (h : Alike d d') (path : Path) :
    FsFileStore.leads d' path = FsFileStore.leads d path := by
  unfold FsFileStore.leads Disk.reaches
  simp only [h.followAbove]

theorem erase (h : Alike d d') (p : Place) : Alike (d.erase p) (d'.erase p) := by
  refine ⟨fun r => ?_, fun r => ?_⟩
  · by_cases hr : r = p
    · subst hr
      exact (AList.lookup_erase r d'.links).trans (AList.lookup_erase r d.links).symm
    · exact ((AList.lookup_erase_ne hr).trans (h.links r)).trans (AList.lookup_erase_ne hr).symm
  · by_cases hr : r = p
    · rw [hr, lookup_erase_self, lookup_erase_self]
    · rw [lookup_erase_of_ne hr, lookup_erase_of_ne hr, h.entries]

/-- A removal does the same to both. -/
theorem remove (h : Alike d d') (l : Location) : Alike (d.remove l).2 (d'.remove l).2 := by
  unfold Disk.remove
  rw [h.followAbove]
  cases d.followAbove l.place with
  | error e => exact h
  | ok p =>
    have hentry := h.entry p
    dsimp only
    rw [h.links]
    cases he : d.entry p with
    | none =>
      rw [he] at hentry
      rw [Option.map_eq_none_iff.1 hentry]
      dsimp only
      split_ifs
      exacts [h, h, h.erase p]
    | some e =>
      rw [he] at hentry
      obtain ⟨e', he', hkind⟩ := Option.map_eq_some_iff.1 hentry
      rw [he']
      cases e with
      | dir =>
        cases e' with
        | dir => exact h
        | file c t => cases hkind
      | file c t =>
        cases e' with
        | dir => cases hkind
        | file c' t' =>
          simp only [reduceCtorEq, false_and, if_false]
          split_ifs
          exacts [h, h.erase p]

theorem delete (h : Alike d d') (path : Path) :
    Alike (FsFileStore.delete d path).2 (FsFileStore.delete d' path).2 := by
  cases hpath : FsFileStore.pathFor path with
  | error e =>
    rw [FsFileStore.delete, FsFileStore.delete, hpath]
    exact h
  | ok l =>
    rw [FsFileStore.delete_snd hpath, FsFileStore.delete_snd hpath]
    exact h.remove l

/-- A file that is put again where it was. -/
theorem put_existing (hd : d.WellFormed) (h : d.fileAt p = some (c, t)) (hin : ".." ∉ p)
    (now mtime : ℤ) (c' : Bytes) :
    Alike d (FsFileStore.put d now (relPath p) c' mtime).2 := by
  have he := fileAt_eq_some.1 h
  have hmade : ∀ r, (d.makeParents p).entries.lookup r = d.entries.lookup r := by
    intro r
    rw [lookup_makeParents]
    by_cases hr : r ∈ parents p
    · rw [hd.parents p _ he r hr]
      rfl
    · rw [if_neg hr, Option.or_none]
  have hput : (FsFileStore.put d now (relPath p) c' mtime).2 =
      (d.makeParents p).insert p c' (d.stamp now mtime) := by
    rw [FsFileStore.put_of_pathFor (hd.pathFor_relPath he hin), Disk.put, hd.followAbove he]
    dsimp only
    rw [entry_of_ne (hd.ne_root p _ he), hmade, he]
    rfl
  rw [hput]
  refine ⟨fun r => ?_, fun r => ?_⟩
  · by_cases hr : r = p
    · subst hr
      exact (AList.lookup_erase ..).trans (hd.clear he).here.symm
    · exact AList.lookup_erase_ne hr
  · by_cases hr : r = p
    · rw [hr, lookup_insert_self, he]
      rfl
    · rw [lookup_insert_of_ne hr, hmade]

end Alike

end Disk

/-! ## The scan -/

namespace Disk

variable {d : Disk} {p : Place} {path path' : Path} {m : ℤ}

/-- A file the scan comes to. -/
def Scanned (d : Disk) (p : Place) (c : Bytes) (t : ℤ) : Prop :=
  d.fileAt p = some (c, t) ∧ d.shows p = true

theorem shows_eq_true : d.shows p = true ↔
    p.any endsInTmp = false ∧ ".." ∉ p ∧ ∀ q, q <+: p → d.hidden q = false := by
  simp [shows, List.mem_inits, and_assoc]

/-- What the walk comes to is under the root. -/
theorem not_mem_of_shows (h : d.shows p = true) : ".." ∉ p := (shows_eq_true.1 h).2.1

/-- **What a scan lists**: the files the walk comes to, each by its path, with
its time. -/
theorem mem_scan : (path, m) ∈ d.scan ↔
    ∃ p c t, d.Scanned p c t ∧ path = relPath p ∧ m = max 0 t := by
  unfold scan
  rw [List.mem_filterMap]
  constructor
  · rintro ⟨⟨p, e⟩, hmem, he⟩
    cases e with
    | dir => simp at he
    | file c t =>
      dsimp only at he
      split at he
      · rename_i hshows
        obtain ⟨rfl, rfl⟩ := Prod.mk.inj (Option.some.inj he)
        exact ⟨p, c, t, ⟨fileAt_eq_some.2 (AList.mem_lookup_iff.2 hmem), hshows⟩, rfl, rfl⟩
      · cases he
  · rintro ⟨p, c, t, ⟨hfile, hshows⟩, rfl, rfl⟩
    refine ⟨⟨p, .file c t⟩, AList.mem_lookup_iff.1 (fileAt_eq_some.1 hfile), ?_⟩
    dsimp only
    rw [if_pos hshows]

/-- How the scan lists a path it could have from the walk. -/
theorem mem_scan_relPath (hd : d.WellFormed) (hnames : ∀ name ∈ p, PlaceName name)
    (hshows : d.shows p = true) :
    (relPath p, m) ∈ d.scan ↔ ∃ c t, d.fileAt p = some (c, t) ∧ m = max 0 t := by
  rw [mem_scan]
  constructor
  · rintro ⟨q, c, t, ⟨hfile, hq⟩, hrel, rfl⟩
    have hp := validNames hnames (not_mem_of_shows hshows)
    have hnames' := validNames (hd.names q _ (fileAt_eq_some.1 hfile)) (not_mem_of_shows hq)
    obtain rfl := relPath_injOn hp hnames' hrel
    exact ⟨c, t, hfile, rfl⟩
  · rintro ⟨c, t, hfile, rfl⟩
    exact ⟨p, c, t, ⟨hfile, hshows⟩, rfl, rfl⟩

/-- How it lists a path of which no file has changed. -/
theorem mem_scan_congr {d' : Disk} (hshows : ∀ r, d'.shows r = d.shows r)
    (hfiles : ∀ r, d.shows r = true → path = relPath r → d'.fileAt r = d.fileAt r) :
    (path, m) ∈ d'.scan ↔ (path, m) ∈ d.scan := by
  simp only [mem_scan, Scanned, hshows]
  constructor
  · rintro ⟨r, c, t, ⟨hfile, hr⟩, hpath, hm⟩
    exact ⟨r, c, t, ⟨(hfiles r hr hpath).symm.trans hfile, hr⟩, hpath, hm⟩
  · rintro ⟨r, c, t, ⟨hfile, hr⟩, hpath, hm⟩
    exact ⟨r, c, t, ⟨(hfiles r hr hpath).trans hfile, hr⟩, hpath, hm⟩

/-- The same paths are scanned where only bytes and times differ. -/
theorem mem_scan_of_alike {d' : Disk} (h : Alike d d') (hhidden : d'.hidden = d.hidden) :
    path ∈ d'.scan.map Prod.fst ↔ path ∈ d.scan.map Prod.fst := by
  have hscanned : ∀ d : Disk, path ∈ d.scan.map Prod.fst ↔ ∃ p,
      (d.entries.lookup p).map Entry.isDir = some false ∧ d.shows p = true ∧ path = relPath p := by
    intro d
    rw [List.mem_map]
    constructor
    · rintro ⟨⟨path', m⟩, hmem, rfl⟩
      obtain ⟨p, c, t, ⟨hfile, hshows⟩, rfl, -⟩ := mem_scan.1 hmem
      exact ⟨p, by rw [fileAt_eq_some.1 hfile]; rfl, hshows, rfl⟩
    · rintro ⟨p, hfile, hshows, rfl⟩
      obtain ⟨e, he, hkind⟩ := Option.map_eq_some_iff.1 hfile
      cases e with
      | dir => cases hkind
      | file c t => exact ⟨_, mem_scan.2 ⟨p, c, t, ⟨fileAt_eq_some.2 he, hshows⟩, rfl, rfl⟩, rfl⟩
  rw [hscanned, hscanned]
  simp only [h.entries, shows, hhidden]

/-- What is scanned after a removal was scanned before. -/
theorem mem_scan_of_delete (h : (path, m) ∈ (FsFileStore.delete d path').2.scan) :
    (path, m) ∈ d.scan := by
  obtain ⟨p, c, t, ⟨hfile, hshows⟩, hpath, hm⟩ := mem_scan.1 h
  rw [FsFileStore.shows_delete] at hshows
  exact mem_scan.2 ⟨p, c, t, ⟨FsFileStore.fileAt_of_delete hfile, hshows⟩, hpath, hm⟩

end Disk

end FileSync
