import FileSync.Model.Urls
import FileSync.Hub.Resend
import Mathlib.Data.List.Dedup
/-!
# Which document a path addresses

A path that is pushed as a URL segment comes back as the document's id
unless the URL library or CouchDB gives it a meaning of its own: nothing and
the dot segments stand for the database, an underscore begins an endpoint,
tabs and line breaks are dropped, and a plus sign may be read as a space.
Every other path is its own document's id.
-/

namespace FileSync

namespace Addressing

open CouchUrl

variable {U : UrlRules} {S : CouchUrl} {name : String} {path path' : Path} {β : Type}

/-! ## Names of a URL path -/

theorem tokens_append_slash (p e : String) :
    tokens (p ++ "/" ++ e) = tokens p ++ tokens e := by
  have hchars : (p ++ "/" ++ e).toList = p.toList ++ '/' :: e.toList := by
    simp [String.toList_append]
  simp only [tokens, hchars, List.splitOn_append_cons_self, List.filter_append, List.map_append]

theorem tokens_of_not_mem {e : String} (h : '/' ∉ e.toList) :
    tokens e = if e = "" then [] else [e] := by
  unfold tokens
  rw [List.splitOn_eq_singleton h]
  by_cases he : e = ""
  · subst he
    rfl
  · have hne : e.toList ≠ [] := fun hnil => he (String.toList_eq_nil_iff.1 hnil)
    rw [if_neg he, List.filter_cons_of_pos (by simpa using hne)]
    simp

/-- A pushed segment is one more name, unless it is empty. -/
theorem tokens_push {segment : String} (p : String) (h : kept segment ≠ ".")
    (h' : kept segment ≠ "..") :
    tokens (U.push p segment) = tokens p ++ if kept segment = "" then [] else [U.encode segment] := by
  have hname : tokens (U.encode segment) =
      if kept segment = "" then [] else [U.encode segment] := by
    rw [tokens_of_not_mem (U.encode_slash segment)]
    simp only [U.encode_eq_empty]
  rw [U.push_segment p segment h h', ← hname]
  by_cases hp : p = "/"
  · subst hp
    have hempty : tokens "/" = tokens "" := by decide
    rw [if_pos rfl, hempty]
    exact tokens_append_slash "" (U.encode segment)
  · rw [if_neg hp, tokens_append_slash]

/-- What CouchDB reads of a pushed segment. -/
def read (U : UrlRules) (segment : String) : String :=
  String.ofList ((kept segment).toList.map fun c => if U.plusIsSpace && c = '+' then ' ' else c)

/-- A path that nothing else has a meaning for. -/
structure Ordinary (U : UrlRules) (path : Path) : Prop where
  ne_empty : path ≠ ""
  ne_dot : path ≠ "."
  ne_dots : path ≠ ".."
  not_system : startsWith "_" path = false
  read_eq : read U path = path

instance : Decidable (Ordinary U path) :=
  decidable_of_iff (path ≠ "" ∧ path ≠ "." ∧ path ≠ ".." ∧ startsWith "_" path = false ∧
    read U path = path)
    ⟨fun h => ⟨h.1, h.2.1, h.2.2.1, h.2.2.2.1, h.2.2.2.2⟩,
      fun h => ⟨h.ne_empty, h.ne_dot, h.ne_dots, h.not_system, h.read_eq⟩⟩

/-- The path's URL stands for a document, its own or another's. -/
structure Document (U : UrlRules) (path : Path) : Prop where
  ne_empty : kept path ≠ ""
  ne_dot : kept path ≠ "."
  ne_dots : kept path ≠ ".."
  not_system : startsWith "_" (read U path) = false

instance : Decidable (Document U path) :=
  decidable_of_iff (kept path ≠ "" ∧ kept path ≠ "." ∧ kept path ≠ ".." ∧
    startsWith "_" (read U path) = false)
    ⟨fun h => ⟨h.1, h.2.1, h.2.2.1, h.2.2.2⟩,
      fun h => ⟨h.ne_empty, h.ne_dot, h.ne_dots, h.not_system⟩⟩

/-- The hub's database is there: its URL is a database's. -/
def Serves (U : UrlRules) (S : CouchUrl) (name : String) : Prop :=
  S.resource U (S.dbUrl U) = some (.database name)

instance : Decidable (Serves U S name) := inferInstanceAs (Decidable (_ = _))

/-- Every request made for the path reaches its document or that document's
content, in the hub's database. -/
def Own (U : UrlRules) (S : CouchUrl) (name : String) (path : Path) : Prop :=
  ∀ ⦃β : Type⦄ (e : CouchReq β), e.id? = some path →
    S.target U (S.request U e) = some (e.meant name path)

theorem read_eq_empty : read U path = "" ↔ kept path = "" := by
  unfold read
  rw [← String.toList_eq_nil_iff, String.toList_ofList, List.map_eq_nil_iff,
    String.toList_eq_nil_iff]

theorem kept_append (s s' : String) : kept (s ++ s') = kept s ++ kept s' := by
  simp only [kept, String.toList_append, List.filter_append, String.ofList_append]

theorem read_append (s s' : String) : read U (s ++ s') = read U s ++ read U s' := by
  simp only [read, kept_append, String.toList_append, List.map_append, String.ofList_append]

/-- What is added to a document's path leaves it one, if it is more than tabs
and line breaks. -/
theorem Document.append {mark rest : String} (h : Document U path)
    (hmark : 2 ≤ (kept mark).toList.length) : Document U (path ++ mark ++ rest) := by
  have hlen : 3 ≤ (kept (path ++ mark ++ rest)).toList.length := by
    have hpath : 0 < (kept path).toList.length :=
      List.length_pos_of_ne_nil fun hnil => h.ne_empty (String.toList_eq_nil_iff.1 hnil)
    simp only [kept_append, String.toList_append, List.length_append]
    omega
  refine ⟨fun heq => ?_, fun heq => ?_, fun heq => ?_, ?_⟩
  · rw [heq] at hlen
    exact absurd hlen (by decide)
  · rw [heq] at hlen
    exact absurd hlen (by decide)
  · rw [heq] at hlen
    exact absurd hlen (by decide)
  · have hread : (read U path).toList ≠ [] := fun hnil =>
      h.ne_empty (read_eq_empty.1 (String.toList_eq_nil_iff.1 hnil))
    have hfirst := h.not_system
    rw [String.append_assoc, read_append]
    unfold startsWith at hfirst ⊢
    rw [String.toList_append]
    cases hl : (read U path).toList with
    | nil => exact absurd hl hread
    | cons c cs =>
      rw [hl] at hfirst
      simpa [List.isPrefixOf] using hfirst

/-! ## What the requests reach -/

theorem ofNames_cons (db n : String) (names : List String) :
    Resource.ofNames (db :: n :: names) =
      if startsWith "_" n then .endpoint db n
      else if names = [] then .document db n
      else .attachment db n names := rfl

theorem ofNames_eq_database {names : List String} (h : Resource.ofNames names = .database name) :
    names = [name] := by
  match names, h with
  | [], h => cases h
  | [db], h =>
    cases h
    rfl
  | db :: n :: rest, h =>
    rw [ofNames_cons] at h
    split at h
    · cases h
    split at h
    · cases h
    · cases h

/-- The names after the base's, where the database's URL has one. -/
theorem Serves.names (h : Serves U S name) : ∃ n, tokens (S.dbUrl U) = tokens S.base ++ [n] ∧
    U.unquote n = name := by
  unfold Serves CouchUrl.resource at h
  split at h
  · rename_i hprefix
    obtain ⟨names, hnames⟩ := hprefix
    have hlist := ofNames_eq_database (Option.some.inj h)
    rw [← hnames, List.drop_left] at hlist
    obtain ⟨n, hn, hname⟩ := List.map_eq_singleton_iff.1 hlist
    exact ⟨n, by rw [← hnames, hn], hname⟩
  · cases h

/-- What a URL below the database's stands for. -/
theorem Serves.resource_of_tokens (h : Serves U S name) {p : String} {names : List String}
    (hp : tokens p = tokens (S.dbUrl U) ++ names) :
    S.resource U p = some (.ofNames (name :: names.map U.unquote)) := by
  obtain ⟨n, hdb, hname⟩ := h.names
  rw [hdb, List.append_assoc] at hp
  have hprefix : tokens S.base <+: tokens p := ⟨[n] ++ names, hp.symm⟩
  rw [CouchUrl.resource, if_pos hprefix, hp, List.drop_left]
  simp [hname]

theorem tokens_docUrl (h : kept path ≠ ".") (h' : kept path ≠ "..") :
    tokens (S.docUrl U path) =
      tokens (S.dbUrl U) ++ if kept path = "" then [] else [U.encode path] :=
  tokens_push _ h h'

/-- A dot segment reaches no document. -/
theorem Serves.docUrl_dots (h : Serves U S name) (hdots : kept path = "." ∨ kept path = "..")
    (db : String) (id : Path) : S.resource U (S.docUrl U path) ≠ some (.document db id) := by
  obtain ⟨n, hdb, -⟩ := h.names
  have hpre : tokens (S.docUrl U path) <+: tokens (S.dbUrl U) := U.push_dot_names _ _ hdots
  unfold CouchUrl.resource
  split
  · rename_i hbase
    obtain ⟨names, hnames⟩ := hbase
    have hlen := hpre.length_le
    rw [← hnames, hdb, List.length_append, List.length_append, List.length_singleton] at hlen
    rw [← hnames, List.drop_left]
    match names, hlen with
    | [], _ => exact fun heq => by cases heq
    | [m], _ => exact fun heq => by cases heq
    | m :: m' :: rest, hlen =>
      simp only [List.length_cons] at hlen
      omega
  · exact fun heq => by cases heq

/-- **The document a path's URL stands for** is what CouchDB reads of the
path. -/
theorem Serves.resource_docUrl (h : Serves U S name) (hd : kept path ≠ ".")
    (hd' : kept path ≠ "..") : S.resource U (S.docUrl U path) =
      some (.ofNames (name :: if kept path = "" then [] else [read U path])) := by
  rw [h.resource_of_tokens (tokens_docUrl hd hd')]
  by_cases hk : kept path = ""
  · rw [if_pos hk, if_pos hk]
    rfl
  · rw [if_neg hk, if_neg hk, List.map_singleton, U.unquote_encode]
    rfl

/-- **A path whose requests reach its document is ordinary.** -/
theorem ordinary_of_own (h : Serves U S name) (hown : Own U S name path) : Ordinary U path := by
  have hget : S.resource U (S.docUrl U path) = some (.document name path) := by
    have htarget := hown (.getDoc path) rfl
    unfold CouchUrl.target at htarget
    split at htarget
    · rename_i hids
      cases hids
    · exact htarget
  have hd : kept path ≠ "." := fun heq => h.docUrl_dots (.inl heq) _ _ hget
  have hd' : kept path ≠ ".." := fun heq => h.docUrl_dots (.inr heq) _ _ hget
  rw [h.resource_docUrl hd hd'] at hget
  have hk : kept path ≠ "" := by
    intro hk
    rw [if_pos hk] at hget
    cases hget
  rw [if_neg hk] at hget
  rw [ofNames_cons] at hget
  split at hget
  · cases hget
  rename_i hsystem
  rw [if_pos rfl] at hget
  have hread : read U path = path := by
    injection Option.some.inj hget
  rw [hread] at hsystem
  refine ⟨?_, ?_, ?_, by simpa using hsystem, hread⟩
  · rintro rfl
    exact hk rfl
  · rintro rfl
    exact hd rfl
  · rintro rfl
    exact hd' rfl

theorem Ordinary.document (ho : Ordinary U path) : Document U path where
  ne_empty hk := ho.ne_empty (ho.read_eq ▸ read_eq_empty.2 hk)
  ne_dot hk := by
    have hread := ho.read_eq
    rw [read, hk] at hread
    refine ho.ne_dot (hread.symm.trans ?_)
    cases U.plusIsSpace <;> decide
  ne_dots hk := by
    have hread := ho.read_eq
    rw [read, hk] at hread
    refine ho.ne_dots (hread.symm.trans ?_)
    cases U.plusIsSpace <;> decide
  not_system := ho.read_eq.symm ▸ ho.not_system

/-- **A request for a document reaches the one that is read of its path**,
whatever else the path could have meant. -/
theorem target_of_document (h : Serves U S name) (hdoc : Document U path) {e : CouchReq β}
    (he : e.urlId? = some path) :
    S.target U (S.request U e) = some (e.meant name (read U path)) := by
  have htokens : tokens (S.docUrl U path) = tokens (S.dbUrl U) ++ [U.encode path] := by
    rw [tokens_docUrl hdoc.ne_dot hdoc.ne_dots, if_neg hdoc.ne_empty]
  have hpath : U.unquote (U.encode path) = read U path := U.unquote_encode path
  have hdocument : S.resource U (S.docUrl U path) = some (.document name (read U path)) := by
    rw [h.resource_of_tokens htokens, List.map_singleton, hpath, ofNames_cons, hdoc.not_system]
    rfl
  have hcontent : S.resource U (append U (S.docUrl U path) ["content"]) =
      some (.attachment name (read U path) ["content"]) := by
    have hread : U.unquote (U.encode "content") = "content" := by
      rw [U.unquote_encode]
      cases U.plusIsSpace <;> decide
    have htokens' : tokens (append U (S.docUrl U path) ["content"]) =
        tokens (S.dbUrl U) ++ [U.encode path, U.encode "content"] := by
      show tokens (U.push (S.docUrl U path) "content") = _
      rw [tokens_push _ (by decide) (by decide), htokens, if_neg (by decide), List.append_assoc]
      rfl
    rw [h.resource_of_tokens htokens', List.map_cons, List.map_singleton, hpath, hread,
      ofNames_cons, hdoc.not_system]
    rfl
  cases e with
  | changes since => cases he
  | bulkDocs doc => cases he
  | getAttachment id _ | putAttachment _ id _ _ =>
    obtain rfl := Option.some.inj he
    simp only [CouchUrl.target, CouchUrl.request, hcontent]
    rfl
  | getDoc id | getDocAtRev id _ | openRevs id | putDoc _ id _ _ | deleteDoc _ id _ =>
    obtain rfl := Option.some.inj he
    simp only [CouchUrl.target, CouchUrl.request, hdocument]
    rfl

/-- **Every request for an ordinary path reaches its document.** -/
theorem own_of_ordinary (h : Serves U S name) (ho : Ordinary U path) : Own U S name path := by
  have hbulk : S.resource U (append U (S.dbUrl U) ["_bulk_docs"]) =
      some (.endpoint name "_bulk_docs") := by
    have hread : U.unquote (U.encode "_bulk_docs") = "_bulk_docs" := by
      rw [U.unquote_encode]
      cases U.plusIsSpace <;> decide
    have htokens : tokens (append U (S.dbUrl U) ["_bulk_docs"]) =
        tokens (S.dbUrl U) ++ [U.encode "_bulk_docs"] := by
      show tokens (U.push (S.dbUrl U) "_bulk_docs") = _
      rw [tokens_push _ (by decide) (by decide), if_neg (by decide)]
    rw [h.resource_of_tokens htokens, List.map_singleton, hread, ofNames_cons]
    rfl
  have hurl : ∀ {β : Type} {e : CouchReq β}, e.urlId? = some path →
      S.target U (S.request U e) = some (e.meant name path) := by
    intro β e he
    rw [target_of_document h ho.document he, ho.read_eq]
  intro β e hid
  cases e with
  | changes since => cases hid
  | bulkDocs doc =>
    -- the body names the document, whatever its path is read as
    obtain rfl := Option.some.inj hid
    simp only [CouchUrl.target, CouchUrl.request, hbulk]
    rfl
  | _ => exact hurl hid

/-- Requests for two paths reach two documents. -/
theorem Own.ne {γ : Type} {e : CouchReq β} {e' : CouchReq γ} (h : Own U S name path)
    (h' : Own U S name path') (hne : path ≠ path') (he : e.id? = some path)
    (he' : e'.id? = some path') : S.target U (S.request U e) ≠ S.target U (S.request U e') := by
  rw [h e he, h' e' he']
  intro heq
  have hmeant := Option.some.inj heq
  cases e <;> cases e' <;> injection hmeant <;> exact hne ‹_›

/-! ## What an acknowledged upsert leaves in the feed -/

/-- The revision that carries a stale upsert. -/
def branchRev (change : PushChange) : Rev :=
  ⟨(change.baseRev.elim 0 Rev.gen) + 1, Push.revHash (Push.branchSeed change false
    (change.contentBase64.getD .empty).decode.toOption)⟩

/-- The path of an upsert is in the feed that follows it, from a checkpoint
on. -/
def Announced (C : Couch) (env : HubEnv) (db : Db) (change : PushChange) (since : Checkpoint) :
    Prop :=
  ∃ resp, (Hub.exec C (Routes.getChanges (some since))
      (Hub.exec C (Push.apply env change) db).2).1 = .ok resp ∧
    ∃ entry ∈ resp.changes, entry.path = change.path

/-- The path has been written since the checkpoint, or is written now: the
upsert's base can be written on, or its branch is not there yet, or there is
a conflict to resolve. -/
def Anew (db : Db) (change : PushChange) (since : Checkpoint) : Prop :=
  db.Changed since change.path ∨ ¬ Resend.Stale (db.docs change.path) change ∨
    (∀ n ∈ db.docs change.path, n.rev ≠ branchRev change) ∨
    1 < (db.docs change.path).liveLeaves.length

instance (db : Db) (change : PushChange) (since : Checkpoint) : Decidable (Anew db change since) :=
  inferInstanceAs (Decidable (_ ∨ _ ∨ _ ∨ _))

variable {C : Couch} {env : HubEnv} {db db' : Db} {change : PushChange} {since : Checkpoint}
  {content : Bytes} {parent : Revisions} {rev : Option Rev}

theorem rev_branchDoc (hcontent : (change.contentBase64.getD .empty).decode = .ok content)
    (hparent : Push.parentIn (db.docs change.path) change = .ok parent) :
    (Push.branchDoc change false (some content) parent).rev = branchRev change := by
  have hstart : parent.start = change.baseRev.elim 0 Rev.gen := by
    rcases Push.parentIn_eq_ok hparent with ⟨rfl, hnone⟩ | ⟨p, -, hsome, rfl⟩
    · rw [hnone]
      rfl
    · rw [hsome]
      rfl
  simp only [Push.branchDoc, branchRev, hcontent, hstart]
  rfl

/-- The branch of a stale upsert is written, unless it is there. -/
theorem branched_or (hcontent : (change.contentBase64.getD .empty).decode = .ok content)
    (hparent : Push.parentIn (db.docs change.path) change = .ok parent) :
    (∃ n ∈ db.docs change.path, n.rev = branchRev change) ∧
        Push.branched C change false (some content) parent db = db ∨
      (∀ n ∈ db.docs change.path, n.rev ≠ branchRev change) ∧
        ∃ n, Push.branched C change false (some content) parent db = db.write change.path n := by
  have hrev := rev_branchDoc hcontent hparent
  simp only [Push.branched, Couch.answer]
  cases hfind : (db.docs change.path).find? (Push.branchDoc change false (some content) parent).rev with
  | some n =>
    obtain ⟨hmem, hn⟩ := Tree.find?_eq_some hfind
    refine .inl ⟨⟨n, hmem, hn.trans hrev⟩, ?_⟩
    rw [show (db.docs (Push.branchDoc change false (some content) parent).id).find? _ = some n from hfind]
  | none =>
    refine .inr ⟨fun n hn hbranch => Tree.find?_eq_none.1 hfind n hn (hbranch.trans hrev.symm), ?_⟩
    rw [show (db.docs (Push.branchDoc change false (some content) parent).id).find? _ = none from hfind]
    exact ⟨_, rfl⟩

/-- **A stale upsert that is acknowledged** has written its path if the
branch is new or there is a conflict, and nothing otherwise. -/
theorem changed_iff_of_stale (hdb : Reachable C db) (hle : since ≤ db.log.length)
    (hcontent : (change.contentBase64.getD .empty).decode = .ok content)
    (hok : Hub.exec C (Push.branchAndResolve env change false (some content)) db = (.ok rev, db')) :
    db'.Changed since change.path ↔ db.Changed since change.path ∨
      (∀ n ∈ db.docs change.path, n.rev ≠ branchRev change) ∨
      1 < (db.docs change.path).liveLeaves.length := by
  obtain ⟨parent, o, doc, hparent, hresolve, hdoc, -⟩ := Push.exec_branchAndResolve_eq_ok hok
  have hgrows := Resend.grows_exec C (Resolver.resolve env change.path)
    (Push.branched C change false (some content) parent db)
  rw [hresolve] at hgrows
  rcases branched_or (C := C) hcontent hparent with ⟨hthere, hsame⟩ | ⟨hnew, n, hwrite⟩
  · rw [hsame] at hgrows hresolve
    constructor
    · intro hchanged
      by_cases hmany : 1 < (db.docs change.path).liveLeaves.length
      · exact .inr (.inr hmany)
      -- with no conflict nothing is written
      have hquiet : db' = db := by
        cases hlive : (db.docs change.path).liveLeaves with
        | nil =>
          have htomb : (db.docs change.path).Tombstoned := fun n hn => by
            simpa using List.filter_eq_nil_iff.1 hlive n hn
          rw [Resolver.exec_resolve_of_tombstoned htomb] at hresolve
          exact (Prod.mk.inj hresolve).2.symm
        | cons n rest =>
          rw [hlive, List.length_cons] at hmany
          have hrest : rest = [] := List.eq_nil_of_length_eq_zero (by omega)
          rw [hrest] at hlive
          rw [(Resend.exec_resolve_of_sole C env hlive).1] at hresolve
          exact (Prod.mk.inj hresolve).2.symm
      exact .inl (hquiet ▸ hchanged)
    · rintro (hchanged | hnew | hmany)
      · exact hgrows.changed hchanged
      · obtain ⟨n, hn, hrev⟩ := hthere
        exact absurd hrev (hnew n hn)
      · by_contra hnot
        have hkept := hgrows.docs change.path fun hlater => hnot (Db.Grows.changed_of_le hle hlater)
        have hone := Resolver.length_liveLeaves_of_resolve (hdb.sound change.path) hresolve
        rw [hkept] at hone
        omega
  · refine iff_of_true (hgrows.changed ?_) (.inr (.inl hnew))
    rw [hwrite]
    exact Db.changed_write hle

theorem exists_winner {t : Tree} {r : Rev} {n : Node} (h : t.leaf? r = some n) :
    ∃ w, t.winner = some w := by
  cases hw : t.winner with
  | some w => exact ⟨w, rfl⟩
  | none =>
    have hleaf := (Tree.leaf?_eq_some h).1
    rw [Tree.winner_eq_none.1 hw] at hleaf
    exact absurd hleaf List.not_mem_nil

/-- **An upsert that is acknowledged** leaves a document, and its path has
been written since the checkpoint exactly if it was before or something is
written for it. -/
theorem changed_iff (hdb : Reachable C db) (hle : since ≤ db.log.length)
    (hup : change.deleted = false) (hok : Hub.exec C (Push.apply env change) db = (.ok rev, db')) :
    (db'.Changed since change.path ↔ Anew db change since) ∧
      ∃ w, (db'.docs change.path).winner = some w := by
  have hnot : ¬ change.deleted = true := by simp [hup]
  rw [Push.apply, if_neg hnot] at hok
  cases hcontent : (change.contentBase64.getD .empty).decode with
  | error text =>
    rw [Push.exec_applyUpsert_of_malformed hcontent] at hok
    cases (Prod.mk.inj hok).1
  | ok content =>
    rw [Push.exec_applyUpsert hcontent] at hok
    rcases Resend.stale_or (db.docs change.path) change with hstale | ⟨parent, hparent⟩
    · rw [show Couch.putParent (db.docs change.path) change.baseRev = _ from hstale] at hok
      constructor
      · rw [changed_iff_of_stale hdb hle hcontent hok, Anew]
        simp only [hstale, not_true_eq_false, false_or]
      · obtain ⟨-, -, doc, -, -, hdoc, -⟩ := Push.exec_branchAndResolve_eq_ok hok
        obtain ⟨w, hw, -⟩ := Option.map_eq_some_iff.1 hdoc
        exact ⟨w, (Tree.visible_eq_some.1 hw).1⟩
    · have hfresh : ¬ Resend.Stale (db.docs change.path) change := by
        rw [Resend.Stale, hparent]
        rintro ⟨⟩
      rw [hparent] at hok
      dsimp only at hok
      split at hok
      · obtain ⟨-, rfl⟩ := Prod.mk.inj hok
        refine ⟨iff_of_true (Db.changed_write ?_) (.inr (.inl hfresh)), ?_⟩
        · rw [Db.write, List.length_append]
          exact hle.trans (Nat.le_add_right _ _)
        · simp only [Db.write_docs_self]
          refine exists_winner (Push.leaf?_append_child (C := C) ?_)
          rintro p ⟨⟩
          exact List.mem_append_right _ List.mem_cons_self
      · cases (Prod.mk.inj hok).1

/-- **An acknowledged upsert of a path that is not hidden** is announced
exactly if something was written since the checkpoint. -/
theorem announced_iff (hdb : Reachable C db) (hle : since ≤ db.log.length)
    (hsystem : startsWith "_" change.path = false) (hup : change.deleted = false)
    (hok : (Hub.exec C (Push.apply env change) db).1 = .ok rev) :
    Announced C env db change since ↔ Anew db change since := by
  have happly : Hub.exec C (Push.apply env change) db =
      (.ok rev, (Hub.exec C (Push.apply env change) db).2) := Prod.ext hok rfl
  obtain ⟨hchanged, w, hw⟩ := changed_iff hdb hle hup happly
  rw [← hchanged]
  constructor
  · rintro ⟨resp, hresp, entry, hentry, hpath⟩
    obtain rfl := Except.ok.inj hresp
    rw [← hpath]
    exact (Db.mem_changes.1 hentry).1
  · intro h
    have hvisible : Routes.isSystemId change.path = false := by simpa [Routes.isSystemId] using hsystem
    refine ⟨_, rfl, ⟨change.path, w.deleted, w.rev⟩, ?_, rfl⟩
    exact Db.mem_changes.2 ⟨h, hvisible, w, hw, rfl⟩

/-- **What it means for a path to be its own document's.** -/
structure Addressed (U : UrlRules) (S : CouchUrl) (name : String) (path : Path) : Prop where
  own : Own U S name path
  distinct : ∀ path', Own U S name path' → path ≠ path' → ∀ (β γ : Type) (e : CouchReq β)
    (e' : CouchReq γ), e.id? = some path → e'.id? = some path' →
      S.target U (S.request U e) ≠ S.target U (S.request U e')

/-- **A path is its own document's exactly when it is ordinary**: then its
requests reach nothing else, and those of no other such path reach its
document. An upsert of it that is acknowledged is announced as well exactly
when something is written for it. -/
theorem addressed_iff (h : Serves U S name) :
    (Addressed U S name path ↔ Ordinary U path) ∧
      ∀ (C : Couch) (env : HubEnv) (db : Db) (change : PushChange) (since : Checkpoint)
        (rev : Option Rev), Reachable C db → since ≤ db.log.length → change.path = path →
        change.deleted = false → (Hub.exec C (Push.apply env change) db).1 = .ok rev →
        (Addressed U S name path ∧ Announced C env db change since ↔
          Ordinary U path ∧ Anew db change since) := by
  have haddressed : Addressed U S name path ↔ Ordinary U path := by
    constructor
    · intro haddressed
      exact ordinary_of_own h haddressed.own
    · intro ho
      have hown := own_of_ordinary h ho
      exact ⟨hown, fun path' h' hne β γ e e' he he' => hown.ne h' hne he he'⟩
  refine ⟨haddressed, ?_⟩
  rintro C env db change since rev hdb hle rfl hup hok
  rw [haddressed]
  exact and_congr_right fun ho => announced_iff hdb hle ho.not_system hup hok

/-! ## A path that is the database -/

def encodeChar (c : Char) : List Char :=
  if c = '/' then "%2F".toList else if c = '%' then "%25".toList else [c]

def decodeChars : List Char → List Char
  | '%' :: '2' :: 'F' :: cs => '/' :: decodeChars cs
  | '%' :: '2' :: '5' :: cs => '%' :: decodeChars cs
  | c :: cs => (if c = '+' then ' ' else c) :: decodeChars cs
  | [] => []

theorem decodeChars_flatMap (cs : List Char) :
    decodeChars (cs.flatMap encodeChar) = cs.map fun c => if c = '+' then ' ' else c := by
  induction cs with
  | nil => rfl
  | cons c cs ih =>
    rw [List.flatMap_cons, List.map_cons, ← ih, encodeChar]
    by_cases hslash : c = '/'
    · subst hslash
      rfl
    by_cases hpercent : c = '%'
    · subst hpercent
      rfl
    rw [if_neg hslash, if_neg hpercent, List.singleton_append, decodeChars]
    · rintro rest rfl
      exact absurd rfl hpercent
    · rintro rest rfl
      exact absurd rfl hpercent

/-- Rules that encode what the hub needs encoded, and no more. -/
def encodingSlashes : UrlRules where
  push path segment :=
    if kept segment = "." ∨ kept segment = ".." then path
    else (if path = "/" then path else path ++ "/") ++
      String.ofList ((kept segment).toList.flatMap encodeChar)
  encode segment := String.ofList ((kept segment).toList.flatMap encodeChar)
  unquote s := String.ofList (decodeChars s.toList)
  plusIsSpace := true
  push_dots path segment h := by
    refine if_pos ?_
    rcases h with rfl | rfl
    exacts [.inl rfl, .inr rfl]
  push_segment path segment h h' := if_neg (by simp [h, h'])
  push_dot_names path segment h := by
    have hsame : (if kept segment = "." ∨ kept segment = ".." then path
      else (if path = "/" then path else path ++ "/") ++
        String.ofList ((kept segment).toList.flatMap encodeChar)) = path := if_pos h
    exact hsame.symm ▸ List.prefix_rfl
  encode_slash segment := by
    rw [String.toList_ofList, List.mem_flatMap]
    rintro ⟨c, -, hc⟩
    unfold encodeChar at hc
    split at hc
    · exact absurd hc (by decide)
    split at hc
    · exact absurd hc (by decide)
    · rename_i hslash _
      exact hslash (List.mem_singleton.1 hc).symm
  encode_eq_empty segment := by
    rw [← String.toList_eq_nil_iff, String.toList_ofList, List.flatMap_eq_nil_iff,
      ← String.toList_eq_nil_iff]
    constructor
    · intro h
      refine List.eq_nil_iff_forall_not_mem.2 fun c hc => ?_
      have hnil := h c hc
      unfold encodeChar at hnil
      split at hnil
      · cases hnil
      split at hnil <;> cases hnil
    · intro h c hc
      rw [h] at hc
      cases hc
  unquote_encode segment := by
    rw [String.toList_ofList, decodeChars_flatMap]
    simp

def localCouch : CouchUrl := ⟨"/", "filesync"⟩

/-- **The empty path's delete is a `DELETE` of the database**, so is that of
`.` and `..`, and an upsert of `_security` is a `PUT` of the database's
access list. -/
theorem empty_path_addresses_database :
    Serves encodingSlashes localCouch "filesync" ∧
      (∀ path ∈ ["", ".", ".."],
        let req := localCouch.request encodingSlashes (.deleteDoc .push path ⟨1, "x"⟩)
        req.method = .delete ∧
          localCouch.target encodingSlashes req = some (.database "filesync")) ∧
      (∀ body ∈ [(⟨some "_security", some 1, some octetStream⟩ : Body)],
        let req := localCouch.request encodingSlashes (.putDoc .push "_security" none body)
        req.method = .put ∧
          localCouch.target encodingSlashes req = some (.endpoint "filesync" "_security")) ∧
      ¬ Addressed encodingSlashes localCouch "filesync" "" := by
  refine ⟨by decide +kernel, by decide +kernel, by decide +kernel, fun h => ?_⟩
  have htarget := h.own (.getDoc "") rfl
  revert htarget
  decide +kernel

/-- A first upload below a directory. -/
def nestedUpload : PushChange := ⟨"notes/a.txt", false, none, 1, none, none⟩

/-- **A first upload is announced**, from the checkpoint it was made at. -/
theorem nested_path_addressed :
    Addressed encodingSlashes localCouch "filesync" "notes/a.txt" ∧
      Announced (.counting false) .plain Db.empty nestedUpload 0 :=
  ((addressed_iff (by decide +kernel)).2 (.counting false) .plain Db.empty
    nestedUpload 0 (some ⟨2, "xx"⟩) .empty (Nat.zero_le _) rfl rfl (by decide +kernel)).2
      ⟨by decide +kernel, by decide +kernel⟩

end Addressing

end FileSync
