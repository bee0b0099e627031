import FileSync.Common.Fields
import FileSync.Hub.Untouched
import FileSync.Model.Api
/-!
# Who is let in

The tokens that are let in are those that `HUB_DEVICE_TOKENS` lists. A
request without one calls nothing: it is answered without the database, and
a run of the hub is the same run without it.
-/

namespace FileSync

open CouchClient (isWhitespace trim)

/-- The entry stands between commas of the list, in white space. -/
structure Listed (list entry : String) : Prop where
  nonempty : entry ≠ ""
  comma : ',' ∉ entry.toList
  bare : Fields.Bare isWhitespace entry.toList
  entry : ∃ pre ws ws' post, list.toList = pre ++ (ws ++ entry.toList ++ ws') ++ post ∧
    (pre = [] ∨ ∃ pre', pre = pre' ++ [',']) ∧ (post = [] ∨ ∃ post', post = ',' :: post') ∧
      (∀ c ∈ ws, isWhitespace c = true) ∧ ∀ c ∈ ws', isWhitespace c = true

namespace Env

variable {α β : Type} {vars : Vars} {key : String}

theorem isWhitespace_comma : isWhitespace ',' = false := by decide

theorem comma_not_mem {ws : List Char} (h : ∀ c ∈ ws, isWhitespace c = true) : ',' ∉ ws := by
  intro hmem
  have := h _ hmem
  rw [isWhitespace_comma] at this
  cases this

theorem trim_ofList {field : List Char} {entry : String} :
    trim (String.ofList field) = entry ↔ Fields.strip isWhitespace field = entry.toList := by
  rw [trim, String.toList_ofList, ← String.toList_inj, String.toList_ofList]
  rfl

/-- **A list** is read as its entries. -/
theorem mem_tryFromEnv (value : String) : ∃ items : List String, tryFromEnv value = .ok items ∧
    ∀ entry, entry ∈ items ↔ Listed value entry := by
  refine ⟨_, rfl, fun entry => ?_⟩
  rw [List.mem_filter, List.mem_map]
  constructor
  · -- a field that is not blank is an entry with its padding
    rintro ⟨⟨field, hfield, hentry⟩, hne⟩
    obtain ⟨hcomma, pre, post, hlist, hpre, hpost⟩ := Fields.mem_splitOn_iff.1 hfield
    obtain ⟨hbare, ws, ws', rfl, hws, hws'⟩ := Fields.strip_eq_iff.1 (trim_ofList.1 hentry)
    refine ⟨by simpa using hne, fun h => hcomma ?_, hbare, pre, ws, ws', post, hlist, hpre, hpost,
      hws, hws'⟩
    exact List.mem_append_left _ (List.mem_append_right _ h)
  · rintro ⟨hne, hcomma, hbare, pre, ws, ws', post, hlist, hpre, hpost, hws, hws'⟩
    have hstrip := Fields.strip_eq_iff.2 ⟨hbare, ws, ws', rfl, hws, hws'⟩
    refine ⟨⟨ws ++ entry.toList ++ ws', ?_, trim_ofList.2 hstrip⟩, by simpa using hne⟩
    refine Fields.mem_splitOn_iff.2 ⟨?_, pre, post, hlist, hpre, hpost⟩
    simp [hcomma, comma_not_mem hws, comma_not_mem hws']

theorem bind_eq_ok {x : Except EnvError α} {f : α → Except EnvError β} {b : β}
    (h : x >>= f = .ok b) : ∃ a, x = .ok a ∧ f a = .ok b := by
  cases x with
  | error e => cases h
  | ok a => exact ⟨a, rfl, h⟩

/-- A required variable that is read is set. -/
theorem value_of_required [TryFromEnv α] {a : α} (h : required vars key = .ok a) :
    ∃ value, vars key = .value value ∧ tryFromEnv value = .ok a := by
  obtain ⟨value, hfetch, hload⟩ := bind_eq_ok h
  unfold fetchEnv at hfetch
  split at hload
  · cases hload
  · rename_i hblank
    split at hfetch
    · rename_i v hv
      obtain rfl := Except.ok.inj hfetch
      exact ⟨v, hv, hload⟩
    · -- one that is not set is read as an empty one
      obtain rfl := Except.ok.inj hfetch
      exact absurd (by decide) hblank
    · cases hfetch

end Env

/-- The environment lists the token. -/
def Vars.ListsToken (vars : Vars) (token : String) : Prop :=
  ∃ list, vars "HUB_DEVICE_TOKENS" = .value list ∧ Listed list token

/-- **The tokens of a hub that starts** are those listed. -/
theorem HubConfig.mem_deviceTokens {vars : Vars} {cfg : HubConfig} {token : String}
    (h : HubConfig.fromEnv vars = .ok cfg) : token ∈ cfg.deviceTokens ↔ vars.ListsToken token := by
  unfold HubConfig.fromEnv at h
  -- five variables before it, and five after it
  iterate 5 obtain ⟨_, -, h⟩ := Env.bind_eq_ok h
  obtain ⟨tokens, htokens, h⟩ := Env.bind_eq_ok h
  iterate 5 obtain ⟨_, -, h⟩ := Env.bind_eq_ok h
  obtain rfl := Except.ok.inj h
  obtain ⟨list, hset, hread⟩ := Env.value_of_required htokens
  obtain ⟨items, hitems, hmem⟩ := Env.mem_tryFromEnv list
  have hread : (do let a : List String ← Env.tryFromEnv list; return a.toFinset) =
      (.ok tokens : Except EnvError (Finset String)) := hread
  rw [hitems] at hread
  obtain rfl := Except.ok.inj hread
  rw [List.mem_toFinset, hmem]
  refine ⟨fun hlisted => ⟨list, hset, hlisted⟩, ?_⟩
  rintro ⟨list', hset', hlisted⟩
  obtain rfl := EnvVar.value.inj (hset.symm.trans hset')
  exact hlisted

/-! ## What is served -/

/-- What a hub is at work on: requests, and the conflicts its watcher is
shown. -/
inductive HubTask
  | request (req : ApiRequest)
  | resolve (path : Path)

namespace HubTask

def prog (api : Api) : HubTask → Prog CouchReq (Option ApiAnswer)
  | .request req => api.serve req >>= fun a => .done (some a)
  | .resolve path => (Resolver.resolve api.env path).run >>= fun _ => .done none

/-- A request with a token that the environment does not list, or with none. -/
def Unlisted (vars : Vars) : HubTask → Prop
  | .request req => ∀ token, req.bearer = .ok token → ¬ vars.ListsToken token
  | .resolve _ => False

/-- The task is to write the document: a push that names it, with a listed
token, or its resolution. -/
def Writes (vars : Vars) (q : Path) : HubTask → Prop
  | .request req => (∃ token, req.bearer = .ok token ∧ vars.ListsToken token) ∧
      req.method = .post ∧ ∃ pushes, req.pushes = .ok pushes ∧ ∃ change ∈ pushes, change.path = q
  | .resolve path => path = q

end HubTask

namespace Api

/-- `build_app`: the hub that starts with this configuration. -/
def build (cfg : HubConfig) (env : HubEnv) (decode : String → Option String)
    (couchMetadata : Hub CouchError String) : Api where
  env := env
  deviceTokens := cfg.deviceTokens
  decode := decode
  couchMetadata := couchMetadata

/-- What a request without a listed token is answered. -/
def refusal (req : ApiRequest) : ApiAnswer :=
  if req.method = .options then .preflight
  else if matched req.path then
    match req.bearer with
    | .ok _ => .status unauthorized
    | .error code => .status code
  else .status 404

variable {api : Api} {req : ApiRequest} {vars : Vars} {cfg : HubConfig} {env : HubEnv}
  {decode : String → Option String} {couchMetadata : Hub CouchError String} {q : Path}

/-- **Without a token that is let in**, no call is made. -/
theorem serve_of_not_mem (h : ∀ token, req.bearer = .ok token → token ∉ api.deviceTokens) :
    api.serve req = .done (refusal req) := by
  unfold serve refusal
  split
  · rfl
  · split
    · cases hbearer : req.bearer with
      | error code => simp [requireDeviceToken, extract, hbearer]
      | ok token => simp [requireDeviceToken, extract, hbearer, h token hbearer]
    · rfl

theorem prog_of_unlisted {task : HubTask} (hcfg : HubConfig.fromEnv vars = .ok cfg)
    (h : task.Unlisted vars) : ∃ req, task = .request req ∧
      task.prog (build cfg env decode couchMetadata) = .done (some (refusal req)) := by
  cases task with
  | resolve path => exact h.elim
  | request req =>
    refine ⟨req, rfl, ?_⟩
    have hserve : (build cfg env decode couchMetadata).serve req = .done (refusal req) :=
      serve_of_not_mem fun token htoken hmem =>
        h token htoken ((HubConfig.mem_deviceTokens hcfg).1 hmem)
    show (build cfg env decode couchMetadata).serve req >>= _ = _
    rw [hserve]
    rfl

end Api

namespace Serving

variable {ι : Type}

/-- **A request without a listed token is as good as not made**: whatever runs
beside it, it is answered without the database, and leaving out such requests
changes neither what is stored nor what any other request is answered. -/
theorem unlisted_left_out [DecidableEq ι] (C : Couch) (vars : Vars) (cfg : HubConfig)
    (env : HubEnv) (decode : String → Option String) (couchMetadata : Hub CouchError String)
    (tasks : ι → HubTask) (db : Db) (ms : List (Move ι Delivery BranchDoc)) (keep : ι → Bool)
    (hcfg : HubConfig.fromEnv vars = .ok cfg)
    (hkeep : ∀ i, keep i = false → (tasks i).Unlisted vars) :
    let started : Config ι CouchReq (Option ApiAnswer) Db :=
      ⟨fun i => (tasks i).prog (Api.build cfg env decode couchMetadata), db⟩
    started.runs (semantics C) (ms.filter (Move.isOf keep)) = started.runs (semantics C) ms ∧
      ∀ i, keep i = false → ∃ req, tasks i = .request req ∧
        (started.runs (semantics C) ms).task i = .done (some (Api.refusal req)) := by
  intro started
  have hdone : ∀ i, keep i = false → ∃ req, tasks i = .request req ∧
      started.task i = .done (some (Api.refusal req)) := fun i hi =>
    Api.prog_of_unlisted hcfg (hkeep i hi)
  refine ⟨Config.runs_filter (fun i hi => ?_) ms, fun i hi => ?_⟩
  · obtain ⟨req, -, h⟩ := hdone i hi
    exact ⟨_, h⟩
  · obtain ⟨req, hreq, h⟩ := hdone i hi
    exact ⟨req, hreq, Config.runs_task_of_done h ms⟩

/-- Two tokens, with white space and with an entry that is none. -/
def twoTokens : Vars := fun key =>
  if key = "HUB_DEVICE_TOKENS" then .value " phone-token, laptop-token ,," else .notPresent

def twoTokensConfig : HubConfig where
  bindAddr := "0.0.0.0:8080"
  couchUrl := "http://localhost:5984"
  couchDb := "filesync"
  couchUser := "hub"
  couchPassword := "hub-password"
  deviceTokens := {"phone-token", "laptop-token"}
  fcmServerKey := none
  fcmDeviceTokens := none
  discordWebhookUrl := none
  watcherPollSecs := 2
  replStalenessSecs := 300

theorem fromEnv_twoTokens : HubConfig.fromEnv twoTokens = .ok twoTokensConfig := by decide +kernel

/-- The phone and a stranger push the same path. -/
def phoneAndStranger : Bool → HubTask
  | true => .request ⟨.post, "/changes", .ok "phone-token", .ok none,
      .ok [⟨"a", false, none, 5, none, some (.encode [1])⟩]⟩
  | false => .request ⟨.post, "/changes", .ok "guessed", .ok none,
      .ok [⟨"a", false, none, 9, none, some (.encode [2])⟩]⟩

theorem unlisted_stranger : ∀ i, i = false → (phoneAndStranger i).Unlisted twoTokens := by
  rintro _ rfl token htoken hlisted
  obtain rfl := Except.ok.inj htoken
  have hmem := (HubConfig.mem_deviceTokens fromEnv_twoTokens).2 hlisted
  revert hmem
  decide

/-- The stranger is first, and last. -/
def phoneBetween : List (Move Bool Delivery BranchDoc) :=
  .run false .delivered :: List.replicate 4 (.run true .delivered) ++ [.run false .delivered]

/-- What the two of them leave of an empty database. -/
abbrev phoneServed : Config Bool CouchReq (Option ApiAnswer) Db :=
  Config.runs (semantics (Couch.counting true))
    ⟨fun i => (phoneAndStranger i).prog
      (Api.build twoTokensConfig .plain (fun _ => none) (pure "")),
      Db.empty⟩ phoneBetween

theorem stranger_left_out : phoneServed.task false = .done (some (.status 401)) ∧
    (phoneServed.state.docs "a").visible.isSome = true := by
  obtain ⟨-, h⟩ := unlisted_left_out (Couch.counting true) twoTokens twoTokensConfig
    .plain (fun _ => none) (pure "") phoneAndStranger Db.empty
    phoneBetween id fromEnv_twoTokens unlisted_stranger
  obtain ⟨req, hreq, hdone⟩ := h false rfl
  obtain rfl := HubTask.request.inj hreq
  exact ⟨hdone, by decide +kernel⟩

/-! ## What is written -/

end Serving

theorem CouchReq.Reads.spares {β : Type} {e : CouchReq β} {U : UrlRules} {q : Path} (h : e.Reads) :
    e.SparesAt U q := by
  cases e with
  | putDoc | putAttachment | deleteDoc | bulkDocs => exact h.elim
  | changes since => trivial
  | getDoc | getDocAtRev | getAttachment | openRevs => exact ⟨.inl h, trivial⟩

namespace Api

variable {api : Api} {req : ApiRequest} {U : UrlRules} {q : Path} {α : Type}

/-- A program that is answered over HTTP and leaves a live document alone. -/
abbrev Spares (U : UrlRules) (q : Path) (p : Prog CouchReq ApiAnswer) : Prop :=
  p.Given (CouchReq.SparesAt U q) (CouchReq.RefusesFirstAt U q) fun _ => True

theorem spares_run {f : α → ApiAnswer} {handler : Hub ApiError α} (h : SparesLive U q handler) :
    Spares U q (run f handler) :=
  Prog.Given.bind h fun _ _ => trivial

theorem spares_extract {part : Except ℕ α} {handler : α → Prog CouchReq ApiAnswer}
    (h : ∀ a, part = .ok a → Spares U q (handler a)) : Spares U q (extract part handler) := by
  cases part with
  | error code => trivial
  | ok a => exact h a rfl

/-- **A route's handler** writes only what a push names. -/
theorem spares_respond (hmetadata : api.couchMetadata.All CouchReq.Reads)
    (h : req.method = .post → ∀ pushes, req.pushes = .ok pushes → ∀ change ∈ pushes,
      Aside U q change.path) (route : HubRoute) : Spares U q (api.respond route req) := by
  have hstatus : ∀ code, Spares U q (.done (.status code)) := fun _ => trivial
  have hfeed : Spares U q (extract req.since fun since => run .changes (Routes.getChanges since)) :=
    spares_extract fun since _ => spares_run (Routes.spares_getChanges since)
  cases route with
  | changes =>
    simp only [respond]
    split
    · exact hfeed
    · split
      · rename_i hpost
        exact spares_extract fun pushes hpushes =>
          spares_run (Push.spares_postChanges (h hpost pushes hpushes))
      · exact hstatus 405
  | longpoll =>
    simp only [respond]
    split
    exacts [hfeed, hstatus 405]
  | file path =>
    simp only [respond]
    split
    exacts [spares_run (Routes.spares_getFile path), hstatus 405]
  | metadata =>
    have hread : SparesLive U q api.couchMetadata :=
      Fallible.All.given (hmetadata.mono fun _ _ he => he.spares)
    simp only [respond]
    split
    exacts [spares_run hread.adapt, hstatus 405]

/-- **A request** is let through to its route's handler, or calls nothing. -/
theorem spares_serve (hmetadata : api.couchMetadata.All CouchReq.Reads)
    (h : (∃ token, req.bearer = .ok token ∧ token ∈ api.deviceTokens) → req.method = .post →
      ∀ pushes, req.pushes = .ok pushes → ∀ change ∈ pushes, Aside U q change.path) :
    Spares U q (api.serve req) := by
  by_cases hlet : ∃ token, req.bearer = .ok token ∧ token ∈ api.deviceTokens
  · unfold serve
    split
    · trivial
    · split
      · refine spares_extract fun token _ => ?_
        split
        · split
          · exact spares_respond hmetadata (h hlet) _
          · trivial
        · trivial
      · trivial
  · -- nobody is let in, so there is nothing but an answer
    rw [serve_of_not_mem fun token htoken hmem => hlet ⟨token, htoken, hmem⟩]
    trivial

end Api

theorem HubTask.given_prog {vars : Vars} {cfg : HubConfig} {env : HubEnv}
    {decode : String → Option String} {couchMetadata : Hub CouchError String} {U : UrlRules}
    {q : Path} {task : HubTask} (hcfg : HubConfig.fromEnv vars = .ok cfg)
    (hmetadata : couchMetadata.All CouchReq.Reads)
    (h : ∀ path, task.Writes vars path → Aside U q path) :
    (task.prog (Api.build cfg env decode couchMetadata)).Given (CouchReq.SparesAt U q)
      (CouchReq.RefusesFirstAt U q) fun _ => True := by
  cases task with
  | request req =>
    refine Prog.Given.bind (Api.spares_serve hmetadata ?_) fun _ _ => trivial
    rintro ⟨token, htoken, hmem⟩ hpost pushes hpushes change hchange
    have hlisted := (HubConfig.mem_deviceTokens hcfg).1 hmem
    exact h _ ⟨⟨token, htoken, hlisted⟩, hpost, pushes, hpushes, change, hchange, rfl⟩
  | resolve path => exact Prog.Given.bind (Resolver.spares_resolve (h path rfl)) fun _ _ => trivial

namespace Serving

variable {ι : Type}

/-- **Only who is let in writes**: in every run of a hub, a live document
stays as it is unless a push with a listed token names a path that leads to it
(or to none), its own conflict is resolved, or a revision of it comes in from
another hub. -/
theorem live_of_unlisted [DecidableEq ι] (C : Couch) (U : UrlRules)
    (beside : ∀ ⦃β : Type⦄, CouchReq β → Db → β × Db) (vars : Vars) (cfg : HubConfig)
    (env : HubEnv) (decode : String → Option String) (couchMetadata : Hub CouchError String)
    (tasks : ι → HubTask) (db : Db) (q : Path) (ms : List (Move ι Delivery BranchDoc))
    (hcfg : HubConfig.fromEnv vars = .ok cfg)
    (hmetadata : couchMetadata.All CouchReq.Reads)
    (hlive : (db.docs q).visible.isSome = true)
    (hwrites : ∀ i path, (tasks i).Writes vars path → Aside U q path)
    (hms : ∀ m ∈ ms, m.Allowed (fun _ => True) fun doc => doc.id ≠ q) :
    (Config.runs (addressed ι C U beside)
      ⟨fun i => (tasks i).prog (Api.build cfg env decode couchMetadata), db⟩ ms).state.docs q =
      db.docs q :=
  docs_runs_of_spares (fun i => HubTask.given_prog hcfg hmetadata (hwrites i)) hlive hms

/-- A file that is there. -/
def fileThere : Db :=
  Db.empty.write "a" ⟨⟨1, "z"⟩, [], false, ⟨none, some 3, none⟩, some ⟨octetStream, [7]⟩⟩

/-- The phone pushes another file, and a stranger deletes this one. -/
def strangerDeletes : Bool → HubTask
  | true => .request ⟨.post, "/changes", .ok "phone-token", .ok none,
      .ok [⟨"b", false, none, 5, none, some (.encode [1])⟩]⟩
  | false => .request ⟨.post, "/changes", .ok "guessed", .ok none,
      .ok [⟨"a", true, some ⟨1, "z"⟩, 9, none, none⟩]⟩

theorem strangerDeletes_kept :
    (Config.runs (addressed Bool (Couch.counting true) Addressing.encodingSlashes
        fun _ e db => (e.lost, db))
      ⟨fun i => (strangerDeletes i).prog (Api.build twoTokensConfig
        .plain (fun _ => none) (pure "")), fileThere⟩
      phoneBetween).state.docs "a" = fileThere.docs "a" := by
  have hwrites : ∀ i path, (strangerDeletes i).Writes twoTokens path →
      Aside Addressing.encodingSlashes "a" path := by
    rintro (_ | _) path ⟨⟨token, htoken, hlisted⟩, -, pushes, hpushes, change, hchange, rfl⟩
    · obtain rfl := Except.ok.inj htoken
      have hmem := (HubConfig.mem_deviceTokens fromEnv_twoTokens).2 hlisted
      exact absurd hmem (by decide)
    · obtain rfl := Except.ok.inj hpushes
      obtain rfl := List.mem_singleton.1 hchange
      decide +kernel
  refine live_of_unlisted (Couch.counting true) Addressing.encodingSlashes
    (fun _ e db => (e.lost, db)) twoTokens twoTokensConfig
    .plain (fun _ => none) (pure "") strangerDeletes fileThere "a"
    phoneBetween fromEnv_twoTokens trivial (by decide +kernel) hwrites fun m hm => ?_
  have hruns : ∃ i, m = .run i .delivered := by
    simp only [phoneBetween, List.cons_append, List.mem_cons, List.mem_append, List.mem_replicate,
      List.not_mem_nil, or_false] at hm
    rcases hm with rfl | ⟨-, rfl⟩ | rfl
    exacts [⟨_, rfl⟩, ⟨_, rfl⟩, ⟨_, rfl⟩]
  obtain ⟨i, rfl⟩ := hruns
  trivial

end Serving

end FileSync
