import FileSync.Client.Checkpoints
/-!
# The wake path

Main takes signals from the channel until none has come for a while and only
then makes its pass, so a signal is followed by a pass that begins after it.
A poller has signalled everything up to where it asks from, unless it was no
user's. So when nothing is under way but long polls that have nothing to tell,
the last pass began after all there was to tell; and if that pass succeeded,
the hub it pulled from has nothing for the device.
-/

namespace FileSync

open Relation (ReflTransGen)

/-! ## Stretches of a log -/

/-- What a log has from one length to another is no user's. -/
def Calm (log : List Path) (since upTo : ℕ) : Prop :=
  ∀ k p, since ≤ k → k < upTo → log[k]? = some p → Routes.isSystemId p = true

namespace Calm

variable {log log' : List Path} {a b c : ℕ}

theorem refl : Calm log a a := fun k p hk hk' _ => by omega

theorem trans (h : Calm log a b) (h' : Calm log b c) : Calm log a c := by
  intro k p hk hk' hp
  rcases Nat.lt_or_ge k b with hb | hb
  · exact h k p hk hb hp
  · exact h' k p hb hk' hp

/-- It stays so as the log goes on. -/
theorem of_grown (h : Calm log a b) (hlog : log <+: log') (hb : b ≤ log.length) :
    Calm log' a b := by
  obtain ⟨more, rfl⟩ := hlog
  intro k p hk hk' hp
  rw [List.getElem?_append_left (by omega)] at hp
  exact h k p hk hk' hp

end Calm

/-- **A feed that lists nothing** passes over nothing of the user's. -/
theorem Db.calm_iff_changes {db : Db} (h : db.Numbered) {since : Option Checkpoint} :
    Calm db.log (since.getD 0) db.log.length ↔
      (Routes.toResponse (Couch.changesSince db since)).changes = [] := by
  constructor
  · intro hcalm
    rw [List.eq_nil_iff_forall_not_mem]
    intro entry hentry
    obtain ⟨hchanged, hsystem, -⟩ := Db.mem_changes.1 hentry
    obtain ⟨k, hk⟩ := List.mem_iff_getElem?.1 hchanged
    rw [List.getElem?_drop] at hk
    have hlt : since.getD 0 + k < db.log.length := (List.getElem?_eq_some_iff.1 hk).1
    have huser := hcalm _ _ (Nat.le_add_right _ k) hlt hk
    rw [hsystem] at huser
    cases huser
  · intro hnone k p hk hlt hp
    by_contra hsystem
    have hchanged : db.Changed (since.getD 0) p := by
      refine List.mem_iff_getElem?.2 ⟨k - since.getD 0, ?_⟩
      rw [List.getElem?_drop, Nat.add_sub_cancel' hk]
      exact hp
    obtain ⟨w, hw⟩ := h.exists_winner hchanged
    have hentry : (⟨p, w.deleted, w.rev⟩ : ChangeEntry) ∈
        (Routes.toResponse (Couch.changesSince db since)).changes :=
      Db.mem_changes.2 ⟨hchanged, by simpa using hsystem, w, hw, rfl⟩
    rw [hnone] at hentry
    exact absurd hentry List.not_mem_nil

namespace Client

variable {C : Couch} {env : HubEnv} {eng : SyncEngine} {mimeOf : Path → String} {c c' : Client}
  {hub : HubId} {L : HubId → ℕ} {s s' : Site} {m : ClientMove} {ms : List ClientMove}

/-! ## Signals -/

/-- A signal waits in the channel or has just been taken from it: a pass is
to be made. -/
def Awaiting (c : Client) : Prop := c.main = .debouncing ∨ c.signals ≠ 0

/-- Main is about to end the process. -/
def Ending (c : Client) : Prop := c.main = .stopped ∨ ∃ rest, c.main = .passing .shutdown rest

theorem main_pollStep {failure : Option HubError} : (c.pollStep C hub failure).main = c.main := by
  unfold pollStep signal
  split <;> try rfl
  dsimp only
  split
  · split <;> rfl
  · rfl

/-- A poller takes no signal. -/
theorem signals_pollStep {failure : Option HubError} :
    c.signals ≤ (c.pollStep C hub failure).signals := by
  unfold pollStep signal
  split <;> try exact le_refl _
  dsimp only
  split
  · split
    · exact le_refl _
    · exact Nat.le_succ _
  · exact le_refl _

/-- **The process ends** once it has begun to. -/
theorem ending_step (h : c.Ending) (m : ClientMove) : (c.step C env eng mimeOf m).Ending := by
  have hsame : ∀ {c' : Client}, c'.main = c.main → c'.Ending := fun hmain => by
    unfold Ending
    rwa [hmain]
  cases m with
  | main o =>
    rcases h with h | ⟨rest, h⟩
    · refine hsame ?_
      simp only [step, mainStep, h]
    · simp only [step, mainStep, h]
      cases rest.result? with
      | some r => exact .inl rfl
      | none => exact .inr ⟨_, rfl⟩
  | quiet =>
    refine hsame ?_
    rcases h with h | ⟨rest, h⟩ <;> simp only [step, h]
  | terminate =>
    refine hsame ?_
    rcases h with h | ⟨rest, h⟩ <;> simp only [step, h]
  | timeout =>
    rcases h with h | ⟨rest, h⟩
    · refine hsame ?_
      simp only [step, h]
    · simp only [step, h]
      exact .inl rfl
  | poll hub failure => exact hsame main_pollStep
  | changed =>
    refine hsame ?_
    rcases h with h | ⟨rest, h⟩ <;> simp only [step, h]
  | edit disk now => exact hsame rfl
  | written w => exact hsame rfl

/-- **Until the pass is begun, one is to be made.** -/
theorem awaiting_step (h : c.Awaiting) (m : ClientMove)
    (hbegun : m = .quiet → c.main = .debouncing → c.signals ≠ 0) :
    (c.step C env eng mimeOf m).Awaiting ∨ (c.step C env eng mimeOf m).Ending := by
  have hsame : ∀ {c' : Client}, c'.main = c.main → c.signals ≤ c'.signals → c'.Awaiting := by
    intro c' hmain hsignals
    unfold Awaiting
    rw [hmain]
    exact h.imp_right fun hne => by omega
  -- only the end of the debounce empties the channel, and it begins a pass
  cases m with
  | main o =>
    simp only [step, mainStep]
    split
    · rename_i occasion rest hmain
      have hne : c.signals ≠ 0 := h.resolve_left (by rw [hmain]; nofun)
      split
      · cases occasion with
        | startup => cases ‹Except DesktopError SyncReport› <;> [exact .inr (.inl rfl); exact .inl (.inr hne)]
        | signalled => exact .inl (.inr hne)
        | shutdown => exact .inr (.inl rfl)
      · exact .inl (.inr hne)
    · split <;> [exact .inl h; exact .inl (.inl rfl)]
    · split <;> [exact .inl h; exact .inl (.inl rfl)]
    · exact .inl h
  | quiet =>
    simp only [step]
    split
    · rename_i hmain
      rw [if_neg (hbegun rfl hmain)]
      exact .inl h
    · exact .inl h
  | terminate =>
    simp only [step]
    split <;> [exact .inr (.inr ⟨_, rfl⟩); exact .inl h]
  | timeout =>
    simp only [step]
    split <;> [exact .inr (.inl rfl); exact .inl h]
  | poll hub failure => exact .inl (hsame main_pollStep signals_pollStep)
  | changed =>
    simp only [step]
    split
    · exact .inl h
    · exact .inl h
    · exact .inl (.inr (Nat.succ_ne_zero _))
  | edit disk now => exact .inl h
  | written w => exact .inl h

theorem ending_runs (h : c.Ending) (ms : List ClientMove) :
    (c.runs C env eng mimeOf ms).Ending := by
  induction ms generalizing c with
  | nil => exact h
  | cons m ms ih => exact ih (ending_step h m)

/-- **No signal is lost**: wherever the client is when there is a signal, if
it comes to wait with its channel empty, it has begun a pass since. -/
theorem signal_followed (C : Couch) (env : HubEnv) (eng : SyncEngine) (mimeOf : Path → String)
    (c : Client) (ms : List ClientMove) (h : c.Awaiting)
    (hrest : (c.runs C env eng mimeOf ms).main = .receiving)
    (hempty : (c.runs C env eng mimeOf ms).signals = 0) :
    ∃ before after, ms = before ++ .quiet :: after ∧
      (c.runs C env eng mimeOf (before ++ [.quiet])).main =
        .passing .signalled (pass env eng mimeOf) := by
  induction ms generalizing c with
  | nil =>
    rcases h with h | h
    · rw [show c.main = .receiving from hrest] at h
      cases h
    · exact absurd hempty h
  | cons m ms ih =>
    by_cases hbegun : m = .quiet ∧ c.main = .debouncing ∧ c.signals = 0
    · obtain ⟨rfl, hmain, hsignals⟩ := hbegun
      refine ⟨[], ms, rfl, ?_⟩
      simp only [List.nil_append, runs, List.foldl_cons, List.foldl_nil, step, hmain, hsignals,
        if_true]
    · have hstep : (c.step C env eng mimeOf m).Awaiting ∨ (c.step C env eng mimeOf m).Ending :=
        awaiting_step h m fun hm hmain hsignals => hbegun ⟨hm, hmain, hsignals⟩
      rcases hstep with hstep | hstep
      · obtain ⟨before, after, rfl, hpass⟩ := ih _ hstep hrest hempty
        exact ⟨m :: before, after, rfl, hpass⟩
      · -- a process that ends waits no more
        have hending : ((c.step C env eng mimeOf m).runs C env eng mimeOf ms).Ending :=
          ending_runs hstep ms
        rcases hending with h' | ⟨rest, h'⟩ <;>
        · rw [show (runs C env eng mimeOf _ ms).main = .receiving from hrest] at h'
          cases h'

/-- A client of one hub, its directory and the hub empty. -/
def oneClient : Client := start .plain (oneHub true) anyType ⟨⟨∅, .empty, 5⟩, fun _ => .empty⟩

/-- And what becomes of it. -/
def oneClientRuns (c : Client) (ms : List ClientMove) : Client :=
  c.runs (.counting true) .plain (oneHub true) anyType ms

/-- The first pass. -/
def started : Client := oneClientRuns oneClient (List.replicate 20 (.main .delivered))

/-- A second signal comes while the first one is being waited out. -/
def twoSignals : List ClientMove :=
  [.main .delivered, .changed, .quiet, .main .delivered, .quiet] ++
    List.replicate 30 (.main .delivered)

theorem twoSignals_followed :
    ∃ before after, twoSignals = before ++ .quiet :: after ∧
      (oneClientRuns (oneClientRuns started [.changed]) (before ++ [.quiet])).main =
        .passing .signalled (pass .plain (oneHub true) anyType) :=
  signal_followed (.counting true) .plain (oneHub true) anyType _ twoSignals (.inr (by decide +kernel)) (by decide +kernel)
    (by decide +kernel)

/-! ## Nothing left to pull -/

/-- Of what a hub's log has up to `n`, all that is the user's is from before
the last pass began or under the checkpoint, or a pass is to be made. -/
structure Heard (L : HubId → ℕ) (c : Client) (hub : HubId) (n : ℕ) : Prop where
  within : n ≤ (c.site.hubs hub).log.length
  before : c.Awaiting ∨
    ∃ m, (m ≤ L hub ∨ m ≤ c.site.checkpoint hub) ∧ Calm (c.site.hubs hub).log m n

/-- What a poller knows of, by where it is. -/
def Knows (L : HubId → ℕ) (c : Client) (hub : HubId) : Poller → Prop
  | .starting | .stopped => True
  | .asking since _ | .sleeping since _ => Heard L c hub (since.getD 0)
  | .answered since _ resp => Heard L c hub (since.getD 0) ∧ ∀ r, resp = .ok r →
      r.checkpoint ≤ (c.site.hubs hub).log.length ∧
        (r.changes = [] → Calm (c.site.hubs hub).log (since.getD 0) r.checkpoint)

/-- What is known of a client whose last pass began when the hubs' logs had
these lengths. -/
structure Tracks (C : Couch) (eng : SyncEngine) (L : HubId → ℕ) (c : Client) : Prop where
  reached : Site.Reached L c.site
  passing : ∀ occasion rest, c.main = .passing occasion rest → ∀ s, ReflTransGen Site.Onward c.site s →
    Safe (Site.semantics C) .any Site.contract ()
      (Post (Site.Reached L) fun report s =>
        Site.Reached L s ∧ Site.Pulled eng.hubs L report.pull s) rest s
  passed : c.main = .receiving ∨ c.main = .debouncing → ∀ report, c.last = some (.ok report) →
    Site.Pulled eng.hubs L report.pull c.site
  pollers : ∀ hub, Knows L c hub (c.poller hub)

theorem Heard.mono {n : ℕ} (h : Heard L c hub n) (hgrows : (c.site.hubs hub).Grows (c'.site.hubs hub))
    (hcheckpoint : c.site.checkpoint hub ≤ c'.site.checkpoint hub)
    (hawaiting : c.Awaiting → c'.Awaiting) : Heard L c' hub n := by
  refine ⟨h.within.trans hgrows.length_le, h.before.imp hawaiting ?_⟩
  rintro ⟨m, hm, hcalm⟩
  exact ⟨m, hm.imp_right fun hm => hm.trans hcheckpoint, hcalm.of_grown hgrows.log h.within⟩

theorem Knows.mono {p : Poller} (h : Knows L c hub p)
    (hgrows : (c.site.hubs hub).Grows (c'.site.hubs hub))
    (hcheckpoint : c.site.checkpoint hub ≤ c'.site.checkpoint hub)
    (hawaiting : c.Awaiting → c'.Awaiting) : Knows L c' hub p := by
  cases p with
  | starting => trivial
  | stopped => trivial
  | asking since backoff => exact Heard.mono h hgrows hcheckpoint hawaiting
  | sleeping since backoff => exact Heard.mono h hgrows hcheckpoint hawaiting
  | answered since backoff resp =>
    refine ⟨Heard.mono h.1 hgrows hcheckpoint hawaiting, fun r hr => ?_⟩
    obtain ⟨hle, hcalm⟩ := h.2 r hr
    exact ⟨hle.trans hgrows.length_le, fun hnone => (hcalm hnone).of_grown hgrows.log hle⟩

/-- A pass that begins now begins after all that the pollers know of. -/
theorem Heard.begun {n : ℕ} (h : Heard L c hub n) (hsite : c'.site = c.site) :
    Heard (fun hub => (c.site.hubs hub).log.length) c' hub n := by
  refine ⟨by rw [hsite]; exact h.within, .inr ⟨n, .inl h.within, ?_⟩⟩
  exact Calm.refl

theorem Knows.begun {p : Poller} (h : Knows L c hub p) (hsite : c'.site = c.site) :
    Knows (fun hub => (c.site.hubs hub).log.length) c' hub p := by
  cases p with
  | starting => trivial
  | stopped => trivial
  | asking since backoff => exact Heard.begun h hsite
  | sleeping since backoff => exact Heard.begun h hsite
  | answered since backoff resp =>
    refine ⟨Heard.begun h.1 hsite, ?_⟩
    rw [hsite]
    exact h.2

theorem tracks_pass (hsite : c.site.Within) {occasion : Occasion}
    (hmain : c.main = .passing occasion (pass env eng mimeOf))
    (hpollers : ∀ hub, Knows (fun hub => (c.site.hubs hub).log.length) c hub (c.poller hub)) :
    Tracks C eng (fun hub => (c.site.hubs hub).log.length) c := by
  have hreached : Site.Reached (fun hub => (c.site.hubs hub).log.length) c.site :=
    ⟨hsite, fun _ => le_refl _⟩
  refine ⟨hreached, fun occasion' rest h s hs => ?_, fun h report _ => ?_, hpollers⟩
  · rw [hmain] at h
    obtain ⟨-, rfl⟩ := MainLoop.passing.inj h
    exact Site.triple_pass s (Site.lasts_reached.stable.rtc hs hreached)
  · rw [hmain] at h
    rcases h with h | h <;> cases h

/-- **What others do at the hubs and in the directory.** -/
theorem tracks_onward (h : Tracks C eng L c) (hmain : c'.main = c.main)
    (hlast : c'.last = c.last) (hsignals : c.signals ≤ c'.signals) (hpoller : c'.poller = c.poller)
    (honward : Site.Onward c.site c'.site) : Tracks C eng L c' := by
  refine ⟨Site.lasts_reached h.reached honward, fun occasion rest hm s hs => ?_,
    fun hm report hl => ?_, fun hub => ?_⟩
  · exact h.passing occasion rest (hmain ▸ hm) s (.head honward hs)
  · rw [hmain] at hm
    exact Site.lasts_pulled (h.passed hm report (hlast ▸ hl)) honward
  · rw [hpoller]
    refine (h.pollers hub).mono (honward.grows hub) (honward.checkpoint hub).ge fun hawaiting => ?_
    unfold Awaiting
    rw [hmain]
    exact hawaiting.imp_right fun hne => by omega

/-- The client's moves, where they do not end it. -/
def Tracked (C : Couch) (eng : SyncEngine) (c : Client) : Prop :=
  c.Ending ∨ ∃ L, Tracks C eng L c

/-- A signal is taken. -/
theorem tracks_taken (h : Tracks C eng L c) (hmain : c.main = .receiving ∨ c.main = .debouncing) :
    Tracks C eng L { c with main := .debouncing, signals := c.signals - 1 } :=
  ⟨h.reached, nofun, fun _ => h.passed hmain, fun hub =>
    (h.pollers hub).mono (.refl _) (le_refl _) fun _ => .inl rfl⟩

/-- The pass is over: where it has succeeded, the device has pulled all the
logs had when it began. -/
theorem tracks_passed (h : Tracks C eng L c) {occasion : Occasion}
    {r : Except DesktopError SyncReport} (hmain : c.main = .passing occasion (.done r)) :
    Tracked C eng (c.passed eng r occasion) := by
  have hdone : Post (Site.Reached L) (fun report s => Site.Reached L s ∧
      Site.Pulled eng.hubs L report.pull s) r c.site :=
    h.passing occasion _ hmain c.site .refl c.site .refl
  have hpulled : ∀ report, some r = some (.ok report) → Site.Pulled eng.hubs L report.pull c.site := by
    intro report hr
    obtain rfl := Option.some.inj hr
    exact hdone.2
  cases occasion with
  | startup =>
    cases r with
    | error e => exact .inl (.inl rfl)
    | ok a =>
      -- the pollers begin, and know of nothing yet
      refine .inr ⟨L, h.reached, nofun, fun _ => hpulled, fun hub => ?_⟩
      show Knows L _ hub (if hub ∈ eng.hubs then .starting else .stopped)
      split <;> trivial
  | signalled =>
    -- a signal that came in the meantime is still in the channel
    refine .inr ⟨L, h.reached, nofun, fun _ => hpulled, fun hub => ?_⟩
    refine (h.pollers hub).mono (.refl _) (le_refl _) fun hawaiting => ?_
    exact .inr (hawaiting.resolve_left (by rw [hmain]; nofun))
  | shutdown => exact .inl (.inl rfl)

/-- **A step of main's.** -/
theorem tracks_mainStep (h : Tracks C eng L c) (o : Delivery) :
    Tracked C eng (c.mainStep C eng o) := by
  unfold mainStep
  split
  · rename_i occasion rest hmain
    cases rest with
    | done r => exact tracks_passed h hmain
    | call e k =>
      -- a call of the pass, which guarantees what the pollers rely on
      have hsafe := h.passing occasion _ hmain c.site .refl
      obtain ⟨hguar, hrest⟩ := hsafe o trivial
      obtain ⟨hwithin, hgrows, hcheckpoint⟩ := hguar h.reached.toWithin
      refine .inr ⟨L, ⟨hwithin, fun hub => (h.reached.reached hub).trans (hgrows hub).length_le⟩,
        fun occasion' rest' hm s hs => ?_, fun hm => ?_, fun hub => ?_⟩
      · obtain ⟨-, rfl⟩ := MainLoop.passing.inj hm
        exact hrest s hs
      · rcases hm with hm | hm <;> cases hm
      · refine (h.pollers hub).mono (hgrows hub) (hcheckpoint hub) fun hawaiting => ?_
        exact .inr (hawaiting.resolve_left (by rw [hmain]; nofun))
  · rename_i hmain
    split
    · exact .inr ⟨L, h⟩
    · exact .inr ⟨L, tracks_taken h (.inl hmain)⟩
  · rename_i hmain
    split
    · exact .inr ⟨L, h⟩
    · exact .inr ⟨L, tracks_taken h (.inr hmain)⟩
  · exact .inr ⟨L, h⟩

/-- A poller goes on to where all that is known is known. -/
theorem tracks_poller {next : Poller} (h : Tracks C eng L c) (hnext : Knows L c hub next) :
    Tracks C eng L { c with poller := Function.update c.poller hub next } := by
  refine ⟨h.reached, h.passing, h.passed, fun k => ?_⟩
  have hmono : ∀ {p : Poller}, Knows L c k p →
      Knows L { c with poller := Function.update c.poller hub next } k p := fun hp =>
    hp.mono (.refl _) (le_refl _) id
  rcases eq_or_ne k hub with rfl | hne
  · show Knows L _ k (Function.update c.poller k next k)
    rw [Function.update_self]
    exact hmono hnext
  · show Knows L _ k (Function.update c.poller hub next k)
    rw [Function.update_of_ne hne]
    exact hmono (h.pollers k)

/-- A poller signals: a pass is to be made for all it knows of. -/
theorem tracks_signal {n : ℕ} {backoff : ℕ} (h : Tracks C eng L c)
    (hn : n ≤ (c.site.hubs hub).log.length) :
    Tracked C eng (c.signal hub (.asking (some n) backoff)) := by
  unfold signal
  split
  · rename_i hmain
    exact .inl (.inl hmain)
  · have hawaiting : ∀ {c' : Client}, c'.signals = c.signals + 1 → c'.Awaiting := fun hs =>
      .inr (hs ▸ Nat.succ_ne_zero _)
    refine .inr ⟨L, h.reached, h.passing, h.passed, fun k => ?_⟩
    rcases eq_or_ne k hub with rfl | hne
    · show Knows L _ k (Function.update c.poller k _ k)
      rw [Function.update_self]
      exact ⟨hn, .inl (hawaiting rfl)⟩
    · show Knows L _ k (Function.update c.poller hub _ k)
      rw [Function.update_of_ne hne]
      exact (h.pollers k).mono (.refl _) (le_refl _) fun _ => hawaiting rfl

/-- **A step of a poller's.** -/
theorem tracks_pollStep (h : Tracks C eng L c) (failure : Option HubError) :
    Tracked C eng (c.pollStep C hub failure) := by
  have hknows := h.pollers hub
  unfold pollStep
  split <;> rename_i hpoller
  · -- it begins where the device has pulled up to
    refine .inr ⟨L, tracks_poller h ⟨h.reached.within hub, .inr ⟨_, .inr (le_refl _), .refl⟩⟩⟩
  · -- the long poll is answered as the feed stands, or fails
    rw [hpoller] at hknows
    refine .inr ⟨L, tracks_poller h ⟨hknows, fun r hr => ?_⟩⟩
    cases failure with
    | some e => cases hr
    | none =>
      rename_i since backoff
      obtain rfl : Routes.toResponse (Couch.changesSince (c.site.hubs hub) since) = r :=
        Except.ok.inj hr
      exact ⟨le_refl _, (Db.calm_iff_changes (h.reached.numbered hub)).2⟩
  · rename_i since backoff resp
    rw [hpoller] at hknows
    obtain ⟨hheard, hresp⟩ := hknows
    cases resp with
    | error e => exact .inr ⟨L, tracks_poller h hheard⟩
    | ok resp =>
      obtain ⟨hle, hcalm⟩ := hresp resp rfl
      show Tracked C eng (if !resp.changes.isEmpty then c.signal hub (.asking (some resp.checkpoint) 1)
        else { c with poller := Function.update c.poller hub (.asking (some resp.checkpoint) 1) })
      split
      · exact tracks_signal h hle
      · -- the hub's own documents at most, so that what was known still is
        rename_i hnone
        have hnone' : resp.changes = [] := by simpa using hnone
        refine .inr ⟨L, tracks_poller h ⟨hle, hheard.before.imp_right ?_⟩⟩
        rintro ⟨m, hm, hbefore⟩
        exact ⟨m, hm, hbefore.trans (hcalm hnone')⟩
  · rw [hpoller] at hknows
    exact .inr ⟨L, tracks_poller h hknows⟩
  · exact .inr ⟨L, h⟩

/-- **Every step.** -/
theorem tracked_step (h : Tracked C eng c) (m : ClientMove) :
    Tracked C eng (c.step C env eng mimeOf m) := by
  rcases h with h | ⟨L, h⟩
  · exact .inl (ending_step h m)
  -- main and the pollers learn of the hubs, and the other moves only leave these further on
  cases m with
  | main o => exact tracks_mainStep h o
  | quiet =>
    simp only [step]
    split
    · split
      · exact .inr ⟨_, tracks_pass h.reached.toWithin rfl fun hub =>
          (h.pollers hub).begun rfl⟩
      · exact .inr ⟨L, h⟩
    · exact .inr ⟨L, h⟩
  | terminate =>
    simp only [step]
    split
    · exact .inl (.inr ⟨_, rfl⟩)
    · exact .inr ⟨L, h⟩
  | timeout =>
    simp only [step]
    split
    · exact .inl (.inl rfl)
    · exact .inr ⟨L, h⟩
  | poll hub failure => exact tracks_pollStep h failure
  | changed =>
    simp only [step]
    split
    · exact .inr ⟨L, h⟩
    · exact .inr ⟨L, h⟩
    · exact .inr ⟨L, tracks_onward h rfl rfl (Nat.le_succ _) rfl ⟨fun _ => rfl, fun _ => .refl _,
        fun _ => id⟩⟩
  | edit disk now =>
    exact .inr ⟨L, tracks_onward h rfl rfl (le_refl _) rfl ⟨fun _ => rfl, fun _ => .refl _,
      fun _ => id⟩⟩
  | written w =>
    exact .inr ⟨L, tracks_onward h rfl rfl (le_refl _) rfl
      (Site.onward_update c.site w.hub (.write _ _ _) fun hn => hn.write w.pos)⟩

theorem tracked_runs (h : Tracked C eng c) (ms : List ClientMove) :
    Tracked C eng (c.runs C env eng mimeOf ms) := by
  induction ms generalizing c with
  | nil => exact h
  | cons m ms ih => exact ih (tracked_step h m)

/-- **At rest the device is caught up**: in every run of the client, with long
polls and requests failing, the user at work in the directory and others at
the hubs, whenever main waits with an empty channel and its last pass has
succeeded, the hub that pass pulled from has nothing for the device to pull,
if it has nothing to tell the long poll that is open at it. -/
theorem caught_up_at_rest (C : Couch) (env : HubEnv) (eng : SyncEngine) (mimeOf : Path → String)
    (site : Site) (hsite : site.Within) (ms : List ClientMove) (report : SyncReport)
    (since : Option Checkpoint) (backoff : ℕ)
    (hmain : ((start env eng mimeOf site).runs C env eng mimeOf ms).main = .receiving)
    (hsignals : ((start env eng mimeOf site).runs C env eng mimeOf ms).signals = 0)
    (hlast : ((start env eng mimeOf site).runs C env eng mimeOf ms).last = some (.ok report))
    (hpoller : ((start env eng mimeOf site).runs C env eng mimeOf ms).poller report.pull.hub =
      .asking since backoff)
    (hnone : (Routes.toResponse (Couch.changesSince
      (((start env eng mimeOf site).runs C env eng mimeOf ms).site.hubs report.pull.hub)
        since)).changes = []) :
    report.pull.hub ∈ eng.hubs ∧
      (Routes.toResponse (Couch.changesSince
        (((start env eng mimeOf site).runs C env eng mimeOf ms).site.hubs report.pull.hub)
          (some (((start env eng mimeOf site).runs C env eng mimeOf ms).site.checkpoint
            report.pull.hub)))).changes = [] := by
  have hstart : Tracked C eng (start env eng mimeOf site) :=
    .inr ⟨_, tracks_pass hsite rfl fun _ => trivial⟩
  have hrun : Tracked C eng ((start env eng mimeOf site).runs C env eng mimeOf ms) :=
    tracked_runs hstart ms
  generalize (start env eng mimeOf site).runs C env eng mimeOf ms = c at *
  rcases hrun with (h | ⟨rest, h⟩) | ⟨L, h⟩
  · rw [hmain] at h
    cases h
  · rw [hmain] at h
    cases h
  obtain ⟨hhub, hpulled⟩ := h.passed (.inl hmain) report hlast
  refine ⟨hhub, ?_⟩
  have hnumbered := h.reached.numbered report.pull.hub
  have hheard : Heard L c report.pull.hub (since.getD 0) := by
    have hknows := h.pollers report.pull.hub
    rwa [hpoller] at hknows
  obtain ⟨m, hm, hbefore⟩ : ∃ m, (m ≤ L report.pull.hub ∨ m ≤ c.site.checkpoint report.pull.hub) ∧
      Calm (c.site.hubs report.pull.hub).log m (since.getD 0) := by
    refine hheard.before.resolve_left fun hawaiting => ?_
    rcases hawaiting with hd | hs
    · rw [hmain] at hd
      cases hd
    · exact hs hsignals
  rw [← Db.calm_iff_changes hnumbered] at hnone ⊢
  -- nothing new from the checkpoint to the poll's place, and nothing from there on
  have hle : m ≤ c.site.checkpoint report.pull.hub := hm.elim (fun hm => hm.trans hpulled) id
  exact fun k p hk => hbefore.trans hnone k p (hle.trans hk)

/-- A file comes to the hub while its long poll is open. -/
def arrived : List ClientMove :=
  List.replicate 20 (.main .delivered) ++
    [.poll "hub" none,
      .written ⟨"hub", "a", ⟨⟨1, "x"⟩, [], false, ⟨some "a", some 7, none⟩, some ⟨octetStream, [3]⟩⟩,
        by decide⟩,
      .poll "hub" none, .poll "hub" none, .main .delivered, .quiet] ++
    List.replicate 30 (.main .delivered)

theorem arrived_pulled :
    "hub" ∈ (oneHub true).hubs ∧
      (Routes.toResponse (Couch.changesSince ((oneClientRuns oneClient arrived).site.hubs "hub")
        (some ((oneClientRuns oneClient arrived).site.checkpoint "hub")))).changes = [] :=
  caught_up_at_rest (.counting true) .plain (oneHub true) anyType ⟨⟨∅, .empty, 5⟩, fun _ => .empty⟩
    ⟨fun _ => .empty, fun _ => Nat.zero_le _⟩ arrived ⟨⟨"hub", 1, 0, [], some 1⟩, ⟨"", 0⟩⟩ (some 1) 1
    (by decide +kernel) (by decide +kernel) (by decide +kernel) (by decide +kernel)
    (by decide +kernel)

end Client

end FileSync
