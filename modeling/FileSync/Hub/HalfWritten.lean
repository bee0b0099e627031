import FileSync.Hub.Addressing
import FileSync.Hub.CutShort
import FileSync.Hub.HiddenEdits
import FileSync.Model.Watcher
/-!
# An upsert that was cut short, sent again

Whether sending an upsert again repairs what is left of it is told by what
is left: the second call writes on the base if that is a leaf still, and
then the path must have no other live leaf; or it branches the upsert off
and resolves, and then every live leaf must have its content, for the
resolver reads them all, and a type the content can be sent with. A document
left with a body and no content is not repaired by either.
-/

namespace FileSync

namespace HalfWritten

open Routes (isSystemId)
open Resolver (mem_leaves_append_over)

/-- Every document that is listed as there can be fetched. -/
def Serves (C : Couch) (db : Db) : Prop :=
  ∃ resp, (Hub.exec C (Routes.getChanges none) db).1 = .ok resp ∧
    ∀ entry ∈ resp.changes, entry.deleted = false →
      ∃ file, (Hub.exec C (Routes.getFile entry.path) db).1 = .ok file

/-- The content can be sent, and the write goes on top of a leaf, or of
nothing, beside which no other leaf is live. -/
def Writable (t : Tree) (change : PushChange) : Prop :=
  Push.sendable change = true ∧ ∃ parent, Couch.putParent t change.baseRev = .ok parent ∧
    ∀ n ∈ t.liveLeaves, parent = some n

/-- The write is stale, and with its branch every live leaf has its content
and the path can be settled. -/
def Resolvable (C : Couch) (env : HubEnv) (db : Db) (change : PushChange) (content : Bytes) : Prop :=
  Resend.Stale (db.docs change.path) change ∧
    ∃ parent w, Push.parentIn (db.docs change.path) change = .ok parent ∧
      let db₁ := Push.branched C change false (some content) parent db
      (db₁.docs change.path).visible = some w ∧ Resolver.Filled (db₁.docs change.path) ∧
        Resolver.Settleable env db₁ change.path w

/-- What is left at the path can be mended by sending the upsert again. -/
def Left (C : Couch) (env : HubEnv) (change : PushChange) (db : Db) : Prop :=
  ∃ content, (change.contentBase64.getD .empty).decode = .ok content ∧
    (Writable (db.docs change.path) change ∨ Resolvable C env db change content)

variable {C : Couch} {env : HubEnv} {change : PushChange} {db db' : Db} {content : Bytes}
  {path p q : Path} {t : Tree} {n w : Node}

/-! ## What is served -/

end HalfWritten

end FileSync
