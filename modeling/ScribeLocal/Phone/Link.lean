import ScribeLocal.Phone.Kept
import ScribeLocal.Server.Accepted

/-!
# The phone and its server

A call is a request that one process of the server works on. The request or its reply
can be lost at any moment, and the server goes on with what it has begun.
-/
namespace ScribeLocal.Phone
open Table Transition
open Server (Sys Label Config Cmd Request UploadLog HasTranscode HasSegment Pending Moved)

/-- The request that a call sends; a new recording gets the id `sid`. -/
def Call.request (sid : Uuid) : Call → Option Request
  | .create => some (.create sid)
  | .put sid seq startMs durationMs => some (.putSegment sid seq (some startMs) (some durationMs))
  | .complete sid durationMs marks => some (.complete sid (some durationMs) marks)
  -- only a recording without audio is ever deleted
  | .delete _ => none

structure Link where
  app : App
  server : Sys
  /-- The process that works on the pending call, and the recording the call is about. -/
  call : Option (ℕ × Uuid)

def Link.start : Link := ⟨App.start, Sys.start, none⟩

inductive LinkLabel where
  | app (a : Action)
  /-- The pending call reaches the server. -/
  | send (i : ℕ) (sid : Uuid)
  | server (a : Label)
  /-- The reply reaches the phone. -/
  | receive
  /-- The call ends without a reply, whether or not the request came through. -/
  | lose

/-- What a process has replied. -/
def replyOf : Server.Proc → Option ℕ
  | .ended reply _ => reply
  | _ => none

/-- `APIClient` throws on any status but a success. -/
def Reply.of (sid : Uuid) (code : ℕ) : Reply := if code < 300 then .ok sid else .error code

def Link.step (cfg : Config) (k : Link) : LinkLabel → Option Link
  | .app (.reply _) => none
  | .app .kill => (k.app.step .kill).map fun app => { k with app := app, call := none }
  | .app a => (k.app.step a).map fun app => { k with app := app }
  | .send i sid =>
    if k.call.isSome then none
    else (k.app.task.call?.bind (Call.request sid)).bind fun q =>
      (Server.step cfg k.server (.request i q)).map fun s =>
        { k with server := s, call := some (i, q.recording) }
  | .server a => (Server.step cfg k.server a).map fun s => { k with server := s }
  | .receive => k.call.bind fun p => (replyOf (k.server.procs p.1)).bind fun code =>
    (k.app.step (.reply (Reply.of p.2 code))).map fun app => { k with app := app, call := none }
  | .lose => (k.app.step (.reply .lost)).map fun app => { k with app := app, call := none }

/-- Everything a step can be. -/
inductive LinkMoved (cfg : Config) (k : Link) : LinkLabel → Link → Prop
  | app {a : Action} {app : App} (hstep : k.app.step a = some app) (hreply : ∀ rep, a ≠ .reply rep)
      (hkill : a ≠ .kill) : LinkMoved cfg k (.app a) { k with app := app }
  | kill : LinkMoved cfg k (.app .kill)
      { k with app := { k.app with session := none, queue := [], task := .idle }, call := none }
  | send {i : ℕ} {sid : Uuid} {c : Call} {q : Request} {s : Sys} (hnone : k.call = none)
      (hcall : k.app.task.call? = some c) (hq : c.request sid = some q)
      (hstep : Server.step cfg k.server (.request i q) = some s) :
      LinkMoved cfg k (.send i sid) { k with server := s, call := some (i, q.recording) }
  | server {a : Label} {s : Sys} (hstep : Server.step cfg k.server a = some s) :
      LinkMoved cfg k (.server a) { k with server := s }
  | receive {i : ℕ} {sid : Uuid} {code : ℕ} {app : App} (hcall : k.call = some (i, sid))
      (hcode : replyOf (k.server.procs i) = some code)
      (hstep : k.app.step (.reply (.of sid code)) = some app) :
      LinkMoved cfg k .receive { k with app := app, call := none }
  | lose {app : App} (hstep : k.app.step (.reply .lost) = some app) :
      LinkMoved cfg k .lose { k with app := app, call := none }

variable {cfg : Config} {k k' : Link} {l : LinkLabel}

theorem link_moved (h : k.step cfg l = some k') : LinkMoved cfg k l k' := by
  cases l with
  | app a =>
    cases a with
    | reply => cases h
    | kill =>
      cases h
      exact .kill
    | _ =>
      rcases Option.map_eq_some_iff.mp h with ⟨app, hstep, rfl⟩
      exact .app hstep nofun nofun
  | send i sid =>
    rcases Option.ite_none_left_eq_some.mp h with ⟨hnone, h⟩
    rcases Option.bind_eq_some_iff.mp h with ⟨q, hq, h⟩
    rcases Option.bind_eq_some_iff.mp hq with ⟨c, hcall, hq⟩
    rcases Option.map_eq_some_iff.mp h with ⟨s, hstep, rfl⟩
    exact .send (by simpa using hnone) hcall hq hstep
  | server a =>
    rcases Option.map_eq_some_iff.mp h with ⟨s, hstep, rfl⟩
    exact .server hstep
  | receive =>
    rcases Option.bind_eq_some_iff.mp h with ⟨⟨i, sid⟩, hcall, h⟩
    rcases Option.bind_eq_some_iff.mp h with ⟨code, hcode, h⟩
    rcases Option.map_eq_some_iff.mp h with ⟨app, hstep, rfl⟩
    exact .receive hcall hcode hstep
  | lose =>
    rcases Option.map_eq_some_iff.mp h with ⟨app, hstep, rfl⟩
    exact .lose hstep

/-! ## What the claim looks back to -/

/-- What has happened to recording `r`, and the segments whose file was already gone when
`process` reached them. -/
structure LinkLog where
  upload : UploadLog := {}
  gone : List (LocalId × ℕ) := []

local instance {p : LocalId × ℕ} {files : List (LocalId × ℕ)} : Decidable (p ∈ files) :=
  decidable_of_iff (files.contains p = true) List.contains_iff_mem

def LinkLog.note (r : Uuid) (k : Link) (l : LinkLabel) (b : LinkLog) : LinkLog :=
  match l with
  | .server a => { b with upload := b.upload.note r k.server a }
  | .app .work =>
    match k.app.task with
    | .upload id _ (g :: _) =>
      if (id, g.seq) ∈ k.app.files then b else { b with gone := (id, g.seq) :: b.gone }
    | _ => b
  | _ => b

/-- No other client acts on recording `r`. -/
def Alone (r : Uuid) : LinkLabel → Prop
  | .server (.request _ q) => q.recording ≠ r
  | _ => True

/-- When a complete of `r` reads its status and there is no transcode job yet, no live job
has failed `r` for good, and no complete stands or has stopped short of its enqueue. -/
def Timely (r : Uuid) (p : Link × LinkLog) : LinkLabel → Prop
  | .server (.step i _) => ∀ d m rest,
    p.1.server.procs i = .todo (.completeRead r d m :: rest) → HasTranscode r p.1.server ∨
      p.2.upload.parked = false ∧ ¬ Pending true p.1.server (Server.enqueue r .transcode {})
  | _ => True

end ScribeLocal.Phone
