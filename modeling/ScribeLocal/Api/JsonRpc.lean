import ScribeLocal.Asr.Trim

/-!
# The MCP endpoint

`post` answers one JSON-RPC message, or a batch of them. What the tools do, with the state of
the server, is left open.
-/
namespace ScribeLocal.JsonRpc
open Asr (trim)

/-- A JSON value, numbers as they are written. -/
inductive Value
  | null
  | bool (b : Bool)
  | number (literal : String)
  | string (s : String)
  | array (items : List Value)
  | object (fields : List (String × Value))

namespace Value

/-- `Value::get` with a key: nothing in what is not an object. -/
def get (key : String) : Value → Option Value
  | object fields => fields.lookup key
  | _ => none

def asStr : Value → Option String
  | string s => some s
  | _ => none

end Value

def parseError : ℤ := -32700
def invalidRequest : ℤ := -32600
def methodNotFound : ℤ := -32601

/-- Protocol versions this endpoint speaks, newest first. -/
def protocolVersions : List String := ["2025-11-25", "2025-06-18", "2025-03-26"]

/-- The tools and the texts about them. -/
structure Tools (σ : Type*) where
  version : String
  instructions : String
  definitions : Value
  call : Value → σ → Except (ℤ × String) Value × σ

inductive Response
  | forbidden
  | accepted
  | json (body : Value)

variable {σ : Type*} (tools : Tools σ)

def errorResponse (id : Value) (code : ℤ) (message : String) : Value :=
  .object [("jsonrpc", .string "2.0"), ("id", id),
    ("error", .object [("code", .number (toString code)), ("message", .string message)])]

def initializeResult (params : Value) : Value :=
  let requested := (params.get "protocolVersion").bind Value.asStr
  let version := (requested.filter protocolVersions.contains).getD (protocolVersions.headD "")
  .object [("protocolVersion", .string version),
    ("capabilities", .object [("tools", .object [("listChanged", .bool false)])]),
    ("serverInfo", .object [("name", .string "scribe"), ("version", .string tools.version)]),
    ("instructions", .string tools.instructions)]

/-- What a request comes to. -/
def perform (method : String) (params : Value) (s : σ) : Except (ℤ × String) Value × σ :=
  if method = "initialize" then (.ok (initializeResult tools params), s)
  else if method = "ping" then (.ok (.object []), s)
  else if method = "tools/list" then (.ok (.object [("tools", tools.definitions)]), s)
  else if method = "tools/call" then tools.call params s
  else (.error (methodNotFound, "method not found: " ++ method), s)

def resultResponse (id : Value) : Except (ℤ × String) Value → Value
  | .ok result => .object [("jsonrpc", .string "2.0"), ("id", id), ("result", result)]
  | .error (code, message) => errorResponse id code message

/-- Answer one message. -/
def handleMessage (msg : Value) (s : σ) : Option Value × σ :=
  match (msg.get "method").bind Value.asStr with
  | none =>
    (((msg.get "id").filter fun _ => (msg.get "result").isNone && (msg.get "error").isNone).map
      fun id => errorResponse id invalidRequest "missing method", s)
  | some method =>
    match msg.get "id" with
    | none => (none, s)
    | some id =>
      let out := perform tools method ((msg.get "params").getD .null) s
      (some (resultResponse id out.1), out.2)

/-- The loop over a batch. -/
def handleBatch : List Value → σ → List Value × σ
  | [], s => ([], s)
  | msg :: batch, s =>
    let head := handleMessage tools msg s
    let rest := handleBatch batch head.2
    (head.1.toList ++ rest.1, rest.2)

def replies (msg : Value) (s : σ) : List Value × σ :=
  match msg with
  | .array batch => handleBatch tools batch s
  | single =>
    let one := handleMessage tools single s
    (one.1.toList, one.2)

def trimEndMatches (c : Char) (s : List Char) : List Char := (s.reverse.dropWhile (· == c)).reverse

def originAllowed (origin publicBaseUrl : String) : Bool :=
  let base := trimEndMatches '/' (trim publicBaseUrl.toList)
  !base.isEmpty && (trimEndMatches '/' origin.toList).map Char.toLower == base.map Char.toLower

def answer (replies : List Value) : Response :=
  match replies with
  | [] => .accepted
  | [reply] => .json reply
  | replies => .json (.array replies)

/-- `body` is what the bytes parse to, or why they do not. -/
def post (publicBaseUrl : String) (origin : Option String) (body : Except String Value) (s : σ) :
    Response × σ :=
  if origin.any fun o => !originAllowed o publicBaseUrl then (.forbidden, s)
  else
    match body with
    | .error e => (.json (errorResponse .null parseError e), s)
    | .ok msg =>
      let out := replies tools msg s
      (answer out.1, out.2)

/-! ## What should be answered -/

inductive Message
  | request (id : Value)
  | notification
  | response
  | invalid (id : Option Value)

def classify (msg : Value) : Message :=
  if ((msg.get "method").bind Value.asStr).isSome then
    match msg.get "id" with
    | some id => .request id
    | none => .notification
  else if (msg.get "result").isSome ∨ (msg.get "error").isSome then .response
  else .invalid (msg.get "id")

/-- The id of a message that must be answered. -/
def answeredId (msg : Value) : Option Value :=
  match classify msg with
  | .request id => some id
  | .invalid id => id
  | _ => none

/-- An object with the id and either a result or an error. -/
structure IsReply (id reply : Value) : Prop where
  jsonrpc : reply.get "jsonrpc" = some (.string "2.0")
  id_eq : reply.get "id" = some id
  result_or_error : (reply.get "result").isSome = !(reply.get "error").isSome

/-- A batch gets an array with a reply for each message that must be answered, in order, and no
body if there is none; an empty batch gets an error; a single message gets its reply, if any. -/
def Answers : Value → Response → Prop
  | .array [], r => ∃ reply, r = .json reply ∧ (reply.get "error").isSome
  | .array batch, r =>
    if batch.filterMap answeredId = [] then r = .accepted
    else ∃ replies, r = .json (.array replies) ∧
      List.Forall₂ IsReply (batch.filterMap answeredId) replies
  | single, r =>
    match answeredId single with
    | none => r = .accepted
    | some id => ∃ reply, r = .json reply ∧ IsReply id reply

/-! ## Replies -/

variable {tools} {msg id : Value} {batch ids out : List Value} {s : σ}

theorem isReply_errorResponse (id : Value) (code : ℤ) (message : String) :
    IsReply id (errorResponse id code message) := ⟨rfl, rfl, rfl⟩

theorem isReply_resultResponse (id : Value) (result : Except (ℤ × String) Value) :
    IsReply id (resultResponse id result) := by
  cases result with
  | ok result => exact ⟨rfl, rfl, rfl⟩
  | error e => exact isReply_errorResponse id e.1 e.2

/-- A message is answered exactly if it must be, and with its id. -/
theorem handleMessage_rel (tools : Tools σ) (msg : Value) (s : σ) :
    Option.Rel IsReply (answeredId msg) (handleMessage tools msg s).1 := by
  rw [answeredId, classify, handleMessage]
  cases (msg.get "method").bind Value.asStr with
  | some method =>
    cases msg.get "id" with
    | none => exact .none
    | some id => exact .some (isReply_resultResponse id _)
  | none =>
    cases msg.get "result" with
    | some result => cases msg.get "id" <;> exact .none
    | none =>
      cases msg.get "error" with
      | some error => cases msg.get "id" <;> exact .none
      | none =>
        cases msg.get "id" with
        | none => exact .none
        | some id => exact .some (isReply_errorResponse id _ _)

theorem handleBatch_forall₂ (tools : Tools σ) (batch : List Value) (s : σ) :
    List.Forall₂ IsReply (batch.filterMap answeredId) (handleBatch tools batch s).1 := by
  induction batch generalizing s with
  | nil => exact .nil
  | cons msg batch ih =>
    have hhead := handleMessage_rel tools msg s
    have hrest := ih (handleMessage tools msg s).2
    rw [handleBatch]
    dsimp only
    cases hreply : (handleMessage tools msg s).1 with
    | none =>
      rw [hreply] at hhead
      cases hid : answeredId msg with
      | none =>
        rw [List.filterMap_cons_none hid]
        exact hrest
      | some id =>
        rw [hid] at hhead
        cases hhead
    | some reply =>
      rw [hreply] at hhead
      cases hid : answeredId msg with
      | none =>
        rw [hid] at hhead
        cases hhead
      | some id =>
        rw [hid] at hhead
        cases hhead with
        | some hreplies =>
          rw [List.filterMap_cons_some hid]
          exact .cons hreplies hrest

/-! ## Responses -/

theorem answer_of_length_ne_one (hrel : List.Forall₂ IsReply ids out) (hone : ids.length ≠ 1) :
    if ids = [] then answer out = .accepted
    else ∃ replies, answer out = .json (.array replies) ∧ List.Forall₂ IsReply ids replies := by
  cases hrel with
  | nil => exact rfl
  | cons hhead hrest =>
    cases hrest with
    | nil => exact absurd rfl hone
    | cons hnext hrest => exact ⟨_, rfl, .cons hhead (.cons hnext hrest)⟩

/-- A single reply is an object, not an array. -/
theorem ne_array_of_isReply {reply : Value} (h : IsReply id reply) (items : List Value) :
    reply ≠ .array items := by
  rintro rfl
  cases h.id_eq

theorem answer_of_length_eq_one (hrel : List.Forall₂ IsReply ids out) (hone : ids.length = 1)
    (items : List Value) : answer out ≠ .json (.array items) := by
  cases hrel with
  | nil => cases hone
  | cons hhead hrest =>
    cases hrest with
    | nil =>
      intro heq
      exact ne_array_of_isReply hhead items (Response.json.inj heq)
    | cons => cases hone

/-- A batch is answered as one exactly if it has messages, and not just one that must be
answered. -/
theorem answers_array_iff (tools : Tools σ) (batch : List Value) (s : σ) :
    Answers (.array batch) (answer (handleBatch tools batch s).1) ↔
      batch ≠ [] ∧ (batch.filterMap answeredId).length ≠ 1 := by
  have hrel := handleBatch_forall₂ tools batch s
  cases batch with
  | nil =>
    constructor
    · rintro ⟨reply, hreply, -⟩
      cases hreply
    · intro h
      exact absurd rfl h.1
  | cons msg batch =>
    constructor
    · intro h
      refine ⟨List.cons_ne_nil _ _, fun hone => ?_⟩
      have hne : (msg :: batch).filterMap answeredId ≠ [] :=
        List.ne_nil_of_length_pos (by omega)
      rw [Answers, if_neg hne] at h
      · obtain ⟨items, hitems, -⟩ := h
        exact answer_of_length_eq_one hrel hone items hitems
      · intro hnil
        cases hnil
    · intro h
      have hanswer := answer_of_length_ne_one hrel h.2
      rw [Answers]
      · exact hanswer
      · intro hnil
        cases hnil

theorem answers_single (tools : Tools σ) (hsingle : ∀ batch, msg ≠ .array batch) (s : σ) :
    Answers msg (answer (handleMessage tools msg s).1.toList) := by
  have hrel := handleMessage_rel tools msg s
  have hanswers : match answeredId msg with
      | none => answer (handleMessage tools msg s).1.toList = .accepted
      | some id => ∃ reply, answer (handleMessage tools msg s).1.toList = .json reply ∧
          IsReply id reply := by
    generalize answeredId msg = id at hrel ⊢
    generalize (handleMessage tools msg s).1 = reply at hrel ⊢
    cases hrel with
    | none => rfl
    | some hreply => exact ⟨_, rfl, hreply⟩
  cases msg with
  | array batch => exact absurd rfl (hsingle batch)
  | null | bool | number | string | object => exact hanswers

theorem post_fst {publicBaseUrl : String} {origin : Option String}
    (h : ∀ o ∈ origin, originAllowed o publicBaseUrl = true) :
    (post tools publicBaseUrl origin (.ok msg) s).1 = answer (replies tools msg s).1 := by
  have hany : (origin.any fun o => !originAllowed o publicBaseUrl) = false := by
    cases origin with
    | none => rfl
    | some o => rw [Option.any_some, h o rfl, Bool.not_true]
  rw [post, hany, if_neg Bool.false_ne_true]

/-- What the endpoint makes of a message, or of a batch, is right except for an empty batch and
one with a single message that must be answered. -/
theorem answers_iff (tools : Tools σ) {publicBaseUrl : String} {origin : Option String}
    (h : ∀ o ∈ origin, originAllowed o publicBaseUrl = true) (msg : Value) (s : σ) :
    Answers msg (post tools publicBaseUrl origin (.ok msg) s).1 ↔
      ∀ batch, msg = .array batch → batch ≠ [] ∧ (batch.filterMap answeredId).length ≠ 1 := by
  rw [post_fst h]
  by_cases harray : ∃ batch, msg = .array batch
  · obtain ⟨batch, rfl⟩ := harray
    have hbatch := answers_array_iff tools batch s
    constructor
    · intro hanswers batch' heq
      cases heq
      exact hbatch.mp hanswers
    · intro hall
      exact hbatch.mpr (hall batch rfl)
  · have hsingle : ∀ batch, msg ≠ .array batch := fun batch heq => harray ⟨batch, heq⟩
    have hreplies : (replies tools msg s).1 = (handleMessage tools msg s).1.toList := by
      cases msg with
      | array batch => exact absurd rfl (hsingle batch)
      | null | bool | number | string | object => rfl
    rw [hreplies]
    exact iff_of_true (answers_single tools hsingle s) fun batch heq => absurd heq (hsingle batch)

/-- A server without tools. -/
def noTools : Tools Unit := ⟨"0.1.0", "", .array [], fun _ s => (.ok .null, s)⟩

def ping (id : String) : Value :=
  .object [("jsonrpc", .string "2.0"), ("id", .number id), ("method", .string "ping")]

/-- Two requests from a page that the server itself serves. -/
theorem answers_two :
    Answers (.array [ping "1", ping "2"])
      (post noTools "scribe.local/" (some "Scribe.local")
        (.ok (.array [ping "1", ping "2"])) ()).1 := by
  apply (answers_iff noTools (by decide) _ _).mpr
  intro batch heq
  cases heq
  exact ⟨List.cons_ne_nil _ _, by decide⟩

/-- A batch of one request is answered with an object. -/
theorem not_answers :
    ¬∀ (batch : List Value), Answers (.array batch)
      (post noTools "" none (.ok (.array batch)) ()).1 := by
  intro h
  have hone := h [ping "1"]
  rw [post_fst (by simp)] at hone
  exact ((answers_array_iff noTools [ping "1"] ()).mp hone).2 rfl

end ScribeLocal.JsonRpc
