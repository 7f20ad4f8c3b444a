import ProtonDrive.JsonNodes
import ProtonDrive.DriveApi

/-!
# The RPC client

`proton-rpc.c`: one request line is written, one response line is read and parsed. A public
function reports failure with NULL, FALSE or -1 and should then have set `*error`. What the
connection does is given with each exchange, the JSON parser and base64 with the client.
-/

namespace ProtonDrive.RpcClient
open SlashPaths DriveApi JsonNodes

/-- The codes of `G_IO_ERROR` that matter here. -/
inductive GIOErrorEnum
  | notFound | permissionDenied | notInitialized | hostUnreachable | exists | failed | cancelled
  | isDirectory
  | other (code : ℤ)
  deriving DecidableEq, Repr

inductive ErrorDomain
  | io (code : GIOErrorEnum)
  | other
  deriving DecidableEq, Repr

structure GError where
  domain : ErrorDomain
  message : String
  deriving DecidableEq, Repr

/-- json-glib's parser on a line whose root is an object, and glib's base64. -/
structure Codec where
  parse : String → Except GError JsonObject
  encode : Bytes → String
  decode : String → Bytes

inductive WriteOutcome
  | written
  | failed (e : GError)
  | rejected
  deriving DecidableEq, Repr

/-- `g_data_input_stream_read_line`: at the end of the stream it returns NULL and no error. -/
inductive ReadOutcome
  | line (text : String)
  | endOfStream
  | failed (e : GError)
  deriving DecidableEq, Repr

/-- What the connection does during one call. `stale` is the fate of a write on the stream of
a connection that was dropped, `reconnect` the error of a connection attempt, if any. -/
structure Exchange where
  write : Option GError
  stale : WriteOutcome
  read : ReadOutcome
  reconnect : Option GError
  deriving DecidableEq, Repr

/-- The client. After a failed reconnect the reader is null and the writer is stale; `sent`
lists the requests written so far. -/
structure ProtonRpc where
  connected : Bool
  nextID : ℕ
  sent : List JsonNode

/-- A result with the caller's `*error`, which starts out null. -/
structure Returned (α : Type) where
  value : Option α
  error : Option GError

/-- `g_set_error_literal`: without a message no error is built. -/
def setErrorLiteral (code : GIOErrorEnum) (message : Option String) : Option GError :=
  message.map fun m => ⟨.io code, m⟩

def gioCode (code : ℤ) : GIOErrorEnum :=
  if code = -32001 then .notFound
  else if code = -32002 then .permissionDenied
  else if code = -32003 then .notInitialized
  else if code = -32005 then .hostUnreachable
  else if code = -32006 then .exists
  else .failed

/-- The id is sent as a signed integer. -/
def buildRequest (id : ℕ) (method : String) (params : List (String × JsonNode)) : JsonNode :=
  .object [("id", .int ((id : ℤ).bmod (2 ^ 64))), ("method", .string method),
    ("params", .object params)]

/-- `TRUE`, or `FALSE` with or without an error. -/
def sendRequest (rpc : ProtonRpc) (req : JsonNode) (x : Exchange) : ProtonRpc × Returned Unit :=
  let outcome := if rpc.connected then x.write.elim .written .failed else x.stale
  match outcome with
  | .written => ({ rpc with sent := rpc.sent ++ [req] }, ⟨some (), none⟩)
  | .failed e => (rpc, ⟨none, some e⟩)
  | .rejected => (rpc, ⟨none, none⟩)

/-- What `recv_response` makes of a parsed line. -/
def readResponse (obj : JsonObject) : Returned JsonObject :=
  if hasMember obj "error" then
    let err := getObjectMember obj "error"
    ⟨none, setErrorLiteral (gioCode (getIntMember err "code")) (getStringMember err "message")⟩
  else ⟨some obj, none⟩

/-- A null reader is refused without an error. -/
def recvResponse (codec : Codec) (rpc : ProtonRpc) (x : Exchange) : Returned JsonObject :=
  if !rpc.connected then ⟨none, none⟩
  else match x.read with
    | .endOfStream => ⟨none, none⟩
    | .failed e => ⟨none, some e⟩
    | .line text => match codec.parse text with
      | .error e => ⟨none, some e⟩
      | .ok obj => readResponse obj

def reconnect (rpc : ProtonRpc) (x : Exchange) : ProtonRpc :=
  { rpc with connected := x.reconnect.isNone }

def isCancelled (e : Option GError) : Bool := e.any fun e => e.domain = .io .cancelled

def call (codec : Codec) (rpc : ProtonRpc) (method : String) (params : List (String × JsonNode))
    (x : Exchange) : ProtonRpc × Returned JsonObject :=
  let id := rpc.nextID
  let rpc := { rpc with nextID := (rpc.nextID + 1) % 2 ^ 64 }
  match sendRequest rpc (buildRequest id method params) x with
  | (rpc, ⟨none, e⟩) => (rpc, ⟨none, e⟩)
  | (rpc, ⟨some (), _⟩) =>
    let resp := recvResponse codec rpc x
    if resp.value.isNone ∧ isCancelled resp.error then (reconnect rpc x, ⟨none, resp.error⟩)
    else (rpc, resp)

structure ProtonEntry where
  name : Option String
  isDir : Bool
  size : ℤ
  mtime : ℤ
  linkID : Option String
  revisionID : Option String
  hasThumbnail : Bool
  deriving DecidableEq, Repr

/-- The fields of an entry, read alike by `list_dir` and `stat`. -/
def readEntry (e : ObjectRef) : ProtonEntry where
  name := getStringMember e "name"
  isDir := getBooleanMember e "is_dir"
  size := getIntMember e "size"
  mtime := getIntMember e "mtime"
  linkID := if hasMember e "link_id" then getStringMember e "link_id" else none
  revisionID := if hasMember e "revision_id" then getStringMember e "revision_id" else none
  hasThumbnail := hasMember e "has_thumbnail" && getBooleanMember e "has_thumbnail"

/-- The common shape of the public functions: a call, and a reading of its result. -/
def withResult {α : Type} (r : ProtonRpc × Returned JsonObject) (f : ObjectRef → α) :
    ProtonRpc × Returned α := (r.1, ⟨r.2.value.map fun resp => f (some resp), r.2.error⟩)

variable (codec : Codec) (rpc : ProtonRpc) (x : Exchange)

/-- `proton_rpc_resume_session`: the new user id and the new refresh token. -/
def resumeSession (uid refreshToken : String) (saltedPassphrase : Bytes) :
    ProtonRpc × Returned (Option String × Option String) :=
  withResult (call codec rpc "ResumeSession" [("uid", .string uid),
      ("refresh_token", .string refreshToken),
      ("salted_passphrase", .string (codec.encode saltedPassphrase))] x) fun resp =>
    let result := getObjectMember resp "result"
    (getStringMember result "uid", getStringMember result "refresh_token")

/-- `proton_rpc_list_dir`. -/
def listDir (path : String) : ProtonRpc × Returned (List ProtonEntry) :=
  withResult (call codec rpc "ListDir" [("path", .string path)] x) fun resp =>
    let entries := getArrayMember (getObjectMember resp "result") "entries"
    (entries.getD []).map fun e => readEntry e.getObject

/-- `proton_rpc_stat`. -/
def stat (path : String) : ProtonRpc × Returned ProtonEntry :=
  withResult (call codec rpc "Stat" [("path", .string path)] x) fun resp =>
    readEntry (getObjectMember resp "result")

/-- `proton_rpc_make_directory`. -/
def makeDirectory (path : String) : ProtonRpc × Returned Unit :=
  withResult (call codec rpc "Mkdir" [("path", .string path)] x) fun _ => ()

/-- `proton_rpc_read_file`: the bytes copied to the buffer and the end-of-file flag. Null data
decodes to nothing. -/
def readFile (path : String) (offset length : ℤ) : ProtonRpc × Returned (Bytes × Bool) :=
  withResult (call codec rpc "ReadFile" [("path", .string path), ("offset", .int offset),
      ("length", .int length)] x) fun resp =>
    let result := getObjectMember resp "result"
    let data := ((getStringMember result "data").map codec.decode).getD []
    (data.take (min data.length (length % 2 ^ 64).toNat), getBooleanMember result "eof")

section Failures

variable {codec rpc x} {α : Type}

/-- An error response that carries no message. -/
def Unexplained (codec : Codec) (text : String) : Prop :=
  ∃ obj, codec.parse text = .ok obj ∧ hasMember obj "error" = true ∧
    getStringMember (getObjectMember obj "error") "message" = none

/-- The exchanges in which a call fails and nothing says why: the stream ends, an error
response has no message, or an earlier reconnect has failed and the stale stream does not
report an error of its own. -/
def Silent (codec : Codec) (rpc : ProtonRpc) (x : Exchange) : Prop :=
  if rpc.connected then x.write = none ∧
    (x.read = .endOfStream ∨ ∃ text, x.read = .line text ∧ Unexplained codec text)
  else ∀ e, x.stale ≠ .failed e

/-- A failure is reported with an error. -/
def Explained (r : ProtonRpc × Returned α) : Prop := r.2.value = none → r.2.error.isSome

/-- A response is handed on exactly when it has no error. -/
theorem readResponse_value {obj obj' : JsonObject} :
    (readResponse obj).value = some obj' ↔ obj = obj' ∧ hasMember (some obj) "error" = false := by
  simp only [readResponse]
  by_cases he : hasMember (some obj) "error" = true <;> simp [he]

/-- No error response looks like a cancellation. -/
theorem readResponse_not_cancelled (obj : JsonObject) :
    isCancelled (readResponse obj).error = false := by
  have hcode : ∀ code, gioCode code ≠ .cancelled := by
    intro code
    simp only [gioCode]
    split_ifs <;> nofun
  unfold readResponse
  by_cases he : hasMember (some obj) "error" = true
  · cases hm : getStringMember (getObjectMember (some obj) "error") "message" <;>
      simp [he, hm, setErrorLiteral, isCancelled, hcode]
  · simp [he, isCancelled]

theorem readResponse_explained_iff {obj : JsonObject} :
    ((readResponse obj).value = none → (readResponse obj).error.isSome) ↔
      ¬(hasMember (some obj) "error" = true ∧
        getStringMember (getObjectMember (some obj) "error") "message" = none) := by
  unfold readResponse
  by_cases he : hasMember (some obj) "error" = true
  · cases hm : getStringMember (getObjectMember (some obj) "error") "message" <;>
      simp [he, hm, setErrorLiteral]
  · simp [he]

theorem recvResponse_explained_iff (hc : rpc.connected = true) :
    ((recvResponse codec rpc x).value = none → (recvResponse codec rpc x).error.isSome) ↔
      ¬(x.read = .endOfStream ∨ ∃ text, x.read = .line text ∧ Unexplained codec text) := by
  simp only [recvResponse]
  simp only [hc, Bool.not_true, Bool.false_eq_true, if_false]
  cases hr : x.read with
  | endOfStream => simp
  | failed e => simp
  | line text =>
    unfold Unexplained
    cases hp : codec.parse text with
    | error e => simp [hp]
    | ok obj =>
      simp only [hp]
      rw [readResponse_explained_iff]
      simp [hp]

/-- Reconnecting after a cancellation keeps the error. -/
theorem reconnect_explained_iff (resp : Returned JsonObject) :
    Explained (if resp.value.isNone ∧ isCancelled resp.error then
      (reconnect rpc x, ⟨none, resp.error⟩) else (rpc, resp)) ↔
    (resp.value = none → resp.error.isSome) := by
  simp only [Explained]
  split_ifs with hc
  · have hv : resp.value = none := Option.isNone_iff_eq_none.mp hc.1
    simp [hv]
  · rfl

theorem call_explained_iff (method : String) (params : List (String × JsonNode)) :
    Explained (call codec rpc method params x) ↔ ¬Silent codec rpc x := by
  simp only [Silent]
  cases hc : rpc.connected with
  | true =>
    cases hw : x.write with
    | some e => simp [Explained, call, sendRequest, hc, hw]
    | none =>
      simp only [call, sendRequest, hc, hw, if_true, Option.elim_none, true_and]
      rw [reconnect_explained_iff]
      exact recvResponse_explained_iff rfl
  | false =>
    cases hst : x.stale with
    | failed e => simp [Explained, call, sendRequest, hc, hst]
    | rejected => simp [Explained, call, sendRequest, hc, hst]
    | written => simp [Explained, call, sendRequest, hc, hst, recvResponse, isCancelled]

/-- A call that returns a response has read it from the line. -/
theorem call_some {method : String} {params : List (String × JsonNode)} {obj : JsonObject}
    (h : (call codec rpc method params x).2.value = some obj) :
    ∃ text, x.read = .line text ∧ codec.parse text = .ok obj ∧
      hasMember (some obj) "error" = false := by
  have hrecv : ∀ rpc', (recvResponse codec rpc' x).value = some obj →
      ∃ text, x.read = .line text ∧ codec.parse text = .ok obj ∧
        hasMember (some obj) "error" = false := by
    intro rpc' hr
    simp only [recvResponse] at hr
    split_ifs at hr
    cases hread : x.read with
    | endOfStream => simp [hread] at hr
    | failed e => simp [hread] at hr
    | line text =>
      cases hp : codec.parse text with
      | error e => simp [hread, hp] at hr
      | ok obj' =>
        simp only [hread, hp] at hr
        obtain ⟨rfl, he⟩ := readResponse_value.mp hr
        exact ⟨text, rfl, hp, he⟩
  simp only [call] at h
  rcases hs : sendRequest { rpc with nextID := (rpc.nextID + 1) % 2 ^ 64 }
      (buildRequest rpc.nextID method params) x with ⟨rpc', ⟨_ | _, e⟩⟩
  · rw [hs] at h
    cases h
  · rw [hs] at h
    dsimp only at h
    split_ifs at h
    exact hrecv rpc' h

theorem withResult_explained_iff (r : ProtonRpc × Returned JsonObject) (f : ObjectRef → α) :
    Explained (withResult r f) ↔ Explained r := by
  simp [Explained, withResult]

/-- Each of the five functions sets the error of every failure, exactly when the exchange is
not a silent one. -/
theorem failures_explained_iff (codec : Codec) (rpc : ProtonRpc) (x : Exchange) (path : String)
    (offset length : ℤ) (uid refreshToken : String) (saltedPassphrase : Bytes) :
    (Explained (listDir codec rpc x path) ↔ ¬Silent codec rpc x) ∧
    (Explained (stat codec rpc x path) ↔ ¬Silent codec rpc x) ∧
    (Explained (readFile codec rpc x path offset length) ↔ ¬Silent codec rpc x) ∧
    (Explained (makeDirectory codec rpc x path) ↔ ¬Silent codec rpc x) ∧
    (Explained (resumeSession codec rpc x uid refreshToken saltedPassphrase) ↔
      ¬Silent codec rpc x) := by
  have h : ∀ {α : Type} (f : ObjectRef → α) method params,
      Explained (withResult (call codec rpc method params x) f) ↔ ¬Silent codec rpc x :=
    fun f method params => (withResult_explained_iff _ f).trans (call_explained_iff method params)
  exact ⟨h _ _ _, h _ _ _, h _ _ _, h _ _ _, h _ _ _⟩

/-- A wire format that sends bytes as characters, alone on the line. -/
def rawCodec : Codec where
  parse text := .ok [("result", .object [("data", .string text), ("eof", .boolean true)])]
  encode data := String.ofList (data.map fun b => Char.ofNat b.toNat)
  decode text := text.toList.map fun c => UInt8.ofNat c.toNat

/-- The helper goes away before it answers: the stat fails and no error is set. -/
theorem failures_explained_fails :
    ¬Explained (stat rawCodec ⟨true, 1, []⟩ ⟨none, .rejected, .endOfStream, none⟩ "/") :=
  fun h => nomatch h rfl

end Failures

end ProtonDrive.RpcClient
