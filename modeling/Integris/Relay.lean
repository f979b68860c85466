import Integris.IpcChannel
import Integris.Serve

/-! The privilege-separated receiver of `internal/remotesync`: the network role holds the
session, the apply role the store, and between them the parser and plan roles check each
message. The roles call each other over IPC, one request at a time, so a call is run as
the server's answer to it; both ends of every channel keep their own state. -/
namespace Integris.RemoteSync

open Posix LocalSync Prog Ipc

def msgIPCAbort : UInt8 := 0xff
def msgDestManifest : UInt8 := 0xe0
def msgParseBundle : UInt8 := 0xb0

/-! The apply role. -/

/-- The loop of `ServeApplyIPC` returns after a commit or with an error. -/
inductive Loop where
  | running | committed | failed
  deriving DecidableEq

/-- `ServeApplyIPC` with its store. -/
structure Apply where
  receiver : Receiver
  destMan : Option (List Entry) := none
  loop : Loop := .running

abbrev AP := Prog Host Apply Fault

def inStore (m : SP α) : AP α := zoom Apply.receiver (fun r a => { a with receiver := r }) m

/-- The loop returns; `resp` is its last response. -/
def leaving (how : Loop) (resp : Bytes) : AP Bytes := do
  modify fun a => { a with loop := how }
  pure resp

def decodeDestManifest (p : Bytes) : Except Fault (List Entry) := do
  demand (p.head? = some msgDestManifest) (.fail .protocol "bad dest manifest")
  decodeManifest (msgManifest :: p.drop 1)

def okResult : Bytes := mustResult true (ascii "ok")

section roles

variable (out : Outside)

/-- A failed request is answered with its error, and the loop returns. -/
def replying (m : AP Bytes) : AP Bytes := do
  match ← attempt m with
  | .ok resp => pure resp
  | .error e => leaving .failed (mustResult false (out.render e))

def applyManifest (req : Bytes) : AP Bytes := do
  let entries ← ofExcept (decodeManifest req)
  inStore (prepareDirs out.toLibrary entries)
  pure encodeManifestOK

def applyFile (req : Bytes) : AP Bytes := do
  let fw ← ofExcept (decodeFile req)
  inStore (stageLegacy out.toLibrary fw)
  pure okResult

def applyBegin (req : Bytes) : AP Bytes := do
  let b ← ofExcept (decodeFileBegin req)
  let off ← inStore (beginFile out.toLibrary b)
  pure (encodeFileAck off)

def applyChunk (req : Bytes) : AP Bytes := do
  let c ← ofExcept (decodeFileChunk req)
  inStore (writeChunk out.toLibrary c)
  let a ← get
  pure (encodeFileAck a.receiver.store.off)

/-- A file that was complete already left the store inactive. -/
def applyEnd (req : Bytes) : AP Bytes := do
  let e ← ofExcept (decodeFileEnd req)
  let a ← get
  if a.receiver.store.active = false then inStore (endOfStaged a.receiver.store e)
  else inStore (endFile out.toLibrary e)
  pure okResult

def applyDestManifest (req : Bytes) : AP Bytes := do
  let entries ← ofExcept (decodeDestManifest req)
  modify fun a => { a with destMan := some entries }
  pure okResult

def applyCommit : AP Bytes := do
  let a ← get
  inStore (commit out a.destMan)
  modify fun a => { a with destMan := none }
  leaving .committed okResult

def applyAbort : AP Bytes := do
  inStore (persistActive out.toLibrary)
  leaving .failed (mustResult false (ascii "aborted"))

/-- One turn of the loop. -/
def applyRequest (req : Bytes) : AP Bytes :=
  match req with
  | [] => pure (mustResult false (ascii "empty ipc request"))
  | op :: _ =>
    if op = msgManifest then replying out (applyManifest out req)
    else if op = msgFile then replying out (applyFile out req)
    else if op = msgFileBegin then replying out (applyBegin out req)
    else if op = msgFileChunk then replying out (applyChunk out req)
    else if op = msgFileEnd then replying out (applyEnd out req)
    else if op = msgDestManifest then replying out (applyDestManifest req)
    else if op = msgCommit then replying out (applyCommit out)
    else if op = msgIPCAbort then applyAbort out
    else leaving .failed (mustResult false (ascii ("unknown ipc op " ++ toString op.toNat)))

/-- The request could not be read. -/
def applyLost : AP Unit := do
  inStore (persistActive out.toLibrary)
  modify fun a => { a with loop := .failed }

/-- The apply role calls `ServeApplyIPC` again after a commit; `reopen` is how each call
opens its store. -/
def again (reopen : RS Store) : AP Unit := do
  let a ← get
  when (a.loop = .committed) do
    match ← attempt (inStore (onWorld reopen)) with
    | .ok s => modify fun a => { receiver := { a.receiver with store := s } }
    | .error _ => modify fun a => { a with loop := .failed }

/-- One turn of the apply role. -/
def applyTurn (reopen : RS Store) (req : Bytes) : AP Bytes := do
  let resp ← applyRequest out req
  again reopen
  pure resp

end roles

/-! The plan role's gate. -/

/-- A push bound to the manifest it announced. The source also keeps the manifest's
digest, which nothing reads. -/
structure PlanGate where
  files : List Entry
  seen : List Bytes := []
  active : Bytes := []

namespace PlanGate

def find (g : PlanGate) (rel : Bytes) : Option Entry := g.files.find? fun e => e.rel = rel

/-- The file entries, each named, with a digest and only once. -/
def collect : List Entry → List Entry → Except Fault (List Entry)
  | files, [] => .ok files
  | files, e :: rest =>
    match e.type with
    | .dir => collect files rest
    | .file => do
      demand (e.rel ≠ [] ∧ e.digest.isSome = true) (.fail .protocol "plan: incomplete file entry")
      demand (∀ f ∈ files, f.rel ≠ e.rel) (.fail .protocol ("plan: duplicate file " ++ text e.rel))
      collect (files ++ [e]) rest

def checkFile (g : PlanGate) (fw : FileWire) : Except Fault PlanGate :=
  match g.find fw.rel with
  | none => .error (.fail .protocol ("plan: unexpected file " ++ text fw.rel))
  | some e => do
    demand (digestOf e = fw.digest ∧ e.mode = fw.mode ∧ UInt64.ofNat fw.data.length = sizeOf64 e)
      (.fail .protocol ("plan: file " ++ text fw.rel ++ " does not match manifest"))
    demand (fw.rel ∉ g.seen) (.fail .protocol ("plan: duplicate transfer " ++ text fw.rel))
    .ok { g with seen := g.seen ++ [fw.rel] }

def checkBegin (g : PlanGate) (b : FileBegin) : Except Fault PlanGate :=
  match g.find b.rel with
  | none => .error (.fail .protocol ("plan: unexpected file " ++ text b.rel))
  | some e => do
    demand (digestOf e = b.digest ∧ e.mode = b.mode ∧ sizeOf64 e = b.size)
      (.fail .protocol ("plan: begin " ++ text b.rel ++ " does not match manifest"))
    demand (b.rel ∉ g.seen) (.fail .protocol ("plan: duplicate transfer " ++ text b.rel))
    .ok { g with active := b.rel }

/-- A file may be ended that was sent whole before; it counts once. -/
def checkEnd (g : PlanGate) (e : FileEnd) : Except Fault PlanGate := do
  demand (g.active ≠ []) (.fail .protocol "plan: no active file")
  demand (e.rel = g.active)
    (.fail .protocol ("plan: end " ++ text e.rel ++ " != active " ++ text g.active))
  demand (((g.find e.rel).map digestOf).getD (Fixed.zero 32) = e.digest)
    (.fail .protocol ("plan: end digest mismatch " ++ text e.rel))
  .ok { g with seen := if e.rel ∈ g.seen then g.seen else g.seen ++ [e.rel], active := [] }

def checkCommit (g : PlanGate) : Except Fault Unit := do
  demand (g.active = []) (.fail .protocol "plan: commit with active file")
  demand (g.seen.length = g.files.length) (.fail .protocol ("plan: commit with " ++
    toString g.seen.length ++ "/" ++ toString g.files.length ++ " files"))

end PlanGate

/-- The manifest as the plan role passes it on. -/
structure Authorized where
  canonical : Bytes
  gate : PlanGate

def authorizeManifest (raw : Bytes) : Except Fault Authorized := do
  let entries ← decodeManifest raw
  let canonical ← encodeManifest entries
  let files ← PlanGate.collect [] entries
  .ok ⟨canonical,{ files }⟩

/-- A check against a gate that may not have been set. -/
def gated (gate : Option PlanGate) (check : PlanGate → Except Fault α) : Except Fault α :=
  match gate with
  | none => .error (.fail .protocol "plan: no authorized manifest")
  | some g => check g

/-- `checkEnd` alone says it differently. -/
def gatedEnd (gate : Option PlanGate) (e : FileEnd) : Except Fault PlanGate :=
  match gate with
  | none => .error (.fail .protocol "plan: no active file")
  | some g => g.checkEnd e

/-! The roles together. -/

/-- The server of each channel on the way from the network role. -/
inductive Hop where
  | parser | plan | apply
  deriving DecidableEq

/-- The ends of one channel: the caller's and the server's. -/
structure Wire where
  near : ChannelState
  far : ChannelState

structure Roles where
  conn : Conn
  apply : Apply
  wire : Hop → Wire
  parserUp : Bool := true
  planUp : Bool := true
  gate : Option PlanGate := none

abbrev RP := Prog Host Roles Fault

namespace Roles

def alive (r : Roles) : Hop → Bool
  | .parser => r.parserUp
  | .plan => r.planUp
  | .apply => r.apply.loop = .running

def setWire (r : Roles) (hop : Hop) (w : Wire) : Roles :=
  { r with wire := Function.update r.wire hop w }

end Roles

def onSession (m : CP α) : RP α := zoom Roles.conn (fun c r => { r with conn := c }) m

def onApply (m : AP α) : RP α := zoom Roles.apply (fun a r => { r with apply := a }) m

/-- A channel operation at the calling end. -/
def atNear (hop : Hop) (m : ChannelState.Op α) : Prog Host Roles Ipc.Error α :=
  zoom (fun r : Roles => (r.wire hop).near)
    (fun ch r => r.setWire hop { r.wire hop with near := ch }) (within () m)

def atFar (hop : Hop) (m : ChannelState.Op α) : Prog Host Roles Ipc.Error α :=
  zoom (fun r : Roles => (r.wire hop).far)
    (fun ch r => r.setWire hop { r.wire hop with far := ch }) (within () m)

def ipcFault (step : String) (e : Ipc.Error) : Fault := .fail .transport (step ++ ": " ++ e.text)

/-- The server has gone away. -/
def unread : Fault := .fail .transport "ipc read: EOF"

section calls

variable (out : Outside)

/-- The server's loop returns because its request could not be read. -/
def lost : Hop → RP Unit
  | .parser => modify fun r => { r with parserUp := false }
  | .plan => modify fun r => { r with planUp := false }
  | .apply => onApply (applyLost out)

/-- The server's loop returns. -/
def quit : Hop → RP Unit
  | .parser => modify fun r => { r with parserUp := false }
  | .plan => modify fun r => { r with planUp := false }
  | .apply => modify fun r => { r with apply := { r.apply with loop := .failed } }

def respond (hop : Hop) (resp : Bytes) : RP Bytes := do
  match ← attempt (atFar hop (ChannelState.encode .response resp)) with
  | .error _ => do
    quit hop
    throw unread
  | .ok raw => do
    let frame ← mapError (ipcFault "ipc decode") (atNear hop (ChannelState.decode raw))
    require (frame.typ = .response) (.fail .protocol "ipc: expected response")
    pure frame.payload

/-- `ipcWire.request` with the server's turn in the middle. -/
def request (hop : Hop) (serve : Bytes → RP Bytes) (payload : Bytes) : RP Bytes := do
  let raw ← mapError (ipcFault "ipc encode") (atNear hop (ChannelState.encode .request payload))
  let r ← get
  require (r.alive hop = true) unread
  match ← attempt (atFar hop (ChannelState.decode raw)) with
  | .error _ => do
    lost out hop
    throw unread
  | .ok frame =>
    if frame.typ = .request then do
      let resp ← serve frame.payload
      respond hop resp
    else do
      lost out hop
      throw unread

/-- A call whose server is one `ServeApplyIPC`. -/
def toApply (payload : Bytes) : RP Bytes :=
  request out .apply (fun req => onApply (applyRequest out req)) payload

/-- A call whose server is the apply role. -/
def toApplyRole (reopen : RS Store) (payload : Bytes) : RP Bytes :=
  request out .apply (fun req => onApply (applyTurn out reopen req)) payload

/-! The plan role. -/

variable (once : Bool)

/-- Respond and return. -/
def planLeaves (resp : Bytes) : RP Bytes := do
  quit .plan
  pure resp

/-- A refused message ends a role that serves one push only. -/
def planRefuses (e : Fault) : RP Bytes :=
  if once then planLeaves (mustResult false (out.render e))
  else pure (mustResult false (out.render e))

/-- Pass a message on; what follows is skipped when the apply role is gone. -/
def forward (payload : Bytes) (after : Bytes → RP Bytes) : RP Bytes := do
  match ← attempt (toApply out payload) with
  | .error e => planLeaves (mustResult false (out.render e))
  | .ok resp => after resp

def setGate (gate : Option PlanGate) : RP Unit := modify fun r => { r with gate := gate }

/-- The messages about one file: decoded, checked against the gate, passed on. -/
def planChecked (decoded : Except Fault α) (check : Option PlanGate → α → Except Fault PlanGate)
    (req : Bytes) : RP Bytes :=
  match decoded with
  | .error e => planLeaves (mustResult false (out.render e))
  | .ok m => do
    let r ← get
    match check r.gate m with
    | .error e => planRefuses out once e
    | .ok g => do
      setGate (some g)
      forward out req pure

def planManifest (req : Bytes) : RP Bytes :=
  match authorizeManifest req with
  | .error e => planRefuses out once e
  | .ok a => forward out a.canonical fun resp => do
    setGate (some a.gate)
    pure resp

def planChunk (req : Bytes) : RP Bytes := do
  let r ← get
  if r.gate.all (fun g => g.active = []) then
    pure (mustResult false (ascii "plan: chunk without begin"))
  else forward out req pure

def planCommit (req : Bytes) : RP Bytes := do
  let r ← get
  match gated r.gate PlanGate.checkCommit with
  | .error e => planRefuses out once e
  | .ok () => forward out req fun resp => do
    setGate none
    if once then planLeaves resp else pure resp

def planAbort (req : Bytes) : RP Bytes := do
  setGate none
  forward out req planLeaves

/-- One turn of `ServePlanBridge`. -/
def planRequest (req : Bytes) : RP Bytes :=
  match req with
  | [] => pure (mustResult false (ascii "empty plan request"))
  | op :: _ =>
    if op = msgManifest then planManifest out once req
    else if op = msgFile then
      planChecked out once (decodeFile req) (fun g fw => gated g fun g => g.checkFile fw) req
    else if op = msgFileBegin then
      planChecked out once (decodeFileBegin req) (fun g b => gated g fun g => g.checkBegin b) req
    else if op = msgFileChunk then planChunk out req
    else if op = msgFileEnd then planChecked out once (decodeFileEnd req) gatedEnd req
    else if op = msgCommit then planCommit out once req
    else if op = msgIPCAbort then planAbort out req
    else planLeaves (mustResult false (ascii "unknown plan op"))

/-! The parser role. -/

def wrapParseBundle (files : Nat) (resp : Bytes) : Bytes :=
  msgParseBundle :: leBytes 4 files ++ resp

/-- The number of files and the apply role's response. -/
def unwrapParseBundle (p : Bytes) : Except Fault (Nat × Bytes) := do
  demand (5 ≤ p.length ∧ p.head? = some msgParseBundle) (.fail .protocol "bad parse bundle")
  .ok (leNat (slice p 1 5), p.drop 5)

def validateAppMessage (p : Bytes) : Except Fault Unit :=
  match p with
  | [] => .error (.fail .protocol "empty app message")
  | op :: rest =>
    if op = msgManifest then (decodeManifest p).map fun _ => ()
    else if op = msgFile then (decodeFile p).map fun _ => ()
    else if op = msgFileBegin then (decodeFileBegin p).map fun _ => ()
    else if op = msgFileChunk then (decodeFileChunk p).map fun _ => ()
    else if op = msgFileEnd then (decodeFileEnd p).map fun _ => ()
    else if op = msgCommit then demand (rest = []) (.fail .protocol "bad commit")
    else if op = msgIPCAbort then .ok ()
    else .error (.fail .protocol ("unknown app op " ++ toString op.toNat))

def parserLeaves (resp : Bytes) : RP Bytes := do
  quit .parser
  pure resp

/-- Add what the network role needs of a manifest. -/
def bundle (req resp : Bytes) : RP Bytes :=
  match decodeManifest req with
  | .error e => parserLeaves (mustResult false (out.render e))
  | .ok entries => pure (wrapParseBundle (fileCount entries) resp)

def parserResponse (req resp : Bytes) : RP Bytes :=
  if req.head? = some msgManifest then bundle out req resp
  else if once ∧ req.head? = some msgCommit then parserLeaves resp
  else pure resp

/-- One turn of `ServeParserBridge`. -/
def parserRequest (req : Bytes) : RP Bytes :=
  match validateAppMessage req with
  | .error e =>
    if once then parserLeaves (mustResult false (out.render e))
    else pure (mustResult false (out.render e))
  | .ok () => do
    match ← attempt (request out .plan (planRequest out once) req) with
    | .error e => parserLeaves (mustResult false (out.render e))
    | .ok resp => parserResponse out once req resp

/-- A call whose server is the parser role. -/
def toParser (payload : Bytes) : RP Bytes := request out .parser (parserRequest out once) payload

end calls

/-! The network role, with its next role behind `call`. -/

section network

variable (out : Outside) (call : Bytes → RP Bytes)

/-- Where the peer is lost, the apply role is told. -/
def aborting (m : RP α) : RP α := onError m do
  let _ ← call [msgIPCAbort]
  pure ()

def netReport (e : Fault) : RP α := do
  onSession (Conn.report out e)
  throw e

/-- A refusal by the apply role ends the session. -/
def heed (resp : Bytes) : RP Unit :=
  when (resp.head? = some msgResult) do
    let v ← ofExcept (decodeResult resp)
    when (v.ok = false) (netReport out (.fail .apply (text v.message)))

/-- The chunks of one file from `offset` on; the bound is as in `recvChunks`. -/
def relayChunks (size : UInt64) : Nat → UInt64 → RP Unit
  | 0, _ => pure ()
  | n + 1, offset => when (offset < size) do
    let chunk ← aborting call (onSession Conn.recvData)
    if chunk.head? = some msgFileEnd then
      netReport out (.fail .protocol "unexpected file end before size complete")
    else do
      let resp ← call chunk
      if resp.length = 9 ∧ resp.head? = some msgFileAck then do
        let next ← ofExcept (decodeFileAck resp)
        relayChunks size n next
      else do
        heed out resp
        let c ← ofExcept (decodeFileChunk chunk)
        relayChunks size n (c.offset + UInt64.ofNat c.data.length)

def relayEnd : RP Unit := do
  let raw ← aborting call (onSession Conn.recvData)
  let resp ← call raw
  heed out resp

/-- A file after its begin message was answered with `ack`. -/
def relayBody (raw ack : Bytes) : RP Unit := do
  let b ← ofExcept (decodeFileBegin raw)
  let offset ← ofExcept (decodeFileAck ack)
  let r ← get
  relayChunks out call b.size (r.conn.pending + 1) offset
  relayEnd out call

def relayFile (raw : Bytes) : RP Unit :=
  if raw.head? = some msgFile then do
    let resp ← call raw
    heed out resp
  else if raw.head? = some msgFileBegin then do
    let ack ← call raw
    onSession (Conn.sendData ack)
    relayBody out call raw ack
  else netReport out (.fail .protocol "expected file begin")

def relayFiles : Nat → RP Unit
  | 0 => pure ()
  | n + 1 => do
    let raw ← aborting call (onSession Conn.recvData)
    relayFile out call raw
    relayFiles n

def relayCommit : RP Unit := do
  let raw ← onSession Conn.recvData
  require (raw = encodeCommit) (.fail .protocol "expected commit")
  let resp ← call raw
  onSession (Conn.sendData resp)

def relayManifest : RP Bytes := do
  let raw ← onSession Conn.recvData
  require (raw.head? = some msgManifest) (.fail .protocol "expected manifest")
  pure raw

end network

/-- `HandleActiveConnViaApplyIPC`. -/
def viaApplyIPC (out : Outside) (call : Bytes → RP Bytes) : RP Unit := do
  let raw ← relayManifest
  let resp ← call raw
  onSession (Conn.sendData resp)
  let entries ← ofExcept (decodeManifest raw)
  relayFiles out call (fileCount entries)
  relayCommit call

/-- `HandleActiveConnViaParserIPC`. -/
def viaParserIPC (out : Outside) (once : Bool) : RP Unit := do
  let raw ← relayManifest
  let resp ← toParser out once raw
  let (files, answer) ← ofExcept (unwrapParseBundle resp)
  onSession (Conn.sendData answer)
  relayFiles out (toParser out once) files
  relayCommit (toParser out once)

end Integris.RemoteSync
