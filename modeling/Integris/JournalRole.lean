import Integris.FileSegment
import Integris.RelayLink
import Integris.SharedSegment

/-! The journal role of `internal/remotesync`: a file journal session behind one IPC channel,
and the client that offers it as a `JournalSession` again. The accepted prefix crosses the
channel as bytes and is read a second time on the other side. -/
namespace Integris.RemoteSync

open Journal Prog Ipc
open Codec (RecordType)

def msgJrnOpen : UInt8 := 0xd0
def msgJrnAppend : UInt8 := 0xd1
def msgJrnClose : UInt8 := 0xd2
def msgAuditEvent : UInt8 := 0xc0
def msgAuditDone : UInt8 := 0xc1

def maxJrnPrefixBytes : Nat := 8 * 2 ^ 20

/-! `fileJournalSession`, on a file system that works. -/

structure FileJournal where
  file : FileState
  writer : Option SegmentWriter := none

inductive JournalFault where
  | alreadyOpen
  | notOpen
  | unread
  | reading (e : Journal.Error)
  | writing (e : Journal.Failure)
  | badType

abbrev JP := Prog Unit FileJournal JournalFault

def onFile (m : SegmentOp FileState ε α) : Prog Unit FileJournal ε α :=
  zoom FileJournal.file (fun f j => { j with file := f }) (within (fileSegment none) m)

/-- A torn tail is cut off and the writer made anew. -/
def finishOpenJournal : JP (SegmentWriter × Reading) := do
  let first ← mapError .reading (onFile openSegmentWriter)
  if first.2.torn then do
    modify fun j => { j with file := ⟨j.file.data.take first.2.bytes,first.2.bytes⟩ }
    mapError .reading (onFile openSegmentWriter)
  else pure first

namespace FileJournal

def openSession : JP Reading := do
  let j ← get
  require (j.writer.isNone = true) .alreadyOpen
  modify fun j => { j with file := openFileSegment j.file.data }
  let made ← finishOpenJournal
  modify fun j => { j with writer := some made.1 }
  pure made.2

def append (e : Item) : JP Unit := do
  let j ← get
  match j.writer with
  | none => throw .notOpen
  | some w => do
    let done ← mapError .writing (onFile (w.append e))
    modify fun j => { j with writer := some done.2 }

def close : JP Unit := modify fun j => { j with writer := none }

/-- `AcceptedPrefixBytes`. -/
def acceptedPrefixBytes (n : Nat) : JP Bytes :=
  if n = 0 then pure []
  else do
    let j ← get
    require (j.writer.isSome = true) .notOpen
    let r ← onFile (SegmentOp.readAt n 0)
    require (r.bytes.length = n) .unread
    pure r.bytes

end FileJournal

/-! The role. -/

/-- `ServeJournalIPC` between two requests. -/
structure JournalRole where
  session : FileJournal
  opened : Bool := false
  up : Bool := true

abbrev JR := Prog Unit JournalRole Fault

/-- What the role is started with: the texts of its session's errors, the audit role's answers if
there is one, and whether it serves once. -/
structure JournalPeers where
  explain : JournalFault → Bytes
  audit : Option (Bytes → Option Bytes) := none
  once : Bool := false

def inSession (m : JP α) : JR (Except JournalFault α) :=
  zoom JournalRole.session (fun s r => { r with session := s }) (attempt m)

/-- The last response. -/
def journalLeaves (resp : Bytes) : JR Bytes := do
  modify fun r => { r with up := false }
  pure resp

/-- `Close`, if the session is open. -/
def release : JR Unit := do
  let r ← get
  when (r.opened = true) do
    let _ ← inSession FileJournal.close
    modify fun r => { r with opened := false }

section role

variable (peers : JournalPeers)

def journalRefuses (e : JournalFault) : JR Bytes := journalLeaves (mustResult false (peers.explain e))

def journalOpen : JR Bytes := do
  release
  match ← inSession FileJournal.openSession with
  | .error e => journalRefuses peers e
  | .ok accepted => do
    modify fun r => { r with opened := true }
    if maxJrnPrefixBytes < accepted.bytes then
      journalLeaves (mustResult false (headline .protocol "journal prefix too large"))
    else do
      match ← inSession (FileJournal.acceptedPrefixBytes accepted.bytes) with
      | .error e => journalRefuses peers e
      | .ok raw => pure (msgJrnOpen :: leBytes 4 raw.length ++ raw)

def journalAppend (req : Bytes) : JR Bytes := do
  let r ← get
  if r.opened = false then pure (mustResult false (ascii "journal not open"))
  else if req.length < 19 then pure (mustResult false (ascii "short journal append"))
  else
    match RecordType.ofCode (leNat (slice req 17 19)) with
    | none => journalRefuses peers .badType
    | some type => do
      match ← inSession (FileJournal.append ⟨Fixed.ofBytes 16 (slice req 1 17),type,req.drop 19⟩) with
      | .error e => journalRefuses peers e
      | .ok () => pure okResult

def journalAudit (req : Bytes) : JR Bytes := do
  let resp := match peers.audit with
    | none => mustResult true (ascii "audit disabled")
    | some relay => (relay req).getD (mustResult true (ascii "audit relay failed"))
  if peers.once ∧ req.head? = some msgAuditDone then journalLeaves resp else pure resp

/-- One turn of the loop. -/
def journalRequest (req : Bytes) : JR Bytes :=
  match req with
  | [] => pure (mustResult false (ascii "empty journal request"))
  | op :: _ =>
    if op = msgJrnOpen then journalOpen peers
    else if op = msgJrnAppend then journalAppend peers req
    else if op = msgJrnClose then do
      release
      pure okResult
    else if op = msgAuditEvent ∨ op = msgAuditDone then journalAudit peers req
    else journalLeaves (mustResult false (ascii "unknown journal op"))

end role

/-! The channel and the client. -/

structure JournalLink where
  wire : Wire
  role : JournalRole

/-- What a call to an IPC journal session may fail with. -/
inductive ClientFault where
  | remote (f : Fault)
  | reading (e : Journal.Error)

abbrev JL := Prog Unit JournalLink Fault

def nearEnd (m : ChannelState.Op α) : Prog Unit JournalLink Ipc.Error α :=
  zoom (fun l => l.wire.near) (fun ch l => { l with wire := { l.wire with near := ch } }) m

def farEnd (m : ChannelState.Op α) : Prog Unit JournalLink Ipc.Error α :=
  zoom (fun l => l.wire.far) (fun ch l => { l with wire := { l.wire with far := ch } }) m

def atRole (m : JR α) : JL α := zoom JournalLink.role (fun r l => { l with role := r }) m

/-- The role's loop has returned. -/
def roleGone : JL α := do
  atRole (modify fun r => { r with up := false })
  throw unread

def roleResponds (resp : Bytes) : JL Bytes := do
  match ← attempt (farEnd (ChannelState.encode .response resp)) with
  | .error _ => roleGone
  | .ok raw => do
    let frame ← mapError (ipcFault "ipc decode") (nearEnd (ChannelState.decode raw))
    require (frame.typ = .response) (.fail .protocol "ipc: expected response")
    pure frame.payload

section client

variable (peers : JournalPeers)

/-- `ipcWire.request`, with the role's turn in the middle. -/
def askRole (payload : Bytes) : JL Bytes := do
  let raw ← mapError (ipcFault "ipc encode") (nearEnd (ChannelState.encode .request payload))
  let l ← get
  require (l.role.up = true) unread
  match ← attempt (farEnd (ChannelState.decode raw)) with
  | .error _ => roleGone
  | .ok frame =>
    if frame.typ = .request then do
      let resp ← atRole (journalRequest peers frame.payload)
      roleResponds resp
    else roleGone

/-- `ReadPrefixBytes`. -/
def readPrefixBytes (data : Bytes) : Prog Unit JournalLink ClientFault Reading := fun _ l =>
  match (readSegmentPrefix (Shared.memSegment none) data).1 with
  | .ok p => (.ok p,l)
  | .error e => (.error (.reading e),l)
  | .crashed => (.crashed,l)

namespace IpcJournal

def openSession : Prog Unit JournalLink ClientFault Reading := do
  let resp ← mapError .remote (askRole peers [msgJrnOpen])
  if resp.length < 5 ∨ resp.head? ≠ some msgJrnOpen then
    match decodeResult resp with
    | .ok ⟨false,msg⟩ => throw (.remote (.fail .protocol (text msg)))
    | _ => throw (.remote (.fail .protocol "bad journal open response"))
  else do
    let n := leNat (slice resp 1 5)
    require (n ≤ maxJrnPrefixBytes ∧ 5 + n ≤ resp.length)
      (.remote (.fail .protocol "bad journal open length"))
    readPrefixBytes (slice resp 5 (5 + n))

/-- A positive result, or its message. -/
def heedResult (kind : Kind) (resp : Bytes) : JL Unit := do
  let v ← ofExcept (decodeResult resp)
  require (v.ok = true) (.fail kind (text v.message))

/-- The type of an item is one of the valid ones. -/
def append (e : Item) : JL Unit := do
  require (e.payload.length ≤ Codec.maxPayloadBytes) (.fail .invalidArgument "journal payload too large")
  let resp ← askRole peers (msgJrnAppend :: e.transactionID.val ++ leBytes 2 e.type.code ++ e.payload)
  heedResult .apply resp

def close : JL Unit := do
  let resp ← askRole peers [msgJrnClose]
  heedResult .protocol resp

end IpcJournal

end client

/-! Calls to either session. -/

inductive JournalCall where
  | openSession
  | append (e : Item)
  | close

inductive JournalResult where
  | accepted (p : Reading)
  | done
  | failed
  deriving DecidableEq

def reported (f : α → JournalResult) : Outcome ε α → JournalResult
  | .ok a => f a
  | _ => .failed

def FileJournal.call (j : FileJournal) : JournalCall → JournalResult × FileJournal
  | .openSession => let r := openSession () j; (reported .accepted r.1,r.2)
  | .append e => let r := append e () j; (reported (fun _ => .done) r.1,r.2)
  | .close => let r := close () j; (reported (fun _ => .done) r.1,r.2)

def JournalLink.call (peers : JournalPeers) (l : JournalLink) : JournalCall → JournalResult × JournalLink
  | .openSession => let r := IpcJournal.openSession peers () l; (reported .accepted r.1,r.2)
  | .append e => let r := IpcJournal.append peers e () l; (reported (fun _ => .done) r.1,r.2)
  | .close => let r := IpcJournal.close peers () l; (reported (fun _ => .done) r.1,r.2)

/-- The results of some calls, one after another, and what they leave. -/
def calling (call : σ → JournalCall → JournalResult × σ) : σ → List JournalCall → List JournalResult × σ
  | s, [] => ([],s)
  | s, c :: rest =>
    let r := call s c
    let later := calling call r.2 rest
    (r.1 :: later.1,later.2)

end Integris.RemoteSync
