import Integris.Push

/-! The monolithic receiver of `internal/remotesync`: the files of one authenticated session
served against the local store, with every reply sent. The session carries whole messages;
replies wait until the peer takes them. -/
namespace Integris.RemoteSync

open Posix LocalSync Prog

def Kind.name : Kind → String
  | invalidArgument => "invalid_argument"
  | handshake => "handshake"
  | transport => "transport"
  | protocol => "protocol"
  | auth => "auth"
  | apply => "apply"
  | internal => "internal"

/-- What a commit hands to `localsync.Sync`. -/
structure SyncOptions where
  source : Bytes
  destination : Bytes
  fds : Option Descriptors
  destManifest : Option (List Entry)

/-- What `Library` leaves open, the texts of errors from below this package, and
`localsync.Sync` with the emptying of the stage: all that happens at a commit. -/
structure Outside extends Library where
  explain : Fault → Bytes
  publish : SyncOptions → RS Unit

/-- The classification and the message, which may be empty. -/
def headline (kind : Kind) (message : String) : Bytes :=
  if message = "" then ascii kind.name else ascii (kind.name ++ ": " ++ message)

/-- `Error()`. -/
def Outside.render (out : Outside) : Fault → Bytes
  | .fail kind message => headline kind message
  | .wrap kind message cause => headline kind message ++ ascii ": " ++ out.render cause
  | other => out.explain other

/-! The peer's end of a session. -/

/-- Let the client take the replies it is waiting for. -/
def Client.settle : Client → List Bytes → Client × List Bytes
  | .await next, reply :: waiting => (next reply).settle waiting
  | client, waiting => (client, waiting)

/-- How much the client will say if it is told nothing more. -/
def Client.pending : Client → List Bytes → Nat
  | .say _ next, waiting => next.pending waiting + 1
  | .await next, reply :: waiting => (next reply).pending waiting
  | _, _ => 0

structure Conn where
  client : Client
  waiting : List Bytes := []
  replies : List Bytes := []

abbrev CP := Prog Host Conn Fault

def Conn.recvData : CP Bytes := do
  let c ← get
  match c.client.settle c.waiting with
  | (.say raw next, waiting) => do
    modify fun c => { c with client := next, waiting := waiting }
    pure raw
  | _ => throw (.fail .transport "peer closed")

/-- A reply to a peer that has hung up is lost or refused. -/
def Conn.sendData (raw : Bytes) : CP Unit := do
  let c ← get
  match c.client.settle c.waiting with
  | (.stop reset, _) => require (reset = false) (.fail .transport "write frame")
  | _ => modify fun c => { c with waiting := c.waiting ++ [raw], replies := c.replies ++ [raw] }

def Conn.pending (c : Conn) : Nat := c.client.pending c.waiting

structure Session where
  conn : Conn
  receiver : Receiver

abbrev SS := Prog Host Session Fault

def onConn (m : CP α) : SS α := zoom Session.conn (fun c s => { s with conn := c }) m

def onStore (m : SP α) : SS α := zoom Session.receiver (fun r s => { s with receiver := r }) m

section serving

variable (out : Outside)

/-- Where the peer is lost, the active file's position is saved. -/
def saving (m : SS α) : SS α := onError m (onStore (persistActive out.toLibrary))

/-- Tell the peer at most 1024 bytes of the error, then give up with it. -/
def Conn.report (e : Fault) : CP Unit :=
  match encodeResult false ((out.render e).take 1024) with
  | .ok raw => ignore (sendData raw)
  | .error _ => pure ()

def respondErr (e : Fault) : SS α := do
  onConn (Conn.report out e)
  throw e

def answering (m : SS α) : SS α := do
  match ← attempt m with
  | .ok a => pure a
  | .error e => respondErr out e

/-- The chunks of the active file. A peer that is told nothing says at most `pending`
messages, so the bound is never what ends the loop. -/
def recvChunks (b : FileBegin) : Nat → SS Unit
  | 0 => pure ()
  | n + 1 => do
    let s ← get
    when (s.receiver.store.off < b.size) do
      let raw ← saving out (onConn Conn.recvData)
      require (raw.head? ≠ some msgFileEnd)
        (.fail .protocol "unexpected file end before size complete")
      let c ← ofExcept (decodeFileChunk raw)
      onStore (writeChunk out.toLibrary c)
      recvChunks b n

def recvFileChunked (b : FileBegin) : SS Unit := do
  let start ← onStore (beginFile out.toLibrary b)
  saving out (onConn (Conn.sendData (encodeFileAck start)))
  let s ← get
  if s.receiver.store.active = false then do
    let raw ← onConn Conn.recvData
    let e ← ofExcept (decodeFileEnd raw)
    require (e.rel = b.rel ∧ e.digest = b.digest) (.fail .protocol "file end mismatch")
  else do
    recvChunks out b (s.conn.pending + 1)
    let raw ← saving out (onConn Conn.recvData)
    let e ← ofExcept (decodeFileEnd raw)
    onStore (endFile out.toLibrary e)

def recvFile (raw : Bytes) : SS Unit :=
  if raw.head? = some msgFile then do
    let fw ← ofExcept (decodeFile raw)
    onStore (stageLegacy out.toLibrary fw)
  else do
    let b ← ofExcept (decodeFileBegin raw)
    recvFileChunked out b

def recvFiles : Nat → SS Unit
  | 0 => pure ()
  | n + 1 => do
    let raw ← saving out (onConn Conn.recvData)
    answering out (recvFile out raw)
    recvFiles n

def commit (destMan : Option (List Entry)) : SP Unit := do
  let s ← getStore
  require (s.active = false) (.fail .protocol "commit with active file")
  onWorld (out.publish ⟨s.stageRoot,s.dest,s.fds,destMan⟩)

def fileCount (entries : List Entry) : Nat := (entries.filter isFile).length

end serving

/-! What the store operations leave in the store. -/

section store

variable {lib : Library} {host : Host} {r : Receiver}

theorem onWorld_store (m : Prog Host World ε α) : wp (onWorld m) host r (fun _ t => t.store = r.store)
    (fun _ t => t.store = r.store) (fun t => t.store = r.store) := by
  rw [onWorld,wp_zoom]
  exact wp_always fun _ => rfl

theorem wp_getStore {f : Store → SP α} {Q : α → Receiver → Prop} {E : Fault → Receiver → Prop}
    {C : Receiver → Prop} : wp (getStore >>= f) host r Q E C ↔ wp (f r.store) host r Q E C := Iff.rfl

/-- Only the tree changes, so what follows knows the store. -/
theorem wp_onWorld_bind {m : RS α} {f : α → SP β} {Q : β → Receiver → Prop}
    (rest : ∀ a t, t.store = r.store → wlp (f a) host t Q) :
    wlp (onWorld m >>= f) host r Q :=
  wp_bind.mpr ((onWorld_store m).imp rest)

/-- The active file has grown by the chunk. -/
structure Grown (c : FileChunk) (s t : Store) : Prop where
  was : s.active = true
  active : t.active = true
  begin : t.begin = s.begin
  off : t.off = s.off + UInt64.ofNat c.data.length

theorem writeChunk_grown (c : FileChunk) : wlp (writeChunk lib c) host r fun _ t => Grown c r.store t.store := by
  refine wp_getStore.mpr ?_
  split
  · next pf active _ =>
    refine wp_bind.mpr (wp_require.mpr ⟨fun _ => ?_,fun _ => trivial⟩)
    refine wp_onWorld_bind fun _ t same => wp_bind.mpr (wp_modify.mpr ?_)
    refine (onWorld_store _).imp (fun _ u grown => ?_)
    rw [grown]
    simp only [same]
    exact ⟨active,active,rfl,rfl⟩
  · exact trivial

end store

end Integris.RemoteSync
