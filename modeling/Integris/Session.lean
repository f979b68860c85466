import Integris.Crypto

/-! The session state machine of `internal/session`. Event emission never changes a
transition and is left out. A failed operation keeps every field it wrote first. -/
namespace Integris

namespace Session

abbrev Version := UInt8

def localAllowed : List Version := [2, 3]
def defaultMaxAccept : Nat := 2 ^ 20
def localSuites : List Bytes := [Crypto.suiteIDAEAD]

inductive State where
  | new
  | negotiated
  | peerAuthenticated
  | archiveAuthorized
  | active
  | closed
  | failed
  deriving DecidableEq, Repr

end Session

open Session Crypto

structure Session where
  state : State := .new
  offered : List Version := []
  selected : Version := 0
  offeredSuites : List Bytes := []
  selectedSuite : Bytes := []
  requireSuite : Bool := false
  peerAuthenticated : Bool := false
  authI2R : Bool := false
  authR2I : Bool := false
  archiveAuthorized : Bool := false
  receiveSequence : Nat := 0
  maxAccept : Nat := 0
  replayAccepted : Bool := false
  productMutation : Bool := false
  transcript : Option Transcript := none
  authBaseDigest : Digest := Fixed.zero 32
  authBaseSet : Bool := false
  archiveBaseDigest : Digest := Fixed.zero 32
  archiveBaseSet : Bool := false
  deriving DecidableEq, Repr

namespace Session

variable {ρ : Type}

/-- `New` of the package. -/
def fresh (offered : List Version) : Session := { offered := offered }

def newWithSuites (offered : List Version) (suites : List Bytes) : Session :=
  { fresh offered with offeredSuites := suites, requireSuite := true }

def highest : List Version → Option Version
  | [] => none
  | v :: vs => some (vs.foldl (fun h v => if h < v then v else h) v)

def candidates (offered : List Version) : List Version := offered.filter (· ∈ localAllowed)

/-- Both sides list suites in local preference order; empty names never match. -/
def selectSuite (local' offered : List Bytes) : Option Bytes :=
  local'.find? fun s => s ≠ [] ∧ s ∈ offered

/-- A transcript refuses only oversized fields, and the caller ignores that. -/
def bind (label : String) (data : Bytes) (s : Session) : Session :=
  { s with transcript := s.transcript.map fun t =>
      match t.append (ascii label) data with
      | .ok longer => longer
      | .error _ => t }

def freezeAuthBase (s : Session) : Session :=
  { s with
    authBaseDigest := (s.transcript.map Transcript.digest).getD s.authBaseDigest
    authBaseSet := s.transcript.isSome || s.authBaseSet }

def freezeArchiveBase (s : Session) : Session :=
  { s with
    archiveBaseDigest := (s.transcript.map Transcript.digest).getD s.archiveBaseDigest
    archiveBaseSet := s.transcript.isSome || s.archiveBaseSet }

open Prog

/-- Enter FAILED and report why. -/
def abort (code message : String) : Prog ρ Session Failure α := do
  modify fun s => { s with state := .failed }
  throw ⟨code, message⟩

def negotiate : Prog ρ Session Failure Unit := do
  let s ← get
  require (s.state = .new) ⟨"state", "Negotiate requires NEW"⟩
  match highest (candidates s.offered) with
  | none => abort "version" "no common version"
  | some h =>
    modify fun s => { s with selected := h, state := .negotiated }
    modify (bind "negotiate" [h])
    modify (bind "offered" s.offered)
    modify (bind "local_allowed" localAllowed)
    if s.requireSuite ∨ s.offeredSuites ≠ [] then
      match selectSuite localSuites s.offeredSuites with
      | none => abort "suite" "no common crypto suite"
      | some suite =>
        modify fun s => { s with selectedSuite := suite }
        modify (bind "suite" suite)
        modify freezeAuthBase
    else modify freezeAuthBase

def confirmAccept (vers : Version) (suite : Bytes) : Prog ρ Session Failure Unit := do
  let s ← get
  require (s.state = .negotiated) ⟨"state", "ConfirmAccept requires NEGOTIATED"⟩
  if s.selected ≠ vers then abort "version" "accept version mismatch"
  else if suite = [] then
    if s.selectedSuite ≠ [] then abort "suite" "accept suite missing" else pure ()
  else if s.selectedSuite ≠ suite then abort "suite" "accept suite mismatch"
  else pure ()

def downgraded (s : Session) : Bool :=
  match highest (candidates s.offered) with
  | none => true
  | some h => s.selected ≠ h

def authenticate : Prog ρ Session Failure Unit := do
  let s ← get
  require (s.state = .negotiated) ⟨"state", "Authenticate requires NEGOTIATED"⟩
  if s.downgraded then abort "downgrade" "selected version not highest candidate"
  else
    modify fun s => { s with
      authI2R := true, authR2I := true, peerAuthenticated := true, state := .peerAuthenticated }
    modify (bind "peer_auth" [1])
    modify freezeArchiveBase

def makeAuthProof (authKey : Bytes) (sessionID : SessionID) (direction : Bytes) :
    Prog ρ Session Failure Bytes := do
  let s ← get
  require (s.state = .negotiated) ⟨"state", "MakeAuthProof requires NEGOTIATED"⟩
  require s.authBaseSet ⟨"transcript", "auth base digest required"⟩
  require (¬s.downgraded) ⟨"downgrade", "selected version not highest candidate"⟩
  ofExcept (peerAuthProof authKey s.authBaseDigest sessionID direction)

def authenticateProof (authKey : Bytes) (sessionID : SessionID) (direction proof : Bytes) :
    Prog ρ Session Failure Unit := do
  let s ← get
  require (s.state = .negotiated) ⟨"state", "AuthenticateProof requires NEGOTIATED"⟩
  require s.authBaseSet ⟨"transcript", "auth base digest required"⟩
  if s.downgraded then abort "downgrade" "selected version not highest candidate"
  else if direction = i2r ∧ s.authI2R then abort "auth" "duplicate i2r proof"
  else if direction = r2i ∧ s.authR2I then abort "auth" "duplicate r2i proof"
  else if direction ≠ i2r ∧ direction ≠ r2i then
    throw ⟨"direction", "direction must be i2r or r2i"⟩
  else
    match verifyPeerAuthProof authKey s.authBaseDigest sessionID direction proof with
    | .error e => abort "auth" e.text
    | .ok () =>
      modify (bind "peer_auth" (hmacSHA256 authKey (ascii "proof-tag:" ++ proof)))
      modify (bind "peer_auth_dir" direction)
      modify fun s =>
        if direction = i2r then { s with authI2R := true } else { s with authR2I := true }
      modify fun s =>
        if s.authI2R ∧ s.authR2I then
          freezeArchiveBase { s with peerAuthenticated := true, state := .peerAuthenticated }
        else s

def authorizeArchive : Prog ρ Session Failure Unit := do
  let s ← get
  require (s.state = .peerAuthenticated ∧ s.peerAuthenticated)
    ⟨"state", "AuthorizeArchive requires PEER_AUTHENTICATED"⟩
  modify fun s => { s with archiveAuthorized := true, state := .archiveAuthorized }
  modify (bind "archive_auth" [1])

def makeArchiveProof (authKey : Bytes) (sessionID : SessionID) :
    Prog ρ Session Failure Bytes := do
  let s ← get
  require (s.state = .peerAuthenticated ∧ s.peerAuthenticated)
    ⟨"state", "MakeArchiveProof requires PEER_AUTHENTICATED"⟩
  require s.archiveBaseSet ⟨"transcript", "archive base digest required"⟩
  ofExcept (archiveAuthProof authKey s.archiveBaseDigest sessionID)

def authorizeArchiveProof (authKey : Bytes) (sessionID : SessionID) (proof : Bytes) :
    Prog ρ Session Failure Unit := do
  let s ← get
  require (s.state = .peerAuthenticated ∧ s.peerAuthenticated)
    ⟨"state", "AuthorizeArchiveProof requires PEER_AUTHENTICATED"⟩
  require s.archiveBaseSet ⟨"transcript", "archive base digest required"⟩
  match verifyArchiveAuthProof authKey s.archiveBaseDigest sessionID proof with
  | .error e => abort "archive" e.text
  | .ok () =>
    modify (bind "archive_auth" (hmacSHA256 authKey (ascii "archive-tag:" ++ proof)))
    modify fun s => { s with archiveAuthorized := true, state := .archiveAuthorized }

def activate : Prog ρ Session Failure Unit := do
  let s ← get
  require (s.state = .archiveAuthorized) ⟨"state", "Activate requires ARCHIVE_AUTHORIZED"⟩
  if ¬s.peerAuthenticated ∨ ¬s.archiveAuthorized then
    abort "auth" "missing authentication or archive authorization"
  else if s.downgraded then abort "downgrade" "active session would be downgraded"
  else
    modify fun s => { s with state := .active }
    modify (bind "activate" [s.selected])
    if s.selectedSuite ≠ [] then modify (bind "suite_active" s.selectedSuite) else pure ()

def acceptNext : Prog ρ Session Failure Unit := do
  let s ← get
  require (s.state = .active) ⟨"state", "AcceptNext requires ACTIVE"⟩
  let limit := if s.maxAccept = 0 then defaultMaxAccept else s.maxAccept
  require (s.receiveSequence < limit)
    ⟨"limit", "receive sequence at MaxAccept=" ++ toString limit⟩
  modify fun s => { s with receiveSequence := s.receiveSequence + 1, productMutation := true }

/-- The one operation that enters FAILED and reports success. -/
def rejectReplay : Prog ρ Session Failure Unit := do
  let s ← get
  require (s.state = .active) ⟨"state", "RejectReplay requires ACTIVE"⟩
  modify fun s => { s with replayAccepted := false, state := .failed }

/-- `Close` of an ACTIVE session. -/
def shut : Prog ρ Session Failure Unit := do
  let s ← get
  require (s.state = .active) ⟨"state", "Close requires ACTIVE"⟩
  modify fun s => { s with state := .closed }

def invariants (s : Session) : Except Failure Unit := do
  if s.state = .active then
    demand (s.peerAuthenticated ∧ s.archiveAuthorized) ⟨"inv", "ActiveIsAuthorized violated"⟩
    demand (¬s.downgraded) ⟨"inv", "ActiveIsNotDowngraded violated"⟩
  demand (¬s.replayAccepted) ⟨"inv", "ReplayNeverAccepted violated"⟩
  demand (s.productMutation → s.peerAuthenticated ∧ s.archiveAuthorized)
    ⟨"inv", "MutationIsAuthorized violated"⟩
  demand (s.state = .peerAuthenticated ∨ s.peerAuthenticated → s.authI2R ∧ s.authR2I)
    ⟨"inv", "PeerAuthIsMutual violated"⟩

end Session

end Integris
