import Integris.Journal

/-! Crash recovery of `internal/recovery`: the accepted journal prefix is scanned into
flags, the flags meet what is observed on disk, and a cascade of early returns
decides. The I/O adapter may refuse any call or die in it, before or after the
call took effect. Emitted events never change a decision and are left out. -/
namespace Integris.Recovery

open Codec Journal Prog

/-- The states of the transaction model; recovery reports some of them. -/
inductive State where
  | created | authenticated | manifestVerified | planned | authorized | contentReceived
  | prepared | verified | publishing | published | confirmed | suspended | cancelled
  | quarantined | recovering | irrecoverable
  deriving DecidableEq, Repr

inductive CrashLabel where
  | stageCreate | stageSync | publishRename | publishDirSync | confirmPre | confirmPost
  deriving DecidableEq, Repr

def CrashLabel.text : CrashLabel → String
  | stageCreate => "P-STAGE-CREATE"
  | stageSync => "P-STAGE-SYNC"
  | publishRename => "P-PUBLISH-RENAME"
  | publishDirSync => "P-PUBLISH-DIRSYNC"
  | confirmPre => "P-CONFIRM-PRE"
  | confirmPost => "P-CONFIRM-POST"

inductive ProgressCode where
  | contentReceived | prepared | verified | publishing
  deriving DecidableEq, Repr

namespace ProgressCode

def code : ProgressCode → Nat
  | contentReceived => 1
  | prepared => 2
  | verified => 3
  | publishing => 4

def ofCode : Nat → Option ProgressCode
  | 1 => some contentReceived
  | 2 => some prepared
  | 3 => some verified
  | 4 => some publishing
  | _ => none

end ProgressCode

inductive Kind where
  | fatal | quarantine | identity | state | io
  deriving DecidableEq, Repr

structure Error where
  kind : Kind
  field : String
  message : String
  deriving DecidableEq, Repr

/-- The errors of the package, with the adapter's error `ι` behind one of kind `io`; a
checkpoint's error is passed on as it is. -/
inductive Failure (ι : Type) where
  | own (e : Error) (cause : Option ι)
  | checkpoint (cause : ι)
  deriving DecidableEq, Repr

def authorizationPayloadSize : Nat := 192

structure AuthorizationBinding where
  planDigest : Digest
  configurationDigest : Digest
  capabilityVectorDigest : Digest
  rootIdentity : Digest
  volumeIdentity : Digest
  authDigest : Digest
  deriving DecidableEq, Repr

def decodeAuthorizationPayload (p : Bytes) : Except Error AuthorizationBinding :=
  if p.length ≠ authorizationPayloadSize then
    .error ⟨.state,"state","authorization payload must be 192 bytes"⟩
  else .ok ⟨.ofBytes 32 (slice p 0 32),.ofBytes 32 (slice p 32 64),.ofBytes 32 (slice p 64 96),
    .ofBytes 32 (slice p 96 128),.ofBytes 32 (slice p 128 160),.ofBytes 32 (slice p 160 192)⟩

def encodeAuthorizationPayload (b : AuthorizationBinding) : Bytes :=
  b.planDigest.val ++ b.configurationDigest.val ++ b.capabilityVectorDigest.val ++
    b.rootIdentity.val ++ b.volumeIdentity.val ++ b.authDigest.val

theorem encodeAuthorizationPayload_length (b : AuthorizationBinding) :
    (encodeAuthorizationPayload b).length = authorizationPayloadSize := by
  simp [encodeAuthorizationPayload,b.planDigest.property,b.configurationDigest.property,
    b.capabilityVectorDigest.property,b.rootIdentity.property,b.volumeIdentity.property,
    b.authDigest.property,authorizationPayloadSize]

theorem decode_encodeAuthorizationPayload (b : AuthorizationBinding) :
    decodeAuthorizationPayload (encodeAuthorizationPayload b) = .ok b := by
  have skip : ∀ (d : Digest) (rest : Bytes) (i j : Nat), 32 ≤ i →
      slice (d.val ++ rest) i j = slice rest (i - 32) (j - 32) := fun d rest i j far => by
    rw [slice_append_right (by rw [d.property]; exact far),d.property]
  have here : ∀ (d : Digest) (rest : Bytes), Fixed.ofBytes 32 (slice (d.val ++ rest) 0 32) = d :=
    fun d rest => by rw [slice_append_left d.property,Fixed.ofBytes_of_val]
  have last : Fixed.ofBytes 32 (slice b.authDigest.val 0 32) = b.authDigest := by simpa using here b.authDigest []
  unfold decodeAuthorizationPayload
  rw [if_neg (not_not.mpr (encodeAuthorizationPayload_length b))]
  simp (disch := omega) only [encodeAuthorizationPayload,List.append_assoc,here,skip,Nat.reduceSub,last]

def encodeProgressPayload (c : ProgressCode) : Bytes := leBytes 2 c.code

theorem progress_read_back (c : ProgressCode) :
    ProgressCode.ofCode (leNat (slice (encodeProgressPayload c) 0 2)) = some c := by
  cases c <;> decide

structure FSObservation where
  rootIdentity : Digest
  volumeIdentity : Digest
  stagingPresent : Bool
  publicationStarted : Bool
  publicationLinearized : Bool
  publishedContentMatches : Bool
  deriving DecidableEq

structure Policy where
  allowStagingCleanup : Bool := false
  allowConfirm : Bool := false
  deriving DecidableEq

inductive ActionKind where
  | enterRecovering | cleanupStaging | quarantineStaging | confirm | noop
  deriving DecidableEq, Repr

structure Action where
  kind : ActionKind
  label : Option CrashLabel := none
  deriving DecidableEq, Repr

/-- The state is empty until one is decided. -/
structure Outcome where
  state : Option State := none
  actions : List Action := []
  idempotentNoop : Bool := false
  tornTail : Bool := false
  transactionID : TransactionID := Fixed.zero 16
  authorized : Bool := false
  published : Bool := false
  confirmations : Nat := 0
  recoveryCount : Nat := 0
  binding : Option AuthorizationBinding := none
  deriving DecidableEq

/-! The scan. -/

structure AbstractFlags where
  txid : TransactionID := Fixed.zero 16
  hasTx : Bool := false
  planDigestSeen : Bool := false
  authorized : Bool := false
  contentReceived : Bool := false
  prepared : Bool := false
  contentVerified : Bool := false
  publicationStarted : Bool := false
  published : Bool := false
  confirmationCount : Nat := 0
  cancelled : Bool := false
  quarantined : Bool := false
  binding : Option AuthorizationBinding := none
  contradiction : Option String := none
  deriving DecidableEq

namespace AbstractFlags

def contradict (f : AbstractFlags) (why : String) : AbstractFlags := { f with contradiction := some why }

def progress (f : AbstractFlags) : ProgressCode → AbstractFlags
  | .contentReceived => { f with contentReceived := true }
  | .prepared => { f with prepared := true }
  | .verified => { f with contentVerified := true }
  | .publishing => { f with publicationStarted := true }

/-- The authorization, preparation and verification a publication needs. -/
def chained (f : AbstractFlags) : Bool :=
  f.authorized && f.prepared && f.contentVerified && f.contentReceived

end AbstractFlags

def scanAuthorization (f : AbstractFlags) (payload : Bytes) : Except Error AbstractFlags :=
  if f.authorized then .ok (f.contradict "duplicate authorization")
  else
    match decodeAuthorizationPayload payload with
    | .error e => .error e
    | .ok b => .ok { f with binding := some b, authorized := true }

def scanProgress (f : AbstractFlags) (payload : Bytes) : AbstractFlags :=
  if payload.length < 2 then f.contradict "progress payload too short"
  else
    match ProgressCode.ofCode (leNat (slice payload 0 2)) with
    | some c => f.progress c
    | none => f.contradict "unknown progress code"

/-- One record of the transaction under scan. -/
def scanRecord (f : AbstractFlags) (rec : Record) : Except Error AbstractFlags :=
  match rec.type with
  | .planDigest => .ok { f with planDigestSeen := true }
  | .authorization => scanAuthorization f rec.payload
  | .progress => .ok (scanProgress f rec.payload)
  | .confirmation => .ok { f with confirmationCount := f.confirmationCount + 1 }
  | .cancellation => .ok { f with cancelled := true }
  | .quarantine => .ok { f with quarantined := true }
  | .recovery => .ok f
  | .observation => .ok f
  | .checkpoint => .ok f
  | .evidenceReference => .ok f

/-- The loop over the records; a contradiction ends it. -/
def scanRecords : List Record → AbstractFlags → Except Error AbstractFlags
  | [], f => .ok f
  | rec :: rest, f =>
    if f.hasTx = true ∧ rec.transactionID ≠ f.txid then
      .ok (f.contradict "multiple transaction ids in prefix")
    else
      match scanRecord { f with txid := rec.transactionID, hasTx := true } rec with
      | .error e => .error e
      | .ok g => if g.contradiction.isSome then .ok g else scanRecords rest g

/-- The checks after the loop; each overrides the one before. -/
def checkPlanDigest (f : AbstractFlags) : AbstractFlags :=
  if f.authorized = true ∧ f.planDigestSeen = false ∧
      f.binding.any (fun b => b.planDigest = Fixed.zero 32) = true then
    f.contradict "authorization missing plan digest binding"
  else f

def checkPrepared (f : AbstractFlags) : AbstractFlags :=
  if f.prepared = true ∧ f.contentReceived = false then
    f.contradict "prepared without content received"
  else f

def checkVerified (f : AbstractFlags) : AbstractFlags :=
  if f.contentVerified = true ∧ (f.prepared && f.contentReceived) = false then
    f.contradict "verified without preparation chain"
  else f

def checkStarted (f : AbstractFlags) : AbstractFlags :=
  if f.publicationStarted = true ∧ (f.authorized && f.contentVerified) = false then
    f.contradict "publication started without authorization/verification"
  else f

def scanPrefix (records : List Record) : Except Error AbstractFlags :=
  match scanRecords records {} with
  | .error e => .error e
  | .ok f =>
    if f.contradiction.isSome then .ok f
    else .ok (checkStarted (checkVerified (checkPrepared (checkPlanDigest f))))

/-! The adapter. -/

inductive Call where
  | checkpoint (label : CrashLabel)
  | cleanupStaging
  | quarantineStaging
  | appendConfirmation (txid : TransactionID)
  deriving DecidableEq, Repr

/-- How a call ends; a failed or killed one may have taken effect. -/
inductive Answer (ι : Type) where
  | done
  | failed (e : ι) (took : Bool)
  | killed (took : Bool)

/-- `PersistIO`: what the adapter does in its `n`th call of a run. -/
structure PersistIO (ι : Type) where
  answer : Nat → Call → Answer ι

/-- The outcome under construction, and each call so far with whether it took effect. -/
structure Recovering where
  out : Outcome := {}
  calls : List (Call × Bool) := []

abbrev Op (ι : Type) := Prog ( PersistIO ι) Recovering (Failure ι)

def Recovering.called (s : Recovering) (c : Call) (took : Bool) : Recovering :=
  { s with calls := s.calls ++ [(c, took)] }

def call (wrap : ι → Failure ι) (c : Call) : Op ι Unit := fun io s =>
  match io.answer s.calls.length c with
  | .done => (.ok (), s.called c true)
  | .failed e took => (.error (wrap e), s.called c took)
  | .killed took => (.crashed, s.called c took)

theorem wp_call {adapter : PersistIO ι} {s : Recovering} {wrap : ι → Failure ι} {c : Call}
    {Q : Unit → Recovering → Prop} {E : Failure ι → Recovering → Prop} {C : Recovering → Prop}
    (done : Q () (s.called c true)) (failed : ∀ e took, E (wrap e) (s.called c took))
    (killed : ∀ took, C (s.called c took)) : wp (call wrap c) adapter s Q E C := by
  unfold wp call
  rcases adapter.answer s.calls.length c with _ | ⟨e,took⟩ | took
  · exact done
  · exact failed e took
  · exact killed took

def checkpoint (label : CrashLabel) : Op ι Unit := call .checkpoint (.checkpoint label)

/-- `ioErr` around one of the adapter's effects. -/
def perform (label : CrashLabel) (c : Call) : Op ι Unit :=
  call (fun e => .own ⟨.io,label.text,"persistence boundary failed"⟩ (some e)) c

def setOut (f : Outcome → Outcome) : Op ι Unit := modify fun s => { s with out := f s.out }

def act (kind : ActionKind) (label : Option CrashLabel) : Op ι Unit :=
  setOut fun out => { out with actions := out.actions ++ [⟨kind,label⟩] }

def maybeCleanup (policy : Policy) (io : Bool) (obs : FSObservation) : Op ι Unit :=
  when (policy.allowStagingCleanup = true ∧ io = true ∧ obs.stagingPresent = true) (do
    checkpoint .stageCreate
    perform .stageCreate .cleanupStaging
    act .cleanupStaging (some .stageCreate)
    checkpoint .stageSync
    act .cleanupStaging (some .stageSync))

def maybeQuarantine (policy : Policy) (io : Bool) (obs : FSObservation) : Op ι Unit :=
  when (policy.allowStagingCleanup = true ∧ io = true ∧
      (obs.stagingPresent = true ∨ obs.publicationStarted = true)) (do
    checkpoint .publishRename
    perform .publishRename .quarantineStaging
    act .quarantineStaging (some .publishRename)
    checkpoint .publishDirSync
    act .quarantineStaging (some .publishDirSync))

def confirmOnce (txid : TransactionID) : Op ι Unit := do
  checkpoint .confirmPre
  perform .confirmPre (.appendConfirmation txid)
  checkpoint .confirmPost
  act .confirm (some .confirmPost)

/-! The cascade. -/

def terminalFromFlags (f : AbstractFlags) : Bool :=
  (f.confirmationCount = 1 && f.published) || (f.cancelled && !f.publicationStarted) ||
    (f.quarantined && !f.published && !f.publicationStarted)

def stateFromFlags (f : AbstractFlags) : State :=
  if f.confirmationCount = 1 && f.published then .confirmed
  else if f.cancelled then .cancelled
  else if f.quarantined then .quarantined
  else if f.published then .published
  else .quarantined

/-- The decision is final: asking again changes nothing. -/
def settled (state : State) : Op ι Unit := setOut fun out =>
  { out with state := some state, idempotentNoop := true, recoveryCount := 1 }

def irrecoverable (e : Error) : Op ι Unit := do
  settled .irrecoverable
  throw (.own e none)

def linearized (obs : FSObservation) : Bool := obs.publicationLinearized && obs.publishedContentMatches

/-- Publication is observed, never taken from the journal. -/
def AbstractFlags.observed (f : AbstractFlags) (obs : FSObservation) : AbstractFlags :=
  if linearized obs then { f with published := true, publicationStarted := true }
  else { f with publicationStarted := f.publicationStarted || obs.publicationStarted }

@[simp] theorem AbstractFlags.observed_count (f : AbstractFlags) (obs : FSObservation) :
    (f.observed obs).confirmationCount = f.confirmationCount := by
  unfold observed
  split <;> rfl

@[simp] theorem AbstractFlags.observed_cancelled (f : AbstractFlags) (obs : FSObservation) :
    (f.observed obs).cancelled = f.cancelled := by
  unfold observed
  split <;> rfl

@[simp] theorem AbstractFlags.observed_quarantined (f : AbstractFlags) (obs : FSObservation) :
    (f.observed obs).quarantined = f.quarantined := by
  unfold observed
  split <;> rfl

def nothingDurable (prior : Prefix) (obs : FSObservation) : Bool :=
  prior.records.isEmpty && !prior.torn && !obs.stagingPresent && !obs.publicationStarted &&
    !obs.publicationLinearized

def needsRecovery (prior : Prefix) (obs : FSObservation) (f : AbstractFlags) : Bool :=
  !terminalFromFlags f || prior.torn || (obs.stagingPresent && !f.published) ||
    (f.publicationStarted && !f.published)

/-- The published path: optionally confirm once. -/
def recoverPublished (policy : Policy) (io : Bool) (f : AbstractFlags) : Op ι Unit := do
  setOut fun out => { out with state := some .published }
  when (policy.allowConfirm = true ∧ io = true) (do
    confirmOnce f.txid
    setOut fun out => { out with state := some .confirmed, confirmations := 1 })
  setOut fun out => { out with idempotentNoop := true, recoveryCount := 1 }

/-- From `RECOVERING` on. -/
def recoverOpen (obs : FSObservation) (policy : Policy) (io : Bool) (f : AbstractFlags) : Op ι Unit :=
  if f.confirmationCount = 1 then
    if f.published then settled .confirmed
    else irrecoverable ⟨.fatal,"confirmation","confirmation without publication evidence"⟩
  else if f.cancelled && !f.publicationStarted && !f.published then do
    maybeCleanup policy io obs
    settled .cancelled
  else if f.quarantined && !f.published then do
    maybeQuarantine policy io obs
    settled .quarantined
  else if f.published then recoverPublished policy io f
  else do
    maybeQuarantine policy io obs
    settled .quarantined
    setOut fun out => { out with published := false }

def recoverObserved (prior : Prefix) (obs : FSObservation) (policy : Policy) (io : Bool)
    (f : AbstractFlags) : Op ι Unit := do
  setOut fun out => { out with published := f.published }
  if nothingDurable prior obs then
    setOut fun out => { out with state := some .created, idempotentNoop := true, actions := [⟨.noop,none⟩] }
  else if !needsRecovery prior obs f && terminalFromFlags f then do
    settled (stateFromFlags f)
    setOut fun out => { out with actions := [⟨.noop,none⟩] }
  else do
    act .enterRecovering none
    setOut fun out => { out with state := some .recovering }
    recoverOpen obs policy io f

def identityMismatch (f : AbstractFlags) (obs : FSObservation) : Bool :=
  f.binding.any fun b => b.rootIdentity ≠ obs.rootIdentity ∨ b.volumeIdentity ≠ obs.volumeIdentity

def recoverScanned (prior : Prefix) (obs : FSObservation) (policy : Policy) (io : Bool)
    (f : AbstractFlags) : Op ι Unit := do
  setOut fun _ => { tornTail := prior.torn, transactionID := f.txid, authorized := f.authorized,
                    confirmations := f.confirmationCount, binding := f.binding }
  if identityMismatch f obs then
    irrecoverable ⟨.identity,"identity","root/volume identity mismatch with authorization"⟩
  else
    match f.contradiction with
    | some why => irrecoverable ⟨.fatal,"records",why⟩
    | none =>
      if 1 < f.confirmationCount then
        irrecoverable ⟨.fatal,"confirmation","more than one confirmation record"⟩
      else if linearized obs && !f.chained then
        irrecoverable ⟨.fatal,"publication",
          "linearized publication without authorization/preparation chain"⟩
      else recoverObserved prior obs policy io (f.observed obs)

def recoverBody (prior : Prefix) (obs : FSObservation) (policy : Policy) (io : Bool) : Op ι Unit :=
  match scanPrefix prior.records with
  | .error e => throw (.own e none)
  | .ok f => recoverScanned prior obs policy io f

/-- Both results of the source: the outcome comes with the error too. -/
structure Report (ι : Type) where
  outcome : Outcome
  error : Option (Failure ι)
  deriving DecidableEq

/-- What a call of `Recover` leaves: its report unless the process died in it, and its calls. -/
structure Ending (ι : Type) where
  report : Option (Report ι)
  calls : List (Call × Bool)

/-- `Recover`; `io` tells whether an adapter is given. -/
def recover (prior : Prefix) (obs : FSObservation) (policy : Policy) (io : Bool)
    (adapter : PersistIO ι) : Ending ι :=
  match recoverBody prior obs policy io adapter {} with
  | (.ok (), s) => ⟨some ⟨s.out,none⟩,s.calls⟩
  | (.error e, s) => ⟨some ⟨s.out,some e⟩,s.calls⟩
  | (.crashed, s) => ⟨none,s.calls⟩

end Integris.Recovery
