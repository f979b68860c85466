import Integris.Fabric
import Integris.SplitCode

/-! Sealed launch tokens of `internal/supervisor`. A token commits to the MAC key of each of
its child's channels without carrying it. -/
namespace Integris.Supervisor

open Crypto Authority SplitCode
open ProcessRole (nobody)

inductive DescriptorKind where
  | ipcEndpoint
  | archiveRoot
  | stagingRoot
  | quarantineRoot
  | journalSegment
  | readonlyJournal
  | eventSink
  | policyIdentity
  | other (name : Bytes)

def DescriptorKind.name : DescriptorKind → Bytes
  | ipcEndpoint => ascii "ipc_endpoint"
  | archiveRoot => ascii "archive_root"
  | stagingRoot => ascii "staging_root"
  | quarantineRoot => ascii "quarantine_root"
  | journalSegment => ascii "journal_segment"
  | readonlyJournal => ascii "readonly_journal"
  | eventSink => ascii "event_sink"
  | policyIdentity => ascii "policy_identity"
  | other name => name

structure DescriptorSlot where
  kind : DescriptorKind
  peer : ProcessRole := nobody
  label : Bytes

/-- A commitment to a channel's MAC key. -/
structure PeerKeyRef where
  peer : ProcessRole
  keyID : Digest

/-- A child's token without its seal. -/
structure Grant where
  role : ProcessRole
  confer : List Capability
  slots : List DescriptorSlot
  peers : List PeerKeyRef
  sessionNonce : Fixed 16

structure ChildLaunch extends Grant where
  seal_ : Digest

structure LaunchSet where
  children : List ChildLaunch
  sessionNonce : Fixed 16
  planDigest : Digest

variable (role : ProcessRole)

def archiveAuthorityOK : Bool :=
  [Capability.archiveDescriptors, .archiveRoots, .readonlyArchiveRoot, .archives].any fun cap =>
    match allows role cap with
    | .ok granted => granted
    | .error _ => false

def slotAllowed (kind : DescriptorKind) : Except Failure Unit :=
  match kind with
  | .ipcEndpoint | .policyIdentity | .journalSegment | .readonlyJournal | .eventSink => .ok ()
  | .archiveRoot | .stagingRoot | .quarantineRoot => check (archiveAuthorityOK role) "slot"
      (text role.name ++ " must not hold slot " ++ text kind.name)
  | .other name => .error ⟨"slot", "unknown descriptor kind " ++ text name⟩

def validateSlots (confer : List Capability) (slots : List DescriptorSlot) :
    Except Failure Unit := do
  (deniedProbe role confer).mapError fun e => ⟨"authority", e.text⟩
  each slots fun s => slotAllowed role s.kind

def DescriptorSlot.before (a b : DescriptorSlot) : Prop :=
  a.kind.name < b.kind.name ∨ a.kind.name = b.kind.name ∧
    (a.peer.name < b.peer.name ∨ a.peer.name = b.peer.name ∧ a.label ≤ b.label)

instance : DecidableRel DescriptorSlot.before := fun _ _ => inferInstanceAs (Decidable (_ ∨ _))

def roleSlots : ProcessRole → List DescriptorSlot
  | .supervisor => [{ kind := .policyIdentity, label := ascii "policy" }]
  | .apply => [{ kind := .archiveRoot, label := ascii "archive" },
      { kind := .stagingRoot, label := ascii "staging" },
      { kind := .quarantineRoot, label := ascii "quarantine" }]
  | .journal => [{ kind := .journalSegment, label := ascii "journal" }]
  | .audit => [{ kind := .readonlyJournal, label := ascii "journal-ro" },
      { kind := .eventSink, label := ascii "events" }]
  | .index => [{ kind := .archiveRoot, label := ascii "archive-ro" }]
  | _ => []

def defaultSlots (peers : List ProcessRole) : List DescriptorSlot :=
  let ipc := peers.map fun peer =>
    ⟨.ipcEndpoint, peer, ascii "ipc:" ++ role.name ++ ascii ":" ++ peer.name⟩
  (ipc ++ roleSlots role).insertionSort DescriptorSlot.before

/-- Appends to the transcript are not checked; one that is refused leaves no trace. -/
def noted (t : Transcript) (label : String) (data : Bytes) : Transcript :=
  match t.append (ascii label) data with
  | .ok t' => t'
  | .error _ => t

def planDigest (p : Plan) : Digest :=
  let child (t : Transcript) (c : ChildSpec) : Transcript :=
    let t := noted t "role" c.role.name
    let t := c.confer.foldl (fun t cap => noted t "cap" cap.name) t
    c.ipcPeers.foldl (fun t peer => noted t "peer" peer.name) t
  (p.children.foldl child (noted .new "launch-plan-v1" [])).digest

def u16String (s : Bytes) : Bytes :=
  let s := s.take 65535
  leBytes 2 s.length ++ s

def encodeChildCanonical (planDig : Digest) (c : Grant) : Bytes :=
  u16String c.role.name ++ planDig.val ++ c.sessionNonce.val ++
    leBytes 4 c.confer.length ++ c.confer.flatMap (fun cap => u16String cap.name) ++
    leBytes 4 c.slots.length ++ c.slots.flatMap (fun s =>
      u16String s.kind.name ++ u16String s.peer.name ++ u16String s.label) ++
    leBytes 4 c.peers.length ++ c.peers.flatMap (fun p => u16String p.peer.name ++ p.keyID.val)

variable (rootKey : Bytes)

def sealChild (planDig : Digest) (c : Grant) : Digest :=
  ⟨hmacSHA256 rootKey (encodeChildCanonical planDig c), hmacSHA256_length _ _⟩

def peerKey (role peer : ProcessRole) : Except Failure PeerKeyRef := do
  let macKey ← (channelMACKey rootKey role.name peer.name).mapError fun e => ⟨"key", e.text⟩
  .ok ⟨peer, sha256 macKey⟩

def launchChild (planDig : Digest) (nonce : Fixed 16) (c : ChildSpec) :
    Except Failure ChildLaunch := do
  let slots := defaultSlots c.role c.ipcPeers
  validateSlots c.role c.confer slots
  let peers ← c.ipcPeers.mapM (peerKey rootKey c.role)
  let grant : Grant := ⟨c.role, c.confer, slots, sortBy (·.peer.name) peers, nonce⟩
  .ok ⟨grant, sealChild rootKey planDig grant⟩

def materializeLaunch (p : Plan) (rootKey : Bytes) (nonce : Fixed 16) :
    Except Failure LaunchSet := do
  p.validateIPCGraph
  check (16 ≤ rootKey.length) "key" "root key must be at least 16 bytes"
  let planDig := planDigest p
  let out ← p.children.mapM (launchChild rootKey planDig nonce)
  .ok ⟨sortBy (·.role.name) out, nonce, planDig⟩

def ChildLaunch.verify (c : ChildLaunch) (rootKey : Bytes) (planDig : Digest) :
    Except Failure Unit :=
  check (sealChild rootKey planDig c.toGrant = c.seal_) "seal" "child launch seal mismatch"

def LaunchSet.verifyAll (s : LaunchSet) (rootKey : Bytes) : Except Failure Unit :=
  each s.children fun c => c.verify rootKey s.planDigest

theorem defaultSlots_allowed {role : ProcessRole} {peers : List ProcessRole} {s : DescriptorSlot}
    (member : s ∈ defaultSlots role peers) : slotAllowed role s.kind = .ok () := by
  rw [defaultSlots,List.mem_insertionSort,List.mem_append,List.mem_map] at member
  rcases member with ⟨peer,-,rfl⟩ | own
  · rfl
  · cases role with
    | supervisor | apply | journal | audit | index =>
      revert s
      simp only [roleSlots,List.mem_cons,List.not_mem_nil,or_false,forall_eq_or_imp,forall_eq]
      decide
    | _ => cases own

/-- The commitment to the key of a pair. -/
def committed (role peer : ProcessRole) : PeerKeyRef :=
  ⟨peer, sha256 (pairMAC rootKey role peer)⟩

/-- The token of a child: one commitment for each of its peers. -/
def launched (planDig : Digest) (nonce : Fixed 16) (c : ChildSpec) : ChildLaunch :=
  let peers := sortBy (·.peer.name) (c.ipcPeers.map (committed rootKey c.role))
  let grant : Grant := ⟨c.role, c.confer, defaultSlots c.role c.ipcPeers, peers, nonce⟩
  ⟨grant, sealChild rootKey planDig grant⟩

def launchOf (p : Plan) (rootKey : Bytes) (nonce : Fixed 16) : LaunchSet :=
  ⟨sortBy (·.role.name) (p.children.map (launched rootKey (planDigest p) nonce)), nonce, planDigest p⟩

theorem launchChild_ok {rootKey : Bytes} (long : 16 ≤ rootKey.length) (planDig : Digest)
    (nonce : Fixed 16) {c : ChildSpec} (sound : c.Sound) (peers : ∀ peer ∈ c.ipcPeers, peer.listed) :
    launchChild rootKey planDig nonce c = .ok (launched rootKey planDig nonce c) := by
  have slots : validateSlots c.role c.confer (defaultSlots c.role c.ipcPeers) = .ok () := by
    simp only [validateSlots,sound.granted,Except.mapError,except_ok_bind,each_ok]
    exact fun s => defaultSlots_allowed
  have key (peer) (member : peer ∈ c.ipcPeers) : peerKey rootKey c.role peer = .ok (committed rootKey c.role peer) := by
    have pair := channelMACKey_pair long sound.listed (peers peer member) (sound.others peer member)
    simp only [peerKey,pair,Except.mapError,except_ok_bind,committed]
  simp only [launchChild,slots,except_ok_bind,mapM_total key]
  rfl

theorem materializeLaunch_ok {p : Plan} (built : p.Built) {rootKey : Bytes} {nonce : Fixed 16} {set : LaunchSet} :
    materializeLaunch p rootKey nonce = .ok set ↔ (p.validateIPCGraph = .ok () ∧ 16 ≤ rootKey.length) ∧
      set = launchOf p rootKey nonce := by
  have out (valid : p.validateIPCGraph = .ok ()) (long : 16 ≤ rootKey.length) :=
    mapM_total fun c member => launchChild_ok long (planDigest p) nonce (built.sound c member) fun peer inside =>
      (built.edge (Plan.edge_symm valid ⟨c,member,rfl,inside⟩)).1
  simp only [materializeLaunch,except_unit_bind_ok,check,demand_ok,and_assoc]
  refine and_congr_right fun valid => and_congr_right fun long => ?_
  rw [out valid long,except_ok_bind,Except.ok.injEq]
  exact eq_comm

/-- Every child of a sound plan gets a token that verifies, and its commitments are those of
the pairs. -/
theorem materializeLaunch_tokens {p : Plan} (built : p.Built) (valid : p.validateIPCGraph = .ok ())
    {rootKey : Bytes} (long : 16 ≤ rootKey.length) (nonce : Fixed 16) : ∃ set,
      materializeLaunch p rootKey nonce = .ok set ∧ set.verifyAll rootKey = .ok () ∧
      (∀ a b, p.Edge a b → ∃ t ∈ set.children, t.role = a ∧ ∃ ref ∈ t.peers, ref.peer = b) ∧
      ∀ t ∈ set.children, ∀ ref ∈ t.peers, ref.keyID = sha256 (pairMAC rootKey t.role ref.peer) := by
  refine ⟨_,(materializeLaunch_ok built).mpr ⟨⟨valid,long⟩,rfl⟩,?_,fun a b edge => ?_,fun t member ref inside => ?_⟩
  · rw [LaunchSet.verifyAll,each_ok]
    intro t member
    obtain ⟨c,-,rfl⟩ := List.mem_map.mp (mem_sortBy.mp member)
    exact demand_ok.mpr rfl
  · obtain ⟨c,member,rfl,peer⟩ := edge
    refine ⟨_,mem_sortBy.mpr (List.mem_map_of_mem member),rfl,committed rootKey c.role b,?_,rfl⟩
    exact mem_sortBy.mpr (List.mem_map_of_mem peer)
  · obtain ⟨c,-,rfl⟩ := List.mem_map.mp (mem_sortBy.mp member)
    obtain ⟨peer,-,rfl⟩ := List.mem_map.mp (mem_sortBy.mp inside)
    rfl

/-! What a verified set tells. -/

/-- A token as the source has it, where roles, capabilities and kinds are strings. -/
def Grant.shown (c : Grant) :=
  (c.role.name, c.sessionNonce, c.confer.map Capability.name,
    c.slots.map fun s => (s.kind.name, s.peer.name, s.label), c.peers.map fun r => (r.peer.name, r.keyID))

/-- The lengths fit the fields in front of them. -/
def Grant.Fits (c : Grant) : Prop := c.role.name.length < 65536 ∧
  (c.confer.length < 256 ^ 4 ∧ ∀ cap ∈ c.confer, cap.name.length < 65536) ∧
  (c.slots.length < 256 ^ 4 ∧ ∀ s ∈ c.slots,
    s.kind.name.length < 65536 ∧ s.peer.name.length < 65536 ∧ s.label.length < 65536) ∧
  c.peers.length < 256 ^ 4 ∧ ∀ r ∈ c.peers, r.peer.name.length < 65536

instance (c : Grant) : Decidable c.Fits := inferInstanceAs (Decidable (_ ∧ _))

section verified

variable {p : Plan} {rootKey : Bytes} {nonce : Fixed 16} {s set : LaunchSet} {t u : ChildLaunch}

end verified

end Integris.Supervisor
