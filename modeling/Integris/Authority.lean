import Integris.Crypto

/-! The process roles of `internal/authority` and what each may and must not hold. -/
namespace Integris

def roleNames : List Bytes :=
  ["integrisd-supervisor", "integrisd-net", "integrisd-auth", "integrisd-parser",
    "integrisd-index", "integrisd-plan", "integrisd-apply", "integrisd-journal",
    "integrisd-audit"].map ascii

/-- A role is a name; the nine of the inventory are told apart from any other. -/
inductive ProcessRole where
  | supervisor
  | net
  | auth
  | parser
  | index
  | plan
  | apply
  | journal
  | audit
  | other (name : Bytes) (unlisted : name ∉ roleNames)
  deriving DecidableEq

namespace ProcessRole

def name : ProcessRole → Bytes
  | supervisor => ascii "integrisd-supervisor"
  | net => ascii "integrisd-net"
  | auth => ascii "integrisd-auth"
  | parser => ascii "integrisd-parser"
  | index => ascii "integrisd-index"
  | plan => ascii "integrisd-plan"
  | apply => ascii "integrisd-apply"
  | journal => ascii "integrisd-journal"
  | audit => ascii "integrisd-audit"
  | other name _ => name

/-- The empty role. -/
def nobody : ProcessRole := other [] (by decide)

def listed : ProcessRole → Bool
  | other .. => false
  | _ => true

theorem name_mem_iff {r : ProcessRole} : r.name ∈ roleNames ↔ r.listed := by
  cases r with
  | other name unlisted => exact ⟨fun h => absurd h unlisted,nofun⟩
  | _ => decide

theorem name_injective {a b : ProcessRole} (same : a.name = b.name) : a = b := by
  have both : a.listed = b.listed := by rw [Bool.eq_iff_iff,← name_mem_iff,← name_mem_iff,same]
  cases a with
  | other left _ =>
    cases b with
    | other right _ => cases same; rfl
    | _ => cases both
  | _ =>
    cases b with
    | other right _ => cases both
    | _ => revert same; decide

end ProcessRole

def capabilityNames : List Bytes :=
  ["child_lifecycle", "preopened_ipc", "policy_identity", "network_sockets", "encrypted_frames",
    "identity_handle", "session_key_derive", "authorization_policy", "bounded_message_ipc",
    "readonly_archive_root", "bounded_index_output", "canonical_manifests", "plan_output",
    "archive_staging_quarantine_roots", "journal_descriptor", "authenticated_record_input",
    "readonly_journal", "redacted_event_sink", "remote_content_parser", "archive_traversal",
    "long_term_keys", "archive_descriptors", "permanent_keys", "journal_writes",
    "network_accept_loop", "archive_contents", "publication_rights", "network", "publication",
    "deletion", "filesystem_writes", "keys", "identity_keys", "arbitrary_path_lookup",
    "policy_decisions", "archive_mutation", "operation_decisions", "archives",
    "secrets"].map ascii

/-- A conferred authority atom: a name, like a role. -/
inductive Capability where
  | childLifecycle
  | preopenedIPC
  | policyIdentity
  | networkSockets
  | encryptedFrames
  | identityHandle
  | sessionKeyDerive
  | authorizationPolicy
  | boundedMessageIPC
  | readonlyArchiveRoot
  | boundedIndexOutput
  | canonicalManifests
  | planOutput
  | archiveRoots
  | journalDescriptor
  | authenticatedRecords
  | readonlyJournal
  | redactedEventSink
  | remoteContentParser
  | archiveTraversal
  | longTermKeys
  | archiveDescriptors
  | permanentKeys
  | journalWrites
  | networkAcceptLoop
  | archiveContents
  | publicationRights
  | network
  | publication
  | deletion
  | filesystemWrites
  | keys
  | identityKeys
  | arbitraryPathLookup
  | policyDecisions
  | archiveMutation
  | operationDecisions
  | archives
  | secrets
  | other (name : Bytes) (unlisted : name ∉ capabilityNames)
  deriving DecidableEq

def Capability.name : Capability → Bytes
  | childLifecycle => ascii "child_lifecycle"
  | preopenedIPC => ascii "preopened_ipc"
  | policyIdentity => ascii "policy_identity"
  | networkSockets => ascii "network_sockets"
  | encryptedFrames => ascii "encrypted_frames"
  | identityHandle => ascii "identity_handle"
  | sessionKeyDerive => ascii "session_key_derive"
  | authorizationPolicy => ascii "authorization_policy"
  | boundedMessageIPC => ascii "bounded_message_ipc"
  | readonlyArchiveRoot => ascii "readonly_archive_root"
  | boundedIndexOutput => ascii "bounded_index_output"
  | canonicalManifests => ascii "canonical_manifests"
  | planOutput => ascii "plan_output"
  | archiveRoots => ascii "archive_staging_quarantine_roots"
  | journalDescriptor => ascii "journal_descriptor"
  | authenticatedRecords => ascii "authenticated_record_input"
  | readonlyJournal => ascii "readonly_journal"
  | redactedEventSink => ascii "redacted_event_sink"
  | remoteContentParser => ascii "remote_content_parser"
  | archiveTraversal => ascii "archive_traversal"
  | longTermKeys => ascii "long_term_keys"
  | archiveDescriptors => ascii "archive_descriptors"
  | permanentKeys => ascii "permanent_keys"
  | journalWrites => ascii "journal_writes"
  | networkAcceptLoop => ascii "network_accept_loop"
  | archiveContents => ascii "archive_contents"
  | publicationRights => ascii "publication_rights"
  | network => ascii "network"
  | publication => ascii "publication"
  | deletion => ascii "deletion"
  | filesystemWrites => ascii "filesystem_writes"
  | keys => ascii "keys"
  | identityKeys => ascii "identity_keys"
  | arbitraryPathLookup => ascii "arbitrary_path_lookup"
  | policyDecisions => ascii "policy_decisions"
  | archiveMutation => ascii "archive_mutation"
  | operationDecisions => ascii "operation_decisions"
  | archives => ascii "archives"
  | secrets => ascii "secrets"
  | other name _ => name

namespace Authority

structure Entry where
  role : ProcessRole
  mayHold : List Capability
  mustNot : List Capability

def inventory : List Entry := [
  ⟨.supervisor, [.childLifecycle, .preopenedIPC, .policyIdentity],
    [.remoteContentParser, .archiveTraversal, .longTermKeys]⟩,
  ⟨.net, [.networkSockets, .encryptedFrames],
    [.archiveDescriptors, .permanentKeys, .journalWrites]⟩,
  ⟨.auth, [.identityHandle, .sessionKeyDerive, .authorizationPolicy],
    [.networkAcceptLoop, .archiveContents, .publicationRights]⟩,
  ⟨.parser, [.boundedMessageIPC],
    [.permanentKeys, .archives, .networkSockets]⟩,
  ⟨.index, [.readonlyArchiveRoot, .boundedIndexOutput],
    [.network, .publication, .deletion]⟩,
  ⟨.plan, [.canonicalManifests, .planOutput],
    [.filesystemWrites, .network, .keys]⟩,
  ⟨.apply, [.archiveRoots],
    [.network, .identityKeys, .arbitraryPathLookup]⟩,
  ⟨.journal, [.journalDescriptor, .authenticatedRecords],
    [.policyDecisions, .network, .archiveMutation]⟩,
  ⟨.audit, [.readonlyJournal, .redactedEventSink],
    [.operationDecisions, .archives, .secrets]⟩]

def allows (role : ProcessRole) (cap : Capability) : Except Failure Bool :=
  match inventory.find? (·.role = role) with
  | some e => .ok (decide (cap ∉ e.mustNot ∧ cap ∈ e.mayHold))
  | none => .error ⟨"role", "unknown role " ++ text role.name⟩

/-- The refusal says whether the capability is forbidden or only not granted. -/
def deniedProbe (role : ProcessRole) (conferred : List Capability) : Except Failure Unit :=
  each conferred fun c => do
    let ok ← allows role c
    if ok then .ok ()
    else if inventory.any fun e => e.role = role ∧ c ∈ e.mustNot then
      .error ⟨"denied", text role.name ++ " must not hold " ++ text c.name⟩
    else .error ⟨"denied", text role.name ++ " not authorized for " ++ text c.name⟩

variable {role : ProcessRole} {cap : Capability} {granted : Bool} {conferred : List Capability}

theorem allows_entry (known : allows role cap = .ok granted) :
    ∃ e ∈ inventory, e.role = role ∧ (granted = true → cap ∈ e.mayHold) := by
  simp only [allows] at known
  split at known
  · rename_i e found
    cases known
    have same : e.role = role := by simpa using List.find?_some found
    exact ⟨e,List.mem_of_find?_eq_some found,same,fun may => (of_decide_eq_true may).2⟩
  · cases known

theorem allows_listed (known : allows role cap = .ok granted) : role.listed := by
  obtain ⟨e,member,same,-⟩ := allows_entry known
  have every : ∀ e ∈ inventory, e.role.listed := by decide
  exact same ▸ every e member

theorem granted_entry (granted : deniedProbe role conferred = .ok ()) (held : cap ∈ conferred) :
    ∃ e ∈ inventory, e.role = role ∧ cap ∈ e.mayHold := by
  obtain ⟨ok,known,passed⟩ := except_bind_ok.mp (each_ok.mp granted cap held)
  obtain ⟨e,member,same,may⟩ := allows_entry known
  refine ⟨e,member,same,may ?_⟩
  by_contra refused
  rw [if_neg refused] at passed
  split at passed <;> cases passed

end Authority

end Integris
