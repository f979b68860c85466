import Integris.InsertionSort
import Integris.PathGrammar
import Integris.Sha256

/-! The deterministic planner of `internal/plan`: classified rows become a sorted
list of plan entries or a list of what forbids the plan, and the entries become
the bytes of the plan document. -/
namespace Integris.Planner

open PathGrammar

inductive Kind where
  | refuse | limit | nonCanonical | unsupported
  deriving DecidableEq, Repr

structure Error where
  kind : Kind
  field : String
  message : Bytes
  deriving DecidableEq

def refuse (field message : String) : Error := ⟨.refuse,field,ascii message⟩

def limit (field message : String) : Error := ⟨.limit,field,ascii message⟩

def nonCanonical (field : String) (message : Bytes) : Error := ⟨.nonCanonical,field,message⟩

def unsupported (field message : String) : Error := ⟨.unsupported,field,ascii message⟩

def planVersion : Nat := 1
def maxDefaultEntries : UInt32 := .ofNat (1 <<< 20)
def maxDefaultPlanBytes : UInt32 := .ofNat (16 <<< 20)
def maxDefaultCapabilityComparisons : UInt32 := .ofNat (1 <<< 24)

def planMagic : Bytes := ascii "INTPLAN1"

/-! The codes are what callers pass, known or not; the checks below sort them out. -/

abbrev ActionCode := UInt16

def actionCreate : ActionCode := 1
def actionReplace : ActionCode := 2
def actionQuarantineDelete : ActionCode := 4
def actionSkipIdentical : ActionCode := 5

def validAction (a : ActionCode) : Bool := a ≥ actionCreate ∧ a ≤ actionSkipIdentical

def isDestructive (a : ActionCode) : Bool := a = actionQuarantineDelete

abbrev ResultCode := UInt16

def resultLossless : ResultCode := 1
def resultWrapped : ResultCode := 2
def resultUnrepresentable : ResultCode := 3
def resultPolicyForbidden : ResultCode := 4
def resultUnknown : ResultCode := 5

def validResult (r : ResultCode) : Bool := r ≥ resultLossless ∧ r ≤ resultUnknown

def blocksAuthorization (r : ResultCode) : Bool :=
  r = resultUnrepresentable ∨ r = resultPolicyForbidden ∨ r = resultUnknown

abbrev CapabilityID := UInt16

def capIdentity : CapabilityID := 1
def capDurability : CapabilityID := 20

def knownCapability (id : CapabilityID) : Bool := id ≥ capIdentity ∧ id ≤ capDurability

structure Classification where
  path : List Bytes
  capabilityID : CapabilityID
  action : ActionCode
  result : ResultCode
  representationIDs : List UInt16
  auxDigest : Digest
  deriving DecidableEq

structure Policy where
  wrapAllowList : List UInt16
  representationAllowList : List UInt16

structure Limits where
  maxEntries : UInt32
  maxPlanBytes : UInt32
  maxCapabilityComparisons : UInt32

/-- Zeros stand for the defaults. -/
def Limits.resolve (l : Limits) : Limits where
  maxEntries := if l.maxEntries = 0 then maxDefaultEntries else l.maxEntries
  maxPlanBytes := if l.maxPlanBytes = 0 then maxDefaultPlanBytes else l.maxPlanBytes
  maxCapabilityComparisons :=
    if l.maxCapabilityComparisons = 0 then maxDefaultCapabilityComparisons else l.maxCapabilityComparisons

structure CanonicalInput where
  manifestDigest : Digest
  capabilityVectorDigest : Digest
  configurationDigest : Digest
  classifications : List Classification
  policy : Policy
  limits : Limits

structure BlockingItem where
  path : List Bytes
  capabilityID : CapabilityID
  result : ResultCode
  deriving DecidableEq

structure Preflight where
  blocking : List BlockingItem
  deriving DecidableEq

structure Plan where
  bytes : Bytes
  digest : Digest
  deriving DecidableEq

structure Entry where
  path : List Bytes
  capabilityID : CapabilityID
  action : ActionCode
  result : ResultCode
  representationID : UInt16
  auxDigest : Digest
  deriving DecidableEq

/-! ## Order -/

/-- Component by component in byte order, then by the number of components. -/
def comparePathComponents (a b : List Bytes) : Ordering := List.compareLex (List.compareLex compare) a b

/-- What rows and entries are ordered by. -/
structure Key where
  path : List Bytes
  capabilityID : CapabilityID
  action : ActionCode
  deriving DecidableEq

def compareKeys (a b : Key) : Ordering :=
  (comparePathComponents a.path b.path).then
    ((compare a.capabilityID b.capabilityID).then (compare a.action b.action))

def Entry.key (e : Entry) : Key := ⟨e.path,e.capabilityID,e.action⟩

def Classification.key (c : Classification) : Key := ⟨c.path,c.capabilityID,c.action⟩

def compareEntries (a b : Entry) : Ordering := compareKeys a.key b.key

def compareClassifications (a b : Classification) : Ordering := compareKeys a.key b.key

def sortClassifications (xs : List Classification) : List Classification :=
  insertionSort compareClassifications xs

def sortEntries (xs : List Entry) : List Entry := insertionSort compareEntries xs

def sortUint16 (xs : List UInt16) : List UInt16 := insertionSort compare xs

/-! ## Encoding -/

def encodeComponent (c : Bytes) : Bytes := leBytes 2 c.length ++ c

def encodeEntry (e : Entry) : Except Error Bytes := do
  demand (e.path.length ≤ 65535) (limit "path_component_count" "exceeds u16")
  demand (∀ c ∈ e.path, c.length ≤ 65535) (limit "component" "exceeds u16 length")
  .ok (leBytes 2 e.path.length ++ e.path.flatMap encodeComponent ++ leBytes 2 e.capabilityID.toNat ++
    leBytes 2 e.action.toNat ++ leBytes 2 e.result.toNat ++ leBytes 2 e.representationID.toNat ++
    e.auxDigest.val)

def encodeEntries : List Entry → Except Error Bytes
  | [] => .ok []
  | e :: rest => do
    let enc ← encodeEntry e
    let more ← encodeEntries rest
    .ok (enc ++ more)

def measurePlanBody (entries : List Entry) : Except Error Nat :=
  (encodeEntries entries).map List.length

/-- The document and its digest; the sizes are measured before anything is written. -/
def encodePlan (manifestDigest capDigest cfgDigest : Digest) (entries : List Entry)
    (destructiveDigest : Digest) : Except Error (Bytes × Digest) := do
  demand (entries.length ≤ 2 ^ 32 - 1) (limit "entry_count" "exceeds u32")
  let _ ← measurePlanBody entries
  let enc ← encodeEntries entries
  let buf := planMagic ++ leBytes 2 planVersion ++ manifestDigest.val ++ capDigest.val ++ cfgDigest.val ++
    leBytes 4 entries.length ++ enc ++ destructiveDigest.val
  .ok (buf ++ (sha256 buf).val,sha256 buf)

/-- An entry that does not encode contributes nothing. -/
def encodeDestructiveSubset (entries : List Entry) : Bytes :=
  entries.flatMap fun e => if isDestructive e.action then (encodeEntry e).toOption.getD [] else []

/-! ## Building -/

def validateClassification (nfc : NFCTables) (c : Classification) : Except Error Unit := do
  (validateComponents nfc {} c.path).mapError fun e => nonCanonical "path" e.text
  demand (validAction c.action) (unsupported "action_code" "unknown or zero action")
  demand (validResult c.result) (unsupported "result_code" "unknown or zero result")
  demand (c.capabilityID ≠ 0) (unsupported "capability_id" "zero capability id")
  -- an unknown capability is left to the preflight
  if knownCapability c.capabilityID then
    demand (c.representationIDs.length ≤ maxDefaultCapabilityComparisons.toNat)
      (limit "representation_ids" "exceeds MaxCapabilityComparisons")

def allowContains (list : List UInt16) (id : UInt16) : Bool := list.any (· == id)

/-- One turn of the loop over the sorted candidates: the best one so far and whether there is any. -/
def pickStep (allow : List UInt16) (emptyAllowAll : Bool) (best : UInt16 × Bool) (id : UInt16) : UInt16 × Bool :=
  if id = 0 then best
  else
    let eligible := if allow.length > 0 then allowContains allow id else emptyAllowAll
    if !eligible then best
    else if !best.2 || id < best.1 then (id,true)
    else best

def pickRepresentation (candidates allow : List UInt16) (emptyAllowAll : Bool) : UInt16 × Bool :=
  let sorted := sortUint16 candidates
  let best := sorted.foldl (pickStep allow emptyAllowAll) (0,false)
  if !best.2 && sorted.length = 0 && emptyAllowAll then (0,true) else best

def Classification.entry (c : Classification) : Entry :=
  ⟨c.path,c.capabilityID,c.action,c.result,0,c.auxDigest⟩

/-- The entry of a row and whether it blocks the plan. -/
def resolveClassification (c : Classification) (wrapAllow repAllow : List UInt16) :
    Except Error (Entry × Bool) :=
  let e := c.entry
  if !knownCapability c.capabilityID then .ok ({ e with result := resultUnknown },true)
  else if blocksAuthorization c.result then .ok (e,true)
  else if c.result = resultLossless then
    match pickRepresentation c.representationIDs repAllow true with
    | (id, ok) =>
      if !ok && c.representationIDs.length > 0 then .ok ({ e with result := resultPolicyForbidden },true)
      else .ok ({ e with representationID := id },false)
  else if c.result = resultWrapped then
    match pickRepresentation c.representationIDs wrapAllow false with
    | (id, ok) =>
      if !ok then .ok ({ e with result := resultPolicyForbidden },true)
      else .ok ({ e with representationID := id },false)
  else .error (unsupported "result_code" "unhandled result")

/-- The loop over the sorted rows, `last` being the row before. -/
def resolveRows (nfc : NFCTables) (wrapAllow repAllow : List UInt16) :
    Option Classification → List Classification → Except Error (List Entry × List BlockingItem)
  | _, [] => .ok ([],[])
  | last, c :: rest => do
    validateClassification nfc c
    demand (∀ p ∈ last, compareClassifications p c ≠ .eq)
      (nonCanonical "classifications" (ascii "duplicate path/capability/action"))
    let (resolved, block) ← resolveClassification c wrapAllow repAllow
    let (entries, blocking) ← resolveRows nfc wrapAllow repAllow (some c) rest
    if block then .ok (entries,⟨c.path,c.capabilityID,resolved.result⟩ :: blocking)
    else .ok (resolved :: entries,blocking)

/-- What `Build` returns. -/
structure Outcome where
  plan : Plan
  preflight : Preflight
  err : Option Error
  deriving DecidableEq

def zeroPlan : Plan := ⟨[],Fixed.zero 32⟩

def build (nfc : NFCTables) (inp : CanonicalInput) : Outcome :=
  let limits := inp.limits.resolve
  if inp.classifications.length > limits.maxCapabilityComparisons.toNat then
    ⟨zeroPlan,⟨[]⟩,some (limit "classifications" "exceeds MaxCapabilityComparisons")⟩
  else if inp.classifications.length > limits.maxEntries.toNat then
    ⟨zeroPlan,⟨[]⟩,some (limit "entries" "exceeds MaxEntries")⟩
  else
    let sorted := sortClassifications inp.classifications
    let wrapAllow := sortUint16 inp.policy.wrapAllowList
    let repAllow := sortUint16 inp.policy.representationAllowList
    match resolveRows nfc wrapAllow repAllow none sorted with
    | .error e => ⟨zeroPlan,⟨[]⟩,some e⟩
    | .ok (entries, blocking) =>
      if blocking.length > 0 then
        ⟨zeroPlan,⟨blocking⟩,some (refuse "preflight" "blocking classifications refuse authorization")⟩
      else
        let entries := sortEntries entries
        let destrDigest := sha256 (encodeDestructiveSubset entries)
        match encodePlan inp.manifestDigest inp.capabilityVectorDigest inp.configurationDigest entries
            destrDigest with
        | .error e => ⟨zeroPlan,⟨blocking⟩,some e⟩
        | .ok (bytes, digest) =>
          if bytes.length > limits.maxPlanBytes.toNat then
            ⟨zeroPlan,⟨blocking⟩,some (limit "plan_bytes" "exceeds MaxPlanBytes")⟩
          else ⟨⟨bytes,digest⟩,⟨blocking⟩,none⟩

/-- The entries `Build` hands to the encoder. -/
def planEntries (nfc : NFCTables) (inp : CanonicalInput) : List Entry :=
  match resolveRows nfc (sortUint16 inp.policy.wrapAllowList) (sortUint16 inp.policy.representationAllowList)
      none (sortClassifications inp.classifications) with
  | .error _ => []
  | .ok (entries, _) => sortEntries entries

end Integris.Planner
