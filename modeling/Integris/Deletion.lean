import Integris.Crypto

/-! The gate in front of destructive operations. -/
namespace Integris.Deletion

structure Thresholds where
  maxObjectCount : UInt64
  maxPercentBPS : UInt64
  maxLogicalBytes : UInt64
  maxPhysicalBytes : UInt64
  maxPathClassCount : UInt64
  requireCompleteSrc : Bool

structure Observation where
  objectCount : UInt64
  archiveObjectCount : UInt64
  logicalBytes : UInt64
  physicalBytes : UInt64
  pathClassCount : UInt64
  unknownObjectCount : Bool := false
  unknownLogical : Bool := false
  unknownPhysical : Bool := false
  unknownPathClass : Bool := false
  sourceComplete : Bool
  sameVolume : Bool
  quarantineCapacity : UInt64
  rootSentinelOK : Bool
  volumeAuthorized : Bool

structure Authorization where
  planDigest : Digest
  configDigest : Digest
  capabilityDigest : Digest
  destructiveAuth : Digest
  allowPermanentPurge : Bool := false

structure Decision where
  allowed : Bool := false
  permanentDisabled : Bool := true
  reason : String := ""
  percentBPS : UInt64 := 0

def checkMax (name : String) (have_ max : UInt64) : Except Failure Unit := do
  demand (max ≠ 0) ⟨name, name ++ " maximum not configured"⟩
  demand (have_ ≤ max) ⟨name, name ++ " " ++ toString have_ ++ " exceeds max " ++ toString max⟩

def percentBPS (count total : UInt64) : Except Failure UInt64 :=
  if count = 0 then .ok 0
  else do
    demand (total ≠ 0) ⟨"percent", "archive object count unknown or zero"⟩
    demand (count ≤ total) ⟨"percent", "destructive count exceeds archive count"⟩
    demand (count ≤ 0xffffffffffffffff / 10000) ⟨"percent", "percent arithmetic overflow"⟩
    .ok (count * 10000 / total)

/-- The error comes with the decision so far. -/
def evaluate (th : Thresholds) (obs : Observation) (auth : Authorization) : Except (Decision × Failure) Decision := do
  let d : Decision := {}
  demand (auth.destructiveAuth ≠ Fixed.zero 32) (d, ⟨"auth", "destructive authorization digest required"⟩)
  demand (auth.planDigest ≠ Fixed.zero 32 ∧ auth.configDigest ≠ Fixed.zero 32 ∧ auth.capabilityDigest ≠ Fixed.zero 32)
    (d, ⟨"auth", "plan/config/capability digests required"⟩)
  demand obs.rootSentinelOK (d, ⟨"sentinel", "archive root sentinel invalid"⟩)
  demand obs.volumeAuthorized (d, ⟨"volume", "root volume identity not authorized"⟩)
  demand obs.sameVolume (d, ⟨"volume", "quarantine must be same-volume"⟩)
  demand (th.requireCompleteSrc → obs.sourceComplete) (d, ⟨"source", "incomplete source blocks destructive ops"⟩)
  demand (¬(obs.unknownObjectCount ∨ obs.unknownLogical ∨ obs.unknownPhysical ∨ obs.unknownPathClass))
    (d, ⟨"unknown", "unknown size/count is over threshold"⟩)
  (checkMax "object_count" obs.objectCount th.maxObjectCount).mapError (d, ·)
  (checkMax "logical_bytes" obs.logicalBytes th.maxLogicalBytes).mapError (d, ·)
  (checkMax "physical_bytes" obs.physicalBytes th.maxPhysicalBytes).mapError (d, ·)
  (checkMax "path_class" obs.pathClassCount th.maxPathClassCount).mapError (d, ·)
  let pct ← (percentBPS obs.objectCount obs.archiveObjectCount).mapError (d, ·)
  let d := { d with percentBPS := pct }
  demand (th.maxPercentBPS = 0 → obs.objectCount = 0) (d, ⟨"percent", "MaxPercentBPS not configured"⟩)
  demand (pct ≤ th.maxPercentBPS)
    (d, ⟨"percent", "destructive percent " ++ toString pct ++ " bps exceeds " ++ toString th.maxPercentBPS⟩)
  demand ((if obs.physicalBytes = 0 then obs.logicalBytes else obs.physicalBytes) ≤ obs.quarantineCapacity)
    (d, ⟨"capacity", "insufficient quarantine capacity"⟩)
  let d := if auth.allowPermanentPurge then
    { d with reason := "quarantine-only; permanent purge requires separate transaction" } else d
  .ok { d with allowed := true, reason := "quarantine permitted" }

/-- Every quantity has a limit and is within it, nothing is unknown, and the quarantine has room. -/
structure Bounded (th : Thresholds) (obs : Observation) (auth : Authorization) : Prop where
  objects : th.maxObjectCount ≠ 0 ∧ obs.objectCount ≤ th.maxObjectCount
  logical : th.maxLogicalBytes ≠ 0 ∧ obs.logicalBytes ≤ th.maxLogicalBytes
  physical : th.maxPhysicalBytes ≠ 0 ∧ obs.physicalBytes ≤ th.maxPhysicalBytes
  classes : th.maxPathClassCount ≠ 0 ∧ obs.pathClassCount ≤ th.maxPathClassCount
  known : ¬(obs.unknownObjectCount ∨ obs.unknownLogical ∨ obs.unknownPhysical ∨ obs.unknownPathClass)
  capacity : (if obs.physicalBytes = 0 then obs.logicalBytes else obs.physicalBytes) ≤ obs.quarantineCapacity
  authorized : auth.destructiveAuth ≠ Fixed.zero 32 ∧ auth.planDigest ≠ Fixed.zero 32 ∧
    auth.configDigest ≠ Fixed.zero 32 ∧ auth.capabilityDigest ≠ Fixed.zero 32

variable {th : Thresholds} {obs : Observation} {auth : Authorization}

theorem checkMax_ok {name : String} {have_ max : UInt64} : checkMax name have_ max = .ok () ↔ max ≠ 0 ∧ have_ ≤ max := by
  rw [checkMax,demand_bind_ok,demand_ok]

/-- The share is rounded down. -/
theorem percentBPS_ok {count total pct : UInt64} (ok : percentBPS count total = .ok pct) :
    count = 0 ∨ total ≠ 0 ∧ pct.toNat = count.toNat * 10000 / total.toNat := by
  unfold percentBPS at ok
  split at ok
  · exact .inl ‹_›
  · obtain ⟨some_,run⟩ := demand_bind_ok.mp ok
    obtain ⟨-,run⟩ := demand_bind_ok.mp run
    obtain ⟨small,run⟩ := demand_bind_ok.mp run
    cases run
    have fits : count.toNat ≤ 0xffffffffffffffff / 10000 := small
    refine .inr ⟨some_,?_⟩
    rw [UInt64.toNat_div,UInt64.toNat_mul]
    have : count.toNat * (10000 : UInt64).toNat = count.toNat * 10000 := rfl
    rw [this,Nat.mod_eq_of_lt (by omega)]

theorem evaluate_ok {d : Decision} (ok : evaluate th obs auth = .ok d) : Bounded th obs auth ∧
    ∃ pct, percentBPS obs.objectCount obs.archiveObjectCount = .ok pct ∧ pct ≤ th.maxPercentBPS := by
  simp only [evaluate,except_unit_bind_ok,demand_ok,except_mapError_ok,checkMax_ok] at ok
  obtain ⟨destructive,digests,-,-,-,-,known,objects,logical,physical,classes,run⟩ := ok
  obtain ⟨pct,percent,run⟩ := except_bind_ok.mp run
  simp only [except_unit_bind_ok,demand_ok] at run
  obtain ⟨-,within_,capacity,-⟩ := run
  exact ⟨⟨objects,logical,physical,classes,known,capacity,destructive,digests⟩,pct,except_mapError_ok.mp percent,within_⟩

/-- What the gate allows is bounded, and within the percentage limit exactly where the share does not lie between
the limit and the next basis point. -/
theorem gate_conservative_iff (th : Thresholds) (obs : Observation) (auth : Authorization) (d : Decision)
    (allows : evaluate th obs auth = .ok d) :
    Bounded th obs auth ∧ (obs.objectCount.toNat * 10000 ≤ th.maxPercentBPS.toNat * obs.archiveObjectCount.toNat ↔
      ¬(th.maxPercentBPS.toNat * obs.archiveObjectCount.toNat < obs.objectCount.toNat * 10000 ∧
        obs.objectCount.toNat * 10000 < (th.maxPercentBPS.toNat + 1) * obs.archiveObjectCount.toNat)) := by
  obtain ⟨bounded,pct,percent,below⟩ := evaluate_ok allows
  have rounded : obs.objectCount = 0 ∨
      obs.objectCount.toNat * 10000 < (th.maxPercentBPS.toNat + 1) * obs.archiveObjectCount.toNat := by
    refine (percentBPS_ok percent).imp id fun ⟨some_,share⟩ => ?_
    have below : pct.toNat ≤ th.maxPercentBPS.toNat := below
    rw [← Nat.div_lt_iff_lt_mul (Nat.pos_of_ne_zero fun zero => some_ (UInt64.toNat_inj.mp zero)),← share]
    omega
  rcases rounded with none_ | rounded
  · exact ⟨bounded,by simp [none_]⟩
  · rw [and_iff_left rounded,Nat.not_lt]
    exact ⟨bounded,Iff.rfl⟩

def sampleThresholds : Thresholds := ⟨10, 1, 10, 10, 10, true⟩

def sampleDeletion (count : UInt64) : Observation where
  objectCount := count
  archiveObjectCount := 20000
  logicalBytes := 1
  physicalBytes := 1
  pathClassCount := 1
  sourceComplete := true
  sameVolume := true
  quarantineCapacity := 1
  rootSentinelOK := true
  volumeAuthorized := true

def sampleAuthorization : Authorization := ⟨.ofBytes 32 [1], .ofBytes 32 [1], .ofBytes 32 [1], .ofBytes 32 [1], false⟩

theorem gate_conservative_pair : Bounded sampleThresholds (sampleDeletion 2) sampleAuthorization ∧ 2 * 10000 ≤ 1 * 20000 :=
  (gate_conservative_iff sampleThresholds (sampleDeletion 2) sampleAuthorization _ rfl).imp id fun exact_ => exact_.mpr (by decide)

/-- One and a half basis points pass a limit of one. -/
theorem share_rounded_down : ∃ d, evaluate sampleThresholds (sampleDeletion 3) sampleAuthorization = .ok d ∧
    d.allowed = true ∧ ¬3 * 10000 ≤ 1 * 20000 :=
  ⟨_,rfl,rfl,by decide⟩

end Integris.Deletion
