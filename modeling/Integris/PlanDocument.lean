import Integris.PlannerRows
import Integris.SplitCode

/-! The plan document: which entries it can hold, how long it is, and that its
bytes say what was planned. -/
namespace Integris.Planner

open PathGrammar SplitCode

/-! ## Reading fixed-width fields -/

variable {P : α → Prop} {raw : Bytes}

theorem reads_uint16 (n : α → UInt16) : Reads P (fun a => leBytes 2 (n a).toNat) n :=
  (reads_leBytes fun a _ => (n a).toNat_lt).map fun _ _ _ _ same => UInt16.toNat_inj.mp same

/-! ## Entries -/

/-- The lengths fit the 16-bit fields in front of them. -/
def Entry.Fits (e : Entry) : Prop := e.path.length ≤ 65535 ∧ ∀ c ∈ e.path, c.length ≤ 65535

def Entry.wire (e : Entry) : Bytes :=
  leBytes 2 e.path.length ++ e.path.flatMap encodeComponent ++ leBytes 2 e.capabilityID.toNat ++
    leBytes 2 e.action.toNat ++ leBytes 2 e.result.toNat ++ leBytes 2 e.representationID.toNat ++
    e.auxDigest.val

theorem encodeEntry_ok {e : Entry} : encodeEntry e = .ok raw ↔ e.Fits ∧ raw = e.wire := by
  simp only [encodeEntry,except_unit_bind_ok,demand_ok,Except.ok.injEq,Entry.Fits,Entry.wire,and_assoc]
  rw [@eq_comm _ raw]

theorem encodeEntries_ok {es : List Entry} :
    encodeEntries es = .ok raw ↔ (∀ e ∈ es, e.Fits) ∧ raw = es.flatMap Entry.wire := by
  induction es generalizing raw with
  | nil => simp [encodeEntries,eq_comm]
  | cons e es ih =>
    simp only [encodeEntries,except_bind_ok,encodeEntry_ok,ih,Except.ok.injEq,List.forall_mem_cons,List.flatMap_cons]
    constructor
    · rintro ⟨_,⟨first,rfl⟩,_,⟨others,rfl⟩,rfl⟩
      exact ⟨⟨first,others⟩,rfl⟩
    · rintro ⟨⟨first,others⟩,rfl⟩
      exact ⟨_,⟨first,rfl⟩,_,⟨others,rfl⟩,rfl⟩

theorem reads_component : Reads (fun c : Bytes => c.length ≤ 65535) encodeComponent id := by
  refine Reads.sized (reads_leBytes fun c short => ?_) fun c _ => rfl
  exact Nat.lt_of_le_of_lt short (by decide)

theorem reads_entry : Reads Entry.Fits Entry.wire id := by
  have count : Reads Entry.Fits (fun e => leBytes 2 e.path.length) fun e => e.path.length :=
    reads_leBytes fun e fits => Nat.lt_of_le_of_lt fits.1 (by decide)
  have path : Reads Entry.Fits (fun e => leBytes 2 e.path.length ++ e.path.flatMap encodeComponent)
      fun e => (e.path.length,e.path) :=
    count.counted _ reads_component (fun _ _ _ _ same => same) fun e fits => fits.2
  have fields := ((((path.append (reads_uint16 Entry.capabilityID)).append (reads_uint16 Entry.action)).append
    (reads_uint16 Entry.result)).append (reads_uint16 Entry.representationID)).append
    (reads_fixed Entry.auxDigest)
  refine fields.map fun a b _ _ same => ?_
  simp only [Prod.mk.injEq] at same
  obtain ⟨⟨⟨⟨⟨⟨-,path⟩,capability⟩,action⟩,result⟩,representation⟩,aux⟩ := same
  cases a
  cases b
  simp_all

/-! ## Documents -/

structure Document where
  manifestDigest : Digest
  capDigest : Digest
  cfgDigest : Digest
  entries : List Entry
  destructiveDigest : Digest

namespace Document

def Fits (d : Document) : Prop := d.entries.length ≤ 2 ^ 32 - 1 ∧ ∀ e ∈ d.entries, e.Fits

/-- All but the trailing digest. -/
def body (d : Document) : Bytes :=
  planMagic ++ leBytes 2 planVersion ++ d.manifestDigest.val ++ d.capDigest.val ++ d.cfgDigest.val ++
    leBytes 4 d.entries.length ++ d.entries.flatMap Entry.wire ++ d.destructiveDigest.val

theorem encodePlan_ok {d : Document} {digest : Digest} :
    encodePlan d.manifestDigest d.capDigest d.cfgDigest d.entries d.destructiveDigest = .ok (raw,digest) ↔
      d.Fits ∧ raw = d.body ++ digest.val ∧ digest = sha256 d.body := by
  simp only [encodePlan,except_unit_bind_ok,demand_ok]
  simp only [except_bind_ok,measurePlanBody,encodeEntries_ok,Except.ok.injEq,Prod.mk.injEq,Fits,and_assoc]
  constructor
  · rintro ⟨count,_,-,_,fits,rfl,rfl,rfl⟩
    exact ⟨count,fits,rfl,rfl⟩
  · rintro ⟨count,fits,rfl,rfl⟩
    have encoded := encodeEntries_ok.mpr ⟨fits,rfl⟩
    exact ⟨count,_,by rw [encoded]; rfl,_,fits,rfl,rfl,rfl⟩

theorem reads_body : Reads Fits body fun d => (d.manifestDigest,d.capDigest,d.cfgDigest,d.entries) := by
  have header : Reads Fits (fun _ => planMagic ++ leBytes 2 planVersion) fun _ => () :=
    Reads.width (fun _ _ => rfl) fun _ _ _ _ _ => rfl
  have count : Reads Fits (fun d => leBytes 4 d.entries.length) fun d => d.entries.length :=
    reads_leBytes fun d fits => Nat.lt_of_le_of_lt fits.1 (by decide)
  have front := (((header.append (reads_fixed manifestDigest)).append (reads_fixed capDigest)).append
    (reads_fixed cfgDigest)).append count
  have entries := front.counted _ reads_entry (fun _ _ _ _ same => (Prod.mk.inj same).2) fun d (fits : d.Fits) => fits.2
  refine (entries.append (reads_fixed destructiveDigest)).map fun a b _ _ same => ?_
  simp only [Prod.mk.injEq] at same ⊢
  obtain ⟨⟨⟨⟨⟨⟨-,manifest⟩,capability⟩,config⟩,-⟩,entries⟩,-⟩ := same
  exact ⟨manifest,capability,config,entries⟩

end Document

/-- The document `Build` encodes. -/
def document (nfc : NFCTables) (inp : CanonicalInput) : Document :=
  ⟨inp.manifestDigest,inp.capabilityVectorDigest,inp.configurationDigest,planEntries nfc inp,
    sha256 (encodeDestructiveSubset (planEntries nfc inp))⟩

/-- A successful run, read back. -/
structure Planned (nfc : NFCTables) (inp : CanonicalInput) (plan : Plan) (pf : Preflight) : Prop where
  comparisons : inp.classifications.length ≤ inp.limits.resolve.maxCapabilityComparisons.toNat
  entries : inp.classifications.length ≤ inp.limits.resolve.maxEntries.toNat
  rows : ∃ es, resolveRows nfc (sortUint16 inp.policy.wrapAllowList)
    (sortUint16 inp.policy.representationAllowList) none (sortClassifications inp.classifications) = .ok (es,[])
  preflight : pf = ⟨[]⟩
  fits : (document nfc inp).Fits
  bytes : plan.bytes = (document nfc inp).body ++ plan.digest.val
  digest : plan.digest = sha256 (document nfc inp).body
  size : plan.bytes.length ≤ inp.limits.resolve.maxPlanBytes.toNat

theorem build_planned {nfc : NFCTables} {inp : CanonicalInput} {plan : Plan} {pf : Preflight} :
    build nfc inp = ⟨plan,pf,none⟩ ↔ Planned nfc inp plan pf := by
  constructor
  · intro built
    simp only [build] at built
    split at built
    · simp at built
    rename_i comparisons
    split at built
    · simp at built
    rename_i entries
    split at built
    · simp at built
    rename_i es blocking rows
    split at built
    · simp at built
    rename_i free
    obtain rfl : blocking = [] := by simpa using free
    have same : planEntries nfc inp = sortEntries es := by rw [planEntries,rows]
    rw [← same] at built
    split at built
    · simp at built
    rename_i raw digest encoded
    split at built
    · simp at built
    rename_i small
    simp only [Outcome.mk.injEq,and_true] at built
    obtain ⟨rfl,rfl⟩ := built
    have encoded : encodePlan (document nfc inp).manifestDigest (document nfc inp).capDigest
      (document nfc inp).cfgDigest (document nfc inp).entries (document nfc inp).destructiveDigest =
        .ok (raw,digest) := encoded
    obtain ⟨fits,bytes,digest⟩ := Document.encodePlan_ok.mp encoded
    exact ⟨Nat.le_of_not_lt comparisons,Nat.le_of_not_lt entries,⟨es,rows⟩,rfl,fits,bytes,digest,Nat.le_of_not_lt small⟩
  · rintro ⟨comparisons,entries,⟨es,rows⟩,rfl,fits,bytes,digest,size⟩
    have same : planEntries nfc inp = sortEntries es := by rw [planEntries,rows]
    have encoded := Document.encodePlan_ok.mpr ⟨fits,bytes,digest⟩
    simp only [document] at encoded
    simp only [build,if_neg (Nat.not_lt.mpr comparisons),if_neg (Nat.not_lt.mpr entries),rows,List.length_nil,
      Nat.lt_irrefl,if_false,← same,encoded,if_neg (Nat.not_lt.mpr size)]

/-- The bytes of a plan determine the digests it is bound to and every field of its entries, and
its digest determines the bytes unless the two documents collide under SHA-256. -/
theorem plan_bytes_determine_plan {nfc : NFCTables} {inp inp' : CanonicalInput} {plan plan' : Plan}
    {pf pf' : Preflight} (built : build nfc inp = ⟨plan,pf,none⟩) (built' : build nfc inp' = ⟨plan',pf',none⟩) :
    (plan.bytes = plan'.bytes → inp.manifestDigest = inp'.manifestDigest ∧
      inp.capabilityVectorDigest = inp'.capabilityVectorDigest ∧
      inp.configurationDigest = inp'.configurationDigest ∧ planEntries nfc inp = planEntries nfc inp') ∧
    (plan.digest = plan'.digest →
      (sha256 (document nfc inp).body = sha256 (document nfc inp').body →
        (document nfc inp).body = (document nfc inp').body) → plan.bytes = plan'.bytes) := by
  have left := build_planned.mp built
  have right := build_planned.mp built'
  refine ⟨fun same => ?_,fun same collisionFree => ?_⟩
  · have sizes : plan.digest.val.length = plan'.digest.val.length := by
      rw [plan.digest.property,plan'.digest.property]
    rw [left.bytes,right.bytes] at same
    have fields := Document.reads_body.eq left.fits right.fits (List.append_inj' same sizes).1
    simp only [Prod.mk.injEq] at fields
    exact fields
  · have bodies := collisionFree (by rw [← left.digest,← right.digest,same])
    rw [left.bytes,right.bytes,bodies,same]

/-- A row that keeps its content and one that is wrapped, with two candidates each. -/
def sampleRows : List Classification :=
  [⟨[ascii "b"],8,actionReplace,resultWrapped,[7,4],Fixed.zero 32⟩,
   ⟨[ascii "a"],1,actionCreate,resultLossless,[3,2],Fixed.zero 32⟩]

def sampleInput (rows : List Classification) : CanonicalInput :=
  ⟨Fixed.zero 32,Fixed.zero 32,Fixed.zero 32,rows,⟨[4,7],[]⟩,⟨0,0,0⟩⟩

theorem built_eq {o : Outcome} (clean : o.err = none) : o = ⟨o.plan,o.preflight,none⟩ := by rw [← clean]

theorem plan_bytes_sample : (build asciiTables (sampleInput sampleRows)).err = none ∧
    (build asciiTables (sampleInput sampleRows.reverse)).err = none ∧
    planEntries asciiTables (sampleInput sampleRows) = planEntries asciiTables (sampleInput sampleRows.reverse) := by
  have left : (build asciiTables (sampleInput sampleRows)).err = none := by decide +kernel
  have right : (build asciiTables (sampleInput sampleRows.reverse)).err = none := by decide +kernel
  have same : (build asciiTables (sampleInput sampleRows)).plan.bytes =
      (build asciiTables (sampleInput sampleRows.reverse)).plan.bytes := by decide +kernel
  exact ⟨left,right,((plan_bytes_determine_plan (built_eq left) (built_eq right)).1 same).2.2.2⟩

end Integris.Planner
