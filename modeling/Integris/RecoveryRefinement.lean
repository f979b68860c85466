import Integris.RecoveryHistory
import Integris.Transaction

/-! Recovery refines the transaction model: the scan of a journaled run finds the model's
variables again, and from them and a consistent observation the cascade reaches the
state the model prescribes, wherever the run stopped. -/
namespace Integris.Recovery

open Codec Journal Prog Transaction

/-- The flags of a scan against the variables of the run that wrote the records. -/
structure Mirrors (txid : TransactionID) (b : AuthorizationBinding) (v : Vars) (f : AbstractFlags) :
    Prop where
  txid : f.hasTx = true → f.txid = txid
  planned : v.state = .planned ∨ v.authorized = true → f.planDigestSeen = true
  authorized : f.authorized = v.authorized
  contentReceived : f.contentReceived = v.contentReceived
  prepared : f.prepared = v.prepared
  contentVerified : f.contentVerified = v.contentVerified
  publicationStarted : f.publicationStarted = v.publicationStarted
  published : f.published = false
  confirmationCount : f.confirmationCount = v.confirmationCount
  cancelled : f.cancelled = decide (v.state = .cancelled)
  quarantined : f.quarantined = false
  binding : f.binding = if v.authorized then some b else none
  contradiction : f.contradiction = none

section scan

variable {txid : TransactionID} {b : AuthorizationBinding} {v w : Vars} {f g : AbstractFlags}
  {es : List Item}

theorem scanRecords_append {rs : List Record} (r : Record) (scan : scanRecords rs f = .ok g)
    (clean : g.contradiction = none) : scanRecords (rs ++ [r]) f = scanRecords [r] g := by
  induction rs generalizing f with
  | nil =>
    cases scan
    rfl
  | cons x rs ih =>
    rw [List.cons_append,scanRecords]
    unfold scanRecords at scan
    split at scan
    · cases scan
      simp [AbstractFlags.contradict] at clean
    · next same =>
      rw [if_neg same]
      split at scan
      · cases scan
      · next m one =>
        split at scan
        · next stopped =>
          cases scan
          simp [clean] at stopped
        · next on =>
          rw [if_neg on]
          exact ih scan

variable {r : Record} {a : Transaction.Action} {note : Bytes}

theorem scanRecords_one (same : f.hasTx = true → f.txid = r.transactionID)
    (step : scanRecord { f with txid := r.transactionID, hasTx := true } r = .ok g)
    (clean : g.contradiction = none) : scanRecords [r] f = .ok g := by
  have one : ¬ (f.hasTx = true ∧ r.transactionID ≠ f.txid) := fun h => h.2 (same h.1).symm
  rw [scanRecords,if_neg one,step]
  simp [clean,scanRecords]

theorem mirrors_silent (h : Mirrors txid b v f)
    (step : next v a = some w) (silent : a.record txid b note = none) : Mirrors txid b w f := by
  -- in every case only the state moves, and neither from `PLANNED` nor to or from `CANCELLED`
  cases a <;> simp only [Transaction.Action.record,reduceCtorEq] at silent <;>
    simp only [next,enabled_eq_some] at step <;> obtain ⟨guard,rfl⟩ := step
  case recoverAgain => exact h
  case recover =>
    have before := h.cancelled
    split <;> exact { h with
      planned := fun now => h.planned (.inr (now.resolve_left (by simp))), cancelled := by simp [before,guard] }
  case authenticate | verifyManifest | completePublication =>
    have before := h.cancelled
    exact { h with
      planned := fun now => h.planned (.inr (now.resolve_left (by simp))), cancelled := by simp [before,guard] }
  case crash =>
    have before : f.cancelled = false := by
      rw [h.cancelled,decide_eq_false_iff_not]
      intro state
      simp [state] at guard
    exact { h with
      planned := fun now => h.planned (.inr (now.resolve_left (by simp))), cancelled := by simp [before] }

/-- A step's record turns the flags into those of the next state. -/
theorem mirrors_record {e : Item} (inv : Inv v)
    (h : Mirrors txid b v f) (step : next v a = some w) (wrote : a.record txid b note = some e)
    (same : r.transactionID = e.transactionID ∧ r.type = e.type ∧ r.payload = e.payload) :
    ∃ g, scanRecord { f with txid := r.transactionID, hasTx := true } r = .ok g ∧ Mirrors txid b w g := by
  obtain ⟨tx,type,payload⟩ := same
  have progress : ∀ c, e = ⟨txid,.progress,encodeProgressPayload c⟩ →
      scanRecord { f with txid := r.transactionID, hasTx := true } r =
        .ok (AbstractFlags.progress { f with txid := r.transactionID, hasTx := true } c) := by
    rintro c rfl
    have long : ¬ (encodeProgressPayload c).length < 2 := by simp [encodeProgressPayload]
    simp only [scanRecord,type,scanProgress,payload,if_neg long,progress_read_back]
  cases a <;> simp only [Transaction.Action.record,Option.some.injEq,reduceCtorEq] at wrote <;>
    simp only [next,enabled_eq_some] at step <;> obtain ⟨guard,rfl⟩ := step <;> subst wrote
  case authorize =>
    have fresh : f.authorized = false := h.authorized.trans (inv.unauthorized guard)
    refine ⟨{ f with txid := r.transactionID, hasTx := true, binding := some b, authorized := true },?_,?_⟩
    · simp [scanRecord,type,scanAuthorization,fresh,payload,decode_encodeAuthorizationPayload]
    · have seen := h.planned (.inl guard)
      obtain ⟨-,-,authorized,received,prepared,verified,started,published,count,cancelled,quarantined,binding,clean⟩ := h
      constructor <;> simp_all
  case receive | prepare | verify | beginPublication =>
    refine ⟨_,progress _ rfl,?_⟩
    obtain ⟨-,planned,authorized,received,prepared,verified,started,published,count,cancelled,
      quarantined,binding,clean⟩ := h
    constructor <;> simp_all [AbstractFlags.progress]
  all_goals
    refine ⟨_,by simp only [scanRecord,type]; rfl,?_⟩
    obtain ⟨-,planned,authorized,received,prepared,verified,started,published,count,cancelled,
      quarantined,binding,clean⟩ := h
    constructor <;> simp_all

theorem run_mirrored (run : Run txid b v es) :
    ∃ f, scanRecords (recordsOf 1 genesisCommitment es) {} = .ok f ∧ Mirrors txid b v f := by
  induction run with
  | init => exact ⟨{},rfl,by constructor <;> simp⟩
  | @step v w es a note run short step ih =>
    obtain ⟨f,scan,mirrors⟩ := ih
    cases wrote : a.record txid b note with
    | none =>
      rw [Option.toList_none,List.append_nil]
      exact ⟨f,scan,mirrors_silent mirrors step wrote⟩
    | some e =>
      have owner : e.transactionID = txid := by cases a <;> cases wrote <;> rfl
      obtain ⟨g,one,next⟩ := mirrors_record (r := (nextFields es e).record) run.inv mirrors step wrote ⟨rfl,rfl,rfl⟩
      refine ⟨g,?_,next⟩
      rw [Option.toList_some,recordsOf_append,Nat.add_comm 1,scanRecords_append _ scan mirrors.contradiction]
      exact scanRecords_one (fun h => (mirrors.txid h).trans owner.symm) one next.contradiction

/-- Past `AUTHORIZED` none of the closing checks objects. -/
theorem run_scanned (run : Run txid b v es) (authorized : v.authorized = true) :
    ∃ f, scanPrefix (recordsOf 1 genesisCommitment es) = .ok f ∧ Mirrors txid b v f := by
  obtain ⟨f,scan,mirrors⟩ := run_mirrored run
  refine ⟨f,?_,mirrors⟩
  have inv := run.inv
  have plan : checkPlanDigest f = f := by simp [checkPlanDigest,mirrors.planned (.inr authorized)]
  have prepared : checkPrepared f = f := if_neg (by
    rintro ⟨yes,no⟩
    rw [mirrors.prepared] at yes
    simp [mirrors.contentReceived,inv.prepared yes] at no)
  have verified : checkVerified f = f := if_neg (by
    rintro ⟨yes,no⟩
    rw [mirrors.contentVerified] at yes
    simp [mirrors.prepared,mirrors.contentReceived,inv.verified yes,inv.prepared (inv.verified yes)] at no)
  have started : checkStarted f = f := if_neg (by
    rintro ⟨yes,no⟩
    rw [mirrors.publicationStarted] at yes
    simp [mirrors.authorized,mirrors.contentVerified,inv.started yes,authorized] at no)
  simp [scanPrefix,scan,mirrors.contradiction,plan,prepared,verified,started]

end scan

/-- What the disk shows agrees with the run. -/
structure Consistent (b : AuthorizationBinding) (v : Vars) (obs : FSObservation) : Prop where
  root : obs.rootIdentity = b.rootIdentity
  volume : obs.volumeIdentity = b.volumeIdentity
  linearized : linearized obs = v.published
  started : obs.publicationStarted = true → v.publicationStarted = true

/-- The state the model prescribes for a run that stopped in `v`. -/
def prescribed (policy : Policy) (io : Bool) (v : Vars) : State :=
  if v.confirmationCount = 1 then .confirmed
  else if v.published then
    if policy.allowConfirm && io then .confirmed else .published
  else if v.state = .cancelled then .cancelled
  else .quarantined

section decision

variable {ι : Type} {adapter : PersistIO ι} {prior : Prefix} {obs : FSObservation} {policy : Policy}
  {io : Bool} {f : AbstractFlags} {s : Recovering} {txid : TransactionID} {b : AuthorizationBinding}
  {v : Vars}

theorem Consistent.accepted (h : Consistent b v obs) (inv : Inv v) (authorized : v.authorized = true)
    (scan : scanPrefix prior.records = .ok f) (mirrors : Mirrors txid b v f) : Accepted prior obs f where
  scan := scan
  clean := mirrors.contradiction
  identity := by simp [identityMismatch,mirrors.binding,authorized,h.root,h.volume]
  once := mirrors.confirmationCount ▸ inv.once
  chained linear := by
    have started := inv.published (h.linearized ▸ linear)
    have verified := inv.started started
    have prepared := inv.verified verified
    simp [AbstractFlags.chained,mirrors.authorized,mirrors.prepared,mirrors.contentVerified,
      mirrors.contentReceived,authorized,verified,prepared,inv.prepared prepared]

theorem Consistent.observed (h : Consistent b v obs) (inv : Inv v) (mirrors : Mirrors txid b v f) :
    (f.observed obs).published = v.published ∧ (f.observed obs).publicationStarted = v.publicationStarted := by
  unfold AbstractFlags.observed
  split
  · next linear =>
    have published : v.published = true := h.linearized ▸ linear
    exact ⟨published.symm,(inv.published published).symm⟩
  · next unlinear =>
    have unpublished : v.published = false := by
      rw [← h.linearized]
      simpa using unlinear
    refine ⟨mirrors.published.trans unpublished.symm,?_⟩
    rw [mirrors.publicationStarted]
    cases seen : obs.publicationStarted with
    | false => simp
    | true => simp [h.started seen]

/-- The cascade reaches the prescribed state from the flags of a run. -/
theorem decision_prescribed (inv : Inv v) (durable : nothingDurable prior obs = false)
    (seen : obs.publicationStarted = true → f.publicationStarted = true)
    (published : f.published = v.published) (started : f.publicationStarted = v.publicationStarted)
    (count : f.confirmationCount = v.confirmationCount) (cancelled : f.cancelled = decide (v.state = .cancelled)) :
    ∃ x, decision prior obs policy f = some x ∧ x.state = prescribed policy true v := by
  unfold prescribed
  cases done : v.published with
  | true =>
    refine ⟨_,decision_published (published.trans done) (started.trans (inv.published done)) durable,?_⟩
    rw [count,publishedDecision]
    split
    · rfl
    · cases policy.allowConfirm <;> rfl
  | false =>
    have zero : v.confirmationCount ≠ 1 := fun one => by simp [inv.confirmed (by omega)] at done
    refine ⟨_,decision_unpublished durable (published.trans done) (count ▸ zero) seen,?_⟩
    -- a cancelled run never started to publish
    rw [if_neg zero,cancelled,started]
    by_cases state : v.state = .cancelled
    · simp [state,inv.cancelled state]
    · simp [state]

theorem recoverObserved_state (obliging : adapter.Obliging) (io : Bool)
    (prescribes : ∀ policy, ∃ x, decision prior obs policy f = some x ∧ x.state = prescribed policy true v) :
    wp (recoverObserved prior obs policy io f) adapter s
      (fun _ t => t.out.state = some (prescribed policy io v)) (fun _ _ => False) (fun _ => False) := by
  have runs (policy : Policy) : wp (recoverObserved prior obs policy true f) adapter s
      (fun _ t => t.out.state = some (prescribed policy true v)) (fun _ _ => False) (fun _ => False) := by
    obtain ⟨x,decided,state⟩ := prescribes policy
    refine (recoverObserved_decides obliging).ends ?_ (fun _ _ none_ => by simp [decided] at none_)
    rintro _ t ⟨y,same,ends,-⟩
    obtain rfl := Option.some.inj (decided.symm.trans same)
    rw [ends,state]
  cases io with
  | true => exact runs policy
  | false =>
    rw [recoverObserved_idle]
    simpa [prescribed] using runs {}

end decision

/-- Recovery of a run of the model that stopped anywhere from `AUTHORIZED` on, whatever is
left of the next record: no error, and the state the model prescribes. -/
theorem recover_refines_model {ι : Type} {txid : TransactionID} {b : AuthorizationBinding} {v : Vars}
    {es : List Item} {tail : Bytes} {obs : FSObservation} {adapter : PersistIO ι}
    (run : Run txid b v es) (authorized : v.authorized = true) (torn : Tail es tail)
    (consistent : Consistent b v obs) (obliging : adapter.Obliging) (policy : Policy) (io : Bool) :
    ∃ prior, readPrefix (bytesOf es ++ tail) = .ok prior ∧ (prior.torn = true ↔ tail ≠ []) ∧
      ∃ out, (recover prior obs policy io adapter).report = some ⟨out,none⟩ ∧
        out.state = some (prescribed policy io v) := by
  have room : es.length + 1 ≤ 2 ^ 64 := by
    have few := run.few
    have := phase_le v.state
    omega
  obtain ⟨prior,records,isTorn,read⟩ : ∃ prior : Prefix,
      prior.records = recordsOf 1 genesisCommitment es ∧ (prior.torn = true ↔ tail ≠ []) ∧
      readPrefix (bytesOf es ++ tail) = .ok prior := by
    obtain ⟨flag,offset,isTorn,read⟩ := readPrefix_ok run.fits torn room
    exact ⟨_,rfl,isTorn,read⟩
  obtain ⟨f,scan,mirrors⟩ := run_scanned run authorized
  rw [← records] at scan
  have inv := run.inv
  have accepted := consistent.accepted inv authorized scan mirrors
  obtain ⟨published,started⟩ := consistent.observed inv mirrors
  have durable : prior.records ≠ [] := by
    intro empty
    rw [empty] at scan
    cases scan
    rw [← mirrors.authorized] at authorized
    cases authorized
  refine ⟨prior,read,isTorn,recover_returns policy io adapter
    (P := fun out => out.state = some (prescribed policy io v)) ?_⟩
  refine (recoverBody_accepted accepted).mpr (recoverObserved_state obliging io fun policy => ?_)
  exact decision_prescribed inv (by simp [nothingDurable,durable])
    (fun seen => started.trans (consistent.started seen)) published started
    ((f.observed_count obs).trans mirrors.confirmationCount)
    ((f.observed_cancelled obs).trans mirrors.cancelled)

/-- The sample transaction after its rename, before its confirmation. -/
def publishedVars : Vars :=
  { state := .published, authorized := true, contentReceived := true, prepared := true
    contentVerified := true, publicationStarted := true, published := true }

theorem published_run : Run sampleID sampleBinding publishedVars publishingItems :=
  have short : ([] : Bytes).length ≤ maxPayloadBytes := Nat.zero_le _
  .step .completePublication [] (.step .beginPublication [] (.step .verify [] (.step .prepare []
    (.step .receive [] (.step .authorize [] (.step .plan sampleBinding.planDigest.val
      (.step .verifyManifest [] (.step .authenticate [] .init short rfl) short rfl)
      (by decide) rfl) short rfl) short rfl) short rfl) short rfl) short rfl) short rfl

/-- A confirmation torn after five bytes is written again by recovery. -/
theorem recover_refines_model_sample :
    ∃ prior, readPrefix (bytesOf publishingItems ++
        (nextFields publishingItems ⟨sampleID,.confirmation,[]⟩).wire.take 5) = .ok prior ∧
      (prior.torn = true ↔
        (nextFields publishingItems ⟨sampleID,.confirmation,[]⟩).wire.take 5 ≠ []) ∧
      ∃ out, (recover prior sampleObservation { allowConfirm := true } true obliging).report =
          some ⟨out,none⟩ ∧ out.state = some .confirmed :=
  recover_refines_model published_run rfl
    ⟨_,5,Nat.zero_le _,by simp only [RecordFields.length,recordOverhead]; omega,rfl⟩
    ⟨rfl,rfl,rfl,fun _ => rfl⟩ (fun _ _ => rfl) { allowConfirm := true } true

end Integris.Recovery
