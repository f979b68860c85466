import Integris.RecoveryRefinement

/-! Recovery after recovery. With a working adapter the cascade is a function of the
flags and the observation; the second run meets the flags and the observation that the
effects of the first one leave. -/
namespace Integris.Recovery

open Codec Journal Prog

/-- One more confirmation shows in the count alone. -/
def AbstractFlags.confirmedAgain (f : AbstractFlags) : AbstractFlags :=
  { f with hasTx := true, confirmationCount := f.confirmationCount + 1 }

theorem checks_confirmedAgain (f : AbstractFlags) :
    checkStarted (checkVerified (checkPrepared (checkPlanDigest f.confirmedAgain))) =
      (checkStarted (checkVerified (checkPrepared (checkPlanDigest f)))).confirmedAgain := by
  have commutes (f : AbstractFlags) : checkPlanDigest f.confirmedAgain = (checkPlanDigest f).confirmedAgain ∧
      checkPrepared f.confirmedAgain = (checkPrepared f).confirmedAgain ∧
      checkVerified f.confirmedAgain = (checkVerified f).confirmedAgain ∧
      checkStarted f.confirmedAgain = (checkStarted f).confirmedAgain := by
    unfold checkPlanDigest checkPrepared checkVerified checkStarted AbstractFlags.confirmedAgain
    dsimp only
    refine ⟨?_,?_,?_,?_⟩ <;> split <;> rfl
  rw [(commutes _).1,(commutes _).2.1,(commutes _).2.2.1,(commutes _).2.2.2]

theorem scanPrefix_confirmedAgain {rs : List Record} {f : AbstractFlags} {r : Record}
    (scan : scanPrefix rs = .ok f) (clean : f.contradiction = none) (type : r.type = .confirmation)
    (same : r.transactionID = f.txid) : scanPrefix (rs ++ [r]) = .ok f.confirmedAgain := by
  unfold scanPrefix at scan
  split at scan
  · cases scan
  · next g loop =>
    split at scan
    · next stopped =>
      cases scan
      simp [clean] at stopped
    · next on =>
      have silent : g.contradiction = none := by simpa using on
      cases scan
      obtain ⟨kept,-⟩ := checks_clean clean
      rw [kept] at same ⊢
      have step : scanRecords [r] g = .ok g.confirmedAgain := by
        refine scanRecords_one (fun _ => same.symm) ?_ silent
        rw [scanRecord,type,same]
        rfl
      have calm : ¬ g.confirmedAgain.contradiction.isSome = true := on
      rw [scanPrefix,scanRecords_append r loop silent,step]
      dsimp only
      rw [if_neg calm,checks_confirmedAgain,kept]

/-- The world after the calls of a run: the staging area and its marker go together, and a
confirmation is the next record of the journal. -/
structure Applied (prior : Prefix) (obs : FSObservation) (calls : List (Call × Bool)) (prior' : Prefix)
    (obs' : FSObservation) : Prop where
  kept : (∀ c ∈ calls, c.1.isConfirmation = false) → prior' = prior
  appended : ∀ txid, (.appendConfirmation txid, true) ∈ calls → ∃ r : Record,
    r.type = .confirmation ∧ r.transactionID = txid ∧ prior'.records = prior.records ++ [r]
  staging : obs' = if calls.any (·.1.isStaging) then
      { obs with stagingPresent := false, publicationStarted := false } else obs

/-- The evidence for the decision goes away with the staging area: nothing else was
durable, or a cancellation was overruled by the marker alone. -/
def Forgetful (prior : Prefix) (obs : FSObservation) (policy : Policy) : Prop :=
  policy.allowStagingCleanup = true ∧ linearized obs = false ∧
    ((prior.records = [] ∧ prior.torn = false ∧ obs.publicationLinearized = false ∧
        (obs.stagingPresent = true ∨ obs.publicationStarted = true)) ∨
      (has .cancellation prior.records = true ∧ reached .publishing prior.records = false ∧
        obs.publicationStarted = true))

section again

variable {ι : Type} {adapter adapter' : PersistIO ι} {prior prior' : Prefix} {obs obs' : FSObservation}
  {policy : Policy} {f : AbstractFlags} {x : Decision}

def FSObservation.cleared (obs : FSObservation) : FSObservation :=
  { obs with stagingPresent := false, publicationStarted := false }

theorem Accepted.cleared (h : Accepted prior obs f) : Accepted prior obs.cleared f :=
  ⟨h.scan,h.clean,h.identity,h.once,h.chained⟩

theorem observed_unpublished (accepted : Accepted prior obs f) (linear : linearized obs = false) :
    (f.observed obs).published = false ∧
      (f.observed obs).publicationStarted = (f.publicationStarted || obs.publicationStarted) := by
  have unpublished : f.published = false := accepted.scanned.published
  simp [AbstractFlags.observed,linear,unpublished]

/-- A confirmed prefix that is not published settles only where nothing is staged. -/
theorem decision_stale (durable : nothingDurable prior obs = false) (unpublished : f.published = false)
    (one : f.confirmationCount = 1) (decided : decision prior obs policy f = some x) :
    x.calls = [] ∧ f.publicationStarted = false := by
  unfold decision at decided
  rw [if_neg (by simp [durable])] at decided
  split at decided
  · next done =>
    obtain rfl := Option.some.inj decided
    simp only [needsRecovery,unpublished,Bool.and_eq_true,Bool.not_eq_true',Bool.or_eq_false_iff,
      Bool.not_false,Bool.and_true] at done
    exact ⟨rfl,done.1.2⟩
  · rw [openDecision,if_pos one,if_neg (by simp [unpublished])] at decided
    cases decided

/-- Nothing is forgotten where the first run made no call. -/
theorem quiet_not_forgetful (accepted : Accepted prior obs f)
    (decided : decision prior obs policy (f.observed obs) = some x) (quiet : x.calls = []) :
    ¬ Forgetful prior obs policy := by
  rintro ⟨allowed,linear,which⟩
  obtain ⟨unpublished,started⟩ := observed_unpublished accepted linear
  have scanned := accepted.scanned
  have marked : obs.stagingPresent = true ∨ obs.publicationStarted = true := by
    rcases which with ⟨-,-,-,marked⟩ | ⟨-,-,marked⟩
    · exact marked
    · exact .inr marked
  have durable : nothingDurable prior obs = false := by
    rcases marked with marked | marked <;> simp [nothingDurable,marked]
  have kept : (f.observed obs).cancelled = true → (f.observed obs).publicationStarted = true := by
    intro cancelled
    rw [f.observed_cancelled,scanned.cancelled] at cancelled
    rcases which with ⟨empty,-⟩ | ⟨-,-,marked⟩
    · rw [empty] at cancelled
      cases cancelled
    · rw [started,marked,Bool.or_true]
  by_cases one : (f.observed obs).confirmationCount = 1
  · obtain ⟨-,unstarted⟩ := decision_stale durable unpublished one decided
    rcases which with ⟨empty,-⟩ | ⟨-,-,marked⟩
    · rw [f.observed_count,scanned.confirmationCount,empty] at one
      cases one
    · rw [started,marked,Bool.or_true] at unstarted
      cases unstarted
  · rw [decision_unpublished durable unpublished one fun h => by rw [started,h,Bool.or_true]] at decided
    have uncancelled : ¬ ((f.observed obs).cancelled && !(f.observed obs).publicationStarted) = true := by
      simpa using kept
    rw [if_neg uncancelled] at decided
    obtain rfl := Option.some.inj decided
    rw [quarantineCalls,if_pos (by simpa [allowed] using marked)] at quiet
    cases quiet

/-- Once the staging area is gone the same flags lead to the same state, unless it was the
evidence. -/
theorem cleared_again_iff (accepted : Accepted prior obs f) (linear : linearized obs = false)
    (durable : nothingDurable prior obs = false) (zero : f.confirmationCount ≠ 1)
    (decided : decision prior obs policy (f.observed obs) = some x) (staged : x.calls ≠ []) :
    decision prior obs.cleared policy (f.observed obs.cleared) = some ⟨x.state,[]⟩ ↔ ¬ Forgetful prior obs policy := by
  obtain ⟨unpublished,started⟩ := observed_unpublished accepted linear
  obtain ⟨unpublished',started'⟩ := observed_unpublished accepted.cleared linear
  have cancelled : f.cancelled = has .cancellation prior.records := accepted.scanned.cancelled
  have publishing : f.publicationStarted = reached .publishing prior.records := accepted.scanned.publicationStarted
  rw [decision_unpublished durable unpublished (by rwa [f.observed_count])
    fun h => by rw [started,h,Bool.or_true]] at decided
  simp only [f.observed_cancelled,started] at decided
  obtain rfl := Option.some.inj decided
  have allowed : policy.allowStagingCleanup = true ∧ (obs.stagingPresent = true ∨ obs.publicationStarted = true) := by
    revert staged
    rw [cleanupCalls,quarantineCalls]
    grind
  by_cases nothing : nothingDurable prior obs.cleared = true
  · have gone : prior.records = [] ∧ prior.torn = false ∧ obs.publicationLinearized = false := by
      simp only [nothingDurable,FSObservation.cleared,Bool.and_eq_true,List.isEmpty_iff,
        Bool.not_eq_true',Bool.not_false,and_true] at nothing
      exact ⟨nothing.1.1,nothing.1.2,nothing.2⟩
    have forgetful : Forgetful prior obs policy := ⟨allowed.1,linear,.inl ⟨gone.1,gone.2.1,gone.2.2,allowed.2⟩⟩
    rw [decision,if_pos nothing]
    refine ⟨fun same => ?_,fun not => absurd forgetful not⟩
    have state := congrArg Decision.state (Option.some.inj same)
    revert state
    split <;> simp
  · have kept : nothingDurable prior obs.cleared = false := by simpa using nothing
    rw [decision_unpublished kept unpublished' (by rwa [f.observed_count]) (by simp [FSObservation.cleared])]
    have unmarked : obs.cleared.publicationStarted = false := rfl
    have cleaned : cleanupCalls policy obs.cleared = [] ∧ quarantineCalls policy obs.cleared = [] := by
      simp [cleanupCalls,quarantineCalls,FSObservation.cleared]
    have forgetful_iff : Forgetful prior obs policy ↔
        f.cancelled = true ∧ f.publicationStarted = false ∧ obs.publicationStarted = true := by
      constructor
      · rintro ⟨-,-,⟨empty,untorn,flag,-⟩ | overruled⟩
        · simp [nothingDurable,FSObservation.cleared,empty,untorn,flag] at kept
        · rwa [cancelled,publishing]
      · rw [cancelled,publishing]
        exact fun overruled => ⟨allowed.1,linear,.inr overruled⟩
    simp only [f.observed_cancelled,started',unmarked,cleaned,Bool.or_false,forgetful_iff]
    cases f.cancelled <;> cases f.publicationStarted <;> cases obs.publicationStarted <;> simp

/-- Short of publication the calls are about the staging area alone. -/
theorem unpublished_calls (accepted : Accepted prior obs f) (linear : linearized obs = false)
    (decided : decision prior obs policy (f.observed obs) = some x) (staged : x.calls ≠ []) :
    nothingDurable prior obs = false ∧ f.confirmationCount ≠ 1 ∧ x.calls.any Call.isStaging = true ∧
      ∀ c ∈ x.calls, c.isConfirmation = false := by
  obtain ⟨unpublished,started⟩ := observed_unpublished accepted linear
  have durable : nothingDurable prior obs = false := by
    rw [← Bool.not_eq_true]
    intro nothing
    rw [decision,if_pos nothing] at decided
    obtain rfl := Option.some.inj decided
    exact staged rfl
  have zero : (f.observed obs).confirmationCount ≠ 1 := fun one => staged (decision_stale durable unpublished one decided).1
  rw [decision_unpublished durable unpublished zero fun h => by rw [started,h,Bool.or_true]] at decided
  obtain rfl := Option.some.inj decided
  refine ⟨durable,by rwa [f.observed_count] at zero,?_⟩
  revert staged
  rw [cleanupCalls,quarantineCalls]
  split <;> split <;> simp [Call.isStaging,Call.isConfirmation]

theorem Applied.nothing (applied : Applied prior obs [] prior' obs') : prior' = prior ∧ obs' = obs :=
  ⟨applied.kept nofun,applied.staging⟩

end again

/-- A second recovery after a first one that succeeded returns the same state and makes no
call, exactly where the effects of the first did not take its evidence away. -/
theorem recovery_idempotent_iff {ι : Type} {adapter adapter' : PersistIO ι} {prior prior' : Prefix}
    {obs obs' : FSObservation} {policy : Policy} {out : Outcome} (works : adapter.Obliging)
    (works' : adapter'.Obliging)
    (first : (recover prior obs policy true adapter).report = some ⟨out,none⟩)
    (applied : Applied prior obs (recover prior obs policy true adapter).calls prior' obs') :
    (∃ out', recover prior' obs' policy true adapter' = ⟨some ⟨out',none⟩,[]⟩ ∧ out'.state = out.state) ↔
      ¬ Forgetful prior obs policy := by
  obtain ⟨f,accepted,-⟩ := recover_reported first
  have ends : _ ∨ decision prior obs policy (f.observed obs) = none ∧ _ := recover_decides works accepted
  rcases ends with ⟨x,out₁,decided,state,run⟩ | ⟨-,_,_,refused⟩
  swap
  · rw [first] at refused
    cases refused
  rw [run] at first applied
  obtain ⟨rfl,-⟩ := Report.mk.inj (Option.some.inj first)
  rw [state]
  by_cases quiet : x.calls = []
  · rw [quiet] at applied
    obtain ⟨rfl,rfl⟩ := applied.nothing
    have again : decision prior' obs' policy (f.observed obs') = some ⟨x.state,[]⟩ := by
      rw [decided,← quiet]
    exact iff_of_true ((recover_quiet_iff works' accepted).mpr again)
      (quiet_not_forgetful accepted decided quiet)
  by_cases linear : linearized obs = true
  · have calm : ¬ Forgetful prior obs policy := by
      rintro ⟨-,unlinear,-⟩
      simp [linear] at unlinear
    have durable (p : Prefix) : nothingDurable p obs = false := by
      simp [nothingDurable,(Bool.and_eq_true_iff.mp linear).1]
    have published (g : AbstractFlags) : (g.observed obs).published = true ∧
        (g.observed obs).publicationStarted = true ∧ (g.observed obs).txid = g.txid := by
      simp [AbstractFlags.observed,linear]
    rw [decision_published (published f).1 (published f).2.1 (durable prior)] at decided
    obtain rfl := Option.some.inj decided
    -- only the confirmation makes calls here
    have zero : f.confirmationCount ≠ 1 := fun one => quiet (by rw [if_pos (by simpa using one)])
    have zero' : (f.observed obs).confirmationCount ≠ 1 := by simpa using zero
    rw [if_neg zero',publishedDecision] at applied quiet ⊢
    split at applied
    swap
    · next refused => exact absurd (by rw [if_neg refused]) quiet
    next allowed =>
    rw [if_pos allowed]
    obtain ⟨r,type,same,records⟩ := applied.appended (f.observed obs).txid (by simp)
    obtain rfl : obs' = obs := applied.staging
    rw [(published f).2.2] at same
    have accepted' : Accepted prior' obs' f.confirmedAgain := by
      refine ⟨?_,accepted.clean,accepted.identity,?_,accepted.chained⟩
      · rw [records]
        exact scanPrefix_confirmedAgain accepted.scan accepted.clean type same
      · have := accepted.once
        change f.confirmationCount + 1 ≤ 1
        omega
    refine iff_of_true ((recover_quiet_iff works' accepted').mpr ?_) calm
    have one : (f.confirmedAgain.observed obs').confirmationCount = 1 := by
      have := accepted.once
      rw [AbstractFlags.observed_count]
      change f.confirmationCount + 1 = 1
      omega
    rw [decision_published (published _).1 (published _).2.1 (durable prior'),if_pos one]
  · have unlinear : linearized obs = false := by simpa using linear
    obtain ⟨durable,zero,staged,unconfirmed⟩ := unpublished_calls accepted unlinear decided quiet
    obtain rfl : prior' = prior := applied.kept (by simpa using unconfirmed)
    have cleared : obs' = obs.cleared := by
      rw [applied.staging,if_pos (by simpa [List.any_map,Function.comp_def] using staged)]
      rfl
    rw [cleared,recover_quiet_iff works' accepted.cleared]
    exact cleared_again_iff accepted unlinear durable zero decided quiet

/-- A staging area without a journal, and a cancelled transaction with a marker. -/
def strayStaging : FSObservation :=
  { sampleObservation with
    publicationStarted := false, publicationLinearized := false, publishedContentMatches := false }

def strayMarker : FSObservation :=
  { sampleObservation with publicationLinearized := false, publishedContentMatches := false }

def cancelledPrefix : Prefix := samplePrefix [⟨sampleID,.cancellation,[]⟩]

def cleaning : Policy := { allowStagingCleanup := true }

/-- State, error and calls of a run with a working adapter. -/
def rerun (prior : Prefix) (obs : FSObservation) (policy : Policy) :
    Option (Option State × Option (Failure Unit)) × List (Call × Bool) :=
  let run := recover prior obs policy true obliging
  (run.report.map fun r => (r.outcome.state,r.error),run.calls)

theorem rerun_report {prior : Prefix} {obs : FSObservation} {policy : Policy} {state : Option State}
    {e : Option (Failure Unit)} (h : (rerun prior obs policy).1 = some (state,e)) :
    ∃ out, (recover prior obs policy true obliging).report = some ⟨out,e⟩ ∧ out.state = state := by
  obtain ⟨⟨out,e⟩,report,same⟩ := Option.map_eq_some_iff.mp h
  obtain ⟨state,rfl⟩ := Prod.mk.inj same
  exact ⟨out,report,state⟩

def quarantineRun : List (Call × Bool) :=
  [(.checkpoint .publishRename,true),(.quarantineStaging,true),(.checkpoint .publishDirSync,true)]

/-- What was quarantined is found to be created, or cancelled, the next time. -/
theorem second_recovery_differs :
    (rerun {} strayStaging cleaning = (some (some .quarantined,none),quarantineRun) ∧
      Applied {} strayStaging quarantineRun {} strayStaging.cleared ∧
      rerun {} strayStaging.cleared cleaning = (some (some .created,none),[])) ∧
    (rerun cancelledPrefix strayMarker cleaning = (some (some .quarantined,none),quarantineRun) ∧
      Applied cancelledPrefix strayMarker quarantineRun cancelledPrefix strayMarker.cleared ∧
      rerun cancelledPrefix strayMarker.cleared cleaning = (some (some .cancelled,none),[])) := by
  have applied (prior : Prefix) (obs : FSObservation) :
      Applied prior obs quarantineRun prior obs.cleared := by
    refine ⟨fun _ => rfl,fun txid mem => ?_,rfl⟩
    simp [quarantineRun] at mem
  exact ⟨⟨by decide +kernel,applied _ _,by decide +kernel⟩,by decide +kernel,applied _ _,by decide +kernel⟩

def confirming : Policy := { allowConfirm := true }

def confirmedPrefix : Prefix := samplePrefix (publishingItems ++ [⟨sampleID,.confirmation,[]⟩])

theorem confirmingRun : (recover (samplePrefix publishingItems) sampleObservation confirming true obliging).calls =
    [(.checkpoint .confirmPre,true),(.appendConfirmation sampleID,true),(.checkpoint .confirmPost,true)] := by
  decide +kernel

/-- A publication is confirmed once. -/
theorem recovery_idempotent_sample :
    ∃ out, recover confirmedPrefix sampleObservation confirming true obliging = ⟨some ⟨out,none⟩,[]⟩ ∧
      out.state = some .confirmed := by
  have first : ∃ out, (recover (samplePrefix publishingItems) sampleObservation confirming true
      obliging).report = some ⟨out,none⟩ ∧ out.state = some .confirmed :=
    rerun_report (by decide +kernel)
  obtain ⟨out,report,state⟩ := first
  have applied : Applied (samplePrefix publishingItems) sampleObservation
      (recover (samplePrefix publishingItems) sampleObservation confirming true obliging).calls
      confirmedPrefix sampleObservation := by
    rw [confirmingRun]
    refine ⟨fun none_ => ?_,fun txid mem => ?_,rfl⟩
    · simpa [Call.isConfirmation] using none_ (.appendConfirmation sampleID,true) (by simp)
    · have same : txid = sampleID := by simpa using mem
      exact ⟨_,rfl,same.symm,recordsOf_append _ _ _ _⟩
  have calm : ¬ Forgetful (samplePrefix publishingItems) sampleObservation confirming := by
    rintro ⟨allowed,-⟩
    cases allowed
  rw [← state]
  exact (recovery_idempotent_iff (fun _ _ => rfl) (fun _ _ => rfl) report applied).mpr calm

end Integris.Recovery
