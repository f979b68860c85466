import Integris.Recovery

/-! What recovery may report and do, for every prefix, observation, policy and adapter:
publication comes from the observation and a complete chain of records, effects only
from permission. The scan forgets the order of the records and what a cancellation
says about the others; the last part says exactly which prefixes that lets through. -/
namespace Integris.Recovery

open Codec Journal Prog

/-! What the flags say about the records. -/

def progressOf (r : Record) : Option ProgressCode :=
  if r.type = .progress ∧ 2 ≤ r.payload.length then ProgressCode.ofCode (leNat (slice r.payload 0 2))
  else none

def has (t : RecordType) (rs : List Record) : Bool := rs.any fun r => r.type = t

def reached (c : ProgressCode) (rs : List Record) : Bool := rs.any fun r => progressOf r = some c

def confirmations (rs : List Record) : Nat := rs.countP fun r => r.type = .confirmation

/-- The flags `g` are `f` and what the records add. -/
structure Scanned (rs : List Record) (f g : AbstractFlags) : Prop where
  authorized : g.authorized = (f.authorized || has .authorization rs)
  contentReceived : g.contentReceived = (f.contentReceived || reached .contentReceived rs)
  prepared : g.prepared = (f.prepared || reached .prepared rs)
  contentVerified : g.contentVerified = (f.contentVerified || reached .verified rs)
  publicationStarted : g.publicationStarted = (f.publicationStarted || reached .publishing rs)
  published : g.published = f.published
  cancelled : g.cancelled = (f.cancelled || has .cancellation rs)
  quarantined : g.quarantined = (f.quarantined || has .quarantine rs)
  confirmationCount : g.confirmationCount = f.confirmationCount + confirmations rs

theorem Scanned.refl (f : AbstractFlags) : Scanned [] f f := by constructor <;> simp [has,reached,confirmations]

theorem Scanned.trans {rs ss : List Record} {f g h : AbstractFlags} (first : Scanned rs f g)
    (next : Scanned ss g h) : Scanned (rs ++ ss) f h := by
  constructor
  · simp [next.authorized,first.authorized,has,Bool.or_assoc]
  · simp [next.contentReceived,first.contentReceived,reached,Bool.or_assoc]
  · simp [next.prepared,first.prepared,reached,Bool.or_assoc]
  · simp [next.contentVerified,first.contentVerified,reached,Bool.or_assoc]
  · simp [next.publicationStarted,first.publicationStarted,reached,Bool.or_assoc]
  · exact next.published.trans first.published
  · simp [next.cancelled,first.cancelled,has,Bool.or_assoc]
  · simp [next.quarantined,first.quarantined,has,Bool.or_assoc]
  · simp [next.confirmationCount,first.confirmationCount,confirmations,Nat.add_assoc]

variable {payload : Bytes} {f : AbstractFlags} {rs : List Record}

theorem scanAuthorization_ok {f g : AbstractFlags}
    (h : scanAuthorization f payload = .ok g) (clean : g.contradiction = none) :
    ∃ b, g = { f with binding := some b, authorized := true } := by
  unfold scanAuthorization at h
  split at h
  · cases h
    simp [AbstractFlags.contradict] at clean
  · split at h
    · cases h
    · cases h
      exact ⟨_,rfl⟩

theorem scanProgress_clean (clean : (scanProgress f payload).contradiction = none) :
    2 ≤ payload.length ∧ ∃ c, ProgressCode.ofCode (leNat (slice payload 0 2)) = some c ∧
      scanProgress f payload = f.progress c := by
  unfold scanProgress at clean ⊢
  split at clean
  · simp [AbstractFlags.contradict] at clean
  · next long =>
    split at clean
    · next c known => exact ⟨by omega,c,known,by simp [long]⟩
    · simp [AbstractFlags.contradict] at clean

theorem scanRecord_scanned {f g : AbstractFlags} {r : Record} (h : scanRecord f r = .ok g)
    (clean : g.contradiction = none) : Scanned [r] f g := by
  unfold scanRecord at h
  rcases type : r.type with _ | _ | _ | _ | _ | _ | _ | _ | _ | _ <;> rw [type] at h <;> dsimp only at h
  case authorization =>
    obtain ⟨b,rfl⟩ := scanAuthorization_ok h clean
    constructor <;> simp [has,reached,confirmations,progressOf,type]
  case progress =>
    cases h
    obtain ⟨long,c,known,shape⟩ := scanProgress_clean clean
    rw [shape]
    cases c <;> constructor <;>
      simp [has,reached,confirmations,progressOf,type,long,known,AbstractFlags.progress]
  all_goals
    cases h
    constructor <;> simp [has,reached,confirmations,progressOf,type]

theorem scanRecords_scanned {f g : AbstractFlags}
    (h : scanRecords rs f = .ok g) (clean : g.contradiction = none) : Scanned rs f g := by
  induction rs generalizing f with
  | nil =>
    cases h
    exact Scanned.refl _
  | cons r rs ih =>
    unfold scanRecords at h
    split at h
    · cases h
      simp [AbstractFlags.contradict] at clean
    · split at h
      · cases h
      · next m step =>
        split at h
        · next stopped =>
          cases h
          simp [clean] at stopped
        · next on =>
          have one := scanRecord_scanned step (by simpa using on)
          have same : Scanned [r] f m := ⟨one.1,one.2,one.3,one.4,one.5,one.6,one.7,one.8,one.9⟩
          exact same.trans (ih h)

/-- The order the scan insists on: each stage only with the ones before it. -/
structure Stepped (f : AbstractFlags) : Prop where
  prepared : f.prepared = true → f.contentReceived = true
  verified : f.contentVerified = true → f.prepared = true ∧ f.contentReceived = true
  started : f.publicationStarted = true → f.authorized = true ∧ f.contentVerified = true

theorem checks_clean (clean : (checkStarted (checkVerified (checkPrepared (checkPlanDigest f)))).contradiction = none) :
    checkStarted (checkVerified (checkPrepared (checkPlanDigest f))) = f ∧ Stepped f := by
  have passed {bad : Prop} [Decidable bad] {g : AbstractFlags} {m : String}
      (clean : (if bad then g.contradict m else g).contradiction = none) :
      (if bad then g.contradict m else g) = g ∧ ¬bad := by
    split at clean
    · simp [AbstractFlags.contradict] at clean
    · next fine => exact ⟨if_neg fine,fine⟩
  obtain ⟨e1,s⟩ := passed clean
  rw [checkStarted,e1] at clean ⊢
  obtain ⟨e2,v⟩ := passed clean
  rw [checkVerified,e2] at clean s ⊢
  obtain ⟨e3,p⟩ := passed clean
  rw [checkPrepared,e3] at clean s v ⊢
  obtain ⟨e4,-⟩ := passed clean
  rw [checkPlanDigest,e4] at s v p ⊢
  exact ⟨rfl,by simpa using p,by simpa using v,by simpa using s⟩

theorem scanPrefix_scanned (h : scanPrefix rs = .ok f) (clean : f.contradiction = none) : Scanned rs {} f ∧ Stepped f := by
  unfold scanPrefix at h
  split at h
  · cases h
  · next g loop =>
    split at h
    · next stopped =>
      cases h
      simp [clean] at stopped
    · next on =>
      cases h
      obtain ⟨same,stepped⟩ := checks_clean clean
      rw [same]
      exact ⟨scanRecords_scanned loop (by simpa using on),stepped⟩

/-- The records a publication rests on. -/
structure Backed (rs : List Record) : Prop where
  authorized : has .authorization rs = true
  contentReceived : reached .contentReceived rs = true
  prepared : reached .prepared rs = true
  verified : reached .verified rs = true

theorem Scanned.backed (h : Scanned rs {} f) (chained : f.chained = true) : Backed rs := by
  simp only [AbstractFlags.chained,Bool.and_eq_true,h.authorized,h.prepared,h.contentVerified,
    h.contentReceived,Bool.false_or] at chained
  exact ⟨chained.1.1.1,chained.2,chained.1.1.2,chained.1.2⟩

/-! Safety. -/

def Call.isConfirmation : Call → Bool
  | .appendConfirmation _ => true
  | _ => false

def Call.isStaging : Call → Bool
  | .cleanupStaging => true
  | .quarantineStaging => true
  | _ => false

def Outcome.claimsPublication (out : Outcome) : Prop :=
  out.published = true ∨ out.state = some .published ∨ out.state = some .confirmed

/-- At any moment of a run: what is reported is backed, what was called was allowed. -/
structure Honest (prior : Prefix) (obs : FSObservation) (policy : Policy) (s : Recovering) : Prop where
  publication : s.out.claimsPublication → linearized obs = true ∧ Backed prior.records
  once : s.calls.countP (·.1.isConfirmation) ≤ 1
  confirmation : ∀ c ∈ s.calls, c.1.isConfirmation = true →
    policy.allowConfirm = true ∧ confirmations prior.records = 0 ∧ linearized obs = true
  staging : ∀ c ∈ s.calls, c.1.isStaging = true →
    policy.allowStagingCleanup = true ∧ linearized obs = false

section safety

variable {ι : Type} {adapter : PersistIO ι} {prior : Prefix} {obs : FSObservation} {policy : Policy}
  {io : Bool} {f : AbstractFlags} {s : Recovering}

variable {I : Recovering → Prop} {c : Call}

theorem keeps_call {wrap : ι → Failure ι} (step : ∀ s took, I s → I (s.called c took)) : Keeps adapter I (call wrap c) :=
  fun s inv => wp_call (step s true inv) (fun _ took => step s took inv) fun took => step s took inv

theorem keeps_setOut {g : Outcome → Outcome} (step : ∀ s, I s → I { s with out := g s.out }) : Keeps adapter I (setOut g) :=
  Keeps.modify step

theorem honest_start : Honest prior obs policy {} := ⟨by simp [Outcome.claimsPublication],by simp,by simp,by simp⟩

theorem Honest.setOut (h : Honest prior obs policy s) {out : Outcome}
    (claims : out.claimsPublication → linearized obs = true ∧ Backed prior.records) :
    Honest prior obs policy { s with out } :=
  ⟨claims,h.once,h.confirmation,h.staging⟩

theorem Honest.called (h : Honest prior obs policy s) (took : Bool) (quiet : c.isConfirmation = false)
    (staging : c.isStaging = true → policy.allowStagingCleanup = true ∧ linearized obs = false) :
    Honest prior obs policy (s.called c took) where
  publication := h.publication
  once := by simpa [Recovering.called,List.countP_append,quiet] using h.once
  confirmation x hx isConf := by
    rcases List.mem_append.mp hx with old | new
    · exact h.confirmation x old isConf
    · obtain rfl := List.mem_singleton.mp new
      simp [quiet] at isConf
  staging x hx isStaging := by
    rcases List.mem_append.mp hx with old | new
    · exact h.staging x old isStaging
    · obtain rfl := List.mem_singleton.mp new
      exact staging isStaging

theorem keeps_checkpoint (label : CrashLabel) : Keeps adapter (Honest prior obs policy) (checkpoint label) :=
  keeps_call fun _ took h => h.called took rfl (by simp [Call.isStaging])

theorem keeps_act (kind : ActionKind) (label : Option CrashLabel) :
    Keeps adapter (Honest prior obs policy) (act kind label) :=
  keeps_setOut fun _ h => h.setOut h.publication

theorem keeps_tidying (unpublished : linearized obs = false) :
    Keeps adapter (Honest prior obs policy) (maybeCleanup policy io obs) ∧
      Keeps adapter (Honest prior obs policy) (maybeQuarantine policy io obs) := by
  constructor
  all_goals
    intro s h
    simp only [maybeCleanup,maybeQuarantine]
    rw [wp_when]
    refine ⟨fun allowed => ?_,fun _ => h⟩
    exact ((keeps_checkpoint _).bind fun _ =>
      (keeps_call fun _ took h => h.called took rfl fun _ => ⟨allowed.1,unpublished⟩).bind fun _ =>
      (keeps_act _ _).bind fun _ => (keeps_checkpoint _).bind fun _ => keeps_act _ _) s h

theorem keeps_settled {state : State} (quiet : state = .published ∨ state = .confirmed →
    linearized obs = true ∧ Backed prior.records) :
    Keeps adapter (Honest prior obs policy) (settled state) := by
  refine keeps_setOut fun s h => h.setOut ?_
  rintro (published | isPublished | isConfirmed)
  · exact h.publication (.inl published)
  · exact quiet (.inl (Option.some.inj isPublished))
  · exact quiet (.inr (Option.some.inj isConfirmed))

theorem keeps_irrecoverable (e : Error) : Keeps adapter (Honest prior obs policy) (irrecoverable e) :=
  (keeps_settled (by simp)).bind fun _ => Keeps.throw _

/-- Nothing has been confirmed in this run yet. -/
def Unconfirmed (s : Recovering) : Prop := ∀ c ∈ s.calls, c.1.isConfirmation = false

theorem unconfirmed_called (h : Unconfirmed s) (took : Bool) (quiet : c.isConfirmation = false) :
    Unconfirmed (s.called c took) := by
  intro x hx
  rcases List.mem_append.mp hx with old | new
  · exact h x old
  · obtain rfl := List.mem_singleton.mp new
    exact quiet

/-- A run of `m` stays honest if nothing was confirmed before it. -/
abbrev KeepsFirst (adapter : PersistIO ι) (prior : Prefix) (obs : FSObservation) (policy : Policy) (m : Op ι α) : Prop :=
  ∀ s, Honest prior obs policy s → Unconfirmed s →
    wp m adapter s (fun _ => Honest prior obs policy) (fun _ => Honest prior obs policy) (Honest prior obs policy)

theorem confirmOnce_wp (txid : TransactionID) (allowed : policy.allowConfirm = true)
    (fresh : confirmations prior.records = 0) (published : linearized obs = true) :
    KeepsFirst adapter prior obs policy (confirmOnce txid) := by
  intro s h none_
  have quiet : Keeps adapter (fun s => Honest prior obs policy s ∧ Unconfirmed s) (checkpoint .confirmPre) :=
    keeps_call fun _ took h => ⟨h.1.called took rfl (by simp [Call.isStaging]),unconfirmed_called h.2 took rfl⟩
  have append : ∀ t took, Honest prior obs policy t → Unconfirmed t →
      Honest prior obs policy (t.called (.appendConfirmation txid) took) := by
    intro t took h none_
    have zero : t.calls.countP (·.1.isConfirmation) = 0 := List.countP_eq_zero.mpr fun c hc => by simp [none_ c hc]
    refine ⟨h.publication,?_,?_,?_⟩
    · rw [Recovering.called,List.countP_append,zero,Nat.zero_add]
      exact List.countP_le_length
    · exact fun _ _ _ => ⟨allowed,fresh,published⟩
    · intro x hx isStaging
      rcases List.mem_append.mp hx with old | new
      · exact h.staging x old isStaging
      · obtain rfl := List.mem_singleton.mp new
        simp [Call.isStaging] at isStaging
  unfold confirmOnce
  rw [wp_bind]
  refine (quiet s ⟨h,none_⟩).stops ?_ (fun _ h => h.1)
  rintro _ t ⟨h,none_⟩
  rw [wp_bind]
  refine wp_call ?_ (fun _ took => append t took h none_) fun took => append t took h none_
  exact ((keeps_checkpoint _).bind fun _ => keeps_act _ _) _ (append t true h none_)

theorem recoverPublished_wp (published : linearized obs = true) (backed : Backed prior.records)
    (fresh : confirmations prior.records = 0) : KeepsFirst adapter prior obs policy (recoverPublished policy io f) := by
  intro s h none_
  have anything : ∀ g, Keeps adapter (Honest prior obs policy) (setOut g) :=
    fun g => keeps_setOut fun _ h => h.setOut fun _ => ⟨published,backed⟩
  have reported : Honest prior obs policy { s with out := { s.out with state := some .published } } :=
    h.setOut fun _ => ⟨published,backed⟩
  unfold recoverPublished
  rw [wp_bind,setOut,wp_modify,wp_bind,wp_when]
  refine ⟨fun allowed => ?_,fun _ => anything _ _ reported⟩
  rw [wp_bind]
  refine (confirmOnce_wp f.txid allowed.1 fresh published _ reported none_).imp ?_
  exact fun _ t h => (anything _ t h).imp (fun _ u h => anything _ u h)

/-- What the flags know once publication is settled by the observation. -/
structure Observed (prior : Prefix) (obs : FSObservation) (f : AbstractFlags) : Prop where
  published : f.published = linearized obs
  started : linearized obs = true → f.publicationStarted = true
  backed : linearized obs = true → Backed prior.records
  count : f.confirmationCount = confirmations prior.records
  once : f.confirmationCount ≤ 1

theorem recoverOpen_wp (seen : Observed prior obs f) :
    KeepsFirst adapter prior obs policy (recoverOpen obs policy io f) := by
  intro s h none_
  have unpublished : f.published = false → linearized obs = false := fun no => seen.published ▸ no
  unfold recoverOpen
  split
  · split
    · next yes =>
      have linear : linearized obs = true := seen.published ▸ yes
      exact keeps_settled (fun _ => ⟨linear,seen.backed linear⟩) s h
    · exact keeps_irrecoverable _ s h
  · next fresh =>
    have none' : confirmations prior.records = 0 := by
      have := seen.once
      have := seen.count
      omega
    split
    · next branch =>
      simp only [Bool.and_eq_true,Bool.not_eq_true'] at branch
      exact ((keeps_tidying (unpublished branch.2)).1.bind fun _ => keeps_settled (by simp)) s h
    · split
      · next branch =>
        simp only [Bool.and_eq_true,Bool.not_eq_true'] at branch
        exact ((keeps_tidying (unpublished branch.2)).2.bind fun _ => keeps_settled (by simp)) s h
      · split
        · next yes =>
          have linear : linearized obs = true := seen.published ▸ yes
          exact recoverPublished_wp linear (seen.backed linear) none' s h none_
        · next no =>
          have no' : f.published = false := by simpa using no
          refine ((keeps_tidying (unpublished no')).2.bind fun _ =>
            (keeps_settled (by simp)).bind fun _ => keeps_setOut fun t h => h.setOut ?_) s h
          rintro (published | state)
          · simp at published
          · exact h.publication (.inr state)

theorem stateFromFlags_claims (seen : Observed prior obs f)
    (claims : stateFromFlags f = .published ∨ stateFromFlags f = .confirmed) : linearized obs = true := by
  rw [← seen.published]
  unfold stateFromFlags at claims
  split at claims
  · next confirmed => simp at confirmed; exact confirmed.2
  · split at claims
    · simp at claims
    · split at claims
      · simp at claims
      · split at claims
        · assumption
        · simp at claims

theorem recoverObserved_wp (seen : Observed prior obs f) :
    KeepsFirst adapter prior obs policy (recoverObserved prior obs policy io f) := by
  intro s h none_
  have noted : Honest prior obs policy { s with out := { s.out with published := f.published } } := by
    refine h.setOut ?_
    rintro (published | state)
    · have linear : linearized obs = true := seen.published ▸ published
      exact ⟨linear,seen.backed linear⟩
    · exact h.publication (.inr state)
  unfold recoverObserved
  rw [wp_bind,setOut,wp_modify]
  split
  · refine keeps_setOut (fun t h => h.setOut ?_) _ noted
    rintro (published | state)
    · exact h.publication (.inl published)
    · simp at state
  · split
    · refine ((keeps_settled fun claims => ?_).bind fun _ => keeps_setOut fun t h => h.setOut h.publication) _ noted
      have linear := stateFromFlags_claims seen claims
      exact ⟨linear,seen.backed linear⟩
    · rw [wp_bind,act,setOut,wp_modify,wp_bind,setOut,wp_modify]
      refine recoverOpen_wp seen _ ?_ none_
      refine noted.setOut ?_
      rintro (published | state)
      · exact noted.publication (.inl published)
      · simp at state

theorem observed_flags (scanned : Scanned prior.records {} f) (once : ¬ 1 < f.confirmationCount)
    (chained : (linearized obs && !f.chained) = false) : Observed prior obs (f.observed obs) := by
  have count := scanned.confirmationCount
  have unpublished : f.published = false := scanned.published
  by_cases linear : linearized obs = true
  · simp only [linear,Bool.true_and,Bool.not_eq_false'] at chained
    refine ⟨?_,?_,fun _ => scanned.backed chained,?_,?_⟩
    all_goals simp [AbstractFlags.observed,linear]
    · simpa using count
    · omega
  · refine ⟨?_,fun h => absurd h linear,fun h => absurd h linear,?_,?_⟩
    all_goals simp [AbstractFlags.observed,linear]
    · exact unpublished
    · simpa using count
    · omega

/-- The scan and the checks before the decision let the prefix pass. -/
structure Accepted (prior : Prefix) (obs : FSObservation) (f : AbstractFlags) : Prop where
  scan : scanPrefix prior.records = .ok f
  clean : f.contradiction = none
  identity : identityMismatch f obs = false
  once : f.confirmationCount ≤ 1
  chained : linearized obs = true → f.chained = true

theorem Accepted.scanned (h : Accepted prior obs f) : Scanned prior.records {} f := (scanPrefix_scanned h.scan h.clean).1

theorem Accepted.passes (h : Accepted prior obs f) : (linearized obs && !f.chained) = false := by
  cases linear : linearized obs with
  | true => simp [h.chained linear]
  | false => rfl

theorem Accepted.observed (h : Accepted prior obs f) : Observed prior obs (f.observed obs) :=
  observed_flags h.scanned (Nat.not_lt.mpr h.once) h.passes

/-- The outcome as the decision starts. -/
def begun (prior : Prefix) (f : AbstractFlags) : Recovering where
  out := { tornTail := prior.torn, transactionID := f.txid, authorized := f.authorized
           confirmations := f.confirmationCount, binding := f.binding }

/-- The body refuses a prefix, or decides about one that is accepted. -/
theorem recoverBody_rule {Q : Unit → Recovering → Prop} {E : Failure ι → Recovering → Prop} {C : Recovering → Prop}
    (unread : ∀ e, E (.own e none) {}) (refused : ∀ e f, wp (irrecoverable e) adapter (begun prior f) Q E C)
    (decided : ∀ f, Accepted prior obs f →
      wp (recoverObserved prior obs policy io (f.observed obs)) adapter (begun prior f) Q E C) :
    wp (recoverBody prior obs policy io) adapter {} Q E C := by
  unfold recoverBody
  split
  · exact unread _
  · next f scan =>
    unfold recoverScanned
    rw [wp_bind,setOut,wp_modify]
    split
    · exact refused _ f
    · next identity =>
      split
      · exact refused _ f
      · next clean =>
        split
        · exact refused _ f
        · next once =>
          split
          · exact refused _ f
          · next chained =>
            exact decided f ⟨scan,clean,by simpa using identity,Nat.not_lt.mp once,by simpa using chained⟩

theorem recoverBody_honest : wp (recoverBody prior obs policy io) adapter {} (fun _ => Honest prior obs policy)
      (fun _ => Honest prior obs policy) (Honest prior obs policy) := by
  have started (f : AbstractFlags) : Honest prior obs policy (begun prior f) :=
    honest_start.setOut (by simp [Outcome.claimsPublication])
  refine recoverBody_rule (fun _ => honest_start) (fun e f => keeps_irrecoverable e _ (started f)) ?_
  exact fun f accepted => recoverObserved_wp accepted.observed _ (started f) (by simp [Unconfirmed,begun])

end safety

/-! A decided error comes before any effect. -/

def Failure.fromIO : Failure ι → Bool
  | .own e _ => e.kind = .io
  | .checkpoint _ => true

section refusals

variable {ι : Type} {adapter : PersistIO ι} {prior : Prefix} {obs : FSObservation} {policy : Policy}
  {io : Bool} {f : AbstractFlags} {s : Recovering}

/-- Only the adapter's errors come out. -/
def IoOnly (adapter : PersistIO ι) (m : Op ι α) : Prop :=
  ∀ s, wp m adapter s (fun _ _ => True) (fun e _ => e.fromIO = true) (fun _ => True)

variable {m : Op ι α}

theorem IoOnly.bind {g : α → Op ι β} (first : IoOnly adapter m)
    (rest : ∀ a, IoOnly adapter (g a)) : IoOnly adapter (m >>= g) := by
  intro s
  rw [wp_bind]
  exact (first s).imp (fun a t _ => rest a t)

theorem IoOnly.when {p : Prop} [Decidable p] {m : Op ι Unit} (h : IoOnly adapter m) : IoOnly adapter (Prog.when p m) :=
  fun s => wp_when.mpr ⟨fun _ => h s,fun _ => True.intro⟩

theorem ioOnly_setOut (g : Outcome → Outcome) : IoOnly adapter (setOut g) := fun _ => True.intro

theorem ioOnly_checkpoint (label : CrashLabel) : IoOnly adapter (checkpoint label) :=
  fun _ => wp_call True.intro (fun _ _ => rfl) fun _ => True.intro

theorem ioOnly_perform (label : CrashLabel) (c : Call) : IoOnly adapter (perform label c) :=
  fun _ => wp_call True.intro (fun _ _ => rfl) fun _ => True.intro

theorem ioOnly_tidying : IoOnly adapter (maybeCleanup policy io obs) ∧ IoOnly adapter (maybeQuarantine policy io obs) := by
  constructor <;> exact IoOnly.when ((ioOnly_checkpoint _).bind fun _ => (ioOnly_perform _ _).bind fun _ =>
    (ioOnly_setOut _).bind fun _ => (ioOnly_checkpoint _).bind fun _ => ioOnly_setOut _)

theorem ioOnly_recoverPublished : IoOnly adapter (recoverPublished policy io f) :=
  (ioOnly_setOut _).bind fun _ => (IoOnly.when (((ioOnly_checkpoint _).bind fun _ =>
    (ioOnly_perform _ _).bind fun _ => (ioOnly_checkpoint _).bind fun _ => ioOnly_setOut _).bind fun _ =>
      ioOnly_setOut _)).bind fun _ => ioOnly_setOut _

/-- From a state without calls, a decided error is reached without one. -/
def Refuses (adapter : PersistIO ι) (s : Recovering) (m : Op ι α) : Prop :=
  wp m adapter s (fun _ _ => True) (fun e t => e.fromIO = false → t.calls = []) (fun _ => True)

theorem IoOnly.refuses (h : IoOnly adapter m) (s : Recovering) : Refuses adapter s m :=
  (h s).ends (fun _ _ => id) (fun _ _ yes no => by simp [yes] at no)

theorem refuses_irrecoverable (untouched : s.calls = []) (e : Error) :
    Refuses adapter s (irrecoverable e) := fun _ => untouched

theorem refuses_recoverOpen (untouched : s.calls = []) : Refuses adapter s (recoverOpen obs policy io f) := by
  unfold recoverOpen
  split
  · split
    · exact (ioOnly_setOut _).refuses s
    · exact refuses_irrecoverable untouched _
  · split
    · exact (ioOnly_tidying.1.bind fun _ => ioOnly_setOut _).refuses s
    · split
      · exact (ioOnly_tidying.2.bind fun _ => ioOnly_setOut _).refuses s
      · split
        · exact ioOnly_recoverPublished.refuses s
        · exact (ioOnly_tidying.2.bind fun _ => (ioOnly_setOut _).bind fun _ => ioOnly_setOut _).refuses s

theorem refuses_recoverBody : Refuses adapter {} (recoverBody prior obs policy io) := by
  refine recoverBody_rule (fun _ _ => rfl) (fun e f => refuses_irrecoverable rfl e) fun f _ => ?_
  unfold recoverObserved
  rw [wp_bind,setOut,wp_modify]
  split
  · exact True.intro
  · split
    · exact True.intro
    · exact refuses_recoverOpen rfl

end refusals

theorem recover_honest (prior : Prefix) (obs : FSObservation) (policy : Policy) (io : Bool)
    (adapter : PersistIO ι) : ∃ out, Honest prior obs policy ⟨out,(recover prior obs policy io adapter).calls⟩ ∧
      ∀ r, (recover prior obs policy io adapter).report = some r → r.outcome = out := by
  have honest : wp (recoverBody prior obs policy io) adapter {} _ _ _ := recoverBody_honest
  unfold recover
  unfold wp at honest
  split at honest <;> next s run =>
    rw [run]
    exact ⟨s.out,honest,by simp⟩

/-- The records of a journal through any number of recoveries, each of which reads what is
there, and the confirmations they appended. In between others may append records of
other kinds. -/
inductive Recoveries : List Record → Nat → Prop
  | start (journal : List Record) : Recoveries journal 0
  | other {journal : List Record} {n : Nat} (rec : Record) (kind : rec.type ≠ .confirmation) :
      Recoveries journal n → Recoveries (journal ++ [rec]) n
  | run {journal : List Record} {n : Nat} {ι : Type} (prior : Prefix) (obs : FSObservation)
      (policy : Policy) (io : Bool) (adapter : PersistIO ι) (new : List Record)
      (read : prior.records = journal) (kind : ∀ rec ∈ new, rec.type = .confirmation)
      (wrote : new.length = (recover prior obs policy io adapter).calls.countP
        fun c => c.1.isConfirmation && c.2) :
      Recoveries journal n → Recoveries (journal ++ new) (n + new.length)

theorem recoveries_bound {journal : List Record} {n : Nat} (h : Recoveries journal n) :
    n ≤ 1 ∧ (n = 0 ∨ 0 < confirmations journal) := by
  induction h with
  | start => exact ⟨Nat.zero_le 1,.inl rfl⟩
  | other rec kind _ ih =>
    refine ⟨ih.1,ih.2.imp id fun some => ?_⟩
    simp only [confirmations,List.countP_append] at some ⊢
    omega
  | @run journal n ι prior obs policy io adapter new read kind wrote _ ih =>
    obtain ⟨out,honest,-⟩ := recover_honest prior obs policy io adapter
    have few : new.length ≤ 1 := by
      rw [wrote]
      exact (List.countP_mono_left fun c _ both => (Bool.and_eq_true_iff.mp both).1).trans honest.once
    by_cases wroteNone : new = []
    · subst wroteNone
      simpa using ih
    · have one : new.length = 1 := by
        have := List.length_pos_of_ne_nil wroteNone
        omega
      obtain ⟨c,hc,both⟩ := List.countP_pos_iff.mp (by rw [← wrote]; omega)
      have fresh := (honest.confirmation c hc (Bool.and_eq_true_iff.mp both).1).2.1
      rw [read] at fresh
      have zero : n = 0 := ih.2.resolve_right (by omega)
      have all : confirmations new = new.length := List.countP_eq_length.mpr fun r hr => by simp [kind r hr]
      refine ⟨by omega,.inr ?_⟩
      simp only [confirmations,List.countP_append] at all ⊢
      omega

/-- Recovery invents nothing. -/
theorem recover_invents_nothing (prior : Prefix) (obs : FSObservation) (policy : Policy) (io : Bool)
    (adapter : PersistIO ι) :
    (∀ r, (recover prior obs policy io adapter).report = some r → r.outcome.claimsPublication →
      obs.publicationLinearized = true ∧ obs.publishedContentMatches = true ∧ Backed prior.records) ∧
    (recover prior obs policy io adapter).calls.countP (·.1.isConfirmation) ≤ 1 ∧
    (∀ c ∈ (recover prior obs policy io adapter).calls, c.1.isConfirmation = true →
      policy.allowConfirm = true ∧ confirmations prior.records = 0) ∧
    (∀ c ∈ (recover prior obs policy io adapter).calls, c.1.isStaging = true →
      policy.allowStagingCleanup = true ∧
        ¬ (obs.publicationLinearized = true ∧ obs.publishedContentMatches = true)) ∧
    (∀ r e, (recover prior obs policy io adapter).report = some r → r.error = some e →
      e.fromIO = false → (recover prior obs policy io adapter).calls = []) ∧
    ∀ journal n, Recoveries journal n → n ≤ 1 := by
  obtain ⟨out,honest,reported⟩ := recover_honest prior obs policy io adapter
  refine ⟨?_,honest.once,fun c hc yes => ?_,?_,?_,fun _ _ h => (recoveries_bound h).1⟩
  · intro r report claims
    rw [reported r report] at claims
    obtain ⟨linear,backed⟩ := honest.publication claims
    have both := Bool.and_eq_true_iff.mp linear
    exact ⟨both.1,both.2,backed⟩
  · obtain ⟨allowed,fresh,-⟩ := honest.confirmation c hc yes
    exact ⟨allowed,fresh⟩
  · intro c hc isStaging
    obtain ⟨allowed,unpublished⟩ := honest.staging c hc isStaging
    exact ⟨allowed,by simpa [linearized] using unpublished⟩
  · intro r e report failed decided
    have refused : Refuses adapter {} (recoverBody prior obs policy io) := refuses_recoverBody
    unfold recover at report ⊢
    unfold Refuses wp at refused
    split at refused
    · next s run =>
      rw [run] at report
      cases report
      cases failed
    · next s run =>
      rw [run] at report ⊢
      cases report
      cases failed
      exact refused decided
    · next s run =>
      rw [run] at report
      cases report

/-! A transaction that reached `PUBLISHING`, as the samples read it. -/

def sampleID : TransactionID := .ofBytes 16 [1]

def sampleBinding : AuthorizationBinding where
  planDigest := .ofBytes 32 [2]
  configurationDigest := .ofBytes 32 [3]
  capabilityVectorDigest := .ofBytes 32 [4]
  rootIdentity := .ofBytes 32 [5]
  volumeIdentity := .ofBytes 32 [6]
  authDigest := .ofBytes 32 [7]

def planned : Item := ⟨sampleID,.planDigest,sampleBinding.planDigest.val⟩

def authorization : Item := ⟨sampleID,.authorization,encodeAuthorizationPayload sampleBinding⟩

def progressed (c : ProgressCode) : Item := ⟨sampleID,.progress,encodeProgressPayload c⟩

def samplePrefix (es : List Item) : Prefix where
  records := recordsOf 1 genesisCommitment es
  bytes := (bytesOf es).length
  headCommitment := headOf 1 genesisCommitment es
  nextSequence := es.length + 1
  torn := false
  tornOffset := 0

def publishingItems : List Item :=
  [planned,authorization,progressed .contentReceived,progressed .prepared,progressed .verified,
    progressed .publishing]

def sampleObservation : FSObservation where
  rootIdentity := sampleBinding.rootIdentity
  volumeIdentity := sampleBinding.volumeIdentity
  stagingPresent := true
  publicationStarted := true
  publicationLinearized := true
  publishedContentMatches := true

/-- An adapter whose calls all succeed. -/
def obliging : PersistIO Unit := ⟨fun _ _ => .done⟩

example : ((recover (samplePrefix publishingItems) sampleObservation { allowConfirm := true } true
    obliging).report.map fun r => (r.outcome.state,r.error)) = some (some .confirmed,none) := by
  decide +kernel

/-- A finished rename whose content does not match is not a publication to recovery: the
staging area is moved away. -/
theorem mismatched_publication_quarantined :
    (recover (samplePrefix publishingItems) { sampleObservation with publishedContentMatches := false }
      { allowStagingCleanup := true } true obliging).calls =
      [(.checkpoint .publishRename,true),(.quarantineStaging,true),(.checkpoint .publishDirSync,true)] := by
  decide +kernel

end Integris.Recovery
