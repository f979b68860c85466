import Integris.RecoveryDecision

/-! Recovery against the histories of the transaction model. The flags carry no order,
a cancellation is not held against a publication, and a confirmation without
publication is noticed only while recovery is open. The main result says exactly
which accepted prefixes keep recovery within the model. -/
namespace Integris.Recovery

open Codec Journal Prog

/-- The steps of a transaction that must precede its publication. -/
inductive Stage where
  | authorized | contentReceived | prepared | verified
  deriving DecidableEq, Repr

def Stage.index : Stage → Nat
  | authorized => 0
  | contentReceived => 1
  | prepared => 2
  | verified => 3

def stageOfProgress : ProgressCode → Option Stage
  | .contentReceived => some .contentReceived
  | .prepared => some .prepared
  | .verified => some .verified
  | .publishing => none

def stageOf (r : Record) : Option Stage :=
  if r.type = .authorization then some .authorized else (progressOf r).bind stageOfProgress

def stages (rs : List Record) : List Stage := rs.filterMap stageOf

/-- Each stage once, in the model's order. -/
def InOrder (rs : List Record) : Prop :=
  stages rs = [.authorized,.contentReceived,.prepared,.verified]

/-- What the transaction model allows a run without error to say. -/
structure ModelAllows (prior : Prefix) (calls : List (Call × Bool)) (out : Outcome) : Prop where
  confirmed : 0 < out.confirmations → out.published = true
  published : (out.state = some .published ∨ out.state = some .confirmed ∨
      ∃ c ∈ calls, c.1.isConfirmation = true) →
    has .cancellation prior.records = false ∧ InOrder prior.records

/-- A closed transaction is not confirmed as well, and a published one was not cancelled
and reached its stages one after another. -/
@[mk_iff] structure Coherent (prior : Prefix) (obs : FSObservation) : Prop where
  closed : linearized obs = false → confirmations prior.records = 1 → prior.torn = false →
    obs.stagingPresent = false → obs.publicationStarted = false →
    reached .publishing prior.records = false →
    has .cancellation prior.records = false ∧ has .quarantine prior.records = false
  published : linearized obs = true →
    has .cancellation prior.records = false ∧ (stages prior.records).Pairwise (·.index < ·.index)

variable {f : AbstractFlags} {obs : FSObservation} {prior : Prefix} {rs : List Record}

/-! Stages that appear, and stages in order. -/

theorem mem_stages {s : Stage} : s ∈ stages rs ↔ ∃ r ∈ rs, stageOf r = some s := by simp [stages]

theorem stageOf_progress {r : Record} {c : ProgressCode} (h : progressOf r = some c) : stageOf r = stageOfProgress c := by
  have type : r.type = .progress := by
    unfold progressOf at h
    split at h
    · next both => exact both.1
    · cases h
  simp [stageOf,type,h]

theorem Backed.all_stages (h : Backed rs) (s : Stage) : s ∈ stages rs := by
  have progress : ∀ c, reached c rs = true → ∀ s, stageOfProgress c = some s → s ∈ stages rs := by
    intro c there s stage
    obtain ⟨r,hr,code⟩ := List.any_eq_true.mp there
    exact mem_stages.mpr ⟨r,hr,(stageOf_progress (by simpa using code)).trans stage⟩
  cases s with
  | authorized =>
    obtain ⟨r,hr,type⟩ := List.any_eq_true.mp h.authorized
    exact mem_stages.mpr ⟨r,hr,by simp [stageOf,by simpa using type]⟩
  | contentReceived => exact progress _ h.contentReceived _ rfl
  | prepared => exact progress _ h.prepared _ rfl
  | verified => exact progress _ h.verified _ rfl

/-- A strictly increasing list of all stages is the list of the stages in order. -/
theorem inOrder_of_sorted (h : Backed rs) (sorted : (stages rs).Pairwise (·.index < ·.index)) : InOrder rs := by
  refine List.Perm.eq_of_pairwise (fun a b _ _ ab ba => absurd ab (Nat.lt_asymm ba)) sorted (by simp [Stage.index]) ?_
  refine (List.perm_ext_iff_of_nodup (sorted.imp fun lt same => ?_) (by decide)).mpr fun s => ?_
  · simp [same] at lt
  · refine ⟨fun _ => ?_,fun _ => h.all_stages s⟩
    cases s <;> simp

theorem InOrder.sorted (h : InOrder rs) : (stages rs).Pairwise (·.index < ·.index) := by
  rw [h]
  simp [Stage.index]

section decision

variable {ι : Type} {adapter : PersistIO ι} {prior : Prefix} {obs : FSObservation} {policy : Policy}
  {io : Bool} {f : AbstractFlags} {s : Recovering}

/-- What a run without error has reported. -/
structure Reported (prior : Prefix) (obs : FSObservation) (f : AbstractFlags) (out : Outcome) : Prop where
  published : out.published = linearized obs
  confirmations : linearized obs = false → out.confirmations = f.confirmationCount
  settled : linearized obs = false → f.confirmationCount = 1 →
    needsRecovery prior obs f = false ∧ terminalFromFlags f = true

/-- Effects and actions leave the rest of the outcome alone. -/
def SameReport (out : Outcome) (s : Recovering) : Prop :=
  s.out.published = out.published ∧ s.out.confirmations = out.confirmations

variable {out : Outcome}

theorem keeps_sameReport_act (kind : ActionKind) (label : Option CrashLabel) :
    Keeps adapter (SameReport out) (act kind label) := keeps_setOut fun _ h => h

theorem keeps_sameReport_call {wrap : ι → Failure ι} {c : Call} :
    Keeps adapter (SameReport out) (call wrap c) := keeps_call fun _ _ h => h

theorem keeps_sameReport_tidying : Keeps adapter (SameReport out) (maybeCleanup policy io obs) ∧
    Keeps adapter (SameReport out) (maybeQuarantine policy io obs) := by
  constructor <;> exact Keeps.when (keeps_sameReport_call.bind fun _ => keeps_sameReport_call.bind fun _ =>
    (keeps_sameReport_act _ _).bind fun _ => keeps_sameReport_call.bind fun _ => keeps_sameReport_act _ _)

theorem keeps_sameReport_settled (state : State) :
    Keeps adapter (SameReport out) (settled state) := keeps_setOut fun _ h => h

theorem recoverPublished_reported (h : SameReport out s) :
    wlp (recoverPublished policy io f) adapter s fun _ t => t.out.published = out.published := by
  have keeps : Keeps adapter (fun t : Recovering => t.out.published = out.published) (recoverPublished policy io f) :=
    (keeps_setOut fun _ h => h).bind fun _ => (Keeps.when (Keeps.bind
      ((keeps_call fun _ _ h => h).bind fun _ => (keeps_call fun _ _ h => h).bind fun _ =>
        (keeps_call fun _ _ h => h).bind fun _ => keeps_setOut fun _ h => h)
      fun _ => keeps_setOut fun _ h => h)).bind fun _ => keeps_setOut fun _ h => h
  exact (keeps s h.1).imp (fun _ _ => id)

theorem recoverOpen_reported (seen : Observed prior obs f) (out : Outcome) (h : SameReport out s)
    (published : out.published = linearized obs) (count : out.confirmations = f.confirmationCount) :
    wlp (recoverOpen obs policy io f) adapter s fun _ t => Reported prior obs f t.out := by
  have quiet : ∀ {m : Op ι Unit}, Keeps adapter (SameReport out) m → f.confirmationCount ≠ 1 →
      wlp m adapter s fun _ t => Reported prior obs f t.out :=
    fun keeps fresh => (keeps s h).imp (fun _ _ same => ⟨same.1.trans published,fun _ =>
      same.2.trans count,fun _ one => absurd one fresh⟩)
  unfold recoverOpen
  split
  · split
    · next yes =>
      have linear : linearized obs = true := seen.published ▸ yes
      exact ⟨h.1.trans published,by simp [linear],by simp [linear]⟩
    · exact True.intro
  · next fresh =>
    split
    · exact quiet (keeps_sameReport_tidying.1.bind fun _ => keeps_sameReport_settled _) fresh
    · split
      · exact quiet (keeps_sameReport_tidying.2.bind fun _ => keeps_sameReport_settled _) fresh
      · split
        · next yes =>
          have linear : linearized obs = true := seen.published ▸ yes
          exact (recoverPublished_reported h).imp (fun _ t same => ⟨same.trans published,
            by simp [linear],by simp [linear]⟩)
        · next no =>
          have unpublished : out.published = false := by
            rw [published,← seen.published]
            simpa using no
          exact quiet (keeps_sameReport_tidying.2.bind fun _ => (keeps_sameReport_settled _).bind
            fun _ => keeps_setOut fun _ h => ⟨unpublished.symm,h.2⟩) fresh

theorem recoverObserved_reported (seen : Observed prior obs f) (count : s.out.confirmations = f.confirmationCount) :
    wlp (recoverObserved prior obs policy io f) adapter s fun _ t => Reported prior obs f t.out := by
  unfold wlp recoverObserved
  rw [wp_bind,setOut,wp_modify]
  split
  · next nothing =>
    -- an empty prefix counts no confirmation
    have empty : prior.records = [] := by
      simp only [nothingDurable,Bool.and_eq_true,List.isEmpty_iff] at nothing
      exact nothing.1.1.1.1
    have zero : f.confirmationCount = 0 := by rw [seen.count,empty]; rfl
    exact ⟨seen.published,fun _ => count,fun _ one => by omega⟩
  · split
    · next done =>
      simp only [Bool.and_eq_true,Bool.not_eq_true'] at done
      exact ⟨seen.published,fun _ => count,fun _ _ => done⟩
    · rw [wp_bind,act,setOut,wp_modify,wp_bind,setOut,wp_modify]
      exact recoverOpen_reported seen { s.out with published := f.published } ⟨rfl,rfl⟩
        seen.published count

theorem recoverBody_reported : wlp (recoverBody prior obs policy io) adapter {}
      (fun _ t => ∃ f, Accepted prior obs f ∧ Reported prior obs (f.observed obs) t.out) := by
  refine recoverBody_rule (fun _ => True.intro) (fun _ _ => True.intro) fun f accepted => ?_
  exact (recoverObserved_reported accepted.observed (f.observed_count obs).symm).imp (fun _ t h => ⟨f,accepted,h⟩)

theorem recover_reported (h : (recover prior obs policy io adapter).report = some ⟨out,none⟩) :
    ∃ f, Accepted prior obs f ∧ Reported prior obs (f.observed obs) out := by
  have reported : wp (recoverBody prior obs policy io) adapter {} _ _ _ := recoverBody_reported
  unfold recover at h
  unfold wp at reported
  split at reported
  · next t run =>
    rw [run] at h
    cases h
    exact reported
  · next t run =>
    rw [run] at h
    cases h
  · next t run =>
    rw [run] at h
    cases h

theorem recover_returns (policy : Policy) (io : Bool) (adapter : PersistIO ι) {P : Outcome → Prop}
    (h : wp (recoverBody prior obs policy io) adapter {} (fun _ t => P t.out) (fun _ _ => False) (fun _ => False)) :
    ∃ out, (recover prior obs policy io adapter).report = some ⟨out,none⟩ ∧ P out := by
  obtain ⟨_,t,run,held⟩ := h.returns
  exact ⟨t.out,by rw [recover,run],held⟩

theorem closed_reported (seen : Observed prior obs f) (one : f.confirmationCount = 1)
    (done : needsRecovery prior obs f = false ∧ terminalFromFlags f = true)
    (count : s.out.confirmations = f.confirmationCount) :
    wp (recoverObserved prior obs policy io f) adapter s
      (fun _ t => t.out.confirmations = 1 ∧ t.out.published = f.published) (fun _ _ => False)
      (fun _ => False) := by
  have durable : ¬ nothingDurable prior obs = true := by
    intro nothing
    simp only [nothingDurable,Bool.and_eq_true,List.isEmpty_iff] at nothing
    have zero := seen.count
    rw [nothing.1.1.1.1,one] at zero
    cases zero
  unfold recoverObserved
  rw [wp_bind,setOut,wp_modify,if_neg durable,if_pos (by simp [done])]
  exact ⟨count.trans one,rfl⟩

theorem published_reported (seen : Observed prior obs f) (linear : linearized obs = true) (works : adapter.Obliging) :
    wp (recoverObserved prior obs policy false f) adapter s
      (fun _ t => t.out.state = some .published ∨ t.out.state = some .confirmed) (fun _ _ => False)
      (fun _ => False) := by
  have durable : nothingDurable prior obs = false := by simp [nothingDurable,(Bool.and_eq_true_iff.mp linear).1]
  have decided : decision prior obs {} f = _ :=
    decision_published (seen.published.trans linear) (seen.started linear) durable
  rw [recoverObserved_idle]
  refine (recoverObserved_decides works).ends ?_ (fun _ _ none_ => by simp [decided] at none_)
  rintro _ t ⟨x,same,state,-⟩
  rw [state]
  obtain rfl := Option.some.inj (decided.symm.trans same)
  by_cases one : f.confirmationCount = 1
  · exact .inr (by rw [if_pos one])
  · exact .inl (by rw [if_neg one]; rfl)

end decision

/-- Recovery stays within the transaction model, for every policy and adapter, exactly on
the accepted prefixes that are coherent with the observation. -/
theorem recover_within_model_iff (ι : Type) (prior : Prefix) (obs : FSObservation) :
    (∀ policy io (adapter : PersistIO ι) out,
      (recover prior obs policy io adapter).report = some ⟨out,none⟩ →
      ModelAllows prior (recover prior obs policy io adapter).calls out) ↔
    ((∃ f, Accepted prior obs f) → Coherent prior obs) := by
  constructor
  · rintro allowed ⟨f,accepted⟩
    have seen := accepted.observed
    have scanned := accepted.scanned
    let adapter : PersistIO ι := ⟨fun _ _ => .done⟩
    constructor
    · intro unlinear one whole unstaged unstarted unpublishing
      have count : (f.observed obs).confirmationCount = 1 := seen.count.trans one
      have started : (f.observed obs).publicationStarted = false := by
        simp [AbstractFlags.observed,unlinear,unstarted,scanned.publicationStarted,unpublishing]
      have unpublished : (f.observed obs).published = false := seen.published.trans unlinear
      have cancelled : (f.observed obs).cancelled = has .cancellation prior.records := by
        simp [scanned.cancelled]
      have quarantined : (f.observed obs).quarantined = has .quarantine prior.records := by
        simp [scanned.quarantined]
      rw [← Bool.or_eq_false_iff,← Bool.not_eq_true]
      intro closed
      have terminal : terminalFromFlags (f.observed obs) = true := by
        simp only [terminalFromFlags,started,unpublished,cancelled,quarantined]
        simpa using closed
      have done : needsRecovery prior obs (f.observed obs) = false := by
        simp [needsRecovery,terminal,whole,unstaged,started]
      obtain ⟨out,report,counted,published⟩ := recover_returns {} false adapter
        (P := fun out => out.confirmations = 1 ∧ out.published = (f.observed obs).published)
        ((recoverBody_accepted accepted).mpr (closed_reported (s := begun prior f) seen count
          ⟨done,terminal⟩ (f.observed_count obs).symm))
      have := (allowed _ _ _ out report).confirmed (by omega)
      rw [published,unpublished] at this
      cases this
    · intro linear
      obtain ⟨out,report,state⟩ := recover_returns {} false adapter
        (P := fun out => out.state = some .published ∨ out.state = some .confirmed)
        ((recoverBody_accepted accepted).mpr (published_reported seen linear fun _ _ => rfl))
      obtain ⟨uncancelled,order⟩ := (allowed _ _ _ out report).published (state.imp id .inl)
      exact ⟨uncancelled,order.sorted⟩
  · intro coherent policy io adapter out report
    obtain ⟨f,accepted,reported⟩ := recover_reported report
    obtain ⟨final,honest,same⟩ := recover_honest prior obs policy io adapter
    obtain rfl := same _ report
    have held := coherent ⟨f,accepted⟩
    constructor
    · intro counted
      rw [reported.published]
      by_contra unlinear
      rw [Bool.not_eq_true] at unlinear
      have count : (f.observed obs).confirmationCount = 1 := by
        have := reported.confirmations unlinear
        have := accepted.observed.once
        omega
      obtain ⟨done,terminal⟩ := reported.settled unlinear count
      have scanned := accepted.scanned
      have unpublished : (f.observed obs).published = false := accepted.observed.published.trans unlinear
      simp only [needsRecovery,terminal,unpublished,Bool.not_true,Bool.false_or,Bool.not_false,
        Bool.and_true,Bool.or_eq_false_iff] at done
      have started := done.2
      simp only [AbstractFlags.observed,unlinear,Bool.false_eq_true,if_false,Bool.or_eq_false_iff,
        scanned.publicationStarted,Bool.false_or] at started
      obtain ⟨uncancelled,unquarantined⟩ := held.closed unlinear (accepted.observed.count ▸ count)
        done.1.1 done.1.2 started.2 started.1
      simp [terminalFromFlags,unpublished,scanned.cancelled,scanned.quarantined,uncancelled,
        unquarantined] at terminal
    · intro claims
      have linear : linearized obs = true := by
        rcases claims with published | confirmed | ⟨c,hc,appended⟩
        · exact (honest.publication (.inr (.inl published))).1
        · exact (honest.publication (.inr (.inr confirmed))).1
        · exact (honest.confirmation c hc appended).2.2
      obtain ⟨uncancelled,sorted⟩ := held.published linear
      exact ⟨uncancelled,inOrder_of_sorted (accepted.observed.backed linear) sorted⟩

/-- What an error-free run reports of a sample prefix. -/
def sampleReport (es : List Item) (obs : FSObservation) : Option (Option State × Bool × Nat) :=
  match (recover (samplePrefix es) obs {} false obliging).report with
  | some ⟨out,none⟩ => some (out.state,out.published,out.confirmations)
  | _ => none

def quietObservation : FSObservation :=
  { sampleObservation with stagingPresent := false, publicationStarted := false,
                           publicationLinearized := false }

/-- Three histories no run of the model has: a cancelled transaction with a confirmation, a
published one with a cancellation, and stages recorded back to front. -/
theorem impossible_histories_accepted :
    sampleReport [⟨sampleID,.confirmation,[]⟩,⟨sampleID,.cancellation,[]⟩] quietObservation =
      some (some .cancelled,false,1) ∧
    sampleReport (publishingItems ++ [⟨sampleID,.cancellation,[]⟩]) sampleObservation =
      some (some .published,true,0) ∧
    sampleReport publishingItems.reverse sampleObservation = some (some .published,true,0) := by
  decide +kernel

instance (prior : Prefix) (obs : FSObservation) : Decidable (Coherent prior obs) :=
  decidable_of_iff _ (coherent_iff prior obs).symm

theorem recover_within_model_sample :
    sampleReport publishingItems sampleObservation = some (some .published,true,0) ∧
    ∀ policy io (adapter : PersistIO Unit) out,
      (recover (samplePrefix publishingItems) sampleObservation policy io adapter).report =
        some ⟨out,none⟩ →
      ModelAllows (samplePrefix publishingItems)
        (recover (samplePrefix publishingItems) sampleObservation policy io adapter).calls out :=
  ⟨by decide +kernel,(recover_within_model_iff Unit _ _).mpr fun _ => by decide +kernel⟩

end Integris.Recovery
