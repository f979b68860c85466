import Integris.RecoverySafety

/-! The decision of a recovery. Past the scan and the checks, and with an adapter that works,
the cascade is a function of the flags and the observation. -/
namespace Integris.Recovery

open Codec Journal Prog

section decided

variable {ι : Type} {adapter : PersistIO ι} {prior : Prefix} {obs : FSObservation} {policy : Policy}
  {io : Bool} {f : AbstractFlags} {s : Recovering}

theorem recoverBody_accepted {Q : Unit → Recovering → Prop} {E : Failure ι → Recovering → Prop}
    {C : Recovering → Prop} (h : Accepted prior obs f) :
    wp (recoverBody prior obs policy io) adapter {} Q E C ↔
      wp (recoverObserved prior obs policy io (f.observed obs)) adapter (begun prior f) Q E C := by
  unfold recoverBody
  rw [h.scan]
  dsimp only
  unfold recoverScanned
  rw [wp_bind,setOut,wp_modify,if_neg (by simp [h.identity]),h.clean]
  dsimp only
  rw [if_neg (Nat.not_lt.mpr h.once),if_neg (by simp [h.passes])]
  rfl

/-- The adapter does all it is asked to. -/
def PersistIO.Obliging (adapter : PersistIO ι) : Prop := ∀ n c, adapter.answer n c = .done

/-- Where a run without refusals ends, and the calls it makes on the way. -/
structure Decision where
  state : State
  calls : List Call
  deriving DecidableEq

def cleanupCalls (policy : Policy) (obs : FSObservation) : List Call :=
  if policy.allowStagingCleanup && obs.stagingPresent then
    [.checkpoint .stageCreate,.cleanupStaging,.checkpoint .stageSync]
  else []

def quarantineCalls (policy : Policy) (obs : FSObservation) : List Call :=
  if policy.allowStagingCleanup && (obs.stagingPresent || obs.publicationStarted) then
    [.checkpoint .publishRename,.quarantineStaging,.checkpoint .publishDirSync]
  else []

def publishedDecision (policy : Policy) (f : AbstractFlags) : Decision :=
  if policy.allowConfirm then
    ⟨.confirmed,[.checkpoint .confirmPre,.appendConfirmation f.txid,.checkpoint .confirmPost]⟩
  else ⟨.published,[]⟩

/-- The cascade from `RECOVERING` on; there is one refusal in it. -/
def openDecision (obs : FSObservation) (policy : Policy) (f : AbstractFlags) : Option Decision :=
  if f.confirmationCount = 1 then if f.published then some ⟨.confirmed,[]⟩ else none
  else if f.cancelled && !f.publicationStarted && !f.published then
    some ⟨.cancelled,cleanupCalls policy obs⟩
  else if f.quarantined && !f.published then some ⟨.quarantined,quarantineCalls policy obs⟩
  else if f.published then some (publishedDecision policy f)
  else some ⟨.quarantined,quarantineCalls policy obs⟩

def decision (prior : Prefix) (obs : FSObservation) (policy : Policy) (f : AbstractFlags) :
    Option Decision :=
  if nothingDurable prior obs then some ⟨.created,[]⟩
  else if !needsRecovery prior obs f && terminalFromFlags f then some ⟨stateFromFlags f,[]⟩
  else openDecision obs policy f

/-- The step makes these calls and leaves the rest of the outcome to others. -/
def Makes (adapter : PersistIO ι) (m : Op ι Unit) (calls : List Call) : Prop :=
  ∀ s, wp m adapter s (fun _ t => t.calls = s.calls ++ calls.map (·, true)) (fun _ _ => False)
    (fun _ => False)

variable {m : Op ι Unit} {rest : Unit → Op ι Unit} {state : State}

theorem Makes.bind {first next : List Call} (h : Makes adapter m first) (k : Makes adapter (rest ()) next) :
    Makes adapter (m >>= rest) (first ++ next) := by
  intro s
  rw [wp_bind]
  refine (h s).imp (fun _ t made => ?_)
  refine (k t).imp (fun _ u more => ?_)
  rw [more,made,List.map_append,List.append_assoc]

theorem Makes.when {calls : List Call} {p : Prop} [Decidable p] {b : Bool} (h : Makes adapter m calls)
    (same : p ↔ b = true) : Makes adapter (Prog.when p m) (if b then calls else []) := by
  intro s
  rw [wp_when]
  constructor
  · intro taken
    rw [if_pos (same.mp taken)]
    exact h s
  · intro skipped
    rw [if_neg fun yes => skipped (same.mpr yes)]
    simp

theorem makes_setOut (g : Outcome → Outcome) : Makes adapter (setOut g) [] := by
  intro s
  rw [setOut,wp_modify]
  simp

/-- The step ends as decided, or refuses where nothing is decided. -/
def Decides (adapter : PersistIO ι) (s : Recovering) (m : Op ι Unit) (d : Option Decision) : Prop :=
  wp m adapter s (fun _ t => ∃ x, d = some x ∧ t.out.state = some x.state ∧
    t.calls = s.calls ++ x.calls.map (·, true)) (fun _ _ => d = none) (fun _ => False)

theorem Makes.decides {calls : List Call} (h : Makes adapter m calls)
    (settles : ∀ t, wp (rest ()) adapter t (fun _ u => u.out.state = some state ∧ u.calls = t.calls)
      (fun _ _ => False) (fun _ => False)) : Decides adapter s (m >>= rest) (some ⟨state,calls⟩) := by
  unfold Decides
  rw [wp_bind]
  refine (h s).ends (fun _ t made => ?_) (fun _ _ => False.elim)
  refine (settles t).ends (fun _ u h => ?_) (fun _ _ => False.elim)
  exact ⟨_,rfl,h.1,h.2.trans made⟩

theorem Decides.branch {c : Prop} [Decidable c] {m n : Op ι Unit} {x y : Option Decision} (yes : Decides adapter s m x)
    (no : Decides adapter s n y) : Decides adapter s (if c then m else n) (if c then x else y) := by
  split
  · exact yes
  · exact no

/-- Without an adapter nothing is permitted. -/
theorem recoverObserved_idle : recoverObserved prior obs policy false f = (recoverObserved prior obs {} true f : Op ι Unit) := by
  simp [recoverObserved,recoverOpen,recoverPublished,maybeCleanup,maybeQuarantine,Prog.when]

variable (works : adapter.Obliging)
include works

theorem makes_call (wrap : ι → Failure ι) (c : Call) : Makes adapter (call wrap c) [c] := by
  intro s
  unfold wp call
  rw [works s.calls.length c]
  rfl

theorem makes_cleanup : Makes adapter (maybeCleanup policy true obs) (cleanupCalls policy obs) :=
  Makes.when ((makes_call works _ _).bind ((makes_call works _ _).bind ((makes_setOut _).bind
    ((makes_call works _ _).bind (makes_setOut _))))) (by simp)

theorem makes_quarantine : Makes adapter (maybeQuarantine policy true obs) (quarantineCalls policy obs) :=
  Makes.when ((makes_call works _ _).bind ((makes_call works _ _).bind ((makes_setOut _).bind
    ((makes_call works _ _).bind (makes_setOut _))))) (by simp)

theorem makes_confirm (txid : TransactionID) : Makes adapter (confirmOnce txid)
    [.checkpoint .confirmPre,.appendConfirmation txid,.checkpoint .confirmPost] :=
  (makes_call works _ _).bind ((makes_call works _ _).bind ((makes_call works _ _).bind (makes_setOut _)))

theorem recoverPublished_decides :
    Decides adapter s (recoverPublished policy true f) (some (publishedDecision policy f)) := by
  unfold Decides recoverPublished publishedDecision
  rw [wp_bind,setOut,wp_modify,wp_bind,wp_when]
  constructor
  · rintro ⟨allowed,-⟩
    rw [if_pos allowed,wp_bind]
    refine (makes_confirm works f.txid _).ends (fun _ t made => ?_) (fun _ _ => False.elim)
    rw [setOut,wp_modify,setOut,wp_modify]
    exact ⟨_,rfl,rfl,made⟩
  · intro refused
    rw [if_neg (by simpa using refused),setOut,wp_modify]
    exact ⟨_,rfl,rfl,by simp⟩

theorem recoverOpen_decides : Decides adapter s (recoverOpen obs policy true f) (openDecision obs policy f) := by
  refine Decides.branch (Decides.branch ⟨_,rfl,rfl,by simp⟩ rfl) (Decides.branch ?_ ?_)
  · exact (makes_cleanup works).decides fun t => ⟨rfl,rfl⟩
  · refine Decides.branch ?_ (Decides.branch (recoverPublished_decides works) ?_)
    · exact (makes_quarantine works).decides fun t => ⟨rfl,rfl⟩
    · exact (makes_quarantine works).decides fun t => ⟨rfl,rfl⟩

theorem recoverObserved_decides :
    Decides adapter s (recoverObserved prior obs policy true f) (decision prior obs policy f) := by
  unfold recoverObserved Decides
  rw [wp_bind,setOut,wp_modify]
  refine Decides.branch (s := { s with out := _ }) ?_ (Decides.branch ?_ (recoverOpen_decides works))
  · exact ⟨_,rfl,rfl,by simp⟩
  · exact ⟨_,rfl,rfl,by simp⟩

theorem recover_decides (accepted : Accepted prior obs f) :
    (∃ x out, decision prior obs policy (f.observed obs) = some x ∧ out.state = some x.state ∧
      recover prior obs policy true adapter = ⟨some ⟨out,none⟩,x.calls.map (·,true)⟩) ∨
    (decision prior obs policy (f.observed obs) = none ∧
      ∃ out e, (recover prior obs policy true adapter).report = some ⟨out,some e⟩) := by
  have body : wp (recoverBody prior obs policy true) adapter {} (fun _ t => ∃ x,
      decision prior obs policy (f.observed obs) = some x ∧ t.out.state = some x.state ∧
      t.calls = x.calls.map (·,true)) (fun _ _ => decision prior obs policy (f.observed obs) = none)
      (fun _ => False) := (recoverBody_accepted accepted).mpr (recoverObserved_decides works)
  unfold recover
  unfold wp at body
  split at body
  · next t run =>
    obtain ⟨x,decided,state,calls⟩ := body
    exact .inl ⟨x,t.out,decided,state,by rw [run,← calls]⟩
  · next e t run => exact .inr ⟨body,t.out,e,by rw [run]⟩
  · exact body.elim

/-- A run without calls that ends in this state. -/
theorem recover_quiet_iff (accepted : Accepted prior obs f) :
    (∃ out, recover prior obs policy true adapter = ⟨some ⟨out,none⟩,[]⟩ ∧ out.state = some state) ↔
      decision prior obs policy (f.observed obs) = some ⟨state,[]⟩ := by
  have ends : _ ∨ decision prior obs policy (f.observed obs) = none ∧ _ := recover_decides works accepted
  rcases ends with ⟨x,out,decided,ends,run⟩ | ⟨none_,out,e,run⟩
  · rw [run,decided]
    constructor
    · rintro ⟨out',same,reached⟩
      injection same with same none_
      have quiet : x.calls = [] := List.map_eq_nil_iff.mp none_
      obtain ⟨rfl,-⟩ := Report.mk.inj (Option.some.inj same)
      have here : x.state = state := Option.some.inj (ends.symm.trans reached)
      rw [← here,← quiet]
    · intro same
      obtain rfl := Option.some.inj same
      exact ⟨out,rfl,ends⟩
  · rw [none_]
    constructor
    · rintro ⟨out',same,-⟩
      rw [same] at run
      cases run
    · exact nofun

omit works

/-- Short of publication only a cancellation that no marker overrules is kept. -/
theorem decision_unpublished (durable : nothingDurable prior obs = false) (unpublished : f.published = false)
    (zero : f.confirmationCount ≠ 1) (seen : obs.publicationStarted = true → f.publicationStarted = true) :
    decision prior obs policy f = some (if f.cancelled && !f.publicationStarted then
      ⟨.cancelled,cleanupCalls policy obs⟩ else ⟨.quarantined,quarantineCalls policy obs⟩) := by
  unfold decision
  rw [if_neg (by simp [durable])]
  by_cases done : (!needsRecovery prior obs f && terminalFromFlags f) = true
  · -- nothing is staged then, so there is nothing to clean up either
    rw [if_pos done]
    simp only [needsRecovery,terminalFromFlags,unpublished,Bool.and_eq_true,Bool.not_eq_true',
      Bool.or_eq_false_iff,Bool.not_false,Bool.and_true] at done
    have unstaged : obs.stagingPresent = false := done.1.1.2
    have unstarted : f.publicationStarted = false := done.1.2
    have unmarked : obs.publicationStarted = false := by
      rw [← Bool.not_eq_true]
      exact fun marked => by simp [seen marked] at unstarted
    simp only [stateFromFlags,cleanupCalls,quarantineCalls,unpublished,unstarted,unstaged,unmarked,
      Bool.and_false,Bool.or_false,Bool.not_false,Bool.and_true,Bool.false_eq_true,if_false]
    split <;> simp
  · rw [if_neg done]
    unfold openDecision
    rw [if_neg zero]
    simp only [unpublished,Bool.not_false,Bool.and_true,Bool.false_eq_true,if_false]
    split
    · rfl
    · split <;> rfl

theorem decision_published (published : f.published = true) (started : f.publicationStarted = true)
    (durable : nothingDurable prior obs = false) : decision prior obs policy f =
      some (if f.confirmationCount = 1 then ⟨.confirmed,[]⟩ else publishedDecision policy f) := by
  unfold decision
  rw [if_neg (by simp [durable])]
  by_cases one : f.confirmationCount = 1
  · simp [needsRecovery,terminalFromFlags,stateFromFlags,openDecision,published,one]
  · simp [terminalFromFlags,openDecision,published,started,one]

end decided

end Integris.Recovery
