import Integris.Recovery

/-! The transaction model of `formal/transaction/Transaction.tla`: its variables, its actions
as guarded updates, and its invariants over every run. A run is journaled ahead of its
effects: a step counts as taken once its record is durable. -/
namespace Integris.Transaction

open Codec Journal
open Recovery (State AuthorizationBinding ProgressCode encodeAuthorizationPayload
  encodeProgressPayload)

/-- The model's variables; the defaults are `Init`. -/
structure Vars where
  state : State := .created
  authorized : Bool := false
  contentReceived : Bool := false
  prepared : Bool := false
  contentVerified : Bool := false
  publicationStarted : Bool := false
  published : Bool := false
  confirmationCount : Nat := 0
  recoveryCount : Nat := 0
  deriving DecidableEq, Repr

/-- The disjuncts of `Next`; the first three are its uses of `Step`. -/
inductive Action where
  | authenticate | verifyManifest | plan
  | authorize | receive | prepare | verify
  | beginPublication | completePublication | confirm
  | crash | recover | recoverAgain | cancel
  deriving DecidableEq, Repr

def enabled (p : Prop) [Decidable p] (v : Vars) : Option Vars := if p then some v else none

variable {v w : Vars} {a : Action} {note : Bytes}

@[simp] theorem enabled_eq_some {p : Prop} [Decidable p] : enabled p v = some w ↔ p ∧ v = w := by simp [enabled]

def next (v : Vars) : Action → Option Vars
  | .authenticate => enabled (v.state = .created) { v with state := .authenticated }
  | .verifyManifest => enabled (v.state = .authenticated) { v with state := .manifestVerified }
  | .plan => enabled (v.state = .manifestVerified) { v with state := .planned }
  | .authorize => enabled (v.state = .planned) { v with state := .authorized, authorized := true }
  | .receive => enabled (v.state = .authorized ∧ v.authorized = true)
      { v with state := .contentReceived, contentReceived := true }
  | .prepare =>
    enabled (v.state = .contentReceived ∧ v.authorized = true ∧ v.contentReceived = true)
      { v with state := .prepared, prepared := true }
  | .verify =>
    enabled (v.state = .prepared ∧ v.authorized = true ∧ v.contentReceived = true ∧ v.prepared = true)
      { v with state := .verified, contentVerified := true }
  | .beginPublication =>
    enabled (v.state = .verified ∧ v.authorized = true ∧ v.contentReceived = true ∧
        v.prepared = true ∧ v.contentVerified = true)
      { v with state := .publishing, publicationStarted := true }
  | .completePublication =>
    enabled (v.state = .publishing ∧ v.publicationStarted = true ∧ v.authorized = true ∧
        v.prepared = true ∧ v.contentVerified = true)
      { v with state := .published, published := true }
  | .confirm =>
    enabled (v.state = .published ∧ v.published = true ∧ v.confirmationCount = 0)
      { v with state := .confirmed, confirmationCount := 1 }
  | .crash =>
    enabled (v.state ∈ [.authorized,.contentReceived,.prepared,.verified,.publishing,.published] ∧
        v.recoveryCount = 0)
      { v with state := .recovering }
  | .recover => enabled (v.state = .recovering)
      { v with state := if v.published then .published else .quarantined, recoveryCount := 1 }
  | .recoverAgain => enabled (0 < v.recoveryCount ∧ v.state ∈ [.published,.quarantined]) v
  | .cancel =>
    enabled (v.state ∈ [.created,.authenticated,.manifestVerified,.planned,.authorized,
        .contentReceived,.prepared,.verified] ∧ v.publicationStarted = false)
      { v with state := .cancelled }

/-- The model's invariants, with what makes them inductive. -/
structure Inv (v : Vars) : Prop where
  received : v.contentReceived = true → v.authorized = true
  prepared : v.prepared = true → v.contentReceived = true
  verified : v.contentVerified = true → v.prepared = true
  started : v.publicationStarted = true → v.contentVerified = true
  published : v.published = true → v.publicationStarted = true
  confirmed : 0 < v.confirmationCount → v.published = true
  once : v.confirmationCount ≤ 1
  cancelled : v.state = .cancelled → v.publicationStarted = false
  unauthorized : v.state = .planned → v.authorized = false
  early : v.state ∈ [.created,.authenticated,.manifestVerified] → v.authorized = false

theorem inv_init : Inv {} := by constructor <;> simp

theorem inv_next (h : Inv v) (step : next v a = some w) : Inv w := by
  cases a <;> simp only [next,enabled_eq_some] at step <;> obtain ⟨guard,rfl⟩ := step
  case authenticate | verifyManifest =>
    have unauthorized := h.early (by simp [guard])
    exact { h with cancelled := nofun, unauthorized := nofun, early := fun _ => unauthorized }
  case plan =>
    have unauthorized := h.early (by simp [guard])
    exact { h with cancelled := nofun, unauthorized := fun _ => unauthorized, early := by simp }
  case authorize =>
    exact { h with received := fun _ => rfl, cancelled := nofun, unauthorized := nofun, early := by simp }
  case receive =>
    exact { h with
      received := fun _ => guard.2, prepared := fun _ => rfl
      cancelled := nofun, unauthorized := nofun, early := by simp }
  case prepare =>
    exact { h with
      prepared := fun _ => guard.2.2, verified := fun _ => rfl
      cancelled := nofun, unauthorized := nofun, early := by simp }
  case verify =>
    exact { h with
      verified := fun _ => guard.2.2.2, started := fun _ => rfl
      cancelled := nofun, unauthorized := nofun, early := by simp }
  case beginPublication =>
    exact { h with
      started := fun _ => guard.2.2.2.2, published := fun _ => rfl
      cancelled := nofun, unauthorized := nofun, early := by simp }
  case completePublication =>
    exact { h with
      published := fun _ => guard.2.1, confirmed := fun _ => rfl
      cancelled := nofun, unauthorized := nofun, early := by simp }
  case confirm =>
    exact { h with
      confirmed := fun _ => guard.2.1, once := Nat.le_refl 1
      cancelled := nofun, unauthorized := nofun, early := by simp }
  case crash => exact { h with cancelled := nofun, unauthorized := nofun, early := by simp }
  case recover =>
    -- recovery settles in one of the two states, and neither is constrained
    split <;>
      exact { h with cancelled := nofun, unauthorized := nofun, early := by simp }
  case recoverAgain => exact h
  case cancel =>
    exact { h with cancelled := fun _ => guard.2, unauthorized := nofun, early := by simp }

/-- The record an action writes ahead; `note` is the payload where the model fixes none. -/
def Action.record (txid : TransactionID) (b : AuthorizationBinding) (note : Bytes) :
    Action → Option Item
  | .plan => some ⟨txid,.planDigest,note⟩
  | .authorize => some ⟨txid,.authorization,encodeAuthorizationPayload b⟩
  | .receive => some ⟨txid,.progress,encodeProgressPayload .contentReceived⟩
  | .prepare => some ⟨txid,.progress,encodeProgressPayload .prepared⟩
  | .verify => some ⟨txid,.progress,encodeProgressPayload .verified⟩
  | .beginPublication => some ⟨txid,.progress,encodeProgressPayload .publishing⟩
  | .confirm => some ⟨txid,.confirmation,note⟩
  | .cancel => some ⟨txid,.cancellation,note⟩
  | .authenticate | .verifyManifest | .completePublication | .crash | .recover | .recoverAgain => none

/-- A run of the model and the records it left. -/
inductive Run (txid : TransactionID) (b : AuthorizationBinding) : Vars → List Item → Prop
  | init : Run txid b {} []
  | step {v w : Vars} {es : List Item} (a : Action) (note : Bytes) :
      Run txid b v es → note.length ≤ maxPayloadBytes → next v a = some w →
      Run txid b w (es ++ (a.record txid b note).toList)

variable {txid : TransactionID} {b : AuthorizationBinding} {v w : Vars} {es : List Item}

theorem Run.inv (h : Run txid b v es) : Inv v := by
  induction h with
  | init => exact inv_init
  | step a note _ _ step ih => exact inv_next ih step

/-- How far a state is; a step that writes a record gets further. -/
def phase : State → Nat
  | .created => 0
  | .authenticated => 1
  | .manifestVerified => 2
  | .planned => 3
  | .authorized => 4
  | .contentReceived => 5
  | .prepared => 6
  | .verified => 7
  | .publishing => 8
  | .published | .recovering => 9
  | .confirmed | .cancelled | .quarantined | .suspended | .irrecoverable => 10

theorem phase_next (step : next v a = some w) : phase v.state + (a.record txid b note).toList.length ≤ phase w.state := by
  cases a <;> simp only [next,enabled_eq_some] at step <;> obtain ⟨guard,rfl⟩ := step
  case crash =>
    have among := guard.1
    simp only [List.mem_cons,List.not_mem_nil,or_false] at among
    rcases among with h | h | h | h | h | h <;> simp [phase,h,Action.record]
  case cancel =>
    have among := guard.1
    simp only [List.mem_cons,List.not_mem_nil,or_false] at among
    rcases among with h | h | h | h | h | h | h | h <;> simp [phase,h,Action.record]
  case recover =>
    dsimp only
    split <;> simp [phase,guard,Action.record]
  all_goals simp [phase,guard,Action.record]

theorem Run.few (h : Run txid b v es) : es.length ≤ phase v.state := by
  induction h with
  | init => exact Nat.le_refl 0
  | step a note _ _ step ih =>
    rw [List.length_append]
    exact (Nat.add_le_add_right ih _).trans (phase_next step)

theorem phase_le (s : State) : phase s ≤ 10 := by cases s <;> decide

theorem record_fits {e : Item} (short : note.length ≤ maxPayloadBytes) (h : a.record txid b note = some e) : e.Fits := by
  have progress : ∀ c, (encodeProgressPayload c).length ≤ maxPayloadBytes := fun c => by
    simp [encodeProgressPayload,maxPayloadBytes]
  cases a <;> cases h
  case authorize =>
    simp only [Item.Fits,Recovery.encodeAuthorizationPayload_length]
    decide
  case plan | confirm | cancel => exact short
  all_goals exact progress _

theorem Run.fits (h : Run txid b v es) : ∀ e ∈ es, e.Fits := by
  induction h with
  | init => simp
  | step a note _ short _ ih =>
    intro e he
    rcases List.mem_append.mp he with he | he
    · exact ih e he
    · exact record_fits short (Option.mem_toList.mp he)

end Integris.Transaction
