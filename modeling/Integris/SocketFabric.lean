import Integris.Fabric

/-! One edge of a socket fabric over many replacements. `ReplacePair` and the rebind loops
of the surviving roles make new channel states for the same two roles; the session nonce
is the fabric's and the key is whatever the caller derives it from. -/
namespace Integris.Supervisor

open Prog Crypto Ipc ChannelState

structure SocketFabric where
  plan : Plan
  nonce : Fixed 16
  ends : Ends

/-- `sockets` is the system's answer to the request for a socket pair. -/
def SocketFabric.installPair (f : SocketFabric) (lo hi : ProcessRole) (rootKey : Bytes)
    (sockets : Except Failure Unit) : Except Failure SocketFabric := do
  let macKey ← (channelMACKey rootKey lo.name hi.name).mapError fun e => ⟨"key", e.text⟩
  sockets
  let left ← (newAuthenticatedChannel lo hi f.nonce macKey).mapError fun e => ⟨"ipc", e.text⟩
  let right ← (newAuthenticatedChannel hi lo f.nonce macKey).mapError fun e => ⟨"ipc", e.text⟩
  .ok { f with ends := (f.ends.set ⟨lo, hi⟩ left).set ⟨hi, lo⟩ right }

def Ends.delete (ends : Ends) (e : Endpoint) : Ends := Function.update ends e none

/-- The old ends are gone even if the new ones cannot be made. -/
def SocketFabric.replacePair (a b : ProcessRole) (rootKey : Bytes)
    (sockets : Except Failure Unit) : Prog Unit SocketFabric Failure Unit := do
  let pk ← ofExcept (makePair a b)
  modify fun f =>
    { f with ends := (f.ends.delete ⟨pk.lo, pk.hi⟩).delete ⟨pk.hi, pk.lo⟩ }
  let f ← get
  let next ← ofExcept (f.installPair pk.lo pk.hi rootKey sockets)
  modify fun _ => next

inductive Side where
  | lo
  | hi
  deriving DecidableEq

def Side.other : Side → Side
  | lo => hi
  | hi => lo

def PairKey.role (pk : PairKey) : Side → ProcessRole
  | .lo => pk.lo
  | .hi => pk.hi

def PairKey.endpoint (pk : PairKey) (s : Side) : Endpoint := ⟨pk.role s, pk.role s.other⟩

/-- Who holds an end: the fabric, or the process of that role in a slot of its own. -/
inductive Holder where
  | fabric
  | child
  deriving DecidableEq

structure Place where
  holder : Holder
  side : Side
  deriving DecidableEq

/-- An encoded frame, with the end as it was and what it was asked to send. -/
structure Sent where
  sender : ChannelState
  typ : MessageType
  payload : Bytes
  raw : Bytes

structure World where
  fabric : SocketFabric
  slots : Side → Option ChannelState
  log : List Sent

namespace World

variable (pk : PairKey)

def channel (w : World) : Place → Option ChannelState
  | ⟨.fabric, s⟩ => w.fabric.ends (pk.endpoint s)
  | ⟨.child, s⟩ => w.slots s

def put (w : World) (ch : ChannelState) : Place → World
  | ⟨.fabric, s⟩ => { w with fabric := { w.fabric with ends := w.fabric.ends.set (pk.endpoint s) ch } }
  | ⟨.child, s⟩ => { w with slots := Function.update w.slots s (some ch) }

inductive Step where
  | encode (at_ : Place) (typ : MessageType) (payload : Bytes)
  | decode (at_ : Place) (raw : Bytes)
  | replace (rootKey : Bytes) (sockets : Except Failure Unit)
  | rebind (side : Side) (mac : Bytes)

def record (w : World) (sender : ChannelState) (typ : MessageType) (payload : Bytes) :
    Outcome Ipc.Error Bytes → World
  | .ok raw => { w with log := ⟨sender, typ, payload, raw⟩ :: w.log }
  | _ => w

/-- One event of the edge. A rebind that is refused leaves the slot alone. -/
def step (w : World) : Step → World
  | .encode at_ typ payload =>
    match w.channel pk at_ with
    | none => w
    | some ch =>
      match ChannelState.encode typ payload () ch with
      | (r, ch') => (w.put pk ch' at_).record ch typ payload r
  | .decode at_ raw =>
    match w.channel pk at_ with
    | none => w
    | some ch => w.put pk (ChannelState.decode raw () ch).2 at_
  | .replace rootKey sockets =>
    { w with fabric := (SocketFabric.replacePair pk.lo pk.hi rootKey sockets () w.fabric).2 }
  | .rebind side mac =>
    match newAuthenticatedChannel (pk.role side) (pk.role side.other) w.fabric.nonce mac with
    | .ok ch => w.put pk ch ⟨.child, side⟩
    | .error _ => w

def run (w : World) (steps : List Step) : World := steps.foldl (step pk) w

/-- Before the edge's first installation. -/
def start (plan : Plan) (nonce : Fixed 16) : World := ⟨⟨plan, nonce, .none_⟩, fun _ => none, []⟩

/-- A new end under a key. -/
def made (nonce : Fixed 16) (side : Side) (key : Bytes) : ChannelState :=
  { newChannel (pk.role side) (pk.role side.other) nonce with macKey := key }

/-- The step puts a new end in the place, under the key. -/
def Step.Makes (key : Bytes) : Step → Place → Prop
  | .replace rootKey sockets, ⟨.fabric, _⟩ =>
    sockets = .ok () ∧ channelMACKey rootKey pk.lo.name pk.hi.name = .ok key
  | .rebind side mac, ⟨.child, s⟩ => s = side ∧ mac = key ∧ 16 ≤ mac.length
  | _, _ => False

/-- The step asks for a new end in the place. -/
def Step.Renews : Step → Place → Prop
  | .replace .., q => q.holder = .fabric
  | .rebind side _, q => q = ⟨.child, side⟩
  | _, _ => False

/-- What a step can do to an end it does not renew. -/
inductive Moves (ch : ChannelState) : ChannelState → Prop where
  | same : Moves ch ch
  | sent (typ : MessageType) : Moves ch (ch.sent typ)
  | received (raw : Bytes) (accepts : ch.Accepts raw) : Moves ch (ch.received raw)
  | closed : Moves ch { ch with closed := true }

theorem Moves.key {ch ch' : ChannelState} (moves : Moves ch ch') : ch'.macKey = ch.macKey := by cases moves <;> rfl

theorem decode_moves (ch : ChannelState) (raw : Bytes) : Moves ch (ChannelState.decode raw () ch).2 := by
  have ends := decode_ends ch raw
  rcases run : ChannelState.decode raw () ch with ⟨_ | _ | _,t⟩ <;> simp only [wp,run] at ends
  · obtain ⟨accepts,-,rfl⟩ := ends
    exact .received raw accepts
  · rcases ends.2.2 with ⟨-,rfl⟩ | ⟨-,rfl⟩
    · exact .closed
    · exact .same

theorem encode_moves (ch : ChannelState) (typ : MessageType) (payload : Bytes) :
    Moves ch (ChannelState.encode typ payload () ch).2 := by
  have ends := encode_ends ch typ payload
  rcases run : ChannelState.encode typ payload () ch with ⟨_ | _ | _,t⟩ <;> simp only [wp,run] at ends
  · obtain ⟨-,-,rfl⟩ := ends
    exact .sent typ
  · rw [ends.2]
    exact .same

@[simp] theorem other_ne (s : Side) : s.other ≠ s := by cases s <;> decide

variable {pk} (apart : pk.lo ≠ pk.hi)
include apart

theorem endpoint_injective {s t : Side} (same : pk.endpoint s = pk.endpoint t) : s = t := by
  have role := (Endpoint.mk.inj same).1
  cases s <;> cases t
  · rfl
  · exact absurd role apart
  · exact absurd role.symm apart
  · rfl

theorem put_channel (w : World) (ch : ChannelState) (q q' : Place) :
    (w.put pk ch q).channel pk q' = if q' = q then some ch else w.channel pk q' := by
  obtain ⟨holder,s⟩ := q
  obtain ⟨holder',s'⟩ := q'
  cases holder <;> cases holder' <;> simp only [put,channel,Ends.set,Function.update_apply,
    Place.mk.injEq,true_and,reduceCtorEq,false_and,if_false]
  by_cases same : s' = s
  · simp only [same,if_true]
  · rw [if_neg same,if_neg fun h => same (endpoint_injective apart h)]

omit apart

theorem channelMACKey_length {rootKey a b key : Bytes} (h : channelMACKey rootKey a b = .ok key) : key.length = 32 := by
  unfold channelMACKey at h
  split at h
  · cases h
  · split at h
    · cases h
    · split at h
      · cases h
      · exact deriveKey_length h

variable {key : Bytes} {q : Place} {w : World} {s : Step} {nonce : Fixed 16}

theorem newAuthenticatedChannel_made (pk : PairKey) (long : 16 ≤ key.length)
    (nonce : Fixed 16) (s : Side) : newAuthenticatedChannel (pk.role s) (pk.role s.other) nonce key =
      .ok (made pk nonce s key) := by
  simp only [newAuthenticatedChannel,demand,if_pos long]
  rfl

theorem installPair_ok {rootKey key : Bytes}
    (mac : channelMACKey rootKey pk.lo.name pk.hi.name = .ok key) (f : SocketFabric) :
    f.installPair pk.lo pk.hi rootKey (.ok ()) = .ok { f with
      ends := (f.ends.set (pk.endpoint .lo) (made pk f.nonce .lo key)).set (pk.endpoint .hi)
        (made pk f.nonce .hi key) } := by
  have long : 16 ≤ key.length := by
    rw [channelMACKey_length mac]
    decide
  have left := newAuthenticatedChannel_made pk long f.nonce .lo
  have right := newAuthenticatedChannel_made pk long f.nonce .hi
  simp only [PairKey.role,Side.other] at left right
  simp only [SocketFabric.installPair,mac,left,right,Except.mapError,except_ok_bind]
  rfl

theorem installPair_error {rootKey : Bytes} {sockets : Except Failure Unit}
    (failed : ∀ key, ¬(sockets = .ok () ∧ channelMACKey rootKey pk.lo.name pk.hi.name = .ok key))
    (f : SocketFabric) : ∃ e, f.installPair pk.lo pk.hi rootKey sockets = .error e := by
  cases mac : channelMACKey rootKey pk.lo.name pk.hi.name with
  | error e => exact ⟨⟨"key",e.text⟩,by simp only [SocketFabric.installPair,mac]; rfl⟩
  | ok key =>
    cases sockets with
    | error e => exact ⟨e,by simp only [SocketFabric.installPair,mac]; rfl⟩
    | ok _ => exact absurd ⟨rfl,mac⟩ (failed key)

/-- The ends of the pair after a replacement: new under the key, or gone. -/
structure Replaced (pk : PairKey) (f : SocketFabric) (rootKey : Bytes) (sockets : Except Failure Unit)
    (g : SocketFabric) : Prop where
  nonce : g.nonce = f.nonce
  made : ∀ key, sockets = .ok () ∧ channelMACKey rootKey pk.lo.name pk.hi.name = .ok key →
    ∀ s, g.ends (pk.endpoint s) = some (World.made pk f.nonce s key)
  gone : (∀ key, ¬(sockets = .ok () ∧ channelMACKey rootKey pk.lo.name pk.hi.name = .ok key)) →
    ∀ s, g.ends (pk.endpoint s) = none

include apart in
theorem replacePair_replaced (proper : makePair pk.lo pk.hi = .ok pk) (f : SocketFabric)
    (rootKey : Bytes) (sockets : Except Failure Unit) :
    Replaced pk f rootKey sockets (SocketFabric.replacePair pk.lo pk.hi rootKey sockets () f).2 := by
  have turned : pk.endpoint .lo ≠ pk.endpoint .hi := fun h => nomatch endpoint_injective apart h
  apply wp.reached
  simp only [SocketFabric.replacePair,wp_bind,wp_ofExcept,wp_modify,wp_get]
  refine ⟨fun q same => ?_,fun e impossible => ?_⟩
  · cases same.symm.trans proper
    refine ⟨fun g installed => ?_,fun e failed => ?_⟩
    · by_cases worked : ∃ key, sockets = .ok () ∧ channelMACKey rootKey pk.lo.name pk.hi.name = .ok key
      · obtain ⟨key,rfl,mac⟩ := worked
        cases installed.symm.trans (installPair_ok mac _)
        refine ⟨rfl,fun key' ⟨_,mac'⟩ s => ?_,fun failed => absurd ⟨rfl,mac⟩ (failed key)⟩
        cases mac.symm.trans mac'
        cases s with
        | lo => simp only [Ends.set,Function.update_of_ne turned,Function.update_self]
        | hi => simp only [Ends.set,Function.update_self]
      · obtain ⟨e,failed⟩ := installPair_error (fun key h => worked ⟨key,h⟩) _
        cases installed.symm.trans failed
    · refine ⟨rfl,?_,fun _ s => ?_⟩
      · rintro key ⟨rfl,mac⟩
        cases failed.symm.trans (installPair_ok mac _)
      · cases s with
        | lo =>
          change Function.update _ (pk.endpoint .hi) _ _ = _
          rw [Function.update_of_ne turned]
          exact Function.update_self ..
        | hi => exact Function.update_self ..
  · cases impossible.symm.trans proper

@[simp] theorem record_channel (w : World) (ch : ChannelState) (typ : MessageType) (payload : Bytes)
    (r : Outcome Ipc.Error Bytes) (q : Place) :
    (w.record ch typ payload r).channel pk q = w.channel pk q := by
  cases r <;> obtain ⟨_ | _,_⟩ := q <;> rfl

theorem replace_other {f : SocketFabric} (kept : q.holder ≠ .fabric) :
    ({ w with fabric := f } : World).channel pk q = w.channel pk q := by
  obtain ⟨_ | _,_⟩ := q
  · exact absurd rfl kept
  · rfl

include apart in
/-- An end that is not renewed stays, and is moved by at most one call. -/
theorem step_kept (kept : ¬s.Renews q) : ∃ move : ChannelState → ChannelState, (∀ ch, Moves ch (move ch)) ∧
      (w.step pk s).channel pk q = (w.channel pk q).map move := by
  have still : ∃ move : ChannelState → ChannelState, (∀ ch, Moves ch (move ch)) ∧
      w.channel pk q = (w.channel pk q).map move := ⟨id,fun _ => .same,by simp⟩
  cases s with
  | encode q' typ payload =>
    rcases there : w.channel pk q' with _ | x
    · simpa only [step,there] using still
    · simp only [step,there,record_channel,put_channel apart]
      by_cases same : q = q'
      · subst same
        exact ⟨_,fun ch => encode_moves ch typ payload,by rw [if_pos rfl,there]; rfl⟩
      · simpa only [if_neg same] using still
  | decode q' raw =>
    rcases there : w.channel pk q' with _ | x
    · simpa only [step,there] using still
    · simp only [step,there,put_channel apart]
      by_cases same : q = q'
      · subst same
        exact ⟨_,fun ch => decode_moves ch raw,by rw [if_pos rfl,there]; rfl⟩
      · simpa only [if_neg same] using still
  | replace rootKey sockets =>
    simp only [step]
    rwa [replace_other kept]
  | rebind side mac =>
    have elsewhere : q ≠ ⟨.child,side⟩ := kept
    simp only [step]
    split
    · simpa only [put_channel apart,if_neg elsewhere] using still
    · exact still

variable (proper : makePair pk.lo pk.hi = .ok pk)

include apart proper in
theorem step_made (makes : s.Makes pk key q) : (w.step pk s).channel pk q = some (made pk w.fabric.nonce q.side key) := by
  obtain ⟨holder,side⟩ := q
  cases s with
  | encode | decode => cases makes
  | replace rootKey sockets =>
    cases holder with
    | child => cases makes
    | fabric => exact (replacePair_replaced apart proper w.fabric rootKey sockets).made key makes side
  | rebind side' mac =>
    cases holder with
    | fabric => cases makes
    | child =>
      obtain ⟨rfl,rfl,long⟩ := makes
      simp only [step,newAuthenticatedChannel_made pk long]
      rw [put_channel apart,if_pos rfl]

include apart proper in
/-- A renewed end is new, gone, or as it was. -/
theorem step_renewed (renews : s.Renews q) : (∃ key, s.Makes pk key q) ∨ (w.step pk s).channel pk q = none ∨
      (w.step pk s).channel pk q = w.channel pk q := by
  obtain ⟨holder,side⟩ := q
  cases s with
  | encode | decode => cases renews
  | replace rootKey sockets =>
    cases renews
    by_cases worked : ∃ key, sockets = .ok () ∧ channelMACKey rootKey pk.lo.name pk.hi.name = .ok key
    · exact .inl worked
    · refine .inr (.inl ?_)
      exact (replacePair_replaced apart proper w.fabric rootKey sockets).gone (fun key h => worked ⟨key,h⟩) side
  | rebind side' mac =>
    cases renews
    by_cases long : 16 ≤ mac.length
    · exact .inl ⟨mac,rfl,rfl,long⟩
    · refine .inr (.inr ?_)
      simp only [step,newAuthenticatedChannel,demand,if_neg long]
      rfl

/-- An end of this edge on the given side, at any time of its life. -/
structure Own (pk : PairKey) (nonce : Fixed 16) (side : Side) (ch : ChannelState) : Prop where
  here : ch.localRole = pk.role side
  there : ch.remoteRole = pk.role side.other
  nonce : ch.sessionNonce = nonce
  maxFrame : ch.maxFrame = maxFrameBytes
  key : 16 ≤ ch.macKey.length
  next : ch.nextSendSeq < 2 ^ 64
  counted : ch.lastRecvSeq = ch.queueDepth
  queue : ch.queueDepth ≤ maxQueueDepth

theorem Own.made (side : Side) (long : 16 ≤ key.length) : Own pk nonce side (made pk nonce side key) :=
  ⟨rfl,rfl,rfl,rfl,long,by simp [World.made,newChannel],rfl,Nat.zero_le _⟩

theorem Own.moves {side : Side} {ch ch' : ChannelState}
    (own : Own pk nonce side ch) (moves : Moves ch ch') : Own pk nonce side ch' := by
  obtain ⟨here,there,same,maxFrame,key,next,counted,queue⟩ := own
  cases moves with
  | same => exact ⟨here,there,same,maxFrame,key,next,counted,queue⟩
  | sent typ => exact ⟨here,there,same,maxFrame,key,Nat.mod_lt _ (by decide),counted,queue⟩
  | received raw accepts =>
    refine ⟨here,there,same,maxFrame,key,next,?_,accepts.expected.queue⟩
    rw [received_lastRecvSeq,received_queueDepth,accepts.expected.sequence,counted]
  | closed => exact ⟨here,there,same,maxFrame,key,next,counted,queue⟩

/-- The frame was encoded by an end of this edge. -/
structure Recorded (pk : PairKey) (nonce : Fixed 16) (side : Side) (sent : Sent) : Prop where
  own : Own pk nonce side sent.sender
  sends : sent.sender.Sends sent.typ sent.payload
  raw : sent.raw = sent.sender.wire sent.typ sent.payload

structure Sane (pk : PairKey) (nonce : Fixed 16) (w : World) : Prop where
  fabric : w.fabric.nonce = nonce
  ends : ∀ q ch, w.channel pk q = some ch → Own pk nonce q.side ch
  log : ∀ sent ∈ w.log, ∃ side, Recorded pk nonce side sent

theorem put_nonce (w : World) (ch : ChannelState) (q : Place) :
    (w.put pk ch q).fabric.nonce = w.fabric.nonce ∧ (w.put pk ch q).log = w.log := by
  obtain ⟨_ | _,_⟩ := q <;> exact ⟨rfl,rfl⟩

include apart proper in
theorem step_nonce (w : World) (s : Step) : (w.step pk s).fabric.nonce = w.fabric.nonce := by
  cases s with
  | encode q typ payload =>
    simp only [step]
    split
    · rfl
    · rename_i ch _
      rcases ChannelState.encode typ payload () ch with ⟨_ | _ | _,t⟩ <;>
        exact (put_nonce w t q).1
  | decode q raw =>
    simp only [step]
    split
    · rfl
    · exact (put_nonce w _ q).1
  | replace rootKey sockets =>
    exact (replacePair_replaced apart proper w.fabric rootKey sockets).nonce
  | rebind side mac =>
    simp only [step]
    split
    · exact (put_nonce w _ _).1
    · rfl

theorem step_log {sent : Sent} (member : sent ∈ (w.step pk s).log) : sent ∈ w.log ∨ ∃ q, w.channel pk q = some sent.sender ∧
      sent.sender.Sends sent.typ sent.payload ∧ sent.raw = sent.sender.wire sent.typ sent.payload := by
  cases s with
  | encode q typ payload =>
    simp only [step] at member
    split at member
    · exact .inl member
    · rename_i ch here
      have ends := encode_ends ch typ payload
      rcases run : ChannelState.encode typ payload () ch with ⟨raw | _ | _,t⟩ <;>
        simp only [wp,run] at ends member
      · simp only [record,(put_nonce w t q).2,List.mem_cons] at member
        rcases member with rfl | old
        · exact .inr ⟨q,here,ends.1,ends.2.1⟩
        · exact .inl old
      · exact .inl ((put_nonce w t q).2 ▸ member)
  | decode q raw =>
    simp only [step] at member
    split at member
    · exact .inl member
    · exact .inl ((put_nonce w _ q).2 ▸ member)
  | replace rootKey sockets => exact .inl member
  | rebind side mac =>
    simp only [step] at member
    split at member
    · exact .inl ((put_nonce w _ _).2 ▸ member)
    · exact .inl member

theorem Step.Makes.long (makes : s.Makes pk key q) : 16 ≤ key.length := by
  obtain ⟨holder,side⟩ := q
  cases s with
  | encode | decode => cases makes
  | replace rootKey sockets =>
    cases holder with
    | child => cases makes
    | fabric =>
      rw [channelMACKey_length makes.2]
      decide
  | rebind side' mac =>
    cases holder with
    | fabric => cases makes
    | child =>
      obtain ⟨-,rfl,long⟩ := makes
      exact long

include apart proper in
theorem Sane.step (sane : Sane pk nonce w) (s : Step) : Sane pk nonce (w.step pk s) := by
  refine ⟨(step_nonce apart proper w s).trans sane.fabric,fun q ch here => ?_,fun sent member => ?_⟩
  · by_cases renews : s.Renews q
    · rcases step_renewed apart proper renews with ⟨key,makes⟩ | gone | same
      · cases here.symm.trans (step_made apart proper makes)
        rw [sane.fabric]
        exact .made q.side makes.long
      · cases here.symm.trans gone
      · exact sane.ends q ch (same ▸ here)
    · obtain ⟨move,moves,after⟩ := step_kept apart (w := w) renews
      rw [here] at after
      obtain ⟨old,before,rfl⟩ := Option.map_eq_some_iff.mp after.symm
      exact (sane.ends q old before).moves (moves old)
  · rcases step_log member with old | ⟨q,here,sends,raw⟩
    · exact sane.log sent old
    · exact ⟨q.side,sane.ends q _ here,sends,raw⟩

include apart proper in
theorem Sane.run (sane : Sane pk nonce w) (steps : List Step) : Sane pk nonce (w.run pk steps) := by
  induction steps generalizing w with
  | nil => exact sane
  | cons s rest ih => exact ih (sane.step apart proper s)

theorem Sane.start (plan : Plan) (nonce : Fixed 16) : Sane pk nonce (start plan nonce) := by
  refine ⟨rfl,fun q ch here => ?_,fun sent member => ?_⟩
  · obtain ⟨_ | _,_⟩ := q <;> cases here
  · cases member

/-- The place holds an end of this key. -/
def Keyed (pk : PairKey) (w : World) (q : Place) (key : Bytes) : Prop :=
  ∃ ch, w.channel pk q = some ch ∧ ch.macKey = key

include apart in
theorem Keyed.run (keyed : Keyed pk w q key) {steps : List Step} (kept : ∀ s ∈ steps, ¬s.Renews q) :
    Keyed pk (w.run pk steps) q key := by
  induction steps generalizing w with
  | nil => exact keyed
  | cons s rest ih =>
    refine ih ?_ fun t member => kept t (by simp [member])
    obtain ⟨ch,here,same⟩ := keyed
    obtain ⟨move,moves,after⟩ := step_kept apart (w := w) (kept s (by simp))
    exact ⟨move ch,by rw [after,here]; rfl,(moves ch).key.trans same⟩

end World

end Integris.Supervisor
