import Integris.SocketFabric

/-! Old frames at a replaced channel. Nonce and sequence numbers start over with every new
end, so a frame of an earlier end is refused only if it was sealed under another key. -/
namespace Integris.Supervisor.World

open Prog Crypto Ipc ChannelState
open ProcessRole (nobody)

/-- The place holds an end that takes the bytes as a frame. -/
def Takes (pk : PairKey) (w : World) (q : Place) (raw : Bytes) : Prop :=
  ∃ ch f t, w.channel pk q = some ch ∧ ChannelState.decode raw () ch = (.ok f, t)

/-- What a frame authenticates. -/
def Sent.body (sent : Sent) : Bytes :=
  sent.sender.header sent.typ sent.sender.nextSendSeq sent.payload ++ sent.payload

/-- The MAC as an ideal function: no recorded frame bears another key's tag. -/
def SeparateTags (log : List Sent) (key : Bytes) : Prop := ∀ sent ∈ log,
  sent.sender.macKey ≠ key → hmacSHA256 key (Sent.body sent) ≠
    hmacSHA256 sent.sender.macKey (Sent.body sent)

/-- A frame of the other side under the new end's key, within the new end's life. -/
structure Replayable (pk : PairKey) (side : Side) (key : Bytes) (sent : Sent) : Prop where
  roles : Recognized (pk.role side) ∧ Recognized (pk.role side.other)
  sender : sent.sender.localRole = pk.role side.other
  key : sent.sender.macKey = key
  typ : sent.typ ≠ .critical
  sequence : 1 ≤ sent.sender.nextSendSeq ∧ sent.sender.nextSendSeq ≤ maxQueueDepth

variable {nonce : Fixed 16} {pk : PairKey} {sent : Sent} {side : Side} {key : Bytes} {ch : ChannelState}
  {payload : Bytes} {q : Place} {typ : MessageType} {w : World} {x : ChannelState}

theorem Recorded.reads (recorded : Recorded pk nonce side sent) : sent.sender.Reads sent.typ sent.payload sent.raw := by
  rw [recorded.raw]
  refine wire_reads (known_carried recorded.sends.known) ?_ recorded.own.next
  have small := recorded.sends.small
  rw [recorded.own.maxFrame] at small
  simp only [maxFrameBytes] at small
  omega

theorem key_ne_nil (long : 16 ≤ key.length) : key ≠ [] := by
  rintro rfl
  cases long

/-- An end that takes another end's frame computes the same tag for it. -/
theorem Recorded.same_tag (recorded : Recorded pk nonce side sent) (long : 16 ≤ ch.macKey.length)
    (authentic : ch.Sealed sent.raw) : hmacSHA256 ch.macKey (Sent.body sent) =
      hmacSHA256 sent.sender.macKey (Sent.body sent) := by
  have reads := recorded.reads
  have keyed := key_ne_nil recorded.own.key
  have size : sent.sender.macLen = macBytes := if_pos keyed
  have last : sent.raw.length - macBytes = headerBytes + sent.payload.length := by
    rw [reads.size,size]
    omega
  rcases authentic with none_ | tag_
  · exact absurd none_ (key_ne_nil long)
  · rw [last,reads.trailer,reads.length,reads.body,tag,if_pos keyed] at tag_
    exact tag_.symm

theorem roleFromCode_code (r : ProcessRole) : roleFromCode (roleCode r) = r ∨ roleFromCode (roleCode r) = nobody := by
  cases r <;> first | exact .inl rfl | exact .inr rfl

structure Proper (pk : PairKey) : Prop where
  apart : pk.lo ≠ pk.hi
  lo : pk.lo ≠ nobody
  hi : pk.hi ≠ nobody
  again : makePair pk.lo pk.hi = .ok pk

theorem makePair_proper {a b : ProcessRole} (pair : makePair a b = .ok pk) : Proper pk := by
  simp only [makePair,check,demand_bind_ok,not_or,Except.ok.injEq] at pair
  obtain ⟨⟨an,bn,apart⟩,rfl⟩ := pair
  by_cases less : a.name < b.name
  · simp only [if_pos less]
    refine ⟨apart,an,bn,?_⟩
    simp [makePair,check,demand,an,bn,apart,less,bind,Except.bind]
  · have more : b.name < a.name := by
      by_contra h
      exact apart (ProcessRole.name_injective (List.le_antisymm h less))
    simp only [if_neg less]
    refine ⟨Ne.symm apart,bn,an,?_⟩
    simp [makePair,check,demand,an,bn,Ne.symm apart,more,bind,Except.bind]

theorem Proper.role (proper : Proper pk) (s : Side) : pk.role s ≠ nobody := by
  cases s
  · exact proper.lo
  · exact proper.hi

theorem Proper.role_injective (proper : Proper pk) {s t : Side} (same : pk.role s = pk.role t) : s = t := by
  cases s <;> cases t
  · rfl
  · exact absurd same proper.apart
  · exact absurd same.symm proper.apart
  · rfl

theorem taken_replayable (proper : Proper pk) {side from_ : Side} (own : Own pk nonce side ch)
    (recorded : Recorded pk nonce from_ sent)
    (ideal : sent.sender.macKey ≠ ch.macKey → hmacSHA256 ch.macKey (Sent.body sent) ≠
      hmacSHA256 sent.sender.macKey (Sent.body sent)) (accepts : ch.Accepts sent.raw) :
    Replayable pk side ch.macKey sent := by
  have reads := recorded.reads
  have sender : roleFromCode (roleCode (pk.role from_)) = pk.role side.other := by
    rw [← recorded.own.here,← reads.sender,← own.there]
    exact accepts.expected.sender
  have receiver : roleFromCode (roleCode (pk.role from_.other)) = pk.role side := by
    rw [← recorded.own.there,← reads.receiver,← own.here]
    exact accepts.expected.receiver
  have known {s t : Side} (code : roleFromCode (roleCode (pk.role s)) = pk.role t) : Recognized (pk.role s) ∧ s = t := by
    rcases roleFromCode_code (pk.role s) with same | none_
    · exact ⟨same,proper.role_injective (same.symm.trans code)⟩
    · exact absurd (code.symm.trans none_) (proper.role t)
  obtain ⟨left,rfl⟩ := known sender
  obtain ⟨right,back⟩ := known receiver
  have sequence : sent.sender.nextSendSeq = (ch.queueDepth + 1) % 2 ^ 64 := by
    rw [← reads.sequence,accepts.expected.sequence,own.counted]
  have queue := own.queue
  have room := accepts.expected.queue
  simp only [maxQueueDepth] at queue room
  refine ⟨⟨back ▸ right,left⟩,recorded.own.here,?_,?_,?_,?_⟩
  · by_contra different
    exact ideal different (recorded.same_tag own.key accepts.authentic)
  · rw [← reads.kind]
    exact accepts.ordinary
  · rw [sequence]
    omega
  · rw [sequence]
    exact room

@[simp] theorem other_other (s : Side) : s.other.other = s := by cases s <;> rfl

theorem run_nil (pk : PairKey) (w : World) : w.run pk [] = w := rfl

theorem run_cons (pk : PairKey) (w : World) (s : Step) (rest : List Step) :
    w.run pk (s :: rest) = (w.step pk s).run pk rest := rfl

theorem step_encode (apart : pk.lo ≠ pk.hi) (here : w.channel pk q = some x) (sends : x.Sends typ payload) (p : Place) :
    (w.step pk (.encode q typ payload)).channel pk p =
      if p = q then some (x.sent typ) else w.channel pk p := by
  simp only [step,here,encode_run sends,record_channel,put_channel apart]

theorem step_encode_log (here : w.channel pk q = some x)
    (sends : x.Sends typ payload) : (w.step pk (.encode q typ payload)).log =
      ⟨x,typ,payload,x.wire typ payload⟩ :: w.log := by
  simp only [step,here,encode_run sends,record,(put_nonce w _ q).2]

theorem step_decode (apart : pk.lo ≠ pk.hi)
    {y : ChannelState} (here : w.channel pk q = some y) {raw : Bytes} (accepts : y.Accepts raw)
    (p : Place) : (w.step pk (.decode q raw)).channel pk p =
      if p = q then some (y.received raw) else w.channel pk p := by
  simp only [step,here,decode_run accepts,put_channel apart]

theorem run_append (pk : PairKey) (w : World) (first second : List Step) :
    w.run pk (first ++ second) = (w.run pk first).run pk second :=
  List.foldl_append

/-- A correspondent in the other role and the new end, after `k` frames. -/
structure Caught (pk : PairKey) (w : World) (q : Place) (key : Bytes) (k : Nat)
    (x y : ChannelState) : Prop where
  peer : w.channel pk ⟨.child, q.side.other⟩ = some x
  here : w.channel pk q = some y
  ends : Endpoints x y
  key : y.macKey = key
  depth : y.queueDepth = k

theorem other_place (q : Place) : (⟨.child,q.side.other⟩ : Place) ≠ q := by
  intro same
  have side : q.side.other = q.side := congrArg Place.side same
  exact other_ne q.side side

theorem Caught.next (proper : Proper pk) (sane : Sane pk nonce w) {k : Nat} {x y : ChannelState}
    (caught : Caught pk w q key k x y)
    (roles : Recognized (pk.role q.side) ∧ Recognized (pk.role q.side.other))
    (room : k + 1 ≤ maxQueueDepth) :
    Caught pk (w.run pk [.encode ⟨.child,q.side.other⟩ .request [],
      .decode q (x.wire .request [])]) q key (k + 1) (x.sent .request)
      (y.received (x.wire .request [])) := by
  have ordinary : Ordinary x (.request,[]) := ⟨.inl rfl,Nat.zero_le _⟩
  have sends := ordinary.sends caught.ends.live.1
  have own := sane.ends _ _ caught.peer
  have queue : y.queueDepth + 1 ≤ maxQueueDepth := by
    rw [caught.depth]
    exact room
  have accepts : y.Accepts (x.wire .request []) := by
    refine (caught.ends.accepts_iff ordinary).mpr ⟨⟨?_,?_⟩,queue⟩
    · rw [own.here]
      exact roles.2
    · rw [own.there,other_other]
      exact roles.1
  let sent_ := w.step pk (.encode ⟨.child,q.side.other⟩ .request [])
  have there : sent_.channel pk q = some y := by
    rw [step_encode proper.apart caught.peer sends,if_neg (other_place q).symm,caught.here]
  have back : sent_.channel pk ⟨.child,q.side.other⟩ = some (x.sent .request) := by
    rw [step_encode proper.apart caught.peer sends,if_pos rfl]
  rw [run_cons,run_cons]
  refine ⟨?_,?_,caught.ends.delivered ordinary queue,caught.key,?_⟩
  · rw [run_nil,step_decode proper.apart there accepts,if_neg (other_place q),back]
  · rw [run_nil,step_decode proper.apart there accepts,if_pos rfl]
  · rw [received_queueDepth,caught.ends.depth,caught.depth]

theorem made_endpoints (pk : PairKey) (long : 16 ≤ key.length) (nonce : Fixed 16)
    (s : Side) : Endpoints (made pk nonce s.other key) (made pk nonce s key) := by
  have left := newAuthenticatedChannel_made pk long nonce s.other
  rw [other_other] at left
  exact newAuthenticatedChannel_ends left (newAuthenticatedChannel_made pk long nonce s)

/-- A correspondent that takes the other role under the same key brings the new end to any
point of its life. -/
theorem catch_up (proper : Proper pk) (sane : Sane pk nonce w) (long : 16 ≤ key.length)
    (here : w.channel pk q = some (made pk nonce q.side key))
    (roles : Recognized (pk.role q.side) ∧ Recognized (pk.role q.side.other)) (k : Nat)
    (room : k ≤ maxQueueDepth) : ∃ steps x y, (∀ s ∈ steps, ¬s.Renews q) ∧ Caught pk (w.run pk steps) q key k x y := by
  induction k with
  | zero =>
    have kept : ¬Step.Renews (.rebind q.side.other key) q := fun same => other_place q same.symm
    have bound : w.step pk (.rebind q.side.other key) =
        w.put pk (made pk nonce q.side.other key) ⟨.child,q.side.other⟩ := by
      simp only [step,newAuthenticatedChannel_made pk long,sane.fabric]
    refine ⟨[.rebind q.side.other key],_,_,by simpa using kept,?_,?_,
      made_endpoints pk long nonce q.side,rfl,rfl⟩
    · rw [run_cons,run_nil,bound,put_channel proper.apart,if_pos rfl]
    · rw [run_cons,run_nil,bound,put_channel proper.apart,if_neg (other_place q).symm,here]
  | succ k ih =>
    obtain ⟨steps,x,y,kept,caught⟩ := ih (by omega)
    have next := caught.next proper (sane.run proper.apart proper.again steps) roles room
    rw [← run_append] at next
    refine ⟨_,_,_,fun s member => ?_,next⟩
    rcases List.mem_append.mp member with old | new
    · exact kept s old
    · simp only [List.mem_cons,List.not_mem_nil,or_false] at new
      rcases new with rfl | rfl <;> exact id

theorem replayable_taken (proper : Proper pk) (sane : Sane pk nonce w) (long : 16 ≤ key.length)
    (here : w.channel pk q = some (made pk nonce q.side key)) {from_ : Side}
    (recorded : Recorded pk nonce from_ sent) (replayable : Replayable pk q.side key sent) :
    ∃ steps, (∀ s ∈ steps, ¬s.Renews q) ∧ Takes pk (w.run pk steps) q sent.raw := by
  obtain ⟨roles,sender,key_,typ,first,last⟩ := replayable
  obtain ⟨steps,x,y,kept,caught⟩ := catch_up proper sane long here roles (sent.sender.nextSendSeq - 1) (by omega)
  have own := (sane.run proper.apart proper.again steps).ends q y caught.here
  have side : from_ = q.side.other := proper.role_injective (recorded.own.here.symm.trans sender)
  subst side
  have reads := recorded.reads
  have remote : y.remoteRole = sent.sender.localRole := own.there.trans sender.symm
  have local_ : y.localRole = sent.sender.remoteRole := by rw [own.here,recorded.own.there,other_other]
  have peers : Peers sent.sender y := ⟨remote,local_,own.nonce.trans recorded.own.nonce.symm,
    caught.key.trans key_.symm,own.maxFrame.trans recorded.own.maxFrame.symm⟩
  have depth := caught.depth
  have accepts : y.Accepts sent.raw := by
    refine ⟨caught.ends.live.2,reads.framed peers recorded.sends.small,
      reads.authentic peers.macKey,⟨?_,?_,?_,?_⟩,by rw [reads.kind]; exact typ⟩
    · rw [reads.sender,sender,own.there]
      exact roles.2
    · rw [reads.receiver,recorded.own.there,other_other,own.here]
      exact roles.1
    · rw [reads.sequence,own.counted,depth]
      simp only [maxQueueDepth] at last
      omega
    · rw [depth]
      simp only [maxQueueDepth] at last ⊢
      omega
  exact ⟨steps,kept,y,_,_,caught.here,decode_run accepts⟩

/-- After any history and any replacement, the old frames stay out of a new end's whole life
exactly when none of them is replayable under the key of the replacement. -/
theorem old_frames_refused_iff (plan : Plan) (nonce : Fixed 16) (a b : ProcessRole) (pk : PairKey)
    (pair : makePair a b = .ok pk) (past : List Step) (s : Step) (q : Place) (key : Bytes)
    (makes : s.Makes pk key q) (ideal : SeparateTags ((start plan nonce).run pk past).log key) :
    (∀ later : List Step, (∀ t ∈ later, ¬t.Renews q) →
      ∀ sent ∈ ((start plan nonce).run pk past).log,
        ¬Takes pk ((((start plan nonce).run pk past).step pk s).run pk later) q sent.raw) ↔
    ∀ sent ∈ ((start plan nonce).run pk past).log, ¬Replayable pk q.side key sent := by
  have proper := makePair_proper pair
  have sane := (Sane.start plan nonce).run proper.apart proper.again past
  have next := sane.step proper.apart proper.again s
  have here := step_made proper.apart proper.again (w := (start plan nonce).run pk past) makes
  rw [sane.fabric] at here
  constructor
  · intro refused sent member replayable
    obtain ⟨side,recorded⟩ := sane.log sent member
    obtain ⟨later,kept,takes⟩ := replayable_taken proper next makes.long here recorded replayable
    exact refused later kept sent member takes
  · intro none_ later kept sent member ⟨ch,f,t,there,run⟩
    obtain ⟨from_,recorded⟩ := sane.log sent member
    have own := (next.run proper.apart proper.again later).ends q ch there
    obtain ⟨ch',there',key'⟩ := Keyed.run proper.apart ⟨_,here,rfl⟩ kept
    cases there.symm.trans there'
    have same : ch.macKey = key := key'
    have taken := taken_replayable proper own recorded (same ▸ ideal sent member) (decode_ok run).1
    exact none_ sent member (same ▸ taken)

section Sample

def samplePlan : Plan :=
  ⟨[⟨.net, [.networkSockets], [.parser]⟩, ⟨.parser, [.boundedMessageIPC], [.net]⟩]⟩

def sampleNonce : Fixed 16 := .ofBytes 16 (List.replicate 16 3)

def sampleEdge : PairKey := ⟨.net, .parser⟩

variable (rootKey : Bytes)

/-- The edge is installed and the network end encodes one request. -/
def samplePast : World :=
  (start samplePlan sampleNonce).run sampleEdge
    [.replace rootKey (.ok ()), .encode ⟨.fabric, .lo⟩ .request []]

theorem sampleEdge_made : makePair .parser .net = .ok sampleEdge := by rfl

theorem sample_makes (long : 16 ≤ rootKey.length) (s : Side) :
    Step.Makes sampleEdge (pairMAC rootKey .net .parser) (.replace rootKey (.ok ())) ⟨.fabric,s⟩ :=
  ⟨rfl,channelMACKey_pair long rfl rfl (by decide)⟩

def sampleSender : ChannelState :=
  made sampleEdge sampleNonce .lo (pairMAC rootKey .net .parser)

theorem sampleSender_sends : (sampleSender rootKey).Sends .request [] := ⟨rfl,rfl,Nat.zero_le _⟩

theorem samplePast_log (long : 16 ≤ rootKey.length) :
    (samplePast rootKey).log = [⟨sampleSender rootKey,.request,[],(sampleSender rootKey).wire .request []⟩] := by
  have proper := makePair_proper sampleEdge_made
  have here := step_made proper.apart proper.again (w := start samplePlan sampleNonce) (sample_makes rootKey long .lo)
  rw [samplePast,run_cons,run_cons,run_nil]
  exact step_encode_log here (sampleSender_sends rootKey)

/-- `ReplacePair` under the same root key: the parser's new end takes the old request. -/
theorem old_request_taken : ∃ sent ∈ (samplePast (List.replicate 32 7)).log,
    Takes sampleEdge ((samplePast (List.replicate 32 7)).step sampleEdge
      (.replace (List.replicate 32 7) (.ok ()))) ⟨.fabric, .hi⟩ sent.raw := by
  have proper := makePair_proper sampleEdge_made
  have long : 16 ≤ (List.replicate 32 (7 : UInt8)).length := by decide
  have makes := sample_makes _ long .hi
  have sane : Sane sampleEdge sampleNonce (samplePast (List.replicate 32 7)) :=
    (Sane.start samplePlan sampleNonce).run proper.apart proper.again _
  have here := step_made proper.apart proper.again (w := samplePast (List.replicate 32 7)) makes
  rw [sane.fabric] at here
  have ends := made_endpoints sampleEdge makes.long sampleNonce .hi
  have ordinary : Ordinary (sampleSender (List.replicate 32 7)) (.request, []) :=
    ⟨.inl rfl,Nat.zero_le _⟩
  have accepts := (ends.accepts_iff ordinary).mpr ⟨⟨rfl,rfl⟩,by decide⟩
  refine ⟨_,by rw [samplePast_log _ long]; exact List.mem_singleton_self _,?_⟩
  exact ⟨_,_,_,here,decode_run accepts⟩

theorem sample_tags : hmacSHA256 (pairMAC (List.replicate 32 8) .net .parser)
      ((made sampleEdge sampleNonce .lo []).header .request 1 [] ++ []) ≠
    hmacSHA256 (pairMAC (List.replicate 32 7) .net .parser)
      ((made sampleEdge sampleNonce .lo []).header .request 1 [] ++ []) := by decide +kernel

theorem old_request_refused : (samplePast (List.replicate 32 7)).log ≠ [] ∧
    ∀ later : List Step, (∀ t ∈ later, ¬t.Renews ⟨.fabric, .hi⟩) →
      ∀ sent ∈ (samplePast (List.replicate 32 7)).log,
        ¬Takes sampleEdge (((samplePast (List.replicate 32 7)).step sampleEdge
          (.replace (List.replicate 32 8) (.ok ()))).run sampleEdge later) ⟨.fabric, .hi⟩ sent.raw := by
  have log := samplePast_log (List.replicate 32 7) (by decide)
  have makes := sample_makes (List.replicate 32 8) (by decide) .hi
  have ideal : SeparateTags (samplePast (List.replicate 32 7)).log
      (pairMAC (List.replicate 32 8) .net .parser) := by
    intro sent member different
    rw [log,List.mem_singleton] at member
    subst member
    exact sample_tags
  refine ⟨by rw [log]; exact List.cons_ne_nil _ _,?_⟩
  apply (old_frames_refused_iff samplePlan sampleNonce .parser .net sampleEdge sampleEdge_made _ _
    ⟨.fabric, .hi⟩ _ makes ideal).mpr
  intro sent member replayable
  have key := replayable.key
  change sent ∈ (samplePast (List.replicate 32 7)).log at member
  rw [log,List.mem_singleton] at member
  subst member
  apply sample_tags
  rw [← key]
  rfl

end Sample

end Integris.Supervisor.World
