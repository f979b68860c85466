import Integris.Launch

/-! Deliveries on a fabric. Every end talks to one other end, so deliveries on different
edges do not disturb each other and a frame is of use to its addressee alone. -/
namespace Integris.Supervisor

open Prog Crypto Ipc ChannelState Authority

variable {f : Fabric} {a b : ProcessRole} {m : MessageType × Bytes} {x y : ChannelState}

theorem Fabric.through_run {e : Endpoint} {found ch ch' : ChannelState} {a : α}
    {m : ChannelState.Op α} (here : f.channels e = some ch) (run : m () ch = (.ok a,ch')) :
    Fabric.through e found m () f = (.ok a,{ f with channels := f.channels.set e ch' }) := by
  simp only [Fabric.through,mapError,zoom,here,Option.getD_some,run]

theorem Fabric.channel_ok {ch : ChannelState} (here : f.channels ⟨a,b⟩ = some ch) : f.channel a b = .ok ch := by
  simp only [Fabric.channel,here]

/-- The ends after the receiver took the sender's frame. -/
def Fabric.handed (f : Fabric) (a b : ProcessRole) (x y : ChannelState)
    (m : MessageType × Bytes) : Fabric :=
  let taken := y.received (x.wire m.1 m.2)
  { f with channels := (f.channels.set ⟨a, b⟩ (x.sent m.1)).set ⟨b, a⟩ taken }

theorem turned (differ : b ≠ a) : (⟨b,a⟩ : Endpoint) ≠ ⟨a,b⟩ := fun same => differ (Endpoint.mk.inj same).1

theorem Fabric.deliver_run (differ : b ≠ a) (src : f.channels ⟨a,b⟩ = some x) (dst : f.channels ⟨b,a⟩ = some y)
    (sends : x.Sends m.1 m.2) (accepts : y.Accepts (x.wire m.1 m.2)) :
    Fabric.deliver a b m.1 m.2 () f = (.ok (frameOf (x.wire m.1 m.2)),f.handed a b x y m) := by
  have still : (f.channels.set ⟨a,b⟩ (x.sent m.1)) ⟨b,a⟩ = some y := by
    rw [Ends.set,Function.update_of_ne (turned differ),dst]
  have read : (get : Fabric.Op Fabric) () f = (.ok f,f) := rfl
  have found {ch : ChannelState} :
      (mapError .supervisor (ofExcept (.ok ch)) : Fabric.Op ChannelState) () f = (.ok ch,f) := rfl
  rw [Fabric.deliver,bind_run read,Fabric.channel_ok src,Fabric.channel_ok dst,bind_run found,
    bind_run found,bind_run (Fabric.through_run src (encode_run sends))]
  exact Fabric.through_run still (decode_run accepts)

/-- Two ends for every edge and none besides, in step both ways; `sent` counts the frames
each direction has carried. -/
structure Running (p : Plan) (sent : Endpoint → Nat) (f : Fabric) : Prop where
  present : ∀ a b, p.Edge a b → ∃ x, f.channels ⟨a, b⟩ = some x
  absent : ∀ a b, ¬p.Edge a b → f.channels ⟨a, b⟩ = none
  roles : ∀ a b x, f.channels ⟨a, b⟩ = some x →
    x.localRole = a ∧ x.remoteRole = b ∧ x.maxFrame = maxFrameBytes
  paired : ∀ a b x y, f.channels ⟨a, b⟩ = some x → f.channels ⟨b, a⟩ = some y →
    Endpoints x y ∧ y.queueDepth = sent ⟨a, b⟩

theorem Running.opened {p : Plan} {rootKey : Bytes} {nonce : Fixed 16}
    (made : ∀ a b, p.Edge a b → f.channels ⟨a,b⟩ = some (fresh rootKey nonce ⟨a,b⟩))
    (none_ : ∀ a b, ¬p.Edge a b → f.channels ⟨a,b⟩ = none) : Running p (fun _ => 0) f := by
  have new (a b x) (here : f.channels ⟨a,b⟩ = some x) : x = fresh rootKey nonce ⟨a,b⟩ := by
    by_cases edge : p.Edge a b
    · exact Option.some.inj (here.symm.trans (made a b edge))
    · cases here.symm.trans (none_ a b edge)
  refine ⟨fun a b edge => ⟨_,made a b edge⟩,none_,fun a b x here => ?_,fun a b x y src dst => ?_⟩
  · rw [new a b x here]
    exact ⟨rfl,rfl,rfl⟩
  · rw [new a b x src,new b a y dst]
    refine ⟨newAuthenticatedChannel_ends (newAuthenticatedChannel_fresh rootKey a b nonce) ?_,rfl⟩
    have right := newAuthenticatedChannel_fresh rootKey b a nonce
    rwa [pairMAC,macInfo_comm] at right

theorem handed_back (ends : Endpoints y x) (ordinary : Ordinary x m) (reads : x.Reads m.1 m.2 (x.wire m.1 m.2)) :
    Endpoints (y.received (x.wire m.1 m.2)) (x.sent m.1) := by
  obtain ⟨⟨out,back,nonce,macKey,maxFrame⟩,-,step,frame,queue⟩ := ends
  refine ⟨⟨?_,?_,?_,?_,?_⟩,⟨?_,?_⟩,?_,?_,?_⟩
  · simp only [received_localRole,sent_remoteRole,out]
  · simp only [received_remoteRole,sent_localRole,back]
  · simp only [received_sessionNonce,sent_sessionNonce,nonce]
  · simp only [received_macKey,sent_macKey,macKey]
  · simp only [received_maxFrame,sent_maxFrame,maxFrame]
  · simp only [received_closed,reads.kind,ordinary.open_.1,decide_false]
  · simp only [sent_closed,ordinary.open_.1,decide_false]
  · simp only [received_nextSendSeq,sent_lastRecvSeq,step]
  · simp only [received_maxFrame,frame]
  · simp only [sent_queueDepth,queue]

theorem handed_channels (e : Endpoint) : (f.handed a b x y m).channels e =
      if e = ⟨b,a⟩ then some (y.received (x.wire m.1 m.2))
      else if e = ⟨a,b⟩ then some (x.sent m.1) else f.channels e := by
  simp only [Fabric.handed,Ends.set,Function.update_apply]

section

variable {p : Plan} {sent : Endpoint → Nat} {f : Fabric}

/-- A frame that is taken moves its own two ends and counts once. -/
theorem Running.handed (running : Running p sent f) (differ : b ≠ a)
    (src : f.channels ⟨a,b⟩ = some x) (dst : f.channels ⟨b,a⟩ = some y)
    (ordinary : Ordinary x m) (room : sent ⟨a,b⟩ < maxQueueDepth) :
    Running p (Function.update sent ⟨a,b⟩ (sent ⟨a,b⟩ + 1)) (f.handed a b x y m) := by
  obtain ⟨ends,depth⟩ := running.paired a b x y src dst
  obtain ⟨back,depth'⟩ := running.paired b a y x dst src
  have reads := ends.reads (ordinary.sends ends.live.1)
  refine ⟨fun c d edge => ?_,fun c d none_ => ?_,fun c d u here => ?_,fun c d u v left right => ?_⟩
  · rw [handed_channels]
    split
    · exact ⟨_,rfl⟩
    · split
      · exact ⟨_,rfl⟩
      · exact running.present c d edge
  · have gone := running.absent c d none_
    rw [handed_channels,if_neg,if_neg,gone]
    · intro same
      cases same
      cases src.symm.trans gone
    · intro same
      cases same
      cases dst.symm.trans gone
  · rw [handed_channels] at here
    split at here
    · rename_i same
      cases same
      cases here
      rw [received_localRole,received_remoteRole,received_maxFrame]
      exact running.roles b a y dst
    · split at here
      · rename_i same
        cases same
        cases here
        rw [sent_localRole,sent_remoteRole,sent_maxFrame]
        exact running.roles a b x src
      · exact running.roles c d u here
  · rw [handed_channels] at left right
    by_cases forward : (⟨c,d⟩ : Endpoint) = ⟨a,b⟩
    · cases forward
      rw [if_neg (turned differ).symm,if_pos rfl] at left
      rw [if_pos rfl] at right
      cases left
      cases right
      refine ⟨ends.delivered ordinary ?_,?_⟩
      · rw [depth]
        exact Nat.succ_le_of_lt room
      · rw [Function.update_self,← depth,received_queueDepth,ends.depth]
    · rw [Function.update_of_ne forward]
      by_cases backward : (⟨c,d⟩ : Endpoint) = ⟨b,a⟩
      · cases backward
        rw [if_pos rfl] at left
        rw [if_neg (turned differ).symm,if_pos rfl] at right
        cases left
        cases right
        exact ⟨handed_back back ordinary reads,depth'⟩
      · have forward' : (⟨d,c⟩ : Endpoint) ≠ ⟨b,a⟩ := by
          intro same
          cases same
          exact forward rfl
        have backward' : (⟨d,c⟩ : Endpoint) ≠ ⟨a,b⟩ := by
          intro same
          cases same
          exact backward rfl
        rw [if_neg backward,if_neg forward] at left
        rw [if_neg forward',if_neg backward'] at right
        exact running.paired c d u v left right

/-- A request or a response on an edge of the plan. -/
structure Delivery where
  sender : ProcessRole
  receiver : ProcessRole
  typ : MessageType
  payload : Bytes

structure Delivery.Fits (p : Plan) (d : Delivery) : Prop where
  edge : p.Edge d.sender d.receiver
  typ : d.typ = .request ∨ d.typ = .response
  small : d.payload.length ≤ maxFrameBytes

def Delivery.on (d : Delivery) : Endpoint := ⟨d.sender, d.receiver⟩

def Delivery.of (f : Frame) : Delivery := ⟨f.sender, f.receiver, f.typ, f.payload⟩

variable (built : p.Built) (valid : p.validateIPCGraph = .ok ())
include built valid

theorem Running.deliver (running : Running p sent f) {d : Delivery} (fits : d.Fits p)
    (room : sent d.on < maxQueueDepth) : ∃ frame g,
      Fabric.deliver d.sender d.receiver d.typ d.payload () f = (.ok frame,g) ∧
      Delivery.of frame = d ∧ Running p (Function.update sent d.on (sent d.on + 1)) g := by
  have edge' := Plan.edge_symm valid fits.edge
  obtain ⟨x,src⟩ := running.present d.sender d.receiver fits.edge
  obtain ⟨y,dst⟩ := running.present d.receiver d.sender edge'
  obtain ⟨ends,depth⟩ := running.paired _ _ x y src dst
  obtain ⟨xl,xr,xm⟩ := running.roles _ _ x src
  have la : Recognized x.localRole := xl ▸ listed_recognized (built.edge fits.edge).1
  have lb : Recognized x.remoteRole := xr ▸ listed_recognized (built.edge edge').1
  have differ := (built.edge fits.edge).2
  have ordinary : Ordinary x (d.typ,d.payload) := ⟨fits.typ,by rw [xm]; exact fits.small⟩
  have sends := ordinary.sends ends.live.1
  have queue : y.queueDepth + 1 ≤ maxQueueDepth := by
    rw [depth]
    exact Nat.succ_le_of_lt room
  have accepts := (ends.accepts_iff ordinary).mpr ⟨⟨la,lb⟩,queue⟩
  have run := Fabric.deliver_run differ src dst sends accepts
  have next := running.handed differ src dst ordinary room
  have told := (ends.reads sends).frame la lb
  refine ⟨_,_,run,?_,next⟩
  rw [Delivery.of,told.sender,told.receiver,told.typ,told.payload,xl,xr]

def deliverAll : List Delivery → Fabric.Op (List Frame)
  | [] => pure []
  | d :: rest => do
    let frame ← Fabric.deliver d.sender d.receiver d.typ d.payload
    let more ← deliverAll rest
    pure (frame :: more)

/-- How many of the deliveries go through an end. -/
def through (ds : List Delivery) (e : Endpoint) : Nat := ds.countP (·.on = e)

/-- Any interleaving returns what was sent, in order, as long as no direction is worn out. -/
theorem Running.deliverAll (running : Running p sent f) {ds : List Delivery}
    (fits : ∀ d ∈ ds, d.Fits p) (room : ∀ e, sent e + through ds e ≤ maxQueueDepth) : ∃ frames g,
      Supervisor.deliverAll ds () f = (.ok frames,g) ∧ frames.map Delivery.of = ds ∧
      Running p (fun e => sent e + through ds e) g := by
  induction ds generalizing sent f with
  | nil => exact ⟨[],f,rfl,rfl,running⟩
  | cons d rest ih =>
    have count (e) : Function.update sent d.on (sent d.on + 1) e + through rest e = sent e + through (d :: rest) e := by
      rw [through,through,List.countP_cons,Function.update_apply]
      by_cases here : e = d.on
      · subst here
        simp only [if_true,decide_true]
        omega
      · simp only [here,if_false,decide_eq_true_eq,Ne.symm here]
        omega
    have space : sent d.on < maxQueueDepth := by
      have := room d.on
      rw [← count,Function.update_self] at this
      omega
    obtain ⟨frame,g,run,told,next⟩ := running.deliver built valid (fits d (by simp)) space
    have room' (e) : Function.update sent d.on (sent d.on + 1) e + through rest e ≤ maxQueueDepth := count e ▸ room e
    obtain ⟨frames,h,more,tolds,last⟩ := ih next (fun x m => fits x (by simp [m])) room'
    refine ⟨frame :: frames,h,?_,by rw [List.map_cons,told,tolds],?_⟩
    · rw [Supervisor.deliverAll,bind_run run,bind_run more]
      rfl
    · simpa only [count] using last

/-- A frame is of no use to any end but the one it is addressed to, now or later. -/
theorem Running.refuses (running : Running p sent f) {sent' : Endpoint → Nat} {g : Fabric}
    (later : Running p sent' g) {a b c d : ProcessRole} {x y x' : ChannelState}
    (src : f.channels ⟨a,b⟩ = some x) (dst : g.channels ⟨c,d⟩ = some y)
    (other : (⟨c,d⟩ : Endpoint) ≠ ⟨b,a⟩) {typ : MessageType} {payload raw : Bytes}
    (encoded : encode typ payload () x = (.ok raw,x')) : ∃ e t, decode raw () y = (.error e,t) := by
  have edge : p.Edge a b := by
    by_contra none_
    cases src.symm.trans (running.absent a b none_)
  have edge' := Plan.edge_symm valid edge
  obtain ⟨z,back⟩ := running.present b a edge'
  obtain ⟨ends,-⟩ := running.paired a b x z src back
  obtain ⟨xl,xr,-⟩ := running.roles a b x src
  obtain ⟨yl,yr,-⟩ := later.roles c d y dst
  obtain ⟨sends,rfl,-⟩ := (encode_ends x typ payload).ok_of encoded
  have la : Recognized x.localRole := xl ▸ listed_recognized (built.edge edge).1
  have lb : Recognized x.remoteRole := xr ▸ listed_recognized (built.edge edge').1
  have told := (ends.reads sends).frame la lb
  apply decode_refused
  intro accepts
  apply other
  have remote : d = a := by rw [← yr,← xl,← told.sender,accepts.sender]
  have here : c = b := by rw [← yl,← xr,← told.receiver,accepts.receiver]
  rw [remote,here]

end

/-- The child's token commits to this key for this peer. -/
def LaunchSet.Carries (set : LaunchSet) (role peer : ProcessRole) (keyID : Digest) : Prop :=
  (∃ t ∈ set.children, t.role = role ∧ ∃ ref ∈ t.peers, ref.peer = peer) ∧
    ∀ t ∈ set.children, t.role = role → ∀ ref ∈ t.peers, ref.peer = peer → ref.keyID = keyID

/-- Requests and responses on edges of the plan, fewer than 1024 in each direction. -/
structure Modest (p : Plan) (ds : List Delivery) : Prop where
  fits : ∀ d ∈ ds, d.Fits p
  few : ∀ e, through ds e < 1024

/-- HKDF as an ideal function: the purpose strings of one plan get keys of their own. -/
def SeparateKeys (p : Plan) (rootKey : Bytes) : Prop := ∀ a b c d, p.Edge a b → p.Edge c d →
  derived rootKey (macInfo a b) = derived rootKey (macInfo c d) → macInfo a b = macInfo c d

/-- A fabric and its launch tokens keep every pair of roles to itself. -/
structure Isolated (p : Plan) (f : Fabric) (set : LaunchSet) : Prop where
  ends : ∀ a b, (∃ x, f.channels ⟨a, b⟩ = some x) ↔ p.Edge a b
  shared : ∀ a b x, f.channels ⟨a, b⟩ = some x →
    (∃ y, f.channels ⟨b, a⟩ = some y ∧ y.macKey = x.macKey) ∧
      set.Carries a b (sha256 x.macKey) ∧ set.Carries b a (sha256 x.macKey)
  separate : ∀ a b c d x y, f.channels ⟨a, b⟩ = some x → f.channels ⟨c, d⟩ = some y →
    (⟨c, d⟩ : Endpoint) ≠ ⟨a, b⟩ → (⟨c, d⟩ : Endpoint) ≠ ⟨b, a⟩ → x.macKey ≠ y.macKey
  delivers : ∀ ds, Modest p ds → ∃ frames g,
    deliverAll ds () f = (.ok frames, g) ∧ frames.map Delivery.of = ds
  refuses : ∀ ds ds' frames frames' g g', Modest p ds → Modest p ds' →
    deliverAll ds () f = (.ok frames, g) → deliverAll ds' () f = (.ok frames', g') →
    ∀ a b c d x y, g.channels ⟨a, b⟩ = some x → g'.channels ⟨c, d⟩ = some y →
    (⟨c, d⟩ : Endpoint) ≠ ⟨b, a⟩ → ∀ typ payload raw x', encode typ payload () x = (.ok raw, x') →
    ∃ e t, decode raw () y = (.error e, t)

theorem fabric_isolation (children : List ChildSpec) (p : Plan)
    (accepted : buildPlan children = .ok p) (valid : p.validateIPCGraph = .ok ()) (rootKey : Bytes)
    (long : 16 ≤ rootKey.length) (nonce : Fixed 16) (ideal : SeparateKeys p rootKey) : ∃ f set,
      openFabric p rootKey nonce = .ok f ∧ materializeLaunch p rootKey nonce = .ok set ∧
      Isolated p f set := by
  have built := buildPlan_built accepted
  obtain ⟨f,opened,-,-,made,none_⟩ := openFabric_ends built valid long nonce
  obtain ⟨set,launch,-,tokens,keyed⟩ := materializeLaunch_tokens built valid long nonce
  have running : Running p (fun _ => 0) f := .opened made none_
  have edge_of {a b x} (here : f.channels ⟨a, b⟩ = some x) : p.Edge a b := by
    by_contra missing
    cases here.symm.trans (none_ a b missing)
  have key_of {a b x} (here : f.channels ⟨a, b⟩ = some x) : x.macKey = pairMAC rootKey a b := by
    cases here.symm.trans (made a b (edge_of here))
    rfl
  have carries {a b} (edge : p.Edge a b) : set.Carries a b (sha256 (pairMAC rootKey a b)) := by
    refine ⟨tokens a b edge,?_⟩
    rintro t member rfl ref inside rfl
    exact keyed t member ref inside
  have reach {ds} (modest : Modest p ds) : ∃ frames g, deliverAll ds () f = (.ok frames, g) ∧
      frames.map Delivery.of = ds ∧ Running p (fun e => 0 + through ds e) g := by
    refine running.deliverAll built valid modest.fits fun e => ?_
    have few := modest.few e
    simp only [maxQueueDepth]
    omega
  refine ⟨f,set,opened,launch,?_,?_,?_,?_,?_⟩
  · refine fun a b => ⟨?_,fun edge => ⟨_,made a b edge⟩⟩
    rintro ⟨x,here⟩
    exact edge_of here
  · intro a b x here
    have edge := edge_of here
    have edge' := Plan.edge_symm valid edge
    have same : pairMAC rootKey b a = pairMAC rootKey a b := by
      rw [pairMAC,macInfo_comm,pairMAC]
    rw [key_of here]
    refine ⟨⟨_,made b a edge',?_⟩,carries edge,?_⟩
    · exact (key_of (made b a edge')).trans same
    · exact same ▸ carries edge'
  · intro a b c d x y left right apart turned_ same
    rw [key_of left,key_of right] at same
    have edge := edge_of left
    have edge' := edge_of right
    have pair := macInfo_injective (built.edge edge).1
      (built.edge (Plan.edge_symm valid edge)).1 (built.edge edge').1
      (built.edge (Plan.edge_symm valid edge')).1 (ideal a b c d edge edge' same)
    rcases pair with ⟨rfl,rfl⟩ | ⟨rfl,rfl⟩
    · exact apart rfl
    · exact turned_ rfl
  · intro ds modest
    obtain ⟨frames,g,run,told,-⟩ := reach modest
    exact ⟨frames,g,run,told⟩
  · intro ds ds' frames frames' g g' modest modest' run run' a b c d x y src dst other _ _ _ _ encoded
    obtain ⟨_,_,same,-,left⟩ := reach modest
    obtain ⟨_,_,same',-,right⟩ := reach modest'
    cases same.symm.trans run
    cases same'.symm.trans run'
    exact left.refuses built valid right src dst other encoded

theorem smallPlan_keys : derived (List.replicate 32 7) (macInfo .net .parser) ≠
    derived (List.replicate 32 7) (macInfo .net .auth) := by decide +kernel

theorem smallPlan_separate : SeparateKeys smallPlan (List.replicate 32 7) := by
  have infos (a b) (edge : smallPlan.Edge a b) : macInfo a b = macInfo .net .parser ∨ macInfo a b = macInfo .net .auth := by
    have every : ∀ e ∈ smallPlan.edges, macInfo e.1 e.2 = macInfo .net .parser ∨
      macInfo e.1 e.2 = macInfo .net .auth := by decide
    exact every (a,b) (Plan.mem_edges.mpr edge)
  intro a b c d left right same
  rcases infos a b left with l | l <;> rcases infos c d right with r | r <;> rw [l,r] at same ⊢
  · exact absurd same smallPlan_keys
  · exact absurd same.symm smallPlan_keys

theorem fabric_isolation_small : ∃ f set,
    openFabric smallPlan (List.replicate 32 7) ⟨List.replicate 16 3, rfl⟩ = .ok f ∧
    materializeLaunch smallPlan (List.replicate 32 7) ⟨List.replicate 16 3, rfl⟩ = .ok set ∧
    Isolated smallPlan f set :=
  fabric_isolation _ _ smallPlan_built rfl (List.replicate 32 7) (by decide) _ smallPlan_separate

end Integris.Supervisor
