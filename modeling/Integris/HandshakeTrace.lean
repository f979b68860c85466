import Integris.HandshakeRun
import Mathlib.Data.Fin.VecNotation

/-! The handshake against arbitrary input. A frame is taken by its sequence number, not by
the step it belongs to, so the first part says which frames move a session in which
state. From that follows, for every input, what either end has written wherever it
stopped and which frames it must have read if it completed. -/
namespace Integris.Remote

open Session Crypto Protocol Prog

section sessions

variable {ρ : Type} {env : ρ} {s t : Session}

theorem negotiate_ok (run : negotiate env s = (.ok (),t)) : s.state = .new ∧ t.state = .negotiated := by
  apply of_finished run
  refine wp_guard fun new => ?_
  split
  · trivial
  · simp only [wp_bind,wp_modify]
    split
    · split
      · trivial
      · exact ⟨new,rfl⟩
    · exact ⟨new,rfl⟩

theorem confirmAccept_ok {vers : Version} {suite : Bytes} (run : confirmAccept vers suite env s = (.ok (),t)) : t = s := by
  apply of_finished run
  refine wp_guard fun _ => ?_
  split
  · trivial
  · split
    · split
      · trivial
      · rfl
    · split
      · trivial
      · rfl

theorem authenticate_ok (run : authenticate env s = (.ok (),t)) : s.state = .negotiated ∧ t.state = .peerAuthenticated := by
  apply of_finished run
  refine wp_guard fun state => ?_
  split
  · trivial
  · exact ⟨state,rfl⟩

variable {sid : SessionID}

/-- An accepted proof is the one the session itself would make. -/
theorem authenticateProof_ok {key dir proof : Bytes} (run : authenticateProof key sid dir proof env s = (.ok (),t)) :
    AwaitsProof s dir ∧ proof = peerProof key sid s dir ∧ t = proved s key dir proof := by
  apply of_finished run
  refine wp_guard fun state => ?_
  rw [wp_bind,wp_require]
  refine ⟨fun base => ?_,fun _ => trivial⟩
  split
  · trivial
  next highest =>
  split
  · trivial
  next first =>
  split
  · trivial
  next second =>
  split
  · trivial
  next known =>
  have ready : AwaitsProof s dir := by
    refine ⟨state,base,by simpa using highest,?_⟩
    by_cases out : dir = i2r
    · exact .inl ⟨out,by simpa [out] using first⟩
    · have back : dir = r2i := by
        by_contra other
        exact known ⟨out,other⟩
      exact .inr ⟨back,by simpa [back] using second⟩
  split
  · trivial
  next verified =>
  obtain ⟨want,made,same⟩ := except_bind_ok.mp verified
  split at same
  · cases same
  next eq =>
  refine ⟨ready,?_,rfl⟩
  rw [← not_not.mp eq]
  unfold peerAuthProof at made
  split at made
  · cases made
  · cases made
    rfl

theorem authorizeArchive_ok (run : authorizeArchive env s = (.ok (),t)) :
    s.state = .peerAuthenticated ∧ t.state = .archiveAuthorized := by
  apply of_finished run
  exact wp_guard fun state => ⟨state.1,rfl⟩

theorem authorizeArchiveProof_ok {key proof : Bytes} (run : authorizeArchiveProof key sid proof env s = (.ok (),t)) :
    AwaitsArchive s ∧ proof = archiveProof key sid s ∧ t = archived s key proof := by
  apply of_finished run
  refine wp_guard fun state => ?_
  rw [wp_bind,wp_require]
  refine ⟨fun base => ?_,fun _ => trivial⟩
  split
  · trivial
  next verified =>
  obtain ⟨want,made,same⟩ := except_bind_ok.mp verified
  split at same
  · cases same
  next eq =>
  refine ⟨⟨state.1,state.2,base⟩,?_,rfl⟩
  rw [← not_not.mp eq]
  unfold archiveAuthProof at made
  split at made
  · cases made
  · cases made
    rfl

theorem activate_ok (run : activate env s = (.ok (),t)) : s.state = .archiveAuthorized ∧ t = activated s := by
  apply of_finished run
  refine wp_guard fun state => ?_
  split
  · trivial
  · split
    · trivial
    · rw [wp_bind,wp_modify,wp_bind,wp_modify]
      split
      · next suite => exact ⟨state,by rw [activated,if_pos suite]⟩
      · next none_ => exact ⟨state,by rw [activated,if_neg none_]⟩

theorem acceptNext_ok (run : acceptNext env s = (.ok (),t)) : s.state = .active ∧ t.state = .active := by
  apply of_finished run
  refine wp_guard fun state => ?_
  rw [wp_bind,wp_require]
  exact ⟨fun _ => ⟨state,state⟩,fun _ => trivial⟩

theorem shut_ok (run : shut env s = (.ok (),t)) : s.state = .active ∧ t.state = .closed := by
  apply of_finished run
  exact wp_guard fun state => ⟨state,rfl⟩

end sessions

section frames

variable {aead : Aead} {d d' : Driver} {f : Frame}

theorem onSession_ok {m : Prog Aead Session Failure α} {a : α} (run : Driver.onSession m aead d = (.ok a,d')) :
    ∃ s, m aead d.session = (.ok a,s) ∧ d' = { d with session := s } := by
  unfold Driver.onSession zoom at run
  rcases inner : m aead d.session with ⟨r,s⟩
  rw [inner] at run
  cases run
  exact ⟨s,rfl,rfl⟩

/-- Which frames move a session, and where to. -/
inductive Moves : State → MessageType → State → Prop
  | offer : Moves .new .negotiateOffer .negotiated
  | accept : Moves .new .negotiateAccept .negotiated
  | oneProof : Moves .negotiated .peerAuth .negotiated
  | bothProofs : Moves .negotiated .peerAuth .peerAuthenticated
  | archive : Moves .peerAuthenticated .archiveAuth .archiveAuthorized
  | activate : Moves .archiveAuthorized .activate .active
  | data : Moves .active .data .active
  | close : Moves .active .close .closed

theorem proved_cases (s : Session) (key dir proof : Bytes) :
    ∃ m : Session, m.state = s.state ∧ m.authBaseDigest = s.authBaseDigest ∧ (proved s key dir proof = m ∨
      proved s key dir proof = freezeArchiveBase { m with peerAuthenticated := true, state := .peerAuthenticated }) := by
  refine ⟨_,?_,?_,(ite_eq_or_eq _ _ _).symm⟩ <;> split <;> rfl

theorem proved_state (s : Session) (key dir proof : Bytes) (negotiated : s.state = .negotiated) :
    (proved s key dir proof).state = .negotiated ∨ (proved s key dir proof).state = .peerAuthenticated := by
  obtain ⟨m,state,-,eq | eq⟩ := proved_cases s key dir proof <;> rw [eq]
  · exact .inl (state.trans negotiated)
  · exact .inr rfl

/-- Proofs are made against the digest frozen at negotiation. -/
theorem proved_base (s : Session) (key dir proof : Bytes) : (proved s key dir proof).authBaseDigest = s.authBaseDigest := by
  obtain ⟨m,-,base,eq | eq⟩ := proved_cases s key dir proof <;> rw [eq] <;> exact base

theorem wp_accepted {m : Prog Aead Session Failure Unit} {Q : Driver → Prop}
    (spec : ∀ s, m aead d.session = (.ok (),s) → Q { d with session := s }) :
    wlp (Driver.onSession m) aead d fun _ => Q := by
  unfold wlp wp
  rcases run : Driver.onSession m aead d with ⟨_ | _ | _,t⟩
  · obtain ⟨s,inner,rfl⟩ := onSession_ok run
    exact spec s inner
  · trivial
  · trivial

/-- The frame moved the session as its type allows, or did nothing at all. -/
def Reacts (d : Driver) (typ : MessageType) (t : Driver) : Prop :=
  (t = d ∧ d.session.state ≠ .new) ∨ Moves d.session.state typ t.session.state

variable {typ : MessageType} {after : State}

theorem reacts {state after : State} {s : Session} (before : d.session.state = state)
    (moved : s.state = after) (h : Moves state typ after) : Reacts d typ { d' with session := s } :=
  .inr (by rw [before,moved]; exact h)

theorem offer_reacts (body : Bytes) : wlp (Driver.handleNegotiateOffer body) aead d
    (fun _ => Reacts d .negotiateOffer) := by
  unfold wlp Driver.handleNegotiateOffer
  rw [wp_bind,wp_get,wp_when]
  refine ⟨fun new => ?_,fun old => .inl ⟨rfl,old⟩⟩
  have settles (t : Driver) : wlp (Driver.onSession negotiate) aead t fun _ => Reacts d .negotiateOffer :=
    wp_accepted fun s inner => reacts new (negotiate_ok inner).2 .offer
  rw [wp_bind,wp_when]
  refine ⟨fun _ => ?_,fun _ => settles d⟩
  simp only [Driver.readOffer,wp_bind,wp_ofExcept,wp_modify]
  exact ⟨fun _ _ => settles _,fun _ _ => trivial⟩

/-- Confirming an accept never changes the session, so it reacts as what came before. -/
theorem accept_reacts (body : Bytes) : wlp (Driver.handleNegotiateAccept body) aead d
    (fun _ => Reacts d .negotiateAccept) := by
  unfold wlp Driver.handleNegotiateAccept
  rw [wp_bind,wp_ofExcept]
  refine ⟨fun wire _ => ?_,fun _ _ => trivial⟩
  have unchanged (old : d.session.state ≠ .new) : Reacts d .negotiateAccept d := .inl ⟨rfl,old⟩
  rw [wp_bind,wp_get,wp_bind,wp_when]
  cases wire with
  | none => exact ⟨fun new => wp_accepted fun s inner => reacts new (negotiate_ok inner).2 .accept,unchanged⟩
  | some choice =>
    have confirms (t : Driver) (held : Reacts d .negotiateAccept t) :
        wlp (Driver.onSession (confirmAccept choice.1 choice.2)) aead t fun _ => Reacts d .negotiateAccept := by
      refine wp_accepted fun s inner => ?_
      rw [confirmAccept_ok inner]
      exact held
    refine ⟨fun new => ?_,fun old => confirms d (unchanged old)⟩
    exact wp_accepted fun s inner => confirms _ (reacts new (negotiate_ok inner).2 .accept)

theorem peerAuth_reacts (body : Bytes) : wlp (Driver.handlePeerAuth body) aead d fun _ => Reacts d .peerAuth := by
  unfold wlp Driver.handlePeerAuth
  rw [wp_bind,wp_get]
  split
  · rw [wp_bind,wp_ofExcept]
    refine ⟨fun parsed _ => wp_accepted fun s inner => ?_,fun _ _ => trivial⟩
    obtain ⟨ready,-,rfl⟩ := authenticateProof_ok inner
    rcases proved_state d.session d.authKey parsed.1 parsed.2 ready.state with h | h
    · exact reacts ready.state h .oneProof
    · exact reacts ready.state h .bothProofs
  · refine wp_accepted fun s inner => ?_
    obtain ⟨before,after⟩ := authenticate_ok inner
    exact reacts before after .bothProofs

theorem archiveAuth_reacts (body : Bytes) : wlp (Driver.handleArchiveAuth body) aead d
    (fun _ => Reacts d .archiveAuth) := by
  unfold wlp Driver.handleArchiveAuth
  rw [wp_bind,wp_get]
  split
  · refine wp_accepted fun s inner => ?_
    obtain ⟨ready,-,rfl⟩ := authorizeArchiveProof_ok inner
    exact reacts ready.state rfl .archive
  · refine wp_accepted fun s inner => ?_
    obtain ⟨before,after⟩ := authorizeArchive_ok inner
    exact reacts before after .archive

theorem activated_state (s : Session) : (activated s).state = .active := by
  unfold activated
  dsimp only
  split <;> rfl

theorem data_reacts (f : Frame) : wlp (Driver.handleData f) aead d fun _ => Reacts d .data := by
  unfold wlp Driver.handleData
  rw [wp_bind,wp_get,wp_bind,wp_ask,wp_bind,wp_ofExcept]
  refine ⟨fun body _ => ?_,fun _ _ => trivial⟩
  have kept : wlp (Driver.deliver body) aead d fun _ t => t.session = d.session := by
    unfold wlp Driver.deliver
    rw [wp_bind,wp_get]
    split
    · simp only [Driver.deliverChunk,wp_bind,wp_get,wp_ofExcept,wp_require,wp_modify]
      exact ⟨fun _ _ => ⟨fun _ => ⟨fun _ => trivial,fun _ => trivial⟩,fun _ => trivial⟩,
        fun _ _ => trivial⟩
    · rfl
  rw [wp_bind]
  refine kept.imp (fun _ t same => wp_accepted fun s inner => ?_)
  rw [same] at inner
  obtain ⟨before,after⟩ := acceptNext_ok inner
  exact reacts before after .data

/-- What an accepted frame can do, type by type. -/
theorem dispatch_reacts (run : Driver.dispatch f aead d = (.ok (),d')) : Reacts d f.typ d' := by
  apply of_finished run
  unfold Driver.dispatch
  split
  case h_1 typ => exact typ ▸ offer_reacts f.body
  case h_2 typ => exact typ ▸ accept_reacts f.body
  case h_3 typ => exact typ ▸ peerAuth_reacts f.body
  case h_4 typ => exact typ ▸ archiveAuth_reacts f.body
  case h_5 typ =>
    refine typ ▸ wp_accepted fun s inner => ?_
    obtain ⟨before,rfl⟩ := activate_ok inner
    exact reacts before (activated_state _) .activate
  case h_6 typ => exact typ ▸ data_reacts f
  case h_7 typ =>
    refine typ ▸ wp_accepted fun s inner => ?_
    obtain ⟨before,after⟩ := shut_ok inner
    exact reacts before after .close
  case h_8 typ => exact wp_accepted fun s inner => by cases inner
  case h_9 => trivial

theorem handle_ok (run : Driver.handle f aead d = (.ok (),d')) : f.sessionID = d.sessionID ∧ f.sequence = d.recvSeq ∧ ∃ t,
      Driver.dispatch f aead d = (.ok (),t) ∧ d' = { t with recvSeq := (t.recvSeq + 1) % 2 ^ 64 } := by
  apply of_finished run
  simp only [Driver.handle,wp_bind,wp_get,wp_require]
  refine ⟨fun id => ⟨fun sequence => ⟨fun _ => ?_,fun _ => trivial⟩,fun _ => trivial⟩,
    fun _ => trivial⟩
  unfold wp
  rcases dispatched : Driver.dispatch f aead d with ⟨_ | _ | _,t⟩
  · exact ⟨id,sequence,t,rfl,rfl⟩
  · trivial
  · trivial

theorem Moves.activating {before : State} (h : Moves before typ .active) :
    before = .active ∨ before = .archiveAuthorized ∧ typ = .activate := by
  cases h
  · exact .inr ⟨rfl,rfl⟩
  · exact .inl rfl

theorem Reacts.active (h : Reacts d typ d') (active : d'.session.state = .active) :
    d.session.state = .active ∨ d.session.state = .archiveAuthorized ∧ typ = .activate := by
  rcases h with ⟨rfl,-⟩ | moved
  · exact .inl active
  · exact Moves.activating (active ▸ moved)

theorem Moves.proving (h : Moves .negotiated typ after) : after = .negotiated ∨ after = .peerAuthenticated := by
  cases h
  · exact .inl rfl
  · exact .inr rfl

theorem Reacts.negotiated (h : Reacts d typ d') (before : d.session.state = .negotiated) :
    d'.session.state = .negotiated ∨ d'.session.state = .peerAuthenticated := by
  rcases h with ⟨rfl,-⟩ | moved
  · exact .inl before
  · exact Moves.proving (before ▸ moved)

theorem peerAuth_unkeyed (typ : f.typ = .peerAuth) (none_ : d.authKey = [])
    (run : Driver.dispatch f aead d = (.ok (),d')) : d'.session.state = .peerAuthenticated := by
  apply of_finished run
  simp only [Driver.dispatch,typ,Driver.handlePeerAuth,wp_bind,wp_get]
  rw [if_neg (by simp [none_])]
  exact wp_accepted fun s inner => (authenticate_ok inner).2

/-- With the proof key set, only the proof of a direction still open is taken. -/
theorem peerAuth_keyed (typ : f.typ = .peerAuth) (keyed : d.authKey ≠ []) (run : Driver.dispatch f aead d = (.ok (),d')) :
    ∃ dir, AwaitsProof d.session dir ∧ f.body = dir ++ peerProof d.authKey d.sessionID d.session dir ∧ d' = { d with
        session := proved d.session d.authKey dir (peerProof d.authKey d.sessionID d.session dir) } := by
  apply of_finished run
  simp only [Driver.dispatch,typ,Driver.handlePeerAuth,wp_bind,wp_get]
  rw [if_pos keyed,wp_bind,wp_ofExcept]
  refine ⟨fun parsed parse => wp_accepted fun s inner => ?_,fun _ _ => trivial⟩
  obtain ⟨dir,proof⟩ := parsed
  obtain ⟨ready,proof_eq,rfl⟩ := authenticateProof_ok inner
  simp only [parsePeerAuthBody,check_bind_ok,Except.ok.injEq,Prod.mk.injEq] at parse
  obtain ⟨-,-,front,back⟩ := parse
  dsimp only at ready proof_eq ⊢
  refine ⟨dir,ready,?_,by rw [← proof_eq]⟩
  rw [← proof_eq,← back,← front,List.take_append_drop]

theorem archiveAuth_keyed (typ : f.typ = .archiveAuth) (keyed : d.archiveKey ≠ [])
    (run : Driver.dispatch f aead d = (.ok (),d')) :
    f.body = archiveProof d.archiveKey d.sessionID d.session ∧ d' = { d with
        session := archived d.session d.archiveKey (archiveProof d.archiveKey d.sessionID d.session) } := by
  apply of_finished run
  simp only [Driver.dispatch,typ,Driver.handleArchiveAuth,wp_bind,wp_get]
  rw [if_pos keyed]
  refine wp_accepted fun s inner => ?_
  obtain ⟨-,proof,rfl⟩ := authorizeArchiveProof_ok inner
  exact ⟨proof,by rw [proof]⟩

theorem activate_taken (typ : f.typ = .activate) (run : Driver.dispatch f aead d = (.ok (),d')) :
    d' = { d with session := activated d.session } := by
  have form : Driver.dispatch f = Driver.onSession activate := by simp [Driver.dispatch,typ]
  rw [form] at run
  obtain ⟨s,inner,rfl⟩ := onSession_ok run
  rw [(activate_ok inner).2]

end frames

section stages

variable {root key : Bytes} {sid : SessionID} {aead : Aead} {d : Driver} {f : Frame}

theorem Moves.opening (h : Moves .new typ after) : typ = .negotiateOffer ∨ typ = .negotiateAccept := by
  cases h
  · exact .inl rfl
  · exact .inr rfl

theorem Moves.proof (h : Moves .negotiated typ after) : typ = .peerAuth := by cases h <;> rfl

theorem Moves.archiving (h : Moves .peerAuthenticated typ after) : typ = .archiveAuth := by cases h; rfl

theorem first_taken (run : Driver.handle f aead (bare sid key negotiated 2 1) = (.ok (),d)) :
    d = bare sid key negotiated 2 2 ∨ d.session.state = .peerAuthenticated := by
  obtain ⟨-,-,t,dispatched,rfl⟩ := handle_ok run
  rcases dispatch_reacts dispatched with ⟨rfl,-⟩ | moved
  · exact .inl rfl
  · right
    have after : t.session.state = .peerAuthenticated := peerAuth_unkeyed (Moves.proof moved) rfl dispatched
    exact after

theorem r2i_taken (run : Driver.handle f aead (armed root sid key i2r (halfProved root sid negotiated) 3 2) = (.ok (),d)) :
    d.session.state = .negotiated ∨ d = armed root sid key i2r (fullyProved root sid negotiated) 3 3 ∧
      f.typ = .peerAuth ∧ f.sessionID = sid ∧ f.body = r2i ++ proofR2I root sid negotiated := by
  obtain ⟨id,-,t,dispatched,rfl⟩ := handle_ok run
  rcases dispatch_reacts dispatched with ⟨rfl,-⟩ | moved
  · exact .inl rfl
  · have typ := Moves.proof moved
    obtain ⟨dir,ready,body,rfl⟩ := peerAuth_keyed typ (ne_nil_of_long authKey_long) dispatched
    rcases ready.dir with ⟨-,open_⟩ | ⟨rfl,-⟩
    · cases open_
    · exact .inr ⟨rfl,typ,id,body⟩

/-- The responder's second frame: the initiator's proof, or nothing, or its own proof, which
it then cannot make any more. -/
theorem i2r_taken (run : Driver.handle f aead (armed root sid key r2i negotiated 2 2) = (.ok (),d)) :
    d = armed root sid key r2i negotiated 2 3 ∨ d.authDir = r2i ∧ d.session.authR2I = true ∨
      d = armed root sid key r2i (halfProved root sid negotiated) 2 3 ∧
        f.typ = .peerAuth ∧ f.sessionID = sid ∧ f.body = i2r ++ proofI2R root sid negotiated := by
  obtain ⟨id,-,t,dispatched,rfl⟩ := handle_ok run
  rcases dispatch_reacts dispatched with ⟨rfl,-⟩ | moved
  · exact .inl rfl
  · have typ := Moves.proof moved
    obtain ⟨dir,ready,body,rfl⟩ := peerAuth_keyed typ (ne_nil_of_long authKey_long) dispatched
    rcases ready.dir with ⟨rfl,-⟩ | ⟨rfl,-⟩
    · exact .inr (.inr ⟨rfl,typ,id,body⟩)
    · exact .inr (.inl ⟨rfl,rfl⟩)

theorem archive_taken (run : Driver.handle f aead (armed root sid key r2i (fullyProved root sid negotiated) 3 3) = (.ok (),d)) :
    d.session.state = .peerAuthenticated ∨ d = armed root sid key r2i (authorized root sid negotiated) 3 4 ∧
      f.typ = .archiveAuth ∧ f.sessionID = sid ∧ f.body = proofArchive root sid negotiated := by
  obtain ⟨id,-,t,dispatched,rfl⟩ := handle_ok run
  rcases dispatch_reacts dispatched with ⟨rfl,-⟩ | moved
  · exact .inl rfl
  · have typ := Moves.archiving moved
    obtain ⟨body,rfl⟩ := archiveAuth_keyed typ (ne_nil_of_long archiveKey_long) dispatched
    exact .inr ⟨rfl,typ,id,body⟩

theorem activate_last (run : Driver.handle f aead (armed root sid key r2i (authorized root sid negotiated) 3 4) =
      (.ok (),d)) (active : d.session.state = .active) :
    d = armed root sid key r2i (running root sid negotiated) 3 5 ∧ f.typ = .activate ∧ f.sessionID = sid := by
  obtain ⟨id,-,t,dispatched,rfl⟩ := handle_ok run
  have reacts := dispatch_reacts dispatched
  rcases reacts.active active with same | ⟨-,typ⟩
  · cases same
  · obtain rfl := activate_taken typ dispatched
    exact ⟨rfl,typ,id⟩

theorem accept_opens (typ : f.typ = .negotiateAccept) (run : Driver.handle f aead (bare sid key opened 1 1) = (.ok (),d)) :
    d = bare sid key negotiated 1 2 := by
  obtain ⟨-,-,t,dispatched,rfl⟩ := handle_ok run
  have negotiates : Driver.onSession negotiate aead (bare sid key opened 1 1) =
      (.ok (),bare sid key negotiated 1 1) := onSession_run (negotiate_opened aead)
  have same : t = bare sid key negotiated 1 1 := by
    apply of_finished dispatched
    simp only [Driver.dispatch,typ,Driver.handleNegotiateAccept,wp_bind,wp_get,wp_when,wp_ofExcept]
    refine ⟨fun wire _ => ⟨fun _ => (wp_of_run negotiates).mpr ?_,fun old => absurd rfl old⟩,
      fun _ _ => trivial⟩
    cases wire with
    | none => rfl
    | some choice =>
      refine wp_accepted fun s inner => ?_
      rw [confirmAccept_ok inner]
  rw [same]
  rfl

theorem opening_type (run : Driver.handle f aead (bare sid key opened 1 1) = (.ok (),d)) :
    f.typ = .negotiateOffer ∨ f.typ = .negotiateAccept := by
  obtain ⟨-,-,t,dispatched,rfl⟩ := handle_ok run
  rcases dispatch_reacts dispatched with ⟨-,old⟩ | moved
  · exact absurd rfl old
  · exact Moves.opening moved

end stages

section exchange

/-- What a peer selector puts before the first frame. -/
def prologue (peerID : Bytes) : Bytes :=
  if peerID = [] then [] else peerPrologueMagic ++ UInt8.ofNat peerID.length :: peerID

variable (root peerID : Bytes)

/-- The next frame of a stream, valid under a key. -/
structure Hears (key before raw : Bytes) (f : Frame) (after : Bytes) : Prop where
  next : nextFrame before = some (raw, after)
  decoded : decode raw key true = .ok f

variable {root key : Bytes} {sid : SessionID} {env : Env} {c : Conn} {d : Driver}
  {kind : Kind} {message : String}

theorem await_spec (checked : d.requireMAC = true) : wp (await kind message d) env c
    (fun d' c' => c'.outbound = c.outbound ∧ ∃ raw f, Hears d.macKey c.inbound raw f c'.inbound ∧
      Driver.handle f env.aead d = (.ok (),d'))
    (fun _ c' => c'.outbound = c.outbound) (fun c' => c'.outbound = c.outbound) := by
  unfold await
  rw [wp_bind]
  refine (readFrame_spec env c).ends (fun raw c' read => ?_) (fun _ _ => And.right)
  rw [wp_bind,wp_drive]
  unfold Driver.decodeAndHandle
  rw [wp_bind,wp_get,wp_bind,wp_ofExcept]
  refine ⟨fun f decoded => ?_,fun _ _ => read.2⟩
  rw [wp_bind]
  unfold wp
  rcases handled : Driver.handle f env.aead d with ⟨_ | _ | _,t⟩
  · exact ⟨read.2,raw,f,⟨read.1,checked ▸ decoded⟩,handled⟩
  · exact read.2
  · exact read.2

theorem emit_refused {m : Driver.Op Bytes}
    (refuses : wlp m env.aead d (fun _ _ => False)) :
    wp (emit kind message m d) env c (fun _ _ => False) (fun _ c' => c' = c) (fun c' => c' = c) := by
  unfold emit
  rw [wp_bind,wp_drive]
  exact refuses.stops (fun _ _ => False.elim) (fun _ _ => rfl)

theorem peerAuth_refused (stuck : d.session.state ≠ .negotiated) :
    wlp Driver.encodePeerAuth env.aead d fun _ _ => False := by
  refine wp_guard fun _ => ?_
  rw [wp_bind,Driver.onSession,wp_zoom]
  exact wp_guard fun state => absurd state stuck

theorem archiveAuth_refused (stuck : d.session.state ≠ .peerAuthenticated) :
    wlp Driver.encodeArchiveAuth env.aead d fun _ _ => False := by
  refine wp_guard fun _ => ?_
  rw [wp_bind,Driver.onSession,wp_zoom]
  exact wp_guard fun state => absurd state.1 stuck

/-- A proof of its own direction that came from outside cannot be made again. -/
theorem peerAuth_spent (dir : d.authDir = r2i) (spent : d.session.authR2I = true) :
    wlp Driver.encodePeerAuth env.aead d fun _ _ => False := by
  have own : (if d.authDir = [] then i2r else d.authDir) = r2i := by
    rw [dir]
    decide
  refine wp_guard fun _ => ?_
  simp only [own]
  rw [wp_bind,Driver.onSession,wp_zoom]
  have unchanged : wlp (makeAuthProof d.authKey d.sessionID r2i) env.aead d.session fun _ s => s = d.session := by
    unfold makeAuthProof
    simp only [wp_bind,wp_get,wp_require,wp_ofExcept]
    exact ⟨fun _ => ⟨fun _ => ⟨fun _ => ⟨fun _ _ => trivial,fun _ _ => trivial⟩,fun _ => trivial⟩,
      fun _ => trivial⟩,fun _ => trivial⟩
  refine unchanged.imp (fun proof s same => ?_)
  subst same
  rw [wp_bind]
  refine wp.mono (Q := fun _ t => t.session = d.session) (E := fun _ _ => True) (C := fun _ => True)
    ?_ (fun raw t same => ?_) (fun _ _ => id) (fun _ => id)
  · simp only [Driver.encodeFrame,wp_bind,wp_get,wp_ask,wp_ofExcept,wp_modify,wp_pure]
    exact ⟨fun _ _ => ⟨fun _ _ => trivial,fun _ _ => trivial⟩,fun _ _ => trivial⟩
  · rw [wp_bind]
    refine wp_accepted fun s inner => ?_
    rw [same] at inner
    rcases (authenticateProof_ok inner).1.dir with ⟨other,-⟩ | ⟨-,unspent⟩
    · exact absurd other (by decide)
    · rw [spent] at unspent
      cases unspent

theorem install_refused (inactive : d.session.state ≠ .active) :
    wp (advance kind message (Driver.installTrafficKey root) d) env c (fun _ _ => False)
      (fun _ c' => c' = c) (fun c' => c' = c) := by
  unfold advance
  rw [wp_bind,wp_drive]
  unfold Driver.installTrafficKey
  rw [wp_bind,wp_get,wp_bind,wp_require]
  exact ⟨fun active => absurd active inactive,fun _ => rfl⟩

theorem acceptLast_stuck (checked : d.requireMAC = true) (early : d.session.state ≠ .archiveAuthorized)
    (inactive : d.session.state ≠ .active) :
    wp (acceptLast root d) env c (fun _ _ => False) (fun _ c' => c'.outbound = c.outbound)
      (fun c' => c'.outbound = c.outbound) := by
  unfold acceptLast
  rw [wp_bind]
  refine (await_spec checked).imp (fun d' c' taken => ?_)
  obtain ⟨out,raw,f,-,handled⟩ := taken
  obtain ⟨-,-,t,dispatched,counted⟩ := handle_ok handled
  have still : d'.session.state ≠ .active := by
    rw [counted]
    intro active
    rcases (dispatch_reacts dispatched).active active with before | ⟨before,-⟩
    · exact inactive before
    · exact early before
  exact (install_refused still).refused (fun _ => out) out

variable (root sid)

/-- The frames an initiator writes, in order. -/
def initiatorFrames : List Frame :=
  [offerFrame sid,i2rFrame root sid negotiated,archiveFrame root sid negotiated,activateFrame sid]

def responderFrames : List Frame := [acceptFrame sid,r2iFrame root sid negotiated]

variable {root sid}

def stream (key : Bytes) (fs : List Frame) : Bytes := (fs.map (·.wire key)).flatten

theorem stream_append (fs gs : List Frame) : stream key (fs ++ gs) = stream key fs ++ stream key gs := by simp [stream]

theorem stream_take (fs : List Frame) (m n : Nat) :
    stream key (fs.take m) ++ stream key ((fs.drop m).take n) = stream key (fs.take (m + n)) := by
  rw [← stream_append,List.take_add]

/-- The frames of a stream, at most `n` of them. -/
def framesOf : Nat → Bytes → List Bytes
  | 0, _ => []
  | n + 1, bytes =>
    match nextFrame bytes with
    | some (raw, rest) => raw :: framesOf n rest
    | none => []

theorem framesOf_next {n : Nat} {bytes raw rest : Bytes} (next : nextFrame bytes = some (raw,rest)) :
    framesOf (n + 1) bytes = raw :: framesOf n rest := by rw [framesOf,next]

theorem framesOf_empty (n : Nat) : framesOf n [] = [] := by
  cases n with
  | zero => rfl
  | succ n =>
    have empty : nextFrame [] = none := by decide
    rw [framesOf,empty]

theorem framesOf_stream {fs : List Frame} (small : ∀ f ∈ fs, f.body.length ≤ maxBodyBytes) {n : Nat}
    (few : fs.length ≤ n) : framesOf n (stream key fs) = fs.map (·.wire key) := by
  induction fs generalizing n with
  | nil => exact framesOf_empty n
  | cons f fs ih =>
    obtain ⟨n,rfl⟩ : ∃ k, n = k + 1 := ⟨n - 1,by simp at few; omega⟩
    have next := nextFrame_wire (small f (by simp)) key (stream key fs)
    rw [stream,List.map_cons,List.flatten_cons,← stream,framesOf_next next,
      ih (fun g hg => small g (by simp [hg])) (by simpa using few)]

theorem initiatorFrames_encodable : ∀ f ∈ initiatorFrames root sid, f.Encodable := by
  simp [initiatorFrames,offerFrame_encodable,i2rFrame_encodable,archiveFrame_encodable,activateFrame_encodable]

theorem responderFrames_encodable : ∀ f ∈ responderFrames root sid, f.Encodable := by
  simp [responderFrames,acceptFrame_encodable,r2iFrame_encodable]

/-- The initiator's second half has written part of its frames wherever it stops, and
completes only on the responder's proof. -/
theorem dialProofs_trace (size : root.length = rootKeySize) (long : 16 ≤ key.length) :
    wp (dialProofs root (bare sid key negotiated 2 2)) env c (fun d c' => d = dialed root sid key ∧
        c'.outbound = c.outbound ++ stream key ((initiatorFrames root sid).drop 1) ∧
        ∃ raw f, Hears key c.inbound raw f c'.inbound ∧ f.typ = .peerAuth ∧ f.sessionID = sid ∧
          f.body = r2i ++ proofR2I root sid negotiated)
      (fun _ c' => ∃ n, c'.outbound = c.outbound ++ stream key (((initiatorFrames root sid).drop 1).take n))
      (fun c' => ∃ n, c'.outbound =
        c.outbound ++ stream key (((initiatorFrames root sid).drop 1).take n)) := by
  obtain ⟨i,o⟩ := c
  unfold dialProofs
  rw [wp_bind_of_run (withAuthKeys_run size i2r negotiated 2 2 _),wp_bind_of_run (i2r_step long _ _),wp_bind]
  have one : o ++ (i2rFrame root sid negotiated).wire key = o ++ stream key (((initiatorFrames root sid).drop 1).take 1) := by
    simp [initiatorFrames,stream]
  refine (await_spec (d := armed root sid key i2r (halfProved root sid negotiated) 3 2) rfl).stops
    (fun d c' taken => ?_) (fun _ h => ⟨1,h.trans one⟩)
  obtain ⟨out,raw,f,hears,handled⟩ := taken
  obtain ⟨i',o'⟩ := c'
  obtain rfl : o' = _ := out
  rcases r2i_taken handled with stuck | ⟨same,typ,id,body⟩
  · rw [wp_bind]
    exact (emit_refused (archiveAuth_refused (by rw [stuck]; decide))).refused (fun _ => ⟨1,one⟩) ⟨1,one⟩
  · rw [same,wp_bind_of_run (archive_step long _ _),wp_bind_of_run (activated_step _),
      wp_bind_of_run (activate_step long _ _),wp_of_run (dialed_step size _)]
    refine ⟨rfl,?_,raw,f,hears,typ,id,body⟩
    simp [initiatorFrames,stream]

theorem dialProofs_stuck (stuck : d.session.state ≠ .negotiated) :
    wp (dialProofs root d) env c (fun _ _ => False) (fun _ c' => c' = c) (fun c' => c' = c) := by
  unfold dialProofs
  rw [wp_bind]
  have keys : wp (withAuthKeys root i2r d) env c (fun d' c' => d'.session = d.session ∧ c' = c)
      (fun _ c' => c' = c) (fun c' => c' = c) := by
    simp [withAuthKeys,wrapped,wp_bind,wp_mapError,wp_ofExcept,wp_pure]
  refine keys.imp ?_
  rintro d' _ ⟨same,rfl⟩
  rw [wp_bind]
  exact (emit_refused (peerAuth_refused (by rwa [same]))).imp (fun _ _ => False.elim)

variable {peerID inbound : Bytes}

/-- The initiator's first half: what it has written, and the driver it goes on with. -/
theorem dialNegotiation_trace (derives : deriveMACKey root peerID = .ok key) :
    wp (dialNegotiation root peerID) env ⟨inbound,[]⟩
      (fun d c => root.length = rootKeySize ∧ (∃ raw, nextFrame inbound = some (raw,c.inbound)) ∧
        c.outbound = prologue peerID ++ stream key ((initiatorFrames root env.sessionID).take 1) ∧
        (d = bare env.sessionID key negotiated 2 2 ∨ d.session.state = .peerAuthenticated))
      (fun _ c => c.outbound = [] ∨ ∃ n ≤ 1, c.outbound =
        prologue peerID ++ stream key ((initiatorFrames root env.sessionID).take n))
      (fun c => c.outbound = [] ∨ ∃ n ≤ 1, c.outbound =
        prologue peerID ++ stream key ((initiatorFrames root env.sessionID).take n)) := by
  have long := deriveMACKey_long derives
  unfold dialNegotiation
  rw [wp_bind,wp_require]
  refine ⟨fun size => ?_,fun _ => .inl rfl⟩
  have announced : wp (Prog.when (peerID ≠ []) (writePeerPrologue peerID)) env ⟨inbound,[]⟩
      (fun _ c => c = ⟨inbound,prologue peerID⟩) (fun _ c => c.outbound = []) (fun _ => False) := by
    rw [wp_when]
    refine ⟨fun some_ => ?_,fun none_ => ?_⟩
    · simp [writePeerPrologue,wp_bind,wp_ofExcept,wp_modify,prologue,some_]
    · simp [prologue,not_not.mp none_]
  rw [wp_bind]
  refine announced.ends ?_ (fun _ _ => .inl)
  rintro _ _ rfl
  rw [wp_bind_of_run (wrapped_run derives _ _),wp_bind_of_run (ask_run _ _)]
  simp only [fresh_bare]
  rw [wp_bind_of_run (negotiate_step _),
    wp_bind_of_run (offer_step long _ _ : _ = (_,⟨_,_ ++ (offerFrame env.sessionID).wire key⟩))]
  have one : prologue peerID ++ (offerFrame env.sessionID).wire key =
      prologue peerID ++ stream key ((initiatorFrames root env.sessionID).take 1) := by
    simp [initiatorFrames,stream]
  refine (await_spec (d := bare env.sessionID key negotiated 2 1) rfl).stops (fun d c taken => ?_)
    (fun _ h => .inr ⟨1,Nat.le_refl 1,h.trans one⟩)
  obtain ⟨out,raw,f,hears,handled⟩ := taken
  exact ⟨size,⟨raw,hears.next⟩,out.trans one,first_taken handled⟩

/-- An initiator that stopped has written its selector and the first of its frames, and more
than the offer only past its negotiation. -/
def DialWrote (root peerID key : Bytes) (env : Env) (inbound : Bytes) (c : Conn) : Prop :=
  c.outbound = [] ∨ ∃ n,
    c.outbound = prologue peerID ++ stream key ((initiatorFrames root env.sessionID).take n) ∧
    (2 ≤ n → ∃ c, dialNegotiation root peerID env ⟨inbound, []⟩ =
      (.ok (bare env.sessionID key negotiated 2 2), c))

theorem dialHandshake_trace (derives : deriveMACKey root peerID = .ok key) (env : Env) :
    wp (dialHandshake root peerID) env ⟨inbound,[]⟩
      (fun d c => DialWrote root peerID key env inbound c ∧ d = dialed root env.sessionID key ∧
        ∃ raw1 mid raw2 f, nextFrame inbound = some (raw1,mid) ∧ Hears key mid raw2 f c.inbound ∧
          f.typ = .peerAuth ∧ f.sessionID = env.sessionID ∧ f.body = r2i ++ proofR2I root env.sessionID negotiated)
      (fun _ => DialWrote root peerID key env inbound) (DialWrote root peerID key env inbound) := by
  rw [dialHandshake,wp_bind]
  refine ((dialNegotiation_trace derives).and (wp_self _ _ _)).stops (fun d c h => ?_) (fun c h => ?_)
  · obtain ⟨⟨size,⟨raw1,first⟩,offer,next⟩,run⟩ := h
    rcases next with same | stuck
    · rw [same] at run ⊢
      have wrote (n : Nat) (c' : Conn) (more : c'.outbound =
          c.outbound ++ stream key (((initiatorFrames root env.sessionID).drop 1).take n)) :
          DialWrote root peerID key env inbound c' := by
        refine .inr ⟨1 + n,?_,fun _ => ⟨c,run⟩⟩
        rw [more,offer,List.append_assoc,stream_take]
      refine (dialProofs_trace size (deriveMACKey_long derives)).stops (fun _ c' h => ?_) (fun c' h => ?_)
      · obtain ⟨done,out,raw2,f,hears⟩ := h
        exact ⟨wrote 3 c' out,done,raw1,c.inbound,raw2,f,first,hears⟩
      · obtain ⟨n,out⟩ := h
        exact wrote n c' out
    · have one : DialWrote root peerID key env inbound c := .inr ⟨1,offer,fun many => absurd many (by decide)⟩
      exact (dialProofs_stuck (by rw [stuck]; decide)).refused (fun _ => one) one
  · refine h.1.imp id fun some_ => ?_
    obtain ⟨n,few,out⟩ := some_
    exact ⟨n,out,fun many => absurd many (by omega)⟩

theorem emit_spec (m : Driver.Op Bytes) : wp (emit kind message m d) env c
    (fun _ c' => c'.inbound = c.inbound) (fun _ c' => c' = c) (fun c' => c' = c) := by
  unfold emit
  rw [wp_bind,wp_drive]
  unfold wp
  rcases m env.aead d with ⟨raw | _ | _,t⟩
  · change wp (writeFrame raw >>= fun _ => pure t) env c _ _ _
    simp [writeFrame,wp_bind,wp_require,wp_modify,wp_pure]
  · rfl
  · rfl

/-- The responder's first half. An accept opens it as well as an offer. -/
theorem acceptNegotiation_trace (derives : deriveMACKey root peerID = .ok key) :
    wp (acceptNegotiation root peerID) env ⟨inbound,[]⟩
      (fun d c => root.length = rootKeySize ∧ ∃ raw f, Hears key inbound raw f c.inbound ∧
        (f.typ = .negotiateOffer ∨ f.typ = .negotiateAccept) ∧
        (f.typ = .negotiateAccept ∨ f = (offerFrame f.sessionID).stamped → d = bare f.sessionID key negotiated 2 2 ∧
          c.outbound = stream key ((responderFrames root f.sessionID).take 1)))
      (fun _ c => c.outbound = []) (fun c => c.outbound = []) := by
  have long := deriveMACKey_long derives
  unfold acceptNegotiation
  rw [wp_bind,wp_require]
  refine ⟨fun size => ?_,fun _ => rfl⟩
  rw [wp_bind_of_run (wrapped_run derives _ _),wp_bind]
  refine (readFrame_spec env _).ends (fun raw c read => ?_) (fun _ _ => And.right)
  obtain ⟨i,o⟩ := c
  obtain ⟨next,rfl⟩ := read
  rw [wp_bind,wrapped,wp_mapError,wp_ofExcept]
  refine ⟨fun f decoded => ?_,fun _ _ => rfl⟩
  simp only [fresh_bare]
  rw [wp_bind]
  unfold advance
  rw [wp_bind,wp_drive]
  unfold wp
  rcases handled : Driver.handle f env.aead (bare f.sessionID key opened 1 1) with ⟨_ | _ | _,d⟩
  · have typ := opening_type handled
    change wp (emit .handshake "accept" Driver.encodeNegotiateAccept d) env ⟨i,[]⟩ _ _ _
    by_cases genuine : f.typ = .negotiateAccept ∨ f = (offerFrame f.sessionID).stamped
    · have negotiates : d = bare f.sessionID key negotiated 1 2 := by
        rcases genuine with accept | offer
        · exact accept_opens accept handled
        · rw [offer] at handled
          have run : Driver.handle (offerFrame f.sessionID).stamped env.aead
              (bare f.sessionID key opened 1 1) = (.ok (),bare f.sessionID key negotiated 1 2) :=
            opened_by (.inl rfl)
          exact (Prod.mk.inj (handled.symm.trans run)).2
      rw [negotiates,wp_of_run (accept_step long _ _ :
        _ = (_,⟨_,_ ++ (acceptFrame f.sessionID).wire key⟩))]
      refine ⟨size,raw,f,⟨next,decoded⟩,typ,fun _ => ⟨rfl,?_⟩⟩
      simp [responderFrames,stream]
    · refine (emit_spec _).mono (fun d c same => ?_) ?_ ?_
      · exact ⟨size,raw,f,⟨same ▸ next,decoded⟩,typ,fun h => absurd h genuine⟩
      · rintro _ _ rfl
        rfl
      · rintro _ rfl
        rfl
  · rfl
  · rfl

/-- The responder's proof does not depend on the initiator's having come. -/
theorem early_r2i_step (long : 16 ≤ key.length) (i o : Bytes) :
    emit .auth "peer auth r2i" Driver.encodePeerAuth (armed root sid key r2i negotiated 2 3) env ⟨i,o⟩ =
      (.ok (armed root sid key r2i (proved negotiated (authKey root sid) r2i (proofR2I root sid negotiated)) 3 3),
        ⟨i,o ++ (r2iFrame root sid negotiated).wire key⟩) := by
  have ready : AwaitsProof negotiated r2i := ⟨rfl,rfl,rfl,.inr ⟨rfl,rfl⟩⟩
  have base : (halfProved root sid negotiated).authBaseDigest = negotiated.authBaseDigest := proved_base _ _ _ _
  have proof : peerProof (authKey root sid) sid negotiated r2i = proofR2I root sid negotiated := by
    rw [proofR2I,peerProof,peerProof,base]
  have sent : Driver.encodePeerAuth env.aead (armed root sid key r2i negotiated 2 3) =
      (.ok (((armed root sid key r2i negotiated 2 3).outbound .peerAuth
          (r2i ++ peerProof (authKey root sid) sid negotiated r2i)).wire key),
        armed root sid key r2i (proved negotiated (authKey root sid) r2i
          (peerProof (authKey root sid) sid negotiated r2i)) 3 3) := peerAuth_sent long 3 ready rfl
  have frame : (armed root sid key r2i negotiated 2 3).outbound .peerAuth (r2i ++ proofR2I root sid negotiated) =
      r2iFrame root sid negotiated := rfl
  rw [proof,frame] at sent
  exact emit_run sent (wire_header _ _)

theorem handle_checked {f : Frame} {d' : Driver} {aead : Aead}
    (run : Driver.handle f aead d = (.ok (),d')) (checked : d.requireMAC = true) :
    d'.requireMAC = true :=
  (((Driver.keeps_handle d f) d (.refl d)).ok_of run).requireMAC.trans checked

/-- The responder's second half: it has written its proof or not, and completes only on the
initiator's two proofs and its activation. -/
theorem acceptProofs_trace (size : root.length = rootKeySize) (long : 16 ≤ key.length) :
    wp (acceptProofs root (bare sid key negotiated 2 2)) env c
      (fun d c' => d = accepted root sid key ∧
        c'.outbound = c.outbound ++ stream key ((responderFrames root sid).drop 1) ∧
        ∃ raw2 f2 in2 raw3 f3 in3 raw4 f4,
          (Hears key c.inbound raw2 f2 in2 ∧ f2.typ = .peerAuth ∧ f2.sessionID = sid ∧
            f2.body = i2r ++ proofI2R root sid negotiated) ∧
          (Hears key in2 raw3 f3 in3 ∧ f3.typ = .archiveAuth ∧ f3.sessionID = sid) ∧
          Hears key in3 raw4 f4 c'.inbound ∧ f4.typ = .activate ∧ f4.sessionID = sid)
      (fun _ c' => ∃ n, c'.outbound = c.outbound ++ stream key (((responderFrames root sid).drop 1).take n))
      (fun c' => ∃ n, c'.outbound =
        c.outbound ++ stream key (((responderFrames root sid).drop 1).take n)) := by
  obtain ⟨i,o⟩ := c
  have none_ : o = o ++ stream key (((responderFrames root sid).drop 1).take 0) := by simp [stream]
  have one : o ++ (r2iFrame root sid negotiated).wire key =
      o ++ stream key (((responderFrames root sid).drop 1).take 1) := by
    simp [responderFrames,stream]
  unfold acceptProofs
  rw [wp_bind_of_run (withAuthKeys_run size r2i negotiated 2 2 _),wp_bind]
  refine (await_spec (d := armed root sid key r2i negotiated 2 2) rfl).stops (fun d c2 taken => ?_)
    (fun _ h => ⟨0,h.trans none_⟩)
  obtain ⟨out2,raw2,f2,hears2,handled2⟩ := taken
  obtain ⟨in2,o2⟩ := c2
  obtain rfl : o2 = o := out2
  rcases i2r_taken handled2 with idle | ⟨dir,spent⟩ | ⟨same,typ2,id2,body2⟩
  · -- one step behind: the two frames left are one too few
    rw [idle,wp_bind_of_run (early_r2i_step long _ _),wp_bind]
    refine (await_spec (d := armed root sid key r2i
        (proved negotiated (authKey root sid) r2i (proofR2I root sid negotiated)) 3 3) rfl).stops
      (fun d c3 taken => ?_) (fun _ h => ⟨1,h.trans one⟩)
    obtain ⟨out3,raw3,f3,-,handled3⟩ := taken
    have checked := handle_checked handled3 rfl
    obtain ⟨-,-,t,dispatched,counted⟩ := handle_ok handled3
    have behind := (dispatch_reacts dispatched).negotiated rfl
    have early : d.session.state ≠ .archiveAuthorized ∧ d.session.state ≠ .active := by
      rw [counted]
      rcases behind with h | h <;> simp [h]
    exact (acceptLast_stuck checked early.1 early.2).stops (fun _ _ => False.elim)
      (fun _ h => ⟨1,h.trans (out3.trans one)⟩)
  · rw [wp_bind]
    exact (emit_refused (peerAuth_spent dir spent)).refused (fun _ => ⟨0,none_⟩) ⟨0,none_⟩
  · rw [same,wp_bind_of_run (r2i_step long _ _ (halfProved_awaits root sid)),wp_bind]
    refine (await_spec (d := armed root sid key r2i (fullyProved root sid negotiated) 3 3) rfl).stops
      (fun d c3 taken => ?_) (fun _ h => ⟨1,h.trans one⟩)
    obtain ⟨out3,raw3,f3,hears3,handled3⟩ := taken
    rcases archive_taken handled3 with idle | ⟨same,typ3,id3,-⟩
    · exact (acceptLast_stuck (handle_checked handled3 rfl) (by rw [idle]; decide)
        (by rw [idle]; decide)).stops (fun _ _ => False.elim)
        (fun _ h => ⟨1,h.trans (out3.trans one)⟩)
    · unfold acceptLast
      rw [same,wp_bind]
      refine (await_spec (d := armed root sid key r2i (authorized root sid negotiated) 3 4) rfl).stops
        (fun d c4 taken => ?_) (fun _ h => ⟨1,h.trans (out3.trans one)⟩)
      obtain ⟨out4,raw4,f4,hears4,handled4⟩ := taken
      by_cases active : d.session.state = .active
      · obtain ⟨same,typ4,id4⟩ := activate_last handled4 active
        rw [same,wp_of_run (accepted_step size _)]
        exact ⟨rfl,out4.trans (out3.trans one),raw2,f2,_,raw3,f3,_,raw4,f4,
          ⟨hears2,typ2,id2,body2⟩,⟨hears3,typ3,id3⟩,hears4,typ4,id4⟩
      · have same := out4.trans (out3.trans one)
        exact (install_refused active).refused (fun _ => ⟨1,same⟩) ⟨1,same⟩

/-- The stream opens with no offer but that of this code. -/
def Opens (key inbound : Bytes) : Prop :=
  ∀ raw f rest, Hears key inbound raw f rest → f.typ = .negotiateOffer →
    f = (offerFrame f.sessionID).stamped

/-- A responder that stopped has written the first of its frames, and any only past its
negotiation. -/
def AcceptWrote (root peerID key : Bytes) (env : Env) (inbound : Bytes) (c : Conn) : Prop :=
  ∃ sid n, c.outbound = stream key ((responderFrames root sid).take n) ∧
    (1 ≤ n → ∃ c, acceptNegotiation root peerID env ⟨inbound, []⟩ =
      (.ok (bare sid key negotiated 2 2), c))

/-- The four frames a completed responder has read. -/
structure Served (key inbound : Bytes) (sid : SessionID) (raw : Fin 4 → Bytes) (f : Fin 4 → Frame) :
    Prop where
  frames : framesOf 4 inbound = [raw 0,raw 1,raw 2,raw 3]
  decoded : ∀ i, decode (raw i) key true = .ok (f i)
  id : ∀ i, (f i).sessionID = sid
  opening : (f 0).typ = .negotiateOffer ∨ (f 0).typ = .negotiateAccept
  proof : (f 1).typ = .peerAuth
  archive : (f 2).typ = .archiveAuth
  activate : (f 3).typ = .activate

theorem acceptHandshake_trace (derives : deriveMACKey root peerID = .ok key)
    (opens : Opens key inbound) (env : Env) : wp (acceptHandshake root peerID) env ⟨inbound,[]⟩
      (fun d c => AcceptWrote root peerID key env inbound c ∧ ∃ sid raw f, d = accepted root sid key ∧
        Served key inbound sid raw f ∧ (f 1).body = i2r ++ proofI2R root sid negotiated ∧
        ∃ c, acceptNegotiation root peerID env ⟨inbound,[]⟩ = (.ok (bare sid key negotiated 2 2),c))
      (fun _ => AcceptWrote root peerID key env inbound) (AcceptWrote root peerID key env inbound) := by
  have nothing (c : Conn) (empty : c.outbound = []) : AcceptWrote root peerID key env inbound c :=
    ⟨Fixed.zero 16,0,by rw [empty]; rfl,fun many => absurd many (by decide)⟩
  rw [acceptHandshake,wp_bind]
  refine ((acceptNegotiation_trace derives).and (wp_self _ _ _)).stops (fun d c h => ?_) (fun c h => nothing c h.1)
  obtain ⟨⟨size,raw1,f1,hears1,typ1,negotiates⟩,run⟩ := h
  obtain ⟨same,accept⟩ := negotiates (typ1.elim (fun offer => .inr (opens raw1 f1 _ hears1 offer)) .inl)
  rw [same] at run ⊢
  have wrote (n : Nat) (c' : Conn) (more : c'.outbound =
      c.outbound ++ stream key (((responderFrames root f1.sessionID).drop 1).take n)) :
      AcceptWrote root peerID key env inbound c' := by
    refine ⟨f1.sessionID,1 + n,?_,fun _ => ⟨c,run⟩⟩
    rw [more,accept,stream_take]
  refine (acceptProofs_trace size (deriveMACKey_long derives)).stops (fun d c' h => ?_) (fun c' h => ?_)
  swap
  · obtain ⟨n,out⟩ := h
    exact wrote n c' out
  obtain ⟨done,out,raw2,f2,in2,raw3,f3,in3,raw4,f4,⟨hears2,typ2,id2,body2⟩,⟨hears3,typ3,id3⟩,hears4,typ4,id4⟩ := h
  refine ⟨wrote 1 c' out,f1.sessionID,![raw1,raw2,raw3,raw4],![f1,f2,f3,f4],done,⟨?_,?_,?_,typ1,typ2,typ3,typ4⟩,body2,_,run⟩
  · rw [framesOf_next hears1.next,framesOf_next hears2.next,framesOf_next hears3.next,framesOf_next hears4.next]
    rfl
  · simpa [Fin.forall_fin_succ] using ⟨hears1.decoded,hears2.decoded,hears3.decoded,hears4.decoded⟩
  · simpa [Fin.forall_fin_succ] using ⟨id2,id3,id4⟩

end exchange

end Integris.Remote
