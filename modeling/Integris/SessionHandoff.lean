import Integris.SessionSeal

/-! A session handed over under seal carries on as if it had not been: the peer sees
the same bytes. What the rebuilt session says of itself is another matter, since the
versions it believes were offered are its own. -/
namespace Integris.Remote

open Session Crypto Protocol Prog

/-! ## The handoff -/

/-- What is conferred of a driver. -/
def conferred (d : Driver) : SessionSeal :=
  ⟨d.sessionID,d.macKey,d.aeadKey,d.sendSeq,d.recvSeq,d.session.selected,d.session.selectedSuite⟩

theorem conferred_fits {d : Driver} (settled : Settled d) : (conferred d).Fits :=
  ⟨settled.macKey.2,by rw [conferred,settled.aeadKey]; decide,settled.blank.2.2,settled.sendSeq,settled.quiet.recvSeq⟩

/-- The driver the next role works with. -/
def resumed (d : Driver) : Driver := { unsealed (conferred d) with aeadKey := d.aeadKey }

theorem handoff_run {d : Driver} (settled : Settled d) (env : Env) (c : Conn) :
    ∃ s raw, sealFromDriver d = .ok s ∧ encodeSeal s = .ok raw ∧ sessionFromSeal raw env c = (.ok (resumed d),c) := by
  obtain ⟨raw,encoded,decoded⟩ := decodeSeal_encode (conferred_fits settled)
  refine ⟨conferred d,raw,?_,encoded,?_⟩
  · exact demand_bind_ok.mpr ⟨settled.active,demand_bind_ok.mpr ⟨⟨settled.aeadKey,settled.macKey.1⟩,rfl⟩⟩
  · have keyed : Driver.setAEADKey d.aeadKey env.aead (unsealed (conferred d)) = (.ok (),resumed d) := by
      apply wp.run_eq
      simp only [Driver.setAEADKey,wp_bind,wp_require,wp_modify]
      exact ⟨fun _ => ⟨trivial,rfl⟩,fun other => absurd settled.aeadKey other⟩
    have read : (ofExcept (decodeSeal raw) : Exchange SessionSeal) env c = (.ok (conferred d),c) := by
      rw [decoded]
      rfl
    rw [sessionFromSeal,bind_run read]
    exact advance_run c keyed

theorem resumed_twin {d : Driver} (settled : Settled d) : Twin d (resumed d) where
  link := ⟨rfl,rfl,rfl,settled.requireMAC.symm⟩
  recvSeq := rfl
  aeadKey := rfl
  lastPlaintext := settled.quiet.lastPlaintext.symm
  trackDataChunks := settled.quiet.trackDataChunks.symm
  nextDataOffset := settled.quiet.nextDataOffset.symm
  state := settled.active.symm
  late := .inl settled.active
  receiveSequence := settled.blank.1.symm
  maxAccept := settled.blank.2.1.symm

theorem highest_spec {v : Version} {vs : List Version} (best : Session.highest vs = some v) : v ∈ vs ∧ ∀ w ∈ vs, w ≤ v := by
  have fold (first : Version) (vs : List Version) : vs.foldl (fun h v => if h < v then v else h) first ∈ first :: vs ∧
        ∀ w ∈ first :: vs, w ≤ vs.foldl (fun h v => if h < v then v else h) first := by
    induction vs generalizing first with
    | nil => simp
    | cons next vs ih =>
      obtain ⟨member,most⟩ := ih (if first < next then next else first)
      simp only [List.foldl_cons]
      refine ⟨?_,fun w listed => ?_⟩
      · rcases List.mem_cons.mp member with head | tail
        · rw [head]
          split <;> simp
        · exact List.mem_cons_of_mem _ (List.mem_cons_of_mem _ tail)
      · have top := most _ (List.mem_cons_self ..)
        rcases List.mem_cons.mp listed with rfl | later
        · split at top
          · rename_i less
            exact UInt8.le_trans (UInt8.le_of_lt less) (by simpa [less] using top)
          · rename_i least
            simpa [least] using top
        · rcases List.mem_cons.mp later with rfl | rest
          · split at top
            · rename_i less
              simpa [less] using top
            · rename_i least
              exact UInt8.le_trans (UInt8.not_lt.mp least) (by simpa [least] using top)
          · exact most w (List.mem_cons_of_mem _ rest)
  cases vs with
  | nil => cases best
  | cons first vs =>
    cases best
    exact fold first vs

theorem selected_three {s : Session} (top : s.downgraded = false) : s.selected = 3 ↔ 3 ∈ s.offered := by
  rw [Session.downgraded] at top
  cases best : Session.highest (Session.candidates s.offered) with
  | none => simp [best] at top
  | some h =>
    rw [best] at top
    have chosen : s.selected = h := by simpa using top
    obtain ⟨member,most⟩ := highest_spec best
    rw [chosen]
    constructor
    · rintro rfl
      exact (List.mem_filter.mp member).1
    · intro offered
      have known := most 3 (List.mem_filter.mpr ⟨offered,by decide⟩)
      have allowed : h ∈ localAllowed := by simpa using (List.mem_filter.mp member).2
      rcases List.mem_cons.mp allowed with rfl | three
      · exact absurd known (by decide)
      · exact List.mem_singleton.mp three

theorem resumed_invariants (d : Driver) : (resumed d).session.invariants = .ok () ↔ d.session.selected = 3 := by
  have best : Session.highest (Session.candidates offeredVersions) = some 3 := by decide
  have downgraded : (resumed d).session.downgraded = decide (d.session.selected ≠ 3) := by
    rw [Session.downgraded,show (resumed d).session.offered = offeredVersions from rfl,best]
    rfl
  by_cases three : d.session.selected = 3
  · refine iff_of_true (Safe.invariants ⟨fun _ => ⟨rfl,rfl⟩,fun _ => ?_,rfl,(by rintro ⟨⟩),fun _ => ⟨rfl,rfl⟩⟩) three
    rw [downgraded,three]
    rfl
  · refine iff_of_false ?_ three
    have down : (resumed d).session.downgraded = true := by rw [downgraded]; simpa using three
    have state : (resumed d).session.state = .active := rfl
    have grants : (resumed d).session.peerAuthenticated ∧ (resumed d).session.archiveAuthorized := ⟨rfl,rfl⟩
    simp [Session.invariants,state,grants,down,demand,Bind.bind,Except.bind]

/-- However a handshake came to ACTIVE, its session can be handed over, and all later traffic goes
as it would have gone; the session handed over passes its own invariants exactly if the versions on
offer included 3. -/
theorem handoff_transparent {root peerID : Bytes} {env : Env} {c c' : Conn} {d : Driver}
    (done : acceptHandshake root peerID env c = (.ok d,c')) (env' : Env) (c'' : Conn) :
    ∃ s raw e, sealFromDriver d = .ok s ∧ encodeSeal s = .ok raw ∧
      sessionFromSeal raw env' c'' = (.ok e,c'') ∧
      (e.session.invariants = .ok () ↔ 3 ∈ d.session.offered) ∧
      ∀ aead events, observeAll aead e events = observeAll aead d events := by
  have settled := (acceptHandshake_settles root peerID).ok_of done
  obtain ⟨s,raw,sealed,encoded,opened⟩ := handoff_run settled env' c''
  refine ⟨s,raw,resumed d,sealed,encoded,opened,?_,fun aead events => ?_⟩
  · rw [resumed_invariants,selected_three (settled.safe.highest settled.active)]
  · exact ((resumed_twin settled).observeAll events).symm

/-! ## Samples -/

def sampleRoot : Bytes := List.replicate 32 0x51

def sampleEnv : Env := ⟨ChaCha20Poly1305.aead,Fixed.zero 16⟩

theorem handoff_sample : ∃ d c s raw e, acceptHandshake sampleRoot [] sampleEnv
      ⟨fromInitiator sampleRoot (Fixed.zero 16), []⟩ = (.ok d,c) ∧ sealFromDriver d = .ok s ∧
    encodeSeal s = .ok raw ∧ sessionFromSeal raw sampleEnv c = (.ok e,c) ∧ e.session.invariants = .ok () := by
  have done : acceptHandshake sampleRoot [] sampleEnv ⟨fromInitiator sampleRoot (Fixed.zero 16), []⟩ = _ :=
    acceptHandshake_completes rfl _
  obtain ⟨s,raw,e,sealed,encoded,opened,invariants,-⟩ := handoff_transparent done sampleEnv _
  exact ⟨_,_,s,raw,e,done,sealed,encoded,opened,invariants.mpr (by decide)⟩

/-- The body of an offer of version 2 alone. -/
def olderBody : Bytes := 1 :: 2 :: 1 :: 41 :: suiteIDAEAD

def olderOpened : Session := { opened with offered := [2] }

def olderNegotiated : Session := ((negotiate : Prog Unit Session Failure Unit) () olderOpened).2

def olderOffer (sid : SessionID) (key : Bytes) : Frame :=
  (bare sid key opened 1 1).outbound .negotiateOffer olderBody

theorem older_handled {sid : SessionID} {key : Bytes} {aead : Aead} :
    Driver.handle (olderOffer sid key).stamped aead (bare sid key opened 1 1) = (.ok (),bare sid key olderNegotiated 1 2) :=
  offer_taken rfl rfl rfl (by decide : olderBody ≠ [])
    (by decide : parseNegotiateOfferBody olderBody = .ok ([2],[suiteIDAEAD])) rfl

theorem older_serves (root : Bytes) (sid : SessionID) : Serves root sid olderNegotiated :=
  ⟨⟨rfl,rfl,rfl,.inl ⟨rfl,rfl⟩⟩,⟨rfl,rfl,rfl,.inr ⟨rfl,rfl⟩⟩,⟨rfl,rfl,rfl⟩,⟨rfl,rfl,rfl,rfl⟩,rfl,⟨_,rfl⟩,rfl⟩

/-- A peer that offers version 2 alone is served, and handed over as a session that calls itself
downgraded. -/
theorem older_peer_handoff : ∃ inbound d c s raw e, acceptHandshake sampleRoot [] sampleEnv ⟨inbound, []⟩ =
      (.ok d,c) ∧ d.session.invariants = .ok () ∧ sealFromDriver d = .ok s ∧ encodeSeal s = .ok raw ∧
    sessionFromSeal raw sampleEnv c = (.ok e,c) ∧
    e.session.invariants = .error ⟨"inv","ActiveIsNotDowngraded violated"⟩ := by
  have done := acceptHandshake_runs rfl (deriveMACKey_run sampleRoot rfl) sampleEnv
    (outbound_encodable _ rfl (by decide) : (olderOffer (Fixed.zero 16) (channelKey sampleRoot)).Encodable) rfl
    (by decide : 1 < 2 ^ 64) older_handled
    (by decide : encodeNegotiateAcceptBody olderNegotiated.selected olderNegotiated.selectedSuite =
      .ok (2 :: 41 :: suiteIDAEAD)) (by decide) (older_serves _ _) rfl []
  have settled := (acceptHandshake_settles _ _).ok_of done
  obtain ⟨s,raw,sealed,encoded,opened⟩ := handoff_run settled sampleEnv _
  exact ⟨_,_,_,s,raw,_,done,settled.safe.invariants,sealed,encoded,opened,rfl⟩

end Integris.Remote
