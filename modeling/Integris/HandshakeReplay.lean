import Integris.HandshakeAgreement

/-! Recorded frames against a new responder. Nothing in its keys or in the transcript comes
from the responder itself, so it is the selection of frames that decides. -/
namespace Integris.Remote

open Session Crypto Protocol Prog

/-- A frame of an established session, of any key. -/
def Traffic (raw : Bytes) : Prop :=
  ∃ (key : Bytes) (f : Frame), f.Encodable ∧ (f.typ = .data ∨ f.typ = .close) ∧ raw = f.wire key

/-- What an observer of the network can have kept. -/
def Recorded (S : Set Run) (raw : Bytes) : Prop := (∃ r ∈ S, raw ∈ r.written) ∨ Traffic raw

/-- The frames begin as those of session `sid` that its initiator sends. The responder takes
its own first frame in place of the offer. -/
def Begins (r : Run) (sid : SessionID) (raws : List Bytes) : Prop :=
  r.root.length = rootKeySize ∧ ∃ key first more, r.macKey = .ok key ∧
    (first = offerFrame sid ∨ first = acceptFrame sid) ∧
    raws = first.wire key :: (i2rFrame r.root sid negotiated).wire key :: (archiveFrame r.root sid negotiated).wire key ::
      (activateFrame sid).wire key :: more

section families

variable {ι : Type} (run : ι → Run)

/-- Initiators choose session ids that never repeat. -/
def UniqueIDs : Prop :=
  ∀ i j, (run i).role = .initiator → (run j).role = .initiator →
    (run i).env.sessionID = (run j).env.sessionID → i = j

/-- The initiator run a responder run belongs to. -/
def Corresponds (r r' : Run) : Prop :=
  r'.role = .initiator ∧ r'.root = r.root ∧ r'.macKey = r.macKey ∧
    r.parameters = some (standard r'.env.sessionID)

/-- Each completed responder run belongs to an initiator run of its own. -/
def DistinctPartners : Prop :=
  ∃ partner : ι → ι,
    (∀ i d, (run i).role = .responder → (run i).Completes d → Corresponds (run i) (run (partner i))) ∧
    ∀ i j d e, (run i).role = .responder → (run j).role = .responder → (run i).Completes d →
      (run j).Completes e → partner i = partner j → i = j

/-- No two responders of one key are given the same session. -/
def ServedOnce : Prop :=
  ∀ i j sid, (run i).role = .responder → (run j).role = .responder →
    (run i).macKey = (run j).macKey → Begins (run i) sid (run i).received →
    Begins (run j) sid (run j).received → i = j

end families

section framing

/-- A frame is found again whatever follows it. -/
def Framed (raw : Bytes) : Prop := ∀ rest, nextFrame (raw ++ rest) = some (raw, rest)

theorem nextFrame_split {bytes raw rest : Bytes} (next : nextFrame bytes = some (raw,rest)) :
    bytes = raw ++ rest ∧ Framed raw := by
  unfold nextFrame at next
  extract_lets hdr bodyLen size at next
  by_cases whole : headerBytes ≤ bytes.length ∧ slice hdr 0 8 = frameMagic ∧ bodyLen ≤ maxBodyBytes ∧ size ≤ bytes.length
  · rw [if_pos whole] at next
    obtain ⟨rfl,rfl⟩ := Prod.mk.inj (Option.some.inj next)
    refine ⟨(List.take_append_drop _ _).symm,fun more => ?_⟩
    have covers : headerBytes ≤ size := Nat.le_add_right _ _
    have length : (bytes.take size).length = size := List.length_take_of_le whole.2.2.2
    have same : (bytes.take size ++ more).take headerBytes = hdr := by
      rw [List.take_append_of_le_length (by omega),List.take_take,Nat.min_eq_left covers]
    unfold nextFrame
    rw [same]
    change (if _ ∧ _ ∧ bodyLen ≤ maxBodyBytes ∧ size ≤ _ then
      some ((bytes.take size ++ more).take size,(bytes.take size ++ more).drop size) else none) = _
    rw [if_pos,List.take_left' length,List.drop_left' length]
    have enough : size ≤ (bytes.take size ++ more).length := by
      rw [List.length_append]
      omega
    exact ⟨Nat.le_trans covers enough,whole.2.1,whole.2.2.1,enough⟩
  · rw [if_neg whole] at next
    cases next

theorem framesOf_split (n : Nat) (bytes : Bytes) :
    (∃ rest, bytes = (framesOf n bytes).flatten ++ rest) ∧ ∀ raw ∈ framesOf n bytes, Framed raw := by
  induction n generalizing bytes with
  | zero => exact ⟨⟨bytes,rfl⟩,List.forall_mem_nil _⟩
  | succ n ih =>
    rw [framesOf]
    split
    case h_1 raw rest next =>
      obtain ⟨same,framed⟩ := nextFrame_split next
      obtain ⟨⟨more,tail⟩,others⟩ := ih rest
      refine ⟨⟨more,?_⟩,List.forall_mem_cons.mpr ⟨framed,others⟩⟩
      rw [List.flatten_cons,List.append_assoc,← tail]
      exact same
    case h_2 => exact ⟨⟨bytes,rfl⟩,List.forall_mem_nil _⟩

variable {raws : List Bytes}

theorem framesOf_flatten (framed : ∀ raw ∈ raws, Framed raw) (n : Nat) : framesOf n raws.flatten = raws.take n := by
  induction raws generalizing n with
  | nil => rw [List.flatten_nil,framesOf_empty,List.take_nil]
  | cons raw raws ih =>
    cases n with
    | zero => rfl
    | succ n =>
      rw [List.flatten_cons,framesOf_next (framed raw List.mem_cons_self _),List.take_succ_cons,
        ih fun r hr => framed r (List.mem_cons_of_mem _ hr)]

theorem Recorded.framed {S : Set Run} {raw : Bytes} (h : Recorded S raw) : Framed raw := by
  rcases h with ⟨r,-,mem⟩ | ⟨key,f,ok,-,rfl⟩
  · exact (framesOf_split _ _).2 raw mem
  · exact fun rest => nextFrame_wire ok.body key rest

end framing

section replay

variable {S : Set Run} {r : Run} {key raw : Bytes} {d : Driver} {f : Frame}

variable {root : Bytes} {sid : SessionID}

theorem session_frame (ideal : Unforgeable S) (authentic : Authentic S key raw)
    (apart : ∀ r ∈ S, r.macKey = .ok key → r.root = root) (decoded : decode raw key true = .ok f)
    (data : f.typ ≠ .data) (close : f.typ ≠ .close) :
    ∃ g ∈ initiatorFrames root f.sessionID ++ responderFrames root f.sessionID,
      raw = g.wire key ∧ g.typ = f.typ ∧ g.body = f.body := by
  obtain ⟨r,mem,derives,g,wire,rfl,from_⟩ := handshake_frame ideal authentic decoded data close
  have same := apart r mem derives
  subst same
  have id {sid : SessionID} (known : g ∈ initiatorFrames r.root sid ++ responderFrames r.root sid) :
      g.stamped.sessionID = sid := by
    simp only [initiatorFrames,responderFrames,List.cons_append,List.nil_append,List.mem_cons,
      List.not_mem_nil,or_false] at known
    rcases known with rfl | rfl | rfl | rfl | rfl | rfl <;> rfl
  rcases from_ with ⟨-,known,-⟩ | ⟨-,sid,known,-⟩
  · have all := List.mem_append_left (responderFrames r.root r.env.sessionID) known
    exact ⟨g,by rwa [id all],wire,rfl,rfl⟩
  · have all := List.mem_append_right (initiatorFrames r.root sid) known
    exact ⟨g,by rwa [id all],wire,rfl,rfl⟩

theorem session_types {g : Frame} (known : g ∈ initiatorFrames root sid ++ responderFrames root sid) :
    (g.typ = .negotiateOffer → g = offerFrame sid) ∧
    (g.typ = .negotiateAccept → g = acceptFrame sid) ∧
    (g.typ = .peerAuth → g = i2rFrame root sid negotiated ∨ g = r2iFrame root sid negotiated) ∧
    (g.typ = .archiveAuth → g = archiveFrame root sid negotiated) ∧
    (g.typ = .activate → g = activateFrame sid) := by
  simp only [initiatorFrames,responderFrames,List.cons_append,List.nil_append,List.mem_cons,
    List.not_mem_nil,or_false] at known
  rcases known with rfl | rfl | rfl | rfl | rfl | rfl
  all_goals
    refine ⟨fun typ => ?_,fun typ => ?_,fun typ => ?_,fun typ => ?_,fun typ => ?_⟩ <;>
      first | (cases typ; done) | rfl | exact .inl rfl | exact .inr rfl

/-- The frames of a session complete a responder, under that session's parameters. -/
theorem begins_completes (role : r.role = .responder)
    (authentic : ∀ key, r.macKey = .ok key → ∀ raw ∈ r.received, Authentic S key raw)
    (begins : Begins r sid r.received) :
    (∃ d, r.Completes d) ∧ r.parameters = some (standard sid) := by
  obtain ⟨size,key,first,more,derives,opens,received⟩ := begins
  obtain ⟨⟨rest,inbound⟩,-⟩ := framesOf_split 4 r.inbound
  change r.inbound = r.received.flatten ++ rest at inbound
  have done : r.Completes (accepted r.root sid key) := by
    unfold Run.Completes Run.result
    rw [role,inbound,received]
    simp only [List.flatten_cons,List.append_assoc]
    rw [acceptHandshake_serves size derives opens]
  obtain ⟨sid',-,-,same,-,-,used⟩ := responder_completed (authentic key derives) role derives done
  obtain rfl : sid = sid' := congrArg Driver.sessionID same
  exact ⟨⟨_,done⟩,used⟩

/-- A responder completes exactly on the frames of one session. -/
theorem completes_iff (ideal : Unforgeable S) (role : r.role = .responder)
    (authentic : ∀ key, r.macKey = .ok key → ∀ raw ∈ r.received, Authentic S key raw)
    (apart : ∀ key, r.macKey = .ok key → ∀ r' ∈ S, r'.macKey = .ok key → r'.root = r.root) :
    (∃ d, r.Completes d) ↔ ∃ sid, Begins r sid r.received := by
  refine ⟨?_,fun ⟨sid,begins⟩ => (begins_completes role authentic begins).1⟩
  rintro ⟨d,done⟩
  obtain ⟨key,derives⟩ := completes_derives done
  obtain ⟨sid,raw,f,-,served,body,-⟩ := responder_completed (authentic key derives) role derives done
  have received : r.received = [raw 0,raw 1,raw 2,raw 3] := served.frames
  have frame (i : Fin 4) (mem : raw i ∈ r.received) (data : (f i).typ ≠ .data)
      (close : (f i).typ ≠ .close) : ∃ g ∈ initiatorFrames r.root sid ++ responderFrames r.root sid,
        raw i = g.wire key ∧ g.typ = (f i).typ ∧ g.body = (f i).body := by
    rw [← served.id i]
    exact session_frame ideal (authentic key derives _ mem) (apart key derives) (served.decoded i) data close
  have opening : ∃ first, (first = offerFrame sid ∨ first = acceptFrame sid) ∧ raw 0 = first.wire key := by
    rcases served.opening with offer | accept
    · obtain ⟨g,known,wire,typ,-⟩ := frame 0 (by simp [received]) (by simp [offer]) (by simp [offer])
      exact ⟨g,.inl ((session_types known).1 (typ.trans offer)),wire⟩
    · obtain ⟨g,known,wire,typ,-⟩ := frame 0 (by simp [received]) (by simp [accept]) (by simp [accept])
      exact ⟨g,.inr ((session_types known).2.1 (typ.trans accept)),wire⟩
  have proof : raw 1 = (i2rFrame r.root sid negotiated).wire key := by
    obtain ⟨g,known,wire,typ,carries⟩ := frame 1 (by simp [received]) (by simp [served.proof]) (by simp [served.proof])
    rcases (session_types known).2.2.1 (typ.trans served.proof) with rfl | rfl
    · exact wire
    · exact absurd (body.symm.trans carries.symm) (directions_differ _ _)
  have archive : raw 2 = (archiveFrame r.root sid negotiated).wire key := by
    obtain ⟨g,known,wire,typ,-⟩ := frame 2 (by simp [received]) (by simp [served.archive]) (by simp [served.archive])
    rw [wire,(session_types known).2.2.2.1 (typ.trans served.archive)]
  have activate : raw 3 = (activateFrame sid).wire key := by
    obtain ⟨g,known,wire,typ,-⟩ := frame 3 (by simp [received]) (by simp [served.activate]) (by simp [served.activate])
    rw [wire,(session_types known).2.2.2.2 (typ.trans served.activate)]
  obtain ⟨first,opens,wire⟩ := opening
  refine ⟨sid,completes_size done,key,first,[],derives,opens,?_⟩
  rw [received,wire,proof,archive,activate]

theorem corresponds_initiator (ideal : Unforgeable S) (apart : KeysApart S) (mem : r ∈ S)
    (role : r.role = .responder) (done : r.Completes d) : ∃ r' ∈ S, Corresponds r r' := by
  obtain ⟨key,derives⟩ := completes_derives done
  have authentic := ideal r mem key derives
  obtain ⟨sid,raw,f,-,served,body,used⟩ := responder_completed authentic role derives done
  have received : raw 1 ∈ r.received := by
    unfold Run.received
    rw [served.frames]
    simp
  obtain ⟨r',mem',derives',-,⟨role',id,-⟩ | ⟨-,_,other⟩⟩ :=
    proof_origin ideal (authentic _ received) (served.decoded 1) served.proof
  case inr => exact absurd (body.symm.trans other) (directions_differ _ _)
  refine ⟨r',mem',role',apart r' mem' r mem key derives' derives,derives'.trans derives.symm,?_⟩
  rw [used,id,served.id]

theorem standard_injective {sid sid' : SessionID} (same : some (standard sid) = some (standard sid')) :
    sid = sid' := congrArg Parameters.sessionID (Option.some.inj same)

theorem begins_take : Begins r sid (raws.take 4) ↔ Begins r sid raws := by
  constructor
  · rintro ⟨size,key,first,more,derives,opens,same⟩
    refine ⟨size,key,first,more ++ raws.drop 4,derives,opens,?_⟩
    conv_lhs => rw [← List.take_append_drop 4 raws,same]
    rfl
  · rintro ⟨size,key,first,more,derives,opens,rfl⟩
    exact ⟨size,key,first,[],derives,opens,rfl⟩

end replay

section freshness

variable {ι : Type} {run : ι → Run}

theorem distinctPartners_iff (ideal : Unforgeable (Set.range run)) (apart : KeysApart (Set.range run))
    (unique : UniqueIDs run) : DistinctPartners run ↔ ServedOnce run := by
  have authentic (i : ι) := ideal (run i) ⟨i,rfl⟩
  constructor
  · rintro ⟨partner,corresponds,distinct⟩ i j sid roleI roleJ - beginsI beginsJ
    obtain ⟨⟨d,doneI⟩,usedI⟩ := begins_completes roleI (authentic i) beginsI
    obtain ⟨⟨e,doneJ⟩,usedJ⟩ := begins_completes roleJ (authentic j) beginsJ
    obtain ⟨dialsI,-,-,idI⟩ := corresponds i d roleI doneI
    obtain ⟨dialsJ,-,-,idJ⟩ := corresponds j e roleJ doneJ
    refine distinct i j d e roleI roleJ doneI doneJ (unique _ _ dialsI dialsJ ?_)
    rw [← standard_injective (usedI.symm.trans idI),← standard_injective (usedJ.symm.trans idJ)]
  · intro once
    have each (i : ι) : ∃ j, ∀ d, (run i).role = .responder → (run i).Completes d → Corresponds (run i) (run j) := by
      by_cases done : (run i).role = .responder ∧ ∃ d, (run i).Completes d
      · obtain ⟨role,d,done⟩ := done
        obtain ⟨_,⟨j,rfl⟩,corresponds⟩ := corresponds_initiator ideal apart ⟨i,rfl⟩ role done
        exact ⟨j,fun _ _ _ => corresponds⟩
      · exact ⟨i,fun d role completes => absurd ⟨role,d,completes⟩ done⟩
    choose partner corresponds using each
    refine ⟨partner,corresponds,fun i j d e roleI roleJ doneI doneJ same => ?_⟩
    obtain ⟨-,-,keyI,idI⟩ := corresponds i d roleI doneI
    obtain ⟨-,-,keyJ,idJ⟩ := corresponds j e roleJ doneJ
    have begins (k : ι) (c : Driver) (role : (run k).role = .responder) (done : (run k).Completes c)
        (id : (run k).parameters = some (standard (run (partner k)).env.sessionID)) :
        Begins (run k) (run (partner k)).env.sessionID (run k).received := by
      obtain ⟨sid,begins⟩ := (completes_iff ideal role (authentic k)
        fun key derives r' mem derives' => apart r' mem _ ⟨k,rfl⟩ key derives' derives).mp ⟨c,done⟩
      rwa [← standard_injective ((begins_completes role (authentic k) begins).2.symm.trans id)]
    refine once i j _ roleI roleJ ?_ (begins i d roleI doneI idI) ?_
    · rw [← keyI,same,keyJ]
    · rw [same]
      exact begins j e roleJ doneJ idJ

/-- Recorded frames do not complete a new responder, and each completed responder has an
initiator of its own, exactly as long as no responder is given once more the frames by which
an initiator completed its session. -/
theorem responder_fresh_iff {new : Run} {selection : List Bytes} (ideal : Unforgeable (Set.range run))
    (apart : KeysApart (insert new (Set.range run))) (unique : UniqueIDs run)
    (role : new.role = .responder) (recorded : ∀ raw ∈ selection, Recorded (Set.range run) raw)
    (authentic : ∀ key, new.macKey = .ok key → ∀ raw ∈ selection, Authentic (Set.range run) key raw)
    (fed : new.inbound = selection.flatten) :
    ((¬ ∃ d, new.Completes d) ↔ ∀ sid, ¬ Begins new sid selection) ∧
      (DistinctPartners run ↔ ServedOnce run) := by
  have received : new.received = selection.take 4 := by
    unfold Run.received
    rw [fed]
    exact framesOf_flatten (fun raw mem => (recorded raw mem).framed) 4
  have completes := completes_iff ideal role
    (fun key derives raw mem => authentic key derives raw (List.mem_of_mem_take (received ▸ mem)))
    fun key derives r' mem derives' => apart r' (.inr mem) new (.inl rfl) key derives' derives
  refine ⟨?_,distinctPartners_iff ideal (fun r mem r' mem' => apart r (.inr mem) r' (.inr mem')) unique⟩
  rw [completes,received]
  simp only [begins_take,not_exists]

end freshness

/-- What the initiator of the example session wrote. -/
def exampleFrames : List Bytes := (undisturbed exampleRoot exampleID .initiator).written

variable (selection : List Bytes)

/-- A later responder of the same root key that is given the frames. -/
def laterRun : Run :=
  ⟨.responder,exampleRoot,[],⟨ChaCha20Poly1305.aead,exampleID⟩,selection.flatten⟩

theorem undisturbed_unique : UniqueIDs (undisturbed exampleRoot exampleID) := by
  rintro (_ | _) (_ | _) dialsI dialsJ -
  · rfl
  · cases dialsJ
  · cases dialsI
  · rfl

theorem laterRun_apart : KeysApart (insert (laterRun selection) (Set.range (undisturbed exampleRoot exampleID))) := by
  have root : ∀ r ∈ insert (laterRun selection) (Set.range (undisturbed exampleRoot exampleID)), r.root = exampleRoot := by
    rintro r (rfl | ⟨_ | _,rfl⟩) <;> rfl
  exact fun r mem r' mem' _ _ _ => (root r mem).trans (root r' mem').symm

theorem exampleFrames_recorded : ∀ raw ∈ exampleFrames, Recorded (Set.range (undisturbed exampleRoot exampleID)) raw :=
  fun _ mem => .inl ⟨_,⟨.initiator,rfl⟩,mem⟩

theorem exampleFrames_authentic (key : Bytes) (derives : (laterRun selection).macKey = .ok key) : ∀ raw ∈ exampleFrames,
    Authentic (Set.range (undisturbed exampleRoot exampleID)) key raw :=
  fun _ mem _ _ => .inr (.inr ⟨_,⟨.initiator,rfl⟩,derives,mem⟩)

/-- The four frames of a recorded session complete a responder a second time. -/
theorem exampleFrames_complete : Unforgeable (Set.range (undisturbed exampleRoot exampleID)) ∧
    KeysApart (insert (laterRun exampleFrames) (Set.range (undisturbed exampleRoot exampleID))) ∧
    UniqueIDs (undisturbed exampleRoot exampleID) ∧
    (∀ raw ∈ exampleFrames, Recorded (Set.range (undisturbed exampleRoot exampleID)) raw) ∧
    (∀ key, (laterRun exampleFrames).macKey = .ok key → ∀ raw ∈ exampleFrames,
      Authentic (Set.range (undisturbed exampleRoot exampleID)) key raw) ∧
    ∃ d, (laterRun exampleFrames).Completes d := by
  refine ⟨undisturbed_unforgeable exampleRoot_size,laterRun_apart _,undisturbed_unique,
    exampleFrames_recorded,exampleFrames_authentic _,accepted exampleRoot exampleID (channelKey exampleRoot),?_⟩
  have inbound : exampleFrames.flatten = fromInitiator exampleRoot exampleID := by
    rw [exampleFrames,(undisturbed_written exampleRoot_size).1,fromInitiator_eq,stream]
  unfold Run.Completes Run.result laterRun
  rw [inbound]
  exact congrArg Prod.fst (acceptHandshake_completes exampleRoot_size exampleID)

theorem responder_fresh_sample : (¬ ∃ d, (laterRun (exampleFrames.take 3)).Completes d) ∧
    DistinctPartners (undisturbed exampleRoot exampleID) := by
  have role : (laterRun (exampleFrames.take 3)).role = .responder := by rw [laterRun]
  have fed : (laterRun (exampleFrames.take 3)).inbound = (exampleFrames.take 3).flatten := by rw [laterRun]
  have fresh := responder_fresh_iff (undisturbed_unforgeable exampleRoot_size)
    (laterRun_apart (exampleFrames.take 3)) undisturbed_unique role
    (fun raw mem => exampleFrames_recorded raw (List.mem_of_mem_take mem))
    (fun key derives raw mem => exampleFrames_authentic _ key derives raw (List.mem_of_mem_take mem)) fed
  refine ⟨fresh.1.mpr ?_,fresh.2.mpr ?_⟩
  · rintro sid ⟨-,key,first,more,-,-,same⟩
    have length := congrArg List.length same
    rw [List.length_take] at length
    simp only [List.length_cons] at length
    omega
  · rintro (_ | _) (_ | _) sid roleI roleJ - - -
    · rfl
    · cases roleI
    · cases roleJ
    · rfl

end Integris.Remote
