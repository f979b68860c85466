import Integris.RelayLink

/-! What one push leaves in the apply role for the next. Two apply roles on the same tree
whose stores agree about the active file, if there is one, answer alike; what an idle
store remembers of earlier files is never read before it is overwritten. -/
namespace Integris.RemoteSync

open Posix LocalSync Prog Ipc

/-- Stores that serve alike. With `begun` they also remember the same last file. -/
structure Store.Like (begun : Prop) (s t : Store) : Prop where
  dest : s.dest = t.dest
  stageRoot : s.stageRoot = t.stageRoot
  partialRoot : s.partialRoot = t.partialRoot
  fds : s.fds = t.fds
  active : s.active = t.active
  file : s.active = true → s.begin = t.begin ∧ s.partPath = t.partPath ∧ s.pf = t.pf ∧ s.off = t.off
  last : begun → s.lastBegin = t.lastBegin

/-- Servers on the same tree with such stores. -/
structure Receiver.Like (begun : Prop) (r r' : Receiver) : Prop where
  world : r.world = r'.world
  store : r.store.Like begun r'.store

variable {begun : Prop} {host : Host} {lib : Library}

namespace Store.Like

variable {s t : Store} (like : s.Like begun t)

include like

theorem eq_of_active (active : s.active = true) : t = { s with lastBegin := t.lastBegin } := by
  obtain ⟨sameBegin,samePath,sameFile,sameOff⟩ := like.file active
  obtain ⟨dest,stageRoot,partialRoot,fds,act,-,-⟩ := like
  cases s
  cases t
  simp only at *
  subst dest stageRoot partialRoot fds act sameBegin samePath sameFile sameOff
  rfl

theorem preparing (es : List Entry) : preparing lib s es = preparing lib t es := by
  simp only [RemoteSync.preparing,like.fds,like.stageRoot]

theorem staging (fw : FileWire) : staging lib s fw = staging lib t fw := by
  simp only [RemoteSync.staging,like.fds,like.stageRoot]

theorem staged (b : FileBegin) : staged lib s b = staged lib t b := by
  simp only [RemoteSync.staged,like.fds,like.stageRoot]

theorem clearing (rel : Bytes) : clearing s rel = clearing t rel := by
  simp only [RemoteSync.clearing,like.fds,like.partialRoot]

theorem resume (b : FileBegin) : resume lib s b = resume lib t b := by
  simp only [RemoteSync.resume,like.fds,like.partialRoot]

theorem openPart (b : FileBegin) (start : UInt64) : openPart lib s b start = openPart lib t b start := by
  simp only [RemoteSync.openPart,like.fds,like.partialRoot]

theorem partName (rel : Bytes) : partName s rel = partName t rel := by
  simp only [RemoteSync.partName,like.fds,like.partialRoot]

end Store.Like

/-- Nothing here wears out. -/
abbrev Alike (host : Host) (m n : Prog Host σ Fault α) (s t : σ) (R F : σ → σ → Prop) : Prop :=
  Together host (fun _ => False) m n s t (fun _ => R) F

theorem Alike.bind {s t : σ} {R S F : σ → σ → Prop} {m n : Prog Host σ Fault α}
    {f g : α → Prog Host σ Fault β} (first : Alike host m n s t R F)
    (rest : ∀ a s t, R s t → Alike host (f a) (g a) s t S F) : Alike host (m >>= f) (n >>= g) s t S F :=
  Together.bind first (fun _ _ never => never.elim) rest

def SameTree (r r' : Receiver) : Prop := r.world = r'.world

variable {m n : RS α} {r r' : Receiver} {R F : Receiver → Receiver → Prop} {f : Store → Store}
  {a a' : Apply} {after : Prop} {payload : Bytes} {resp : Bytes}

theorem alike_onWorld (same : m = n) (world : r.world = r'.world) : Alike host (onWorld m) (onWorld n) r r'
      (fun t t' => t.world = t'.world ∧ t.store = r.store ∧ t'.store = r'.store) SameTree := by
  subst same
  intro _
  simp only [onWorld,zoom,world]
  rcases m host r'.world with ⟨_ | _ | _,w⟩
  · exact ⟨rfl,rfl,rfl,rfl⟩
  · exact ⟨rfl,rfl⟩
  · exact (rfl : w = w)

theorem alike_getStore {f g : Store → SP α} (rest : Alike host (f r.store) (g r'.store) r r' R F) :
    Alike host (getStore >>= f) (getStore >>= g) r r' R F :=
  Lockstep.left_run rfl (Lockstep.right_run rfl rest)

theorem alike_setStore (h : R { r with store := f r.store } { r' with store := f r'.store }) :
    Alike host (setStore f) (setStore f) r r' R F :=
  fun _ => ⟨rfl,h⟩

/-- One operation of two servers whose stores serve alike after it. -/
abbrev Serves (host : Host) (after : Prop) (m : SP α) (r r' : Receiver) : Prop :=
  Alike host m m r r' (Receiver.Like after) SameTree

section operations

variable {r r' : Receiver}

/-- An operation on the tree in the middle of a store operation. -/
theorem alike_onWorld_like (same : m = n) (like : r.Like begun r') :
    Alike host (onWorld m) (onWorld n) r r' (Receiver.Like begun) SameTree :=
  (alike_onWorld same like.world).mono fun _ t t' h => ⟨h.1,by rw [h.2.1,h.2.2]; exact like.store⟩

theorem alike_prepareDirs (like : r.Like begun r') (es : List Entry) : Serves host begun (prepareDirs lib es) r r' :=
  alike_getStore (alike_onWorld_like (like.store.preparing es) like)

theorem alike_stageLegacy (like : r.Like begun r') (fw : FileWire) : Serves host begun (stageLegacy lib fw) r r' :=
  alike_getStore (alike_onWorld_like (like.store.staging fw) like)

theorem alike_commit {out : Outside} (like : r.Like begun r') (destMan : Option (List Entry)) :
    Serves host begun (commit out destMan) r r' := by
  have store := like.store
  refine alike_getStore (Together.guarded (by rw [store.active]) like.world fun _ => ?_)
  exact alike_onWorld_like (by rw [store.stageRoot,store.dest,store.fds]) like

variable {s t : Store}

theorem Store.Like.beginning (like : s.Like begun t) (b : FileBegin) :
    Store.Like True { s with lastBegin := b } { t with lastBegin := b } :=
  ⟨like.dest,like.stageRoot,like.partialRoot,like.fds,like.active,like.file,fun _ => rfl⟩

theorem Store.Like.activated (like : s.Like begun t) (b : FileBegin) (f : Path)
    (start : UInt64) : Store.Like begun (s.activate b (RemoteSync.partName s b.rel) f start)
      (t.activate b (RemoteSync.partName t b.rel) f start) :=
  ⟨like.dest,like.stageRoot,like.partialRoot,like.fds,rfl,fun _ => ⟨rfl,like.partName b.rel,rfl,rfl⟩,like.last⟩

/-- Beginning a file makes the stores forget what was before it. -/
theorem alike_beginFile (like : r.Like begun r') (b : FileBegin) : Serves host True (beginFile lib b) r r' := by
  have store := like.store
  refine alike_getStore (Together.guarded (by rw [store.active]) like.world fun _ => ?_)
  refine (alike_setStore (R := Receiver.Like True) ⟨like.world,store.beginning b⟩).bind fun _ r r' like => ?_
  refine (alike_onWorld_like (store.staged b) like).bind fun done r r' like => ?_
  cases done with
  | true =>
    exact (alike_onWorld_like (store.clearing b.rel) like).bind fun _ _ _ like => Together.pure _ like
  | false =>
    refine (alike_onWorld_like (store.resume b) like).bind fun start r r' like => ?_
    refine (alike_onWorld_like (store.openPart b start) like).bind fun f r r' like => ?_
    exact (alike_setStore (R := Receiver.Like True) ⟨like.world,like.store.activated b f start⟩).bind
      fun _ _ _ like => Together.pure _ like

/-- The same server, remembering another last file. -/
def Receiver.recalling (x : FileBegin) (r : Receiver) : Receiver :=
  { r with store := { r.store with lastBegin := x } }

theorem Receiver.Like.recalls (like : r.Like begun r') (active : r.store.active = true) :
    r' = r.recalling r'.store.lastBegin := by
  have same := like.store.eq_of_active active
  have world := like.world
  cases r'
  cases r
  simp only [Receiver.recalling,Receiver.mk.injEq] at *
  exact ⟨world.symm,same⟩

/-- The program does not look at the last file. -/
abbrev Recalls (host : Host) (x : FileBegin) (m : SP α) : Prop :=
  Steady host (fun _ => False) (fun r r' => r' = r.recalling x) (fun _ r r' => r' = r.recalling x) SameTree m m

variable {x : FileBegin}

theorem sameTree_recalling (r r' : Receiver) (h : r' = r.recalling x) : SameTree r r' := h ▸ rfl

theorem recalls_onWorld (m : RS α) : Recalls host x (onWorld m) := by
  refine ⟨fun _ never => never.elim,?_⟩
  rintro r _ rfl
  have both : Alike host (onWorld m) (onWorld m) r (r.recalling x) _ SameTree := alike_onWorld rfl rfl
  refine both.mono fun _ t t' h => ?_
  obtain ⟨world,here,there⟩ := h
  cases t
  cases t'
  simp only [Receiver.recalling] at *
  rw [world,there,here]

theorem recalls_setStore (blind : ∀ s, f { s with lastBegin := x } = { f s with lastBegin := x }) :
    Recalls host x (setStore f) := by
  refine ⟨fun _ never => never.elim,?_⟩
  rintro r _ rfl
  refine alike_setStore ?_
  simp only [Receiver.recalling,blind]

theorem Receiver.Like.refl (r : Receiver) : r.Like begun r :=
  ⟨rfl,rfl,rfl,rfl,rfl,rfl,fun _ => ⟨rfl,rfl,rfl,rfl⟩,fun _ => rfl⟩

theorem Receiver.Like.recalling (forgotten : ¬begun) (r : Receiver) (x : FileBegin) : r.Like begun (r.recalling x) :=
  ⟨rfl,rfl,rfl,rfl,rfl,rfl,fun _ => ⟨rfl,rfl,rfl,rfl⟩,fun h => absurd h forgotten⟩

section

variable (like : r.Like begun r')
include like

/-- With a file active, an operation that does not look at the last file serves alike. -/
theorem alike_active (active : r.store.active = true) {m : SP α}
    (recalled : ∀ x, Alike host m m r (r.recalling x) (fun t t' => t' = t.recalling x) SameTree) :
    Serves host begun m r r' := by
  have same := like.recalls active
  by_cases known : begun
  · have equal : r' = r := by
      rw [same,← like.store.last known]
      rfl
    rw [equal]
    exact Together.refl m r (fun _ => Receiver.Like.refl) fun _ => rfl
  · rw [same]
    refine (recalled _).mono fun _ t t' h => ?_
    rw [h]
    exact .recalling known t _

/-- An operation on the store, if it looks at the last file neither when a file is active nor when none is. -/
theorem alike_blind {f : Store → SP α} {rest : SP α}
    (blind : ∀ s y, f { s with lastBegin := y } = f s) (idle : ∀ s : Store, s.active = false → f s = rest)
    (resting : Serves host begun rest r r') (recalled : ∀ x (s : Store), s.active = true → Recalls host x (f s)) :
    Serves host begun (getStore >>= f) r r' := by
  cases active : r.store.active with
  | true =>
    refine alike_active like active fun x => alike_getStore ?_
    have same : f (r.recalling x).store = f r.store := blind _ _
    rw [same]
    exact (recalled x _ active).pair r _ rfl
  | false =>
    refine alike_getStore ?_
    rw [idle _ active,idle _ (like.store.active.symm.trans active)]
    exact resting

theorem alike_writeChunk (c : FileChunk) : Serves host begun (writeChunk lib c) r r' := by
  refine alike_blind like (fun _ _ => rfl) (fun s idle => by simp only [idle]; rfl) (Together.throw _ like.world) fun x s active => ?_
  simp only [active]
  cases s.pf with
  | none => exact .throw _ sameTree_recalling
  | some pf =>
    exact .guarded sameTree_recalling fun _ => (recalls_onWorld _).bind fun _ =>
      (recalls_setStore fun _ => rfl).bind fun _ => recalls_onWorld _

theorem alike_persistActive : Serves host begun (persistActive lib) r r' := by
  refine alike_blind like (fun _ _ => rfl) (fun s idle => by simp only [idle]; rfl) (Together.pure _ like) fun x s active => ?_
  simp only [active]
  cases s.pf with
  | none => exact .pure _
  | some pf => exact (recalls_onWorld _).bind fun _ => recalls_onWorld _

theorem alike_endFile (e : FileEnd) : Serves host begun (endFile lib e) r r' := by
  refine alike_blind like (fun _ _ => rfl) (fun s idle => by simp only [idle]; rfl) (Together.throw _ like.world) fun x s active => ?_
  simp only [active]
  cases s.pf with
  | none => exact .throw _ sameTree_recalling
  | some pf =>
    refine .guarded sameTree_recalling fun _ => .guarded sameTree_recalling fun _ => ?_
    refine (recalls_onWorld _).bind fun _ => (recalls_onWorld _).bind fun _ => ?_
    exact (recalls_setStore fun _ => rfl).bind fun _ => (recalls_onWorld _).bind fun _ => recalls_setStore fun _ => rfl

end

/-- The one place where an idle store is asked for the last file. -/
theorem alike_endOfStaged (like : r.Like True r') (e : FileEnd) :
    Alike host (endOfStaged r.store e) (endOfStaged r'.store e) r r' (Receiver.Like True) SameTree := by
  have last := like.store.last trivial
  unfold endOfStaged
  rw [last]
  unfold require
  split
  · exact Together.pure _ like
  · exact Together.throw _ like.world

end operations

/-- Apply loops at work on stores that serve alike. -/
structure Apply.Works (begun : Prop) (a a' : Apply) : Prop where
  receiver : a.receiver.Like begun a'.receiver
  destMan : a.destMan = a'.destMan
  here : a.loop = .running
  there : a'.loop = .running

/-- The same, or loops that have returned and left the same tree. -/
structure Apply.Agrees (begun : Prop) (a a' : Apply) : Prop where
  world : a.receiver.world = a'.receiver.world
  loop : a.loop = a'.loop
  works : a.loop = .running → a.Works begun a'

def Apply.SameTree (a a' : Apply) : Prop := a.receiver.world = a'.receiver.world

theorem Apply.Works.agrees (works : a.Works begun a') : a.Agrees begun a' :=
  ⟨works.receiver.world,works.here.trans works.there.symm,fun _ => works⟩

theorem Apply.Works.weaken (works : a.Works True a') : a.Works begun a' :=
  ⟨⟨works.receiver.world,{ works.receiver.store with last := fun _ => works.receiver.store.last trivial }⟩,
    works.destMan,works.here,works.there⟩

/-- One program of two apply roles that agree after it. -/
abbrev Responds (host : Host) (after : Prop) (m : AP α) (a a' : Apply) : Prop :=
  Alike host m m a a' (Apply.Agrees after) Apply.SameTree

section applying

variable {a a' : Apply} {out : Outside}

theorem alike_inStore {m n : SP α} (works : a.Works begun a')
    (h : Alike host m n a.receiver a'.receiver (Receiver.Like after) SameTree) :
    Alike host (inStore m) (inStore n) a a' (Apply.Works after) Apply.SameTree :=
  h.zoom (fun _ _ _ like => ⟨like,works.destMan,works.here,works.there⟩) fun _ _ same => same

theorem alike_leaving (how : Loop) (returned : how ≠ .running) (resp : Bytes)
    (world : a.receiver.world = a'.receiver.world) : Responds host begun (leaving how resp) a a' :=
  fun _ => ⟨rfl,world,rfl,fun running => absurd running returned⟩

theorem alike_replying {m : AP Bytes} (h : Responds host begun m a a') : Responds host begun (replying out m) a a' :=
  Together.attempt_bind h (fun _ _ never => never.elim) (fun resp _ _ agrees => Together.pure resp agrees)
    (fun _ _ _ world => alike_leaving .failed nofun _ world) fun _ _ => id

section

variable (works : a.Works begun a')
include works

variable (req : Bytes)

theorem alike_applyManifest : Responds host begun (applyManifest out req) a a' :=
  Together.ofExcept_bind works.receiver.world fun es _ =>
    (alike_inStore works (alike_prepareDirs works.receiver es)).bind fun _ _ _ works => Together.pure _ works.agrees

theorem alike_applyFile : Responds host begun (applyFile out req) a a' :=
  Together.ofExcept_bind works.receiver.world fun fw _ =>
    (alike_inStore works (alike_stageLegacy works.receiver fw)).bind fun _ _ _ works => Together.pure _ works.agrees

theorem alike_applyBegin : Responds host True (applyBegin out req) a a' :=
  Together.ofExcept_bind works.receiver.world fun b _ =>
    (alike_inStore works (alike_beginFile works.receiver b)).bind fun _ _ _ works => Together.pure _ works.agrees

theorem alike_applyChunk : Responds host begun (applyChunk out req) a a' := by
  refine Together.ofExcept_bind works.receiver.world fun c _ => ?_
  -- the acknowledged position is that of the active file
  have written : Alike host (writeChunk out.toLibrary c) (writeChunk out.toLibrary c) a.receiver
      a'.receiver (fun r r' => r.Like begun r' ∧ r.store.active = true) SameTree :=
    (alike_writeChunk works.receiver c).and_left
      ((writeChunk_grown c).imp (fun _ _ grown => grown.active))
  have stored : Alike host (inStore (writeChunk out.toLibrary c)) (inStore (writeChunk out.toLibrary c))
      a a' (fun b b' => b.Works begun b' ∧ b.receiver.store.off = b'.receiver.store.off)
      Apply.SameTree :=
    written.zoom (fun _ r r' h => ⟨⟨h.1,works.destMan,works.here,works.there⟩,
      (h.1.store.file h.2).2.2.2⟩) fun _ _ same => same
  refine stored.bind fun _ b b' h => Lockstep.left_run rfl (Lockstep.right_run rfl ?_)
  rw [h.2]
  exact Together.pure _ h.1.agrees

theorem alike_applyEnd (known : begun) (req : Bytes) : Responds host begun (applyEnd out req) a a' := by
  refine Together.ofExcept_bind works.receiver.world fun e _ => Lockstep.left_run rfl (Lockstep.right_run rfl ?_)
  rw [← works.receiver.store.active]
  split
  · have last : a.receiver.Like True a'.receiver :=
      ⟨works.receiver.world,{ works.receiver.store with last := fun _ => works.receiver.store.last known }⟩
    exact (alike_inStore works (alike_endOfStaged last e)).bind fun _ _ _ works => Together.pure _ works.weaken.agrees
  · exact (alike_inStore works (alike_endFile works.receiver e)).bind fun _ _ _ works => Together.pure _ works.agrees

theorem alike_applyDestManifest : Responds host begun (applyDestManifest req) a a' :=
  Together.ofExcept_bind works.receiver.world fun _ _ =>
    Lockstep.left_run rfl (Lockstep.right_run rfl (Together.pure _
      (Apply.Works.agrees ⟨works.receiver,rfl,works.here,works.there⟩)))

theorem alike_applyCommit : Responds host begun (applyCommit out) a a' := by
  refine Lockstep.left_run rfl (Lockstep.right_run rfl ?_)
  rw [← works.destMan]
  refine (alike_inStore works (alike_commit works.receiver _)).bind fun _ b b' works => ?_
  exact Lockstep.left_run rfl (Lockstep.right_run rfl (alike_leaving .committed nofun _ works.receiver.world))

theorem alike_applyAbort : Responds host begun (applyAbort out) a a' :=
  (alike_inStore works (alike_persistActive works.receiver)).bind fun _ _ _ works =>
    alike_leaving .failed nofun _ works.receiver.world

end

variable {req : Bytes}

/-- One request. Only the end of a file asks for the last file. -/
theorem alike_applyRequest (works : a.Works begun a')
    (known : req.head? = some msgFileEnd → begun) : Responds host begun (applyRequest out req) a a' := by
  unfold applyRequest
  split
  · exact Together.pure _ works.agrees
  · next op rest =>
    split_ifs with manifest file start chunk finish
    · exact alike_replying (alike_applyManifest works _)
    · exact alike_replying (alike_applyFile works _)
    · exact alike_replying ((alike_applyBegin works _).mono fun _ _ _ agrees =>
        ⟨agrees.world,agrees.loop,fun running => (agrees.works running).weaken⟩)
    · exact alike_replying (alike_applyChunk works _)
    · exact alike_replying (alike_applyEnd works (known (congrArg some finish)) _)
    · exact alike_replying (alike_applyDestManifest works _)
    · exact alike_replying (alike_applyCommit works)
    · exact alike_applyAbort works
    · exact alike_leaving .failed nofun _ works.receiver.world

theorem alike_applyRequest_begin (works : a.Works begun a')
    (start : req.head? = some msgFileBegin) : Responds host True (applyRequest out req) a a' := by
  obtain ⟨rest,rfl⟩ : ∃ rest, req = msgFileBegin :: rest := by
    cases req with
    | nil => cases start
    | cons op rest => exact ⟨rest,by cases start; rfl⟩
  exact alike_replying (alike_applyBegin works _)

theorem alike_again {reopen : RS Store} (agrees : a.Agrees begun a') : Responds host begun (again reopen) a a' := by
  refine Lockstep.left_run rfl (Lockstep.right_run rfl ?_)
  rw [← agrees.loop]
  refine Together.when agrees fun returned => ?_
  have opened : Alike host (inStore (onWorld reopen)) (inStore (onWorld reopen)) a a' Apply.SameTree Apply.SameTree :=
    Together.zoom (alike_onWorld rfl agrees.world) (fun _ _ _ h => h.1) fun _ _ h => h
  refine Together.attempt_bind opened (fun _ _ never => never.elim) (fun s b b' world => ?_)
    (fun e b b' world => ?_) fun _ _ => id
  · refine fun _ => ⟨rfl,world,rfl,fun _ => ⟨⟨world,?_⟩,rfl,rfl,rfl⟩⟩
    exact (Receiver.Like.refl ⟨b.receiver.world,s⟩).store
  · exact fun _ => ⟨rfl,world,rfl,nofun⟩

end applying

/-! The network role against two such apply roles. -/

abbrev WornApply (r : Roles) : Prop := (r.wire .apply).Worn

/-- Two channels in step, the first of which has carried no more than the second. -/
structure Wire.Younger (v w : Wire) : Prop where
  here : v.InStep
  there : w.InStep
  near : v.near.queueDepth ≤ w.near.queueDepth
  far : v.far.queueDepth ≤ w.far.queueDepth

namespace Wire.Younger

variable {v w : Wire} (younger : v.Younger w) (fresh : ¬w.Worn)

include younger fresh

theorem near_room : v.near.queueDepth < maxQueueDepth := Nat.lt_of_le_of_lt younger.near (younger.there.near_room fresh)

theorem far_room : v.far.queueDepth < maxQueueDepth := Nat.lt_of_le_of_lt younger.far (younger.there.far_room fresh)

theorem unworn : ¬v.Worn := by
  rintro (full | full)
  · exact absurd full (younger.near_room fresh).ne
  · exact absurd full (younger.far_room fresh).ne

theorem asked (small : payload.length ≤ maxFrameBytes) : (v.asked payload).Younger (w.asked payload) where
  here := younger.here.asked (younger.far_room fresh) small
  there := younger.there.asked (younger.there.far_room fresh) small
  near := younger.near
  far := by
    rw [younger.here.asked_depth.2,younger.there.asked_depth.2]
    exact Nat.succ_le_succ younger.far

theorem answered (small : resp.length ≤ maxFrameBytes) : (v.answered resp).Younger (w.answered resp) where
  here := younger.here.answered (younger.near_room fresh) small
  there := younger.there.answered (younger.there.near_room fresh) small
  near := by
    rw [younger.here.answered_depth.1,younger.there.answered_depth.1]
    exact Nat.succ_le_succ younger.near
  far := younger.far

end Wire.Younger

/-- The same connection, apply roles that serve alike, and channels in step. -/
structure Roles.Agrees (begun : Prop) (s t : Roles) : Prop where
  conn : s.conn = t.conn
  apply : s.apply.Agrees begun t.apply
  open_ : (s.wire .apply).near.closed = false ∧ (t.wire .apply).near.closed = false
  frame : (s.wire .apply).near.maxFrame = maxFrameBytes ∧
    (t.wire .apply).near.maxFrame = maxFrameBytes
  step : s.apply.loop = .running → (s.wire .apply).Younger (t.wire .apply)

/-- What is left to compare when a session is over. -/
structure Roles.Ended (s t : Roles) : Prop where
  conn : s.conn = t.conn
  world : s.apply.receiver.world = t.apply.receiver.world

theorem Roles.Agrees.ended {s t : Roles} (agrees : s.Agrees begun t) : s.Ended t := ⟨agrees.conn,agrees.apply.world⟩

/-- One session of the network role on both sides. -/
abbrev Paired (host : Host) (m n : RP α) (s t : Roles) (R : Roles → Roles → Prop) : Prop :=
  Together host WornApply m n s t (fun _ => R) Roles.Ended

section network

variable {out : Outside} {reopen : RS Store} {s t : Roles}

theorem applyTurn_small (req : Bytes) : Ensures (applyTurn out reopen req) fun resp => resp.length ≤ maxFrameBytes :=
  (applyRequest_small req).bind fun _ small => Ensures.after fun _ => Ensures.pure (Nat.le_trans small (by decide))

theorem paired_respond (conn : s.conn = t.conn) (apply : s.apply.Agrees begun t.apply)
    (step : (s.wire .apply).Younger (t.wire .apply))
    (small : resp.length ≤ maxFrameBytes) :
    Paired host (respond .apply resp) (respond .apply resp) s t (Roles.Agrees begun) := by
  refine Lockstep.of_fresh (keepsWorn_respond .apply resp) fun fresh _ => ?_
  rw [respond_run step.here (step.unworn fresh) small,respond_run step.there fresh small]
  have next := step.answered fresh small
  refine ⟨rfl,conn,apply,?_,?_,fun _ => ?_⟩
  · simp only [Roles.answered,Roles.setWire_wire]
    exact ⟨next.here.forth.live.1,next.there.forth.live.1⟩
  · simp only [Roles.answered,Roles.setWire_wire]
    exact ⟨next.here.frame,next.there.frame⟩
  · simp only [Roles.answered,Roles.setWire_wire]
    exact next

theorem paired_call (agrees : s.Agrees begun t) (payload : Bytes)
    (turn : s.apply.loop = .running → Alike host (applyTurn out reopen payload)
      (applyTurn out reopen payload) s.apply t.apply (Apply.Agrees after) Apply.SameTree) :
    Paired host (toApplyRole out reopen payload) (toApplyRole out reopen payload) s t (Roles.Agrees after) := by
  by_cases small : payload.length ≤ maxFrameBytes
  · by_cases running : s.apply.loop = .running
    · have there : t.apply.loop = .running := agrees.apply.loop.symm.trans running
      have step := agrees.step running
      refine Lockstep.of_fresh (keepsWorn_toApplyRole reopen payload) fun fresh => ?_
      have next := step.asked fresh small
      unfold Lockstep toApplyRole
      rw [request_eq (by simpa [Roles.alive] using running) step.here (step.unworn fresh) small,
        request_eq (by simpa [Roles.alive] using there) step.there fresh small]
      have served : Together host WornApply (onApply (applyTurn out reopen payload))
          (onApply (applyTurn out reopen payload)) (s.asked .apply payload) (t.asked .apply payload)
          (fun _ s' t' => s'.conn = t'.conn ∧ s'.apply.Agrees after t'.apply ∧
            (s'.wire .apply).Younger (t'.wire .apply)) Roles.Ended :=
        Together.zoom (turn running) (fun _ a b h => ⟨agrees.conn,h,by
          simpa only [Roles.asked,Roles.setWire_wire] using next⟩) fun a b h => ⟨agrees.conn,h⟩
      have short : wlp (onApply (applyTurn out reopen payload)) host (s.asked .apply payload)
          (fun resp _ => resp.length ≤ maxFrameBytes) := by
        rw [wlp,onApply,wp_zoom]
        exact applyTurn_small payload host _
      refine Lockstep.bind ((Lockstep.and_left served short).mono ?_ (fun _ _ _ _ => id)
        fun _ _ => id) (keepsWorn_respond .apply)
      rintro resp _ s' t' ⟨⟨rfl,conn,apply,step⟩,short⟩
      exact paired_respond conn apply step short
    · have there : t.apply.loop ≠ .running := fun h => running (agrees.apply.loop.trans h)
      intro _
      unfold toApplyRole
      rw [request_unread (by simpa [Roles.alive] using running) ⟨agrees.open_.1,rfl,by rw [agrees.frame.1]; exact small⟩,
        request_unread (by simpa [Roles.alive] using there) ⟨agrees.open_.2,rfl,by rw [agrees.frame.2]; exact small⟩]
      exact ⟨rfl,agrees.conn,agrees.apply.world⟩
  · intro _
    unfold toApplyRole
    rw [request_long agrees.open_.1 (by rw [agrees.frame.1]; exact small),
      request_long agrees.open_.2 (by rw [agrees.frame.2]; exact small)]
    exact ⟨rfl,agrees.ended⟩

theorem Roles.Agrees.weaken (agrees : s.Agrees True t) : s.Agrees begun t :=
  ⟨agrees.conn,⟨agrees.apply.world,agrees.apply.loop,fun running => (agrees.apply.works running).weaken⟩,
    agrees.open_,agrees.frame,agrees.step⟩

/-- The same on both sides, for one program of the network role. -/
abbrev Mirrored (host : Host) (R S : Roles → Roles → Prop) (m : RP α) : Prop :=
  Steady host WornApply R (fun _ => S) Roles.Ended m m

theorem mirrored_role (turn : ∀ {a a' : Apply}, a.Works begun a' → Responds host after (applyRequest out payload) a a') :
    Mirrored host (Roles.Agrees begun) (Roles.Agrees after) (toApplyRole out reopen payload) :=
  ⟨keepsWorn_toApplyRole reopen payload,fun _ _ agrees => paired_call agrees payload fun running =>
    (turn (agrees.apply.works running)).bind fun resp _ _ agrees =>
      (alike_again agrees).bind fun _ _ _ agrees => Together.pure resp agrees⟩

theorem together_onSession (agrees : s.Agrees begun t) (m : CP α) :
    Together host WornApply (onSession m) (onSession m) s t (fun _ => Roles.Agrees begun) (Roles.Agrees begun) := by
  have same : Together host (fun _ => False) m m s.conn t.conn (fun _ => Eq) Eq := by
    rw [agrees.conn]
    exact Together.refl m _ (fun _ _ => rfl) fun _ => rfl
  have keep (c c' : Conn) (h : c = c') : Roles.Agrees begun { s with conn := c } { t with conn := c' } :=
    ⟨h,agrees.apply,agrees.open_,agrees.frame,agrees.step⟩
  exact same.zoom (fun _ => keep) keep

theorem mirrored_onSession (m : CP α) : Mirrored host (Roles.Agrees begun) (Roles.Agrees begun) (onSession m) :=
  ⟨keepsWorn_onSession m,fun _ _ agrees => Lockstep.mono (together_onSession agrees m) (fun _ _ _ _ => id)
    (fun _ _ _ _ h => ⟨h.1,h.2.ended⟩) fun _ _ h => h.ended⟩

theorem mirrored_recv : Mirrored host (Roles.Agrees begun) (Roles.Agrees begun)
      (aborting (toApplyRole out reopen) (onSession Conn.recvData)) := by
  have abort : Mirrored host (Roles.Agrees begun) (Roles.Agrees begun) (toApplyRole out reopen [msgIPCAbort]) :=
    mirrored_role fun works => alike_applyRequest works fun h => absurd h (by decide)
  have stays := abort.stays.bind fun _ => Keeps.pure ()
  refine ⟨(keepsWorn_onSession _).onError stays,fun s t agrees => ?_⟩
  refine Together.onError (together_onSession agrees _) stays (fun s t agrees => ?_) fun _ _ agrees => agrees.ended
  exact Together.bind (abort.pair s t agrees) (fun _ => Keeps.pure _) fun _ _ _ agrees => Together.pure () agrees.ended

theorem relaySteps_mirrored : RelaySteps host out WornApply (fun _ => True) Roles.Agrees Roles.Ended
    (toApplyRole out reopen) (toApplyRole out reopen) where
  conn _ _ _ agrees := agrees.conn
  ended _ _ _ agrees := agrees.ended
  weaken _ _ _ agrees := agrees.weaken
  hear _ := (mirrored_onSession _).mono (fun _ _ => id) fun _ _ _ => .intro trivial
  recv _ := mirrored_recv.mono (fun _ _ => id) fun _ _ _ => .intro trivial
  send _ _ := mirrored_onSession _
  report _ _ := (mirrored_onSession _).mono (fun _ _ => id) fun _ _ _ agrees => agrees.ended
  ask _ _ known := (mirrored_role (alike_applyRequest · known)).mono (fun _ _ => And.right) fun _ _ _ => id
  start _ _ begins := (mirrored_role (alike_applyRequest_begin · begins)).mono (fun _ _ => And.right) fun _ _ _ => id

end network

/-! One session after another. -/

/-- A peer's visit and the host it falls on. -/
structure Visit where
  host : Host
  client : Client

def Roles.accept (r : Roles) (client : Client) : Roles := { r with conn := { client } }

/-- The sessions of `HandleActiveConnViaApplyIPC` with one apply role over one channel. -/
def serveVisits (out : Outside) (reopen : RS Store) : List Visit → Roles → Roles
  | [], r => r
  | v :: rest, r => serveVisits out reopen rest
      (viaApplyIPC out (toApplyRole out reopen) v.host (r.accept v.client)).2

/-- The store as it is opened. -/
def Store.opened (s : Store) : Store :=
  { dest := s.dest, stageRoot := s.stageRoot, partialRoot := s.partialRoot, fds := s.fds }

/-- A freshly started apply role on the same tree, over a new channel. -/
def Roles.restarted (r : Roles) (wire : Wire) : Roles :=
  { r with
    apply := { receiver := { r.apply.receiver with store := r.apply.receiver.store.opened } }
    wire := fun _ => wire }

/-- Nothing of an earlier push is under way. -/
structure Apply.AtRest (a : Apply) : Prop where
  running : a.loop = .running
  idle : a.receiver.store.active = false
  plain : a.destMan = none

/-- The channel is in step as long as the apply role serves it, unless it is worn out. -/
def Roles.Sane (r : Roles) : Prop :=
  WornApply r ∨ ((r.wire .apply).near.closed = false ∧
    (r.wire .apply).near.maxFrame = maxFrameBytes ∧
    (r.apply.loop = .running → (r.wire .apply).InStep))

theorem Wire.InStep.sane {r : Roles} (step : (r.wire .apply).InStep) : r.Sane :=
  .inr ⟨step.forth.live.1,step.frame,fun _ => step⟩

section visits

variable {out : Outside} {reopen : RS Store}

theorem sane_onSession (m : CP α) : Keeps host Roles.Sane (onSession m) := Keeps.zoom m fun _ _ sane => sane

theorem sane_respond {r : Roles} (step : (r.wire .apply).InStep) (small : resp.length ≤ maxFrameBytes) :
    wp (respond .apply resp) host r (fun _ => Roles.Sane) (fun _ => Roles.Sane) Roles.Sane := by
  by_cases worn : WornApply r
  · exact (keepsWorn_respond .apply resp r worn).stops (fun _ _ => .inl) fun _ => .inl
  · rw [wp_of_run (respond_run step worn small)]
    apply Wire.InStep.sane
    rw [Roles.answered,Roles.setWire_wire]
    exact step.answered (step.near_room worn) small

theorem sane_call (payload : Bytes) : Keeps host Roles.Sane (toApplyRole out reopen payload) := by
  intro r sane
  by_cases worn : WornApply r
  · exact (keepsWorn_toApplyRole reopen payload r worn).stops (fun _ _ => .inl) fun _ => .inl
  obtain ⟨open_,frame,step⟩ := sane.resolve_left worn
  by_cases small : payload.length ≤ maxFrameBytes
  · by_cases running : r.apply.loop = .running
    · -- the request arrives; the response goes back over the channel it left behind
      have step := step running
      unfold wp toApplyRole
      rw [request_eq (by simpa [Roles.alive] using running) step worn small]
      refine wp_bind.mpr ?_
      have next := step.asked (step.far_room worn) small
      have short : wlp (applyTurn out reopen payload) host (r.asked .apply payload).apply
          (fun resp _ => resp.length ≤ maxFrameBytes) :=
        applyTurn_small payload host _
      rw [onApply,wp_zoom]
      refine short.stops (fun resp a short => ?_) (fun a _ => ?_)
      · refine sane_respond ?_ short
        simpa only [Roles.asked,Roles.setWire_wire] using next
      · apply Wire.InStep.sane
        simpa only [Roles.asked,Roles.setWire_wire] using next
    · unfold wp toApplyRole
      rw [request_unread (by simpa [Roles.alive] using running) ⟨open_,rfl,by rw [frame]; exact small⟩]
      refine .inr ⟨?_,?_,fun h => absurd h running⟩ <;> rw [Roles.setWire_wire]
      · exact ChannelState.sent_closed ..
      · exact frame
  · unfold wp toApplyRole
    rw [request_long open_ (by rw [frame]; exact small)]
    exact sane

theorem sane_visits (visits : List Visit) {r : Roles} (sane : r.Sane) : (serveVisits out reopen visits r).Sane := by
  induction visits generalizing r with
  | nil => exact sane
  | cons v rest ih => exact ih (keeps_viaApplyIPC sane_onSession sane_call (r.accept v.client) sane).reached

/-- An apply role at rest and a restarted one agree, whatever the first has seen. -/
theorem Apply.AtRest.agrees {r : Roles} (rest : r.apply.AtRest) {wire : Wire} (made : wire.InStep)
    (unused : wire.near.queueDepth = 0 ∧ wire.far.queueDepth = 0) (step : (r.wire .apply).InStep)
    (client : Client) : ((r.restarted wire).accept client).Agrees False (r.accept client) where
  conn := rfl
  apply := Apply.Works.agrees {
    receiver := ⟨rfl,rfl,rfl,rfl,rfl,rest.idle.symm,nofun,nofun⟩
    destMan := rest.plain.symm
    here := rfl
    there := rest.running }
  open_ := ⟨made.forth.live.1,step.forth.live.1⟩
  frame := ⟨made.frame,step.frame⟩
  step _ := {
    here := made
    there := step
    near := by
      change wire.near.queueDepth ≤ _
      rw [unused.1]
      exact Nat.zero_le _
    far := by
      change wire.far.queueDepth ≤ _
      rw [unused.2]
      exact Nat.zero_le _ }

/-- After its commit the apply role has no push under way, if it still runs over a sound channel. -/
def Roles.Rested (r : Roles) : Prop := WornApply r ∨ (r.apply.loop = .running → r.apply.AtRest)

theorem openLocalStoreAt_idle (destination : Bytes) (destFD : Option Path) :
    Ensures (openLocalStoreAt destination destFD) fun s => s.active = false := by
  cases destFD with
  | none => exact Ensures.after fun _ => Ensures.after fun _ => Ensures.pure rfl
  | some fd => exact Ensures.after fun _ => Ensures.pure rfl

/-- Served or refused, a commit ends the loop. -/
theorem commit_leaves (a : Apply) : wlp (applyRequest out encodeCommit) host a fun _ b => b.loop ≠ .running := by
  change wp (replying out (applyCommit out)) host a _ _ _
  simp only [replying,applyCommit,leaving,wp_bind,wp_attempt,wp_get,wp_modify,wp_pure]
  exact (wp_always fun _ => trivial).ends (fun _ _ _ => by simp) (fun _ _ _ => by simp)

section finished

variable (idle : Ensures reopen fun s => s.active = false)

include idle

theorem commit_rests (a : Apply) : wlp (applyTurn out reopen encodeCommit) host a
    (fun _ b => b.loop = .running → b.AtRest) := by
  simp only [applyTurn,again,wp_bind,wp_get,wp_when,wp_attempt,inStore,onWorld,wp_zoom,wp_modify,wp_pure]
  refine (commit_leaves a).imp (fun _ b left => ⟨fun _ => ?_,fun _ running => absurd running left⟩)
  exact (idle host _).ends (fun s w opened _ => ⟨rfl,opened,rfl⟩) (fun _ _ _ => by simp)

theorem rested_call {r : Roles} (sane : r.Sane) : wlp (toApplyRole out reopen encodeCommit) host r
    (fun _ => Roles.Rested) := by
  by_cases worn : WornApply r
  · exact (keepsWorn_toApplyRole reopen encodeCommit r worn).imp (fun _ _ => .inl)
  obtain ⟨open_,frame,step⟩ := sane.resolve_left worn
  unfold wlp wp toApplyRole
  by_cases running : r.apply.loop = .running
  · rw [request_eq (by simpa [Roles.alive] using running) (step running) worn (by decide)]
    refine wp_bind.mpr ?_
    rw [onApply,wp_zoom]
    refine (commit_rests idle _).imp (fun resp b rests => ?_)
    have stays : Keeps host (fun r => r.apply.loop = .running → r.apply.AtRest) (respond .apply resp) :=
      keeps_respond (fun _ => Keeps.zoom _ fun _ _ => id) (fun _ => Keeps.zoom _ fun _ _ => id)
        (Keeps.modify fun _ _ failed => absurd failed (by simp)) resp
    exact (stays { r.asked .apply encodeCommit with apply := b } rests).imp (fun _ _ => .inr)
  · rw [request_unread (by simpa [Roles.alive] using running) ⟨open_,rfl,by rw [frame]; decide⟩]
    trivial

theorem rested_commit {r : Roles} (sane : r.Sane) : wlp (relayCommit (toApplyRole out reopen)) host r
    (fun _ => Roles.Rested) := by
  refine wp_bind.mpr ((sane_onSession _ r sane).imp (fun raw t sane => ?_))
  rw [wp_bind,wp_require]
  refine ⟨fun same => ?_,fun _ => trivial⟩
  rw [same,wp_bind]
  refine (rested_call idle sane).imp (fun resp t rested => ?_)
  rw [onSession,wp_zoom]
  exact (wp_always fun _ => rested).imp (fun _ _ => id)

theorem session_rested {r : Roles} (sane : r.Sane) : wlp (viaApplyIPC out (toApplyRole out reopen)) host r
    (fun _ => Roles.Rested) := by
  have announced : Keeps host Roles.Sane relayManifest :=
    (sane_onSession _).bind fun _ => (Keeps.require _).bind fun _ => Keeps.pure _
  refine wp_bind.mpr ((announced r sane).imp (fun raw t sane => ?_))
  refine wp_bind.mpr ((sane_call raw t sane).imp (fun resp t sane => ?_))
  refine wp_bind.mpr ((sane_onSession _ t sane).imp (fun _ t sane => ?_))
  refine wp_bind.mpr (wp_ofExcept.mpr ⟨fun entries _ => ?_,fun _ _ => trivial⟩)
  exact wp_bind.mpr ((keeps_relayFiles sane_onSession sane_call _ t sane).imp (fun _ t sane => rested_commit idle sane))

/-- A session that ends without an error leaves the role at rest, whatever came before it, or has ended it. -/
theorem finished_session_rests {start after : Roles} (made : (start.wire .apply).InStep) (visits : List Visit)
    (client : Client) (finished : viaApplyIPC out (toApplyRole out reopen) host
      ((serveVisits out reopen visits start).accept client) = (.ok (),after))
    (lasts : ¬WornApply after) (running : after.apply.loop = .running) : after.apply.AtRest := by
  have sane : ((serveVisits out reopen visits start).accept client).Sane := sane_visits visits made.sane
  exact ((session_rested idle sane).ok_of finished).resolve_left lasts running

end finished

end visits

/-- After any sessions that left the apply role at rest, a session ends as it would with a
freshly started one: the same result, the same replies and the same tree. -/
theorem visits_leave_no_trace (out : Outside) (reopen : RS Store) (start : Roles)
    (made : (start.wire .apply).InStep) (visits : List Visit) (host : Host) (client : Client)
    (wire : Wire) (new : wire.InStep) (unused : wire.near.queueDepth = 0 ∧ wire.far.queueDepth = 0)
    (rest : (serveVisits out reopen visits start).apply.AtRest)
    (lasts : ¬WornApply (viaApplyIPC out (toApplyRole out reopen) host
      ((serveVisits out reopen visits start).accept client)).2) :
    let aged := viaApplyIPC out (toApplyRole out reopen) host
      ((serveVisits out reopen visits start).accept client)
    let first := viaApplyIPC out (toApplyRole out reopen) host
      (((serveVisits out reopen visits start).restarted wire).accept client)
    aged.1 = first.1 ∧ aged.2.conn.replies = first.2.conn.replies ∧
      aged.2.apply.receiver.world = first.2.apply.receiver.world := by
  have fresh : ¬WornApply (serveVisits out reopen visits start) := fun worn =>
    lasts (keeps_viaApplyIPC keepsWorn_onSession (keepsWorn_toApplyRole reopen)
      ((serveVisits out reopen visits start).accept client) worn).reached
  have step := ((sane_visits visits made.sane).resolve_left fresh).2.2 rest.running
  have session : Mirrored host (Roles.Agrees False) (Roles.Agrees False) (viaApplyIPC out (toApplyRole out reopen)) :=
    relaySteps_mirrored.viaApplyIPC
  have both := session.pair _ _ (rest.agrees new unused step client)
  obtain ⟨result,ended⟩ := Together.ends (fun _ _ _ agrees => agrees.ended) (both lasts)
  exact ⟨result.symm,congrArg Conn.replies ended.conn.symm,ended.world.symm⟩

/-! One destination `/d`; a peer announces a file, begins it, and ends it too early. -/

def sampleNonce : Fixed 16 := .ofBytes 16 (List.replicate 16 3)

/-- The ends of a channel without authentication, as `NewChannel` makes them. -/
def plainWire (a b : ProcessRole) : Wire := ⟨newChannel a b sampleNonce,newChannel b a sampleNonce⟩

def sampleTree : SourceTree :=
  ⟨[⟨ascii "f",.file,2,0o644,some (sha256 [1,2])⟩],fun _ => [1,2],
    fun _ off => if off < 2 then [[1,2].drop off] else []⟩

/-- A commit that does nothing, where only the traffic before it matters. -/
def sampleOutside : Outside where
  nfc := PathGrammar.asciiTables
  json := MetaCodec.blank
  explain _ := []
  publish _ := pure ()

def sampleReceiver : Receiver where
  world := ⟨FS.build [([ascii "d"],.dir 0o755),([ascii "d",metaDirName],.dir 0o700),
    ([ascii "d",metaDirName,ascii "recv-stage"],.dir 0o700),
    ([ascii "d",metaDirName,ascii "recv-partial"],.dir 0o700)],0⟩
  store := {
    dest := ascii "/d"
    stageRoot := recvStageDir (ascii "/d")
    partialRoot := recvPartialDir (ascii "/d") }

def sampleRoles : Roles where
  conn := ⟨.stop false,[],[]⟩
  apply := { receiver := sampleReceiver }
  wire _ := plainWire .net .apply

/-- A file of two bytes that ends before its first. -/
def hastyClient : Client :=
  saying (encodeManifest sampleTree.entries) (.await fun _ =>
    saying (encodeFileBegin ⟨ascii "f",0o644,sha256 [1,2],2⟩) (.await fun _ =>
      saying (encodeFileEnd ⟨ascii "f",sha256 [1,2]⟩) (.stop false)))

def sampleReopen : RS Store := openLocalStoreAt (ascii "/d") none

theorem plainWire_inStep {a b : ProcessRole} (ha : ChannelState.Recognized a)
    (hb : ChannelState.Recognized b) : (plainWire a b).InStep := by
  have ends (x y : ProcessRole) : Endpoints (newChannel x y sampleNonce) (newChannel y x sampleNonce) :=
    ⟨⟨rfl,rfl,rfl,rfl,rfl⟩,⟨rfl,rfl⟩,rfl,by simp [newChannel,maxFrameBytes],Nat.zero_le _⟩
  exact ⟨ends a b,ends b a,⟨ha,hb⟩,rfl⟩

theorem visits_leave_no_trace_sample :
    (serveVisits sampleOutside sampleReopen [⟨quietHost,push sampleTree⟩] sampleRoles).apply.AtRest ∧
    (viaApplyIPC sampleOutside (toApplyRole sampleOutside sampleReopen) quietHost
      ((serveVisits sampleOutside sampleReopen [⟨quietHost,push sampleTree⟩] sampleRoles).accept
        (push sampleTree))).2.conn.replies =
      (viaApplyIPC sampleOutside (toApplyRole sampleOutside sampleReopen) quietHost
        (((serveVisits sampleOutside sampleReopen [⟨quietHost,push sampleTree⟩] sampleRoles).restarted
          (plainWire .net .apply)).accept (push sampleTree))).2.conn.replies := by
  have rest : (serveVisits sampleOutside sampleReopen [⟨quietHost,push sampleTree⟩]
      sampleRoles).apply.AtRest := ⟨by decide +kernel,by decide +kernel,by decide +kernel⟩
  have lasts : ¬WornApply (viaApplyIPC sampleOutside (toApplyRole sampleOutside sampleReopen) quietHost
      ((serveVisits sampleOutside sampleReopen [⟨quietHost,push sampleTree⟩] sampleRoles).accept
        (push sampleTree))).2 := by
    unfold WornApply Wire.Worn
    decide +kernel
  exact ⟨rest,(visits_leave_no_trace sampleOutside sampleReopen sampleRoles (plainWire_inStep rfl rfl)
    _ quietHost (push sampleTree) (plainWire .net .apply) (plainWire_inStep rfl rfl) ⟨rfl,rfl⟩ rest
    lasts).2.1⟩

/-- The second of two pushes. -/
def secondPush : Outcome Fault Unit × Roles := viaApplyIPC sampleOutside (toApplyRole sampleOutside sampleReopen) quietHost
  ((serveVisits sampleOutside sampleReopen [⟨quietHost,push sampleTree⟩] sampleRoles).accept (push sampleTree))

theorem finished_session_sample : secondPush.1 = .ok () ∧ secondPush.2.apply.AtRest := by
  have finished : secondPush.1 = .ok () := by decide +kernel
  have lasts : ¬WornApply secondPush.2 := by
    unfold WornApply Wire.Worn
    decide +kernel
  have running : secondPush.2.apply.loop = .running := by decide +kernel
  have run : secondPush = (.ok (),secondPush.2) := by rw [← finished]
  have idle : Ensures sampleReopen fun s => s.active = false := openLocalStoreAt_idle _ _
  have made : (sampleRoles.wire .apply).InStep := plainWire_inStep rfl rfl
  exact ⟨finished,finished_session_rests idle made _ _ run lasts running⟩

/-- After the hasty client, the honest push is refused; a fresh apply role serves it. -/
theorem hasty_client_blocks :
    (viaApplyIPC sampleOutside (toApplyRole sampleOutside sampleReopen) quietHost
      ((serveVisits sampleOutside sampleReopen [⟨quietHost,hastyClient⟩] sampleRoles).accept
        (push sampleTree))).2.conn.replies =
      [encodeManifestOK,mustResult false (ascii "protocol: file already active")] ∧
    (viaApplyIPC sampleOutside (toApplyRole sampleOutside sampleReopen) quietHost
      (((serveVisits sampleOutside sampleReopen [⟨quietHost,hastyClient⟩] sampleRoles).restarted
        (plainWire .net .apply)).accept (push sampleTree))).2.conn.replies =
      [encodeManifestOK,encodeFileAck 0,okResult] := by
  decide +kernel

end Integris.RemoteSync
