import Integris.PathGrammar

/-! Descriptor-relative resolution of a component list. Everything outside the
resolver answers as it likes: each answer is a function of all the calls so far,
so that two questions about one descriptor may be answered differently. -/
namespace Integris.Resolution

open PathGrammar Prog

inductive ObjectType where
  | unknown | dir | file | symlink | other
  deriving DecidableEq, Repr

structure FileInfo where
  type : ObjectType
  id : UInt64
  volume : UInt64
  linkCount : UInt32
  mode : UInt32
  deriving DecidableEq

/-- A descriptor is the number of successful opens before its own. -/
abbrev Descriptor := Nat

/-- The directory a name is opened in; the root was opened by the caller. -/
inductive Parent where
  | root
  | opened (f : Descriptor)
  deriving DecidableEq

inductive Event where
  | rootInfo (answer : Except Bytes FileInfo)
  | cancelled (answer : Option Bytes)
  | opened (parent : Parent) (name : Bytes) (f : Descriptor)
  | refused (parent : Parent) (name : Bytes) (error : Bytes)
  | info (f : Descriptor) (answer : Except Bytes FileInfo)
  | closed (f : Descriptor) (answer : Option Bytes)

abbrev Trace := List Event

/-- The context and the file system; errors are their texts. -/
structure Adversary where
  rootInfo : Trace → Except Bytes FileInfo
  cancelled : Trace → Option Bytes
  openNoFollow : Trace → Parent → Bytes → Except Bytes Unit
  info : Trace → Descriptor → Except Bytes FileInfo
  /-- Is the opened object a `Dir`? -/
  isDir : Trace → Descriptor → Bool
  close : Trace → Descriptor → Option Bytes

def opens : Trace → List Descriptor := List.filterMap fun
  | .opened _ _ f => some f
  | _ => none

def closes : Trace → List Descriptor := List.filterMap fun
  | .closed f _ => some f
  | _ => none

/-- What was answered about a descriptor, in order. -/
def reports (f : Descriptor) : Trace → List (Except Bytes FileInfo) := List.filterMap fun
  | .info g answer => if g = f then some answer else none
  | _ => none

/-- The rules of resolution; those of the grammar are apart. -/
inductive Rule where
  | link | type | ident | volume | open_ | policy
  deriving DecidableEq, Repr

inductive Failure where
  | grammar (e : PathGrammar.Error)
  | rejected (rule : Rule) (index : Int) (message : Bytes)
  deriving DecidableEq

/-- `volume` is zero for an untyped root. -/
structure RootIdentity where
  volume : UInt64
  allowedVolumes : List UInt64

structure ResolveOpts where
  root : RootIdentity
  allowHardLinks : Bool
  requireDir : Bool
  expectFinal : ObjectType

def volumeAllowed (v : UInt64) (root : RootIdentity) : Bool :=
  (root.volume = 0 ∧ root.allowedVolumes = []) ∨ v = root.volume ∨ v ∈ root.allowedVolumes

def rejecting (p : Prop) [Decidable p] (rule : Rule) (index : Int) (message : String) :
    Except Failure Unit :=
  demand (¬p) (.rejected rule index (ascii message))

theorem rejecting_ok {p : Prop} [Decidable p] {rule : Rule} {index : Int} {message : String} :
    rejecting p rule index message = .ok () ↔ ¬p := demand_ok

def checkOpened (info : FileInfo) (i : Int) (last : Bool) (opts : ResolveOpts) : Except Failure Unit := do
  rejecting (info.type = .symlink) .link i "symlink encountered"
  rejecting (info.type = .other ∨ info.type = .unknown) .type i "unsupported object type"
  rejecting ((last = false ∨ opts.requireDir = true) ∧ info.type ≠ .dir) .type i "expected directory"
  rejecting (last = true ∧ opts.expectFinal ≠ .unknown ∧ info.type ≠ opts.expectFinal) .type i
    "final object type mismatch"
  rejecting (opts.allowHardLinks = false ∧ info.type ≠ .dir ∧ info.linkCount > 1) .policy i
    "hard link not permitted"
  rejecting (volumeAllowed info.volume opts.root = false) .volume i "unauthorized mount/volume"

def sameIdentity (a b : FileInfo) : Bool :=
  a.type = b.type ∧ a.id = b.id ∧ a.volume = b.volume ∧ a.linkCount = b.linkCount

abbrev Resolver := Prog Adversary Trace

def askRoot : Resolver Bytes FileInfo := fun a t =>
  match a.rootInfo t with
  | .ok info => (.ok info, t ++ [.rootInfo (.ok info)])
  | .error e => (.error e, t ++ [.rootInfo (.error e)])

def checkContext : Resolver Bytes Unit := fun a t =>
  match a.cancelled t with
  | none => (.ok (), t ++ [.cancelled none])
  | some e => (.error e, t ++ [.cancelled (some e)])

def openNoFollow (parent : Parent) (name : Bytes) : Resolver Bytes Descriptor := fun a t =>
  match a.openNoFollow t parent name with
  | .ok () => (.ok (opens t).length, t ++ [.opened parent name (opens t).length])
  | .error e => (.error e, t ++ [.refused parent name e])

def askInfo (f : Descriptor) : Resolver Bytes FileInfo := fun a t =>
  match a.info t f with
  | .ok info => (.ok info, t ++ [.info f (.ok info)])
  | .error e => (.error e, t ++ [.info f (.error e)])

def asDir (f : Descriptor) : Resolver Failure Bool := fun a t => (.ok (a.isDir t f), t)

/-- The error of a close is always dropped. -/
def close (f : Descriptor) : Resolver Failure Unit := fun a t => (.ok (), t ++ [.closed f (a.close t f)])

def closeAll : List Descriptor → Resolver Failure Unit
  | [] => pure ()
  | f :: rest => do
    close f
    closeAll rest

def opening (index : Int) (before : String) (e : Bytes) : Failure :=
  .rejected .open_ index (ascii before ++ e)

/-- The two observations of a descriptor, with the policy checked on the first. -/
def inspect (opts : ResolveOpts) (i : Nat) (last : Bool) (f : Descriptor) : Resolver Failure FileInfo := do
  let info ← mapError (opening i "post-open info: ") (askInfo f)
  ofExcept (checkOpened info i last opts)
  let info2 ← mapError (opening i "post-open recheck: ") (askInfo f)
  require (sameIdentity info info2 = true)
    (.rejected .ident i (ascii "object identity changed after open"))
  pure info

/-- Until a descriptor is retained its own error exits close it first. -/
def openComponent (opts : ResolveOpts) (i : Nat) (last : Bool) (parent : Parent) (name : Bytes) :
    Resolver Failure (Descriptor × FileInfo) := do
  mapError (opening i "") checkContext
  let f ← mapError (opening i "") (openNoFollow parent name)
  let info ← onError (inspect opts i last f) (close f)
  pure (f, info)

/-- The directory of the next component. -/
def nextParent (i : Nat) (last : Bool) (parent : Parent) (f : Descriptor) (info : FileInfo) :
    Resolver Failure Parent := do
  if info.type = .dir then
    let dir ← asDir f
    require (dir = true) (.rejected .type i (ascii "directory lacks Dir interface"))
    pure (.opened f)
  else
    require (last = true) (.rejected .type i (ascii "intermediate component is not a directory"))
    pure parent

/-- `fail` of the source is the clean-up of both `onError`s: the retained chain in
reverse, which after the append holds the new descriptor too. -/
def resolveLoop (opts : ResolveOpts) (n : Nat) : Nat → Parent → List Descriptor → List Bytes →
    Resolver Failure (List Descriptor)
  | _, _, out, [] => pure out
  | i, parent, out, name :: rest => do
    let last := decide (i + 1 = n)
    let (f, info) ← onError (openComponent opts i last parent name) (closeAll out.reverse)
    let next ← onError (nextParent i last parent f info) (closeAll (out ++ [f]).reverse)
    resolveLoop opts n (i + 1) next (out ++ [f]) rest

/-- The chain of descriptors, one per component; `rootGiven` is false for a nil root. -/
def resolve (nfc : NFCTables) (rootGiven : Bool) (comps : List Bytes) (opts : ResolveOpts)
    (profile : Profile) : Resolver Failure (List Descriptor) := do
  require (rootGiven = true) (.rejected .open_ (-1) (ascii "nil root descriptor"))
  mapError .grammar (ofExcept (validateComponents nfc profile comps))
  let rootInfo ← mapError (opening (-1) "root info: ") askRoot
  require (rootInfo.type = .dir) (.rejected .type (-1) (ascii "root is not a directory"))
  require (¬ (opts.root.volume ≠ 0 ∧ rootInfo.volume ≠ opts.root.volume))
    (.rejected .volume (-1) (ascii "root volume does not match conferred identity"))
  resolveLoop opts comps.length 0 .root [] comps

@[simp] theorem opens_append (t u : Trace) : opens (t ++ u) = opens t ++ opens u := List.filterMap_append

@[simp] theorem closes_append (t u : Trace) : closes (t ++ u) = closes t ++ closes u := List.filterMap_append

@[simp] theorem reports_append (f : Descriptor) (t u : Trace) :
    reports f (t ++ u) = reports f t ++ reports f u := List.filterMap_append

/-- What the policy asks of a retained object. -/
structure Permitted (opts : ResolveOpts) (last : Bool) (info : FileInfo) : Prop where
  notLink : info.type ≠ .symlink
  notSpecial : info.type ≠ .other ∧ info.type ≠ .unknown
  intermediate : last = false → info.type = .dir
  requireDir : opts.requireDir = true → info.type = .dir
  final : last = true → opts.expectFinal ≠ .unknown → info.type = opts.expectFinal
  hardLinks : opts.allowHardLinks = false → info.type ≠ .dir → info.linkCount ≤ 1
  volume : volumeAllowed info.volume opts.root = true

variable {info : FileInfo} {last : Bool} {opts : ResolveOpts} {f : Descriptor}

theorem checkOpened_ok {i : Int} (ok : checkOpened info i last opts = .ok ()) : Permitted opts last info := by
  simp only [checkOpened,rejecting_ok,except_unit_bind_ok] at ok
  obtain ⟨link,special,needDir,final,hard,volume⟩ := ok
  refine ⟨link,not_or.mp special,fun h => ?_,fun h => ?_,fun l e => ?_,fun a d => ?_,by simpa using volume⟩
  · by_contra other
    exact needDir ⟨.inl h,other⟩
  · by_contra other
    exact needDir ⟨.inr h,other⟩
  · by_contra other
    exact final ⟨l,e,other⟩
  · by_contra other
    exact hard ⟨a,d,UInt32.not_le.mp other⟩

theorem Permitted.same {a b : FileInfo} (h : Permitted opts last a)
    (same : sameIdentity a b = true) : Permitted opts last b := by
  obtain ⟨type,-,volume,links⟩ := of_decide_eq_true same
  obtain ⟨link,special,inner,dir,final,hard,vol⟩ := h
  rw [type] at link special inner dir final hard
  rw [links] at hard
  rw [volume] at vol
  exact ⟨link,special,inner,dir,final,hard,vol⟩

/-- Reported twice with the same facts, and permitted on both. -/
def Retained (opts : ResolveOpts) (last : Bool) (f : Descriptor) (t : Trace) : Prop :=
  ∃ a b, reports f t = [.ok a,.ok b] ∧ sameIdentity a b = true ∧
    Permitted opts last a ∧ Permitted opts last b

/-- One call that is about no descriptor. -/
def Notes (t u : Trace) : Prop :=
  ∃ e, (opens [e] = [] ∧ closes [e] = [] ∧ ∀ f, reports f [e] = []) ∧ u = t ++ [e]

/-- Calls that ask about `f` only. -/
structure Asks (f : Descriptor) (t u : Trace) : Prop where
  opens : opens u = opens t
  closes : closes u = closes t
  others : ∀ g, g ≠ f → reports g u = reports g t

theorem Asks.trans {t u v : Trace} (first : Asks f t u) (second : Asks f u v) : Asks f t v :=
  ⟨second.opens.trans first.opens,second.closes.trans first.closes,
    fun g ne => (second.others g ne).trans (first.others g ne)⟩

section steps

variable {a : Adversary} {t : Trace} {f : Descriptor} {opts : ResolveOpts} {i : Nat} {last : Bool}

theorem askRoot_wp : wp askRoot a t (fun _ u => Notes t u) (fun _ u => Notes t u) (fun _ => False) := by
  unfold wp askRoot
  cases a.rootInfo t <;> exact ⟨_,⟨rfl,rfl,fun _ => rfl⟩,rfl⟩

theorem checkContext_wp : wp checkContext a t (fun _ u => Notes t u) (fun _ u => Notes t u) (fun _ => False) := by
  unfold wp checkContext
  cases a.cancelled t <;> exact ⟨_,⟨rfl,rfl,fun _ => rfl⟩,rfl⟩

theorem openNoFollow_wp (parent : Parent) (name : Bytes) : wp (openNoFollow parent name) a t
    (fun f u => f = (opens t).length ∧ u = t ++ [.opened parent name f]) (fun _ u => Notes t u)
    (fun _ => False) := by
  unfold wp openNoFollow
  cases a.openNoFollow t parent name with
  | error e => exact ⟨_,⟨rfl,rfl,fun _ => rfl⟩,rfl⟩
  | ok => exact ⟨rfl,rfl⟩

theorem asks_info (answer : Except Bytes FileInfo) : Asks f t (t ++ [.info f answer]) := by
  refine ⟨by simp [opens],by simp [closes],fun g ne => ?_⟩
  simp [reports,Ne.symm ne]

theorem askInfo_wp : wp (askInfo f) a t (fun info u => Asks f t u ∧ reports f u = reports f t ++ [.ok info])
    (fun _ u => Asks f t u) (fun _ => False) := by
  unfold wp askInfo
  rcases a.info t f with e | info
  · exact asks_info _
  · exact ⟨asks_info _,by simp [reports]⟩

theorem inspect_wp (fresh : reports f t = []) : wp (inspect opts i last f) a t
    (fun _ u => Asks f t u ∧ Retained opts last f u) (fun _ u => Asks f t u) (fun _ => False) := by
  unfold inspect
  rw [wp_bind,wp_mapError]
  refine askInfo_wp.ends ?_ (fun _ _ asks => asks)
  rintro info u ⟨first,reported⟩
  rw [wp_bind,wp_ofExcept]
  refine ⟨fun _ checked => ?_,fun _ _ => first⟩
  rw [wp_bind,wp_mapError]
  refine askInfo_wp.ends ?_ (fun _ _ asks => first.trans asks)
  rintro info2 v ⟨second,again⟩
  rw [wp_bind,wp_require]
  refine ⟨fun same => ?_,fun _ => first.trans second⟩
  have permitted := checkOpened_ok checked
  rw [fresh] at reported
  rw [reported] at again
  exact ⟨first.trans second,info,info2,again,same,permitted,permitted.same same⟩

theorem closeAll_run (fs : List Descriptor) (t : Trace) :
    ∃ u, closeAll fs a t = (.ok (),u) ∧ opens u = opens t ∧ closes u = closes t ++ fs := by
  induction fs generalizing t with
  | nil => exact ⟨t,rfl,rfl,by simp⟩
  | cons f fs ih =>
    obtain ⟨u,run,opened,closed⟩ := ih (t ++ [.closed f (a.close t f)])
    refine ⟨u,?_,?_,?_⟩
    · rw [closeAll,bind_run (rfl : close f a t = (.ok (),t ++ [.closed f (a.close t f)]))]
      exact run
    · rw [opened]
      simp [opens]
    · rw [closed]
      simp [closes]

end steps

/-- The state of the loop: what is open is the retained chain, nothing was closed,
and nothing was asked about a descriptor not yet opened. -/
structure Holding (opts : ResolveOpts) (n : Nat) (out : List Descriptor) (t : Trace) : Prop where
  opened : opens t = out
  numbered : out = List.range out.length
  unclosed : closes t = []
  unasked : ∀ f, out.length ≤ f → reports f t = []
  retained : ∀ f < out.length, Retained opts (decide (f + 1 = n)) f t

/-- Every descriptor that was opened has been closed, once. -/
def Released (t : Trace) : Prop := (opens t).Nodup ∧ (closes t).Perm (opens t)

section loop

variable {a : Adversary} {t : Trace} {opts : ResolveOpts} {n : Nat} {out : List Descriptor}

/-- What remains to be closed is `fs`. -/
def Owes (fs : List Descriptor) (t : Trace) : Prop := (opens t).Nodup ∧ (closes t ++ fs).Perm (opens t)

theorem closeAll_released {fs : List Descriptor} (owes : Owes fs t) :
    wp (closeAll fs) a t (fun _ u => Released u) (fun _ u => Released u) (fun _ => False) := by
  obtain ⟨u,run,opened,closed⟩ := closeAll_run fs t
  refine (wp_of_run run).mpr ?_
  rw [Released,opened,closed]
  exact owes

theorem Holding.owes (h : Holding opts n out t) : Owes out.reverse t := by
  refine ⟨?_,?_⟩
  · rw [h.opened,h.numbered]
    exact List.nodup_range
  · rw [h.unclosed,h.opened]
    exact List.reverse_perm out

theorem Holding.released (h : Holding opts n [] t) : Released t := by
  rw [Released,h.opened,h.unclosed]
  exact ⟨List.nodup_nil,.nil⟩

theorem Holding.noted (h : Holding opts n out t) {u : Trace} (noted : Notes t u) : Holding opts n out u := by
  obtain ⟨e,⟨noOpen,noClose,noReport⟩,rfl⟩ := noted
  refine ⟨?_,h.numbered,?_,fun f beyond => ?_,fun f inside => ?_⟩
  · rw [opens_append,noOpen,List.append_nil,h.opened]
  · rw [closes_append,noClose,List.append_nil,h.unclosed]
  · rw [reports_append,noReport,List.append_nil,h.unasked f beyond]
  · obtain ⟨x,y,reported,rest⟩ := h.retained f inside
    exact ⟨x,y,by rw [reports_append,noReport,List.append_nil,reported],rest⟩

variable {parent : Parent}

theorem Holding.extend (h : Holding opts n out t) {u : Trace} {name : Bytes}
    (asks : Asks out.length (t ++ [.opened parent name out.length]) u)
    (retained : Retained opts (decide (out.length + 1 = n)) out.length u) :
    Holding opts n (out ++ [out.length]) u := by
  have quiet : ∀ g, reports g (t ++ [.opened parent name out.length]) = reports g t := by simp [reports]
  refine ⟨?_,?_,?_,fun f beyond => ?_,fun f inside => ?_⟩
  · rw [asks.opens,opens_append,h.opened]
    rfl
  · have numbered := h.numbered
    rw [List.length_append,List.length_singleton,List.range_succ,← numbered]
  · rw [asks.closes,closes_append,h.unclosed]
    rfl
  · rw [List.length_append,List.length_singleton] at beyond
    rw [asks.others f (Nat.ne_of_gt beyond),quiet,h.unasked f (Nat.le_of_succ_le beyond)]
  · rw [List.length_append,List.length_singleton] at inside
    rcases Nat.lt_or_eq_of_le (Nat.le_of_lt_succ inside) with earlier | rfl
    · obtain ⟨x,y,reported,rest⟩ := h.retained f earlier
      exact ⟨x,y,by rw [asks.others f (Nat.ne_of_lt earlier),quiet,reported],rest⟩
    · exact retained

theorem openComponent_wp (holding : Holding opts n out t) (parent : Parent) (name : Bytes) :
    wp (openComponent opts out.length (decide (out.length + 1 = n)) parent name) a t
      (fun r u => r.1 = out.length ∧ Holding opts n (out ++ [r.1]) u)
      (fun _ u => Owes out.reverse u) (fun _ => False) := by
  unfold openComponent
  rw [wp_bind,wp_mapError]
  refine checkContext_wp.ends (fun _ t' noted => ?_) (fun _ _ noted => (holding.noted noted).owes)
  have started := holding.noted noted
  rw [wp_bind,wp_mapError]
  refine (openNoFollow_wp parent name).ends ?_ (fun _ _ noted => (started.noted noted).owes)
  rintro f _ ⟨number,rfl⟩
  rw [started.opened] at number
  subst number
  have fresh : reports out.length (t' ++ [.opened parent name out.length]) = [] := by
    rw [reports_append,started.unasked _ (Nat.le_refl _)]
    rfl
  rw [wp_bind,wp_onError]
  refine (inspect_wp fresh).ends (fun info u inspected => ?_) (fun _ u asks => ?_)
  · exact ⟨rfl,started.extend inspected.1 inspected.2⟩
  · -- the new descriptor is closed before the chain is
    have opened : opens (u ++ [.closed out.length (a.close u out.length)]) = out ++ [out.length] := by
      rw [opens_append,asks.opens,opens_append,started.opened]
      simp [opens]
    have closed : closes (u ++ [.closed out.length (a.close u out.length)]) = [out.length] := by
      rw [closes_append,asks.closes,closes_append,started.unclosed]
      simp [closes]
    change Owes _ (u ++ [.closed out.length (a.close u out.length)])
    rw [Owes,opened,closed]
    refine ⟨?_,?_⟩
    · rw [started.numbered,List.length_range,← List.range_succ]
      exact List.nodup_range
    · rw [List.singleton_append]
      exact ((List.reverse_perm out).cons _).trans (List.perm_append_singleton _ _).symm

theorem nextParent_wp {i : Nat} :
    wp (nextParent i last parent f info) a t (fun _ u => u = t) (fun _ u => u = t) (fun _ => False) := by
  unfold nextParent
  split
  · rw [wp_bind]
    change wp (require (a.isDir t f = true) _ >>= _) a t _ _ _
    rw [wp_bind,wp_require]
    exact ⟨fun _ => rfl,fun _ => rfl⟩
  · rw [wp_bind,wp_require]
    exact ⟨fun _ => rfl,fun _ => rfl⟩

theorem resolveLoop_wp (comps : List Bytes) (parent : Parent) (holding : Holding opts n out t) :
    wp (resolveLoop opts n out.length parent out comps) a t
      (fun chain u => chain.length = out.length + comps.length ∧ Holding opts n chain u)
      (fun _ u => Released u) (fun _ => False) := by
  induction comps generalizing out t parent with
  | nil => exact ⟨rfl,holding⟩
  | cons name comps ih =>
    rw [resolveLoop,wp_bind,wp_onError]
    refine (openComponent_wp holding parent name).ends ?_ (fun _ u owes => closeAll_released owes)
    rintro ⟨f,info⟩ u ⟨here,extended⟩
    dsimp only at here extended ⊢
    rw [wp_bind,wp_onError]
    refine nextParent_wp.ends (fun next v same => ?_) (fun _ v same => ?_)
    · subst same
      have counted : (out ++ [f]).length = out.length + 1 := by simp
      rw [← counted]
      refine (ih next extended).imp (fun chain w done => ⟨?_,done.2⟩)
      rw [done.1,counted,List.length_cons]
      omega
    · subst same
      exact closeAll_released extended.owes

end loop

/-- A chain is retained only after two equal reports that the policy permits, with
nothing else opened and nothing closed; a failure has closed all that was opened. -/
theorem resolve_leak_free (nfc : NFCTables) (rootGiven : Bool) (comps : List Bytes) (opts : ResolveOpts)
    (profile : Profile) (a : Adversary) :
    wp (resolve nfc rootGiven comps opts profile) a []
      (fun chain t => chain.length = comps.length ∧ opens t = chain ∧ closes t = [] ∧
        ∀ i f, chain[i]? = some f → Retained opts (decide (i + 1 = comps.length)) f t)
      (fun _ t => Released t) (fun _ => False) := by
  have initial : Holding opts comps.length [] [] :=
    ⟨rfl,rfl,rfl,fun _ _ => rfl,fun _ none_ => absurd none_ (Nat.not_lt_zero _)⟩
  have idle : Released [] := ⟨List.nodup_nil,.nil⟩
  unfold resolve
  rw [wp_bind,wp_require]
  refine ⟨fun _ => ?_,fun _ => idle⟩
  rw [wp_bind,wp_mapError,wp_ofExcept]
  refine ⟨fun _ _ => ?_,fun _ _ => idle⟩
  rw [wp_bind,wp_mapError]
  refine askRoot_wp.ends (fun info t noted => ?_) (fun _ _ noted => (initial.noted noted).released)
  have started := initial.noted noted
  rw [wp_bind,wp_require]
  refine ⟨fun _ => ?_,fun _ => started.released⟩
  rw [wp_bind,wp_require]
  refine ⟨fun _ => ?_,fun _ => started.released⟩
  refine (resolveLoop_wp comps .root started).imp (fun chain t done => ?_)
  obtain ⟨length,holding⟩ := done
  refine ⟨by simpa using length,holding.opened,holding.unclosed,fun i f here => ?_⟩
  have inside : i < chain.length := (List.getElem?_eq_some_iff.mp here).1
  have number : f = i := by
    rw [holding.numbered,List.getElem?_range inside] at here
    exact (Option.some.inj here).symm
  subst number
  exact holding.retained f inside

/-- A file system that shows a directory and in it a file. -/
def steadyTree : Adversary where
  rootInfo _ := .ok ⟨.dir,2,1,3,0o755⟩
  cancelled _ := none
  openNoFollow _ _ _ := .ok ()
  info _ f := .ok (if f = 0 then ⟨.dir,5,1,2,0o755⟩ else ⟨.file,6,1,1,0o644⟩)
  isDir _ _ := true
  close _ _ := none

example : (resolve asciiTables true [ascii "d",ascii "f"] ⟨⟨1,[]⟩,false,false,.file⟩ {} steadyTree []).1 =
    .ok [0,1] := by decide +kernel

end Integris.Resolution
