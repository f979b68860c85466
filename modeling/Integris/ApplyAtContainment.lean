import Integris.ApplyAt
import Integris.ApplyContainment
import Integris.ScanOrder

/-! `ApplyWithAt` follows no link. Every call that changes the tree changes entries of
one real directory, and that directory is reached from the destination descriptor by
the components of the operation's own path, one open without following after the
other. The source stays as it is unless an operation leads into a source kept under
the destination's metadata directory. -/
namespace Integris.LocalSync.Openat

open Posix Prog PathGrammar Containment

/-- What an operation on the path `c` may change in the directory `q`: the next entry on
its way, or a temporary beside its target. -/
def Named (c q : Path) (n : Name) : Prop := q ++ [n] <+: c ∨ (c.dropLast = q ∧ isTempName n = true)

/-- One call for an operation on the path `c`: it changed entries of one real directory. -/
def Touch (dst c : Path) (fs fs' : FS) : Prop :=
  ∃ q, q <+: c ∧ fs.IsDir (dst ++ q) ∧
    ∀ p, fs'.node p ≠ fs.node p → ∃ n, p = dst ++ q ++ [n] ∧ Named c q n

/-- An operation's path, and a property of trees that its calls preserve. -/
structure Follows (dst p : Path) (n : Name) (I : FS → Prop) : Prop where
  plain : Plain (p ++ [n])
  step : ∀ fs fs', I fs → Touch dst (p ++ [n]) fs fs' → I fs'

section operation

variable {host : Host} {I : FS → Prop} {dst fd p q : Path} {m n : Name} {fs fs' : FS}

variable {v : Option Node} {w : World}

theorem touch_update {c : Path} (way : q <+: c) (named : Named c q m) (real : v ≠ none ∨ fs.node (dst ++ q ++ [m]) ≠ none)
    (changed : fs'.node = Function.update fs.node (dst ++ q ++ [m]) v) : Touch dst c fs fs' := by
  have same : fs'.node (dst ++ q) = fs.node (dst ++ q) := by rw [changed,Function.update_of_ne (by simp)]
  have dir : fs.IsDir (dst ++ q) := by
    rcases real with new | old
    · have there : fs'.IsDir (dst ++ q) := FS.parent_isDir (n := m) (by rw [changed,Function.update_self]; exact new)
      rwa [FS.IsDir,same] at there
    · exact FS.parent_isDir old
  refine ⟨q,way,dir,fun x differs => ⟨m,?_,named⟩⟩
  by_contra other
  exact differs (by rw [changed,Function.update_of_ne other])

theorem Follows.update (f : Follows dst p n I) (inv : I fs) (way : q <+: p ++ [n])
    (named : Named (p ++ [n]) q m) (real : v ≠ none ∨ fs.node (dst ++ q ++ [m]) ≠ none)
    (changed : fs'.node = Function.update fs.node (dst ++ q ++ [m]) v) : I fs' :=
  f.step fs fs' inv (touch_update way named real changed)

theorem named_temp (temp : isTempName m = true) : Named (p ++ [n]) p m := .inr ⟨List.dropLast_concat,temp⟩

/-! Going down. -/

section

variable (plain : Plain (p ++ [n]))
include plain

theorem nested_relText : Nested (relText (p ++ [n])) ↔ p ≠ [] := by
  have front : Lexical p := (plain_append.mp plain).1.lexical
  rw [Nested,dir_relText plain.lexical]
  by_cases top : p = []
  · simp [top]
  · rw [if_neg top]
    exact ⟨fun _ => top,fun _ => ⟨relText_ne_dot front,relText_ne_nil front top⟩⟩

theorem yields_openParent : Yields host (fun w => I w.fs) (openParent fd (relText (p ++ [n]))) (· = fd ++ p) := by
  have front : Plain p := (plain_append.mp plain).1
  unfold openParent
  by_cases top : p = []
  · rw [if_neg (fun h => (nested_relText plain).mp h top),top]
    exact Yields.pure (List.append_nil fd).symm
  · rw [if_pos ((nested_relText plain).mpr top),dir_relText plain.lexical,if_neg top]
    refine yields_dup.bind ?_
    rintro _ rfl
    rw [if_neg (not_or.mpr ⟨relText_ne_nil front.lexical top,relText_ne_dot front.lexical⟩),
      splitOn_relText front.lexical top]
    exact yields_stepInto_plain front

theorem yields_openatRead : Yields host (fun w => I w.fs) (openatRead fd (relText (p ++ [n]))) (· = fd ++ p ++ [n]) := by
  refine (yields_openParent plain).bind ?_
  rintro _ rfl
  rw [base_relText plain.lexical]
  exact yields_openat (plain n (by simp)).segment rfl rfl rfl 0

theorem keeps_hashAt (wrapping : Errno → Error) : Keeps host (fun w => I w.fs) (hashAt wrapping fd (relText (p ++ [n]))) :=
  (yields_openatRead plain).keeps.mapError.bind fun f => keeps_hashOpenedFile f

end

theorem keeps_verifiedAt (valid : ValidName m) (rel : Bytes) (want : Digest) (message : String) :
    Keeps host (fun w => I w.fs) (verifiedAt fd m rel want message) :=
  ((yields_openat valid.segment rfl rfl rfl 0).keeps.mapError.bind fun f => keeps_hashOpenedFile f).bind fun _ =>
    Keeps.require _

/-! Making directories. -/

theorem Follows.keeps_mkdiratOne (f : Follows dst p n I) (way : q ++ [m] <+: p ++ [n]) (perm : Nat) :
    Keeps host (fun w => I w.fs) (mkdiratOne (dst ++ q) m perm) := by
  have valid : ValidName m := f.plain m (way.subset (by simp))
  have made : Keeps host (fun w => I w.fs) (Unix.mkdirat (dst ++ q) m perm) := by
    refine keeps_sys fun fs _ fs' inv run => ?_
    obtain ⟨d,k,where_,-,changed⟩ := FS.mkdirat_ok run
    cases place_name valid.segment where_
    exact f.update inv ((List.prefix_append _ _).trans way) (.inl way) (.inl (Option.some_ne_none _)) changed
  refine made.attempt.bind fun r => ?_
  cases r with
  | ok _ => exact Keeps.pure _
  | error e => exact Keeps.require _

theorem Follows.yields_makeInto (f : Follows dst p n I) (wrapping : Errno → Error) (perm : Nat) {rest : Path}
    (way : q ++ rest <+: p ++ [n]) :
    Yields host (fun w => I w.fs) (makeInto wrapping perm (dst ++ q) rest) fun _ => True := by
  induction rest generalizing q with
  | nil => exact Yields.pure trivial
  | cons m rest ih =>
    have valid : ValidName m := f.plain m (way.subset (by simp))
    have next : q ++ [m] <+: p ++ [n] := List.IsPrefix.trans ⟨rest,by simp⟩ way
    rw [makeInto,if_neg (not_or.mpr ⟨valid.1,valid.2.1⟩)]
    refine (Keeps.require _).yields.bind fun _ _ => ?_
    refine (f.keeps_mkdiratOne next perm).mapError.yields.bind fun _ _ => ?_
    refine (yields_openDirectory valid.segment).mapError.bind ?_
    rintro _ rfl
    rw [List.append_assoc]
    exact ih (by simpa using way)

theorem Follows.keeps_mkdiratAll (f : Follows dst p n I) (wrapping : Errno → Error) (perm : Nat) (more : q ≠ [])
    (way : q <+: p ++ [n]) : Keeps host (fun w => I w.fs) (mkdiratAll wrapping dst (relText q) perm) := by
  have lexical : Lexical q := fun m hm => f.plain.lexical m (way.subset hm)
  refine yields_dup.mapError.bindKeeps fun cur here => ?_
  rw [here,if_neg (not_or.mpr ⟨relText_ne_nil lexical more,relText_ne_dot lexical⟩),splitOn_relText lexical more]
  have made : Yields host (fun w => I w.fs) (makeInto wrapping perm (dst ++ []) q) fun _ => True :=
    f.yields_makeInto wrapping perm way
  rw [List.append_nil] at made
  exact made.keeps

/-! The temporary. -/

theorem Follows.keeps_unlinkTemp (f : Follows dst p n I) (valid : ValidName m) (temp : isTempName m = true) :
    Keeps host (fun w => I w.fs) (Unix.unlinkat (dst ++ p) m) := by
  refine keeps_sys fun fs _ fs' inv run => ?_
  obtain ⟨d,k,x,where_,there,-,changed⟩ := FS.unlinkat_ok run
  cases place_name valid.segment where_
  exact f.update inv (List.prefix_append _ _) (named_temp temp) (.inr (by rw [there]; simp)) changed

theorem Follows.keeps_removeTempsAt (f : Follows dst p n I) {names : List Name}
    (valid : ∀ m ∈ names, ValidName m) : Keeps host (fun w => I w.fs) (removeTempsAt (dst ++ p) names) := by
  induction names with
  | nil => exact Keeps.pure _
  | cons m names ih =>
    refine Keeps.bind ?_ fun _ => ih fun k hk => valid k (List.mem_cons_of_mem _ hk)
    intro w inv
    rw [wp_when]
    exact ⟨fun temp => (f.keeps_unlinkTemp (valid m List.mem_cons_self) temp).ignore w inv,fun _ => inv⟩

theorem yields_readDirNamesAt : Yields host (fun w => I w.fs) (readDirNamesAt fd) fun names =>
    ∀ m ∈ names, ValidName m := by
  refine yields_dup.bind fun copy same w inv => ?_
  subst same
  refine wp_query_kept inv fun names found => ⟨inv,fun m hm => ?_⟩
  rcases listed : w.fs.readDir copy with e | entries
  · simp [listed,Except.map] at found
  · simp only [listed,Except.map,Except.ok.injEq] at found
    rw [← found,(readDir_names listed).1] at hm
    exact w.fs.named copy m (FS.mem_children.mp hm)

theorem Follows.keeps_cleanupTempsAt (f : Follows dst p n I) : Keeps host (fun w => I w.fs) (cleanupTempsAt (dst ++ p)) :=
  yields_readDirNamesAt.bindKeeps fun _ valid => f.keeps_removeTempsAt valid

/-- The temporary is a regular file. -/
def Staged (I : FS → Prop) (t : Path) (fs : FS) : Prop := I fs ∧ ∃ mode data, fs.node t = some (.file mode data)

theorem Staged.plain {t : Path} (h : Staged I t fs) : ¬fs.IsLink t := by
  obtain ⟨-,mode,data,at_⟩ := h
  simp [FS.IsLink,at_,Node.isLink]

theorem Follows.restage (f : Follows dst p n I) (temp : isTempName m = true) (h : Staged I (dst ++ p ++ [m]) fs)
    {mode : Nat} {data : Bytes}
    (changed : fs'.node = Function.update fs.node (dst ++ p ++ [m]) (some (.file mode data))) :
    Staged I (dst ++ p ++ [m]) fs' :=
  ⟨f.update h.1 (List.prefix_append _ _) (named_temp temp) (.inl (Option.some_ne_none _)) changed,mode,data,
    by rw [changed,Function.update_self]⟩

theorem Follows.createTempAt_wp (f : Follows dst p n I) (inv : I w.fs) : wp (createTempAt (dst ++ p)) host w
      (fun m w' => ValidName m ∧ isTempName m = true ∧ Staged I (dst ++ p ++ [m]) w'.fs)
      (fun _ w' => I w'.fs) (fun w' => I w'.fs) := by
  unfold createTempAt
  rw [wp_bind]
  refine (keeps_random 16 w inv).imp ?_
  intro b w₁ inv₁
  have valid := tempName_valid b
  have temp := isTempName_tempName b
  rw [wp_bind]
  refine wp_sys_kept inv₁ ?_
  intro x fs run
  have staged : Staged I (dst ++ p ++ [tempName b]) fs := by
    rcases FS.openat_ok run with ⟨d,k,-,where_,rfl,-,changed⟩ | ⟨_,-,exclusive,-⟩
    · cases place_name valid.segment where_
      exact ⟨f.update inv₁ (List.prefix_append _ _) (named_temp temp) (.inl (Option.some_ne_none _)) changed,_,_,
        by rw [changed,Function.update_self]⟩
    · cases exclusive
  have kept : Keeps host (fun w => Staged I (dst ++ p ++ [tempName b]) w.fs)
      (ignore (close x) : Os Unit) := (keeps_query _).ignore
  rw [wp_bind]
  exact (kept _ staged).stops (fun _ _ h => ⟨valid,temp,h⟩) fun _ h => h.1

section

variable (f : Follows dst p n I) (valid : ValidName m) (temp : isTempName m = true)
include f valid temp

theorem Follows.keeps_fillTempAt (src : Path) : Keeps host (fun w => Staged I (dst ++ p ++ [m]) w.fs)
      (fillTempAt src (dst ++ p) m (relText (p ++ [n]))) := by
  refine (yields_openatRead f.plain).keeps.mapError.bind fun s => ?_
  intro w inv
  rw [wp_bind,wp_mapError]
  refine wp_sys_kept inv ?_
  intro x fs run
  obtain ⟨rfl,inv₁⟩ : x = dst ++ p ++ [m] ∧ Staged I (dst ++ p ++ [m]) fs := by
    rcases FS.openat_ok run with ⟨_,_,create,-⟩ | ⟨y,-,-,effect,⟨create,-⟩ | ⟨-,where_⟩⟩
    · cases create
    · cases create
    · have here := locate_name valid.segment where_
      subst here
      refine ⟨rfl,?_⟩
      rcases effect with same | ⟨-,mode,data,-,changed⟩
      · rw [same]; exact inv
      · exact f.restage temp inv changed
  exact keeps_copyInto (fun staged changed => f.restage temp staged changed) s _ _ inv₁

/-- `Fchmodat` would follow a link; the temporary is none. -/
theorem Follows.keeps_chmodTemp
    (mode : Nat) : Keeps host (fun w => Staged I (dst ++ p ++ [m]) w.fs) (Unix.fchmodat (dst ++ p) m mode) := by
  refine keeps_sys fun fs _ fs' inv run => ?_
  obtain ⟨x,y,where_,changed⟩ := FS.fchmodat_ok run
  have here := locate_segment valid.segment where_ fun _ => inv.plain
  subst here
  have ⟨_,old,data,at_⟩ := inv
  have kind := FS.locate_ok where_
  rw [at_] at kind
  cases kind
  exact f.restage temp inv changed

theorem Follows.rename_wp (inv : Staged I (dst ++ p ++ [m]) w.fs) : wp (Unix.renameat (dst ++ p) m (dst ++ p) n) host w
      (fun _ w' => I w'.fs) (fun _ w' => I w'.fs) (fun w' => I w'.fs) := by
  refine wp_sys_kept inv.1 ?_
  intro _ fs run
  obtain ⟨d,k,d',k',x,old,new,at_,effect⟩ := FS.renameat_ok run
  have own : ValidName n := f.plain n (by simp)
  cases place_name valid.segment old
  cases place_name own.segment new
  rcases effect with ⟨same,-⟩ | ⟨-,movable,changed⟩
  · rw [World.next_fs,same]; exact inv.1
  · obtain ⟨unstaged,mode,data,file⟩ := inv
    rw [at_] at file
    cases file
    have leaf : w.fs.children (dst ++ p ++ [m]) = [] := FS.childless_of_not_dir (by rw [FS.IsDir,at_]; simp [Node.isDir])
    rw [FS.moved_leaf leaf movable.2.2.1] at changed
    have dir : w.fs.IsDir (dst ++ p) := FS.parent_isDir (by rw [at_]; simp)
    refine f.step w.fs fs unstaged ⟨p,List.prefix_append _ _,dir,fun x differs => ?_⟩
    by_cases target : x = dst ++ p ++ [n]
    · exact ⟨n,target,.inl (List.prefix_refl _)⟩
    · refine ⟨m,?_,named_temp temp⟩
      by_contra other
      exact differs (by rw [changed,Function.update_of_ne target,Function.update_of_ne other])

end

variable {op : Op}

theorem Follows.publishAt_wp (f : Follows dst p n I) (valid : ValidName m) (temp : isTempName m = true)
    (src : Path) (rel : op.rel = relText (p ++ [n])) (want : Digest)
    (inv : Staged I (dst ++ p ++ [m]) w.fs) :
    wp (publishAt src (dst ++ p) m op want) host w (fun _ w' => I w'.fs) (fun _ w' => I w'.fs) (fun w' => I w'.fs) := by
  unfold publishAt
  rw [rel,base_relText f.plain.lexical,wp_bind]
  refine (f.keeps_fillTempAt valid temp src w inv).stops ?_ fun _ h => h.1
  intro _ w₁ inv₁
  rw [wp_bind]
  refine (keeps_verifiedAt valid _ _ _ w₁ inv₁).stops ?_ fun _ h => h.1
  intro _ w₂ inv₂
  rw [wp_bind,wp_mapError]
  refine (f.keeps_chmodTemp valid temp _ w₂ inv₂).stops ?_ fun _ h => h.1
  intro _ w₃ inv₃
  rw [wp_bind,wp_mapError]
  exact (f.rename_wp valid temp inv₃).imp (fun _ _ h => h)

/-! The operations. -/

theorem Follows.keeps_applyFileAt (f : Follows dst p n I) (src : Path)
    (rel : op.rel = relText (p ++ [n])) : Keeps host (fun w => I w.fs) (applyFileAt src dst op) := by
  have parents : Keeps host (fun w => I w.fs) (when (Nested op.rel) (do
      let _ ← mkdiratAll (mapWriteErr "apply" op.rel) dst (dir op.rel) 0o755
      pure ())) := by
    intro w inv
    rw [wp_when]
    refine ⟨fun nested => ?_,fun _ => inv⟩
    rw [rel] at nested
    have more := (nested_relText f.plain).mp nested
    have folder : dir op.rel = relText p := by rw [rel,dir_relText f.plain.lexical,if_neg more]
    rw [folder]
    exact ((f.keeps_mkdiratAll _ _ more (List.prefix_append _ _)).bind fun _ => Keeps.pure _) w inv
  refine Keeps.ofExcept_bind fun want _ => ?_
  refine Keeps.bind (by rw [rel]; exact keeps_hashAt f.plain _) fun _ => (Keeps.require _).bind fun _ =>
    parents.bind fun _ => ((keeps_query _).attempt.bind fun _ => keeps_acceptTarget _ _).bind fun _ => ?_
  refine Yields.bindKeeps (R := (· = dst ++ p)) (Yields.mapError (by rw [rel]; exact yields_openParent f.plain)) ?_
  rintro _ rfl
  refine f.keeps_cleanupTempsAt.ignore.bind fun _ => ?_
  intro w inv
  rw [wp_bind,wp_mapError]
  refine (f.createTempAt_wp inv).imp ?_
  rintro m w₁ ⟨valid,temp,staged⟩
  rw [wp_bind,wp_onError]
  refine (f.publishAt_wp valid temp src rel want staged).ends ?_ ?_
  · intro written w₂ inv₂
    rw [rel,base_relText f.plain.lexical]
    exact ((keeps_query _).ignore.bind fun _ => (keeps_verifiedAt (f.plain n (by simp)) _ _ _).bind fun _ =>
      Keeps.pure written) w₂ inv₂
  · intro e w₂ inv₂
    exact f.keeps_unlinkTemp valid temp w₂ inv₂

theorem Follows.keeps_applyMkdirAt (f : Follows dst p n I) (rel : op.rel = relText (p ++ [n])) :
    Keeps host (fun w => I w.fs) (applyMkdirAt dst op) := by
  have synced : Keeps host (fun w => I w.fs) (syncParent dst (relText (p ++ [n]))) :=
    (yields_openParent f.plain).keeps.bind fun _ => keeps_query _
  refine (keeps_query _).attempt.bind fun r => ?_
  cases r with
  | ok x => exact (Keeps.require _).bind fun _ => Keeps.require _
  | error e =>
    refine (Keeps.require _).bind fun _ => ?_
    rw [rel]
    exact (f.keeps_mkdiratAll _ _ (by simp) (List.prefix_refl _)).bind fun _ => synced.ignore

end operation

section runs

variable {nfc : NFCTables} {host : Host} {I : FS → Prop} {dst src : Path}

/-- One call of a run over these operations. -/
def TouchAny (dst : Path) (ops : List Op) (fs fs' : FS) : Prop :=
  ∃ op ∈ ops, op.action ≠ .skip ∧ Touch dst (op.rel.splitOn slash) fs fs'

theorem keeps_applyOpAt (ok : validateRel nfc op.rel = .ok ())
    (step : op.action ≠ .skip → ∀ fs fs', I fs → Touch dst (op.rel.splitOn slash) fs fs' → I fs')
    (src : Path) (out : ApplyResult) : Keeps host (fun w => I w.fs) (applyOpAt src dst op out) := by
  obtain ⟨c,good⟩ := validateRel_ok ok
  obtain ⟨p,n,rfl⟩ := (List.eq_nil_or_concat' c).resolve_left good.nonempty
  have follows (acts : op.action ≠ .skip) : Follows dst p n I := ⟨good.plain,by rw [← good.split]; exact step acts⟩
  exact keeps_performOp (fun acts => ⟨(follows acts).keeps_applyMkdirAt good.text,
    (follows acts).keeps_applyFileAt src good.text⟩) _ _

theorem keeps_applyWithAt {σ : Type} {plan : Plan} {opts : ApplyOptions σ}
    (step : ∀ fs fs', I fs → TouchAny dst (plan.ops.drop opts.startAt.toNat) fs fs' → I fs')
    (callback : ∀ i op bytes s, Keeps host (fun w => I w.fs) (opts.onOpComplete i op bytes s)) (src : Path)
    (roots : Roots) (s : σ) :
    Keeps host (fun w => I w.fs) (applyWithAt nfc (some src) (some dst) roots plan opts s) :=
  (keeps_checkPlan _ _ _ _).bind fun _ => keeps_runOps (fun op member ok => keeps_applyOpAt ok (fun acts fs fs' inv touched =>
    step fs fs' inv ⟨op,member,acts,touched⟩) src) callback _ _ _

/-- Where the two directories lie: the destination is not inside the source, and a source
inside the destination is under its metadata directory. -/
structure Separate (dst src : Path) : Prop where
  apart : ¬src <+: dst
  nested : dst <+: src → dst ++ [metaDirName] <+: src

/-- An operation on no metadata leaves a separate source alone. -/
theorem Touch.source {c : Path} {fs fs' : FS} (touched : Touch dst c fs fs') (separate : Separate dst src)
    (content : dst <+: src → c.head? ≠ some metaDirName) {x : Path} (inside : src <+: x) :
    fs'.node x = fs.node x := by
  obtain ⟨q,way,-,only⟩ := touched
  by_contra differs
  obtain ⟨n,rfl,named⟩ := only x differs
  rw [List.append_assoc] at inside
  rcases List.prefix_or_prefix_of_prefix inside (List.prefix_append dst (q ++ [n])) with up | down
  · exact separate.apart up
  · obtain ⟨rest,same⟩ := (separate.nested down).trans inside
    rw [List.append_assoc,List.append_cancel_left_eq,List.singleton_append] at same
    -- the touched entry is the metadata directory or below it, and so is the operation's path
    refine content down ?_
    cases q with
    | cons k q =>
      obtain ⟨rfl,-⟩ := List.cons.inj same
      obtain ⟨r,rfl⟩ := way
      rfl
    | nil =>
      obtain ⟨rfl,-⟩ := List.cons.inj same
      rcases named with next | ⟨-,temp⟩
      · obtain ⟨r,rfl⟩ := next
        rfl
      · exact absurd temp (by decide)

end runs

/-- For every plan, start index and tree, however the run ends: the tree was changed only by
calls on entries of real directories, each reached from the destination descriptor along the
operation's own path; and the source tree is unchanged, if no operation leads into a source
kept under the metadata directory. -/
theorem applyAt_follows_no_link {σ : Type} (nfc : NFCTables) (host : Host) (w : World) (src dst : Path)
    (roots : Roots) (plan : Plan) (opts : ApplyOptions σ) (s : σ)
    (callback : ∀ (I : FS → Prop) i op bytes s, Keeps host (fun w => I w.fs) (opts.onOpComplete i op bytes s))
    (separate : Separate dst src)
    (content : dst <+: src → ∀ op ∈ plan.ops.drop opts.startAt.toNat, op.action ≠ .skip →
      (op.rel.splitOn slash).head? ≠ some metaDirName) :
    Relation.ReflTransGen (TouchAny dst (plan.ops.drop opts.startAt.toNat)) w.fs
      (applyWithAt nfc (some src) (some dst) roots plan opts s host w).2.fs ∧
    ∀ p, src <+: p → (applyWithAt nfc (some src) (some dst) roots plan opts s host w).2.fs.node p = w.fs.node p := by
  have traced : Keeps host (fun w' =>
      Relation.ReflTransGen (TouchAny dst (plan.ops.drop opts.startAt.toNat)) w.fs w'.fs)
      (applyWithAt nfc (some src) (some dst) roots plan opts s) :=
    keeps_applyWithAt (fun _ _ run one => run.tail one) (callback _) src roots s
  have source : Keeps host (fun w' => ∀ p, src <+: p → w'.fs.node p = w.fs.node p)
      (applyWithAt nfc (some src) (some dst) roots plan opts s) := by
    have step : ∀ fs fs', (∀ p, src <+: p → fs.node p = w.fs.node p) →
        TouchAny dst (plan.ops.drop opts.startAt.toNat) fs fs' → ∀ p, src <+: p → fs'.node p = w.fs.node p := by
      rintro fs fs' same ⟨op,member,acts,one⟩ p inside
      rw [one.source separate (fun down => content down op member acts) inside,same p inside]
    exact keeps_applyWithAt step (callback fun fs => ∀ p, src <+: p → fs.node p = w.fs.node p) src roots s
  exact ⟨(traced w .refl).reached,(source w fun _ _ => rfl).reached⟩

/-- A link lies in the destination, in the way of the operation, which is refused. -/
theorem applyAt_follows_no_link_sample : ∃ w : World,
    w.fs.node [ascii "d",ascii "l"] = some (.link (ascii "/out")) ∧
    (applyWithAt asciiTables (some [ascii "s"]) (some [ascii "d"]) ⟨ascii "/s",ascii "/d"⟩ onlyCopy noCallback ()
      quietHost w).2.fs.node [ascii "s",ascii "l",ascii "f"] = some (.file 0o644 (ascii "x")) := by
  obtain ⟨w,link,file⟩ : ∃ w : World, w.fs.node [ascii "d",ascii "l"] = some (.link (ascii "/out")) ∧
      w.fs.node [ascii "s",ascii "l",ascii "f"] = some (.file 0o644 (ascii "x")) :=
    ⟨twoTrees [([ascii "d",ascii "l"],.link (ascii "/out"))],by decide +kernel⟩
  have separate : Separate [ascii "d"] [ascii "s"] := ⟨by decide,by decide⟩
  have content : [ascii "d"] <+: [ascii "s"] → ∀ op ∈ onlyCopy.ops.drop noCallback.startAt.toNat,
      op.action ≠ .skip → (op.rel.splitOn slash).head? ≠ some metaDirName := fun inside => absurd inside (by decide)
  exact ⟨w,link,((applyAt_follows_no_link asciiTables quietHost w [ascii "s"] [ascii "d"] ⟨ascii "/s",ascii "/d"⟩
    onlyCopy noCallback () (fun _ _ _ _ _ => Keeps.pure _) separate content).2 _ (by decide)).trans file⟩

def makeOp (relPath : String) : Op where
  action := .mkdir
  rel := ascii relPath
  reason := .missing
  expectedMode := 0o755
  initial := ascii "absent"
  final := ascii "directory"

/-- A source under the destination's metadata directory, and an operation that leads there. -/
def stagedSource : World :=
  ⟨FS.build [([ascii "d"],.dir 0o755),([ascii "d",metaDirName],.dir 0o700),
    ([ascii "d",metaDirName,ascii "s"],.dir 0o700)],0⟩

theorem source_changed : Separate [ascii "d"] [ascii "d",metaDirName,ascii "s"] ∧
    stagedSource.fs.node [ascii "d",metaDirName,ascii "s",ascii "n"] = none ∧
    (applyWithAt asciiTables (some [ascii "d",metaDirName,ascii "s"]) (some [ascii "d"])
      ⟨ascii "/d/.integris/s",ascii "/d"⟩ ⟨[],[],[makeOp ".integris/s/n"]⟩ noCallback () quietHost
      stagedSource).2.fs.node [ascii "d",metaDirName,ascii "s",ascii "n"] = some (.dir 0o755) :=
  ⟨⟨by decide,by decide⟩,by decide +kernel⟩

end Integris.LocalSync.Openat
