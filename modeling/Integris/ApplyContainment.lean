import Integris.Apply
import Integris.Confinement

/-! Containment of `ApplyWith`. Lexically every operation stays below the
destination root; the kernel may still follow a link on the way. As long as no
directory above a target is a link, and no target leads into a source kept under
the destination's metadata directory, nothing outside the destination tree and
nothing in the source tree changes, whatever the host does to the calls. -/
namespace Integris.LocalSync.Containment

open Posix Prog PathGrammar

variable {I : FS → Prop} {host : Host}

theorem keeps_verified (native rel : Bytes) (want : Digest)
    (message : String) : Keeps host (fun w => I w.fs) (verified native rel want message) :=
  (keeps_hashFile native).bind fun _ => Keeps.require _

theorem keeps_performOp {I : World → Prop} {make : LS Unit} {copy : LS Nat} {op : Op}
    (keeps : op.action ≠ .skip → Keeps host I make ∧ Keeps host I copy) (mode : String) (out : ApplyResult) :
    Keeps host I (performOp mode make copy op out) := by
  unfold performOp
  split
  · exact Keeps.pure _
  · next acts => exact (keeps (by simp [acts])).1.bind fun _ => Keeps.pure _
  · next acts => exact (keeps (by simp [acts])).2.bind fun _ => Keeps.pure _
  · next acts => exact (keeps (by simp [acts])).2.bind fun _ => Keeps.pure _
  · exact Keeps.throw _

/-- The whole loop, over any list of operations that keep the invariant one by one. -/
theorem keeps_runOps {σ : Type} {nfc : NFCTables} {I : World → Prop} {ops : List Op} {act : Op → ApplyResult → LS ApplyResult}
    (keeps : ∀ op ∈ ops, validateRel nfc op.rel = .ok () → ∀ out, Keeps host I (act op out))
    {onOp : Nat → Op → UInt64 → σ → LS σ} (callback : ∀ i op bytes s, Keeps host I (onOp i op bytes s))
    (i : Nat) (out : ApplyResult) (s : σ) : Keeps host I (runOps nfc act onOp i ops out s) := by
  induction ops generalizing i out s with
  | nil => exact Keeps.pure _
  | cons op ops ih =>
    exact Keeps.ofExcept_bind fun _ ok => (keeps op List.mem_cons_self ok out).bind fun _ =>
      (callback _ _ _ _).bind fun _ => ih (fun x hx => keeps x (List.mem_cons_of_mem _ hx)) _ _ _

theorem keeps_checkPlan {I : World → Prop} (mode : String) (roots : Roots) (plan : Plan) (startAt : Int) :
    Keeps host I (checkPlan mode roots plan startAt) :=
  (Keeps.require _).bind fun _ => (Keeps.require _).bind fun _ => Keeps.require _

theorem keeps_acceptTarget (op : Op) (found : Except Errno Node) : Keeps host (fun w => I w.fs) (acceptTarget op found) := by
  cases found with
  | ok x => exact (Keeps.require _).bind fun _ => Keeps.require _
  | error e => exact Keeps.require _

/-- A copy rewrites one file. -/
theorem keeps_copyInto {p : Path} (rewrites : ∀ {fs fs' : FS} {mode : Nat} {data : Bytes}, I fs →
    fs'.node = Function.update fs.node p (some (.file mode data)) → I fs') (src : Path) (rel : Bytes) :
    Keeps host (fun w => I w.fs) (copyInto src p rel) := by
  have copies : Keeps host (fun w => I w.fs) (copyAll src p) := by
    refine (keeps_query _).bind fun data => (keeps_pwrite ?_).bind fun _ => Keeps.pure _
    intro fs new fs' inv ran
    obtain ⟨mode,old,-,changed⟩ := FS.pwrite_ok ran
    exact rewrites inv changed
  exact copies.attempt.bind fun _ => (keeps_query _).attempt.bind fun _ =>
    (keeps_query _).attempt.bind fun _ => (Keeps.ofExcept _).mapError.bind fun _ =>
    (Keeps.ofExcept _).mapError.bind fun _ => (Keeps.ofExcept _).mapError.bind fun _ => Keeps.pure _

theorem mem_hexOf {b : Bytes} {c : UInt8} (h : c ∈ hexOf b) : ∃ n, n < 16 ∧ c = hexDigit n := by
  obtain ⟨x,-,hc⟩ := List.mem_flatMap.mp h
  have small : x.toNat < 256 := x.toNat_lt
  simp only [List.mem_cons,List.not_mem_nil,or_false] at hc
  rcases hc with rfl | rfl
  · exact ⟨_,by omega,rfl⟩
  · exact ⟨_,by omega,rfl⟩

theorem hexDigit_plain : ∀ n : Fin 16, hexDigit n.val ≠ slash ∧ hexDigit n.val ≠ 0 := by decide

theorem tempName_valid (b : Fixed 16) : ValidName (tempName b) := by
  have hex : ∀ c ∈ hexOf b.val, c ≠ slash ∧ c ≠ 0 := by
    intro c hc
    obtain ⟨n,small,rfl⟩ := mem_hexOf hc
    exact hexDigit_plain ⟨n,small⟩
  have fore : ∀ c ∈ tmpPrefix, c ≠ slash ∧ c ≠ 0 := by decide +kernel
  have aft : ∀ c ∈ tmpSuffix, c ≠ slash ∧ c ≠ 0 := by decide +kernel
  have all : ∀ c ∈ tempName b, c ≠ slash ∧ c ≠ 0 := by
    intro c hc
    simp only [tempName,List.mem_append] at hc
    rcases hc with (hc | hc) | hc
    · exact fore c hc
    · exact hex c hc
    · exact aft c hc
  have long : 3 ≤ (tempName b).length := by simp [tempName,tmpPrefix,ascii]
  refine ⟨?_,?_,?_,fun h => (all _ h).1 rfl,fun h => (all _ h).2 rfl⟩ <;>
    (intro h; rw [h] at long; simp [dot,dotdot] at long)

theorem isTempName_tempName (b : Fixed 16) : isTempName (tempName b) = true := by
  simp only [isTempName,tempName,Bool.and_eq_true,List.isPrefixOf_iff_prefix,List.isSuffixOf_iff_suffix]
  exact ⟨⟨hexOf b.val ++ tmpSuffix,by simp⟩,⟨tmpPrefix ++ hexOf b.val,rfl⟩⟩

section containment

variable {nfc : NFCTables} {host : Host} {before : FS} {a dst src : Path}

/-- The part of the destination tree that is not the source's. -/
def Area (dst src p : Path) : Prop := FS.Below dst p ∧ ¬ src <+: p

/-- Where the two trees lie: the destination's text keeps leading to it, it is not
inside the source, and a source inside it is under its metadata directory. -/
structure Setting (before : FS) (a dst src : Path) : Prop where
  plain : Plain a
  anchored : before.Anchored (FS.Below dst) a dst
  apart : ¬ src <+: dst
  nested : dst <+: src → dst ++ [metaDirName] <+: src

/-- The condition on one operation. -/
def Safe (before : FS) (dst src : Path) (op : Op) : Prop :=
  op.action = .skip ∨
    (∀ q, q <+: (op.rel.splitOn slash).dropLast → ¬ before.IsLink (dst ++ q)) ∧
    (dst <+: src → (op.rel.splitOn slash).head? ≠ some metaDirName)

variable {fs : FS} {w : World} {op : Op}

theorem Setting.leads (site : Setting before a dst src) (conf : Confined before (Area dst src) fs) : fs.Leads a dst :=
  site.anchored.leads conf fun _ h => h.1

theorem Setting.area (site : Setting before a dst src) {x : Path} (more : x ≠ [])
    (first : dst <+: src → x.head? ≠ some metaDirName) : Area dst src (dst ++ x) := by
  refine ⟨FS.below_append more,fun inside => ?_⟩
  rcases List.prefix_or_prefix_of_prefix inside (List.prefix_append dst x) with up | down
  · exact site.apart up
  · obtain ⟨rest,same⟩ := (site.nested down).trans inside
    rw [List.append_assoc,List.append_cancel_left_eq] at same
    exact first down (by rw [← same]; rfl)

/-- The paths one file operation works on: its directory `p`, its own name `n`. -/
structure Target (before : FS) (dst src p : Path) (n : Name) : Prop where
  plain : Plain (p ++ [n])
  clear : ∀ q, q <+: p → ¬ before.IsLink (dst ++ q)
  first : dst <+: src → (p ++ [n]).head? ≠ some metaDirName

variable {p : Path} {n : Name}

theorem Target.sibling (target : Target before dst src p n) {m : Name} (valid : ValidName m)
    (temp : isTempName m = true) : Target before dst src p m where
  plain := by
    have := target.plain
    simp only [plain_append,plain_cons,plain_nil,and_true] at this ⊢
    exact ⟨this.1,valid⟩
  clear := target.clear
  first nested := by
    have own := target.first nested
    cases p with
    | nil =>
      rintro ⟨⟩
      revert temp
      decide
    | cons c p => simpa using own

section

variable (site : Setting before a dst src) (target : Target before dst src p n)
include site target

theorem Target.inside {q : Path} (le : q <+: p ++ [n]) (more : q ≠ []) : Area dst src (dst ++ q) := by
  refine site.area more fun nested => ?_
  have own := target.first nested
  obtain ⟨r,same⟩ := le
  rw [← same] at own
  cases q with
  | nil => exact absurd rfl more
  | cons c q => simpa using own

theorem Target.area : Area dst src (dst ++ p ++ [n]) := by
  rw [List.append_assoc]
  exact target.inside site (List.prefix_refl _) (by simp)

theorem Target.names (conf : Confined before (Area dst src) fs) :
    Names host.cwd (Area dst src) (absText (a ++ (p ++ [n]))) fs :=
  names_below (site.leads conf) site.plain target.plain.lexical
    (fun q le link => target.clear q le (conf.links _ link)) (target.area site)

theorem Target.above (perm : Nat) : Keeps host (Intact before (Area dst src)) (mkdirAll (absText (a ++ p)) perm) := by
  exact keeps_mkdirAll perm site.plain (plain_append.mp target.plain).1.lexical
    (fun fs conf => site.leads conf) (fun q le => target.clear q (le.trans (List.dropLast_prefix p)))
    (fun q le more => target.inside site (le.trans (List.prefix_append _ _)) more)
    (List.prefix_refl _)

theorem keeps_removeTemps {names : List Name} (valid : ∀ m ∈ names, ValidName m) :
    Keeps host (Intact before (Area dst src)) (removeTemps (absText (a ++ p)) names) := by
  induction names with
  | nil => exact Keeps.pure _
  | cons m names ih =>
    have plain : Plain (a ++ p) := plain_append.mpr ⟨site.plain,(plain_append.mp target.plain).1⟩
    refine Keeps.bind ?_ fun _ => ih fun x hx => valid x (List.mem_cons_of_mem _ hx)
    intro w inv
    rw [wp_when]
    refine ⟨fun temp => ?_,fun _ => inv⟩
    have own := target.sibling (valid m List.mem_cons_self) temp
    rw [join_name plain.lexical (valid m List.mem_cons_self).segment,List.append_assoc]
    exact (keeps_remove fun fs conf => own.names site conf).ignore w inv

theorem keeps_cleanupTemps : Keeps host (Intact before (Area dst src)) (cleanupTemps (absText (a ++ p))) := by
  intro w inv
  unfold cleanupTemps
  rw [wp_bind]
  refine wp_query_kept inv ?_
  intro entries found
  refine keeps_removeTemps site target ?_ _ inv
  intro m hm
  obtain ⟨⟨_,x⟩,listed,rfl⟩ := List.mem_map.mp hm
  split at found
  · cases found
  · simp only [FS.readDir] at found
    split at found
    · cases found
      obtain ⟨k,child,entry⟩ := List.mem_filterMap.mp listed
      obtain ⟨y,-,same⟩ := Option.map_eq_some_iff.mp entry
      rw [← (Prod.mk.inj same).1]
      exact w.fs.named _ k (FS.mem_children.mp child)
    · cases found

end

/-- Confined, and the temporary is a regular file. -/
def Staged (before : FS) (dst src p : Path) (tmp : Name) (fs : FS) : Prop :=
  Confined before (Area dst src) fs ∧ ∃ mode data, fs.node (dst ++ p ++ [tmp]) = some (.file mode data)

variable {tmp : Name}

theorem Staged.rewrite {fs fs' : FS} (h : Staged before dst src p tmp fs)
    (inside : Area dst src (dst ++ p ++ [tmp])) {mode : Nat} {data : Bytes}
    (changed : fs'.node = Function.update fs.node (dst ++ p ++ [tmp]) (some (.file mode data))) :
    Staged before dst src p tmp fs' :=
  ⟨h.1.change changed inside (by simp [Node.isLink]),mode,data,by rw [changed,Function.update_self]⟩

theorem Staged.not_isLink (h : Staged before dst src p tmp fs) : ¬ fs.IsLink (dst ++ p ++ [tmp]) := by
  obtain ⟨-,mode,data,at_⟩ := h
  rw [FS.IsLink,at_]
  simp [Node.isLink]

section

variable (site : Setting before a dst src)
include site

theorem Staged.locate (target : Target before dst src p tmp) (h : Staged before dst src p tmp fs) {q : Path} {x : Node}
    (where_ : fs.locate true host.cwd (absText (a ++ (p ++ [tmp]))) = .ok (q,x)) :
    q = dst ++ p ++ [tmp] :=
  locate_below (site.leads h.1) site.plain target.plain.lexical
    (fun q le link => target.clear q le (h.1.links _ link)) h.not_isLink where_

theorem createTemp_wp (target : Target before dst src p n) (inv : Confined before (Area dst src) w.fs) :
    wp (createTemp (absText (a ++ p))) host w
      (fun s w' => ∃ tmp, ValidName tmp ∧ isTempName tmp = true ∧ s = absText (a ++ (p ++ [tmp])) ∧
        Staged before dst src p tmp w'.fs)
      (fun _ w' => Confined before (Area dst src) w'.fs)
      (fun w' => Confined before (Area dst src) w'.fs) := by
  have plain : Plain (a ++ p) := plain_append.mpr ⟨site.plain,(plain_append.mp target.plain).1⟩
  unfold createTemp
  rw [wp_bind]
  refine ((keeps_random 16) w inv).imp ?_
  intro b w₁ inv₁
  have own := target.sibling (tempName_valid b) (isTempName_tempName b)
  rw [join_name plain.lexical (tempName_valid b).segment,List.append_assoc,wp_bind]
  refine wp_sys_kept inv₁ ?_
  intro f fs run
  have staged : Staged before dst src p (tempName b) fs := by
    rcases FS.openat_ok run with ⟨d,m,-,where_,rfl,-,changed⟩ | ⟨_,-,exclusive,-⟩
    · cases place_below (site.leads inv₁) site.plain own.plain.lexical
        (fun q le link => own.clear q le (inv₁.links _ link)) (by simp) where_
      exact ⟨inv₁.change changed (own.area site) (by simp [Node.isLink]),_,_,by rw [changed,Function.update_self]⟩
    · cases exclusive
  rw [wp_bind,wp_onError]
  refine wp_query ?_ (fun _ h => by cases h) ?_
  · intro _ _
    exact ⟨tempName b,tempName_valid b,isTempName_tempName b,rfl,staged⟩
  · intro _
    refine ⟨fun _ => ?_,staged.1⟩
    exact (keeps_remove fun fs conf => own.names site conf) _ staged.1

theorem keeps_fillTemp (target : Target before dst src p tmp) (srcNative rel : Bytes) :
    Keeps host (fun w => Staged before dst src p tmp w.fs) (fillTemp srcNative (absText (a ++ (p ++ [tmp]))) rel) := by
  refine (keeps_openRead _ _ rfl rfl).mapError.bind fun f => ?_
  intro w inv
  rw [wp_bind,wp_mapError]
  refine wp_sys_kept inv ?_
  intro q fs run
  obtain ⟨here,inv₁⟩ : q = dst ++ p ++ [tmp] ∧ Staged before dst src p tmp fs := by
    rcases FS.openat_ok run with ⟨_,_,create,-⟩ | ⟨x,-,-,effect,⟨create,-⟩ | ⟨-,where_⟩⟩
    · cases create
    · cases create
    · have here := inv.locate site target where_
      subst here
      refine ⟨rfl,?_⟩
      rcases effect with same | ⟨-,mode,data,-,changed⟩
      · rw [same]; exact inv
      · exact inv.rewrite (target.area site) changed
  subst here
  exact keeps_copyInto (fun staged changed => Staged.rewrite staged (target.area site) changed) f rel _ inv₁

theorem keeps_chmodTemp (target : Target before dst src p tmp) (mode : Nat) :
    Keeps host (fun w => Staged before dst src p tmp w.fs) (chmod (absText (a ++ (p ++ [tmp]))) mode) := by
  apply keeps_sys
  intro fs _ fs' inv run
  obtain ⟨q,x,where_,changed⟩ := FS.fchmodat_ok run
  have here := inv.locate site target where_
  subst here
  have ⟨_,old,data,at_⟩ := inv
  have kind := FS.locate_ok where_
  rw [at_] at kind
  cases kind
  exact Staged.rewrite inv (target.area site) changed

/-- The rename moves a regular file between two places of the area. -/
theorem rename_wp (from_ : Target before dst src p tmp)
    (to_ : Target before dst src p n) (inv : Staged before dst src p tmp w.fs) :
    wp (rename (absText (a ++ (p ++ [tmp]))) (absText (a ++ (p ++ [n])))) host w
      (fun _ w' => Confined before (Area dst src) w'.fs)
      (fun _ w' => Confined before (Area dst src) w'.fs)
      (fun w' => Confined before (Area dst src) w'.fs) := by
  unfold rename
  rw [wp_bind]
  refine ((keeps_refuseDirectory _ _) w inv).stops ?_ (fun _ h => h.1)
  intro _ w₁ inv₁
  refine wp_sys_kept inv₁.1 ?_
  intro _ fs run
  obtain ⟨d,m,d',m',x,old,new,at_,effect⟩ := FS.renameat_ok run
  have leads := site.leads inv₁.1
  have clear : ∀ q, q <+: p → ¬ w₁.fs.IsLink (dst ++ q) := fun q le link => to_.clear q le (inv₁.1.links _ link)
  cases place_below leads site.plain from_.plain.lexical clear (by simp) old
  cases place_below leads site.plain to_.plain.lexical clear (by simp) new
  rcases effect with ⟨same,-⟩ | ⟨-,movable,changed⟩
  · rw [World.next_fs,same]; exact inv₁.1
  · obtain ⟨mode,data,file⟩ := inv₁.2
    rw [at_] at file
    cases file
    have leaf : w₁.fs.children (dst ++ p ++ [tmp]) = [] := FS.childless_of_not_dir (by rw [FS.IsDir,at_]; simp [Node.isDir])
    exact inv₁.1.moved changed at_ leaf movable.2.2.1 rfl (from_.area site) (to_.area site)

theorem publish_wp (from_ : Target before dst src p tmp)
    (to_ : Target before dst src p n) (srcNative : Bytes) (op : Op) (want : Digest)
    (inv : Staged before dst src p tmp w.fs) :
    wp (publish srcNative (absText (a ++ (p ++ [tmp]))) (absText (a ++ (p ++ [n]))) op want) host w
      (fun _ w' => Confined before (Area dst src) w'.fs)
      (fun _ w' => Confined before (Area dst src) w'.fs)
      (fun w' => Confined before (Area dst src) w'.fs) := by
  unfold publish
  rw [wp_bind]
  refine (keeps_fillTemp site from_ srcNative op.rel w inv).stops ?_ (fun _ h => h.1)
  intro _ w₁ inv₁
  rw [wp_bind]
  refine (keeps_verified _ _ _ _ w₁ inv₁).stops ?_ (fun _ h => h.1)
  intro _ w₂ inv₂
  rw [wp_bind,wp_mapError]
  refine (keeps_chmodTemp site from_ _ w₂ inv₂).stops ?_ (fun _ h => h.1)
  intro _ w₃ inv₃
  rw [wp_bind,wp_mapError]
  exact (rename_wp site from_ to_ inv₃).imp (fun _ _ h => h)

end

/-- What a checked operation's path amounts to. -/
theorem target_of_safe (safe : Safe before dst src op) (acts : op.action ≠ .skip)
    (ok : validateRel nfc op.rel = .ok ()) (root : Plain a) :
    ∃ p n, Target before dst src p n ∧ joinUnder nfc (absText a) op.rel = absText (a ++ (p ++ [n])) := by
  obtain ⟨x,good⟩ := validateRel_ok ok
  obtain ⟨clear,first⟩ := safe.resolve_left acts
  rw [good.split] at clear first
  rcases List.eq_nil_or_concat' x with rfl | ⟨p,n,rfl⟩
  · exact absurd rfl good.nonempty
  · rw [List.dropLast_concat] at clear
    exact ⟨p,n,⟨good.plain,clear,first⟩,joinUnder_eq root good ok⟩

section

variable (site : Setting before a dst src)
include site

theorem keeps_applyFile (safe : Safe before dst src op) (acts : op.action ≠ .skip) (source : Bytes) :
    Keeps host (Intact before (Area dst src)) (applyFile nfc ⟨source,absText a⟩ op) := by
  refine Keeps.ofExcept_bind fun want _ => Keeps.guarded fun inside => ?_
  obtain ⟨p,n,target,native⟩ := target_of_safe safe acts (joinUnder_of_ne inside.2) site.plain
  have plain : Plain (a ++ p) := plain_append.mpr ⟨site.plain,(plain_append.mp target.plain).1⟩
  have folder : dir (absText (a ++ (p ++ [n]))) = absText (a ++ p) := by
    rw [← List.append_assoc]
    exact dir_absText plain.lexical (target.plain n (by simp)).segment
  simp only [native,folder]
  refine ((keeps_hashFile _).bind fun _ => Keeps.require _).bind fun _ =>
    (target.above site _).mapError.bind fun _ => ((keeps_query _).attempt.bind fun _ => keeps_acceptTarget _ _).bind fun _ =>
    (keeps_cleanupTemps site target).ignore.bind fun _ => ?_
  intro w inv
  rw [wp_bind,wp_mapError]
  refine (createTemp_wp site target inv).imp ?_
  rintro _ w₁ ⟨tmp,valid,temp,rfl,staged⟩
  have own := target.sibling valid temp
  rw [wp_bind,wp_onError]
  refine (publish_wp site own target _ op want staged).ends ?_ ?_
  · intro written w₂ inv₂
    exact ((keeps_query _).ignore.bind fun _ => (keeps_verified _ _ _ _).bind fun _ => Keeps.pure written) w₂ inv₂
  · intro e w₂ inv₂
    exact (keeps_remove fun fs conf => own.names site conf) w₂ inv₂

theorem keeps_applyMkdir (safe : Safe before dst src op) (acts : op.action ≠ .skip) :
    Keeps host (Intact before (Area dst src)) (applyMkdir nfc (absText a) op) := by
  refine Keeps.guarded fun inside => ?_
  obtain ⟨p,n,target,native⟩ := target_of_safe safe acts (joinUnder_of_ne inside) site.plain
  rw [native]
  refine (keeps_query _).attempt.bind fun r => ?_
  cases r with
  | ok x => exact (Keeps.require _).bind fun _ => Keeps.require _
  | error e =>
    refine (Keeps.require _).bind fun _ => (Keeps.mapError ?_).bind fun _ => (keeps_query _).ignore
    refine keeps_mkdirAll _ site.plain target.plain.lexical (fun fs conf => site.leads conf) ?_
      (fun q le more => target.inside site le more) (List.prefix_refl _)
    rw [List.dropLast_concat]
    exact target.clear

theorem keeps_applyOp (safe : Safe before dst src op) (source : Bytes) (out : ApplyResult) :
    Keeps host (Intact before (Area dst src)) (applyOp nfc ⟨source,absText a⟩ op out) :=
  keeps_performOp (fun acts => ⟨keeps_applyMkdir site safe acts,keeps_applyFile site safe acts source⟩) _ _

/-- The destination root itself is there; making sure of it changes nothing. -/
theorem keeps_destination (perm : Nat) : Keeps host (Intact before (Area dst src)) (mkdirAll (absText a) perm) := by
  have dir : before.IsDir dst := (site.leads (Confined.refl before _)).1
  refine keeps_mkdirAll perm site.plain lexical_nil (fun fs conf => site.leads conf) ?_ ?_ (List.prefix_append a [])
  · intro q le
    rw [List.prefix_nil.mp le,List.append_nil]
    exact dir.not_isLink
  · intro q le more
    exact absurd (List.prefix_nil.mp le) more

end

/-- For every plan, start index, destination tree and host: if each operation that
is going to run has no link above its target and does not lead into the source,
nothing outside the destination tree and nothing in the source tree changes. -/
theorem apply_contained {σ : Type} (nfc : NFCTables) (host : Host) (w : World) (source : Bytes)
    (a dst src : Path) (plan : Plan) (opts : ApplyOptions σ) (s : σ)
    (site : Setting w.fs a dst src)
    (safe : ∀ op ∈ plan.ops.drop opts.startAt.toNat, Safe w.fs dst src op)
    (callback : ∀ i op bytes s,
      Keeps host (fun w' => Confined w.fs (Area dst src) w'.fs) (opts.onOpComplete i op bytes s))
    (p : Path) (outside : ¬ FS.Below dst p ∨ src <+: p) :
    (applyWith nfc ⟨source,absText a⟩ plan opts s host w).2.fs.node p = w.fs.node p := by
  have kept : Keeps host (fun w' => Confined w.fs (Area dst src) w'.fs)
      (applyWith nfc ⟨source,absText a⟩ plan opts s) :=
    (keeps_checkPlan _ _ _ _).bind fun _ => (keeps_destination site _).mapError.bind fun _ =>
      keeps_runOps (fun op member _ => keeps_applyOp site (safe op member) source) callback _ _ _
  exact (kept w (Confined.refl _ _)).reached.outside p fun area =>
    outside.elim (fun out => out area.1) (fun mine => area.2 mine)

end containment

/-! One operation, with and without a link above its target. -/

def copyOp (relPath data : String) : Op where
  action := .copy
  rel := ascii relPath
  reason := .missing
  expectedSize := (ascii data).length
  expectedMode := 0o644
  expectedDigestHex := hexOf (sha256 (ascii data)).val
  initial := ascii "absent"
  final := ascii "file"

def onlyCopy : Plan := ⟨ascii "/s",ascii "/d",[copyOp "l/f" "x"]⟩

def noCallback : ApplyOptions Unit := { onOpComplete := fun _ _ _ s => pure s }

/-- Source `/s` holds `l/f`; `extra` says what the destination `/d` holds. -/
def twoTrees (extra : List (Path × Node)) : World :=
  ⟨FS.build ([([ascii "s"],.dir 0o755),([ascii "s",ascii "l"],.dir 0o755),
    ([ascii "s",ascii "l",ascii "f"],.file 0o644 (ascii "x")),([ascii "out"],.dir 0o755),
    ([ascii "d"],.dir 0o755)] ++ extra),0⟩

theorem apply_contained_sample :
    (∀ op ∈ onlyCopy.ops.drop noCallback.startAt.toNat,
      Safe (twoTrees []).fs [ascii "d"] [ascii "s"] op) ∧
    (applyWith asciiTables ⟨ascii "/s",absText [ascii "d"]⟩ onlyCopy noCallback () quietHost
      (twoTrees [])).2.fs.node [ascii "s",ascii "l",ascii "f"] = some (.file 0o644 (ascii "x")) := by
  have site : Setting (twoTrees []).fs [ascii "d"] [ascii "d"] [ascii "s"] :=
    ⟨by decide,FS.anchored_self (by decide +kernel) (fun h => h.2 rfl),by decide,by decide⟩
  have safe : ∀ op ∈ onlyCopy.ops.drop noCallback.startAt.toNat,
      Safe (twoTrees []).fs [ascii "d"] [ascii "s"] op := by
    intro op member
    obtain rfl : op = copyOp "l/f" "x" := List.mem_singleton.mp member
    refine .inr ⟨fun q le => ?_,by decide⟩
    rw [show ((copyOp "l/f" "x").rel.splitOn slash).dropLast = [ascii "l"] by decide,
      List.prefix_cons_iff] at le
    rcases le with rfl | ⟨_,rfl,le⟩
    · unfold FS.IsLink
      decide +kernel
    · rw [List.prefix_nil.mp le]
      unfold FS.IsLink
      decide +kernel
  refine ⟨safe,(apply_contained asciiTables quietHost (twoTrees []) (ascii "/s") [ascii "d"] [ascii "d"]
    [ascii "s"] onlyCopy noCallback () site safe (fun _ _ _ _ => Keeps.pure _)
    [ascii "s",ascii "l",ascii "f"] (.inr (by decide))).trans (by decide +kernel)⟩

/-- A link in the destination is followed out of it. -/
theorem link_followed_out :
    (twoTrees [([ascii "d",ascii "l"],.link (ascii "/out"))]).fs.node [ascii "out",ascii "f"] = none ∧
    (applyWith asciiTables ⟨ascii "/s",ascii "/d"⟩ onlyCopy noCallback () quietHost
      (twoTrees [([ascii "d",ascii "l"],.link (ascii "/out"))])).2.fs.node
        [ascii "out",ascii "f"] = some (.file 0o644 (ascii "x")) := by
  decide +kernel

end Integris.LocalSync.Containment
