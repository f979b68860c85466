import Integris.ApplyDelivery

/-! `Sync` without a journal, and the permission bits it leaves. A directory that is there
and a file with the same content are skipped, whatever their bits. -/
namespace Integris.LocalSync.Delivery

open Posix Prog PathGrammar PathMap

/-- A missing destination has an empty manifest. -/
def scanDestination (nfc : NFCTables) (root : Bytes) : LS Manifest := do
  match ← attempt (lstat root) with
  | .ok x => do
    require (x.isLink = false) (pathUnsafe "sync" "destination must not be a symbolic link")
    require (x.isDir = true) (invalidArg "sync" "destination must be a directory")
    scan nfc root
  | .error e => do
    require (IsNotExist e) (wrapErrno .read "sync" [] e)
    pure ⟨root,[]⟩

def buildFreshPlan (nfc : NFCTables) (roots : Roots) : LS Plan := do
  let src ← scan nfc roots.source
  let dst ← scanDestination nfc roots.destination
  let plan ← ofExcept (buildPlan src dst)
  pure { plan with sourceRoot := roots.source, destRoot := roots.destination }

/-- `Sync` with the journal disabled, once the roots are resolved. -/
def syncUnjournaled (nfc : NFCTables) (roots : Roots) : LS ApplyResult := do
  let plan ← buildFreshPlan nfc roots
  apply nfc roots plan

variable {host : Host} {nfc : NFCTables} {w w' : World}

theorem scanDestination_scans (quiet : host.Quiet) {b d : Path} (leads : w.fs.Leads b d) (root : Plain b) {m : Manifest}
    (ran : scanDestination nfc (absText b) host w = (.ok m,w')) :
    ∃ w₁, w₁.fs = w.fs ∧ scan nfc (absText b) host w₁ = (.ok m,w') := by
  obtain ⟨mode,-,found⟩ := locate_root leads root host.cwd
  have seen : lstat (absText b) host w = (.ok (.dir mode),w.next w.fs) := query_run quiet (by rw [found]; rfl)
  rw [scanDestination,bind_run (attempt_run seen)] at ran
  exact ⟨w.next w.fs,rfl,ran⟩

theorem syncUnjournaled_run (quiet : host.Quiet) {a b s d : Path} (trees : Trees w.fs a b s d) {out : ApplyResult}
    (ran : syncUnjournaled nfc ⟨absText a,absText b⟩ host w = (.ok out,w')) :
    ∃ rs ops, Planned nfc w.fs s d rs ops ∧ w'.fs.node = runAll junk d (edits host.umask w.fs s d rs) w.fs.node := by
  obtain ⟨p,w₁,fresh,applied⟩ := returned_bind ran
  obtain ⟨src,w₂,first,fresh₁⟩ := returned_bind fresh
  obtain ⟨dst,w₃,second,fresh₂⟩ := returned_bind fresh₁
  obtain ⟨p₀,w₄,planning,last⟩ := returned_bind fresh₂
  obtain ⟨built,rfl⟩ := returned_ofExcept planning
  cases last
  obtain ⟨kept,-,survey⟩ := scan_surveys quiet (trees.reads w.fs fun _ _ => rfl) trees.source first
  rw [← kept] at trees survey ⊢
  obtain ⟨w₅,same,second⟩ := scanDestination_scans quiet (trees.writes w₂.fs fun _ _ => rfl) trees.dest second
  rw [← same] at trees survey ⊢
  obtain ⟨kept',-,survey'⟩ := scan_surveys quiet (trees.writes w₅.fs fun _ _ => rfl) trees.dest second
  obtain ⟨rs,planned⟩ := buildPlan_planned survey survey' built
  rw [← kept'] at trees planned ⊢
  rcases apply_run quiet trees (p := { p₀ with sourceRoot := absText a, destRoot := absText b }) planned rfl rfl with
    ⟨out',w₆,done,changed,-⟩ | ⟨-,e,w₆,refused⟩
  · cases done.symm.trans applied
    exact ⟨rs,p₀.ops,planned,changed⟩
  · cases refused.symm.trans applied

def permBits : Node → Nat
  | .dir mode => mode &&& 0o777
  | .file mode _ => mode &&& 0o777
  | _ => 0

/-- Every object of the source with permission bits has the same ones in the destination. -/
def SameBits (before after : FS) (s d : Path) : Prop :=
  ∀ r v, Content r → before.node (s ++ r) = some v → permBits v ≠ 0 →
    ∃ v', after.node (d ++ r) = some v' ∧ permBits v' = permBits v

/-- The bits of a directory that is made for what is done in it. -/
def parentBits : Task → Nat
  | .make mode => if mode = 0 then 0o755 else mode
  | _ => 0o755

theorem bits_kept : ∀ perm < 512, (syscallMode perm &&& 0o1777) &&& 0o777 = perm ∧
    (syscallMode perm &&& 0o7777) &&& 0o777 = perm := by decide +kernel

section bits

variable {nfc : NFCTables} {before after : FS} {s d q r : Path} {m : Name} {rs : List Path} {ops : List Op} {v v' : Node}

theorem permBits_newDir {perm : Nat} (small : perm < 512) : permBits (newDir 0 perm) = perm := by
  simp only [newDir,permBits,FS.masked,Nat.and_zero,Nat.xor_zero,bits_kept perm small]

theorem and_small (mode : Nat) : mode &&& 0o777 < 512 := Nat.lt_succ_of_le Nat.and_le_right

theorem parent_bits (made : (edit 0 (taskOf before s d r)).parent = some v) :
    permBits v = parentBits (taskOf before s d r) := by
  have small : ∀ mode, taskOf before s d r = .make mode → mode < 512 := by
    intro mode task
    unfold taskOf at task
    split at task
    · cases task
      exact and_small _
    · cases task
    · split at task <;> cases task
    · cases task
  cases task : taskOf before s d r with
  | leave => rw [task] at made; cases made
  | make mode =>
    rw [task] at made
    cases made
    rw [parentBits]
    split
    · exact permBits_newDir (by decide)
    · exact permBits_newDir (small mode task)
  | write mode data =>
    rw [task] at made
    cases made
    exact permBits_newDir (by decide)

theorem object_bits (at_ : before.node (s ++ r) = some v) (bits : permBits v ≠ 0)
    (made : (edit 0 (taskOf before s d r)).object = some v') : permBits v' = permBits v := by
  unfold taskOf at made
  cases v with
  | dir mode =>
    cases there : before.node (d ++ r) with
    | some x => simp [at_,there,edit,Edit.object] at made
    | none =>
      rw [at_,there] at made
      cases made
      rw [if_neg (show mode &&& 0o777 ≠ 0 from bits)]
      exact permBits_newDir (and_small mode)
  | file mode data =>
    have wrote : v' = newFile (mode &&& 0o777) data := by
      rw [at_] at made
      split at made
      · next same _ => cases same
      · next same _ =>
        cases same
        cases made
        rfl
      · next same _ =>
        cases same
        split at made
        · cases made
        · cases made
          rfl
      · cases made
    rw [wrote,newFile,if_neg (show mode &&& 0o777 ≠ 0 from bits)]
    exact (bits_kept _ (and_small mode)).2
  | link target => exact absurd rfl bits
  | special kind => exact absurd rfl bits

theorem bits_iff (planned : Planned nfc before s d rs ops) (content : Content (q ++ [m]))
    (at_ : before.node (s ++ (q ++ [m])) = some v) (bits : permBits v ≠ 0) :
    (∃ v', runAll junk d (edits 0 before s d rs) before.node (d ++ (q ++ [m])) = some v' ∧ permBits v' = permBits v) ↔
    (Swept before s d q m → ∃ k, First before s (q ++ [m]) k ∧
      parentBits (taskOf before s d (q ++ [m] ++ [k])) = permBits v) ∧
    (¬Swept before s d q m → taskOf before s d (q ++ [m]) = .leave →
      ∀ v', before.node (d ++ (q ++ [m])) = some v' → permBits v' = permBits v) := by
  have present : before.node (s ++ (q ++ [m])) ≠ none := by simp [at_]
  by_cases swept : Swept before s d q m
  · simp only [swept,forall_true_left,not_true_eq_false,false_implies,and_true]
    by_cases source : Bare before.node (s ++ (q ++ [m]))
    · rw [swept.lost planned source]
      constructor
      · rintro ⟨_,gone,-⟩
        cases gone
      · rintro ⟨k,first,-⟩
        refine absurd ?_ first.present
        rw [← List.append_assoc]
        exact source k
    · constructor
      · rintro ⟨v',final,same⟩
        obtain ⟨k,first⟩ := exists_first planned content source
        obtain ⟨v₁,made,final'⟩ := swept.remade planned first
        cases final.symm.trans final'
        exact ⟨k,first,(parent_bits made).symm.trans same⟩
      · rintro ⟨k,first,same⟩
        obtain ⟨v',made,final⟩ := swept.remade planned first
        exact ⟨v',final,(parent_bits made).trans same⟩
  · simp only [swept,not_false_eq_true,forall_true_left,false_implies,true_and]
    obtain ⟨v',settled,final⟩ : ∃ v', (edit 0 _).object.or _ = some v' ∧ _ := source_stays planned swept content present
    rw [final]
    by_cases task : taskOf before s d (q ++ [m]) = .leave
    · rw [task] at settled
      have there : before.node (d ++ (q ++ [m])) = some v' := settled
      simp [task,there]
    · cases made : (edit 0 (taskOf before s d (q ++ [m]))).object with
      | none => cases left : taskOf before s d (q ++ [m]) <;> simp [left,edit,Edit.object] at made task
      | some v₁ =>
        rw [made] at settled
        cases settled
        simp [task,object_bits at_ bits made]

end bits

/-- After a successful synchronization with a zero umask the bits of the source are those of
the destination exactly when every skipped object has them already, and every directory that
is cleaned away as a temporary gets them from what is first put into it again. -/
theorem sync_bits_iff (nfc : NFCTables) (host : Host) (quiet : host.Quiet) (mask : host.umask = 0) (w w' : World)
    (a b s d : Path) (trees : Trees w.fs a b s d) (out : ApplyResult)
    (ran : syncUnjournaled nfc ⟨absText a,absText b⟩ host w = (.ok out,w')) :
    SameBits w.fs w'.fs s d ↔ ∀ q m v, Content (q ++ [m]) → w.fs.node (s ++ (q ++ [m])) = some v → permBits v ≠ 0 →
      (Swept w.fs s d q m → ∃ k, First w.fs s (q ++ [m]) k ∧
        parentBits (taskOf w.fs s d (q ++ [m] ++ [k])) = permBits v) ∧
      (¬Swept w.fs s d q m → taskOf w.fs s d (q ++ [m]) = .leave →
        ∀ v', w.fs.node (d ++ (q ++ [m])) = some v' → permBits v' = permBits v) := by
  obtain ⟨rs,ops,planned,changed⟩ := syncUnjournaled_run quiet trees ran
  rw [mask] at changed
  constructor
  · intro same q m v content at_ bits
    have final := same _ v content at_ bits
    rw [changed] at final
    exact (bits_iff planned content at_ bits).mp final
  · intro good r v content at_ bits
    obtain ⟨q,m,rfl⟩ := (List.eq_nil_or_concat' r).resolve_left content.1
    rw [changed]
    exact (bits_iff planned content at_ bits).mpr (good q m v content at_ bits)

/-- One file on each side with the same content. -/
def sameContent (mode mode' : Nat) : FS := FS.build [([ascii "s"],.dir 0o755),([ascii "s",ascii "b"],.file mode [1]),
  ([ascii "d"],.dir 0o755),([ascii "d",ascii "b"],.file mode' [1])]

def openHost : Host := { quietHost with umask := 0 }

theorem sync_bits_sample : ∃ (w w' : World) (out : ApplyResult),
    syncUnjournaled asciiTables ⟨absText [ascii "s"],absText [ascii "d"]⟩ openHost w = (.ok out,w') ∧
    w.fs.node [ascii "s",ascii "b"] = some (.file 0o600 [1]) ∧ SameBits w.fs w'.fs [ascii "s"] [ascii "d"] := by
  obtain ⟨w,returned,there,source,dest,names,same⟩ : ∃ w, (syncUnjournaled asciiTables
      ⟨absText [ascii "s"],absText [ascii "d"]⟩ openHost w).1 = .ok ⟨0,1,0⟩ ∧
      w.fs.node [ascii "s",ascii "b"] = some (.file 0o600 [1]) ∧ w.fs.IsDir [ascii "s"] ∧ w.fs.IsDir [ascii "d"] ∧
      (∀ p ∈ w.fs.support, p.getLast?.all (fun m => isTempName m = false) = true) ∧
      ∀ p ∈ w.fs.support, (w.fs.node ([ascii "d"] ++ p.tail)).map permBits =
        (w.fs.node ([ascii "s"] ++ p.tail)).map permBits :=
    ⟨⟨sameContent 0o600 0o600,0⟩,by decide +kernel⟩
  refine ⟨w,_,_,run_eq returned,there,(sync_bits_iff asciiTables openHost (fun _ _ => rfl) rfl w _ _ _ _ _
    (separate_trees source dest) _ (run_eq returned)).mpr fun q m v content at_ bits => ?_⟩
  have listed := w.fs.finite _ (show w.fs.node ([ascii "s"] ++ (q ++ [m])) ≠ none by rw [at_]; simp)
  refine ⟨fun swept => ?_,fun _ _ v' at' => ?_⟩
  · have clean := names _ listed
    rw [← List.append_assoc,List.getLast?_concat] at clean
    simp [swept.temp] at clean
  · have equal : (w.fs.node ([ascii "d"] ++ (q ++ [m]))).map permBits =
        (w.fs.node ([ascii "s"] ++ (q ++ [m]))).map permBits := same _ listed
    rw [at',at_] at equal
    exact Option.some.inj equal

theorem skipped_file_bits : ∃ (w w' : World) (out : ApplyResult),
    openHost.Quiet ∧ openHost.umask = 0 ∧ Trees w.fs [ascii "s"] [ascii "d"] [ascii "s"] [ascii "d"] ∧
    syncUnjournaled asciiTables ⟨absText [ascii "s"],absText [ascii "d"]⟩ openHost w = (.ok out,w') ∧
    w.fs.node [ascii "s",ascii "b"] = some (.file 0o600 [1]) ∧
    w'.fs.node [ascii "d",ascii "b"] = some (.file 0o644 [1]) ∧ ¬SameBits w.fs w'.fs [ascii "s"] [ascii "d"] := by
  obtain ⟨w,returned,there,kept,source,dest⟩ : ∃ w, (syncUnjournaled asciiTables
      ⟨absText [ascii "s"],absText [ascii "d"]⟩ openHost w).1 = .ok ⟨0,1,0⟩ ∧
      w.fs.node ([ascii "s"] ++ [ascii "b"]) = some (.file 0o600 [1]) ∧
      (syncUnjournaled asciiTables ⟨absText [ascii "s"],absText [ascii "d"]⟩ openHost w).2.fs.node
        ([ascii "d"] ++ [ascii "b"]) = some (.file 0o644 [1]) ∧ w.fs.IsDir [ascii "s"] ∧ w.fs.IsDir [ascii "d"] :=
    ⟨⟨sameContent 0o600 0o644,0⟩,by decide +kernel⟩
  refine ⟨w,_,_,fun _ _ => rfl,rfl,separate_trees source dest,run_eq returned,there,kept,fun same => ?_⟩
  obtain ⟨v,at_,bits⟩ := same [ascii "b"] _ (by decide) there (by decide)
  rw [kept] at at_
  cases at_
  exact absurd bits (by decide)

end Integris.LocalSync.Delivery
