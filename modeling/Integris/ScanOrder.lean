import Integris.Scan

/-! What the two scanners find: on a host that refuses nothing each of them is a walk
over one list, the objects below the root in the order of a depth-first walk, and ends
at the first object it does not take. -/
namespace Integris.LocalSync

open Posix Prog PathGrammar Outcome

section order

variable {fs : FS} {d r : Path}

variable {p : Path} {fuel : Nat}

theorem length_le_depth (present : fs.node p ≠ none) : p.length ≤ depth fs := by
  have member : p.length ∈ fs.support.map List.length := List.mem_map_of_mem (fs.finite p present)
  unfold depth
  revert member
  induction fs.support.map List.length with
  | nil => simp
  | cons k ks ih =>
    intro member
    rw [List.foldr_cons]
    rcases List.mem_cons.mp member with same | later
    · omega
    · have := ih later
      omega

/-- An object and all that is below it, as relative paths in walk order; the metadata
directory is left out. -/
def subtree (fs : FS) (d : Path) : Nat → Path → List Path
  | 0, _ => []
  | fuel + 1, r =>
    if r = [metaDirName] then []
    else r :: if fs.IsDir (d ++ r) then (fs.children (d ++ r)).flatMap fun n => subtree fs d fuel (r ++ [n])
      else []

/-- Enough fuel is enough. -/
theorem subtree_succ (present : fs.node (d ++ r) ≠ none)
    (enough : depth fs < (d ++ r).length + fuel) : subtree fs d (fuel + 1) r = subtree fs d fuel r := by
  induction fuel generalizing r with
  | zero =>
    have := length_le_depth present
    omega
  | succ fuel ih =>
    rw [subtree,subtree]
    split
    · rfl
    · congr 1
      split
      · refine List.flatMap_congr fun n hn => ?_
        have child : fs.node (d ++ (r ++ [n])) ≠ none := by
          rw [← List.append_assoc]
          exact FS.mem_children.mp hn
        refine ih child ?_
        simp only [List.length_append,List.length_singleton] at enough ⊢
        omega
      · rfl

/-- Everything below the root in walk order. -/
def contents (fs : FS) (d : Path) : List Path :=
  (fs.children d).flatMap fun n => subtree fs d (depth fs) [n]

theorem contents_eq : contents fs d = (fs.children d).flatMap fun n => subtree fs d (depth fs + 1) [n] := by
  refine List.flatMap_congr fun n hn => (subtree_succ (FS.mem_children.mp hn) ?_).symm
  simp only [List.length_append,List.length_singleton]
  omega

theorem mem_subtree {x : Path} (present : fs.node (d ++ r) ≠ none)
    (member : x ∈ subtree fs d fuel r) : fs.node (d ++ x) ≠ none ∧ r <+: x := by
  induction fuel generalizing r with
  | zero => cases member
  | succ fuel ih =>
    rw [subtree] at member
    split at member
    · cases member
    · rcases List.mem_cons.mp member with rfl | below
      · exact ⟨present,List.prefix_refl _⟩
      · split at below
        · obtain ⟨n,hn,inside⟩ := List.mem_flatMap.mp below
          have child : fs.node (d ++ (r ++ [n])) ≠ none := by
            rw [← List.append_assoc]
            exact FS.mem_children.mp hn
          obtain ⟨there,deeper⟩ := ih child inside
          exact ⟨there,(List.prefix_append _ _).trans deeper⟩
        · cases below

theorem mem_contents {x : Path} (member : x ∈ contents fs d) : fs.node (d ++ x) ≠ none ∧ x ≠ [] := by
  obtain ⟨n,hn,inside⟩ := List.mem_flatMap.mp member
  obtain ⟨there,deeper⟩ := mem_subtree (FS.mem_children.mp hn) inside
  refine ⟨there,fun empty => ?_⟩
  rw [empty,List.prefix_nil] at deeper
  cases deeper

end order

section texts

variable {r : Path} {n : Name}

/-- The text of a path of legal names does not climb. -/
theorem relText_stays (plain : Plain r) : ¬((dotdot ++ [slash]) <+: relText r ∨ relText r = dotdot) := by
  have first : ∀ rest, components (relText r) ≠ dotdot :: rest := by
    intro rest h
    rw [components_relText plain.lexical] at h
    exact (plain dotdot (by simp [h])).2.2.1 rfl
  rintro (⟨rest,up⟩ | up)
  · rw [List.append_assoc,List.singleton_append] at up
    exact first (components rest) (by rw [← up,components_append]; rfl)
  · exact first [] (by rw [up]; decide)

theorem isMetaRel_relText (plain : Plain r) (more : r ≠ []) :
    isMetaRel (relText r) = true ↔ r.head? = some metaDirName := by
  have valid : ValidName metaDirName := by decide
  obtain ⟨n,q,rfl⟩ := List.exists_cons_of_ne_nil more
  rw [isMetaRel,decide_eq_true_eq,List.head?_cons,Option.some.injEq]
  constructor
  · rintro (same | ⟨rest,same⟩)
    · have one := relText_injective (q := [metaDirName]) plain.lexical (by simp [valid.segment]) (by simpa using same)
      exact (List.cons.inj one).1
    · have names := components_relText plain.lexical
      rw [← same,List.append_assoc,List.singleton_append,components_append,
        components_name valid.1 valid.2.2.2.1,List.singleton_append] at names
      exact (List.cons.inj names).1.symm
  · rintro rfl
    by_cases last : q = []
    · subst last
      exact .inl (relText_singleton _)
    · rw [relText_cons _ last]
      exact .inr ⟨relText q,by simp⟩

theorem relText_snoc (r : Path) (n : Name) : relText (r ++ [n]) = if r = [] then n else relText r ++ slash :: n := by
  split
  · next h => subst h; simp
  · next h => rw [relText_append h (by simp),relText_singleton]

end texts

/-- What `Scan` makes of one object. -/
def recorded (nfc : NFCTables) (fs : FS) (d r : Path) : Outcome Error Entry :=
  match validateJoined nfc (relText r) with
  | .error e => .error (rejected "scan" (relText r) e)
  | .ok _ =>
    match fs.node (d ++ r) with
    | none => .crashed
    | some (.link _) => .error (unsupported "scan" (relText r) "symbolic link")
    | some (.special kind) => .error (unsupported "scan" (relText r) (kindText kind))
    | some (.dir mode) => .ok (directoryEntry (relText r) mode)
    | some (.file mode data) => .ok (fileEntry (relText r) mode ⟨sha256 data,data.length⟩)

section scanning

variable {nfc : NFCTables} {host : Host} {fs : FS} {a d r : Path} {x : Node}

theorem locate_object (leads : fs.Leads a d) (root : Plain a) (plain : Plain r) (more : r ≠ [])
    (at_ : fs.node (d ++ r) = some x) (base : Path) :
    fs.locate false base (absText (a ++ r)) = .ok (d ++ r,x) := by
  obtain ⟨q,n,rfl⟩ := (List.eq_nil_or_concat' r).resolve_left more
  have present : fs.node (d ++ q ++ [n]) ≠ none := by
    rw [List.append_assoc,at_]
    nofun
  have valid : ValidName n := plain n (by simp)
  rw [← List.append_assoc,FS.locate_absText valid.segment,List.append_assoc]
  have dirs : ∀ p, p <+: q → fs.IsDir (d ++ p) := fun p le =>
    (FS.parent_isDir present).above ((List.prefix_append_right_inj _).mpr le)
  have reached : (fs.IsDir (d ++ q) ∧ fs.place false base (absText (a ++ (q ++ [n]))) = .ok (.entry (d ++ q) n)) ∨ _ :=
    FS.place_clear leads root plain base (fun p le => (dirs p le).not_isLink) nofun
  rcases reached with ⟨-,found⟩ | ⟨p,le,stop,-⟩
  · have here : fs.node (Place.entry (d ++ q) n).path = some x := by rw [Place.path,List.append_assoc,at_]
    rw [found]
    exact (FS.present_some here).trans (by rw [Place.path,List.append_assoc])
  · exact absurd (dirs p le) stop

variable {data : Bytes} {mode : Nat} {entries : List (Name × Node)}

theorem reads_hashOpenedFile (quiet : host.Quiet) (file : fs.node p = some (.file mode data)) :
    Reads host fs (hashOpenedFile p) (.ok ⟨sha256 data,data.length⟩) := by
  have looked : Reads host fs (fstat p) (.ok (.file mode data)) := Reads.query quiet (by rw [file])
  have read : Reads host fs (readAll p) (.ok data) := Reads.query quiet (by rw [FS.readAll,file])
  refine (looked.mapError_ok _).then_ ?_
  refine (Reads.require rfl _).then_ ?_
  exact (read.mapError_ok _).then_ (Reads.pure _)

theorem reads_hashFile (quiet : host.Quiet) {s : Bytes} (found : fs.locate false host.cwd s = .ok (p,.file mode data)) :
    Reads host fs (hashFile s) (.ok ⟨sha256 data,data.length⟩) := by
  have opened : Reads host fs (openFile s { nofollow := true } 0) (.ok p) := by
    refine Reads.openFile quiet ?_
    simp [FS.openat,found,FS.openExisting]
  exact (opened.mapError_ok _).then_ (reads_hashOpenedFile quiet (FS.locate_ok found))

theorem scanVisit_below (root : Plain a) (plain : Plain r) (more : r ≠ []) (listed : Node) :
    scanVisit nfc (absText a) (absText (a ++ r)) listed = scanEntry nfc (absText (a ++ r)) (relText r) listed := by
  have other : absText (a ++ r) ≠ absText a := fun same => by
    have := absText_injective (by simp [root.lexical,plain.lexical]) root.lexical same
    simp [more] at this
  have entry : ¬(relText r = dot ∨ relText r = []) :=
    not_or.mpr ⟨relText_ne_dot plain.lexical,relText_ne_nil plain.lexical more⟩
  rw [scanVisit,if_neg other,rel_absText root.lexical plain.lexical more]
  exact if_neg entry

variable (nfc) in
theorem reads_scanVisit (quiet : host.Quiet) (leads : fs.Leads a d) (root : Plain a) (plain : Plain r)
    (more : r ≠ []) (content : r.head? ≠ some metaDirName) (at_ : fs.node (d ++ r) = some x) (listed : Node) :
    Reads host fs (scanVisit nfc (absText a) (absText (a ++ r)) listed)
      ((recorded nfc fs d r).bind fun e => .ok (.go,[e])) := by
  have notMeta : ¬isMetaRel (relText r) = true := fun h => content ((isMetaRel_relText plain more).mp h)
  have found := locate_object leads root plain more at_ host.cwd
  rw [scanVisit_below root plain more,scanEntry]
  refine (Reads.require (relText_stays plain) _).then_ ?_
  rw [if_neg notMeta,recorded]
  cases validateJoined nfc (relText r) with
  | error e => exact (Reads.throw _).failing
  | ok comps =>
    refine Reads.then_ (Reads.pure comps) ?_
    have looked : Reads host fs (lstat (absText (a ++ r))) (.ok x) := Reads.query quiet (by rw [found]; rfl)
    refine (looked.mapError_ok _).then_ ?_
    dsimp only
    rw [at_]
    cases x with
    | link target => exact (Reads.throw _).failing
    | special kind => exact (Reads.throw _).failing
    | dir mode => exact Reads.then_ (Reads.pure _) (Reads.pure _)
    | file mode data => exact Reads.then_ ((reads_hashFile quiet found).then_ (Reads.pure _)) (Reads.pure _)

theorem readDir_names (listed : fs.readDir p = .ok entries) :
    entries.map Prod.fst = fs.children p ∧ ∀ e ∈ entries, fs.node (p ++ [e.1]) = some e.2 := by
  unfold FS.readDir at listed
  split at listed
  · cases listed
    have present : ∀ n ∈ fs.children p, ∃ y, fs.node (p ++ [n]) = some y := fun n hn =>
      Option.ne_none_iff_exists'.mp (FS.mem_children.mp hn)
    refine ⟨?_,?_⟩
    · revert present
      induction fs.children p with
      | nil => exact fun _ => rfl
      | cons n names ih =>
        intro present
        obtain ⟨y,here⟩ := present n List.mem_cons_self
        rw [List.filterMap_cons,here]
        exact congrArg (n :: ·) (ih fun m hm => present m (List.mem_cons_of_mem _ hm))
    · intro e he
      obtain ⟨n,-,same⟩ := List.mem_filterMap.mp he
      obtain ⟨y,here,rfl⟩ := Option.map_eq_some_iff.mp same
      exact here
  · cases listed

theorem readDir_dir (dir : fs.IsDir p) : ∃ entries, fs.readDir p = .ok entries := by
  obtain ⟨mode,at_⟩ := FS.isDir_iff.mp dir
  exact ⟨_,by rw [FS.readDir,at_]⟩

theorem reads_osReadDir (quiet : host.Quiet) (leads : fs.Leads a d) (root : Plain a) (plain : Plain r)
    (dir : fs.IsDir (d ++ r)) : ∃ entries, fs.readDir (d ++ r) = .ok entries ∧
      Reads host fs (osReadDir (absText (a ++ r))) (.ok entries) := by
  obtain ⟨entries,listed⟩ := readDir_dir dir
  obtain ⟨mode,found⟩ := (spells_absText (plain_append.mpr ⟨root,plain⟩)).locate_dir leads plain dir host.cwd
  exact ⟨entries,listed,Reads.query quiet (by rw [found]; exact listed)⟩

theorem reads_children {ε β : Type} (listed : fs.readDir p = .ok entries)
    {visit : Name × Node → Prog Host World ε (List β)} {f : Path → Outcome ε β} {below : Name → List Path}
    (each : ∀ n x, fs.node (p ++ [n]) = some x → Reads host fs (visit (n,x)) (gather f (below n))) :
    Reads host fs (visitAll visit entries) (gather f ((fs.children p).flatMap below)) := by
  obtain ⟨names,nodes⟩ := readDir_names listed
  rw [← names,List.flatMap_map]
  exact Reads.visitAll fun e he => each e.1 e.2 (nodes e he)

theorem plain_of_object (at_ : fs.node (d ++ r) = some x) : Plain r := by
  have all : Plain (d ++ r) := FS.plain_of_present (by rw [at_]; simp)
  exact (plain_append.mp all).2

theorem reads_walkDir (quiet : host.Quiet) (leads : fs.Leads a d) (root : Plain a)
    (more : r ≠ []) (content : r.head? = some metaDirName → r = [metaDirName])
    (at_ : fs.node (d ++ r) = some x) (enough : depth fs < (d ++ r).length + fuel) :
    Reads host fs (walkDir nfc (absText a) fuel (absText (a ++ r)) x)
      (gather (recorded nfc fs d) (subtree fs d fuel r)) := by
  induction fuel generalizing r x with
  | zero =>
    have present : fs.node (d ++ r) ≠ none := by simp [at_]
    have := length_le_depth present
    omega
  | succ fuel ih =>
    have plain : Plain r := plain_of_object at_
    rw [walkDir,subtree]
    by_cases metadata : r = [metaDirName]
    · -- the metadata directory is passed over, a file of its name too
      rw [if_pos metadata]
      have visited : Reads host fs (scanVisit nfc (absText a) (absText (a ++ r)) x)
          (.ok (if x.isDir then .skipDir else .go,[])) := by
        have isMeta : isMetaRel (relText r) = true :=
          (isMetaRel_relText plain more).mpr (by rw [metadata]; rfl)
        rw [scanVisit_below root plain more,scanEntry]
        refine (Reads.require (relText_stays plain) _).then_ ?_
        rw [if_pos isMeta]
        exact Reads.pure _
      refine visited.then_ ?_
      dsimp only
      rw [if_pos (by cases x.isDir <;> simp)]
      exact Reads.pure _
    · have outside : r.head? ≠ some metaDirName := fun h => metadata (content h)
      rw [if_neg metadata,gather]
      have visited := reads_scanVisit nfc quiet leads root plain more outside at_ x
      have step (v : Visit × List Entry) (go : v.1 = .go) : Reads host fs (do
          if v.1 = .skipDir ∨ x.isDir = false then pure v.2
          else do
            let entries ← mapError (wrapErrno .read "scan" []) (osReadDir (absText (a ++ r)))
            let more ← visitAll (fun e => walkDir nfc (absText a) fuel (join (absText (a ++ r)) e.1) e.2) entries
            pure (v.2 ++ more))
          ((gather (recorded nfc fs d) (if fs.IsDir (d ++ r) then
            (fs.children (d ++ r)).flatMap fun n => subtree fs d fuel (r ++ [n]) else [])).bind
              fun ys => .ok (v.2 ++ ys)) := by
        by_cases dir : fs.IsDir (d ++ r)
        · have isDir : x.isDir = true := by
            obtain ⟨mode,here⟩ := FS.isDir_iff.mp dir
            rw [at_] at here
            cases here
            rfl
          rw [if_pos dir,if_neg (by simp [isDir,go])]
          obtain ⟨entries,listed,read⟩ := reads_osReadDir quiet leads root plain dir
          refine (read.mapError_ok _).then_ ?_
          refine Reads.bind (reads_children listed fun n y child => ?_) fun ys _ => Reads.pure _
          have all : Plain (a ++ r) := plain_append.mpr ⟨root,plain⟩
          have valid : ValidName n := fs.named _ n (by rw [child]; simp)
          rw [join_name all.lexical valid.segment,List.append_assoc]
          rw [List.append_assoc] at child
          refine ih (by simp) (fun head => ?_) child ?_
          · -- only the top level has the metadata directory
            exfalso
            rw [List.head?_append_of_ne_nil _ more] at head
            exact outside head
          · simp only [List.length_append,List.length_singleton] at enough ⊢
            omega
        · have notDir : x.isDir = false := by
            by_contra other
            rw [Bool.not_eq_false] at other
            exact dir (by rw [FS.IsDir,at_]; exact other)
          rw [if_neg dir,if_pos (.inr notDir),gather_nil]
          simpa using Reads.pure _
      have whole := visited.bind fun v same => step v (by
        cases first : recorded nfc fs d r <;> rw [first] at same <;> cases same
        rfl)
      rw [bind_assoc] at whole
      exact whole

theorem reads_levels : Reads host fs levels (.ok (depth fs + 1)) := fun w same =>
  ⟨w,by rw [levels,same],same⟩

theorem locate_root (leads : fs.Leads a d) (root : Plain a) (base : Path) :
    ∃ mode, fs.node d = some (.dir mode) ∧ fs.locate false base (absText a) = .ok (d,.dir mode) := by
  obtain ⟨mode,at_⟩ := FS.isDir_iff.mp leads.1
  refine ⟨mode,at_,?_⟩
  rcases List.eq_nil_or_concat' a with rfl | ⟨b,n,rfl⟩
  · obtain ⟨dir,own,-⟩ := leads
    obtain ⟨pl,reached,same⟩ := own false
    cases reached
    cases same
    have comps : lookupComponents (absText []) = [dot] := by decide
    rw [FS.locate,FS.resolve,comps,if_neg (absText_ne_nil _),if_neg (by decide)]
    exact FS.present_some at_
  · obtain ⟨dir,own,-⟩ := leads
    obtain ⟨pl,reached,same⟩ := own false
    rw [FS.locate_absText (root n (by simp)).segment,FS.place_absText root,reached]
    refine (FS.present_some (same.symm ▸ at_)).trans ?_
    rw [same]

theorem reads_scan (quiet : host.Quiet) (leads : fs.Leads a d) (root : Plain a) :
    Reads host fs (scan nfc (absText a))
      ((gather (recorded nfc fs d) (contents fs d)).bind fun entries => .ok ⟨absText a,byRel entries⟩) := by
  obtain ⟨mode,at_,found⟩ := locate_root leads root host.cwd
  have looked : Reads host fs (lstat (absText a)) (.ok (.dir mode)) := Reads.query quiet (by rw [found]; rfl)
  have dir : fs.IsDir (d ++ []) := by rw [List.append_nil]; exact leads.1
  refine (looked.mapError_ok _).then_ ?_
  refine (Reads.require rfl _).then_ ?_
  refine (Reads.require rfl _).then_ ?_
  refine (looked.mapError_ok _).then_ ?_
  refine reads_levels.then_ ?_
  refine Reads.bind ?_ fun entries _ => Reads.pure _
  -- the root itself is visited first and gives no entry
  have top : Reads host fs (scanVisit nfc (absText a) (absText a) (.dir mode)) (.ok (.go,[])) := by
    unfold scanVisit
    rw [if_pos rfl]
    exact Reads.pure _
  rw [walkDir]
  refine top.then_ ?_
  dsimp only
  rw [if_neg (by simp [Node.isDir])]
  obtain ⟨entries,listed,read⟩ := reads_osReadDir quiet leads root plain_nil dir
  rw [List.append_nil] at listed read
  refine (read.mapError_ok _).then_ ?_
  rw [contents,← bind_ok (gather _ _)]
  refine Reads.bind (reads_children listed fun n x child => ?_) fun ys _ => Reads.pure _
  have valid : ValidName n := fs.named _ n (by rw [child]; simp)
  rw [join_name root.lexical valid.segment]
  refine reads_walkDir quiet leads root (by simp) (fun head => ?_) child ?_
  · rw [List.head?_cons,Option.some.injEq] at head
    rw [head]
  · simp only [List.length_append,List.length_singleton]
    omega

end scanning

end Integris.LocalSync
