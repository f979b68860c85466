import Integris.Confinement

/-! Calls that go through. On a host that refuses nothing, a call whose text leads to
an entry of an existing directory does its work and no more; where a directory on the
way is missing, the call says so; and `MkdirAll` makes what is missing. -/
namespace Integris.Posix

open Prog

namespace FS

/-- The text stands for the entry `n`, no link, of the existing directory `d`. -/
structure Stands (fs : FS) (base : Path) (s : Bytes) (d : Path) (n : Name) : Prop where
  dir : fs.IsDir d
  valid : ValidName n
  plain : ¬fs.IsLink (d ++ [n])
  text : endsInSlash s = false
  place : ∀ follow, fs.place follow base s = .ok (.entry d n)

/-- A directory on the way to what the text names is missing. -/
structure Lost (fs : FS) (base : Path) (s : Bytes) : Prop where
  text : endsInSlash s = false
  place : ∀ follow, fs.place follow base s = .error .noent

/-- A directory, or room for one. -/
def Free (fs : FS) (p : Path) : Prop := fs.node p = none ∨ fs.IsDir p

/-- A file, or room for one. -/
def Slot (fs : FS) (p : Path) : Prop := fs.node p = none ∨ ∃ mode data, fs.node p = some (.file mode data)

variable {fs : FS} {p : Path} {x : Node} {s : Bytes} {y : Path} {v : Option Node} {s' : Bytes} {a : α}
  {e : Errno} {env : ρ}

theorem Slot.plain (h : fs.Slot p) : ¬fs.IsLink p := by
  rcases h with none_ | ⟨mode,data,file⟩
  · simp [IsLink,none_]
  · simp [IsLink,file,Node.isLink]

theorem Free.plain (h : fs.Free p) : ¬fs.IsLink p := by
  rcases h with none_ | dir
  · simp [IsLink,none_]
  · exact dir.not_isLink

theorem Slot.childless (h : fs.Slot p) : fs.children p = [] := by
  refine childless_of_not_dir fun dir => ?_
  obtain ⟨mode,at_⟩ := isDir_iff.mp dir
  rcases h with none_ | ⟨_,_,file⟩
  · simp [none_] at at_
  · simp [file] at at_

theorem dir_of_entry {d : Path} {n : Name} (at_ : fs.node (d ++ [n]) = some x) : fs.IsDir d :=
  parent_isDir (at_ ▸ Option.some_ne_none x)

variable {pl : Place}

theorem present_some (at_ : fs.node pl.path = some x) : fs.present pl = .ok (pl.path,x) := by rw [present,at_]

theorem present_none (absent : fs.node pl.path = none) : fs.present pl = .error .noent := by rw [present,absent]

theorem locate_place {follow : Bool} {base : Path} (text : endsInSlash s = false) :
    fs.locate follow base s = (fs.place follow base s).bind fs.present := by
  rw [locate,lookupComponents,text]
  simp [place]

section named

variable {fs : FS} {base d p : Path} {n : Name} {s : Bytes} {follow : Bool}

theorem Stands.locate_present (h : fs.Stands base s d n) (at_ : fs.node (d ++ [n]) = some x) :
    fs.locate follow base s = .ok (d ++ [n],x) := by
  rw [locate_place h.text,h.place]
  exact present_some at_

theorem Stands.locate_absent (h : fs.Stands base s d n) (absent : fs.node (d ++ [n]) = none) :
    fs.locate follow base s = .error .noent := by
  rw [locate_place h.text,h.place]
  exact present_none absent

theorem Lost.locate (h : fs.Lost base s) : fs.locate follow base s = .error .noent := by
  rw [locate_place h.text,h.place]
  rfl

variable {cur : Path} {rest : List Name}

theorem pass_missing {jump : Path → List Name → Except Errno Place}
    (here : fs.IsDir cur) (down : ∀ m ∈ p, Down m) (way : ∀ r, r <+: p → fs.Free (cur ++ r))
    (absent : fs.node (cur ++ p) = none) (more : rest ≠ []) :
    fs.pass follow jump cur (p ++ rest) = .error .noent := by
  induction p generalizing cur with
  | nil =>
    rw [List.append_nil] at absent
    exact absurd absent here.present
  | cons m p ih =>
    have further : p ++ rest ≠ [] := by simp [more]
    rw [List.cons_append]
    rcases way [m] ⟨p,rfl⟩ with gone | dir
    · have stop : ¬fs.IsDir (cur ++ [m]) := fun dir => dir.present gone
      have plain : ¬fs.IsLink (cur ++ [m]) := by simp [IsLink,gone]
      rw [pass_blocked (down m List.mem_cons_self) stop plain further,if_pos gone]
    · rw [pass_dir (down m List.mem_cons_self) dir further]
      refine ih dir (fun x hx => down x (List.mem_cons_of_mem _ hx)) (fun r le => ?_) ?_
      · simpa using way (m :: r) (List.cons_prefix_cons.mpr ⟨rfl,le⟩)
      · simpa using absent

theorem walk_missing (budget : Nat) (here : fs.IsDir cur) (down : ∀ m ∈ p, Down m) (way : ∀ r, r <+: p → fs.Free (cur ++ r))
    (absent : fs.node (cur ++ p) = none) (more : rest ≠ []) :
    fs.walk follow budget cur (p ++ rest) = .error .noent := by
  cases budget <;> exact pass_missing here down way absent more

theorem walk_dirs (budget : Nat) (cur : Path) (here : fs.IsDir (cur ++ p)) (down : ∀ m ∈ p, Down m) (more : rest ≠ []) :
    fs.walk follow budget cur (p ++ rest) = fs.walk follow budget (cur ++ p) rest := by
  cases budget <;> exact pass_dirs cur here down more

end named

end FS

/-! Texts of paths below a root. -/

/-- An absolute text of the path `y`, perhaps with slashes behind it. -/
structure Spells (s : Bytes) (y : Path) : Prop where
  text : s ≠ []
  clean : (0 : UInt8) ∉ s
  rooted : isRooted s = true
  names : components s = y

theorem spells_absText (plain : Plain y) : Spells (absText y) y :=
  ⟨absText_ne_nil y,zero_not_mem_absText plain,isRooted_absText y,components_absText plain.lexical⟩

theorem spells_slashed (plain : Plain y) : Spells (slashed y) y := by
  by_cases h : y = []
  · subst h
    exact ⟨by decide,by decide,rfl,rfl⟩
  · refine ⟨by simp [slashed],?_,by simp [slashed,h,absText,isRooted],?_⟩
    · simp [slashed,h,zero_not_mem_absText plain,slash]
    · rw [slashed,if_neg h,components_append,components_absText plain.lexical]
      simp

section spelled

variable {fs : FS} {a d q : Path} {n : Name} {s : Bytes} {follow : Bool}

theorem Spells.place (h : Spells s y) (base : Path) : fs.place follow base s = fs.walk follow FS.maxLinks [] y := by
  rw [FS.place,FS.resolve,if_neg h.text,if_neg h.clean,h.rooted,if_pos rfl,h.names]

theorem Spells.locate (h : Spells s y) (base : Path) : fs.locate follow base s =
    (fs.walk follow FS.maxLinks [] (y ++ if endsInSlash s then [dot] else [])).bind fs.present := by
  rw [FS.locate,FS.resolve,if_neg h.text,if_neg h.clean,h.rooted,if_pos rfl,lookupComponents,h.names]

theorem Spells.locate_dir (h : Spells s (a ++ q)) (leads : fs.Leads a d) (plain : Plain q)
    (there : fs.IsDir (d ++ q)) (base : Path) : ∃ mode, fs.locate true base s = .ok (d ++ q,.dir mode) := by
  obtain ⟨mode,at_⟩ := FS.isDir_iff.mp there
  refine ⟨mode,?_⟩
  obtain ⟨here,own,budget,onward⟩ := leads
  have found (pl : Place) (same : pl.path = d ++ q) : fs.present pl = .ok (d ++ q,.dir mode) := by
    rw [FS.present,same,at_]
  rw [h.locate]
  split
  · rw [List.append_assoc,onward true _ (by simp),FS.walk_dirs budget d there plain.down (by simp)]
    cases budget <;> exact found (.top _) rfl
  · rw [List.append_nil]
    rcases List.eq_nil_or_concat' q with rfl | ⟨q,m,rfl⟩
    · obtain ⟨pl,reached,at_⟩ := own true
      rw [List.append_nil,reached]
      exact found pl (by simpa using at_)
    · rw [← List.append_assoc] at there
      rw [onward true _ (by simp),FS.walk_dir budget d (FS.parent_isDir there.present) plain.down fun _ => there.not_isLink]
      exact found (.entry _ _) (List.append_assoc ..)

theorem Spells.locate_missing (h : Spells s (a ++ q)) (leads : fs.Leads a d) (plain : Plain q)
    (way : ∀ r, r <+: q → fs.Free (d ++ r)) (absent : fs.node (d ++ q) = none) (base : Path) :
    fs.locate true base s = .error .noent := by
  obtain ⟨here,own,budget,onward⟩ := leads
  rw [h.locate]
  split
  · rw [List.append_assoc,onward true _ (by simp),FS.walk_missing budget here plain.down way absent (by simp)]
    rfl
  · rw [List.append_nil]
    rcases List.eq_nil_or_concat' q with rfl | ⟨q,m,rfl⟩
    · rw [List.append_nil] at absent
      exact absurd absent here.present
    · obtain ⟨front,last⟩ := plain_append.mp plain
      rw [onward true _ (by simp)]
      rcases way q (List.prefix_append _ _) with gone | dir
      · rw [FS.walk_missing budget here front.down (fun r le => way r (le.trans (List.prefix_append _ _))) gone (by simp)]
        rfl
      · rw [← List.append_assoc] at absent
        have plain' : ¬fs.IsLink (d ++ q ++ [m]) := by rw [FS.IsLink,absent]; simp
        rw [FS.walk_dir budget d dir plain.down fun _ => plain']
        exact FS.present_none absent

theorem Spells.stands (h : Spells s (a ++ (q ++ [n]))) (leads : fs.Leads a d) (plain : Plain (q ++ [n]))
    (text : endsInSlash s = false) (there : fs.IsDir (d ++ q)) (file : ¬fs.IsLink (d ++ q ++ [n]))
    (base : Path) : fs.Stands base s (d ++ q) n := by
  obtain ⟨-,-,budget,onward⟩ := leads
  refine ⟨there,(plain_append.mp plain).2 n (by simp),file,text,fun follow => ?_⟩
  rw [h.place,onward follow _ (by simp)]
  exact FS.walk_dir budget d there plain.down fun _ => file

theorem Spells.lost (h : Spells s (a ++ (q ++ [n]))) (leads : fs.Leads a d) (plain : Plain (q ++ [n]))
    (text : endsInSlash s = false) (way : ∀ r, r <+: q → fs.Free (d ++ r))
    (absent : fs.node (d ++ q) = none) (base : Path) : fs.Lost base s := by
  obtain ⟨here,-,budget,onward⟩ := leads
  refine ⟨text,fun follow => ?_⟩
  rw [h.place,onward follow _ (by simp)]
  exact FS.walk_missing budget here (plain_append.mp plain).1.down way absent (by simp)

theorem text_entry (valid : ValidName n) : endsInSlash (absText (a ++ (q ++ [n]))) = false := by
  rw [← List.append_assoc]
  exact endsInSlash_absText valid.segment

theorem stands_entry (leads : fs.Leads a d) (root : Plain a) (plain : Plain (q ++ [n]))
    (dir : fs.IsDir (d ++ q)) (file : ¬fs.IsLink (d ++ q ++ [n])) (base : Path) :
    fs.Stands base (absText (a ++ (q ++ [n]))) (d ++ q) n :=
  (spells_absText (plain_append.mpr ⟨root,plain⟩)).stands leads plain (text_entry (plain n (by simp))) dir file base

theorem lost_entry (leads : fs.Leads a d) (root : Plain a) (plain : Plain (q ++ [n]))
    (way : ∀ r, r <+: q → fs.Free (d ++ r)) (gone : fs.node (d ++ q) = none) (base : Path) :
    fs.Lost base (absText (a ++ (q ++ [n]))) :=
  (spells_absText (plain_append.mpr ⟨root,plain⟩)).lost leads plain (text_entry (plain n (by simp))) way gone base

end spelled

/-! What the calls do to the entry a text stands for. -/

namespace FS

section calls

variable {fs : FS} {base d : Path} {n : Name} {s : Bytes} {mode umask : Nat} {flags : OpenFlags}

theorem put_map (fits : fs.Fits p v) (a : α) :
    ∃ fs', (fs.put p v).map (a,·) = .ok (a,fs') ∧ fs'.node = Function.update fs.node p v :=
  ⟨fs.write p v fits,by rw [put_fits fits]; rfl,rfl⟩

theorem Stands.openCreate (h : fs.Stands base s d n) (create : flags.create = true) : fs.openat umask base s flags mode =
      match fs.node (d ++ [n]) with
      | none => (fs.put (d ++ [n]) (some (.file (masked (mode &&& 0o7777) umask) []))).map (d ++ [n],·)
      | some x => if flags.excl then .error .exist else openExisting flags (d ++ [n]) x fs := by
  rw [openat,if_pos create,FS.openCreate,h.text,h.place]
  rfl

theorem Stands.openat_new (h : fs.Stands base s d n) (absent : fs.node (d ++ [n]) = none)
    (create : flags.create = true) : ∃ fs', fs.openat umask base s flags mode = .ok (d ++ [n],fs') ∧
      fs'.node = Function.update fs.node (d ++ [n]) (some (.file (masked (mode &&& 0o7777) umask) [])) := by
  rw [h.openCreate create,absent]
  exact put_map (fits_new h.dir h.valid absent _) _

section existing

variable {old : Nat} {data : Bytes}

theorem Stands.openat_trunc (h : fs.Stands base s d n) (file : fs.node (d ++ [n]) = some (.file old data))
    (create : flags.create = true) (shared : flags.excl = false) (whole : flags.directory = false)
    (trunc : flags.trunc = true) : ∃ fs', fs.openat umask base s flags mode = .ok (d ++ [n],fs') ∧
      fs'.node = Function.update fs.node (d ++ [n]) (some (.file old [])) := by
  have fits : fs.Fits (d ++ [n]) (some (.file old [])) := fits_replace file rfl
  rw [h.openCreate create,file]
  simp only [shared,openExisting,whole,trunc]
  exact put_map fits _

theorem Stands.openat_fresh (h : fs.Stands base s d n) (slot : fs.Slot (d ++ [n])) (create : flags.create = true)
    (shared : flags.excl = false) (whole : flags.directory = false) (trunc : flags.trunc = true) :
    ∃ fs' final, fs.openat umask base s flags mode = .ok (d ++ [n],fs') ∧
      fs'.node = Function.update fs.node (d ++ [n]) (some (.file final [])) := by
  rcases slot with absent | ⟨old,data,file⟩
  · obtain ⟨fs',ran,changed⟩ := h.openat_new absent create
    exact ⟨fs',_,ran,changed⟩
  · obtain ⟨fs',ran,changed⟩ := h.openat_trunc file create shared whole trunc
    exact ⟨fs',_,ran,changed⟩

section

variable (h : fs.Stands base s d n) (file : fs.node (d ++ [n]) = some (.file old data))
include h file

theorem Stands.openat_keep (create : flags.create = true) (shared : flags.excl = false) (whole : flags.directory = false)
    (trunc : flags.trunc = false) : fs.openat umask base s flags mode = .ok (d ++ [n],fs) := by
  rw [h.openCreate create,file]
  simp [shared,openExisting,whole,trunc]

theorem Stands.openat_read (create : flags.create = false) (whole : flags.directory = false) (trunc : flags.trunc = false) :
    fs.openat umask base s flags mode = .ok (d ++ [n],fs) := by
  rw [openat,if_neg (by simp [create]),h.locate_present file]
  simp [openExisting,whole,trunc]

theorem Stands.fchmodat_file : ∃ fs', fs.fchmodat base s mode = .ok ((),fs') ∧
      fs'.node = Function.update fs.node (d ++ [n]) (some (.file (mode &&& 0o7777) data)) := by
  have fits : fs.Fits (d ++ [n]) (some (.file (mode &&& 0o7777) data)) := fits_replace file rfl
  rw [fchmodat,h.locate_present file]
  exact put_map fits _

end

theorem Stands.renameat_file {base' d' : Path} {n' : Name} (h : fs.Stands base s d n)
    (h' : fs.Stands base' s' d' n') (file : fs.node (d ++ [n]) = some (.file old data))
    (slot : fs.Slot (d' ++ [n'])) (apart : d ++ [n] ≠ d' ++ [n']) :
    ∃ fs', fs.renameat base s base' s' = .ok ((),fs') ∧ fs'.node =
      Function.update (Function.update fs.node (d ++ [n]) none) (d' ++ [n']) (some (.file old data)) := by
  have below : ¬d ++ [n] <+: d' ++ [n'] := by
    intro le
    rcases List.prefix_concat_iff.mp le with same | above
    · exact apart same
    · obtain ⟨m,dir⟩ := isDir_iff.mp (h'.dir.above above)
      simp [file] at dir
  have movable : fs.Movable (d ++ [n]) (d' ++ [n']) := by
    refine ⟨by simp,below,slot.childless,?_⟩
    simp only [List.getLast?_concat,List.dropLast_concat]
    exact ⟨h'.dir,h'.valid⟩
  have room : replaceable (.file old data) (fs.node (d' ++ [n'])) (fs.children (d' ++ [n'])).isEmpty = .ok () := by
    rcases slot with none_ | ⟨_,_,there⟩
    · rw [none_]
      rfl
    · rw [there]
      rfl
  refine ⟨fs.rename _ _ movable,?_,?_⟩
  · rw [renameat,h.place,h'.place,h.text,h'.text]
    simp only [file,apart,if_false,room,move,dif_pos movable]
    rfl
  · have leaf : fs.children (d ++ [n]) = [] := Slot.childless (.inr ⟨_,_,file⟩)
    rw [← file]
    exact moved_leaf leaf slot.childless

end existing

end calls

end FS

section runs

variable {host : Host} (quiet : host.Quiet) {w : World}

include quiet

variable {act : Host → FS → Except Errno (α × FS)} {c : Call} {look : Host → FS → Except Errno α}

theorem sys_run (ran : act host w.fs = .ok (a,fs)) : sys c act host w = (.ok a,w.next fs) := by
  simp only [sys,quiet c w.tick,ran]

theorem sys_failed (ran : act host w.fs = .error e) : sys c act host w = (.error e,w.next w.fs) := by
  simp only [sys,quiet c w.tick,ran]

theorem query_run (ran : look host w.fs = .ok a) : query c look host w = (.ok a,w.next w.fs) :=
  sys_run quiet (by rw [ran]; rfl)

theorem query_failed (ran : look host w.fs = .error e) : query c look host w = (.error e,w.next w.fs) :=
  sys_failed quiet (by rw [ran]; rfl)

end runs

/-! `MkdirAll`. -/

/-- New directories on the way from `d` down `q`, and nothing else. -/
def Deepens (fs fs' : FS) (d q : Path) : Prop := ∀ x, fs'.node x = fs.node x ∨
  fs.node x = none ∧ fs'.IsDir x ∧ ∃ r, r <+: q ∧ r ≠ [] ∧ x = d ++ r

theorem Deepens.refl (fs : FS) (d q : Path) : Deepens fs fs d q := fun _ => .inl rfl

theorem Deepens.confined {fs fs' : FS} {d q : Path} (h : Deepens fs fs' d q) :
    Confined fs (fun x => ∃ r, r <+: q ∧ r ≠ [] ∧ x = d ++ r) fs' where
  outside x out := (h x).resolve_right fun new => out new.2.2
  links x link := by
    rcases h x with same | ⟨-,dir,-⟩
    · rwa [FS.IsLink,same] at link
    · exact absurd link dir.not_isLink

theorem Deepens.kept {fs fs' : FS} {d q x : Path} {y : Node} (h : Deepens fs fs' d q) (at_ : fs.node x = some y) :
    fs'.node x = some y := by
  rcases h x with same | ⟨gone,-⟩
  · rw [same,at_]
  · simp [at_] at gone

theorem Deepens.free {fs fs' : FS} {d q x : Path} (h : Deepens fs fs' d q) (free : fs.Free x) : fs'.Free x := by
  rcases h x with same | ⟨-,dir,-⟩
  · rwa [FS.Free,FS.IsDir,same]
  · exact .inr dir

theorem Deepens.apart {fs fs' : FS} {d q x : Path} (h : Deepens fs fs' d q) (other : ∀ r, r <+: q → d ++ r ≠ x) :
    fs'.node x = fs.node x := by
  rcases h x with same | ⟨-,-,r,le,-,at_⟩
  · exact same
  · exact absurd at_.symm (other r le)

section mkdirAll

variable {host : Host} {w : World} {a d q : Path} {Area : Path → Prop}

theorem mkdirAllFrom_there (quiet : host.Quiet) {mode : Nat} (perm rounds : Nat)
    (found : w.fs.locate true host.cwd s = .ok (p,.dir mode)) :
    mkdirAllFrom perm rounds s host w = (.ok (),w.next w.fs) := by
  have seen : stat s host w = (.ok (.dir mode),w.next w.fs) := query_run quiet (by rw [found]; rfl)
  cases rounds <;>
  · rw [mkdirAllFrom,bind_run (attempt_run seen)]
    exact require_run rfl _ _ _

theorem parentText_spelled {m : Name} (valid : Segment m)
    (form : s = absText (q ++ [m]) ∨ s = slashed (q ++ [m])) : parentText s = slashed q := by
  rcases form with rfl | rfl
  · rw [absText_eq_slashed,parentText_name valid]
  · exact parentText_slashed valid

theorem mkdirAllFrom_run (quiet : host.Quiet) (anchored : w.fs.Anchored Area a d) (root : Plain a)
    (plain : Plain q) (area : ∀ r, r <+: q → r ≠ [] → Area (d ++ r))
    (way : ∀ r, r <+: q → w.fs.Free (d ++ r)) (perm : Nat) {rounds : Nat}
    (form : s = absText (a ++ q) ∨ s = slashed (a ++ q)) (enough : q.length ≤ rounds) :
    ∃ w', mkdirAllFrom perm rounds s host w = (.ok (),w') ∧ w'.fs.IsDir (d ++ q) ∧
      Deepens w.fs w'.fs d q := by
  have spelled : Spells s (a ++ q) := by
    have names : Plain (a ++ q) := plain_append.mpr ⟨root,plain⟩
    rcases form with rfl | rfl
    · exact spells_absText names
    · exact spells_slashed names
  have leads : w.fs.Leads a d := anchored w.fs fun _ _ => rfl
  induction q using List.reverseRecOn generalizing rounds s w with
  | nil =>
    have there : w.fs.IsDir (d ++ []) := by simpa using leads.1
    obtain ⟨mode,found⟩ := spelled.locate_dir leads plain there host.cwd
    exact ⟨w.next w.fs,mkdirAllFrom_there quiet perm rounds found,there,Deepens.refl _ _ _⟩
  | append_singleton q m ih =>
    by_cases there : w.fs.IsDir (d ++ (q ++ [m]))
    · obtain ⟨mode,found⟩ := spelled.locate_dir leads plain there host.cwd
      exact ⟨w.next w.fs,mkdirAllFrom_there quiet perm rounds found,there,Deepens.refl _ _ _⟩
    · obtain ⟨front,last⟩ := plain_append.mp plain
      have valid : ValidName m := last m (by simp)
      have absent : w.fs.node (d ++ (q ++ [m])) = none := (way _ (List.prefix_refl _)).resolve_right there
      have unseen : stat s host w = (.error .noent,w.next w.fs) :=
        query_failed quiet (by rw [spelled.locate_missing leads plain way absent host.cwd]; rfl)
      obtain ⟨k,rfl⟩ : ∃ k, rounds = k + 1 := Nat.exists_eq_add_of_le' (by simp at enough; omega)
      have up : parentText s = slashed (a ++ q) := by
        rw [← List.append_assoc] at form
        exact parentText_spelled valid.segment form
      obtain ⟨w₁,above,dir,grown⟩ : ∃ w', mkdirAllFrom perm k (parentText s) host (w.next w.fs) = (.ok (),w') ∧
          w'.fs.IsDir (d ++ q) ∧ Deepens w.fs w'.fs d q :=
        ih (w := w.next w.fs) anchored front (fun r le => area r (le.trans (List.prefix_append _ _)))
          (fun r le => way r (le.trans (List.prefix_append _ _))) (.inr up) (by simp at enough; omega)
          (up ▸ spells_slashed (plain_append.mpr ⟨root,front⟩)) leads
      -- the directory itself, in the tree that has its parent
      have same : ∀ x, ¬Area x → w₁.fs.node x = w.fs.node x := fun x out =>
        grown.confined.outside x fun ⟨r,le,ne,at_⟩ =>
          out (at_ ▸ area r (le.trans (List.prefix_append _ _)) ne)
      obtain ⟨-,-,budget,onward⟩ := anchored w₁.fs same
      have still : w₁.fs.node (d ++ q ++ [m]) = none := by
        rw [List.append_assoc,grown.confined.outside _ ?_]
        · exact absent
        · rintro ⟨r,le,-,at_⟩
          have := le.length_le
          rw [← List.append_cancel_left at_] at this
          simp at this
      have placed : w₁.fs.place false host.cwd s = .ok (.entry (d ++ q) m) := by
        rw [spelled.place,onward false _ (by simp)]
        exact FS.walk_dir budget d dir plain.down (by simp)
      obtain ⟨fs',made⟩ := FS.mkdirat_works placed dir valid still host.umask (syscallMode perm)
      obtain ⟨_,_,placed',-,changed⟩ := FS.mkdirat_ok made
      rw [placed] at placed'
      cases placed'
      have ran : mkdir s perm host w₁ = (.ok (),w₁.next fs') := sys_run quiet made
      refine ⟨w₁.next fs',?_,?_,?_⟩
      · rw [mkdirAllFrom,bind_run (attempt_failed unseen)]
        dsimp only
        rw [when_run (by rw [up]; simp [slashed]),bind_run above,makeDirectory,
          bind_run (attempt_run ran)]
        rfl
      · rw [← List.append_assoc]
        exact FS.isDir_iff.mpr ⟨_,by rw [World.next_fs,changed,Function.update_self]⟩
      · intro x
        by_cases new : x = d ++ q ++ [m]
        · subst new
          right
          rw [List.append_assoc]
          refine ⟨absent,?_,q ++ [m],List.prefix_refl _,by simp,rfl⟩
          rw [← List.append_assoc]
          exact FS.isDir_iff.mpr ⟨_,by rw [World.next_fs,changed,Function.update_self]⟩
        · rw [World.next_fs,FS.IsDir,changed,Function.update_of_ne new]
          rcases grown x with kept | ⟨gone,isDir,r,le,ne,at_⟩
          · exact .inl kept
          · exact .inr ⟨gone,isDir,r,le.trans (List.prefix_append _ _),ne,at_⟩

theorem mkdirAll_run (quiet : host.Quiet) (anchored : w.fs.Anchored Area a d) (root : Plain a)
    (plain : Plain q) (area : ∀ r, r <+: q → r ≠ [] → Area (d ++ r))
    (way : ∀ r, r <+: q → w.fs.Free (d ++ r)) (perm : Nat) :
    ∃ w', mkdirAll (absText (a ++ q)) perm host w = (.ok (),w') ∧ w'.fs.IsDir (d ++ q) ∧ Deepens w.fs w'.fs d q := by
  refine mkdirAllFrom_run quiet anchored root plain area way perm (.inl rfl) ?_
  rw [components_absText (plain_append.mpr ⟨root,plain⟩ : Plain _).lexical,List.length_append]
  omega

end mkdirAll

/-! Package `os` on the entry a text stands for. -/

theorem Confined.trans {fs₀ fs₁ fs₂ : FS} {A B : Path → Prop} (h : Confined fs₀ A fs₁) (h' : Confined fs₁ B fs₂)
    (sub : ∀ p, B p → A p) : Confined fs₀ A fs₂ where
  outside p out := (h'.outside p fun inside => out (sub p inside)).trans (h.outside p out)
  links p link := h.links p (h'.links p link)

theorem FS.Anchored.of_confined {fs fs' : FS} {Area : Path → Prop} {a d : Path} (h : fs.Anchored Area a d)
    (conf : Confined fs Area fs') : fs'.Anchored Area a d :=
  fun fs₂ same => h fs₂ fun p out => (same p out).trans (conf.outside p out)

theorem confined_update {fs fs' : FS}
    (changed : fs'.node = Function.update fs.node p v) (plain : v.any Node.isLink = false) :
    Confined fs (· = p) fs' :=
  (Confined.refl fs _).change changed rfl fun link => absurd (plain.symm.trans link) nofun

theorem ignore_run {m : Prog ρ σ ε α} {s t : σ} (run : m env s = (.ok a,t)) :
    (ignore m : Prog ρ σ ε' Unit) env s = (.ok (),t) := by
  rw [ignore,bind_run (attempt_run run)]
  rfl

theorem ignore_failed {m : Prog ρ σ ε α} {s t : σ} {e : ε} (run : m env s = (.error e,t)) :
    (ignore m : Prog ρ σ ε' Unit) env s = (.ok (),t) := by
  rw [ignore,bind_run (attempt_failed run)]
  rfl

theorem ignore_bind_run {m : Prog ρ σ ε α} {f : α → Prog ρ σ ε β} {s t : σ} (run : m env s = (.ok a,t)) :
    (ignore (m >>= f) : Prog ρ σ ε' Unit) env s = (ignore (f a) : Prog ρ σ ε' Unit) env t := by
  simp only [ignore,bind,Prog.bind,attempt,run]

/-- The process lives through it. -/
def Survives (host : Host) (m : Prog Host World ε α) : Prop :=
  ∀ w, wp m host w (fun _ _ => True) (fun _ _ => True) fun _ => False

namespace Survives

variable {host : Host}

theorem pure (a : α) : Survives host (Pure.pure a : Prog Host World ε α) := fun _ => trivial

theorem throw (e : ε) : Survives host (Prog.throw e : Prog Host World ε α) := fun _ => trivial

variable {m : Prog Host World ε α}

theorem bind {f : α → Prog Host World ε β} (first : Survives host m)
    (rest : ∀ a, Survives host (f a)) : Survives host (m >>= f) :=
  fun w => wp_bind.mpr ((first w).imp (fun a w' _ => rest a w'))

section

variable (h : Survives host m)
include h

theorem attempt : Survives host (Prog.attempt m : Prog Host World ε' (Except ε α)) :=
  fun w => wp_attempt.mpr ((h w).imp (fun _ _ h => h))

theorem mapError (f : ε → ε') : Survives host (Prog.mapError f m) := fun w => wp_mapError.mpr ((h w).imp (fun _ _ h => h))

theorem ignore : Survives host (Prog.ignore m : Prog Host World ε' Unit) := h.attempt.bind fun _ => pure _

theorem onError {cleanup : Prog Host World ε' Unit}
    (h' : Survives host cleanup) : Survives host (Prog.onError m cleanup) := by
  refine h.attempt.bind fun r => ?_
  cases r with
  | ok a => exact pure a
  | error e => exact h'.ignore.bind fun _ => throw e

end

theorem require (p : Prop) [Decidable p] (e : ε) : Survives host (Prog.require p e : Prog Host World ε Unit) :=
  fun _ => wp_require.mpr ⟨fun _ => trivial,fun _ => trivial⟩

theorem when (p : Prop) [Decidable p] {m : Prog Host World ε Unit} (h : Survives host m) :
    Survives host (Prog.when p m) := fun w => wp_when.mpr ⟨fun _ => h w,fun _ => trivial⟩

section

variable (quiet : host.Quiet)
include quiet

theorem sys (c : Call) (act : Host → FS → Except Errno (α × FS)) : Survives host (Posix.sys c act) :=
  fun _ => wp_sys (fun _ _ _ => trivial) (fun _ _ => trivial) fun faulty => absurd (quiet c) faulty

theorem pwrite (p : Path) (offset : Nat) (data : Bytes) : Survives host (Posix.pwrite p offset data) :=
  fun _ => wp_pwrite (fun _ _ => trivial) (fun _ _ => trivial) fun faulty => absurd (quiet .write) faulty

theorem query (c : Call) (look : Host → FS → Except Errno α) : Survives host (Posix.query c look) := sys quiet _ _

theorem writeFile (s data : Bytes) (perm : Nat) : Survives host (Posix.writeFile s data perm) := by
  have closed (f : Path) : Survives host (close f) := query quiet _ _
  refine Survives.bind (sys quiet _ _) fun f => (pwrite quiet _ _ _).attempt.bind fun r => ?_
  cases r with
  | ok _ => exact closed f
  | error e => exact (closed f).ignore.bind fun _ => throw e

theorem rename (old new : Bytes) : Survives host (Posix.rename old new) := by
  have looked (s : Bytes) : Survives host (lstat s) := query quiet _ _
  refine Survives.bind ?_ fun _ => (sys quiet _ _ : Survives host (renameCall old new))
  refine (looked new).attempt.bind fun r => ?_
  cases r with
  | ok x => exact when _ ((looked old).bind fun _ => throw _)
  | error _ => exact pure _

end

theorem ignored {I : World → Prop} {w : World} (h : Survives host m) (keeps : Keeps host I m) (inv : I w) :
    ∃ w', (Prog.ignore m : Prog Host World ε' Unit) host w = (.ok (),w') ∧ I w' := by
  have both := (h w).and (keeps w inv)
  unfold wp at both
  rcases run : m host w with ⟨a | e | _,w'⟩ <;> rw [run] at both
  · exact ⟨w',ignore_run run,both.2⟩
  · exact ⟨w',ignore_failed run,both.2⟩
  · exact both.1.elim

end Survives

section os

variable {host : Host} {w : World} {d : Path} {n : Name} {s : Bytes} {mode : Nat} {data : Bytes}

variable (quiet : host.Quiet)

include quiet

theorem lstat_present (stands : w.fs.Stands host.cwd s d n) (at_ : w.fs.node (d ++ [n]) = some x) :
    lstat s host w = (.ok x,w.next w.fs) :=
  query_run quiet (by rw [stands.locate_present at_]; rfl)

theorem lstat_missing (lost : w.fs.locate false host.cwd s = .error e) : lstat s host w = (.error e,w.next w.fs) :=
  query_failed quiet (by rw [lost]; rfl)

theorem remove_erases (names : Names host.cwd (· = p) s w.fs) :
    ∃ w', (ignore (remove s) : Prog Host World ε Unit) host w = (.ok (),w') ∧
      (w'.fs.node = w.fs.node ∨ w'.fs.node = Function.update w.fs.node p none) := by
  rcases ran : w.fs.unlinkat host.cwd s with e | ⟨⟨⟩,fs'⟩
  · have refused : unlink s host w = (.error e,w.next w.fs) := sys_failed quiet ran
    rcases ran' : w.fs.rmdirat host.cwd s with e' | ⟨⟨⟩,fs'⟩
    · have refused' : rmdir s host (w.next w.fs) = (.error e',(w.next w.fs).next w.fs) := sys_failed quiet ran'
      refine ⟨(w.next w.fs).next w.fs,?_,.inl rfl⟩
      refine ignore_failed (e := if e' ≠ .notdir then e' else e) ?_
      rw [remove,bind_run (attempt_failed refused)]
      exact mapError_failed _ refused'
    · obtain ⟨d,n,where_,-,-,changed⟩ := FS.rmdirat_ok ran'
      have gone : rmdir s host (w.next w.fs) = (.ok (),(w.next w.fs).next fs') := sys_run quiet ran'
      refine ⟨(w.next w.fs).next fs',ignore_run (a := ()) ?_,.inr (names d n where_ ▸ changed)⟩
      rw [remove,bind_run (attempt_failed refused)]
      exact mapError_run _ gone
  · obtain ⟨d,n,x,where_,-,-,changed⟩ := FS.unlinkat_ok ran
    have gone : unlink s host w = (.ok (),w.next fs') := sys_run quiet ran
    refine ⟨w.next fs',ignore_run (a := ()) ?_,.inr (names d n where_ ▸ changed)⟩
    rw [remove,bind_run (attempt_run gone)]
    rfl

theorem readFile_present (stands : w.fs.Stands host.cwd s d n) (file : w.fs.node (d ++ [n]) = some (.file mode data)) :
    ∃ w', readFile s host w = (.ok data,w') ∧ w'.fs = w.fs := by
  have opened : openFile s {} 0 host w = (.ok (d ++ [n]),w.next w.fs) := sys_run quiet (stands.openat_read file rfl rfl rfl)
  have read : readAll (d ++ [n]) host (w.next w.fs) = (.ok data,(w.next w.fs).next w.fs) :=
    query_run quiet (by rw [World.next_fs,FS.readAll,file])
  have closed : close (d ++ [n]) host ((w.next w.fs).next w.fs) =
      (.ok (),((w.next w.fs).next w.fs).next w.fs) := query_run quiet rfl
  refine ⟨((w.next w.fs).next w.fs).next w.fs,?_,rfl⟩
  rw [readFile,bind_run opened,bind_run read,bind_run (ignore_run closed)]
  rfl

theorem readFile_missing (lost : w.fs.locate true host.cwd s = .error e) :
    ∃ w', readFile s host w = (.error e,w') ∧ w'.fs = w.fs := by
  have refused : openFile s {} 0 host w = (.error e,w.next w.fs) := sys_failed quiet (by simp [FS.openat,lost])
  exact ⟨_,bind_failed refused,rfl⟩

theorem rename_run {d' : Path} {n' : Name} (stands : w.fs.Stands host.cwd s d n)
    (stands' : w.fs.Stands host.cwd s' d' n') (file : w.fs.node (d ++ [n]) = some (.file mode data))
    (slot : w.fs.Slot (d' ++ [n'])) (apart : d ++ [n] ≠ d' ++ [n']) :
    ∃ w', rename s s' host w = (.ok (),w') ∧ w'.fs.node =
      Function.update (Function.update w.fs.node (d ++ [n]) none) (d' ++ [n']) (some (.file mode data)) := by
  have looked : refuseDirectory s s' host w = (.ok (),w.next w.fs) := by
    rcases slot with none_ | ⟨_,_,there⟩
    · rw [refuseDirectory,bind_run (attempt_failed (lstat_missing quiet (stands'.locate_absent none_)))]
      rfl
    · rw [refuseDirectory,bind_run (attempt_run (lstat_present quiet stands' there))]
      rfl
  obtain ⟨fs',moved,changed⟩ := stands.renameat_file stands' file slot apart
  have ran : renameCall s s' host (w.next w.fs) = (.ok (),(w.next w.fs).next fs') := sys_run quiet moved
  refine ⟨(w.next w.fs).next fs',?_,changed⟩
  rw [rename,bind_run looked]
  exact ran

theorem chmod_run (stands : w.fs.Stands host.cwd s d n) (file : w.fs.node (d ++ [n]) = some (.file mode data))
    (perm : Nat) : ∃ w', chmod s perm host w = (.ok (),w') ∧ w'.fs.node =
      Function.update w.fs.node (d ++ [n]) (some (.file (syscallMode perm &&& 0o7777) data)) := by
  obtain ⟨fs',ran,changed⟩ := stands.fchmodat_file file
  exact ⟨w.next fs',sys_run quiet ran,changed⟩

theorem pwrite_run (file : w.fs.node p = some (.file mode data)) (offset : Nat) (new : Bytes) :
    ∃ w', pwrite p offset new host w = (.ok (),w') ∧ w'.fs.node =
      Function.update w.fs.node p (some (.file mode (FS.spliced data offset new))) := by
  obtain ⟨fs',ran⟩ := FS.pwrite_works file offset new
  obtain ⟨_,_,at_,changed⟩ := FS.pwrite_ok ran
  rw [file] at at_
  cases at_
  refine ⟨w.next fs',?_,changed⟩
  simp only [pwrite,quiet .write w.tick,ran]

end os

end Integris.Posix
