import Integris.Bytes
import Mathlib.Data.List.Sort
import Mathlib.Data.List.Dedup
import Mathlib.Data.List.Infix
import Mathlib.Logic.Function.Basic

/-! A POSIX file tree and the calls on it: objects by canonical path, name
resolution through `.`, `..` and symbolic links, and each call as a function of
the tree that fails with an error number or yields a value and the next tree.
Permissions and hard links are not modelled. -/
namespace Integris.Posix

abbrev Name := Bytes

/-- The canonical path of an object: names of real directories from `/` down. -/
abbrev Path := List Name

def slash : UInt8 := 47
def dot : Name := [46]
def dotdot : Name := [46,46]

/-- What a directory entry can be called. -/
def ValidName (n : Name) : Prop :=
  n ≠ [] ∧ n ≠ dot ∧ n ≠ dotdot ∧ slash ∉ n ∧ (0 : UInt8) ∉ n

instance (n : Name) : Decidable (ValidName n) := inferInstanceAs (Decidable (_ ∧ _ ∧ _ ∧ _ ∧ _))

inductive Errno where
  | noent | exist | notdir | isdir | notempty | loop | inval | nxio | busy | nosys
  | nospc | dquot | perm | acces | io | badf
  deriving DecidableEq, Repr

inductive Special where
  | pipe | socket | device
  deriving DecidableEq, Repr

inductive Node where
  | dir (mode : Nat)
  | file (mode : Nat) (data : Bytes)
  | link (target : Bytes)
  | special (kind : Special)
  deriving DecidableEq, Repr

def Node.isDir : Node → Bool
  | .dir _ => true
  | _ => false

def Node.isLink : Node → Bool
  | .link _ => true
  | _ => false

/-- A finite tree: every object sits in a directory under a legal name. -/
structure FS where
  node : Path → Option Node
  support : List Path
  finite : ∀ p, node p ≠ none → p ∈ support
  root : ∃ mode, node [] = some (.dir mode)
  closed : ∀ p n, node (p ++ [n]) ≠ none → ∃ mode, node p = some (.dir mode)
  named : ∀ p n, node (p ++ [n]) ≠ none → ValidName n

namespace FS

def IsDir (fs : FS) (p : Path) : Prop := (fs.node p).any Node.isDir = true

instance (fs : FS) (p : Path) : Decidable (fs.IsDir p) := inferInstanceAs (Decidable (_ = true))

variable {p : Path} {n : Name} {v : Option Node}

theorem isDir_iff {fs : FS} : fs.IsDir p ↔ ∃ mode, fs.node p = some (.dir mode) := by
  unfold IsDir
  rcases fs.node p with _ | ⟨_ | _ | _ | _⟩ <;> simp [Node.isDir]

theorem root_isDir (fs : FS) : fs.IsDir [] := isDir_iff.mpr fs.root

theorem parent_isDir {fs : FS} (h : fs.node (p ++ [n]) ≠ none) : fs.IsDir p := isDir_iff.mpr (fs.closed p n h)

theorem IsDir.present {fs : FS} (h : fs.IsDir p) : fs.node p ≠ none := by
  obtain ⟨mode,at_⟩ := isDir_iff.mp h
  simp [at_]

theorem IsDir.above {fs : FS} {p q : Path} (h : fs.IsDir q) (le : p <+: q) : fs.IsDir p := by
  induction q using List.reverseRecOn with
  | nil => rw [List.prefix_nil.mp le]; exact h
  | append_singleton q n ih =>
    rcases List.prefix_concat_iff.mp le with rfl | shorter
    · exact h
    · exact ih (parent_isDir h.present) shorter

theorem isDir_of_present {fs : FS} {p q : Path} (h : fs.node q ≠ none) (le : p <+: q) (ne : p ≠ q) : fs.IsDir p := by
  rcases List.eq_nil_or_concat' q with rfl | ⟨q,n,rfl⟩
  · exact absurd (List.prefix_nil.mp le) ne
  · rcases List.prefix_concat_iff.mp le with rfl | shorter
    · exact absurd rfl ne
    · exact (parent_isDir h).above shorter

/-- The names in a directory, in byte order. -/
def children (fs : FS) (d : Path) : List Name :=
  ((fs.support.filter fun p => p ≠ [] ∧ p.dropLast = d ∧ fs.node p ≠ none).filterMap
    List.getLast?).dedup.insertionSort (· ≤ ·)

variable {d : Path}

theorem mem_children {fs : FS} : n ∈ fs.children d ↔ fs.node (d ++ [n]) ≠ none := by
  simp only [children,List.mem_insertionSort,List.mem_dedup,List.mem_filterMap,List.mem_filter,decide_eq_true_eq]
  constructor
  · rintro ⟨p,⟨-,ne,rfl,present⟩,last⟩
    rwa [List.dropLast_append_getLast? n last]
  · intro present
    exact ⟨d ++ [n],⟨fs.finite _ present,by simp,by simp,present⟩,by simp⟩

theorem children_nodup (fs : FS) (d : Path) : (fs.children d).Nodup :=
  (List.perm_insertionSort _ _).nodup_iff.mpr (List.nodup_dedup _)

theorem children_sorted (fs : FS) (d : Path) : (fs.children d).Pairwise (· ≤ ·) := List.pairwise_insertionSort _ _

theorem childless_iff {fs : FS} : fs.children d = [] ↔ ∀ n, fs.node (d ++ [n]) = none := by
  simp only [List.eq_nil_iff_forall_not_mem,mem_children,not_not]

/-- May the object on `p` become `v`? -/
def Fits (fs : FS) (p : Path) (v : Option Node) : Prop :=
  (match p.getLast? with
    | none => v.any Node.isDir = true
    | some n => fs.IsDir p.dropLast ∧ ValidName n) ∧
  (v.any Node.isDir = true ∨ fs.children p = [])

instance (fs : FS) (p : Path) (v : Option Node) : Decidable (fs.Fits p v) := by
  unfold Fits
  cases p.getLast? <;> infer_instance

theorem fits_root {fs : FS} : fs.Fits [] v ↔ v.any Node.isDir = true := by
  simp only [Fits,List.getLast?_nil]
  exact ⟨And.left,fun h => ⟨h,.inl h⟩⟩

theorem fits_entry {fs : FS} : fs.Fits (d ++ [n]) v ↔
      (fs.IsDir d ∧ ValidName n) ∧ (v.any Node.isDir = true ∨ fs.children (d ++ [n]) = []) := by
  simp [Fits]

def write (fs : FS) (p : Path) (v : Option Node) (fits : fs.Fits p v) : FS where
  node := Function.update fs.node p v
  support := p :: fs.support
  finite := by
    intro q present
    by_cases h : q = p
    · simp [h]
    · rw [Function.update_of_ne h] at present
      exact List.mem_cons_of_mem _ (fs.finite q present)
  root := by
    by_cases h : p = []
    · subst h
      rw [Function.update_self]
      obtain _ | ⟨_ | _ | _ | _⟩ := v <;> simp [fits_root,Node.isDir] at fits ⊢
    · rw [Function.update_of_ne (Ne.symm h)]
      exact fs.root
  closed := by
    intro q n present
    by_cases child : q ++ [n] = p
    · subst child
      obtain ⟨mode,at_⟩ := isDir_iff.mp (fits_entry.mp fits).1.1
      exact ⟨mode,by rw [Function.update_of_ne (by simp),at_]⟩
    · rw [Function.update_of_ne child] at present
      by_cases same : q = p
      · subst same
        rw [Function.update_self]
        rcases fits.2 with dir | empty
        · obtain _ | ⟨_ | _ | _ | _⟩ := v <;> simp [Node.isDir] at dir ⊢
        · exact absurd (childless_iff.mp empty n) present
      · rw [Function.update_of_ne same]
        exact fs.closed q n present
  named := by
    intro q n present
    by_cases child : q ++ [n] = p
    · subst child
      exact (fits_entry.mp fits).1.2
    · rw [Function.update_of_ne child] at present
      exact fs.named q n present

/-- Replace what is on `p`; an illegal change is refused. -/
def put (fs : FS) (p : Path) (v : Option Node) : Except Errno FS :=
  if fits : fs.Fits p v then .ok (fs.write p v fits) else .error .notdir

theorem put_ok {fs fs' : FS} (h : fs.put p v = .ok fs') : fs'.node = Function.update fs.node p v := by
  unfold put at h
  split at h
  · cases h; rfl
  · cases h

theorem put_fits {fs : FS} (fits : fs.Fits p v) : fs.put p v = .ok (fs.write p v fits) := dif_pos fits

/-- Just the root directory. -/
def empty : FS where
  node p := if p = [] then some (.dir 0o755) else none
  support := [[]]
  finite := by intro p h; by_cases e : p = [] <;> simp [e] at h ⊢
  root := ⟨0o755,by simp⟩
  closed := by intro p n h; simp at h
  named := by intro p n h; simp at h

/-- A tree given object by object, directories first. -/
def build (objects : List (Path × Node)) : FS :=
  objects.foldl (fun fs x => match fs.put x.1 (some x.2) with
    | .ok next => next
    | .error _ => fs) empty

/-- A subtree may go to `q` if `q` is in another directory's reach and has nothing below. -/
def Movable (fs : FS) (p q : Path) : Prop :=
  p ≠ [] ∧ ¬ p <+: q ∧ fs.children q = [] ∧
    match q.getLast? with
    | none => False
    | some n => fs.IsDir q.dropLast ∧ ValidName n

instance (fs : FS) (p q : Path) : Decidable (fs.Movable p q) := by
  unfold Movable
  cases q.getLast? <;> infer_instance

def moved (fs : FS) (p q : Path) : Path → Option Node := fun x =>
  if q <+: x then fs.node (p ++ x.drop q.length)
  else if p <+: x then none
  else fs.node x

def rename (fs : FS) (p q : Path) (ok : fs.Movable p q) : FS where
  node := fs.moved p q
  support := fs.support ++ fs.support.map fun x => q ++ x.drop p.length
  finite := by
    intro x present
    simp only [moved] at present
    split at present
    · next below =>
      obtain ⟨r,rfl⟩ := below
      rw [List.drop_left] at present
      apply List.mem_append_right
      exact List.mem_map.mpr ⟨p ++ r,fs.finite _ present,by simp⟩
    · split at present
      · exact absurd rfl present
      · exact List.mem_append_left _ (fs.finite _ present)
  root := by
    obtain ⟨nonroot,-,-,parent⟩ := ok
    have target : q ≠ [] := by rintro rfl; exact parent
    simp only [moved,List.prefix_nil,target,nonroot,if_false]
    exact fs.root
  closed := by
    intro x n present
    obtain ⟨-,apart,empty,parent⟩ := ok
    simp only [moved] at present ⊢
    split at present
    · next below =>
      rcases List.prefix_concat_iff.mp below with rfl | deeper
      · -- the new entry itself: its directory is neither moved nor below it
        have kept : ¬ p <+: x := fun h => apart (h.trans (List.prefix_append _ _))
        have outside : ¬ (x ++ [n]) <+: x := fun h => by
          have := h.length_le
          simp at this
        rw [if_neg outside,if_neg kept]
        simp only [List.getLast?_concat,List.dropLast_concat] at parent
        exact isDir_iff.mp parent.1
      · obtain ⟨r,rfl⟩ := deeper
        rw [if_pos (List.prefix_append _ _),List.drop_left]
        rw [List.append_assoc,List.drop_left,← List.append_assoc] at present
        exact fs.closed _ n present
    · next outside =>
      split at present
      · exact absurd rfl present
      · next kept =>
        have above : ¬ q <+: x := fun h => outside (h.trans (List.prefix_append _ _))
        have still : ¬ p <+: x := fun h => kept (h.trans (List.prefix_append _ _))
        rw [if_neg above,if_neg still]
        exact fs.closed x n present
  named := by
    intro x n present
    obtain ⟨-,-,-,parent⟩ := ok
    simp only [moved] at present
    split at present
    · next below =>
      rcases List.prefix_concat_iff.mp below with rfl | deeper
      · simp only [List.getLast?_concat] at parent
        exact parent.2
      · obtain ⟨r,rfl⟩ := deeper
        rw [List.append_assoc,List.drop_left,← List.append_assoc] at present
        exact fs.named _ n present
    · split at present
      · exact absurd rfl present
      · exact fs.named x n present

def move (fs : FS) (p q : Path) : Except Errno FS :=
  if ok : fs.Movable p q then .ok (fs.rename p q ok) else .error .inval

theorem move_ok {fs fs' : FS} {p q : Path} (h : fs.move p q = .ok fs') : fs.Movable p q ∧ fs'.node = fs.moved p q := by
  unfold move at h
  split at h
  · next ok => cases h; exact ⟨ok,rfl⟩
  · cases h

theorem moved_leaf {fs : FS} {p q : Path} (leaf : fs.children p = []) (target : fs.children q = []) :
    fs.moved p q = Function.update (Function.update fs.node p none) q (fs.node p) := by
  have empty : ∀ (d x : Path), fs.children d = [] → d <+: x → x ≠ d → fs.node x = none := by
    intro d x none_ below ne
    by_contra present
    obtain ⟨r,rfl⟩ := below
    obtain _ | ⟨n,r⟩ := r
    · simp at ne
    · have child : fs.node (d ++ [n]) ≠ none := by
        by_cases last : r = []
        · subst last; exact present
        · refine (isDir_of_present present ⟨r,by simp⟩ ?_).present
          simpa using Ne.symm last
      exact child (childless_iff.mp none_ n)
  funext x
  simp only [moved]
  split
  · next below =>
    obtain ⟨r,rfl⟩ := below
    rw [List.drop_left]
    by_cases r_nil : r = []
    · simp [r_nil]
    · rw [Function.update_of_ne (by simpa using r_nil)]
      rw [empty p (p ++ r) leaf (List.prefix_append _ _) (by simpa using r_nil)]
      by_cases same : q ++ r = p
      · rw [same,Function.update_self]
      · rw [Function.update_of_ne same,empty q (q ++ r) target (List.prefix_append _ _) (by simpa using r_nil)]
  · next outside =>
    have ne : x ≠ q := by rintro rfl; exact outside (List.prefix_refl _)
    rw [Function.update_of_ne ne]
    split
    · next below =>
      by_cases same : x = p
      · rw [same,Function.update_self]
      · rw [Function.update_of_ne same,empty p x leaf below same]
    · next apart =>
      have : x ≠ p := by rintro rfl; exact apart (List.prefix_refl _)
      rw [Function.update_of_ne this]

end FS

/-! Name resolution. -/

/-- The text between slashes, empty pieces left out. -/
def components (s : Bytes) : List Name := (s.splitOn slash).filter (· ≠ [])

def isRooted (s : Bytes) : Bool := s.head? = some slash

def endsInSlash (s : Bytes) : Bool := s.getLast? = some slash

/-- A trailing slash asks for the directory itself. -/
def lookupComponents (s : Bytes) : List Name :=
  components s ++ if endsInSlash s then [dot] else []

/-- Where a path argument leads: a directory reached through `/`, `.` or `..`,
or an entry, present or not, of a directory. -/
inductive Place where
  | top (d : Path)
  | entry (d : Path) (n : Name)
  deriving DecidableEq, Repr

def Place.path : Place → Path
  | .top d => d
  | .entry d n => d ++ [n]

namespace FS

/-- One pass over the components; `jump` goes on where a link points. -/
def pass (fs : FS) (follow : Bool) (jump : Path → List Name → Except Errno Place) :
    Path → List Name → Except Errno Place
  | cur, [] => .ok (.top cur)
  | cur, n :: rest =>
    if n = dot then pass fs follow jump cur rest
    else if n = dotdot then pass fs follow jump cur.dropLast rest
    else
      match fs.node (cur ++ [n]) with
      | some (.link target) =>
        if rest = [] ∧ follow = false then .ok (.entry cur n)
        else if target = [] then .error .noent
        else jump (if isRooted target then [] else cur) (lookupComponents target ++ rest)
      | some (.dir _) =>
        if rest = [] then .ok (.entry cur n) else pass fs follow jump (cur ++ [n]) rest
      | some _ => if rest = [] then .ok (.entry cur n) else .error .notdir
      | none => if rest = [] then .ok (.entry cur n) else .error .noent

/-- Resolution with a budget of links. -/
def walk (fs : FS) (follow : Bool) : Nat → Path → List Name → Except Errno Place
  | 0 => pass fs follow fun _ _ => .error .loop
  | budget + 1 => pass fs follow (walk fs follow budget)

def maxLinks : Nat := 40

/-- A path argument of a call: absolute texts ignore the directory `base`. -/
def resolve (fs : FS) (follow : Bool) (base : Path) (s : Bytes) (comps : List Name) :
    Except Errno Place :=
  if s = [] then .error .noent
  else if (0 : UInt8) ∈ s then .error .inval
  else fs.walk follow maxLinks (if isRooted s then [] else base) comps

/-- The place a call that makes or removes an entry works on. -/
def place (fs : FS) (follow : Bool) (base : Path) (s : Bytes) : Except Errno Place :=
  fs.resolve follow base s (components s)

def present (fs : FS) (pl : Place) : Except Errno (Path × Node) :=
  match fs.node pl.path with
  | some x => .ok (pl.path, x)
  | none => .error .noent

/-- The existing object a path argument names. -/
def locate (fs : FS) (follow : Bool) (base : Path) (s : Bytes) : Except Errno (Path × Node) :=
  (fs.resolve follow base s (lookupComponents s)).bind fs.present

/-- A component that goes down, never up or nowhere. -/
def Down (n : Name) : Prop := n ≠ dot ∧ n ≠ dotdot

def IsLink (fs : FS) (p : Path) : Prop := (fs.node p).any Node.isLink = true

instance (fs : FS) (p : Path) : Decidable (fs.IsLink p) := inferInstanceAs (Decidable (_ = true))

theorem no_links {fs : FS} (h : ∀ p ∈ fs.support, ¬ fs.IsLink p) (p : Path) : ¬ fs.IsLink p := by
  intro link
  refine h p (fs.finite p fun absent => ?_) link
  simp [IsLink,absent] at link

theorem isLink_iff {fs : FS} : fs.IsLink p ↔ ∃ target, fs.node p = some (.link target) := by
  unfold IsLink
  rcases fs.node p with _ | ⟨_ | _ | _ | _⟩ <;> simp [Node.isLink]

theorem IsDir.not_isLink {fs : FS} (h : fs.IsDir p) : ¬ fs.IsLink p := by
  obtain ⟨mode,at_⟩ := isDir_iff.mp h
  simp [IsLink,at_,Node.isLink]

section resolution

variable {fs : FS} {follow : Bool} {jump : Path → List Name → Except Errno Place}

variable {cur : Path} {rest : List Name}

theorem pass_last (down : Down n) (last : follow = true → ¬ fs.IsLink (cur ++ [n])) :
    fs.pass follow jump cur [n] = .ok (.entry cur n) := by
  rw [pass,if_neg down.1,if_neg down.2]
  rcases at_ : fs.node (cur ++ [n]) with _ | ⟨_ | _ | _ | _⟩ <;> simp
  intro h
  exact absurd (isLink_iff.mpr ⟨_,at_⟩) (last h)

theorem pass_dir (down : Down n) (dir : fs.IsDir (cur ++ [n])) (more : rest ≠ []) :
    fs.pass follow jump cur (n :: rest) = fs.pass follow jump (cur ++ [n]) rest := by
  obtain ⟨mode,at_⟩ := isDir_iff.mp dir
  rw [pass,if_neg down.1,if_neg down.2,at_]
  simp [more]

theorem pass_blocked (down : Down n) (dir : ¬ fs.IsDir (cur ++ [n])) (link : ¬ fs.IsLink (cur ++ [n])) (more : rest ≠ []) :
    fs.pass follow jump cur (n :: rest) = .error (if fs.node (cur ++ [n]) = none then .noent else .notdir) := by
  rw [pass,if_neg down.1,if_neg down.2]
  rcases at_ : fs.node (cur ++ [n]) with _ | ⟨_ | _ | _ | _⟩
  · simp [more]
  · exact absurd (isDir_iff.mpr ⟨_,at_⟩) dir
  · simp [more]
  · exact absurd (isLink_iff.mpr ⟨_,at_⟩) link
  · simp [more]

/-- Without links on the way, a downward path either reaches its own entry or
stops at the first component that is no directory. -/
theorem walk_clear {cur p : Path} (budget : Nat) (here : fs.IsDir cur)
    (down : ∀ m ∈ p ++ [n], Down m) (clear : ∀ q, q <+: p → ¬ fs.IsLink (cur ++ q))
    (last : follow = true → ¬ fs.IsLink (cur ++ p ++ [n])) :
    (fs.IsDir (cur ++ p) ∧ fs.walk follow budget cur (p ++ [n]) = .ok (.entry (cur ++ p) n)) ∨
    (∃ q, q <+: p ∧ ¬ fs.IsDir (cur ++ q) ∧ fs.walk follow budget cur (p ++ [n]) =
      .error (if fs.node (cur ++ q) = none then .noent else .notdir)) := by
  obtain ⟨jump,walks⟩ : ∃ jump, fs.walk follow budget = fs.pass follow jump := by cases budget <;> exact ⟨_,rfl⟩
  rw [walks]
  induction p generalizing cur with
  | nil =>
    left
    simp only [List.append_nil] at last ⊢
    exact ⟨here,pass_last (down n (by simp)) last⟩
  | cons m p ih =>
    have downM : Down m := down m (by simp)
    have more : p ++ [n] ≠ [] := by simp
    have link : ¬ fs.IsLink (cur ++ [m]) := clear [m] ⟨p,rfl⟩
    by_cases dir : fs.IsDir (cur ++ [m])
    · have next := ih dir (fun x hx => down x (by simp at hx ⊢; exact .inr hx))
        (fun q hq => by simpa using clear (m :: q) (List.cons_prefix_cons.mpr ⟨rfl,hq⟩))
        (by simpa using last)
      rw [List.cons_append,pass_dir downM dir more]
      simp only [List.append_assoc,List.singleton_append] at next ⊢
      rcases next with reached | ⟨q,le,stop⟩
      · exact .inl reached
      · exact .inr ⟨m :: q,List.cons_prefix_cons.mpr ⟨rfl,le⟩,stop⟩
    · right
      refine ⟨[m],⟨p,rfl⟩,dir,?_⟩
      rw [List.cons_append,pass_blocked downM dir link more]

theorem walk_dir (budget : Nat) (cur : Path) (here : fs.IsDir (cur ++ p))
    (down : ∀ m ∈ p ++ [n], Down m) (last : follow = true → ¬ fs.IsLink (cur ++ p ++ [n])) :
    fs.walk follow budget cur (p ++ [n]) = .ok (.entry (cur ++ p) n) := by
  have dirs : ∀ q, q <+: p → fs.IsDir (cur ++ q) := fun q le => here.above ((List.prefix_append_right_inj _).mpr le)
  have start : fs.IsDir cur := by simpa using dirs [] (List.nil_prefix)
  rcases walk_clear budget start down (fun q le => (dirs q le).not_isLink) last with
    reached | ⟨q,le,stop,-⟩
  · exact reached.2
  · exact absurd (dirs q le) stop

end resolution

/-! The calls. -/

/-- Mode bits left after the file mode creation mask. -/
def masked (mode umask : Nat) : Nat := mode ^^^ (mode &&& umask)

structure OpenFlags where
  write : Bool := false
  create : Bool := false
  excl : Bool := false
  trunc : Bool := false
  nofollow : Bool := false
  directory : Bool := false
  deriving DecidableEq

def mkdirat (umask : Nat) (base : Path) (s : Bytes) (mode : Nat) (fs : FS) :
    Except Errno (Unit × FS) :=
  match fs.place false base s with
  | .error e => .error e
  | .ok (.top _) => .error .exist
  | .ok (.entry d n) =>
    match fs.node (d ++ [n]) with
    | some _ => .error .exist
    | none => (fs.put (d ++ [n]) (some (.dir (masked (mode &&& 0o1777) umask)))).map ((), ·)

/-- An open file is named by its canonical path. -/
def openExisting (flags : OpenFlags) (p : Path) (x : Node) (fs : FS) : Except Errno (Path × FS) :=
  match x with
  | .dir _ => if flags.write ∨ flags.create then .error .isdir else .ok (p, fs)
  | .link _ => .error (if flags.directory then .notdir else .loop)
  | .special _ => .error (if flags.directory then .notdir else .nxio)
  | .file mode _ =>
    if flags.directory then .error .notdir
    else if flags.trunc then (fs.put p (some (.file mode []))).map (p, ·)
    else .ok (p, fs)

/-- `O_CREAT`: the last component may be missing; with `O_EXCL` it must be. -/
def openCreate (umask : Nat) (base : Path) (s : Bytes) (flags : OpenFlags) (mode : Nat) (fs : FS) :
    Except Errno (Path × FS) :=
  if endsInSlash s then .error .isdir
  else
    match fs.place (!flags.nofollow && !flags.excl) base s with
    | .error e => .error e
    | .ok (.top _) => .error (if flags.excl then .exist else .isdir)
    | .ok (.entry d n) =>
      match fs.node (d ++ [n]) with
      | none => (fs.put (d ++ [n]) (some (.file (masked (mode &&& 0o7777) umask) []))).map
          (d ++ [n], ·)
      | some x => if flags.excl then .error .exist else openExisting flags (d ++ [n]) x fs

def openat (umask : Nat) (base : Path) (s : Bytes) (flags : OpenFlags) (mode : Nat) (fs : FS) :
    Except Errno (Path × FS) :=
  if flags.create then openCreate umask base s flags mode fs
  else
    match fs.locate (!flags.nofollow) base s with
    | .error e => .error e
    | .ok (p, x) => openExisting flags p x fs

def unlinkat (base : Path) (s : Bytes) (fs : FS) : Except Errno (Unit × FS) :=
  match fs.place false base s with
  | .error e => .error e
  | .ok (.top _) => .error .isdir
  | .ok (.entry d n) =>
    match fs.node (d ++ [n]) with
    | none => .error .noent
    | some (.dir _) => .error .isdir
    | some _ => if endsInSlash s then .error .notdir else (fs.put (d ++ [n]) none).map ((), ·)

/-- `AT_REMOVEDIR`. -/
def rmdirat (base : Path) (s : Bytes) (fs : FS) : Except Errno (Unit × FS) :=
  match fs.place false base s with
  | .error e => .error e
  | .ok (.top _) => .error .busy
  | .ok (.entry d n) =>
    match fs.node (d ++ [n]) with
    | none => .error .noent
    | some (.dir _) =>
      if fs.children (d ++ [n]) = [] then (fs.put (d ++ [n]) none).map ((), ·)
      else .error .notempty
    | some _ => .error .notdir

/-- Can an object of the first kind replace the second? -/
def replaceable (x : Node) (y : Option Node) (empty : Bool) : Except Errno Unit :=
  match y with
  | none => .ok ()
  | some y =>
    if x.isDir then
      if y.isDir then (if empty then .ok () else .error .notempty) else .error .notdir
    else if y.isDir then .error .isdir
    else .ok ()

def renameat (oldBase : Path) (old : Bytes) (newBase : Path) (new : Bytes) (fs : FS) :
    Except Errno (Unit × FS) :=
  match fs.place false oldBase old, fs.place false newBase new with
  | .error e, _ => .error e
  | .ok _, .error e => .error e
  | .ok (.entry d n), .ok (.entry d' n') =>
    match fs.node (d ++ [n]) with
    | none => .error .noent
    | some x =>
      if (endsInSlash old ∨ endsInSlash new) ∧ ¬ x.isDir then .error .notdir
      else if d ++ [n] = d' ++ [n'] then .ok ((), fs)
      else
        match replaceable x (fs.node (d' ++ [n'])) (fs.children (d' ++ [n'])).isEmpty with
        | .error e => .error e
        | .ok () => (fs.move (d ++ [n]) (d' ++ [n'])).map ((), ·)
  | .ok _, .ok _ => .error .busy

def chmodNode (mode : Nat) : Node → Node
  | .dir _ => .dir (mode &&& 0o7777)
  | .file _ data => .file (mode &&& 0o7777) data
  | x => x

def fchmodat (base : Path) (s : Bytes) (mode : Nat) (fs : FS) : Except Errno (Unit × FS) :=
  match fs.locate true base s with
  | .error e => .error e
  | .ok (p, x) => (fs.put p (some (chmodNode mode x))).map ((), ·)

/-- `pwrite` of a whole buffer; a gap before the offset reads as zeros. -/
def spliced (data : Bytes) (offset : Nat) (new : Bytes) : Bytes :=
  (data ++ List.replicate (offset - data.length) 0).take offset ++ new ++
    data.drop (offset + new.length)

theorem spliced_end (data new : Bytes) : spliced data data.length new = data ++ new := by simp [spliced]

def pwrite (p : Path) (offset : Nat) (new : Bytes) (fs : FS) : Except Errno (Unit × FS) :=
  match fs.node p with
  | some (.file mode data) => (fs.put p (some (.file mode (spliced data offset new)))).map ((), ·)
  | _ => .error .badf

/-- The whole content of an open file. -/
def readAll (p : Path) (fs : FS) : Except Errno Bytes :=
  match fs.node p with
  | some (.file _ data) => .ok data
  | some (.dir _) => .error .isdir
  | _ => .error .badf

/-- The entries of an open directory, in byte order. -/
def readDir (p : Path) (fs : FS) : Except Errno (List (Name × Node)) :=
  match fs.node p with
  | some (.dir _) => .ok ((fs.children p).filterMap fun n => (fs.node (p ++ [n])).map (n, ·))
  | _ => .error .notdir

/-! What a successful call did. -/

section effects

variable {fs fs' : FS} {base p : Path} {s : Bytes} {mode umask : Nat}

theorem map_put_ok {a b : α} (h : (fs.put p v).map (a,·) = .ok (b,fs')) :
    b = a ∧ fs'.node = Function.update fs.node p v := by
  rcases run : fs.put p v with e | next
  · simp [run,Except.map] at h
  · simp only [run,Except.map,Except.ok.injEq,Prod.mk.injEq] at h
    obtain ⟨rfl,rfl⟩ := h
    exact ⟨rfl,put_ok run⟩

theorem mkdirat_ok (h : fs.mkdirat umask base s mode = .ok ((),fs')) :
    ∃ d n, fs.place false base s = .ok (.entry d n) ∧ fs.node (d ++ [n]) = none ∧
      fs'.node = Function.update fs.node (d ++ [n]) (some (.dir (masked (mode &&& 0o1777) umask))) := by
  unfold mkdirat at h
  split at h
  · cases h
  · cases h
  · next d n where_ =>
    split at h
    · cases h
    · next absent => exact ⟨d,n,where_,absent,(map_put_ok h).2⟩

theorem locate_ok {follow : Bool} {x : Node} (h : fs.locate follow base s = .ok (p,x)) : fs.node p = some x := by
  revert h
  simp only [locate]
  rcases fs.resolve follow base s (lookupComponents s) with e | pl
  · simp [Except.bind]
  · simp only [Except.bind,FS.present]
    split
    · next at_ => intro h; cases h; exact at_
    · intro h; cases h

variable {flags : OpenFlags}

theorem openExisting_ok {x : Node} (h : openExisting flags p x fs = .ok (q,fs')) :
    q = p ∧ (fs' = fs ∨ (flags.trunc = true ∧ ∃ mode data, x = .file mode data ∧
      fs'.node = Function.update fs.node p (some (.file mode [])))) := by
  unfold openExisting at h
  split at h
  · split at h
    · cases h
    · cases h; exact ⟨rfl,.inl rfl⟩
  · cases h
  · cases h
  · next mode data =>
    split at h
    · cases h
    · split at h
      · next trunc =>
        obtain ⟨same,changed⟩ := map_put_ok h
        exact ⟨same,.inr ⟨trunc,mode,data,rfl,changed⟩⟩
      · cases h; exact ⟨rfl,.inl rfl⟩

/-- Opening creates a file, empties one, or changes nothing. -/
theorem openat_ok (h : fs.openat umask base s flags mode = .ok (p,fs')) : (∃ d n, flags.create = true ∧
      fs.place (!flags.nofollow && !flags.excl) base s = .ok (.entry d n) ∧ p = d ++ [n] ∧
      fs.node p = none ∧
      fs'.node = Function.update fs.node p (some (.file (masked (mode &&& 0o7777) umask) []))) ∨
    (∃ x, fs.node p = some x ∧ (flags.create && flags.excl) = false ∧
      (fs' = fs ∨ (flags.trunc = true ∧ ∃ mode data, x = .file mode data ∧
        fs'.node = Function.update fs.node p (some (.file mode [])))) ∧
      ((flags.create = true ∧ ∃ pl, fs.place (!flags.nofollow && !flags.excl) base s = .ok pl ∧ pl.path = p) ∨
        (flags.create = false ∧ fs.locate (!flags.nofollow) base s = .ok (p,x)))) := by
  unfold openat at h
  split at h
  · next create =>
    unfold openCreate at h
    split at h
    · cases h
    · split at h
      · cases h
      · cases h
      · next d n where_ =>
        split at h
        · next absent =>
          obtain ⟨rfl,changed⟩ := map_put_ok h
          exact .inl ⟨d,n,create,where_,rfl,absent,changed⟩
        · next x present =>
          split at h
          · cases h
          · next inclusive =>
            obtain ⟨rfl,effect⟩ := openExisting_ok h
            exact .inr ⟨x,present,by simp [inclusive],effect,.inl ⟨create,_,where_,rfl⟩⟩
  · next existing =>
    split at h
    · cases h
    · next q x where_ =>
      obtain ⟨rfl,effect⟩ := openExisting_ok h
      exact .inr ⟨x,locate_ok where_,by simp [existing],effect,
        .inr ⟨by simpa using existing,where_⟩⟩

theorem unlinkat_ok (h : fs.unlinkat base s = .ok ((),fs')) :
    ∃ d n x, fs.place false base s = .ok (.entry d n) ∧ fs.node (d ++ [n]) = some x ∧
      x.isDir = false ∧ fs'.node = Function.update fs.node (d ++ [n]) none := by
  unfold unlinkat at h
  split at h
  · cases h
  · cases h
  · next d n where_ =>
    split at h
    · cases h
    · cases h
    · next x notDir present =>
      split at h
      · cases h
      · refine ⟨d,n,x,where_,present,?_,(map_put_ok h).2⟩
        cases x <;> simp [Node.isDir] at notDir ⊢

theorem rmdirat_ok (h : fs.rmdirat base s = .ok ((),fs')) :
    ∃ d n, fs.place false base s = .ok (.entry d n) ∧ fs.IsDir (d ++ [n]) ∧
      fs.children (d ++ [n]) = [] ∧ fs'.node = Function.update fs.node (d ++ [n]) none := by
  unfold rmdirat at h
  split at h
  · cases h
  · cases h
  · next d n where_ =>
    split at h
    · cases h
    · next mode present =>
      split at h
      · next empty => exact ⟨d,n,where_,isDir_iff.mpr ⟨mode,present⟩,empty,(map_put_ok h).2⟩
      · cases h
    · cases h

theorem replaceable_kind {x y : Node} {empty : Bool} (h : replaceable x (some y) empty = .ok ()) : y.isDir = x.isDir := by
  unfold replaceable at h
  cases hx : x.isDir <;> cases hy : y.isDir <;> simp [hx,hy] at h ⊢

theorem renameat_ok {oldBase newBase : Path} {old new : Bytes} (h : fs.renameat oldBase old newBase new = .ok ((),fs')) :
    ∃ d n d' n' x, fs.place false oldBase old = .ok (.entry d n) ∧
      fs.place false newBase new = .ok (.entry d' n') ∧ fs.node (d ++ [n]) = some x ∧
      ((fs' = fs ∧ d ++ [n] = d' ++ [n']) ∨ ((∀ y, fs.node (d' ++ [n']) = some y → y.isDir = x.isDir) ∧
          fs.Movable (d ++ [n]) (d' ++ [n']) ∧ fs'.node = fs.moved (d ++ [n]) (d' ++ [n']))) := by
  unfold renameat at h
  split at h
  · cases h
  · cases h
  · next d n d' n' from_ to_ =>
    split at h
    · cases h
    · next x present =>
      refine ⟨d,n,d',n',x,from_,to_,present,?_⟩
      split at h
      · cases h
      · split at h
        · next same => cases h; exact .inl ⟨rfl,same⟩
        · split at h
          · cases h
          · next fits =>
            rcases run : fs.move (d ++ [n]) (d' ++ [n']) with e | next
            · simp [run,Except.map] at h
            · simp only [run,Except.map,Except.ok.injEq,Prod.mk.injEq,true_and] at h
              subst h
              exact .inr ⟨fun y there => replaceable_kind (there ▸ fits),move_ok run⟩
  · cases h

theorem fchmodat_ok (h : fs.fchmodat base s mode = .ok ((),fs')) : ∃ p x, fs.locate true base s = .ok (p,x) ∧
      fs'.node = Function.update fs.node p (some (chmodNode mode x)) := by
  unfold fchmodat at h
  split at h
  · cases h
  · next p x where_ => exact ⟨p,x,where_,(map_put_ok h).2⟩

theorem pwrite_ok {offset : Nat} {new : Bytes} (h : fs.pwrite p offset new = .ok ((),fs')) :
    ∃ mode data, fs.node p = some (.file mode data) ∧
      fs'.node = Function.update fs.node p (some (.file mode (spliced data offset new))) := by
  unfold pwrite at h
  split at h
  · next mode data present => exact ⟨mode,data,present,(map_put_ok h).2⟩
  · cases h

end effects

/-! When a call cannot fail. -/

section works

variable {fs : FS} {base p d : Path} {n : Name} {s : Bytes} {x y : Node}

theorem childless_of_not_dir (notDir : ¬ fs.IsDir p) : fs.children p = [] := childless_iff.mpr fun n => by
    by_contra h
    exact notDir (parent_isDir h)

theorem fits_replace (at_ : fs.node p = some x) (kind : y.isDir = x.isDir) : fs.Fits p (some y) := by
  have below : (some y).any Node.isDir = true ∨ fs.children p = [] := by
    cases dir : x.isDir with
    | true => exact .inl (by simp [kind,dir])
    | false => exact .inr (childless_of_not_dir (by simp [IsDir,at_,dir]))
  rcases List.eq_nil_or_concat' p with rfl | ⟨p,n,rfl⟩
  · obtain ⟨mode,root⟩ := fs.root
    rw [at_] at root
    cases root
    exact fits_root.mpr kind
  · have present : fs.node (p ++ [n]) ≠ none := by simp [at_]
    exact fits_entry.mpr ⟨⟨parent_isDir present,fs.named p n present⟩,below⟩

theorem fits_new (dir : fs.IsDir d) (valid : ValidName n) (absent : fs.node (d ++ [n]) = none)
    (v : Option Node) : fs.Fits (d ++ [n]) v :=
  fits_entry.mpr ⟨⟨dir,valid⟩,.inr (childless_of_not_dir (by simp [IsDir,absent]))⟩

theorem fits_drop (at_ : fs.node (d ++ [n]) = some x) (empty : fs.children (d ++ [n]) = []) : fs.Fits (d ++ [n]) none := by
  have present : fs.node (d ++ [n]) ≠ none := by simp [at_]
  exact fits_entry.mpr ⟨⟨parent_isDir present,fs.named d n present⟩,.inr empty⟩

theorem map_put_fits (fits : fs.Fits p v) (a : α) :
    ∃ fs', (fs.put p v).map (a,·) = .ok (a,fs') := ⟨fs.write p v fits,by rw [put_fits fits]; rfl⟩

theorem pwrite_works {mode : Nat} {data : Bytes} (at_ : fs.node p = some (.file mode data))
    (offset : Nat) (new : Bytes) : ∃ fs', fs.pwrite p offset new = .ok ((),fs') := by
  simp only [pwrite,at_]
  refine map_put_fits ?_ ()
  exact fits_replace at_ rfl

theorem mkdirat_works (where_ : fs.place false base s = .ok (.entry d n)) (dir : fs.IsDir d)
    (valid : ValidName n) (absent : fs.node (d ++ [n]) = none) (umask mode : Nat) :
    ∃ fs', fs.mkdirat umask base s mode = .ok ((),fs') := by
  simp only [mkdirat,where_,absent]
  exact map_put_fits (fits_new dir valid absent _) ()

end works

end FS

end Integris.Posix
