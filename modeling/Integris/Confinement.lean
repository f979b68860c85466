import Integris.Os

/-! Containment. A tree is confined to an area when it differs from an earlier
tree only inside the area and holds no symbolic link the earlier one did not.
Each call keeps a tree confined whose path argument can only land in the area;
so do the functions of `os` built from the calls. -/
namespace Integris.Posix

open Prog

structure Confined (before : FS) (Area : Path → Prop) (fs : FS) : Prop where
  outside : ∀ p, ¬ Area p → fs.node p = before.node p
  links : ∀ p, fs.IsLink p → before.IsLink p

/-- The same as an invariant of programs. -/
abbrev Intact (before : FS) (Area : Path → Prop) (w : World) : Prop := Confined before Area w.fs

theorem Confined.refl (fs : FS) (Area : Path → Prop) : Confined fs Area fs := ⟨fun _ _ => rfl,fun _ => id⟩

/-- Wherever the text leads, making something new there stays in the area. -/
def Makes (cwd : Path) (Area : Path → Prop) (s : Bytes) (fs : FS) : Prop :=
  ∀ d n, fs.place false cwd s = .ok (.entry d n) → fs.node (d ++ [n]) = none → Area (d ++ [n])

/-- Whatever entry the text names is in the area. -/
def Names (cwd : Path) (Area : Path → Prop) (s : Bytes) (fs : FS) : Prop :=
  ∀ d n, fs.place false cwd s = .ok (.entry d n) → Area (d ++ [n])

section keeps

variable {before fs fs' : FS} {Area : Path → Prop} {host : Host} {s : Bytes}

variable {p : Path} {x : Node} {s : Bytes} {follow : Bool} {Area : Path → Prop} {d : Path} {y : Path}
  {pl : Place} {q : Path} {mode : Nat}

theorem Confined.change {v : Option Node} (h : Confined before Area fs)
    (eq : fs'.node = Function.update fs.node p v) (inside : Area p)
    (links : v.any Node.isLink = true → fs.IsLink p) : Confined before Area fs' where
  outside q out := by
    have ne : q ≠ p := by rintro rfl; exact out inside
    rw [eq,Function.update_of_ne ne,h.outside q out]
  links q link := by
    by_cases same : q = p
    · subst same
      rw [FS.IsLink,eq,Function.update_self] at link
      exact h.links q (links link)
    · rw [FS.IsLink,eq,Function.update_of_ne same] at link
      exact h.links q link

theorem Confined.moved {p q : Path} (h : Confined before Area fs)
    (eq : fs'.node = fs.moved p q) (at_ : fs.node p = some x) (leaf : fs.children p = [])
    (free : fs.children q = []) (plain : x.isLink = false) (from_ : Area p) (to_ : Area q) :
    Confined before Area fs' := by
  rw [FS.moved_leaf leaf free,at_] at eq
  constructor
  · intro r out
    have nq : r ≠ q := by rintro rfl; exact out to_
    have np : r ≠ p := by rintro rfl; exact out from_
    rw [eq,Function.update_of_ne nq,Function.update_of_ne np,h.outside r out]
  · intro r link
    rw [FS.IsLink,eq] at link
    by_cases hq : r = q
    · subst hq
      rw [Function.update_self] at link
      simp [plain] at link
    · rw [Function.update_of_ne hq] at link
      by_cases hp : r = p
      · subst hp
        simp at link
      · rw [Function.update_of_ne hp] at link
        exact h.links r link

variable {I : FS → Prop}

theorem keeps_mkdir (perm : Nat) (makes : ∀ fs, Confined before Area fs → Makes host.cwd Area s fs) :
    Keeps host (Intact before Area) (mkdir s perm) := by
  apply keeps_sys
  intro fs _ fs' inv run
  obtain ⟨d,n,where_,absent,changed⟩ := FS.mkdirat_ok run
  exact inv.change changed (makes fs inv d n where_ absent) (by simp [Node.isLink])

section

variable (names : ∀ fs, Confined before Area fs → Names host.cwd Area s fs)
include names

theorem keeps_unlink : Keeps host (Intact before Area) (unlink s) := by
  apply keeps_sys
  intro fs _ fs' inv run
  obtain ⟨d,n,x,where_,-,-,changed⟩ := FS.unlinkat_ok run
  exact inv.change changed (names fs inv d n where_) (by simp)

theorem keeps_rmdir : Keeps host (Intact before Area) (rmdir s) := by
  apply keeps_sys
  intro fs _ fs' inv run
  obtain ⟨d,n,where_,-,-,changed⟩ := FS.rmdirat_ok run
  exact inv.change changed (names fs inv d n where_) (by simp)

theorem keeps_remove : Keeps host (Intact before Area) (remove s) := by
  refine (keeps_unlink names).attempt.bind fun r => ?_
  cases r with
  | ok _ => exact Keeps.pure _
  | error e => exact (keeps_rmdir names).mapError

end

theorem keeps_makeDirectory (perm : Nat) (makes : ∀ fs, Confined before Area fs → Makes host.cwd Area s fs) :
    Keeps host (Intact before Area) (makeDirectory s perm) := by
  refine (keeps_mkdir perm makes).attempt.bind fun r => ?_
  cases r with
  | ok _ => exact Keeps.pure _
  | error e =>
    refine (keeps_query _).attempt.bind fun r => ?_
    cases r with
    | ok x => exact Keeps.require _
    | error e' => exact Keeps.throw _

/-- `MkdirAll` makes a directory at its text or at one of the texts above it. -/
theorem keeps_mkdirAllFrom (perm rounds : Nat)
    (makes : ∀ k ≤ rounds, ∀ fs, Confined before Area fs → Makes host.cwd Area (parentText^[k] s) fs) :
    Keeps host (Intact before Area) (mkdirAllFrom perm rounds s) := by
  induction rounds generalizing s with
  | zero =>
    unfold mkdirAllFrom
    refine (keeps_query _).attempt.bind fun r => ?_
    cases r with
    | ok x => exact Keeps.require _
    | error e => exact keeps_makeDirectory perm (makes 0 (Nat.le_refl 0))
  | succ rounds ih =>
    unfold mkdirAllFrom
    refine (keeps_query _).attempt.bind fun r => ?_
    cases r with
    | ok x => exact Keeps.require _
    | error e =>
      refine Keeps.bind (Keeps.when (ih fun k le => ?_)) fun _ => keeps_makeDirectory perm (makes 0 (Nat.zero_le _))
      have := makes (k + 1) (by omega)
      rwa [Function.iterate_succ_apply] at this

theorem keeps_mkdirAll_each {I : FS → Prop} {perm : Nat}
    (one : ∀ s, Keeps host (fun w => I w.fs) (mkdir s perm)) (s : Bytes) :
    Keeps host (fun w => I w.fs) (mkdirAll s perm) := by
  have made : ∀ s, Keeps host (fun w => I w.fs) (makeDirectory s perm) := by
    intro s
    refine (one s).attempt.bind fun r => ?_
    cases r with
    | ok _ => exact Keeps.pure _
    | error e =>
      refine (keeps_query (I := I) _).attempt.bind fun r => ?_
      cases r with
      | ok x => exact Keeps.require _
      | error e' => exact Keeps.throw _
  have look : ∀ s, Keeps host (fun w => I w.fs) (stat s) := fun _ => keeps_query (I := I) _
  have all : ∀ rounds s, Keeps host (fun w => I w.fs) (mkdirAllFrom perm rounds s) := by
    intro rounds
    induction rounds with
    | zero =>
      intro s
      unfold mkdirAllFrom
      refine (look s).attempt.bind fun r => ?_
      cases r with
      | ok x => exact Keeps.require _
      | error e => exact made s
    | succ rounds ih =>
      intro s
      unfold mkdirAllFrom
      refine (look s).attempt.bind fun r => ?_
      cases r with
      | ok x => exact Keeps.require _
      | error e => exact (Keeps.when (ih _)).bind fun _ => made s
  exact all _ s

theorem keeps_mkdirAll_present (perm : Nat) (s : Bytes) : Keeps host (fun w => w.fs.node p = some x) (mkdirAll s perm) := by
  refine keeps_mkdirAll_each (I := fun fs => fs.node p = some x) (fun s => ?_) s
  refine keeps_sys (I := fun fs => fs.node p = some x) fun fs _ fs' there run => ?_
  obtain ⟨d,n,-,absent,changed⟩ := FS.mkdirat_ok run
  rw [changed,Function.update_of_ne (by rintro rfl; simp [there] at absent),there]

/-- The tree has new directories of one mode, and is otherwise as it was. -/
def NewDirs (fs₀ : FS) (mode : Nat) (fs : FS) : Prop :=
  ∀ x, fs.node x = fs₀.node x ∨ fs₀.node x = none ∧ fs.node x = some (.dir mode)

theorem keeps_mkdirAll_mode (fs₀ : FS) (perm : Nat) (s : Bytes) :
    Keeps host (fun w => NewDirs fs₀ (FS.masked (syscallMode perm &&& 0o1777) host.umask) w.fs) (mkdirAll s perm) := by
  refine keeps_mkdirAll_each (fun s => keeps_sys ?_) s
  intro fs _ fs' same run x
  obtain ⟨d,n,-,absent,changed⟩ := FS.mkdirat_ok run
  rw [changed]
  by_cases new : x = d ++ [n]
  · subst new
    rw [Function.update_self]
    rcases same (d ++ [n]) with old | ⟨old,-⟩
    · exact .inr ⟨old ▸ absent,rfl⟩
    · exact .inr ⟨old,rfl⟩
  · rw [Function.update_of_ne new]
    exact same x

theorem keeps_refuseDirectory {I : FS → Prop} (old new : Bytes) :
    Keeps host (fun w => I w.fs) (refuseDirectory old new) := by
  refine (keeps_query _).attempt.bind fun r => ?_
  cases r with
  | error e => exact Keeps.pure _
  | ok x => exact Keeps.when ((keeps_query _).bind fun _ => Keeps.throw _)

theorem keeps_random {I : FS → Prop} (n : Nat) : Keeps host (fun w => I w.fs) (random n) := by
  intro w inv
  unfold wp random
  rcases host.verdict .random w.tick with _ | _ | _ <;> exact inv

end keeps

namespace FS

variable {rest : List Name}

/-- Where a longer text got through, every shorter one names an object. -/
theorem pass_shorter {fs : FS} {jump jump' : Path → List Name → Except Errno Place}
    {n : Name} {pl pl' : Place} (more : rest ≠ [])
    (onward : ∀ cur y, fs.IsDir cur → jump cur (y ++ n :: rest) = .ok pl →
      jump' cur (y ++ [n]) = .ok pl' → fs.node pl'.path ≠ none)
    {x cur : Path} (here : fs.IsDir cur) (long : fs.pass follow jump cur (x ++ n :: rest) = .ok pl)
    (short : fs.pass false jump' cur (x ++ [n]) = .ok pl') : fs.node pl'.path ≠ none := by
  have up : fs.IsDir cur.dropLast := here.above (List.dropLast_prefix cur)
  induction x generalizing cur with
  | nil =>
    simp only [List.nil_append,pass] at long short
    by_cases isDot : n = dot
    · simp only [isDot,if_true] at short
      cases short
      exact here.present
    · by_cases isUp : n = dotdot
      · rw [if_neg isDot,if_pos isUp] at short
        cases short
        exact up.present
      · simp only [isDot,isUp,if_false] at long short
        rcases at_ : fs.node (cur ++ [n]) with _ | ⟨_ | _ | _ | _⟩ <;>
          simp [at_,more] at long short <;> subst short <;> simp [Place.path,at_]
  | cons m x ih =>
    simp only [List.cons_append,pass] at long short
    by_cases isDot : m = dot
    · simp only [isDot,if_true] at long short
      exact ih here long short up
    · by_cases isUp : m = dotdot
      · rw [if_neg isDot,if_pos isUp] at long short
        exact ih up long short (up.above (List.dropLast_prefix _))
      · simp only [isDot,isUp,if_false] at long short
        rcases at_ : fs.node (cur ++ [m]) with _ | ⟨_ | _ | target | _⟩
        · simp [at_] at long
        · simp [at_] at long short
          have dir : fs.IsDir (cur ++ [m]) := isDir_iff.mpr ⟨_,at_⟩
          exact ih dir long short (by simpa using here)
        · simp [at_] at long
        · simp [at_] at long short
          by_cases empty : target = []
          · simp [empty] at long
          · simp only [empty,if_false,← List.append_assoc] at long short
            refine onward _ _ ?_ long short
            split
            · exact fs.root_isDir
            · exact here
        · simp [at_] at long

theorem walk_shorter {fs : FS} {n : Name} {pl pl' : Place}
    (more : rest ≠ []) (budget : Nat) {x cur : Path} (here : fs.IsDir cur)
    (long : fs.walk follow budget cur (x ++ n :: rest) = .ok pl)
    (short : fs.walk false budget cur (x ++ [n]) = .ok pl') : fs.node pl'.path ≠ none := by
  induction budget generalizing x cur with
  | zero => exact pass_shorter more (fun _ _ _ h => by simp at h) here long short
  | succ budget ih => exact pass_shorter more (fun _ _ dir h h' => ih dir h h') here long short

/-- Strictly inside the directory `d`. -/
def Below (d p : Path) : Prop := d <+: p ∧ p ≠ d

theorem below_append {d q : Path} (more : q ≠ []) : Below d (d ++ q) := ⟨List.prefix_append _ _,by simpa using more⟩

theorem Below.append {d p q : Path} (h : Below d p) : Below d (p ++ q) := by
  refine ⟨h.1.trans (List.prefix_append _ _),fun same => h.2 ?_⟩
  have short := h.1.length_le
  have := congrArg List.length same
  rw [List.length_append] at this
  exact (h.1.eq_of_length (by omega)).symm

/-- A root whose text keeps naming it, whatever happens inside the area. -/
def Anchored (fs : FS) (Area : Path → Prop) (a d : Path) : Prop :=
  ∀ fs' : FS, (∀ p, ¬ Area p → fs'.node p = fs.node p) → fs'.Leads a d

theorem anchored_self {fs : FS} (dir : fs.IsDir d) (out : ¬ Area d) : fs.Anchored Area d d := by
  intro fs' same
  apply leads_self
  rw [IsDir,same d out]
  exact dir

theorem Anchored.leads {fs fs' : FS} {a d : Path} {Area Inner : Path → Prop} (h : fs.Anchored Area a d)
    (conf : Confined fs Inner fs') (inside : ∀ p, Inner p → Area p) : fs'.Leads a d :=
  h fs' fun p out => conf.outside p fun h => out (inside p h)

end FS

/-! The texts `MkdirAll` visits. -/

/-- The text of a directory with its slash. -/
def slashed (x : Path) : Bytes := (if x = [] then [] else absText x) ++ [slash]

theorem absText_eq_slashed (x : Path) (n : Name) : absText (x ++ [n]) = slashed x ++ n := by
  simp [absText_concat,slashed]

theorem dropWhile_name {n : Name} (h : slash ∉ n) (u : Bytes) :
    (n.reverse ++ slash :: u).dropWhile (· ≠ slash) = slash :: u := by
  have none_ : n.reverse.dropWhile (· ≠ slash) = [] := by
    rw [List.dropWhile_eq_nil_iff]
    intro x hx
    simp only [ne_eq,decide_eq_true_eq]
    rintro rfl
    exact h (List.mem_reverse.mp hx)
  rw [List.dropWhile_append,none_]
  simp

theorem parentText_name {x : Path} {n : Name} (valid : Segment n) : parentText (slashed x ++ n) = slashed x := by
  obtain ⟨c,m,split⟩ := List.exists_cons_of_ne_nil (List.reverse_ne_nil_iff.mpr valid.1)
  have keep : (n.reverse ++ slash :: (if x = [] then [] else absText x).reverse).dropWhile (· = slash) =
      n.reverse ++ slash :: (if x = [] then [] else absText x).reverse := by
    have ne : c ≠ slash := by
      rintro rfl
      exact valid.2.2.2 (List.mem_reverse.mp (split ▸ List.mem_cons_self))
    rw [split,List.cons_append,List.dropWhile_cons_of_neg (by simpa using ne)]
  rw [parentText,slashed,List.reverse_append,List.reverse_append,List.reverse_singleton,
    List.singleton_append,keep,dropWhile_name valid.2.2.2]
  simp

theorem parentText_slashed {x : Path} {n : Name} (valid : Segment n) : parentText (slashed (x ++ [n])) = slashed x := by
  have shape : slashed (x ++ [n]) = slashed x ++ n ++ [slash] := by rw [slashed,if_neg (by simp),absText_eq_slashed]
  have strip : ∀ u : Bytes, parentText (u ++ [slash]) = parentText u := fun u => by
    simp [parentText,List.dropWhile_cons_of_pos]
  rw [shape,strip,parentText_name valid]

theorem parentText_iterate_slashed (plain : Lexical y) {k : Nat} (le : k ≤ y.length) :
    ∃ z, z <+: y ∧ parentText^[k] (slashed y) = slashed z := by
  induction y using List.reverseRecOn generalizing k with
  | nil =>
    obtain rfl : k = 0 := by simpa using le
    exact ⟨[],List.prefix_refl _,rfl⟩
  | append_singleton y n ih =>
    obtain ⟨rest,last⟩ := lexical_append.mp plain
    cases k with
    | zero => exact ⟨y ++ [n],List.prefix_refl _,rfl⟩
    | succ k =>
      obtain ⟨z,below,shape⟩ := ih rest (by simpa using le)
      rw [Function.iterate_succ_apply,parentText_slashed (last n (by simp)),shape]
      exact ⟨z,below.trans (List.prefix_append _ _),rfl⟩

/-- Every text above `absText y` names a prefix of `y`, perhaps with a slash behind it. -/
theorem parentText_iterate (plain : Lexical y) {k : Nat} (le : k ≤ y.length) :
    ∃ z, z <+: y ∧ (parentText^[k] (absText y) = absText z ∨ parentText^[k] (absText y) = slashed z) := by
  cases k with
  | zero => exact ⟨y,List.prefix_refl _,.inl rfl⟩
  | succ k =>
    rcases List.eq_nil_or_concat' y with rfl | ⟨y,n,rfl⟩
    · simp at le
    · obtain ⟨rest,last⟩ := lexical_append.mp plain
      obtain ⟨z,below,shape⟩ := parentText_iterate_slashed rest (k := k) (by simpa using le)
      refine ⟨z,below.trans (List.prefix_append _ _),.inr ?_⟩
      rw [Function.iterate_succ_apply,absText_eq_slashed,parentText_name (last n (by simp)),shape]

/-- What is found where the path leads is what the path names. -/
theorem present_entry {fs : FS} {r : Except Errno Place} {q d : Path} {n : Name} {x : Node}
    (lands : ∀ pl, r = .ok pl → pl = .entry d n) (where_ : r.bind fs.present = .ok (q,x)) : q = d ++ [n] := by
  cases r with
  | error e => cases where_
  | ok pl =>
    cases lands pl rfl
    simp only [Except.bind,FS.present,Place.path] at where_
    split at where_ <;> cases where_
    rfl

section below

variable {fs : FS} {a d p y : Path} {Area : Path → Prop} {s : Bytes} {cwd : Path}

theorem place_slashed (plain : Plain y) : fs.place follow cwd (slashed y) = fs.walk follow FS.maxLinks [] y := by
  by_cases h : y = []
  · subst h; rfl
  · have rooted : isRooted (slashed y) = true := by simp [slashed,h,absText,isRooted]
    have nonempty : slashed y ≠ [] := by simp [slashed]
    have nonzero : (0 : UInt8) ∉ slashed y := by simp [slashed,h,zero_not_mem_absText plain,slash]
    have comps : components (slashed y) = y := by
      rw [slashed,if_neg h,components_append,components_absText plain.lexical]
      simp
    rw [FS.place,FS.resolve,if_neg nonempty,if_neg nonzero,rooted,if_pos rfl,comps]

/-- Along the text of a path below a root, only what is below the root can be missing. -/
theorem makes_of_walk (leads : fs.Leads a d) (plain : Lexical p)
    (clear : ∀ q, q <+: p.dropLast → ¬ fs.IsLink (d ++ q)) (area : ∀ q, q <+: p → q ≠ [] → Area (d ++ q))
    (above : y <+: a ++ p) (walked : fs.place false cwd s = fs.walk false FS.maxLinks [] y) :
    Makes cwd Area s fs := by
  intro e n where_ absent
  rw [walked] at where_
  obtain ⟨dir,own,budget,onward⟩ := leads
  obtain ⟨pl,reached,at_⟩ := own false
  -- up to the root every text names something that exists
  have existing : y <+: a → False := by
    rintro ⟨r,rfl⟩
    rcases List.eq_nil_or_concat' y with rfl | ⟨y,m,rfl⟩
    · simp [FS.walk,FS.pass,FS.maxLinks] at where_
    · by_cases last : r = []
      · subst last
        rw [List.append_nil,where_] at reached
        cases reached
        rw [show e ++ [n] = d from at_] at absent
        exact dir.present absent
      · rw [List.append_assoc,List.singleton_append] at reached
        exact FS.walk_shorter last FS.maxLinks fs.root_isDir reached where_ absent
  rcases List.prefix_or_prefix_of_prefix above (List.prefix_append a p) with up | down
  · exact (existing up).elim
  · obtain ⟨q,rfl⟩ := down
    have inside : q <+: p := (List.prefix_append_right_inj _).mp above
    rcases List.eq_nil_or_concat' q with rfl | ⟨q,m,rfl⟩
    · exact (existing (by simp)).elim
    · have down : ∀ x ∈ q ++ [m], FS.Down x := fun x hx =>
        ⟨(plain x (inside.subset hx)).2.1,(plain x (inside.subset hx)).2.2.1⟩
      have proper : q <+: p.dropLast := by
        refine List.prefix_of_prefix_length_le ((List.prefix_append _ _).trans inside)
          (List.dropLast_prefix p) ?_
        have := inside.length_le
        simp only [List.length_append,List.length_singleton] at this
        rw [List.length_dropLast]
        omega
      rw [onward false _ (by simp)] at where_
      rcases FS.walk_clear budget dir down
          (fun r le => clear r (le.trans proper))
          (fun h : false = true => by cases h) with
        ⟨-,there⟩ | ⟨r,-,-,stopped⟩
      · rw [there] at where_
        cases where_
        rw [List.append_assoc]
        exact area _ inside (by simp)
      · rw [stopped] at where_
        cases where_

/-- `MkdirAll` of a text on the way to a path below a root stays below the root if no
link is on the way. -/
theorem keeps_mkdirAll {before : FS} {host : Host} (perm : Nat) (root : Plain a) (plain : Lexical p)
    (leads : ∀ fs, Confined before Area fs → fs.Leads a d)
    (clear : ∀ q, q <+: p.dropLast → ¬ before.IsLink (d ++ q))
    (area : ∀ q, q <+: p → q ≠ [] → Area (d ++ q)) (on : y <+: a ++ p) :
    Keeps host (Intact before Area) (mkdirAll (absText y) perm) := by
  have both : Lexical (a ++ p) := lexical_append.mpr ⟨root.lexical,plain⟩
  have lexical : Lexical y := fun n hn => both n (on.subset hn)
  apply keeps_mkdirAllFrom
  intro k le fs conf
  rw [components_absText lexical] at le
  obtain ⟨z,above,shape⟩ := parentText_iterate lexical le
  -- a text with a zero byte leads nowhere
  by_cases zero : (0 : UInt8) ∈ parentText^[k] (absText y)
  · intro e n where_
    rw [FS.place_zero zero] at where_
    cases where_
  have plainZ : Plain z := by
    refine Lexical.plain (fun x hx => lexical x (above.subset hx)) fun inside => zero ?_
    rcases shape with shape | shape
    · rw [shape]
      exact List.mem_cons_of_mem _ inside
    · rw [shape,slashed]
      by_cases empty : z = []
      · simp [empty] at inside
      · simp [empty,absText,inside]
  refine makes_of_walk (leads fs conf) plain (fun q le link => clear q le (conf.links _ link)) area
    (above.trans on) ?_
  rcases shape with shape | shape
  · rw [shape,FS.place_absText plainZ]
  · rw [shape,place_slashed plainZ]

section

variable (leads : fs.Leads a d) (root : Plain a)
include leads root

theorem place_below {n : Name} (plain : Lexical (p ++ [n])) (clear : ∀ q, q <+: p → ¬ fs.IsLink (d ++ q))
    (last : follow = true → ¬ fs.IsLink (d ++ p ++ [n]))
    (where_ : fs.place follow cwd (absText (a ++ (p ++ [n]))) = .ok pl) : pl = .entry (d ++ p) n := by
  have names : Plain (a ++ (p ++ [n])) := by
    refine Lexical.plain (lexical_append.mpr ⟨root.lexical,plain⟩) fun zero => ?_
    rw [absText,FS.place_zero (List.mem_cons_of_mem _ zero)] at where_
    cases where_
  rcases FS.place_clear leads root (plain_append.mp names).2 cwd clear last with
    ⟨-,there⟩ | ⟨q,-,-,stopped⟩
  · rw [there] at where_
    cases where_
    rfl
  · rw [stopped] at where_
    cases where_

theorem names_below {n : Name} (plain : Lexical (p ++ [n]))
    (clear : ∀ q, q <+: p → ¬ fs.IsLink (d ++ q)) (area : Area (d ++ p ++ [n])) :
    Names cwd Area (absText (a ++ (p ++ [n]))) fs := by
  intro e m where_
  cases place_below leads root plain clear (by simp) where_
  exact area

theorem locate_below {n : Name} (plain : Lexical (p ++ [n])) (clear : ∀ q, q <+: p → ¬ fs.IsLink (d ++ q))
    (last : ¬ fs.IsLink (d ++ p ++ [n]))
    (where_ : fs.locate true cwd (absText (a ++ (p ++ [n]))) = .ok (q,x)) : q = d ++ p ++ [n] := by
  rw [← List.append_assoc,FS.locate_absText (plain n (by simp)),List.append_assoc] at where_
  exact present_entry (fun _ => place_below leads root plain clear fun _ => last) where_

end

end below

/-! Areas that hold no links: whole subtrees may move inside them. -/

/-- The area goes down with its directories and held no link. -/
structure Region (before : FS) (Area : Path → Prop) : Prop where
  closed : ∀ p q, Area p → Area (p ++ q)
  bare : ∀ p, Area p → ¬ before.IsLink p

/-- Wherever the text leads from a directory, it leads into the area. -/
structure Lands (base : Path) (Area : Path → Prop) (s : Bytes) (fs : FS) : Prop where
  place : ∀ follow pl, fs.place follow base s = .ok pl → ∃ d n, pl = .entry d n ∧ Area (d ++ [n])
  locate : ∀ follow q x, fs.locate follow base s = .ok (q, x) → Area q

theorem Lands.names {base : Path} {fs : FS} (h : Lands base Area s fs) : Names base Area s fs := by
  intro d n where_
  obtain ⟨_,_,⟨⟩,inside⟩ := h.place _ _ where_
  exact inside

section regions

variable {before fs fs' : FS} {Area : Path → Prop} {host : Host} {base : Path} {s : Bytes}

theorem Region.unlinked (region : Region before Area) (conf : Confined before Area fs) (inside : Area p) : ¬ fs.IsLink p :=
  fun link => region.bare p inside (conf.links p link)

/-- A subtree moves within the area. -/
theorem Confined.movedTree {p q : Path} (h : Confined before Area fs) (region : Region before Area)
    (eq : fs'.node = fs.moved p q) (from_ : Area p) (to_ : Area q) : Confined before Area fs' := by
  have apart : ∀ {d r}, Area d → ¬ Area r → ¬ d <+: r := by
    rintro d _ inside out ⟨t,rfl⟩
    exact out (region.closed d t inside)
  constructor
  · intro r out
    rw [eq,FS.moved,if_neg (apart to_ out),if_neg (apart from_ out),h.outside r out]
  · intro r link
    rw [FS.IsLink,eq,FS.moved] at link
    split at link
    · exact absurd link (region.unlinked h (region.closed p _ from_))
    · split at link
      · simp at link
      · exact h.links r link

theorem Confined.opened {flags : FS.OpenFlags} {umask mode : Nat} {f : Path}
    (h : Confined before Area fs) (lands : Lands base Area s fs)
    (run : fs.openat umask base s flags mode = .ok (f,fs')) : Confined before Area fs' ∧ Area f := by
  rcases FS.openat_ok run with ⟨d,n,-,where_,rfl,-,changed⟩ | ⟨x,at_,-,effect,how⟩
  · obtain ⟨_,_,⟨⟩,inside⟩ := lands.place _ _ where_
    exact ⟨h.change changed inside (by simp [Node.isLink]),inside⟩
  · have inside : Area f := by
      rcases how with ⟨-,pl,where_,rfl⟩ | ⟨-,where_⟩
      · obtain ⟨_,_,rfl,inside⟩ := lands.place _ _ where_
        exact inside
      · exact lands.locate _ _ _ where_
    refine ⟨?_,inside⟩
    rcases effect with rfl | ⟨-,_,_,rfl,changed⟩
    · exact h
    · exact h.change changed inside (by simp [Node.isLink])

variable {old new : Bytes}

theorem Confined.renamed {oldBase newBase : Path} (h : Confined before Area fs)
    (region : Region before Area) (from_ : Names oldBase Area old fs) (to_ : Names newBase Area new fs)
    (run : fs.renameat oldBase old newBase new = .ok ((),fs')) : Confined before Area fs' := by
  obtain ⟨d,n,d',n',x,there,here,-,effect⟩ := FS.renameat_ok run
  rcases effect with ⟨rfl,-⟩ | ⟨-,-,changed⟩
  · exact h
  · exact h.movedTree region changed (from_ d n there) (to_ d' n' here)

theorem Confined.chmodded (h : Confined before Area fs) (lands : Lands base Area s fs)
    (run : fs.fchmodat base s mode = .ok ((),fs')) : Confined before Area fs' := by
  obtain ⟨p,x,where_,changed⟩ := FS.fchmodat_ok run
  refine h.change changed (lands.locate _ _ _ where_) ?_
  rw [FS.IsLink,FS.locate_ok where_]
  cases x <;> simp [FS.chmodNode,Node.isLink]

theorem keeps_pwrite_inside (inside : Area p) (offset : Nat) (data : Bytes) :
    Keeps host (Intact before Area) (pwrite p offset data) := by
  apply keeps_pwrite
  intro fs new fs' inv run
  obtain ⟨mode,old,-,changed⟩ := FS.pwrite_ok run
  exact inv.change changed inside (by simp [Node.isLink])

theorem yields_openFile (lands : ∀ fs, Confined before Area fs → Lands host.cwd Area s fs)
    (flags : FS.OpenFlags) (perm : Nat) :
    Yields host (Intact before Area) (openFile s flags perm) Area := by
  intro w inv
  exact wp_sys_kept inv fun f fs run => inv.opened (lands _ inv) run

theorem keeps_chmod (lands : ∀ fs, Confined before Area fs → Lands host.cwd Area s fs) (mode : Nat) :
    Keeps host (Intact before Area) (chmod s mode) :=
  keeps_sys fun fs _ _ inv run => inv.chmodded (lands fs inv) run

theorem keeps_rename (region : Region before Area) (from_ : ∀ fs, Confined before Area fs → Lands host.cwd Area old fs)
    (to_ : ∀ fs, Confined before Area fs → Lands host.cwd Area new fs) :
    Keeps host (Intact before Area) (rename old new) :=
  (keeps_refuseDirectory old new).bind fun _ =>
    keeps_sys fun fs _ _ inv run => inv.renamed region (from_ fs inv).names (to_ fs inv).names run

theorem keeps_readFile {I : FS → Prop} (s : Bytes) : Keeps host (fun w => I w.fs) (readFile s) :=
  (keeps_openRead s _ rfl rfl).bind fun _ => (keeps_query _).bind fun _ =>
    (keeps_query _).ignore.bind fun _ => Keeps.pure _

theorem keeps_writeFile {R : Path → Prop} {I : FS → Prop} (data : Bytes) (perm : Nat)
    (opened : Yields host (fun w => I w.fs) (openFile s { write := true, create := true, trunc := true } perm) R)
    (write : ∀ f, R f → Keeps host (fun w => I w.fs) (pwrite f 0 data)) :
    Keeps host (fun w => I w.fs) (writeFile s data perm) := by
  refine opened.bindKeeps fun f inside => ?_
  refine (write f inside).attempt.bind fun r => ?_
  cases r with
  | ok _ => exact keeps_query _
  | error e => exact (keeps_query _).ignore.bind fun _ => Keeps.throw _

theorem keeps_writeInside (lands : ∀ fs, Confined before Area fs → Lands host.cwd Area s fs) (data : Bytes) (perm : Nat) :
    Keeps host (Intact before Area) (writeFile s data perm) :=
  keeps_writeFile data perm (yields_openFile lands _ perm) fun _ inside => keeps_pwrite_inside inside 0 data

end regions

/-! A directory named by an absolute text, with the area inside it. -/

structure Root (before : FS) (Area : Path → Prop) (a d : Path) : Prop where
  plain : Plain a
  anchored : before.Anchored Area a d
  inside : ∀ q, q ≠ [] → Area (d ++ q)

section roots

variable {before fs : FS} {Area : Path → Prop} {host : Host} {a d p : Path} {n : Name}

theorem Root.leads (root : Root before Area a d) (conf : Confined before Area fs) : fs.Leads a d :=
  root.anchored.leads conf fun _ => id

section

variable (root : Root before Area a d) (region : Region before Area)
include root region

theorem Root.clear (conf : Confined before Area fs) (q : Path) : ¬ fs.IsLink (d ++ q) := by
  by_cases h : q = []
  · rw [h,List.append_nil]
    exact (root.leads conf).1.not_isLink
  · exact region.unlinked conf (root.inside q h)

theorem Root.keeps_mkdirAll (plain : Lexical p) (on : y <+: a ++ p) (perm : Nat) :
    Keeps host (Intact before Area) (mkdirAll (absText y) perm) :=
  Posix.keeps_mkdirAll perm root.plain plain (fun _ conf => root.leads conf)
    (fun q _ => root.clear region (Confined.refl before Area) q) (fun q _ more => root.inside q more) on

theorem Root.place_eq (plain : Lexical (p ++ [n])) (conf : Confined before Area fs) {base : Path}
    (where_ : fs.place follow base (absText (a ++ (p ++ [n]))) = .ok pl) :
    pl = .entry (d ++ p) n := by
  have last : ¬ fs.IsLink (d ++ p ++ [n]) := by
    rw [List.append_assoc]
    exact root.clear region conf _
  exact place_below (root.leads conf) root.plain plain (fun q _ => root.clear region conf q) (fun _ => last) where_

theorem Root.locate_eq (plain : Lexical (p ++ [n])) (conf : Confined before Area fs) {base q : Path}
    (where_ : fs.locate follow base (absText (a ++ (p ++ [n]))) = .ok (q,x)) :
    q = d ++ p ++ [n] := by
  rw [← List.append_assoc,FS.locate_absText (plain n (by simp)),List.append_assoc] at where_
  exact present_entry (fun _ => root.place_eq region plain conf) where_

theorem Root.lands (plain : Lexical (p ++ [n])) {base : Path} (conf : Confined before Area fs) :
    Lands base Area (absText (a ++ (p ++ [n]))) fs := by
  have inside : Area (d ++ p ++ [n]) := by
    rw [List.append_assoc]
    exact root.inside _ (by simp)
  constructor
  · intro follow pl where_
    exact ⟨d ++ p,n,root.place_eq region plain conf where_,inside⟩
  · intro follow q x where_
    rw [root.locate_eq region plain conf where_]
    exact inside

end

section

variable (root : Root before Area a d)
include root

theorem Root.top (conf : Confined before Area fs) {base : Path}
    (where_ : fs.place follow base (absText a) = .ok pl) : pl.path = d := by
  obtain ⟨_,own,_⟩ := root.leads conf
  obtain ⟨there,reached,at_⟩ := own follow
  rw [FS.place_absText root.plain,reached] at where_
  cases where_
  exact at_

/-- The directory part of a text on or below the root is on the way to it. -/
theorem Root.dir_prefix (named : a ≠ []) (plain : Lexical p) : ∃ y, y <+: a ++ p ∧ dir (absText (a ++ p)) = absText y := by
  rcases List.eq_nil_or_concat' (a ++ p) with empty | ⟨y,n,shape⟩
  · simp [named] at empty
  · have both : Lexical (y ++ [n]) := shape ▸ lexical_append.mpr ⟨root.plain.lexical,plain⟩
    obtain ⟨above,last⟩ := lexical_append.mp both
    exact ⟨y,⟨[n],shape.symm⟩,by rw [shape,dir_absText above (last n (by simp))]⟩

/-- Writing a file at the root's own text comes to nothing: there is a directory. -/
theorem Root.keeps_writeTop (data : Bytes) (perm : Nat) :
    Keeps host (Intact before Area) (writeFile (absText a) data perm) := by
  have solid : ∀ {fs : FS} {x}, Confined before Area fs → fs.node d = some x → x.isDir = true := by
    intro fs x conf at_
    have := (root.leads conf).1
    simpa [FS.IsDir,at_] using this
  refine keeps_writeFile (R := (· = d)) data perm ?_ ?_
  · intro w inv
    refine wp_sys_kept inv ?_
    intro f fs run
    rcases FS.openat_ok run with ⟨e,n,-,where_,rfl,absent,-⟩ | ⟨x,at_,-,effect,⟨-,pl,where_,rfl⟩ | ⟨create,-⟩⟩
    · have here : e ++ [n] = d := root.top inv where_
      rw [here] at absent
      exact absurd absent (root.leads inv).1.present
    · have here := root.top inv where_
      rw [here] at at_ ⊢
      rcases effect with rfl | ⟨-,_,_,rfl,-⟩
      · exact ⟨inv,rfl⟩
      · cases solid inv at_
    · cases create
  · rintro _ rfl
    refine keeps_pwrite fun fs new fs' inv run => ?_
    obtain ⟨mode,old,at_,-⟩ := FS.pwrite_ok run
    cases solid inv at_

theorem Root.keeps_writeFile (region : Region before Area) (plain : Lexical p) (data : Bytes) (perm : Nat) :
    Keeps host (Intact before Area) (writeFile (absText (a ++ p)) data perm) := by
  rcases List.eq_nil_or_concat' p with rfl | ⟨p,n,rfl⟩
  · rw [List.append_nil]
    exact root.keeps_writeTop data perm
  · exact keeps_writeInside (fun fs conf => root.lands region plain conf) data perm

theorem Root.rename_refused {a' d' : Path} (other : Root before Area a' d')
    (region : Region before Area) (plain : Lexical (p ++ [n])) {data : Bytes} {w : World}
    (inv : Confined before Area w.fs ∧ w.fs.node (d' ++ p ++ [n]) = some (.file mode data)) :
    wp (rename (absText (a' ++ (p ++ [n]))) (absText a)) host w (fun _ _ => False)
      (fun _ w' => Confined before Area w'.fs) (fun w' => Confined before Area w'.fs) := by
  unfold rename
  rw [wp_bind]
  refine (keeps_refuseDirectory (I := fun fs => Confined before Area fs ∧
    fs.node (d' ++ p ++ [n]) = some (.file mode data)) _ _ w inv).stops ?_ (fun _ h => h.1)
  rintro _ w₁ ⟨conf,file⟩
  refine wp_sys_kept conf ?_
  intro _ fs run
  obtain ⟨e,m,e',m',x,old,new,at_,effect⟩ := FS.renameat_ok run
  cases other.place_eq region plain conf old
  rw [file] at at_
  cases at_
  have here : e' ++ [m'] = d := root.top conf new
  obtain ⟨perm,there⟩ := FS.isDir_iff.mp (root.leads conf).1
  rcases effect with ⟨-,same⟩ | ⟨kind,-⟩
  · rw [same,here,there] at file
    cases file
  · rw [here] at kind
    cases kind _ there

end

end roots

/-! Calls on a descriptor: one name at a time, or a text as it came. -/

/-- Everything strictly below the directory is in the area. -/
def Under (Area : Path → Prop) (fd : Path) : Prop := ∀ q, q ≠ [] → Area (fd ++ q)

section descriptors

variable {before fs : FS} {Area : Path → Prop} {host : Host} {fd : Path} {n : Name}

theorem Under.append (under : Under Area fd) (q : Path) : Under Area (fd ++ q) := by
  intro r more
  rw [List.append_assoc]
  exact under _ (by simp [more])

theorem place_segment (segment : Segment n) (where_ : fs.place follow fd n = .ok pl)
    (last : follow = true → ¬ fs.IsLink (fd ++ [n])) : pl = .entry fd n := by
  by_cases zero : (0 : UInt8) ∈ n
  · rw [FS.place_zero zero] at where_
    cases where_
  · have walked : fs.walk follow FS.maxLinks fd [n] = .ok (.entry fd n) := FS.pass_last ⟨segment.2.1,segment.2.2.1⟩ last
    rw [FS.place,FS.resolve,if_neg segment.1,if_neg zero,not_isRooted segment.2.2.2,
      components_name segment.1 segment.2.2.2] at where_
    simp only [Bool.false_eq_true,if_false,walked,Except.ok.injEq] at where_
    exact where_.symm

theorem place_name (segment : Segment n) (where_ : fs.place false fd n = .ok pl) : pl = .entry fd n :=
  place_segment segment where_ (by simp)

theorem locate_segment (segment : Segment n) (where_ : fs.locate follow fd n = .ok (q,x))
    (last : follow = true → ¬ fs.IsLink (fd ++ [n])) : q = fd ++ [n] := by
  have plain : lookupComponents n = components n := by
    have : endsInSlash n = false := by
      simp only [endsInSlash,decide_eq_false_iff_not]
      exact fun h => segment.2.2.2 (List.mem_of_getLast? h)
    simp [lookupComponents,this]
  rw [FS.locate,plain] at where_
  exact present_entry (fun _ found => place_segment segment found last) where_

theorem locate_name (segment : Segment n) (where_ : fs.locate false fd n = .ok (q,x)) : q = fd ++ [n] :=
  locate_segment segment where_ (by simp)

theorem yields_dup {I : FS → Prop} : Yields host (fun w => I w.fs) (Unix.dup fd) (· = fd) := by
  intro w inv
  refine wp_query_kept inv fun a found => ?_
  cases found
  exact ⟨inv,rfl⟩

theorem yields_openat {I : FS → Prop} (segment : Segment n) {flags : FS.OpenFlags} (nofollow : flags.nofollow = true)
    (create : flags.create = false) (trunc : flags.trunc = false) (mode : Nat) :
    Yields host (fun w => I w.fs) (Unix.openat fd n flags mode) (· = fd ++ [n]) := by
  intro w inv
  refine wp_sys_kept inv ?_
  intro x fs run
  rcases FS.openat_ok run with ⟨_,_,new,-⟩ | ⟨y,-,-,same | ⟨emptied,-⟩,⟨new,-⟩ | ⟨-,where_⟩⟩
  · rw [create] at new; cases new
  · rw [create] at new; cases new
  · refine ⟨same ▸ inv,locate_segment segment where_ fun h => ?_⟩
    rw [nofollow] at h
    cases h
  · rw [trunc] at emptied; cases emptied
  · rw [trunc] at emptied; cases emptied

theorem yields_openDirectory {I : FS → Prop} (segment : Segment n) :
    Yields host (fun w => I w.fs) (openDirectory fd n) (· = fd ++ [n]) := yields_openat segment rfl rfl rfl 0

theorem yields_stepInto {I : FS → Prop} {comps : List Name} (plain : ∀ c ∈ comps, slash ∉ c) : Yields host
    (fun w => I w.fs) (stepInto fd comps) (· = fd ++ comps.filter fun c => c ≠ [] ∧ c ≠ dot) := by
  induction comps generalizing fd with
  | nil => exact Yields.pure (List.append_nil fd).symm
  | cons c comps ih =>
    have later : ∀ c ∈ comps, slash ∉ c := fun c hc => plain c (List.mem_cons_of_mem _ hc)
    unfold stepInto
    split
    · next idle =>
      rw [List.filter_cons_of_neg (by simpa [or_iff_not_imp_left] using idle)]
      exact ih later
    · next real =>
      rw [not_or] at real
      intro w inv
      rw [wp_bind,wp_require]
      refine ⟨fun isUp => ?_,fun _ => inv⟩
      have segment : Segment c := ⟨real.1,real.2,isUp,plain c List.mem_cons_self⟩
      refine (yields_openDirectory segment).bind ?_ w inv
      rintro _ rfl
      have rest := @ih (fd ++ [c]) later
      rwa [List.append_assoc,List.singleton_append,← List.filter_cons_of_pos (by simpa using real)] at rest

theorem yields_stepInto_plain {I : FS → Prop} (plain : Plain q) :
    Yields host (fun w => I w.fs) (stepInto fd q) (· = fd ++ q) := by
  have every : q.filter (fun c => c ≠ [] ∧ c ≠ dot) = q :=
    List.filter_eq_self.mpr fun c member => by simpa using ⟨(plain c member).1,(plain c member).2.1⟩
  simpa only [every] using yields_stepInto (I := I) fun c member => (plain c member).segment.2.2.2

theorem lands_name (region : Region before Area) (under : Under Area fd) (segment : Segment n)
    (conf : Confined before Area fs) : Lands fd Area n fs := by
  have inside : Area (fd ++ [n]) := under [n] (by simp)
  have last : ¬ fs.IsLink (fd ++ [n]) := region.unlinked conf inside
  constructor
  · intro follow pl where_
    exact ⟨fd,n,place_segment segment where_ fun _ => last,inside⟩
  · intro follow q x where_
    rw [locate_segment segment where_ fun _ => last]
    exact inside

/-- `filepath.Base` of any text is a name, or nothing the kernel makes an entry of. -/
theorem base_cases (s : Bytes) : base s = dot ∨ base s = dotdot ∨ base s = [slash] ∨ Segment (base s) := by
  unfold base
  split
  · exact .inl rfl
  · rcases last : (components s).getLast? with _ | n
    · exact .inr (.inr (.inl rfl))
    · obtain ⟨nonempty,plain⟩ := mem_components (List.mem_of_getLast? last)
      by_cases isDot : n = dot
      · exact .inl isDot
      · by_cases isUp : n = dotdot
        · exact .inr (.inl isUp)
        · exact .inr (.inr (.inr ⟨nonempty,isDot,isUp,plain⟩))

theorem place_nowhere (h : s = dot ∨ s = dotdot ∨ s = [slash]) : fs.place follow fd s ≠ .ok (.entry d n) := by
  rcases h with rfl | rfl | rfl <;> intro where_ <;> cases where_

theorem names_base (under : Under Area fd) (s : Bytes) : Names fd Area (base s) fs := by
  intro d n where_
  have cases := base_cases s
  rw [← or_assoc,← or_assoc,or_assoc (a := base s = dot)] at cases
  rcases cases with nowhere | segment
  · exact absurd where_ (place_nowhere nowhere)
  · cases place_name segment where_
    exact under [base s] (by simp)

/-- A text walked component by component from a directory without links below it. -/
theorem pass_raw {jump : Path → List Name → Except Errno Place} {d e : Path} {m : Name}
    (clear : ∀ r, r ≠ [] → ¬ fs.IsLink (d ++ r)) {comps : List Name} (lexical : dotdot ∉ q)
    (stays : dotdot ∉ comps.dropLast.foldl (cleanStep false) q)
    (reached : fs.pass false jump (d ++ q) comps = .ok (.entry e m)) :
    (∃ r, e = d ++ r) ∧ comps.getLast? = some m ∧ FS.Down m := by
  induction comps generalizing q with
  | nil => simp [FS.pass] at reached
  | cons c comps ih =>
    by_cases last : comps = []
    · subst last
      by_cases isDot : c = dot
      · simp [FS.pass,isDot] at reached
      · by_cases isUp : c = dotdot
        · simp [FS.pass,isUp,show dotdot ≠ dot by decide] at reached
        · rw [FS.pass_last ⟨isDot,isUp⟩ (fun h : false = true => by cases h)] at reached
          cases reached
          exact ⟨⟨q,rfl⟩,rfl,isDot,isUp⟩
    · rw [List.dropLast_cons_of_ne_nil last,List.foldl_cons] at stays
      rw [List.getLast?_cons_of_ne_nil last]
      by_cases isDot : c = dot
      · simp only [cleanStep,isDot,if_true] at stays
        simp only [FS.pass,isDot,if_true] at reached
        exact ih lexical stays reached
      · by_cases isUp : c = dotdot
        · have up : dotdot ≠ dot := by decide
          simp only [FS.pass,isUp,if_neg up,if_true] at reached
          by_cases top : q = []
          · refine absurd (cleanSteps_climbed ?_) stays
            simp [cleanStep,isUp,top,up]
          · have named : q.getLast? ≠ some dotdot := fun h => lexical (List.mem_of_getLast? h)
            rw [cleanStep,if_neg isDot,if_pos isUp,if_neg top,if_neg named] at stays
            rw [List.dropLast_append_of_ne_nil top] at reached
            exact ih (fun h => lexical (List.mem_of_mem_dropLast h)) stays reached
        · rw [cleanStep,if_neg isDot,if_neg isUp] at stays
          have link : ¬ fs.IsLink (d ++ q ++ [c]) := by
            rw [List.append_assoc]
            exact clear _ (by simp)
          by_cases dir : fs.IsDir (d ++ q ++ [c])
          · rw [FS.pass_dir ⟨isDot,isUp⟩ dir last,List.append_assoc] at reached
            exact ih (by simp [lexical,Ne.symm isUp]) stays reached
          · rw [FS.pass_blocked ⟨isDot,isUp⟩ dir link last] at reached
            cases reached

/-- A relative text handed to the kernel as it came stays below its directory if it does
not climb before its last element; what it names then is `filepath.Base` of it. -/
theorem place_raw (region : Region before Area) (under : Under Area fd)
    (conf : Confined before Area fs) (rooted : isRooted s = false) (stays : Stays (upToSlash s))
    (reached : fs.place false fd s = .ok (.entry d n)) : Area (d ++ [n]) ∧ base s = n ∧ Segment n := by
  have nonempty : s ≠ [] := by
    rintro rfl
    cases reached
  have walked : fs.walk false FS.maxLinks (fd ++ []) (components s) = .ok (.entry d n) := by
    rw [List.append_nil]
    rw [FS.place,FS.resolve,if_neg nonempty,rooted] at reached
    split at reached
    · cases reached
    · exact reached
  obtain ⟨⟨r,rfl⟩,last,down⟩ := pass_raw (fun r more => region.unlinked conf (under r more))
    (List.not_mem_nil (a := dotdot)) (stays_dropLast stays) walked
  obtain ⟨named,plain⟩ := mem_components (List.mem_of_getLast? last)
  refine ⟨?_,by rw [base,if_neg nonempty,last]; rfl,named,down.1,down.2,plain⟩
  rw [List.append_assoc]
  exact under _ (by simp)

end descriptors

end Integris.Posix
