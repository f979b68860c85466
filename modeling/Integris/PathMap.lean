import Mathlib.Data.List.Infix
import Mathlib.Logic.Function.Basic

/-! Trees as maps from paths to objects, edited one path at a time. An edit may fill the
path and what is missing above it, or write the path after its directory has been swept of
childless objects with junk names. The lemmas say what a sequence of such edits leaves at
a given path. -/
namespace Integris.PathMap

variable {α β : Type}

abbrev Tree (α β : Type) := List α → Option β

/-- Nothing stands directly below. -/
def Bare (t : Tree α β) (x : List α) : Prop := ∀ n, t (x ++ [n]) = none

inductive Edit (β : Type) where
  | leave
  | make (v : β)
  | write (above v : β)

/-- What the edit puts at its path. -/
def Edit.object : Edit β → Option β
  | .leave => none
  | .make v => some v
  | .write _ v => some v

/-- What is made for the edit where its path has no parent. -/
def Edit.parent : Edit β → Option β
  | .leave => none
  | .make v => some v
  | .write above _ => some above

open Classical in
/-- `v` wherever nothing stands on the way from `d` down `q`. -/
noncomputable def grow (v : β) (d q : List α) (t : Tree α β) : Tree α β := fun x =>
  if t x = none ∧ ∃ r, r <+: q ∧ x = d ++ r then some v else t x

open Classical in
/-- The directory `p` without its bare junk. -/
noncomputable def sweep (junk : α → Prop) (p : List α) (t : Tree α β) : Tree α β := fun x =>
  if (∃ n, x = p ++ [n] ∧ junk n) ∧ Bare t x then none else t x

/-- The edit writes into the directory of `e`, whose name is junk. -/
def Sweeps (junk : α → Prop) (e : List α) (p : List α × Edit β) : Prop :=
  (∃ above v, p.2 = .write above v) ∧ ∃ n, e = p.1.dropLast ++ [n] ∧ junk n

section basics

variable {junk : α → Prop} {d r e q : List α} {t : Tree α β} {v : β}

theorem grow_present (present : t e = some v) (w : β) : grow w d q t e = some v := by
  rw [grow,if_neg (by simp [present]),present]

theorem grow_apart (apart : ¬e <+: q) (w : β) : grow w d q t (d ++ e) = t (d ++ e) := by
  rw [grow,if_neg]
  rintro ⟨-,r,le,same⟩
  exact apart (List.append_cancel_left same ▸ le)

theorem grow_way (absent : t (d ++ e) = none) (le : e <+: q) (w : β) : grow w d q t (d ++ e) = some w := by
  rw [grow,if_pos ⟨absent,e,le,rfl⟩]

theorem bare_of_grow {x : List α} {w : β} (bare : Bare (grow w d q t) x) : Bare t x := by
  intro n
  cases here : t (x ++ [n]) with
  | none => rfl
  | some y => exact absurd (bare n) (by rw [grow_present here]; nofun)

theorem sweep_kept {p x : List α} (kept : ¬∃ n, x = p ++ [n] ∧ junk n) : sweep junk p t x = t x := by
  rw [sweep,if_neg fun swept => kept swept.1]

theorem sweep_occupied {p x : List α} (occupied : ¬Bare t x) : sweep junk p t x = t x := by
  rw [sweep,if_neg fun swept => occupied swept.2]

theorem bare_sweep {p x : List α} (deep : ∀ n m, x ++ [n] ≠ p ++ [m]) : Bare (sweep junk p t) x ↔ Bare t x := by
  refine forall_congr' fun n => ?_
  rw [sweep_kept]
  rintro ⟨m,same,-⟩
  exact deep n m same

variable {other : α → Prop}

/-- Two rounds of sweeping are one. -/
theorem sweep_sweep {p : List α} : sweep other p (sweep junk p t) = sweep (fun n => junk n ∨ other n) p t := by
  funext x
  by_cases entry : ∃ n, x = p ++ [n]
  · obtain ⟨n,rfl⟩ := entry
    have deep : Bare (sweep junk p t) (p ++ [n]) ↔ Bare t (p ++ [n]) := by
      refine bare_sweep fun m k same => ?_
      have := congrArg List.length same
      simp at this
    have here (K : α → Prop) : (∃ m, p ++ [n] = p ++ [m] ∧ K m) ↔ K n := by simp
    rw [sweep,deep,here,sweep,here,sweep,here]
    by_cases bare : Bare t (p ++ [n]) <;> by_cases first : junk n <;> by_cases second : other n <;>
      simp [bare,first,second]
  · have off (K : α → Prop) : ¬∃ n, x = p ++ [n] ∧ K n := fun ⟨n,same,_⟩ => entry ⟨n,same⟩
    rw [sweep_kept (off _),sweep_kept (off _),sweep_kept (off _)]

theorem sweep_congr {p : List α} (same : ∀ n, t (p ++ [n]) ≠ none → (junk n ↔ other n)) :
    sweep junk p t = sweep other p t := by
  funext x
  by_cases entry : ∃ n, x = p ++ [n] ∧ t x ≠ none
  · obtain ⟨n,rfl,present⟩ := entry
    have here (K : α → Prop) : (∃ m, p ++ [n] = p ++ [m] ∧ K m) ↔ K n := by simp
    rw [sweep,sweep,here,here,same n present]
  · rw [sweep,sweep]
    by_cases gone : t x = none
    · simp [gone]
    · have off (K : α → Prop) : ¬∃ n, x = p ++ [n] ∧ K n := fun ⟨n,at_,_⟩ => entry ⟨n,at_,gone⟩
      rw [if_neg fun h => off _ h.1,if_neg fun h => off _ h.1]

variable {n : α}

theorem dropLast_not_below : ¬q ++ [n] <+: q := by
  intro le
  have := le.length_le
  rw [List.length_append,List.length_singleton] at this
  omega

end basics

variable [DecidableEq α]

/-- The edit of the path `r` below `d`. -/
noncomputable def Edit.run (junk : α → Prop) (d r : List α) : Edit β → Tree α β → Tree α β
  | .leave, t => t
  | .make v, t => grow v d r t
  | .write above v, t =>
    Function.update (sweep junk (d ++ r.dropLast) (grow above d r.dropLast t)) (d ++ r) (some v)

noncomputable def runAll (junk : α → Prop) (d : List α) (edits : List (List α × Edit β)) (t : Tree α β) : Tree α β :=
  edits.foldl (fun t e => e.2.run junk d e.1 t) t

section single_entry

variable {p : List α} {n : α} {t : Tree α β}

theorem sweep_entry_bare (bare : Bare t (p ++ [n])) : sweep (fun m => m = n) p t = Function.update t (p ++ [n]) none := by
  funext x
  by_cases own : x = p ++ [n]
  · subst own
    rw [Function.update_self,sweep,if_pos ⟨⟨n,rfl,rfl⟩,bare⟩]
  · rw [Function.update_of_ne own,sweep_kept]
    rintro ⟨m,same,rfl⟩
    exact own same

omit [DecidableEq α] in
theorem sweep_entry_kept (stays : t (p ++ [n]) = none ∨ ¬Bare t (p ++ [n])) : sweep (fun m => m = n) p t = t := by
  funext x
  by_cases own : ∃ m, x = p ++ [m] ∧ m = n
  · obtain ⟨m,rfl,rfl⟩ := own
    rcases stays with none_ | occupied
    · rw [sweep,none_,ite_self]
    · rw [sweep_occupied occupied]
  · rw [sweep_kept own]

end single_entry

section single

variable {junk : α → Prop} {d r e : List α} {t : Tree α β} {v : β} {edit : Edit β}

/-- What stands stays, unless it is edited itself, or bare and swept. -/
theorem run_kept (present : t (d ++ e) = some v) (other : r ≠ e ∨ ∀ above w, edit ≠ .write above w)
    (safe : Sweeps junk e (r,edit) → ¬Bare t (d ++ e)) : edit.run junk d r t (d ++ e) = some v := by
  cases edit with
  | leave => exact present
  | make w => exact grow_present present w
  | write above w =>
    have ne : d ++ e ≠ d ++ r := fun same =>
      (other.resolve_right fun no => no above w rfl) (List.append_cancel_left same).symm
    rw [Edit.run,Function.update_of_ne ne,sweep,if_neg]
    · exact grow_present present above
    · rintro ⟨⟨n,same,bad⟩,bare⟩
      rw [List.append_assoc] at same
      exact safe ⟨⟨above,w,rfl⟩,n,List.append_cancel_left same,bad⟩ (bare_of_grow bare)

/-- Nothing appears off the way to the edited path. -/
theorem run_absent (absent : t (d ++ e) = none) (off : edit = .leave ∨ ¬e <+: r) : edit.run junk d r t (d ++ e) = none := by
  cases edit with
  | leave => exact absent
  | make w =>
    have apart : ¬e <+: r := off.resolve_left nofun
    rw [Edit.run,grow_apart apart,absent]
  | write above w =>
    have apart : ¬e <+: r := off.resolve_left nofun
    have ne : d ++ e ≠ d ++ r := fun same => apart (List.append_cancel_left same ▸ List.prefix_refl _)
    have apart' : ¬e <+: r.dropLast := fun le => apart (le.trans (List.dropLast_prefix _))
    rw [Edit.run,Function.update_of_ne ne,sweep]
    split
    · rfl
    · rw [grow_apart apart',absent]

/-- A bare object with a junk name goes when its directory is written to. -/
theorem run_swept (sweeps : Sweeps junk e (r,edit)) (other : r ≠ e) (bare : Bare t (d ++ e)) :
    edit.run junk d r t (d ++ e) = none := by
  obtain ⟨⟨above,w,rfl⟩,n,rfl,bad⟩ := sweeps
  have ne : d ++ (r.dropLast ++ [n]) ≠ d ++ r := fun same => other (List.append_cancel_left same).symm
  have still : Bare (grow above d r.dropLast t) (d ++ (r.dropLast ++ [n])) := by
    intro m
    have off : ¬r.dropLast ++ [n] ++ [m] <+: r.dropLast := fun le =>
      dropLast_not_below ((List.prefix_append _ _).trans le)
    rw [List.append_assoc,grow_apart off,← List.append_assoc]
    exact bare m
  rw [Edit.run,Function.update_of_ne ne,sweep,if_pos ⟨⟨n,(List.append_assoc ..).symm,bad⟩,still⟩]

theorem run_self (edited : edit ≠ .leave) : edit.run junk d r t (d ++ r) ≠ none := by
  cases edit with
  | leave => exact absurd rfl edited
  | make w =>
    rw [Edit.run]
    cases here : t (d ++ r) with
    | none => simp [grow_way here (List.prefix_refl r)]
    | some y => simp [grow_present here]
  | write above w => simp [Edit.run]

theorem run_object (absent : (∃ w, edit = .make w) → t (d ++ r) = none) (made : edit.object = some v) :
    edit.run junk d r t (d ++ r) = some v := by
  cases edit with
  | leave => cases made
  | make w =>
    cases made
    exact grow_way (absent ⟨_,rfl⟩) (List.prefix_refl r) _
  | write above w =>
    cases made
    rw [Edit.run,Function.update_self]

theorem run_parent (absent : t (d ++ e) = none) (made : edit.parent = some v) :
    edit.run junk d (e ++ [n]) t (d ++ e) = some v := by
  cases edit with
  | leave => cases made
  | make w =>
    cases made
    exact grow_way absent (List.prefix_append _ _) _
  | write above w =>
    cases made
    have ne : d ++ e ≠ d ++ (e ++ [n]) := fun same => by simpa using congrArg List.length same
    have outside : ¬∃ m, d ++ e = d ++ e ++ [m] ∧ junk m := fun ⟨m,same,_⟩ => by simpa using congrArg List.length same
    rw [Edit.run,Function.update_of_ne ne,List.dropLast_concat,sweep_kept outside]
    exact grow_way absent (List.prefix_refl _) _

/-- A directory with something in it keeps something in it. -/
theorem run_occupied (more : r ≠ []) (occupied : ¬Bare t (d ++ e)) : ¬Bare (edit.run junk d r t) (d ++ e) := by
  cases edit with
  | leave => exact occupied
  | make w => exact fun bare => occupied (bare_of_grow bare)
  | write above w =>
    intro bare
    by_cases home : e = r.dropLast
    · -- the written object itself
      subst home
      have there := bare (r.getLast more)
      rw [List.append_assoc,List.dropLast_concat_getLast] at there
      exact run_self (nofun : Edit.write above w ≠ .leave) there
    · refine occupied fun n => ?_
      by_contra present
      obtain ⟨y,here⟩ := Option.ne_none_iff_exists'.mp present
      rw [List.append_assoc] at here
      have ne : d ++ (e ++ [n]) ≠ d ++ r := fun same =>
        home (by rw [← List.append_cancel_left same,List.dropLast_concat])
      have elsewhere : ¬∃ m, d ++ (e ++ [n]) = d ++ r.dropLast ++ [m] ∧ junk m := by
        rintro ⟨m,same,-⟩
        rw [List.append_assoc] at same
        exact home (List.append_inj' (List.append_cancel_left same) rfl).1
      have gone := bare n
      rw [List.append_assoc,Edit.run,Function.update_of_ne ne,sweep_kept elsewhere,grow_present here] at gone
      cases gone

end single

section sequence

variable {junk : α → Prop} {d e : List α} {t : Tree α β} {v : β} {edits before after : List (List α × Edit β)}

theorem runAll_cons (p : List α × Edit β) : runAll junk d (p :: edits) t = runAll junk d edits (p.2.run junk d p.1 t) := rfl

theorem runAll_append : runAll junk d (before ++ after) t = runAll junk d after (runAll junk d before t) :=
  List.foldl_append

theorem runAll_induction {P : Tree α β → Prop} (start : P t)
    (step : ∀ p ∈ edits, ∀ u, P u → P (p.2.run junk d p.1 u)) : P (runAll junk d edits t) := by
  induction edits generalizing t with
  | nil => exact start
  | cons p edits ih =>
    rw [runAll_cons]
    exact ih (step p List.mem_cons_self t start) fun q hq => step q (List.mem_cons_of_mem _ hq)

/-- What stands stays if it is occupied whenever an edit sweeps it. -/
theorem runAll_kept (present : t (d ++ e) = some v) (other : ∀ p ∈ edits, p.1 ≠ e ∨ ∀ above w, p.2 ≠ .write above w)
    (safe : ∀ front p back, edits = front ++ p :: back → Sweeps junk e p → ¬Bare (runAll junk d front t) (d ++ e)) :
    runAll junk d edits t (d ++ e) = some v := by
  induction edits generalizing t with
  | nil => exact present
  | cons p edits ih =>
    rw [runAll_cons]
    refine ih (run_kept present (other p List.mem_cons_self) (safe [] p edits rfl))
      (fun q hq => other q (List.mem_cons_of_mem _ hq)) fun front q back split => ?_
    rw [← runAll_cons]
    exact safe (p :: front) q back (by rw [split,List.cons_append])

theorem runAll_absent (absent : t (d ++ e) = none) (off : ∀ p ∈ edits, p.2 = .leave ∨ ¬e <+: p.1) :
    runAll junk d edits t (d ++ e) = none :=
  runAll_induction (P := fun u => u (d ++ e) = none) absent fun p hp _ here => run_absent here (off p hp)

theorem runAll_occupied (more : ∀ p ∈ edits, p.1 ≠ []) (occupied : ¬Bare t (d ++ e)) :
    ¬Bare (runAll junk d edits t) (d ++ e) :=
  runAll_induction (P := fun u => ¬Bare u (d ++ e)) occupied fun p hp _ here => run_occupied (more p hp) here

theorem runAll_bare (bare : Bare t (d ++ e)) (off : ∀ p ∈ edits, ∀ n, ¬e ++ [n] <+: p.1) :
    Bare (runAll junk d edits t) (d ++ e) := by
  intro n
  have here := bare n
  rw [List.append_assoc] at here ⊢
  exact runAll_absent here fun p hp => .inr (off p hp n)

variable {p : List α × Edit β}

/-- What an edit leaves stays to the end if it is occupied whenever a later one sweeps it. -/
theorem runAll_edited (edited : p.2.run junk d p.1 (runAll junk d before t) (d ++ e) = some v)
    (other : ∀ q ∈ after, q.1 ≠ e ∨ ∀ above w, q.2 ≠ .write above w)
    (safe : ∀ front q back, after = front ++ q :: back → Sweeps junk e q →
      ¬Bare (runAll junk d (before ++ p :: front) t) (d ++ e)) :
    runAll junk d (before ++ p :: after) t (d ++ e) = some v := by
  rw [runAll_append,runAll_cons]
  refine runAll_kept edited other fun front q back split sweeps => ?_
  rw [← runAll_cons,← runAll_append]
  exact safe front q back split sweeps

/-- What is swept, and not made again, is gone at the end. -/
theorem runAll_swept (bare : Bare t (d ++ e)) (off : ∀ q ∈ before, ∀ n, ¬e ++ [n] <+: q.1)
    (sweeps : Sweeps junk e p) (other : p.1 ≠ e) (never : ∀ q ∈ after, q.2 = .leave ∨ ¬e <+: q.1) :
    runAll junk d (before ++ p :: after) t (d ++ e) = none := by
  rw [runAll_append,runAll_cons]
  exact runAll_absent (run_swept sweeps other (runAll_bare bare off)) never

theorem runAll_filled (edited : p.2 ≠ .leave) (inside : p.1 = e ++ [n])
    (more : ∀ q ∈ after, q.1 ≠ []) : ¬Bare (runAll junk d (before ++ p :: after) t) (d ++ e) := by
  rw [runAll_append,runAll_cons]
  refine runAll_occupied more fun bare => ?_
  have there := bare n
  rw [List.append_assoc,← inside] at there
  exact run_self edited there

end sequence

end Integris.PathMap
