import Integris.Reach

/-! Programs that only look. On a host that refuses nothing such a program has one
outcome for each tree, whatever the tick, and leaves the tree as it was; a walk over
a list of objects gathers what each of them yields up to the first that fails. -/
namespace Integris

namespace Outcome

variable {ε α β γ : Type}

def bind (r : Outcome ε α) (f : α → Outcome ε β) : Outcome ε β :=
  match r with
  | .ok a => f a
  | .error e => .error e
  | .crashed => .crashed

@[simp] theorem ok_bind (a : α) (f : α → Outcome ε β) : (Outcome.ok a).bind f = f a := rfl

@[simp] theorem error_bind (e : ε) (f : α → Outcome ε β) : (Outcome.error e).bind f = .error e := rfl

variable (f : α → Outcome ε β)

@[simp] theorem crashed_bind : (Outcome.crashed : Outcome ε α).bind f = .crashed := rfl

theorem bind_assoc (r : Outcome ε α) (f : α → Outcome ε β) (g : β → Outcome ε γ) :
    (r.bind f).bind g = r.bind fun a => (f a).bind g := by
  cases r <;> rfl

@[simp] theorem bind_ok (r : Outcome ε α) : (r.bind fun a => .ok a) = r := by cases r <;> rfl

/-- What each element yields, up to the first that does not. -/
def gather (f : α → Outcome ε β) : List α → Outcome ε (List β)
  | [] => .ok []
  | x :: xs => (f x).bind fun y => (gather f xs).bind fun ys => .ok (y :: ys)

@[simp] theorem gather_nil : gather f [] = .ok [] := rfl

theorem gather_append (xs ys : List α) :
    gather f (xs ++ ys) = (gather f xs).bind fun l => (gather f ys).bind fun r => .ok (l ++ r) := by
  induction xs with
  | nil => simp
  | cons x xs ih =>
    rw [List.cons_append,gather,ih,gather]
    simp only [bind_assoc]
    cases f x with
    | error e => rfl
    | crashed => rfl
    | ok y =>
      cases gather f xs with
      | error e => rfl
      | crashed => rfl
      | ok l => cases gather f ys <;> rfl

variable {xs : List α}

theorem gather_ok {f : α → Outcome ε β} {ys : List β} (ok : gather f xs = .ok ys) :
    List.Forall₂ (fun x y => f x = .ok y) xs ys := by
  induction xs generalizing ys with
  | nil =>
    cases ok
    exact .nil
  | cons x xs ih =>
    rw [gather] at ok
    cases first : f x with
    | error e => simp [first] at ok
    | crashed => simp [first] at ok
    | ok y =>
      cases rest : gather f xs with
      | error e => simp [first,rest] at ok
      | crashed => simp [first,rest] at ok
      | ok l =>
        simp only [first,rest,ok_bind,Outcome.ok.injEq] at ok
        subst ok
        exact .cons first (ih rest)

end Outcome

namespace Prog

variable {ρ σ ε α β : Type}

/-- A call that never returns. Nothing after it runs, as after a crash. -/
def stuck : Prog ρ σ ε α := fun _ s => (.crashed, s)

/-- Visit a list and concatenate what is found. -/
def visitAll (visit : α → Prog ρ σ ε (List β)) : List α → Prog ρ σ ε (List β)
  | [] => pure []
  | x :: rest => do
    let found ← visit x
    let more ← visitAll visit rest
    pure (found ++ more)

end Prog

namespace Posix

open Prog Outcome

/-- On this tree the program ends in `r` and changes nothing. -/
def Reads (host : Host) (fs : FS) (m : Prog Host World ε α) (r : Outcome ε α) : Prop :=
  ∀ w, w.fs = fs → ∃ w', m host w = (r, w') ∧ w'.fs = fs

namespace Reads

variable {host : Host} {fs : FS} {ε ε' α β : Type}

theorem pure (a : α) : Reads host fs (Pure.pure a : Prog Host World ε α) (.ok a) := fun w same => ⟨w,rfl,same⟩

theorem throw (e : ε) : Reads host fs (Prog.throw e : Prog Host World ε α) (.error e) := fun w same => ⟨w,rfl,same⟩

variable {f : α → Prog Host World ε β} {m : Prog Host World ε α} {a : α} {look : Host → FS → Except Errno α}

theorem bind {r : Outcome ε α}
    {g : α → Outcome ε β} (first : Reads host fs m r) (next : ∀ a, r = .ok a → Reads host fs (f a) (g a)) :
    Reads host fs (m >>= f) (r.bind g) := by
  intro w same
  obtain ⟨u,run,kept⟩ := first w same
  cases r with
  | ok a =>
    obtain ⟨v,run',kept'⟩ := next a rfl u kept
    exact ⟨v,by rw [bind_run run]; exact run',kept'⟩
  | error e => exact ⟨u,bind_failed run,kept⟩
  | crashed => exact ⟨u,bind_crashed run,kept⟩

theorem then_ {r : Outcome ε β}
    (first : Reads host fs m (.ok a)) (next : Reads host fs (f a) r) : Reads host fs (m >>= f) r :=
  (first.bind (g := fun _ => r) fun b same => by cases same; exact next)

theorem failing {e : ε} (first : Reads host fs m (.error e)) : Reads host fs (m >>= f) (.error e) :=
  first.bind (g := fun _ => .error e) fun _ impossible => by cases impossible

theorem sticking (first : Reads host fs m .crashed) : Reads host fs (m >>= f) .crashed :=
  first.bind (g := fun _ => .crashed) fun _ impossible => by cases impossible

theorem mapError_ok (h : Reads host fs m (.ok a)) (g : ε → ε') : Reads host fs (Prog.mapError g m) (.ok a) := by
  intro w same
  obtain ⟨u,run,kept⟩ := h w same
  exact ⟨u,mapError_run g run,kept⟩

theorem mapError_error {e : ε} (h : Reads host fs m (.error e)) (g : ε → ε') :
    Reads host fs (Prog.mapError g m) (.error (g e)) := by
  intro w same
  obtain ⟨u,run,kept⟩ := h w same
  exact ⟨u,mapError_failed g run,kept⟩

theorem mapError_crashed (h : Reads host fs m .crashed) (g : ε → ε') : Reads host fs (Prog.mapError g m) .crashed := by
  intro w same
  obtain ⟨u,run,kept⟩ := h w same
  refine ⟨u,?_,kept⟩
  rw [Prog.mapError,run]

theorem require {p : Prop} [Decidable p] (h : p) (e : ε) :
    Reads host fs (Prog.require p e : Prog Host World ε Unit) (.ok ()) :=
  fun w same => ⟨w,require_run h e host w,same⟩

theorem query (quiet : host.Quiet) {c : Call}
    (found : look host fs = .ok a) : Reads host fs (Posix.query c look) (.ok a) := by
  intro w same
  exact ⟨w.next w.fs,query_run quiet (same ▸ found),same⟩

theorem openFile (quiet : host.Quiet) {s : Bytes} {flags : FS.OpenFlags} {perm : Nat} {p : Path}
    (found : fs.openat host.umask host.cwd s flags (syscallMode perm) = .ok (p,fs)) :
    Reads host fs (Posix.openFile s flags perm) (.ok p) := by
  intro w same
  exact ⟨w.next fs,sys_run quiet (same ▸ found),rfl⟩

theorem visitAll {γ : Type} {visit : α → Prog Host World ε (List β)} {f : γ → Outcome ε β}
    {below : α → List γ} (each : ∀ x ∈ xs, Reads host fs (visit x) (gather f (below x))) :
    Reads host fs (Prog.visitAll visit xs) (gather f (xs.flatMap below)) := by
  induction xs with
  | nil => exact Reads.pure []
  | cons x xs ih =>
    rw [List.flatMap_cons,gather_append,Prog.visitAll]
    refine (each x List.mem_cons_self).bind fun found _ => ?_
    exact (ih fun y hy => each y (List.mem_cons_of_mem _ hy)).bind fun more _ => Reads.pure _

end Reads

end Posix

end Integris
