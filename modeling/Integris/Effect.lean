import Mathlib.Data.List.Basic

/-! Stateful programs whose environment may refuse or kill any step. A run ends
with a value, with an error the program may handle, or in a crash nothing can
handle; the state reached so far survives all three. `wp` states the three ends
at once, `Keeps` is the rule for invariants that must survive every one of them. -/
namespace Integris

/-- A guard of pure code. -/
def demand (p : Prop) [Decidable p] (e : ε) : Except ε Unit := if p then .ok () else .error e

variable {p : Prop} {rest : Unit → Except ε α}

theorem demand_ok [Decidable p] {e : ε} : demand p e = .ok () ↔ p := by by_cases h : p <;> simp [demand,h]

theorem demand_bind_ok [Decidable p] {e : ε} {r : α} : (demand p e >>= rest) = .ok r ↔ p ∧ rest () = .ok r := by
  by_cases h : p <;> simp [demand,h,bind,Except.bind]

theorem except_bind_ok {x : Except ε α} {rest : α → Except ε β} {r : β} :
    (x >>= rest) = .ok r ↔ ∃ a, x = .ok a ∧ rest a = .ok r := by
  cases x <;> simp [bind,Except.bind]

theorem except_unit_bind_ok {x : Except ε Unit} {r : α} : (x >>= rest) = .ok r ↔ x = .ok () ∧ rest () = .ok r := by
  cases x <;> simp [bind,Except.bind]

theorem demand_error [Decidable p] {e x : ε} : demand p e = .error x ↔ ¬p ∧ x = e := by
  by_cases h : p <;> simp [demand,h,eq_comm]

theorem except_bind_error {x : Except ε α} {rest : α → Except ε β} {e : ε} :
    (x >>= rest) = .error e ↔ x = .error e ∨ ∃ a, x = .ok a ∧ rest a = .error e := by
  cases x <;> simp [bind,Except.bind]

theorem demand_bind_error [Decidable p] {e x : ε} :
    (demand p e >>= rest) = .error x ↔ (¬p ∧ x = e) ∨ (p ∧ rest () = .error x) := by
  by_cases h : p <;> simp [demand,h,bind,Except.bind,eq_comm]

/-- A loop that stops at the first refusal. -/
def each : List α → (α → Except ε Unit) → Except ε Unit
  | [], _ => .ok ()
  | a :: rest, f => f a >>= fun _ => each rest f

theorem each_ok {f : α → Except ε Unit} {l : List α} : each l f = .ok () ↔ ∀ a ∈ l, f a = .ok () := by
  induction l with
  | nil => simp [each]
  | cons a rest ih => simp [each,except_unit_bind_ok,ih]

theorem except_mapError_ok {x : Except ε α} {f : ε → ε'} {a : α} : x.mapError f = .ok a ↔ x = .ok a := by
  cases x <;> simp [Except.mapError]

theorem mapM_total {f : α → Except ε β} {g : α → β} {l : List α} (every : ∀ a ∈ l, f a = .ok (g a)) :
    l.mapM f = .ok (l.map g) := by
  induction l with
  | nil => rfl
  | cons a rest ih =>
    rw [List.mapM_cons,every a (by simp),ih fun b m => every b (by simp [m])]
    rfl

theorem mapM_ok {f : α → Except ε β} {xs : List α} {ys : List β}
    (ok : xs.mapM f = .ok ys) : List.Forall₂ (fun x y => f x = .ok y) xs ys := by
  induction xs generalizing ys with
  | nil =>
    cases ok
    exact .nil
  | cons x xs ih =>
    simp only [List.mapM_cons,except_bind_ok] at ok
    obtain ⟨y,first,rest,others,last⟩ := ok
    cases last
    exact .cons first (ih others)

theorem mapM_fails {f : α → Except ε β} {xs : List α} :
    (∃ e, xs.mapM f = .error e) ↔ ∃ x ∈ xs, ∃ e, f x = .error e := by
  induction xs with
  | nil => simp [pure,Except.pure]
  | cons x xs ih =>
    rw [List.mapM_cons]
    rcases here : f x with e | y
    · simp [here,bind,Except.bind]
    · rcases rest : xs.mapM f with e | ys
      · rw [rest] at ih
        simpa [here,rest,bind,Except.bind] using ih
      · rw [rest] at ih
        simpa [here,rest,bind,Except.bind,pure,Except.pure] using ih

theorem except_ok_bind (a : α) (rest : α → Except ε β) : (Except.ok a >>= rest) = rest a := rfl

inductive Outcome (ε α : Type) where
  | ok (value : α)
  | error (e : ε)
  | crashed
  deriving DecidableEq, Repr

/-- `ρ` is the environment of one run, `σ` the durable state. -/
def Prog (ρ σ ε α : Type) := ρ → σ → Outcome ε α × σ

namespace Prog

variable {ρ σ ε ε' α β γ : Type}

protected def pure (a : α) : Prog ρ σ ε α := fun _ s => (.ok a, s)

protected def bind (m : Prog ρ σ ε α) (f : α → Prog ρ σ ε β) : Prog ρ σ ε β := fun env s =>
  match m env s with
  | (.ok a, t) => f a env t
  | (.error e, t) => (.error e, t)
  | (.crashed, t) => (.crashed, t)

instance : Monad (Prog ρ σ ε) where
  pure := Prog.pure
  bind := Prog.bind

def throw (e : ε) : Prog ρ σ ε α := fun _ s => (.error e, s)

/-- The error becomes a value the caller inspects; a crash does not. -/
def attempt (m : Prog ρ σ ε α) : Prog ρ σ ε' (Except ε α) := fun env s =>
  match m env s with
  | (.ok a, t) => (.ok (.ok a), t)
  | (.error e, t) => (.ok (.error e), t)
  | (.crashed, t) => (.crashed, t)

def mapError (f : ε → ε') (m : Prog ρ σ ε α) : Prog ρ σ ε' α := fun env s =>
  match m env s with
  | (.ok a, t) => (.ok a, t)
  | (.error e, t) => (.error (f e), t)
  | (.crashed, t) => (.crashed, t)

/-- A call whose error is discarded. -/
def ignore (m : Prog ρ σ ε α) : Prog ρ σ ε' Unit := do
  let _ ← attempt m
  pure ()

/-- Deferred clean-up on the error path. A crash skips it. -/
def onError (m : Prog ρ σ ε α) (cleanup : Prog ρ σ ε' Unit) : Prog ρ σ ε α := do
  match ← attempt m with
  | .ok a => pure a
  | .error e => do
    ignore cleanup
    throw e

def get : Prog ρ σ ε σ := fun _ s => (.ok s, s)

def modify (f : σ → σ) : Prog ρ σ ε Unit := fun _ s => (.ok (), f s)

def ask : Prog ρ σ ε ρ := fun env s => (.ok env, s)

/-- Give up with `e` unless the condition holds. -/
def require (p : Prop) [Decidable p] (e : ε) : Prog ρ σ ε Unit :=
  if p then pure () else throw e

def when (p : Prop) [Decidable p] (m : Prog ρ σ ε Unit) : Prog ρ σ ε Unit :=
  if p then m else pure ()

/-- Run a program of a component on the state that contains it. -/
def zoom {τ : Type} (view : τ → σ) (update : σ → τ → τ) (m : Prog ρ σ ε α) : Prog ρ τ ε α :=
  fun env t =>
    match m env (view t) with
    | (r, s) => (r, update s t)

/-- Run a program of another environment. -/
def within {ρ' : Type} (env' : ρ') (m : Prog ρ' σ ε α) : Prog ρ σ ε α := fun _ s => m env' s

def ofExcept (x : Except ε α) : Prog ρ σ ε α :=
  match x with
  | .ok a => pure a
  | .error e => throw e

def wp (m : Prog ρ σ ε α) (env : ρ) (s : σ) (Q : α → σ → Prop) (E : ε → σ → Prop)
    (C : σ → Prop) : Prop :=
  match m env s with
  | (.ok a, t) => Q a t
  | (.error e, t) => E e t
  | (.crashed, t) => C t

/-- What holds if `m` returns. -/
abbrev wlp (m : Prog ρ σ ε α) (env : ρ) (s : σ) (Q : α → σ → Prop) : Prop := wp m env s Q (fun _ _ => True) fun _ => True

section rules

variable {env : ρ} {s : σ} {Q : α → σ → Prop} {E : ε → σ → Prop} {C : σ → Prop}

variable {a : α} {cleanup : Prog ρ σ ε' Unit} {m : Prog ρ σ ε α} {τ : Type} {f : α → Prog ρ σ ε β}
  {I : σ → Prop}

theorem wp_pure : wp (pure a : Prog ρ σ ε α) env s Q E C ↔ Q a s := Iff.rfl

theorem wp_throw {e : ε} : wp (throw e : Prog ρ σ ε α) env s Q E C ↔ E e s := Iff.rfl

theorem wp_bind {m : Prog ρ σ ε β} {f : β → Prog ρ σ ε α} :
    wp (m >>= f) env s Q E C ↔ wp m env s (fun b t => wp (f b) env t Q E C) E C := by
  change wp (Prog.bind m f) env s Q E C ↔ _
  simp only [wp,Prog.bind]
  rcases m env s with ⟨_ | _ | _,_⟩ <;> rfl

theorem wp_attempt {m : Prog ρ σ ε' α} {R : Except ε' α → σ → Prop} :
    wp (attempt m : Prog ρ σ ε (Except ε' α)) env s R E C ↔
      wp m env s (fun a t => R (.ok a) t) (fun e t => R (.error e) t) C := by
  simp only [wp,attempt]
  rcases m env s with ⟨_ | _ | _,_⟩ <;> rfl

theorem wp_mapError {m : Prog ρ σ ε' α} {f : ε' → ε} :
    wp (mapError f m) env s Q E C ↔ wp m env s Q (fun e t => E (f e) t) C := by
  simp only [wp,mapError]
  rcases m env s with ⟨_ | _ | _,_⟩ <;> rfl

variable {R : Unit → σ → Prop} {C' : σ → Prop} {E' : ε → σ → Prop} {Q' : α → σ → Prop} {t : σ}
  {r : Outcome ε α}

theorem wp_ignore {m : Prog ρ σ ε' α} : wp (ignore m : Prog ρ σ ε Unit) env s R E C ↔
      wp m env s (fun _ t => R () t) (fun _ t => R () t) C := by
  simp only [ignore,wp_bind,wp_attempt,wp_pure]

theorem wp_onError : wp (onError m cleanup) env s Q E C ↔
      wp m env s Q (fun e t => wp cleanup env t (fun _ u => E e u) (fun _ u => E e u) C) C := by
  simp only [onError,wp_bind,wp_attempt,wp_ignore,wp_throw,wp_pure]

theorem wp_get {R : σ → σ → Prop} : wp (get : Prog ρ σ ε σ) env s R E C ↔ R s s := Iff.rfl

theorem wp_modify {f : σ → σ} : wp (modify f : Prog ρ σ ε Unit) env s R E C ↔ R () (f s) := Iff.rfl

theorem wp_ask {R : ρ → σ → Prop} : wp (ask : Prog ρ σ ε ρ) env s R E C ↔ R env s := Iff.rfl

theorem wp_require [Decidable p] {e : ε} :
    wp (require p e : Prog ρ σ ε Unit) env s R E C ↔ (p → R () s) ∧ (¬p → E e s) := by
  by_cases h : p <;> simp [require,h,wp_pure,wp_throw]

theorem wp_when [Decidable p] {m : Prog ρ σ ε Unit} :
    wp (when p m) env s R E C ↔ (p → wp m env s R E C) ∧ (¬p → R () s) := by
  by_cases h : p <;> simp [when,h,wp_pure]

theorem wp_zoom {view : τ → σ} {update : σ → τ → τ} {t : τ} {Q : α → τ → Prop} {E : ε → τ → Prop} {C : τ → Prop} :
    wp (zoom view update m) env t Q E C ↔ wp m env (view t) (fun a s => Q a (update s t)) (fun e s => E e (update s t))
        (fun s => C (update s t)) := by
  simp only [wp,zoom]
  rcases m env (view t) with ⟨_ | _ | _,_⟩ <;> rfl

theorem wp_within {ρ' : Type} {env' : ρ'} {m : Prog ρ' σ ε α} :
    wp (within env' m : Prog ρ σ ε α) env s Q E C ↔ wp m env' s Q E C := Iff.rfl

theorem wp_ofExcept {x : Except ε α} : wp (ofExcept x : Prog ρ σ ε α) env s Q E C ↔
      (∀ a, x = .ok a → Q a s) ∧ ∀ e, x = .error e → E e s := by
  cases x <;> simp [ofExcept,wp_pure,wp_throw]

/-- What the end of a run is asked for may be less than what it gives. -/
class Eases (p q : Prop) : Prop where
  eased : p → q

instance : Eases p p := ⟨id⟩

instance : Eases p True := ⟨fun _ => trivial⟩

instance : Eases False q := ⟨False.elim⟩

theorem wp.mono (h : wp m env s Q E C) (ok : ∀ a t, Q a t → Q' a t) (error : ∀ e t, E e t → E' e t)
    (crash : ∀ t, C t → C' t) : wp m env s Q' E' C' := by
  revert h
  simp only [wp]
  rcases m env s with ⟨_ | _ | _,_⟩
  · exact ok _ _
  · exact error _ _
  · exact crash _

/-- A crash that is not mentioned stays as it is, or nothing is asked of it. -/
theorem wp.ends (h : wp m env s Q E C) (ok : ∀ a t, Q a t → Q' a t) (error : ∀ e t, E e t → E' e t)
    [crash : ∀ t, Eases (C t) (C' t)] : wp m env s Q' E' C' :=
  h.mono ok error fun t => (crash t).eased

theorem wp.imp (h : wp m env s Q E C) (ok : ∀ a t, Q a t → Q' a t) [error : ∀ e t, Eases (E e t) (E' e t)]
    [∀ t, Eases (C t) (C' t)] : wp m env s Q' E' C' :=
  h.ends ok fun e t => (error e t).eased

/-- One condition however the run stops. -/
theorem wp.stops {P P' : σ → Prop} (h : wp m env s Q (fun _ => P) P) (ok : ∀ a t, Q a t → Q' a t)
    (stop : ∀ t, P t → P' t) : wp m env s Q' (fun _ => P') P' :=
  h.mono ok (fun _ => stop) stop

theorem wp.and (h : wp m env s Q E C) (h' : wp m env s Q' E' C') :
    wp m env s (fun a t => Q a t ∧ Q' a t) (fun e t => E e t ∧ E' e t) (fun t => C t ∧ C' t) := by
  revert h h'
  simp only [wp]
  rcases m env s with ⟨_ | _ | _,_⟩ <;> exact And.intro

/-- A run that returns returns what it returns: for use with `wp.and`. -/
theorem wp_self (m : Prog ρ σ ε α) (env : ρ) (s : σ) :
    wp m env s (fun a t => m env s = (.ok a,t)) (fun _ _ => True) (fun _ => True) := by
  unfold wp
  rcases m env s with ⟨_ | _ | _,_⟩ <;> trivial

theorem wp.ok_of (h : wp m env s Q E C) (run : m env s = (.ok a,t)) : Q a t := by simpa only [wp,run] using h

/-- Of a run that is known to return, the other ends need no specification. -/
theorem of_returned (run : m env s = (.ok a,t)) (spec : wp m env s Q (fun _ _ => True) fun _ => True) : Q a t :=
  spec.ok_of run

theorem of_finished {m : Prog ρ σ ε Unit} {Q : σ → Prop} (run : m env s = (.ok (),t))
    (spec : wp m env s (fun _ => Q) (fun _ _ => True) fun _ => True) : Q t :=
  spec.ok_of run

theorem wp_guard {P : σ → Prop} [DecidablePred P] {e : ε} {rest : σ → Prog ρ σ ε α}
    (passed : P s → wp (rest s) env s Q (fun _ _ => True) fun _ => True) :
    wp (get >>= fun s => require (P s) e >>= fun _ => rest s) env s Q (fun _ _ => True) fun _ => True := by
  rw [wp_bind,wp_get,wp_bind,wp_require]
  exact ⟨passed,fun _ => trivial⟩

theorem wp.refused (h : wp m env s (fun _ _ => False) (fun _ t => t = s) fun t => t = s) (error : ∀ e, E e s)
    (crash : C s) : wp m env s Q E C :=
  h.mono (fun _ _ => False.elim) (fun e _ same => same ▸ error e) fun _ same => same ▸ crash

theorem wp.returns (h : wp m env s Q (fun _ _ => False) (fun _ => False)) : ∃ a t, m env s = (.ok a,t) ∧ Q a t := by
  simp only [wp] at h
  rcases run : m env s with ⟨a | e | _,t⟩
  · rw [run] at h; exact ⟨a,t,rfl,h⟩
  · rw [run] at h; exact h.elim
  · rw [run] at h; exact h.elim

theorem bind_run (run : m env s = (.ok a,t)) : (m >>= f) env s = f a env t := by
  change Prog.bind m f env s = _
  rw [Prog.bind,run]

theorem get_bind {f : σ → Prog ρ σ ε α} : (get >>= f) env s = f s env s := rfl

theorem bind_bind (m : Prog ρ σ ε α) {g : β → Prog ρ σ ε γ} : (m >>= f) >>= g = m >>= fun a => f a >>= g := by
  funext env s
  change Prog.bind (Prog.bind m f) g env s = Prog.bind m (fun a => Prog.bind (f a) g) env s
  simp only [Prog.bind]
  rcases m env s with ⟨_ | _ | _,_⟩ <;> rfl

theorem bind_failed {e : ε} (run : m env s = (.error e,t)) : (m >>= f) env s = (.error e,t) := by
  change Prog.bind m f env s = _
  rw [Prog.bind,run]

theorem returned_bind {b : β} (run : (m >>= f) env s = (.ok b,t)) : ∃ a u, m env s = (.ok a,u) ∧ f a env u = (.ok b,t) := by
  rcases first : m env s with ⟨a | e | _,u⟩
  · exact ⟨a,u,rfl,by rwa [bind_run first] at run⟩
  · rw [bind_failed first] at run
    cases run
  · simp only [Bind.bind,Prog.bind,first] at run
    cases run

theorem returned_ofExcept {x : Except ε α} (run : (ofExcept x : Prog ρ σ ε α) env s = (.ok a,t)) : x = .ok a ∧ t = s := by
  cases x with
  | ok b =>
    cases run
    exact ⟨rfl,rfl⟩
  | error e => cases run

theorem bind_crashed (run : m env s = (.crashed,t)) : (m >>= f) env s = (.crashed,t) := by
  change Prog.bind m f env s = _
  rw [Prog.bind,run]

theorem attempt_run (run : m env s = (.ok a,t)) : (attempt m : Prog ρ σ ε' (Except ε α)) env s = (.ok (.ok a),t) := by
  rw [attempt,run]

theorem attempt_failed {e : ε} (run : m env s = (.error e,t)) :
    (attempt m : Prog ρ σ ε' (Except ε α)) env s = (.ok (.error e),t) := by
  rw [attempt,run]

theorem attempt_crashed (run : m env s = (.crashed,t)) : (attempt m : Prog ρ σ ε' (Except ε α)) env s = (.crashed,t) := by
  rw [attempt,run]

theorem onError_run (run : m env s = (.ok a,t)) (cleanup : Prog ρ σ ε' Unit) : onError m cleanup env s = (.ok a,t) := by
  rw [onError,bind_run (attempt_run run)]
  rfl

theorem zoom_run {view : τ → σ} {update : σ → τ → τ} {t : τ} {s : σ} (run : m env (view t) = (r,s)) :
    zoom view update m env t = (r,update s t) := by
  rw [zoom,run]

theorem when_run [Decidable p] (h : p) (m : Prog ρ σ ε Unit) : when p m = m := if_pos h

theorem ofExcept_ok {x : Except ε α} (h : x = .ok a) (s : σ) : (ofExcept x : Prog ρ σ ε α) env s = (.ok a,s) := by
  rw [h]
  rfl

theorem require_failed [Decidable p] (h : ¬p) (e : ε) (env : ρ) (s : σ) :
    (require p e : Prog ρ σ ε Unit) env s = (.error e,s) := by
  rw [require,if_neg h]
  rfl

theorem require_bind [Decidable p] (h : p) {e : ε} {f : Unit → Prog ρ σ ε α} : (require p e >>= f) env s = f () env s := by
  rw [require,if_pos h]
  rfl

theorem mapError_run (g : ε → ε') (run : m env s = (.ok a,t)) : mapError g m env s = (.ok a,t) := by rw [mapError,run]

theorem mapError_failed {e : ε} (g : ε → ε') (run : m env s = (.error e,t)) : mapError g m env s = (.error (g e),t) := by
  rw [mapError,run]

theorem require_run [Decidable p] (h : p) (e : ε) (env : ρ) (s : σ) :
    (require p e : Prog ρ σ ε Unit) env s = (.ok (),s) := by
  rw [require,if_pos h]
  rfl

theorem when_skipped [Decidable p] (h : ¬p) (m : Prog ρ σ ε Unit) (env : ρ) (s : σ) : when p m env s = (.ok (),s) := by
  rw [when,if_neg h]
  rfl

theorem ask_run (env : ρ) (s : σ) : (ask : Prog ρ σ ε ρ) env s = (.ok env,s) := rfl

theorem run_eq (h : (m env s).1 = r) : m env s = (r,(m env s).2) := by rw [← h]

theorem wp.run_eq (h : wp m env s (fun b u => b = a ∧ u = t) (fun _ _ => False) (fun _ => False)) :
    m env s = (.ok a,t) := by
  obtain ⟨b,u,run,rfl,rfl⟩ := h.returns
  exact run

theorem wp_bind_of_run {m : Prog ρ σ ε β} {f : β → Prog ρ σ ε α} {b : β}
    (run : m env s = (.ok b,t)) : wp (m >>= f) env s Q E C ↔ wp (f b) env t Q E C := by
  rw [wp,wp,bind_run run]

theorem wp_of_run (run : m env s = (.ok a,t)) : wp m env s Q E C ↔ Q a t := by rw [wp,run]

theorem wp_always (h : ∀ t, I t) : wp m env s (fun _ => I) (fun _ => I) I := by
  unfold wp
  rcases m env s with ⟨_ | _ | _,t⟩ <;> exact h t

theorem wp.reached (h : wp m env s (fun _ => I) (fun _ => I) I) : I (m env s).2 := by
  simp only [wp] at h
  rcases run : m env s with ⟨_ | _ | _,t⟩ <;> (rw [run] at h; exact h)

end rules

/-- The invariant survives a value, an error and a crash at any step. -/
def Keeps (env : ρ) (I : σ → Prop) (m : Prog ρ σ ε α) : Prop :=
  ∀ s, I s → wp m env s (fun _ => I) (fun _ => I) I

namespace Keeps

variable {env : ρ} {I : σ → Prop}

theorem pure (a : α) : Keeps env I (Pure.pure a : Prog ρ σ ε α) := fun _ h => h

theorem throw (e : ε) : Keeps env I (Prog.throw e : Prog ρ σ ε α) := fun _ h => h

theorem bind (first : Keeps env I m) (rest : ∀ a, Keeps env I (f a)) : Keeps env I (m >>= f) := by
  intro s h
  rw [wp_bind]
  exact (first s h).imp (fun a t ht => rest a t ht)

theorem attempt (h : Keeps env I m) : Keeps env I (Prog.attempt m : Prog ρ σ ε' (Except ε α)) :=
  fun s hs => wp_attempt.mpr (h s hs)

theorem mapError {f : ε → ε'} (h : Keeps env I m) : Keeps env I (Prog.mapError f m) := fun s hs => wp_mapError.mpr (h s hs)

theorem ignore (h : Keeps env I m) : Keeps env I (Prog.ignore m : Prog ρ σ ε' Unit) := fun s hs => wp_ignore.mpr (h s hs)

theorem onError (h : Keeps env I m) (hc : Keeps env I cleanup) : Keeps env I (Prog.onError m cleanup) := by
  intro s hs
  rw [wp_onError]
  exact (h s hs).ends (fun _ _ => id) (fun _ t ht => hc t ht)

theorem get : Keeps env I (Prog.get : Prog ρ σ ε σ) := fun _ h => h

theorem ask : Keeps env I (Prog.ask : Prog ρ σ ε ρ) := fun _ h => h

theorem modify {f : σ → σ} (h : ∀ s, I s → I (f s)) : Keeps env I (Prog.modify f : Prog ρ σ ε Unit) := h

theorem require [Decidable p] (e : ε) : Keeps env I (Prog.require p e : Prog ρ σ ε Unit) :=
  fun _ h => wp_require.mpr ⟨fun _ => h,fun _ => h⟩

theorem when [Decidable p] {m : Prog ρ σ ε Unit} (h : Keeps env I m) : Keeps env I (Prog.when p m) :=
  fun s hs => wp_when.mpr ⟨fun _ => h s hs,fun _ => hs⟩

theorem guarded [Decidable p] {e : ε} {rest : Unit → Prog ρ σ ε α}
    (h : p → Keeps env I (rest ())) : Keeps env I (Prog.require p e >>= rest) := by
  intro s hs
  rw [wp_bind,wp_require]
  exact ⟨fun hp => h hp s hs,fun _ => hs⟩

theorem ofExcept_bind {x : Except ε α} {rest : α → Prog ρ σ ε β}
    (h : ∀ a, x = .ok a → Keeps env I (rest a)) : Keeps env I (Prog.ofExcept x >>= rest) := by
  intro s hs
  rw [wp_bind,wp_ofExcept]
  exact ⟨fun a ha => h a ha s hs,fun _ _ => hs⟩

theorem and {J : σ → Prop} (h : Keeps env I m) (h' : Keeps env J m) : Keeps env (fun s => I s ∧ J s) m :=
  fun s hs => (h s hs.1).and (h' s hs.2)

/-- What only reads outside the component survives any program of the component. -/
theorem zoom {view : τ → σ} {update : σ → τ → τ} {I : τ → Prop} (m : Prog ρ σ ε α) (outside : ∀ s t, I t → I (update s t)) :
    Keeps env I (Prog.zoom view update m) := by
  intro t ht
  rw [wp_zoom]
  exact wp_always fun s => outside s t ht

theorem ofExcept (x : Except ε α) : Keeps env I (Prog.ofExcept x : Prog ρ σ ε α) := by
  cases x
  · exact throw _
  · exact pure _

end Keeps

/-- The invariant survives every end, and a returned value satisfies `R`. -/
def Yields (env : ρ) (I : σ → Prop) (m : Prog ρ σ ε α) (R : α → Prop) : Prop :=
  ∀ s, I s → wp m env s (fun a t => I t ∧ R a) (fun _ => I) I

namespace Yields

variable {env : ρ} {I : σ → Prop} {R : α → Prop}

theorem keeps (h : Yields env I m R) : Keeps env I m := fun s hs => (h s hs).imp (fun _ _ => And.left)

theorem pure (h : R a) : Yields env I (Pure.pure a : Prog ρ σ ε α) R := fun _ hs => ⟨hs,h⟩

theorem bind {T : β → Prop} (first : Yields env I m R)
    (rest : ∀ a, R a → Yields env I (f a) T) : Yields env I (m >>= f) T := by
  intro s hs
  rw [wp_bind]
  exact (first s hs).imp (fun a t ht => rest a ht.2 t ht.1)

theorem bindKeeps (first : Yields env I m R) (rest : ∀ a, R a → Keeps env I (f a)) : Keeps env I (m >>= f) := by
  intro s hs
  rw [wp_bind]
  exact (first s hs).imp (fun a t ht => rest a ht.2 t ht.1)

theorem mapError {f : ε → ε'} (h : Yields env I m R) : Yields env I (Prog.mapError f m) R :=
  fun s hs => wp_mapError.mpr (h s hs)

end Yields

theorem Keeps.yields {env : ρ} (h : Keeps env I m) : Yields env I m fun _ => True :=
  fun s hs => (h s hs).imp (fun _ _ ht => ⟨ht,True.intro⟩)

/-- However a run ends, it leads to a state related to the one it started from. -/
def Relates (env : ρ) (R : σ → σ → Prop) (m : Prog ρ σ ε α) : Prop :=
  ∀ s, wp m env s (fun _ => R s) (fun _ => R s) (R s)

namespace Relates

variable {env : ρ} {R S : σ → σ → Prop} {m : Prog ρ σ ε α}

theorem mono (h : Relates env R m) (weaker : ∀ s t, R s t → S s t) : Relates env S m :=
  fun s => (h s).stops (fun _ => weaker s) (weaker s)

theorem reached (h : Relates env R m) (s : σ) : R s (m env s).2 := (h s).reached

theorem ignoring (h : Relates env R m) : Relates env R (do let _ ← m; Pure.pure ()) := fun s => wp_bind.mpr (h s)

end Relates

/-- What any returned value satisfies, whatever the environment and the state. -/
def Ensures (m : Prog ρ σ ε α) (Q : α → Prop) : Prop :=
  ∀ env s, wp m env s (fun a _ => Q a) (fun _ _ => True) (fun _ => True)

namespace Ensures

theorem trivial (m : Prog ρ σ ε α) : Ensures m fun _ => True := by
  intro env s
  unfold wp
  rcases m env s with ⟨_ | _ | _,_⟩ <;> exact True.intro

variable {Q : α → Prop}

theorem pure (h : Q a) : Ensures (Pure.pure a : Prog ρ σ ε α) Q := fun _ _ => h

theorem bind {P : α → Prop} {Q : β → Prop}
    (first : Ensures m P) (rest : ∀ a, P a → Ensures (f a) Q) : Ensures (m >>= f) Q := by
  intro env s
  rw [wp_bind]
  exact (first env s).imp (fun a t ht => rest a ht env t)

theorem after {Q : β → Prop} (rest : ∀ a, Ensures (f a) Q) : Ensures (m >>= f) Q := (trivial m).bind fun a _ => rest a

theorem ok_of (h : Ensures m Q) {env : ρ} {s t : σ} (run : m env s = (.ok a,t)) : Q a := (h env s).ok_of run

end Ensures

end Prog

end Integris
