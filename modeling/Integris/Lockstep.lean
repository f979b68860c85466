import Integris.Effect

/-! Two programs side by side. `Lockstep` is `wp` for a pair of runs: both return, both
fail or both crash, and the states they reach are related. The second program may be worn
out by its run; nothing is said then, so `Worn` must be something no later step repairs. -/
namespace Integris.Prog

variable {ρ σ τ ε ε' α β γ δ : Type} {env : ρ}

/-- The same end on both sides. -/
def Meet (Q : α → β → σ → τ → Prop) (E : ε → ε' → σ → τ → Prop) (C : σ → τ → Prop) :
    Outcome ε α × σ → Outcome ε' β × τ → Prop
  | (.ok a, s), (.ok b, t) => Q a b s t
  | (.error e, s), (.error e', t) => E e e' s t
  | (.crashed, s), (.crashed, t) => C s t
  | _, _ => False

@[elab_as_elim]
theorem Meet.cases {Q : α → β → σ → τ → Prop} {E : ε → ε' → σ → τ → Prop} {C : σ → τ → Prop}
    {P : Outcome ε α × σ → Outcome ε' β × τ → Prop} {x : Outcome ε α × σ} {y : Outcome ε' β × τ} (h : Meet Q E C x y)
    (ok : ∀ a b s t, Q a b s t → P (.ok a,s) (.ok b,t))
    (error : ∀ e e' s t, E e e' s t → P (.error e,s) (.error e',t))
    (crash : ∀ s t, C s t → P (.crashed,s) (.crashed,t)) : P x y := by
  rcases x with ⟨_ | _ | _,_⟩ <;> rcases y with ⟨_ | _ | _,_⟩ <;> simp only [Meet] at h
  · exact ok _ _ _ _ h
  · exact error _ _ _ _ h
  · exact crash _ _ h

def Lockstep (env : ρ) (Worn : τ → Prop) (m : Prog ρ σ ε α) (n : Prog ρ τ ε' β) (s : σ) (t : τ)
    (Q : α → β → σ → τ → Prop) (E : ε → ε' → σ → τ → Prop) (C : σ → τ → Prop) : Prop :=
  ¬Worn (n env t).2 → Meet Q E C (m env s) (n env t)

namespace Lockstep

variable {Worn : τ → Prop} {m : Prog ρ σ ε α} {n : Prog ρ τ ε' β} {s : σ} {t : τ}
  {Q : α → β → σ → τ → Prop} {E : ε → ε' → σ → τ → Prop} {C : σ → τ → Prop}

theorem mono {Q' : α → β → σ → τ → Prop} {E' : ε → ε' → σ → τ → Prop} {C' : σ → τ → Prop}
    (h : Lockstep env Worn m n s t Q E C) (ok : ∀ a b s t, Q a b s t → Q' a b s t)
    (error : ∀ e e' s t, E e e' s t → E' e e' s t) (crash : ∀ s t, C s t → C' s t) :
    Lockstep env Worn m n s t Q' E' C' := by
  intro fresh
  exact (h fresh).cases ok error crash

variable {a : α} {f g : α → Prog ρ σ ε β} {c d : Prog ρ σ ε' Unit}

theorem pure {b : β} (h : Q a b s t) :
    Lockstep env Worn (Pure.pure a : Prog ρ σ ε α) (Pure.pure b : Prog ρ τ ε' β) s t Q E C :=
  fun _ => h

theorem throw {e : ε} {e' : ε'} (h : E e e' s t) :
    Lockstep env Worn (Prog.throw e : Prog ρ σ ε α) (Prog.throw e' : Prog ρ τ ε' β) s t Q E C :=
  fun _ => h

/-- If the second program was not worn out in the end, it was not before. -/
theorem bind {f : α → Prog ρ σ ε γ} {g : β → Prog ρ τ ε' δ} {Q : γ → δ → σ → τ → Prop}
    (first : Lockstep env Worn m n s t (fun a b s' t' => Lockstep env Worn (f a) (g b) s' t' Q E C) E C)
    (stays : ∀ b, Keeps env Worn (g b)) : Lockstep env Worn (m >>= f) (n >>= g) s t Q E C := by
  intro fresh
  have before : ¬Worn (n env t).2 := by
    intro worn
    apply fresh
    rcases run : n env t with ⟨b | e | _,t'⟩
    · rw [bind_run run]
      rw [run] at worn
      exact (stays b t' worn).reached
    · rw [bind_failed run]
      rwa [run] at worn
    · rw [bind_crashed run]
      rwa [run] at worn
  have both := first before
  simp only [Bind.bind,Prog.bind] at fresh ⊢
  revert fresh
  refine both.cases (fun _ _ _ _ rest fresh => rest fresh) ?_ ?_
  · exact fun _ _ _ _ failed _ => failed
  · exact fun _ _ crashed _ => crashed

theorem left_run {f : α → Prog ρ σ ε γ} {n : Prog ρ τ ε' δ} {Q : γ → δ → σ → τ → Prop}
    {s' : σ} (run : m env s = (.ok a,s')) (rest : Lockstep env Worn (f a) n s' t Q E C) :
    Lockstep env Worn (m >>= f) n s t Q E C := by
  unfold Lockstep
  rw [bind_run run]
  exact rest

theorem right_run {m : Prog ρ σ ε γ} {g : β → Prog ρ τ ε' δ} {Q : γ → δ → σ → τ → Prop} {b : β}
    {t' : τ} (run : n env t = (.ok b,t')) (rest : Lockstep env Worn m (g b) s t' Q E C) :
    Lockstep env Worn m (n >>= g) s t Q E C := by
  unfold Lockstep
  rw [bind_run run]
  exact rest

theorem and_left (h : Lockstep env Worn m n s t Q E C) {P : α → σ → Prop}
    (alone : wlp m env s P) : Lockstep env Worn m n s t (fun a b s t => Q a b s t ∧ P a s) E C := by
  intro fresh
  revert alone
  simp only [wlp,wp]
  refine (h fresh).cases ?_ ?_ ?_
  · exact fun _ _ _ _ both alone => ⟨both,alone⟩
  · exact fun _ _ _ _ failed _ => failed
  · exact fun _ _ crashed _ => crashed

/-- Two runs known one by one, whose ends cannot differ. -/
theorem of_wp {Q₁ : α → σ → Prop} {E₁ : ε → σ → Prop} {Q₂ : β → τ → Prop} {E₂ : ε' → τ → Prop}
    (left : wp m env s Q₁ E₁ (fun _ => False)) (right : wp n env t Q₂ E₂ (fun _ => False))
    (ok : ∀ a b s t, Q₁ a s → Q₂ b t → Q a b s t) (error : ∀ e e' s t, E₁ e s → E₂ e' t → E e e' s t)
    (leftOnly : ∀ a s e t, Q₁ a s → E₂ e t → False) (rightOnly : ∀ b t e s, Q₂ b t → E₁ e s → False) :
    Lockstep env Worn m n s t Q E C := by
  intro _
  revert left right
  simp only [wp]
  rcases m env s with ⟨_ | _ | _,_⟩ <;> rcases n env t with ⟨_ | _ | _,_⟩ <;> simp only [Meet]
  · exact ok _ _ _ _
  · exact leftOnly _ _ _ _
  · exact fun _ => id
  · exact fun fails returns => rightOnly _ _ _ _ returns fails
  · exact error _ _ _ _
  · exact fun _ => id
  · exact fun crash _ => crash
  · exact fun crash _ => crash
  · exact fun crash _ => crash.elim

/-- What the program reached before `fresh` says it was not worn out. -/
theorem of_fresh (keeps : Keeps env Worn n) (h : ¬Worn t → Lockstep env Worn m n s t Q E C) :
    Lockstep env Worn m n s t Q E C :=
  fun fresh => h (fun worn => fresh (keeps t worn).reached) fresh

end Lockstep

/-- Two runs with the same result, whose states stay related. -/
abbrev Together (env : ρ) (Worn : σ → Prop) (m n : Prog ρ σ ε α) (s t : σ) (R : α → σ → σ → Prop)
    (F : σ → σ → Prop) : Prop :=
  Lockstep env Worn m n s t (fun a b s t => a = b ∧ R a s t) (fun e e' s t => e = e' ∧ F s t) F

namespace Together

variable {Worn : σ → Prop} {s t : σ} {R : α → σ → σ → Prop} {S : β → σ → σ → Prop} {F G : σ → σ → Prop}
  {m n : Prog ρ σ ε α}

theorem bind (first : Together env Worn m n s t R F) (stays : ∀ a, Keeps env Worn (g a))
    (rest : ∀ a s t, R a s t → Together env Worn (f a) (g a) s t S F) :
    Together env Worn (m >>= f) (n >>= g) s t S F := by
  refine Lockstep.bind (first.mono ?_ (fun _ _ _ _ => id) (fun _ _ => id)) stays
  rintro a _ s t ⟨rfl,related⟩
  exact rest a s t related

theorem ends {x y : Outcome ε α × σ} (weaker : ∀ a s t, R a s t → F s t)
    (h : Meet (fun a b s t => a = b ∧ R a s t) (fun e e' s t => e = e' ∧ F s t) F x y) :
    x.1 = y.1 ∧ F x.2 y.2 := by
  refine h.cases ?_ ?_ ?_
  · exact fun _ _ _ _ both => ⟨by rw [both.1],weaker _ _ _ both.2⟩
  · exact fun _ _ _ _ both => ⟨by rw [both.1],both.2⟩
  · exact fun _ _ both => ⟨rfl,both⟩

theorem pure (a : α) (h : R a s t) : Together env Worn (Pure.pure a : Prog ρ σ ε α) (Pure.pure a) s t R F :=
  Lockstep.pure ⟨rfl,h⟩

theorem throw (e : ε) (h : F s t) : Together env Worn (Prog.throw e : Prog ρ σ ε α) (Prog.throw e) s t R F :=
  Lockstep.throw ⟨rfl,h⟩

theorem guarded {p q : Prop} [Decidable p] [Decidable q] {e : ε} {f g : Unit → Prog ρ σ ε α}
    (same : p ↔ q) (failed : F s t) (rest : p → Together env Worn (f ()) (g ()) s t R F) :
    Together env Worn (require p e >>= f) (require q e >>= g) s t R F := by
  by_cases h : p
  · exact Lockstep.left_run (require_run h _ _ _) (Lockstep.right_run (require_run (same.mp h) _ _ _) (rest h))
  · unfold Together Lockstep
    rw [bind_failed (require_failed h _ _ _),bind_failed (require_failed (fun hq => h (same.mpr hq)) _ _ _)]
    exact fun _ => ⟨rfl,failed⟩

theorem ofExcept_bind {x : Except ε α} (failed : F s t) (rest : ∀ a, x = .ok a → Together env Worn (f a) (g a) s t S F) :
    Together env Worn (ofExcept x >>= f) (ofExcept x >>= g) s t S F := by
  cases x with
  | error e => exact throw e failed
  | ok a => exact Lockstep.left_run rfl (Lockstep.right_run rfl (rest a rfl))

theorem when {p : Prop} [Decidable p] {m n : Prog ρ σ ε Unit} {R : Unit → σ → σ → Prop} (h : R () s t)
    (rest : p → Together env Worn m n s t R F) : Together env Worn (Prog.when p m) (Prog.when p n) s t R F := by
  unfold Prog.when
  split
  · next hp => exact rest hp
  · exact pure () h

/-- Both errors become values, or both results do. -/
theorem attempt_bind {f g : Except ε α → Prog ρ σ ε' β}
    (h : Together env Worn m n s t R F) (stays : ∀ x, Keeps env Worn (g x))
    (ok : ∀ a s t, R a s t → Together env Worn (f (.ok a)) (g (.ok a)) s t S G)
    (error : ∀ e s t, F s t → Together env Worn (f (.error e)) (g (.error e)) s t S G)
    (crash : ∀ s t, F s t → G s t) :
    Together env Worn (attempt m >>= f) (attempt n >>= g) s t S G := by
  refine Lockstep.bind ?_ stays
  intro fresh
  have same : ((attempt n : Prog ρ σ ε' (Except ε α)) env t).2 = (n env t).2 := by
    simp only [attempt]
    rcases n env t with ⟨_ | _ | _,_⟩ <;> rfl
  rw [same] at fresh
  simp only [attempt]
  refine (h fresh).cases ?_ ?_ crash
  · rintro a _ s t ⟨rfl,both⟩
    exact ok a s t both
  · rintro e _ s t ⟨rfl,both⟩
    exact error e s t both

theorem ignore (h : Together env Worn m n s t (fun _ => F) F) :
    Together env Worn (Prog.ignore m : Prog ρ σ ε' Unit) (Prog.ignore n) s t (fun _ => F) F :=
  attempt_bind h (fun _ => Keeps.pure _) (fun _ _ _ related => pure () related)
    (fun _ _ _ related => pure () related) fun _ _ => id

theorem onError (h : Together env Worn m n s t R G) (stays : Keeps env Worn d)
    (cleanup : ∀ s t, G s t → Together env Worn c d s t (fun _ => F) F) (crash : ∀ s t, G s t → F s t) :
    Together env Worn (Prog.onError m c) (Prog.onError n d) s t R F := by
  refine attempt_bind h (fun x => ?_) (fun a s t related => pure a related) (fun e s t related => ?_) crash
  · cases x with
    | ok a => exact Keeps.pure a
    | error e => exact stays.ignore.bind fun _ => Keeps.throw e
  · exact (cleanup s t related).ignore.bind (fun _ => Keeps.throw e) fun _ _ _ ended => throw e ended

theorem refl (m : Prog ρ σ ε α) (s : σ) (same : ∀ a s, R a s s) (failed : ∀ s, F s s) : Together env Worn m m s s R F := by
  intro _
  rcases m env s with ⟨_ | _ | _,t⟩
  · exact ⟨rfl,same _ t⟩
  · exact ⟨rfl,failed t⟩
  · exact failed t

theorem mono {S : α → σ → σ → Prop} (h : Together env Worn m n s t R F) (ok : ∀ a s t, R a s t → S a s t) :
    Together env Worn m n s t S F :=
  Lockstep.mono h (fun a _ s t both => ⟨both.1,ok a s t both.2⟩) (fun _ _ _ _ => id) (fun _ _ => id)

theorem and_left (h : Together env Worn m n s t R F) {P : σ → Prop}
    (alone : wlp m env s fun _ => P) : Together env Worn m n s t (fun a s t => R a s t ∧ P s) F :=
  (Lockstep.and_left h alone).mono (fun _ _ _ _ both => ⟨both.1.1,both.1.2,both.2⟩) (fun _ _ _ _ => id) fun _ _ => id

/-- A component on both sides: the rest of the two states may differ. -/
theorem zoom {τ : Type} {view : τ → σ} {update : σ → τ → τ} {s t : τ} {R' : α → τ → τ → Prop}
    {F' : τ → τ → Prop} {Worn' : τ → Prop}
    (h : Together env (fun _ => False) m n (view s) (view t) R F)
    (ok : ∀ x a b, R x a b → R' x (update a s) (update b t))
    (failed : ∀ a b, F a b → F' (update a s) (update b t)) :
    Together env Worn' (Prog.zoom view update m) (Prog.zoom view update n) s t R' F' := by
  intro _
  simp only [Prog.zoom]
  refine (h id).cases ?_ ?_ failed
  · exact fun _ _ _ _ both => ⟨both.1,ok _ _ _ both.2⟩
  · exact fun _ _ _ _ both => ⟨both.1,failed _ _ both.2⟩

end Together

/-- From states related by `R` both runs end alike; a value they return and the states they reach satisfy
`S`. A worn state stays worn. -/
structure Steady (env : ρ) (Worn : σ → Prop) (R : σ → σ → Prop) (S : α → σ → σ → Prop) (F : σ → σ → Prop)
    (m n : Prog ρ σ ε α) : Prop where
  stays : Keeps env Worn n
  pair : ∀ s t, R s t → Together env Worn m n s t S F

namespace Steady

variable {Worn : σ → Prop} {R R' F : σ → σ → Prop} {S S' : α → σ → σ → Prop} {m n : Prog ρ σ ε α}

theorem pure (a : α) : Steady env Worn R (fun _ => R) F (Pure.pure a : Prog ρ σ ε α) (Pure.pure a) :=
  ⟨Keeps.pure a,fun _ _ related => Together.pure a related⟩

theorem throw (e : ε) (failed : ∀ s t, R s t → F s t) :
    Steady env Worn R S F (Prog.throw e : Prog ρ σ ε α) (Prog.throw e) :=
  ⟨Keeps.throw e,fun s t related => Lockstep.throw ⟨rfl,failed s t related⟩⟩

theorem bind {f g : α → Prog ρ σ ε β} {T : β → σ → σ → Prop} (first : Steady env Worn R S F m n)
    (rest : ∀ a, Steady env Worn (S a) T F (f a) (g a)) : Steady env Worn R T F (m >>= f) (n >>= g) where
  stays := first.stays.bind fun a => (rest a).stays
  pair s t related := Together.bind (first.pair s t related) (fun a => (rest a).stays) fun a => (rest a).pair

theorem guarded {p : Prop} [Decidable p] {e : ε} {f g : Unit → Prog ρ σ ε α} (failed : ∀ s t, R s t → F s t)
    (rest : p → Steady env Worn R S F (f ()) (g ())) :
    Steady env Worn R S F (require p e >>= f) (require p e >>= g) := by
  by_cases h : p
  · rw [require,if_pos h]
    exact rest h
  · rw [require,if_neg h]
    exact throw e failed

theorem ofExcept_bind {x : Except ε β} {f g : β → Prog ρ σ ε α} (failed : ∀ s t, R s t → F s t)
    (rest : ∀ a, Steady env Worn R S F (f a) (g a)) : Steady env Worn R S F (ofExcept x >>= f) (ofExcept x >>= g) := by
  cases x with
  | error e => exact throw e failed
  | ok a => exact rest a

theorem when {p : Prop} [Decidable p] {m n : Prog ρ σ ε Unit} (rest : Steady env Worn R (fun _ => R) F m n) :
    Steady env Worn R (fun _ => R) F (Prog.when p m) (Prog.when p n) := by
  unfold Prog.when
  split
  · exact rest
  · exact pure ()

theorem mono (h : Steady env Worn R S F m n) (pre : ∀ s t, R' s t → R s t) (post : ∀ a s t, S a s t → S' a s t) :
    Steady env Worn R' S' F m n :=
  ⟨h.stays,fun s t related => Together.mono (h.pair s t (pre s t related)) post⟩

end Steady

/-- Two programs with one run where `I` holds, and what holds after it. -/
theorem steady_same {m n : Prog ρ σ ε α} {I E : σ → Prop} {Q : α → σ → Prop} :
    Steady env (fun _ => False) (fun s t => s = t ∧ I s) (fun a s t => s = t ∧ Q a s) (fun s t => s = t ∧ E s) m n ↔
      ∀ s, I s → m env s = n env s ∧ wp m env s Q (fun _ => E) E := by
  constructor
  · intro h s holds
    have both := h.pair s s ⟨rfl,holds⟩ id
    unfold wp
    refine both.cases ?_ ?_ ?_
    · rintro a _ s _ ⟨rfl,rfl,after⟩
      exact ⟨rfl,after⟩
    · rintro e _ s _ ⟨rfl,rfl,after⟩
      exact ⟨rfl,after⟩
    · rintro s _ ⟨rfl,after⟩
      exact ⟨rfl,after⟩
  · refine fun h => ⟨fun _ never => never.elim,?_⟩
    rintro s _ ⟨rfl,holds⟩ _
    obtain ⟨same,after⟩ := h s holds
    rw [← same]
    revert after
    unfold wp
    rcases m env s with ⟨_ | _ | _,_⟩
    · exact fun after => ⟨rfl,rfl,after⟩
    · exact fun after => ⟨rfl,rfl,after⟩
    · exact fun after => ⟨rfl,after⟩

theorem steady_keeps {m : Prog ρ σ ε α} {I : σ → Prop} :
    Steady env (fun _ => False) (fun s t => s = t ∧ I s) (fun _ s t => s = t ∧ I s) (fun s t => s = t ∧ I s) m m ↔
      Keeps env I m := by
  rw [steady_same]
  exact ⟨fun h s holds => (h s holds).2,fun h s holds => ⟨rfl,h s holds⟩⟩

end Integris.Prog
