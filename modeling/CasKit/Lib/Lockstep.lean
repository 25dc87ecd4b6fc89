import CasKit.Lib.Prog

/-!
# Two runs side by side, and single steps of a run

Rules for three questions about programs. Do two programs that both succeed end alike? Does some
request of a run change the state in a given way? Which errors can a program end with?
-/
namespace Effects
namespace Prog

variable {Op : Type} {Res : Op → Type} {ε ε' α β γ σ : Type}

/-! ## Two programs -/

section Agree
variable (h : Handler Op Res σ)

/-- If both programs succeed, their results and last states are related. -/
def Agree (p : Prog Op Res ε α) (q : Prog Op Res ε β) (s t : σ) (R : α → σ → β → σ → Prop) : Prop :=
  ∀ a s' b t', exec h p s = (.ok a, s') → exec h q t = (.ok b, t') → R a s' b t'

variable {h} {R : α → σ → β → σ → Prop} {s t : σ}

theorem Agree.ret {a : α} {b : β} (hR : R a s b t) :
    Agree h (ret a : Prog Op Res ε α) (ret b) s t R := by
  intro a' s' b' t' hp hq
  obtain ⟨ha, rfl⟩ := Prod.mk.inj hp
  obtain ⟨hb, rfl⟩ := Prod.mk.inj hq
  rw [← Except.ok.inj ha, ← Except.ok.inj hb]
  exact hR

theorem Agree.bind {α' β' : Type} {S : α' → σ → β' → σ → Prop} {p : Prog Op Res ε α}
    {q : Prog Op Res ε β} {f : α → Prog Op Res ε α'} {g : β → Prog Op Res ε β'}
    (hpq : Agree h p q s t R)
    (hfg : ∀ a s' b t', R a s' b t' → Agree h (f a) (g b) s' t' S) :
    Agree h (p >>= f) (q >>= g) s t S := by
  intro a s' b t' hp hq
  obtain ⟨a1, s1, hp1, hp2⟩ := exec_bind_eq_ok h hp
  obtain ⟨b1, t1, hq1, hq2⟩ := exec_bind_eq_ok h hq
  exact hfg a1 s1 b1 t1 (hpq a1 s1 b1 t1 hp1 hq1) a s' b t' hp2 hq2

/-- Two loops over one list that start alike, with bodies that keep alike what is alike. -/
theorem Agree.foldlM {f g : γ → α → Prog Op Res ε γ} {xs : List α} {Same : σ → σ → Prop} {b : γ}
    (hstep : ∀ x ∈ xs, ∀ b s t, Same s t →
      Agree h (f b x) (g b x) s t fun b s' b' t' => b = b' ∧ Same s' t')
    (hst : Same s t) :
    Agree h (xs.foldlM f b) (xs.foldlM g b) s t fun b s' b' t' => b = b' ∧ Same s' t' := by
  induction xs generalizing b s t with
  | nil => exact .ret ⟨rfl, hst⟩
  | cons x xs ih =>
    rw [List.foldlM_cons, List.foldlM_cons]
    refine (hstep x List.mem_cons_self b s t hst).bind fun b1 s1 b1' t1 halike => ?_
    obtain ⟨rfl, hsame⟩ := halike
    exact ih (fun y hy => hstep y (List.mem_cons_of_mem _ hy)) hsame

end Agree

/-! ## The steps of a run -/

/-- Some request of the run from `s` takes one state to another as `D` tells. -/
def Passes (h : Handler Op Res σ) (D : σ → σ → Prop) : Prog Op Res ε α → σ → Prop
  | ret _, _ => False
  | throw _, _ => False
  | call o k, s => D s (h o s).2 ∨ Passes h D (k (h o s).1) (h o s).2

section Passes
variable {h : Handler Op Res σ} {D : σ → σ → Prop} {I P : σ → Prop}

/-- A step of a sequence is one of the first program or, once that has succeeded, of the second. -/
theorem passes_bind {p : Prog Op Res ε α} {f : α → Prog Op Res ε β} {s : σ} :
    Passes h D (p >>= f) s ↔
      Passes h D p s ∨ ∃ a t, exec h p s = (.ok a, t) ∧ Passes h D (f a) t := by
  induction p generalizing s with
  | ret a => simp [Passes]
  | throw e => simp [Passes]
  | call o k ih =>
    rw [call_bind]
    simp only [Passes, ih, exec_call]
    exact or_assoc.symm

/-- The first program has none of the steps. -/
theorem passes_bind_right {p : Prog Op Res ε α} {f : α → Prog Op Res ε β} {a : α} {s t : σ}
    (hrun : exec h p s = (.ok a, t)) (hp : ¬ Passes h D p s) :
    Passes h D (p >>= f) s ↔ Passes h D (f a) t := by
  rw [passes_bind, or_iff_right hp]
  constructor
  · rintro ⟨a', t', hrun', hpass⟩
    rw [hrun] at hrun'
    obtain ⟨ha, rfl⟩ := Prod.mk.inj hrun'
    rw [Except.ok.inj ha]
    exact hpass
  · intro hpass
    exact ⟨a, t, hrun, hpass⟩

theorem Uses.not_passes {q : Op → Prop} {p : Prog Op Res ε α} (hp : p.Uses q)
    (hq : ∀ o s, q o → ¬ D s (h o s).2) (s : σ) : ¬ Passes h D p s := by
  induction p generalizing s with
  | ret a => exact not_false
  | throw e => exact not_false
  | call o k ih =>
    rintro (hfirst | hlater)
    · exact hq o s hp.1 hfirst
    · exact ih _ (hp.2 _) _ hlater

/-- What holds in every state of a run holds on both sides of a step. -/
theorem Passes.along {Q : Except ε α → σ → Prop} {p : Prog Op Res ε α} {s : σ}
    (hpass : Passes h D p s) (hp : Along h I Q p s) : ∃ u u', I u ∧ I u' ∧ D u u' := by
  induction p generalizing s with
  | ret a => exact hpass.elim
  | throw e => exact hpass.elim
  | call o k ih =>
    rcases hpass with hfirst | hlater
    · exact ⟨s, _, hp.1, hp.2.start, hfirst⟩
    · exact ih _ hlater hp.2

/-- What holds at the start of a run and not at its end ends with some step. -/
theorem Along.passes {Q : Except ε α → σ → Prop} {p : Prog Op Res ε α} {s : σ}
    (hp : Along h I Q p s) (hs : P s) (hend : ¬ P (exec h p s).2) :
    Passes h (fun u u' => I u ∧ P u ∧ ¬ P u') p s := by
  induction p generalizing s with
  | ret a => exact absurd hs hend
  | throw e => exact absurd hs hend
  | call o k ih =>
    by_cases hnext : P (h o s).2
    · exact .inr (ih _ hp.2 hnext hend)
    · exact .inl ⟨hp.1, hs, hnext⟩

theorem Passes.mono {D' : σ → σ → Prop} {p : Prog Op Res ε α} {s : σ} (hp : Passes h D p s)
    (hD : ∀ u u', D u u' → D' u u') : Passes h D' p s := by
  induction p generalizing s with
  | ret a => exact hp.elim
  | throw e => exact hp.elim
  | call o k ih =>
    rcases hp with hfirst | hlater
    · exact .inl (hD _ _ hfirst)
    · exact .inr (ih _ hlater)

end Passes

/-! ## The errors of a program -/

/-- Every error the program can end with satisfies `E`, whatever the answers are. -/
def Throws (E : ε → Prop) : Prog Op Res ε α → Prop
  | ret _ => True
  | throw e => E e
  | call _ k => ∀ r, (k r).Throws E

section Throws
variable {E E' : ε → Prop}

theorem Throws.ofExcept {x : Except ε α} (hx : ∀ e, x = .error e → E e) :
    (ofExcept x : Prog Op Res ε α).Throws E := by
  cases x with
  | ok a => trivial
  | error e => exact hx e rfl

theorem Throws.mono {p : Prog Op Res ε α} (hp : p.Throws E) (hE : ∀ e, E e → E' e) :
    p.Throws E' := by
  induction p with
  | ret a => trivial
  | throw e => exact hE e hp
  | call o k ih => exact fun r => ih r (hp r)

theorem Throws.bind {p : Prog Op Res ε α} {f : α → Prog Op Res ε β} (hp : p.Throws E)
    (hf : ∀ a, (f a).Throws E) : (p >>= f).Throws E := by
  induction p with
  | ret a => exact hf a
  | throw e => exact hp
  | call o k ih => exact fun r => ih r (hp r)

theorem Throws.mapErr {g : ε' → ε} (hg : ∀ e, E (g e)) (p : Prog Op Res ε' α) :
    (p.mapErr g).Throws E := by
  induction p with
  | ret a => trivial
  | throw e => exact hg e
  | call o k ih => exact ih

theorem Throws.attempt (p : Prog Op Res ε' α) :
    (p.attempt : Prog Op Res ε (Except ε' α)).Throws E := by
  induction p with
  | ret a => trivial
  | throw e => trivial
  | call o k ih => exact ih

theorem Throws.foldlM {f : β → α → Prog Op Res ε β} {xs : List α}
    (hf : ∀ x ∈ xs, ∀ b, (f b x).Throws E) (b : β) : (xs.foldlM f b).Throws E := by
  induction xs generalizing b with
  | nil => trivial
  | cons x xs ih =>
    rw [List.foldlM_cons]
    refine (hf x List.mem_cons_self b).bind fun b' => ?_
    exact ih (fun y hy => hf y (List.mem_cons_of_mem _ hy)) b'

theorem Throws.exec_error {h : Handler Op Res σ} {p : Prog Op Res ε α} (hp : p.Throws E)
    {s t : σ} {e : ε} (hrun : exec h p s = (.error e, t)) : E e := by
  induction p generalizing s with
  | ret a => cases (Prod.mk.inj hrun).1
  | throw e' =>
    obtain rfl := Except.error.inj (Prod.mk.inj hrun).1
    exact hp
  | call o k ih => exact ih _ (hp _) hrun

end Throws

end Prog

end Effects
