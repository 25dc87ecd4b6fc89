import Mathlib.Tactic

/-!
# Programs over an environment, and what holds along their runs

A program is a finite tree of requests: each request `o` is answered with a value of
type `Res o`, and a leaf is a result or an error. One program has several readings.
`exec` runs it to its end against a handler, `cut` stops it after a number of requests,
and `Along` says that a condition holds in every state the run passes through, which is
what a crash between two requests can observe.
-/
namespace Effects

inductive Prog (Op : Type) (Res : Op → Type) (ε α : Type) : Type where
  | ret (a : α)
  | throw (e : ε)
  | call (o : Op) (k : Res o → Prog Op Res ε α)

namespace Prog

variable {Op : Type} {Res : Op → Type} {ε ε' α β γ σ τ : Type}

def bind (p : Prog Op Res ε α) (f : α → Prog Op Res ε β) : Prog Op Res ε β :=
  match p with
  | ret a => f a
  | throw e => throw e
  | call o k => call o (fun r => (k r).bind f)

instance : Monad (Prog Op Res ε) where
  pure := ret
  bind := bind

@[simp] theorem pure_eq (a : α) : (pure a : Prog Op Res ε α) = ret a := rfl

@[simp] theorem ret_bind (a : α) (f : α → Prog Op Res ε β) : (ret a >>= f) = f a := rfl

@[simp] theorem throw_bind (e : ε) (f : α → Prog Op Res ε β) :
    ((throw e : Prog Op Res ε α) >>= f) = throw e := rfl

@[simp] theorem call_bind (o : Op) (k : Res o → Prog Op Res ε α) (f : α → Prog Op Res ε β) :
    (call o k >>= f) = call o (fun r => k r >>= f) := rfl

theorem bind_ret (p : Prog Op Res ε α) : p >>= ret = p := by
  induction p with
  | ret a => rfl
  | throw e => rfl
  | call o k ih => rw [call_bind]; congr 1; funext r; exact ih r

theorem bind_assoc (p : Prog Op Res ε α) (f : α → Prog Op Res ε β) (g : β → Prog Op Res ε γ) :
    p >>= f >>= g = p >>= fun a => f a >>= g := by
  induction p with
  | ret a => rfl
  | throw e => rfl
  | call o k ih => simp only [call_bind]; congr 1; funext r; exact ih r

instance : LawfulMonad (Prog Op Res ε) :=
  LawfulMonad.mk' _ bind_ret (fun _ _ => rfl) bind_assoc

/-- The program that makes one request and returns its answer. -/
def request (o : Op) : Prog Op Res ε (Res o) := call o ret

/-- A computed result or error as a program that asks nothing. -/
def ofExcept : Except ε α → Prog Op Res ε α
  | .ok a => ret a
  | .error e => throw e

/-- Convert the errors of a program, as `?` does through `From`. -/
def mapErr (g : ε → ε') : Prog Op Res ε α → Prog Op Res ε' α
  | ret a => ret a
  | throw e => throw (g e)
  | call o k => call o (fun r => (k r).mapErr g)

/-- Run a program and hand its outcome, error included, to what follows. -/
def attempt : Prog Op Res ε α → Prog Op Res ε' (Except ε α)
  | ret a => ret (.ok a)
  | throw e => ret (.error e)
  | call o k => call o (fun r => (k r).attempt)

theorem mapErr_bind (g : ε → ε') (p : Prog Op Res ε α) (f : α → Prog Op Res ε β) :
    (p >>= f).mapErr g = p.mapErr g >>= fun a => (f a).mapErr g := by
  induction p with
  | ret a => rfl
  | throw e => rfl
  | call o k ih => simp only [call_bind, mapErr]; congr 1; funext r; exact ih r

@[simp] theorem ofExcept_ok (a : α) : (ofExcept (.ok a) : Prog Op Res ε α) = ret a := rfl

@[simp] theorem ofExcept_error (e : ε) : (ofExcept (.error e) : Prog Op Res ε α) = throw e := rfl

/-- The meaning of requests over states `σ`: an answer and the next state. -/
abbrev Handler (Op : Type) (Res : Op → Type) (σ : Type) := (o : Op) → σ → Res o × σ

/-- Run a program to its end. -/
def exec (h : Handler Op Res σ) : Prog Op Res ε α → σ → Except ε α × σ
  | ret a, s => (.ok a, s)
  | throw e, s => (.error e, s)
  | call o k, s => exec h (k (h o s).1) (h o s).2

/-- The state left behind when a program is cut off after `n` requests. -/
def cut (h : Handler Op Res σ) : ℕ → Prog Op Res ε α → σ → σ
  | n + 1, call o k, s => cut h n (k (h o s).1) (h o s).2
  | _, _, s => s

/-- The request that a program is about to make after `n` requests. -/
def pending (h : Handler Op Res σ) : ℕ → Prog Op Res ε α → σ → Option Op
  | 0, call o _, _ => some o
  | n + 1, call o k, s => pending h n (k (h o s).1) (h o s).2
  | _, _, _ => none

section Exec
variable (h : Handler Op Res σ)

@[simp] theorem exec_ret (a : α) (s : σ) : exec h (ret a : Prog Op Res ε α) s = (.ok a, s) := rfl

@[simp] theorem exec_throw (e : ε) (s : σ) :
    exec h (throw e : Prog Op Res ε α) s = (.error e, s) := rfl

@[simp] theorem exec_call (o : Op) (k : Res o → Prog Op Res ε α) (s : σ) :
    exec h (call o k) s = exec h (k (h o s).1) (h o s).2 := rfl

@[simp] theorem exec_request (o : Op) (s : σ) :
    exec h (request o : Prog Op Res ε (Res o)) s = (.ok (h o s).1, (h o s).2) := rfl

@[simp] theorem exec_ofExcept (x : Except ε α) (s : σ) :
    exec h (ofExcept x : Prog Op Res ε α) s = (x, s) := by cases x <;> rfl

theorem exec_bind (p : Prog Op Res ε α) (f : α → Prog Op Res ε β) (s : σ) :
    exec h (p >>= f) s = match exec h p s with
      | (.ok a, s') => exec h (f a) s'
      | (.error e, s') => (.error e, s') := by
  induction p generalizing s with
  | ret a => rfl
  | throw e => rfl
  | call o k ih => simp only [call_bind, exec_call]; exact ih _ _

theorem exec_bind_ok {p : Prog Op Res ε α} {f : α → Prog Op Res ε β} {s s' : σ} {a : α}
    (hp : exec h p s = (.ok a, s')) : exec h (p >>= f) s = exec h (f a) s' := by
  rw [exec_bind, hp]

theorem exec_bind_error {p : Prog Op Res ε α} {f : α → Prog Op Res ε β} {s s' : σ} {e : ε}
    (hp : exec h p s = (.error e, s')) : exec h (p >>= f) s = (.error e, s') := by
  rw [exec_bind, hp]

/-- A sequence that succeeds is one of two programs that do. -/
theorem exec_bind_eq_ok {p : Prog Op Res ε α} {f : α → Prog Op Res ε β} {s t : σ} {b : β}
    (hrun : exec h (p >>= f) s = (.ok b, t)) :
    ∃ a u, exec h p s = (.ok a, u) ∧ exec h (f a) u = (.ok b, t) := by
  rw [exec_bind] at hrun
  cases hp : exec h p s with
  | mk r u =>
    rw [hp] at hrun
    cases r with
    | error e => cases (Prod.mk.inj hrun).1
    | ok a => exact ⟨a, u, rfl, hrun⟩

/-- What every successful round of a loop keeps, a successful loop keeps. -/
theorem exec_foldlM_ok {f : β → α → Prog Op Res ε β} {xs : List α} {I : β → σ → Prop}
    (hstep : ∀ x ∈ xs, ∀ b s b' s', I b s → exec h (f b x) s = (.ok b', s') → I b' s')
    {b b' : β} {s s' : σ} (hI : I b s) (hrun : exec h (xs.foldlM f b) s = (.ok b', s')) :
    I b' s' := by
  induction xs generalizing b s with
  | nil =>
    obtain ⟨hres, rfl⟩ := Prod.mk.inj hrun
    rwa [← Except.ok.inj hres]
  | cons x xs ih =>
    rw [List.foldlM_cons] at hrun
    obtain ⟨b1, s1, hx, hrest⟩ := exec_bind_eq_ok h hrun
    exact ih (fun y hy => hstep y (List.mem_cons_of_mem _ hy))
      (hstep x List.mem_cons_self b s b1 s1 hI hx) hrest

theorem exec_mapErr (g : ε → ε') (p : Prog Op Res ε α) (s : σ) :
    exec h (p.mapErr g) s = ((exec h p s).1.mapError g, (exec h p s).2) := by
  induction p generalizing s with
  | ret a => rfl
  | throw e => rfl
  | call o k ih => exact ih _ _

theorem exec_attempt (p : Prog Op Res ε α) (s : σ) :
    exec h (p.attempt : Prog Op Res ε' (Except ε α)) s =
      (.ok (exec h p s).1, (exec h p s).2) := by
  induction p generalizing s with
  | ret a => rfl
  | throw e => rfl
  | call o k ih => exact ih _ _

@[simp] theorem cut_zero (p : Prog Op Res ε α) (s : σ) : cut h 0 p s = s := by
  cases p <;> rfl

@[simp] theorem cut_ret (n : ℕ) (a : α) (s : σ) : cut h n (ret a : Prog Op Res ε α) s = s := by
  cases n <;> rfl

@[simp] theorem cut_throw (n : ℕ) (e : ε) (s : σ) :
    cut h n (throw e : Prog Op Res ε α) s = s := by cases n <;> rfl

@[simp] theorem cut_call (n : ℕ) (o : Op) (k : Res o → Prog Op Res ε α) (s : σ) :
    cut h (n + 1) (call o k) s = cut h n (k (h o s).1) (h o s).2 := rfl

/-- A run that is cut late enough is a complete run. -/
theorem exists_cut_eq_exec (p : Prog Op Res ε α) (s : σ) :
    ∃ n, cut h n p s = (exec h p s).2 := by
  induction p generalizing s with
  | ret a => exact ⟨0, rfl⟩
  | throw e => exact ⟨0, rfl⟩
  | call o k ih => obtain ⟨n, hn⟩ := ih (h o s).1 (h o s).2; exact ⟨n + 1, hn⟩

end Exec

/-- `I` holds in every state of the run from `s`, the first and the last included, and the
outcome and the last state satisfy `Q`. -/
def Along (h : Handler Op Res σ) (I : σ → Prop) (Q : Except ε α → σ → Prop) :
    Prog Op Res ε α → σ → Prop
  | ret a, s => I s ∧ Q (.ok a) s
  | throw e, s => I s ∧ Q (.error e) s
  | call o k, s => I s ∧ Along h I Q (k (h o s).1) (h o s).2

section Along
variable {h : Handler Op Res σ} {I J : σ → Prop}

theorem along_iff {Q : Except ε α → σ → Prop} {p : Prog Op Res ε α} {s : σ} :
    Along h I Q p s ↔ (∀ n, I (cut h n p s)) ∧ Q (exec h p s).1 (exec h p s).2 := by
  induction p generalizing s with
  | ret a => simp [Along]
  | throw e => simp [Along]
  | call o k ih =>
    simp only [Along, ih, exec_call]
    constructor
    · rintro ⟨h0, hn, hq⟩
      refine ⟨fun n => ?_, hq⟩
      cases n with
      | zero => simpa using h0
      | succ n => exact hn n
    · rintro ⟨hn, hq⟩
      exact ⟨by simpa using hn 0, fun n => hn (n + 1), hq⟩

theorem Along.at_cut {Q : Except ε α → σ → Prop} {p : Prog Op Res ε α} {s : σ}
    (hp : Along h I Q p s) (n : ℕ) : I (cut h n p s) := (along_iff.mp hp).1 n

theorem Along.at_end {Q : Except ε α → σ → Prop} {p : Prog Op Res ε α} {s : σ}
    (hp : Along h I Q p s) : Q (exec h p s).1 (exec h p s).2 := (along_iff.mp hp).2

theorem Along.start {Q : Except ε α → σ → Prop} {p : Prog Op Res ε α} {s : σ}
    (hp : Along h I Q p s) : I s := by simpa using hp.at_cut 0

theorem Along.last {Q : Except ε α → σ → Prop} {p : Prog Op Res ε α} {s : σ}
    (hp : Along h I Q p s) : I (exec h p s).2 := by
  obtain ⟨n, hn⟩ := exists_cut_eq_exec h p s
  rw [← hn]
  exact hp.at_cut n

theorem Along.mono {Q Q' : Except ε α → σ → Prop} {p : Prog Op Res ε α} {s : σ}
    (hp : Along h I Q p s) (hI : ∀ s, I s → J s) (hQ : ∀ r s, I s → Q r s → Q' r s) :
    Along h J Q' p s := by
  rw [along_iff] at hp ⊢
  refine ⟨fun n => hI _ (hp.1 n), hQ _ _ ?_ hp.2⟩
  obtain ⟨n, hn⟩ := exists_cut_eq_exec h p s
  exact hn ▸ hp.1 n

theorem Along.and {Q R : Except ε α → σ → Prop} {p : Prog Op Res ε α} {s : σ}
    (hp : Along h I Q p s) (hp' : Along h J R p s) :
    Along h (fun s => I s ∧ J s) (fun r s => Q r s ∧ R r s) p s :=
  along_iff.mpr ⟨fun n => ⟨hp.at_cut n, hp'.at_cut n⟩, hp.at_end, hp'.at_end⟩

theorem Along.bind {Q : Except ε α → σ → Prop} {R : Except ε β → σ → Prop}
    {p : Prog Op Res ε α} {f : α → Prog Op Res ε β} {s : σ} (hp : Along h I Q p s)
    (hok : ∀ a s', Q (.ok a) s' → Along h I R (f a) s')
    (herr : ∀ e s', Q (.error e) s' → R (.error e) s') : Along h I R (p >>= f) s := by
  induction p generalizing s with
  | ret a => exact hok a s hp.2
  | throw e => exact ⟨hp.1, herr e s hp.2⟩
  | call o k ih => exact ⟨hp.1, ih _ hp.2⟩

theorem Along.mapErr {Q : Except ε' α → σ → Prop} {g : ε → ε'} {p : Prog Op Res ε α} {s : σ}
    (hp : Along h I (fun r => Q (r.mapError g)) p s) : Along h I Q (p.mapErr g) s := by
  induction p generalizing s with
  | ret a => exact hp
  | throw e => exact hp
  | call o k ih => exact ⟨hp.1, ih _ hp.2⟩

theorem Along.attempt {Q : Except ε' (Except ε α) → σ → Prop} {p : Prog Op Res ε α} {s : σ}
    (hp : Along h I (fun r => Q (.ok r)) p s) : Along h I Q p.attempt s := by
  induction p generalizing s with
  | ret a => exact hp
  | throw e => exact hp
  | call o k ih => exact ⟨hp.1, ih _ hp.2⟩

theorem Along.ofExcept {Q : Except ε α → σ → Prop} {x : Except ε α} {s : σ} (hI : I s)
    (hQ : Q x s) : Along h I Q (ofExcept x) s := by
  cases x <;> exact ⟨hI, hQ⟩

/-- Loop rule. `L done acc` is the loop invariant after the elements `done`. -/
theorem Along.foldlM {E : ε → σ → Prop} {f : β → α → Prog Op Res ε β} {xs : List α}
    (L : List α → β → σ → Prop) {init : β} {s : σ} (hI : I s) (h0 : L [] init s)
    (hstep : ∀ done x rest acc s', xs = done ++ x :: rest → I s' → L done acc s' →
      Along h I (fun r t => match r with
        | .ok b => L (done ++ [x]) b t
        | .error e => E e t) (f acc x) s') :
    Along h I (fun r t => match r with
      | .ok b => L xs b t
      | .error e => E e t) (xs.foldlM f init) s := by
  suffices hgen : ∀ rest done acc s', xs = done ++ rest → I s' → L done acc s' →
      Along h I (fun r t => match r with
        | .ok b => L xs b t
        | .error e => E e t) (rest.foldlM f acc) s' from
    hgen xs [] init s rfl hI h0
  intro rest
  induction rest with
  | nil =>
    intro done acc s' hxs hs' hL
    rw [List.append_nil] at hxs
    exact ⟨hs', hxs ▸ hL⟩
  | cons x rest ih =>
    intro done acc s' hxs hs' hL
    rw [List.foldlM_cons]
    have hx := (hstep done x rest acc s' hxs hs' hL)
    refine (along_iff.mpr ⟨hx.at_cut, hx.at_end, hx.last⟩ :
      Along h I (fun r t => (match r with
        | .ok b => L (done ++ [x]) b t
        | .error e => E e t) ∧ I t) (f acc x) s').bind ?_ ?_
    · intro a t ht
      exact ih (done ++ [x]) a t (by simp [hxs]) ht.2 ht.1
    · intro e t ht
      exact ht.1

end Along

/-- Every request of the program satisfies `q`, whatever the answers are. -/
def Uses (q : Op → Prop) : Prog Op Res ε α → Prop
  | ret _ => True
  | throw _ => True
  | call o k => q o ∧ ∀ r, (k r).Uses q

section Uses
variable {q : Op → Prop} {h : Handler Op Res σ}

theorem Uses.request {o : Op} (ho : q o) : (request o : Prog Op Res ε (Res o)).Uses q :=
  ⟨ho, fun _ => trivial⟩

theorem Uses.ofExcept (x : Except ε α) : (ofExcept x : Prog Op Res ε α).Uses q := by
  cases x <;> trivial

theorem Uses.bind {p : Prog Op Res ε α} {f : α → Prog Op Res ε β} (hp : p.Uses q)
    (hf : ∀ a, (f a).Uses q) : (p >>= f).Uses q := by
  induction p with
  | ret a => exact hf a
  | throw e => trivial
  | call o k ih => exact ⟨hp.1, fun r => ih r (hp.2 r)⟩

theorem Uses.mapErr {g : ε → ε'} {p : Prog Op Res ε α} (hp : p.Uses q) : (p.mapErr g).Uses q := by
  induction p with
  | ret a => trivial
  | throw e => trivial
  | call o k ih => exact ⟨hp.1, fun r => ih r (hp.2 r)⟩

theorem Uses.attempt {p : Prog Op Res ε α} (hp : p.Uses q) :
    (p.attempt : Prog Op Res ε' (Except ε α)).Uses q := by
  induction p with
  | ret a => trivial
  | throw e => trivial
  | call o k ih => exact ⟨hp.1, fun r => ih r (hp.2 r)⟩

theorem Uses.foldlM {f : β → α → Prog Op Res ε β} (hf : ∀ b a, (f b a).Uses q) (xs : List α)
    (b : β) : (xs.foldlM f b).Uses q := by
  induction xs generalizing b with
  | nil => trivial
  | cons x xs ih => rw [List.foldlM_cons]; exact (hf b x).bind ih

/-- A part of the state that no request of the program changes is the same in every state
of the run. -/
theorem Uses.cut_eq {p : Prog Op Res ε α} (hp : p.Uses q) (π : σ → τ)
    (hπ : ∀ o s, q o → π (h o s).2 = π s) (n : ℕ) (s : σ) : π (cut h n p s) = π s := by
  induction p generalizing n s with
  | ret a => simp
  | throw e => simp
  | call o k ih =>
    cases n with
    | zero => simp
    | succ n => rw [cut_call, ih _ (hp.2 _), hπ o s hp.1]

theorem Uses.exec_eq {p : Prog Op Res ε α} (hp : p.Uses q) (π : σ → τ)
    (hπ : ∀ o s, q o → π (h o s).2 = π s) (s : σ) : π (exec h p s).2 = π s := by
  obtain ⟨n, hn⟩ := exists_cut_eq_exec h p s
  rw [← hn]
  exact hp.cut_eq π hπ n s

/-- An invariant that each request of the program keeps holds throughout. -/
theorem Uses.along {p : Prog Op Res ε α} (hp : p.Uses q) {I : σ → Prop}
    (hI : ∀ o s, q o → I s → I (h o s).2) {s : σ} (hs : I s) :
    Along h I (fun _ t => I t) p s := by
  induction p generalizing s with
  | ret a => exact ⟨hs, hs⟩
  | throw e => exact ⟨hs, hs⟩
  | call o k ih => exact ⟨hs, ih _ (hp.2 _) (hI o s hp.1 hs)⟩

/-- Requests that change nothing leave only a result behind. -/
theorem Uses.exec_pure {p : Prog Op Res ε α} (hp : p.Uses q) (hq : ∀ o s, q o → (h o s).2 = s)
    (s : σ) : exec h p s = ((exec h p s).1, s) := by
  have hstate : (exec h p s).2 = s := hp.exec_eq id hq s
  exact Prod.ext rfl hstate

/-- Where the answers depend on a part of the state only, so does the result. -/
theorem Uses.exec_congr {p : Prog Op Res ε α} (hp : p.Uses q) (hq : ∀ o s, q o → (h o s).2 = s)
    (π : σ → τ) (hπ : ∀ o s t, q o → π s = π t → (h o s).1 = (h o t).1) {s t : σ}
    (hst : π s = π t) : (exec h p s).1 = (exec h p t).1 := by
  induction p with
  | ret a => rfl
  | throw e => rfl
  | call o k ih =>
    rw [exec_call, exec_call, hq o s hp.1, hq o t hp.1, hπ o s t hp.1 hst]
    exact ih _ (hp.2 _)

/-- What is pending is a request of the program. -/
theorem Uses.pending {p : Prog Op Res ε α} (hp : p.Uses q) {n : ℕ} {s : σ} {o : Op}
    (ho : p.pending h n s = some o) : q o := by
  induction p generalizing n s with
  | ret a => cases n <;> cases ho
  | throw e => cases n <;> cases ho
  | call o' k ih =>
    cases n with
    | zero =>
      obtain rfl := Option.some.inj ho
      exact hp.1
    | succ n => exact ih _ (hp.2 _) ho

theorem Uses.mono {q' : Op → Prop} {p : Prog Op Res ε α} (hp : p.Uses q)
    (hq : ∀ o, q o → q' o) : p.Uses q' := by
  induction p with
  | ret a => trivial
  | throw e => trivial
  | call o k ih => exact ⟨hq o hp.1, fun r => ih r (hp.2 r)⟩

end Uses

/-- The error that a program returns at once if the request after `n` others is answered as `fail`
says. -/
def failAt (h : Handler Op Res σ) (fail : (o : Op) → Option (Res o)) :
    ℕ → Prog Op Res ε α → σ → Option ε
  | 0, call o k, _ => (fail o).bind fun r =>
    match k r with
    | throw e => some e
    | _ => none
  | n + 1, call o k, s => failAt h fail n (k (h o s).1) (h o s).2
  | _, _, _ => none

section FailAt
variable {h : Handler Op Res σ} {fail : (o : Op) → Option (Res o)}

theorem Uses.failAt_eq_none {p : Prog Op Res ε α} (hp : p.Uses fun o => fail o = none) (n : ℕ)
    (s : σ) : failAt h fail n p s = none := by
  induction p generalizing n s with
  | ret a => cases n <;> rfl
  | throw e => cases n <;> rfl
  | call o k ih =>
    cases n with
    | zero => simp only [failAt, hp.1, Option.bind_none]
    | succ n => exact ih _ (hp.2 _) n _

/-- A sequence that fails does so in the first program or in what follows its result. -/
theorem failAt_bind {p : Prog Op Res ε α} {f : α → Prog Op Res ε β}
    (hf : ∀ a e, f a ≠ throw e) {n : ℕ} {s : σ} {e : ε}
    (hfail : failAt h fail n (p >>= f) s = some e) :
    (failAt h fail n p s = some e ∧ cut h n (p >>= f) s = cut h n p s) ∨
      ∃ a m t, exec h p s = (.ok a, t) ∧ failAt h fail m (f a) t = some e ∧
        cut h n (p >>= f) s = cut h m (f a) t := by
  induction p generalizing n s with
  | ret a => exact .inr ⟨a, n, s, rfl, hfail, rfl⟩
  | throw e' => cases n <;> cases hfail
  | call o k ih =>
    cases n with
    | zero =>
      refine .inl ⟨?_, by rw [cut_zero, cut_zero]⟩
      rw [call_bind] at hfail
      simp only [failAt] at hfail ⊢
      obtain ⟨r, hr, hstop⟩ := Option.bind_eq_some_iff.mp hfail
      rw [hr, Option.bind_some]
      cases hk : k r with
      | ret a =>
        rw [hk, ret_bind] at hstop
        cases hfa : f a with
        | ret b => rw [hfa] at hstop; cases hstop
        | throw e' => exact absurd hfa (hf a e')
        | call o' k' => rw [hfa] at hstop; cases hstop
      | throw e' =>
        rw [hk, throw_bind] at hstop
        exact hstop
      | call o' k' => rw [hk, call_bind] at hstop; cases hstop
    | succ n =>
      rw [call_bind] at hfail
      rcases ih _ hfail with ⟨hfirst, hcut⟩ | ⟨a, m, t, hrun, hthen, hcut⟩
      · exact .inl ⟨hfirst, hcut⟩
      · exact .inr ⟨a, m, t, hrun, hthen, hcut⟩

end FailAt

/-- Every result the program can return satisfies `Q`, whatever the answers are. -/
def Yields (Q : α → Prop) : Prog Op Res ε α → Prop
  | ret a => Q a
  | throw _ => True
  | call _ k => ∀ r, (k r).Yields Q

section Yields
variable {P : α → Prop} {Q : β → Prop} {h : Handler Op Res σ}

theorem Yields.ofExcept {x : Except ε α} (hx : ∀ a, x = .ok a → P a) :
    (ofExcept x : Prog Op Res ε α).Yields P := by
  cases x with
  | ok a => exact hx a rfl
  | error e => trivial

theorem Yields.bind {p : Prog Op Res ε α} {f : α → Prog Op Res ε β} (hp : p.Yields P)
    (hf : ∀ a, P a → (f a).Yields Q) : (p >>= f).Yields Q := by
  induction p with
  | ret a => exact hf a hp
  | throw e => trivial
  | call o k ih => exact fun r => ih r (hp r)

theorem Yields.trivial (p : Prog Op Res ε α) : p.Yields fun _ => True := by
  induction p with
  | ret a => exact True.intro
  | throw e => exact True.intro
  | call o k ih => exact ih

theorem Yields.mapErr {g : ε → ε'} {p : Prog Op Res ε α} (hp : p.Yields P) :
    (p.mapErr g).Yields P := by
  induction p with
  | ret a => exact hp
  | throw e => exact True.intro
  | call o k ih => exact fun r => ih r (hp r)

theorem Yields.attempt {p : Prog Op Res ε α} (hp : p.Yields P) :
    (p.attempt : Prog Op Res ε' (Except ε α)).Yields fun r => ∀ a, r = .ok a → P a := by
  induction p with
  | ret a => exact fun b hb => Except.ok.inj hb ▸ hp
  | throw e => exact fun b hb => by cases hb
  | call o k ih => exact fun r => ih r (hp r)

theorem Yields.mono {P' : α → Prop} {p : Prog Op Res ε α} (hp : p.Yields P)
    (h : ∀ a, P a → P' a) : p.Yields P' := by
  induction p with
  | ret a => exact h a hp
  | throw e => exact True.intro
  | call o k ih => exact fun r => ih r (hp r)

/-- A loop each of whose rounds adds `n` to a measure. -/
theorem Yields.foldlM_add {M : Type} [AddCommMonoid M] {f : α → β → Prog Op Res ε α} {m : α → M}
    {n : M} (hf : ∀ a b, (f a b).Yields fun r => m r = m a + n) (l : List β) (a : α) :
    (l.foldlM f a).Yields fun r => m r = m a + l.length • n := by
  induction l generalizing a with
  | nil => simp [Yields]
  | cons b l ih =>
    rw [List.foldlM_cons]
    refine (hf a b).bind fun a' ha' => (ih a').mono fun r hr => ?_
    rw [hr, ha', List.length_cons, succ_nsmul', add_assoc]

theorem Yields.exec_ok {p : Prog Op Res ε α} (hp : p.Yields P) {s t : σ} {a : α}
    (hrun : exec h p s = (.ok a, t)) : P a := by
  induction p generalizing s with
  | ret b =>
    obtain rfl := Except.ok.inj (Prod.mk.inj hrun).1
    exact hp
  | throw e => cases (Prod.mk.inj hrun).1
  | call o k ih => exact ih _ (hp _) hrun

/-- A run of a program whose requests keep an invariant and whose results satisfy `P`. -/
theorem Yields.along {p : Prog Op Res ε α} {q : Op → Prop} {I : σ → Prop} (hp : p.Yields P)
    (hu : p.Uses q) (hI : ∀ o s, q o → I s → I (h o s).2) {s : σ} (hs : I s) :
    Along h I (fun r t => I t ∧ ∀ a, r = .ok a → P a) p s := by
  induction p generalizing s with
  | ret a => exact ⟨hs, hs, fun b hb => Except.ok.inj hb ▸ hp⟩
  | throw e => exact ⟨hs, hs, fun b hb => by cases hb⟩
  | call o k ih => exact ⟨hs, ih _ (hp _) (hu.2 _) (hI o s hu.1 hs)⟩

end Yields

/-- A view after the changes of a list, the first one first. -/
def after {κ ν : Type} (act : κ → ν → ν) (cs : List κ) (v : ν) : ν :=
  cs.foldl (fun v c => act c v) v

section Performs
variable {κ ν : Type} (h : Handler Op Res σ) (act : κ → ν → ν) (V : σ → ν)

@[simp] theorem after_nil (v : ν) : after act [] v = v := rfl

@[simp] theorem after_cons (c : κ) (cs : List κ) (v : ν) :
    after act (c :: cs) v = after act cs (act c v) := rfl

theorem after_append (cs ds : List κ) (v : ν) :
    after act (cs ++ ds) v = after act ds (after act cs v) := List.foldl_append

/-- The program makes the changes `cs` of the view, in this order and one at a time: at every
moment some of them are made, and all of them when it returns a result. -/
def Performs (cs : List κ) (Q : α → Prop) (p : Prog Op Res ε α) (s : σ) : Prop :=
  Along h (fun u => ∃ k, V u = after act (cs.take k) (V s))
    (fun r u => ∀ a, r = .ok a → V u = after act cs (V s) ∧ Q a) p s

variable {h act V} {cs ds : List κ} {Q : α → Prop} {s : σ}

theorem Performs.at_cut {p : Prog Op Res ε α} (hp : Performs h act V cs Q p s) (n : ℕ) :
    ∃ k, V (cut h n p s) = after act (cs.take k) (V s) := Along.at_cut hp n

theorem Performs.at_ok {p : Prog Op Res ε α} (hp : Performs h act V cs Q p s) {a : α} {t : σ}
    (hr : exec h p s = (.ok a, t)) : V t = after act cs (V s) ∧ Q a := by
  have hend := Along.at_end hp a (by rw [hr])
  rw [hr] at hend
  exact hend

theorem Performs.last {p : Prog Op Res ε α} (hp : Performs h act V cs Q p s) :
    ∃ k, V (exec h p s).2 = after act (cs.take k) (V s) := Along.last hp

theorem Performs.mono {R : α → Prop} {p : Prog Op Res ε α} (hp : Performs h act V cs Q p s)
    (hQ : ∀ a, Q a → R a) : Performs h act V cs R p s :=
  Along.mono hp (fun _ h => h) fun _ _ _ h a ha => ⟨(h a ha).1, hQ a (h a ha).2⟩

theorem Performs.ret {a : α} (ha : Q a) : Performs h act V [] Q (ret a : Prog Op Res ε α) s :=
  ⟨⟨0, rfl⟩, fun _ hr => ⟨rfl, Except.ok.inj hr ▸ ha⟩⟩

theorem Performs.throw (cs : List κ) (e : ε) :
    Performs h act V cs Q (throw e : Prog Op Res ε α) s :=
  ⟨⟨0, rfl⟩, fun _ hr => by cases hr⟩

theorem Performs.ofExcept {x : Except ε α} (hx : ∀ a, x = .ok a → Q a) :
    Performs h act V [] Q (ofExcept x) s := by
  cases x with
  | ok a => exact .ret (hx a rfl)
  | error e => exact .throw [] e

/-- Changes that would change nothing need not be made. -/
theorem Performs.ret_of_eq {a : α} (hV : V s = after act cs (V s)) (ha : Q a) :
    Performs h act V cs Q (Prog.ret a : Prog Op Res ε α) s :=
  ⟨⟨0, rfl⟩, fun _ hr => ⟨hV, Except.ok.inj hr ▸ ha⟩⟩

/-- A request that leaves the view alone comes before the changes of what follows. -/
theorem Performs.call {o : Op} {k : Res o → Prog Op Res ε α} (hV : V (h o s).2 = V s)
    (hk : Performs h act V cs Q (k (h o s).1) (h o s).2) :
    Performs h act V cs Q (Prog.call o k) s := by
  unfold Performs at hk
  rw [hV] at hk
  exact ⟨⟨0, rfl⟩, hk⟩

/-- The changes of two programs, one after the other. -/
theorem Performs.bind {R : β → Prop} {p : Prog Op Res ε α} {f : α → Prog Op Res ε β}
    (hp : Performs h act V cs Q p s)
    (hf : ∀ a t, V t = after act cs (V s) → Q a → Performs h act V ds R (f a) t) :
    Performs h act V (cs ++ ds) R (p >>= f) s := by
  have hfirst : Along h (fun u => ∃ k, V u = after act ((cs ++ ds).take k) (V s))
      (fun r u => ∀ a, r = .ok a → V u = after act cs (V s) ∧ Q a) p s := by
    refine Along.mono hp (fun u ⟨k, hk⟩ => ⟨min k cs.length, ?_⟩) fun _ _ _ h => h
    rw [hk, List.take_append_of_le_length (Nat.min_le_right _ _), ← List.take_take,
      List.take_length]
  refine hfirst.bind ?_ fun e u _ b hb => by cases hb
  intro a t ht
  obtain ⟨hVt, hQ⟩ := ht a rfl
  refine Along.mono (hf a t hVt hQ) ?_ ?_
  · rintro u ⟨k, hk⟩
    refine ⟨cs.length + k, ?_⟩
    rw [hk, hVt, List.take_length_add_append, after_append]
  · intro r u _ hr b hb
    rw [after_append, ← hVt]
    exact hr b hb

/-- Nothing is changed after the first program. -/
theorem Performs.bind_nothing {R : β → Prop} {p : Prog Op Res ε α} {f : α → Prog Op Res ε β}
    (hp : Performs h act V cs Q p s)
    (hf : ∀ a t, V t = after act cs (V s) → Q a → Performs h act V [] R (f a) t) :
    Performs h act V cs R (p >>= f) s := by
  rw [← List.append_nil cs]
  exact hp.bind hf

theorem Performs.mapErr {g : ε → ε'} {p : Prog Op Res ε α} (hp : Performs h act V cs Q p s) :
    Performs h act V cs Q (p.mapErr g) s := by
  refine Along.mapErr (Along.mono hp (fun _ h => h) ?_)
  intro r u _ hr a ha
  cases r with
  | ok b => exact hr a (by simpa [Except.mapError] using ha)
  | error e => cases ha

/-- A program that changes nothing may fail as well. -/
theorem Performs.attempt {p : Prog Op Res ε α} (hp : Performs h act V [] Q p s) :
    Performs h act V [] (fun _ => True) (p.attempt : Prog Op Res ε' (Except ε α)) s := by
  refine Along.attempt (Along.mono hp (fun _ h => h) ?_)
  rintro r u ⟨k, hk⟩ - a -
  rw [List.take_nil] at hk
  exact ⟨hk, trivial⟩

/-- A loop makes the changes of its rounds one round after another. -/
theorem Performs.foldlM {f : β → α → Prog Op Res ε β} {xs : List α} {g : α → List κ}
    {R : α → Prop} {s : σ} {init : β}
    (hstep : ∀ done x rest b t, xs = done ++ x :: rest →
      V t = after act (done.flatMap g) (V s) → Performs h act V (g x) (fun _ => R x) (f b x) t) :
    Performs h act V (xs.flatMap g) (fun _ => ∀ x ∈ xs, R x) (xs.foldlM f init) s := by
  suffices hgen : ∀ rest done b t, xs = done ++ rest → V t = after act (done.flatMap g) (V s) →
      Performs h act V (rest.flatMap g) (fun _ => ∀ x ∈ rest, R x) (rest.foldlM f b) t from
    hgen xs [] init s rfl rfl
  intro rest
  induction rest with
  | nil => intro done b t _ _; exact .ret fun x hx => by cases hx
  | cons x rest ih =>
    intro done b t hxs ht
    rw [List.foldlM_cons, List.flatMap_cons]
    refine (hstep done x rest b t hxs ht).bind fun b' t' ht' hx => ?_
    have hdone : V t' = after act ((done ++ [x]).flatMap g) (V s) := by
      rw [ht', ht, List.flatMap_append, after_append]
      simp
    refine (ih (done ++ [x]) b' t' (by simp [hxs]) hdone).mono fun _ hrest y hy => ?_
    rcases List.mem_cons.mp hy with rfl | hy
    · exact hx
    · exact hrest y hy

/-- What follows a program that only looks starts in the same state. -/
theorem Performs.after_look {p : Prog Op Res ε α} {f : α → Prog Op Res ε β} {R : β → Prop}
    {q : Op → Prop} (hp : p.Uses q) (hq : ∀ o s, q o → (h o s).2 = s)
    (hf : ∀ a, (exec h p s).1 = .ok a → Performs h act V cs R (f a) s) :
    Performs h act V cs R (p >>= f) s := by
  induction p with
  | ret a => exact hf a rfl
  | throw e => exact .throw cs e
  | call o k ih =>
    have hstay := hq o s hp.1
    rw [exec_call, hstay] at hf
    refine Performs.call (by rw [hstay]) ?_
    rw [hstay]
    exact ih _ (hp.2 _) hf

/-- A program whose requests leave the view alone changes nothing. -/
theorem Performs.nothing {p : Prog Op Res ε α} {q : Op → Prop} (hp : p.Uses q)
    (hq : ∀ o s, q o → V (h o s).2 = V s) :
    Performs h act V [] (fun a => (exec h p s).1 = .ok a) p s := by
  refine along_iff.mpr ⟨fun n => ⟨0, hp.cut_eq V hq n s⟩, fun a ha => ⟨?_, ha⟩⟩
  exact hp.exec_eq V hq s

end Performs

end Prog

end Effects
