import CasKit.Lib.Pool

/-!
# Threads that share a lock

A program keeps to a lock when it takes it without having it, gives it back and does what needs it
while it has it, and ends with it or without it as it should. If the calls of all threads do, then
in every state that is reached the lock belongs to a thread in the middle of a call, and that
thread gives it back when it is let run.
-/
namespace Effects

/-- What the requests do with a lock. -/
structure Lock (Op : Type) where
  takes : Op → Bool
  gives : Op → Bool
  needs : Op → Bool

open Prog

namespace Lock
variable {Op : Type} {Res : Op → Type} {ε ε' α β : Type} (L : Lock Op)

/-- The request is in order for a thread with the lock, or without. -/
def Allows (held : Bool) (o : Op) : Prop :=
  (L.takes o = true → held = false) ∧ (L.gives o = true ∨ L.needs o = true → held = true)

def after (held : Bool) (o : Op) : Bool :=
  if L.takes o then true else if L.gives o then false else held

/-- The request has nothing to do with the lock. -/
def Ignores (o : Op) : Prop := L.takes o = false ∧ L.gives o = false ∧ L.needs o = false

/-- Whatever it is answered, the program keeps to the lock from `held` on. A success ends with the
lock if `ok` says so, an error if `err` does. -/
def Guards (ok err : Bool) : Prog Op Res ε α → Bool → Prop
  | .ret _, held => held = ok
  | .throw _, held => held = err
  | .call o k, held => L.Allows held o ∧ ∀ r, Guards ok err (k r) (L.after held o)

variable {L} {ok ok' err held : Bool}

theorem Ignores.allows {o : Op} (ho : L.Ignores o) : L.Allows held o := by
  simp [Allows, ho.1, ho.2.1, ho.2.2]

theorem Ignores.after {o : Op} (ho : L.Ignores o) : L.after held o = held := by
  simp [Lock.after, ho.1, ho.2.1]

theorem Guards.of_uses {p : Prog Op Res ε α} (hp : p.Uses L.Ignores) :
    L.Guards held held p held := by
  induction p with
  | ret a => rfl
  | throw e => rfl
  | call o k ih =>
    refine ⟨hp.1.allows, fun r => ?_⟩
    rw [hp.1.after]
    exact ih r (hp.2 r)

theorem Guards.bind {p : Prog Op Res ε α} {f : α → Prog Op Res ε β} (hp : L.Guards ok err p held)
    (hf : ∀ a, L.Guards ok' err (f a) ok) : L.Guards ok' err (p >>= f) held := by
  induction p generalizing held with
  | ret a =>
    obtain rfl : held = ok := hp
    exact hf a
  | throw e => exact hp
  | call o k ih => exact ⟨hp.1, fun r => ih r (hp.2 r)⟩

theorem Guards.mapErr {g : ε → ε'} {p : Prog Op Res ε α} (hp : L.Guards ok err p held) :
    L.Guards ok err (p.mapErr g) held := by
  induction p generalizing held with
  | ret a => exact hp
  | throw e => exact hp
  | call o k ih => exact ⟨hp.1, fun r => ih r (hp.2 r)⟩

/-- An error that is caught is a success. -/
theorem Guards.attempt {p : Prog Op Res ε α} (hp : L.Guards ok ok p held) :
    L.Guards ok err (p.attempt : Prog Op Res ε' (Except ε α)) held := by
  induction p generalizing held with
  | ret a => exact hp
  | throw e => exact hp
  | call o k ih => exact ⟨hp.1, fun r => ih r (hp.2 r)⟩

theorem Guards.of_ofExcept {x : Except ε α}
    (hx : L.Guards ok ok (Prog.ofExcept x : Prog Op Res ε α) held) : held = ok := by
  cases x <;> exact hx

theorem Guards.foldlM {f : β → α → Prog Op Res ε β} (xs : List α)
    (hf : ∀ b x, L.Guards held err (f b x) held) (b : β) :
    L.Guards held err (xs.foldlM f b) held := by
  induction xs generalizing b with
  | nil => rfl
  | cons x xs ih =>
    rw [List.foldlM_cons]
    exact (hf b x).bind ih

end Lock

namespace Pool
variable {ι κ Op : Type} {Res : Op → Type} {ε : Type} {β : κ → Type} {σ : Type}

section Discipline
variable (L : Lock Op) (holder : σ → Option ι)

/-- What the requests do to the lock is what they do to its holder, and only taking it waits. -/
structure Governs (M : Machine ι κ Op Res ε β σ) : Prop where
  waits : ∀ i o u, M.act i o u = none → L.takes o = true ∧ (holder u).isSome = true
  takes : ∀ i o u r u', M.act i o u = some (r, u') → L.takes o = true →
    holder u = none ∧ holder u' = some i
  gives : ∀ i o u r u', M.act i o u = some (r, u') → L.takes o = false → L.gives o = true →
    holder u' = none
  keeps : ∀ i o u r u', M.act i o u = some (r, u') → L.takes o = false → L.gives o = false →
    holder u' = holder u

variable [DecidableEq ι]

/-- Every thread is at a point of its call that goes with having the lock, or not having it. -/
structure Disciplined (P : Pool ι κ Op Res ε β σ) : Prop where
  quiet : ∀ i, P.running i = none → holder P.shared ≠ some i
  busy : ∀ i k p, P.running i = some ⟨k, p⟩ →
    L.Guards false false p (decide (holder P.shared = some i))

variable {L holder} {M : Machine ι κ Op Res ε β σ} {cond : ι → Pool ι κ Op Res ε β σ → Prop}
  {P P' : Pool ι κ Op Res ε β σ} {i j : ι} {k : κ} {o : Op} {f : Res o → Prog Op Res ε (β k)}
  {r : Res o} {u v : σ}

theorem disciplined_idle (hu : holder u = none) :
    Disciplined L holder (idle u : Pool ι κ Op Res ε β σ) where
  quiet i _ := by simp [idle, hu]
  busy i k p hrun := by simp [idle] at hrun

section Governs
variable (hgov : Governs L holder M) (hact : M.act i o u = some (r, v))
  (hallows : L.Allows (decide (holder u = some i)) o)
include hgov hact

theorem Governs.own : decide (holder v = some i) = L.after (decide (holder u = some i)) o := by
  cases htakes : L.takes o with
  | true => simp [Lock.after, htakes, (hgov.takes i o u r v hact htakes).2]
  | false =>
    cases hgives : L.gives o with
    | true => simp [Lock.after, htakes, hgives, hgov.gives i o u r v hact htakes hgives]
    | false => simp [Lock.after, htakes, hgives, hgov.keeps i o u r v hact htakes hgives]

include hallows in
theorem Governs.others (hij : j ≠ i) : holder v = some j ↔ holder u = some j := by
  cases htakes : L.takes o with
  | true =>
    obtain ⟨hu, hv⟩ := hgov.takes i o u r v hact htakes
    simp [hu, hv, hij.symm]
  | false =>
    cases hgives : L.gives o with
    | true =>
      have hu : holder u = some i := by simpa using hallows.2 (.inl hgives)
      simp [hu, hgov.gives i o u r v hact htakes hgives, hij.symm]
    | false => rw [hgov.keeps i o u r v hact htakes hgives]

end Governs

/-- One thread is somewhere else, and whether the others have the lock is as before. -/
theorem Disciplined.set (hP : Disciplined L holder P)
    {x : Option ((k : κ) × Prog Op Res ε (β k))}
    (hothers : ∀ j, j ≠ i → (holder u = some j ↔ holder P.shared = some j))
    (hquiet : x = none → holder u ≠ some i)
    (hbusy : ∀ k p, x = some ⟨k, p⟩ → L.Guards false false p (decide (holder u = some i))) :
    Disciplined L holder (P.set i x u) := by
  refine ⟨fun j hj => ?_, fun j k p hj => ?_⟩
  · by_cases hij : j = i
    · subst hij
      exact hquiet (by simpa [Pool.set] using hj)
    · have hold := hP.quiet j (by simpa [Pool.set, hij] using hj)
      exact mt (hothers j hij).mp hold
  · by_cases hij : j = i
    · subst hij
      exact hbusy k p (by simpa [Pool.set] using hj)
    · have hold := hP.busy j k p (by simpa [Pool.set, hij] using hj)
      simpa [Pool.set, hothers j hij] using hold

theorem Disciplined.ask (hgov : Governs L holder M) (hP : Disciplined L holder P)
    (hrun : P.running i = some ⟨k, .call o f⟩) (hact : M.act i o P.shared = some (r, v)) :
    Disciplined L holder (P.set i (some ⟨k, f r⟩) v) := by
  obtain ⟨hallows, hrest⟩ := hP.busy i k _ hrun
  apply hP.set (fun j hij => hgov.others hact hallows hij) (by simp)
  intro k' p hp
  obtain rfl : k = k' := congrArg Sigma.fst (Option.some.inj hp)
  obtain rfl : f r = p := by simpa using hp
  rw [hgov.own hact]
  exact hrest r

theorem Disciplined.step (hgov : Governs L holder M)
    (hcode : ∀ i k, M.starts i k → L.Guards false false (M.code k) false)
    (hP : Disciplined L holder P) (hstep : Step M cond P P') : Disciplined L holder P' := by
  cases hstep with
  | @start i k hidle hk =>
    apply hP.set (fun _ _ => .rfl) (by simp)
    intro k' p hp
    obtain rfl : k = k' := congrArg Sigma.fst (Option.some.inj hp)
    obtain rfl : M.code k = p := by simpa using hp
    simpa [hP.quiet i hidle] using hcode i k hk
  | @ask i k o f r v hrun hact hcond => exact hP.ask hgov hrun hact
  | @stop i k x hrun =>
    have hfree : holder P.shared ≠ some i := by simpa using (hP.busy i k _ hrun).of_ofExcept
    have hset : Disciplined L holder (P.set i none P.shared) :=
      hP.set (fun _ _ => .rfl) (fun _ => hfree) (by simp)
    exact ⟨hset.quiet, hset.busy⟩

/-- If all calls keep to the lock, so does every interleaving of them. -/
theorem Disciplined.runs (hgov : Governs L holder M)
    (hcode : ∀ i k, M.starts i k → L.Guards false false (M.code k) false)
    (hP : Disciplined L holder P) (hruns : Runs M cond P P') : Disciplined L holder P' := by
  induction hruns with
  | refl => exact hP
  | tail _ hstep ih => exact ih.step hgov hcode hstep

/-- Only the thread that has the lock does what needs it. -/
theorem Disciplined.exclusive (hP : Disciplined L holder P)
    (hrun : P.running i = some ⟨k, .call o f⟩) (ho : L.gives o = true ∨ L.needs o = true) :
    holder P.shared = some i := by
  simpa using (hP.busy i k _ hrun).1.2 ho

/-- The thread that has the lock can make its next request. -/
theorem Disciplined.can_ask (hgov : Governs L holder M) (hP : Disciplined L holder P)
    (hi : holder P.shared = some i) (hrun : P.running i = some ⟨k, .call o f⟩) :
    (M.act i o P.shared).isSome = true := by
  cases hact : M.act i o P.shared with
  | some x => rfl
  | none =>
    have hfree := (hP.busy i k _ hrun).1.1 (hgov.waits i o _ hact).1
    simp [hi] at hfree

/-- The thread that has the lock is in the middle of a call. -/
theorem Disciplined.goes_on (hP : Disciplined L holder P) (hi : holder P.shared = some i) :
    ∃ k o f, P.running i = some ⟨k, .call o f⟩ := by
  cases hrun : P.running i with
  | none => exact absurd hi (hP.quiet i hrun)
  | some call =>
    obtain ⟨k, p⟩ := call
    have hguards := hP.busy i k p hrun
    simp only [hi, decide_true] at hguards
    cases p with
    | ret a => cases hguards
    | throw e => cases hguards
    | call o f => exact ⟨k, o, f, rfl⟩

/-- A thread that cannot go on waits for another one that has the lock. -/
theorem Disciplined.waits (hgov : Governs L holder M) (hP : Disciplined L holder P)
    (hrun : P.running i = some ⟨k, .call o f⟩) (hact : M.act i o P.shared = none) :
    ∃ j, j ≠ i ∧ holder P.shared = some j := by
  obtain ⟨htakes, hheld⟩ := hgov.waits i o _ hact
  obtain ⟨j, hj⟩ := Option.isSome_iff_exists.mp hheld
  have hfree : holder P.shared ≠ some i := by simpa using (hP.busy i k _ hrun).1.1 htakes
  exact ⟨j, fun hji => hfree (hji ▸ hj), hj⟩

/-- The thread that has the lock gives it back if it is let run. -/
theorem Disciplined.released (hgov : Governs L holder M) (hP : Disciplined L holder P)
    (hi : holder P.shared = some i) :
    ∃ P', Runs M anyStep P P' ∧ holder P'.shared = none ∧
      ∀ j, j ≠ i → P'.running j = P.running j := by
  obtain ⟨k, o, f, hrun⟩ := hP.goes_on hi
  -- by induction on what is left of its call
  generalize Prog.call o f = p at hrun
  induction p generalizing P with
  | ret a => simpa [hi, Lock.Guards] using hP.busy i k _ hrun
  | throw e => simpa [hi, Lock.Guards] using hP.busy i k _ hrun
  | call o f ih =>
    obtain ⟨⟨r, v⟩, hact⟩ := Option.isSome_iff_exists.mp (hP.can_ask hgov hi hrun)
    have hstep : Step M anyStep P (P.set i (some ⟨k, f r⟩) v) := .ask hrun hact trivial
    have hsame : ∀ j, j ≠ i → (P.set i (some ⟨k, f r⟩) v).running j = P.running j := by
      intro j hij
      simp [Pool.set, hij]
    cases htakes : L.takes o with
    | true => simpa [hi] using (hgov.takes i o _ r v hact htakes).1
    | false =>
      cases hgives : L.gives o with
      | true => exact ⟨_, .single hstep, hgov.gives i o _ r v hact htakes hgives, hsame⟩
      | false =>
        have hv : holder v = some i := (hgov.keeps i o _ r v hact htakes hgives).trans hi
        obtain ⟨P', hruns, hfree, hothers⟩ :=
          ih r (hP.ask hgov hrun hact) hv (by simp [Pool.set])
        exact ⟨P', .head hstep hruns, hfree, fun j hij => (hothers j hij).trans (hsame j hij)⟩

end Discipline

end Pool

end Effects
