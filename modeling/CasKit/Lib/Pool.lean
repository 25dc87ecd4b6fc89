import CasKit.Lib.Prog

/-!
# Threads that share a state

Any number of threads make calls, and each request of a call is one step. `Safe` is a proof
outline of one call among the others: before each request it names an assertion that the
steps of the other threads keep, and the call's own step leads to the next one. What the
others may do is told per request, since a thread that is about to read a file cares about
other things than one that is about to take a lock.
-/
namespace Effects

/-- What a thread owes to the others in a call and what it can count on: `may o` holds when it
asks `o`, `guar o` relates the states around its own request, `rely o` those around a request of
another thread while it is about to ask `o`, and `ready o` holds all that time. -/
structure Terms (Op σ : Type) where
  may : Op → σ → Prop
  guar : Op → σ → σ → Prop
  rely : Op → σ → σ → Prop
  ready : Op → σ → Prop

/-- Nothing is owed and nothing is counted on. -/
def Terms.none {Op σ : Type} : Terms Op σ :=
  ⟨fun _ _ => True, fun _ _ _ => True, fun _ _ _ => True, fun _ _ => True⟩

namespace Prog

variable {Op : Type} {Res : Op → Type} {ε ε' α β γ σ τ : Type}

/-- What an answer that may have to wait does: nothing while it waits. -/
abbrev Act (Op : Type) (Res : Op → Type) (σ : Type) := (o : Op) → σ → Option (Res o × σ)

/-- A success satisfies `good`, an error `bad`. -/
def Ends (good : α → σ → Prop) (bad : ε → σ → Prop) : Except ε α → σ → Prop
  | .ok a, s => good a s
  | .error e, s => bad e s

/-- Whatever the other threads do, the program keeps its terms from `s` on and ends with an
outcome and a state in `Q`. -/
def Safe (act : Act Op Res σ) (inv : σ → Prop) (T : Terms Op σ) (Q : Except ε α → σ → Prop) :
    Prog Op Res ε α → σ → Prop
  | ret a, s => Q (.ok a) s
  | throw e, s => Q (.error e) s
  | call o k, s => ∃ P : σ → Prop, P s ∧ (∀ u, P u → inv u → T.ready o u) ∧
      (∀ u u', P u → inv u → inv u' → T.rely o u u' → P u') ∧
      ∀ u r u', P u → inv u → T.may o u → act o u = some (r, u') →
        inv u' ∧ T.guar o u u' ∧ Safe act inv T Q (k r) u'

section Safe
variable {act : Act Op Res σ} {inv : σ → Prop} {T : Terms Op σ}

theorem Safe.ofExcept {Q : Except ε α → σ → Prop} {x : Except ε α} {s : σ} (hx : Q x s) :
    Safe act inv T Q (ofExcept x) s := by
  cases x <;> exact hx

theorem Safe.of_ofExcept {Q : Except ε α → σ → Prop} {x : Except ε α} {s : σ}
    (hx : Safe act inv T Q (Prog.ofExcept x) s) : Q x s := by
  cases x <;> exact hx

theorem Safe.mono {Q Q' : Except ε α → σ → Prop} {p : Prog Op Res ε α} {s : σ}
    (hp : Safe act inv T Q p s) (hs : inv s) (hQ : ∀ r u, inv u → Q r u → Q' r u) :
    Safe act inv T Q' p s := by
  induction p generalizing s with
  | ret a => exact hQ _ _ hs hp
  | throw e => exact hQ _ _ hs hp
  | call o k ih =>
    obtain ⟨P, hP, hready, hrely, hstep⟩ := hp
    refine ⟨P, hP, hready, hrely, fun u r u' hu hinv hmay hact => ?_⟩
    obtain ⟨hinv', hguar, hrest⟩ := hstep u r u' hu hinv hmay hact
    exact ⟨hinv', hguar, ih r hrest hinv'⟩

theorem Safe.bind {Q : Except ε α → σ → Prop} {R : Except ε β → σ → Prop}
    {p : Prog Op Res ε α} {f : α → Prog Op Res ε β} {s : σ} (hp : Safe act inv T Q p s)
    (hs : inv s) (hok : ∀ a u, inv u → Q (.ok a) u → Safe act inv T R (f a) u)
    (herr : ∀ e u, inv u → Q (.error e) u → R (.error e) u) :
    Safe act inv T R (p >>= f) s := by
  induction p generalizing s with
  | ret a => exact hok a s hs hp
  | throw e => exact herr e s hs hp
  | call o k ih =>
    obtain ⟨P, hP, hready, hrely, hstep⟩ := hp
    refine ⟨P, hP, hready, hrely, fun u r u' hu hinv hmay hact => ?_⟩
    obtain ⟨hinv', hguar, hrest⟩ := hstep u r u' hu hinv hmay hact
    exact ⟨hinv', hguar, ih r hrest hinv'⟩

theorem Safe.mapErr {Q : Except ε' α → σ → Prop} {g : ε → ε'} {p : Prog Op Res ε α} {s : σ}
    (hp : Safe act inv T (fun r => Q (r.mapError g)) p s) : Safe act inv T Q (p.mapErr g) s := by
  induction p generalizing s with
  | ret a => exact hp
  | throw e => exact hp
  | call o k ih =>
    obtain ⟨P, hP, hready, hrely, hstep⟩ := hp
    refine ⟨P, hP, hready, hrely, fun u r u' hu hinv hmay hact => ?_⟩
    obtain ⟨hinv', hguar, hrest⟩ := hstep u r u' hu hinv hmay hact
    exact ⟨hinv', hguar, ih r hrest⟩

theorem Safe.attempt {Q : Except ε' (Except ε α) → σ → Prop} {p : Prog Op Res ε α} {s : σ}
    (hp : Safe act inv T (fun r => Q (.ok r)) p s) : Safe act inv T Q p.attempt s := by
  induction p generalizing s with
  | ret a => exact hp
  | throw e => exact hp
  | call o k ih =>
    obtain ⟨P, hP, hready, hrely, hstep⟩ := hp
    refine ⟨P, hP, hready, hrely, fun u r u' hu hinv hmay hact => ?_⟩
    obtain ⟨hinv', hguar, hrest⟩ := hstep u r u' hu hinv hmay hact
    exact ⟨hinv', hguar, ih r hrest⟩

/-- Loop rule. `L done b` is the loop invariant after the elements `done`. -/
theorem Safe.foldlM {E : ε → σ → Prop} {f : β → α → Prog Op Res ε β} {xs : List α}
    (L : List α → β → σ → Prop) {b : β} {s : σ} (hs : inv s) (h0 : L [] b s)
    (hstep : ∀ done x rest b u, xs = done ++ x :: rest → inv u → L done b u →
      Safe act inv T (Ends (L (done ++ [x])) E) (f b x) u) :
    Safe act inv T (Ends (L xs) E) (xs.foldlM f b) s := by
  suffices hgen : ∀ rest done b u, xs = done ++ rest → inv u → L done b u →
      Safe act inv T (Ends (L xs) E) (rest.foldlM f b) u from
    hgen xs [] b s rfl hs h0
  intro rest
  induction rest with
  | nil =>
    intro done b u hxs hu hL
    rw [List.append_nil] at hxs
    show L xs b u
    rw [hxs]
    exact hL
  | cons x rest ih =>
    intro done b u hxs hu hL
    rw [List.foldlM_cons]
    refine (hstep done x rest b u hxs hu hL).bind hu ?_ fun e u' hu' he => he
    intro b' u' hu' hL'
    exact ih (done ++ [x]) b' u' (by simp [hxs]) hu' hL'

/-- An outline survives the steps of the others. -/
theorem Safe.rely {Q : Except ε α → σ → Prop} {o : Op} {k : Res o → Prog Op Res ε α} {s s' : σ}
    (hp : Safe act inv T Q (call o k) s) (hs : inv s) (hs' : inv s') (hrely : T.rely o s s') :
    Safe act inv T Q (call o k) s' := by
  obtain ⟨P, hP, hready, hstable, hstep⟩ := hp
  exact ⟨P, hstable s s' hP hs hs' hrely, hready, hstable, hstep⟩

theorem Safe.ready {Q : Except ε α → σ → Prop} {o : Op} {k : Res o → Prog Op Res ε α} {s : σ}
    (hp : Safe act inv T Q (call o k) s) (hs : inv s) : T.ready o s := by
  obtain ⟨P, hP, hready, -⟩ := hp
  exact hready s hP hs

/-- What neither the others nor this thread undo holds to the end. -/
theorem Safe.frame {F : σ → Prop} {Q : Except ε α → σ → Prop} {p : Prog Op Res ε α} {s : σ}
    (hrely : ∀ o u u', F u → inv u → inv u' → T.rely o u u' → F u')
    (hguar : ∀ o u u', F u → inv u → inv u' → T.guar o u u' → F u')
    (hp : Safe act inv T Q p s) (hs : F s) : Safe act inv T (fun r u => Q r u ∧ F u) p s := by
  induction p generalizing s with
  | ret a => exact ⟨hp, hs⟩
  | throw e => exact ⟨hp, hs⟩
  | call o k ih =>
    obtain ⟨P, hP, hready, hstable, hstep⟩ := hp
    refine ⟨fun u => P u ∧ F u, ⟨hP, hs⟩, fun u hu => hready u hu.1, ?_, ?_⟩
    · intro u u' hu hinv hinv' hothers
      exact ⟨hstable u u' hu.1 hinv hinv' hothers, hrely o u u' hu.2 hinv hinv' hothers⟩
    · intro u r u' hu hinv hmay hact
      obtain ⟨hinv', hown, hrest⟩ := hstep u r u' hu.1 hinv hmay hact
      exact ⟨hinv', hown, ih r hrest (hguar o u u' hu.2 hinv hinv' hown)⟩

/-- A program all of whose requests keep one assertion needs no other. -/
theorem Safe.of_uses {q : Op → Prop} {P : σ → Prop} {p : Prog Op Res ε α} (hp : p.Uses q)
    (hready : ∀ o u, q o → P u → inv u → T.ready o u)
    (hrely : ∀ o u u', q o → P u → inv u → inv u' → T.rely o u u' → P u')
    (hstep : ∀ o u r u', q o → P u → inv u → T.may o u → act o u = some (r, u') →
      inv u' ∧ T.guar o u u' ∧ P u') {s : σ} (hs : P s) :
    Safe act inv T (fun _ u => P u) p s := by
  induction p generalizing s with
  | ret a => exact hs
  | throw e => exact hs
  | call o k ih =>
    refine ⟨P, hs, fun u => hready o u hp.1, fun u u' => hrely o u u' hp.1, ?_⟩
    intro u r u' hu hinv hmay hact
    obtain ⟨hinv', hguar, hu'⟩ := hstep o u r u' hp.1 hu hinv hmay hact
    exact ⟨hinv', hguar, ih r (hp.2 r) hu'⟩

/-- What all leaves of a program satisfy, they satisfy among other threads. -/
theorem Safe.yields {R : α → Prop} {Q : Except ε α → σ → Prop} {p : Prog Op Res ε α} {s : σ}
    (hp : Safe act inv T Q p s) (hR : p.Yields R) :
    Safe act inv T (fun r u => Q r u ∧ ∀ a, r = .ok a → R a) p s := by
  induction p generalizing s with
  | ret a => exact ⟨hp, fun b hb => Except.ok.inj hb ▸ hR⟩
  | throw e => exact ⟨hp, fun b hb => by cases hb⟩
  | call o k ih =>
    obtain ⟨P, hP, hready, hrely, hstep⟩ := hp
    refine ⟨P, hP, hready, hrely, fun u r u' hu hinv hmay hact => ?_⟩
    obtain ⟨hinv', hguar, hrest⟩ := hstep u r u' hu hinv hmay hact
    exact ⟨hinv', hguar, ih r hrest (hR r)⟩

/-- A program whose part of the state nobody else changes runs as it does alone: `Sim w s` says
that the shared state `s` agrees with the state `w` of the lonely run. -/
theorem Safe.alone {h : Handler Op Res τ} {Sim : τ → σ → Prop} {q : Op → Prop}
    {p : Prog Op Res ε α} (hp : p.Uses q)
    (hready : ∀ o w u, q o → Sim w u → inv u → T.ready o u)
    (hrely : ∀ o w u u', q o → Sim w u → inv u → inv u' → T.rely o u u' → Sim w u')
    (hact : ∀ o w u r u', q o → Sim w u → act o u = some (r, u') →
      r = (h o w).1 ∧ Sim (h o w).2 u') {w : τ} {s : σ}
    (hstep : ∀ n o, pending h n p w = some o → ∀ u r u', Sim (cut h n p w) u → inv u →
      T.may o u → act o u = some (r, u') → Sim (cut h (n + 1) p w) u' → inv u' ∧ T.guar o u u')
    (hs : Sim w s) :
    Safe act inv T (fun r u => r = (exec h p w).1 ∧ Sim (exec h p w).2 u) p s := by
  induction p generalizing w s with
  | ret a => exact ⟨rfl, hs⟩
  | throw e => exact ⟨rfl, hs⟩
  | call o k ih =>
    refine ⟨Sim w, hs, fun u => hready o w u hp.1, fun u u' => hrely o w u u' hp.1, ?_⟩
    intro u r u' hu hinv hmay hans
    obtain ⟨rfl, hu'⟩ := hact o w u r u' hp.1 hu hans
    have hown := hstep 0 o rfl u _ u' (by simpa using hu) hinv hmay hans (by simpa using hu')
    refine ⟨hown.1, hown.2, ih _ (hp.2 _) (fun n o' hpend => ?_) hu'⟩
    exact hstep (n + 1) o' hpend

end Safe

end Prog

open Prog

variable {ι κ Op : Type} {Res : Op → Type} {ε : Type} {β : κ → Type} {σ : Type}

/-- Calls of the kinds `κ`, each with a result type of its own, and the threads `ι` that may
make them on a shared state. -/
structure Machine (ι κ Op : Type) (Res : Op → Type) (ε : Type) (β : κ → Type) (σ : Type) where
  code : (k : κ) → Prog Op Res ε (β k)
  starts : ι → κ → Prop
  act : ι → Act Op Res σ

/-- What each thread is doing, the outcomes of its past calls in order, and the shared state. -/
structure Pool (ι κ Op : Type) (Res : Op → Type) (ε : Type) (β : κ → Type) (σ : Type) where
  running : ι → Option ((k : κ) × Prog Op Res ε (β k))
  log : ι → List ((k : κ) × Except ε (β k))
  shared : σ

namespace Pool

/-- Nobody has called anything. -/
def idle (s : σ) : Pool ι κ Op Res ε β σ := ⟨fun _ => none, fun _ => [], s⟩

section Outline
variable (M : Machine ι κ Op Res ε β σ) (cond : ι → Pool ι κ Op Res ε β σ → Prop) (inv : σ → Prop)
  (T : ι → κ → Terms Op σ) (rest : ι → σ → σ → Prop)
  (know : ι → List ((k : κ) × Except ε (β k)) → σ → Prop)

/-- The calls keep their terms one by one, and the terms of different threads fit together.
`know i` is what thread `i` knows between two calls, from the outcomes it has seen. -/
structure Outline : Prop where
  call : ∀ i k l s, M.starts i k → inv s → know i l s →
    Safe (M.act i) inv (T i k) (fun r u => know i (l ++ [⟨k, r⟩]) u) (M.code k) s
  stable : ∀ i l s s', know i l s → inv s → inv s' → rest i s s' → know i l s'
  may : ∀ P i k o f, P.running i = some ⟨k, .call o f⟩ → inv P.shared → cond i P →
    (T i k).may o P.shared
  rely : ∀ P i k o f s, P.running i = some ⟨k, .call o f⟩ → inv P.shared → cond i P → inv s →
    (T i k).guar o P.shared s → ∀ j, j ≠ i → rest j P.shared s ∧
      ∀ k' o' f', P.running j = some ⟨k', .call o' f'⟩ → (T j k').rely o' P.shared s

/-- Each thread is somewhere in its outline. -/
structure Kept (P : Pool ι κ Op Res ε β σ) : Prop where
  shared : inv P.shared
  past : ∀ i, ∃ s, know i (P.log i) s
  quiet : ∀ i, P.running i = none → know i (P.log i) P.shared
  busy : ∀ i k p, P.running i = some ⟨k, p⟩ →
    Safe (M.act i) inv (T i k) (fun r u => know i (P.log i ++ [⟨k, r⟩]) u) p P.shared

variable {M cond inv T rest know} {P : Pool ι κ Op Res ε β σ}

theorem kept_idle {s : σ} (hs : inv s) (hknow : ∀ i, know i [] s) :
    Kept M inv T know (idle s : Pool ι κ Op Res ε β σ) where
  shared := hs
  past i := ⟨s, hknow i⟩
  quiet i _ := hknow i
  busy _ _ _ hrun := by cases hrun

/-- What a thread that did not move is doing still fits its outline. -/
theorem Outline.others (hout : Outline M cond inv T rest know) (hP : Kept M inv T know P) {i j : ι}
    (hij : j ≠ i) {k : κ} {o : Op} {f : Res o → Prog Op Res ε (β k)} {s : σ}
    (hrun : P.running i = some ⟨k, .call o f⟩) (hcond : cond i P) (hs : inv s)
    (hguar : (T i k).guar o P.shared s) :
    (P.running j = none → know j (P.log j) s) ∧ ∀ k' p, P.running j = some ⟨k', p⟩ →
      Safe (M.act j) inv (T j k') (fun r u => know j (P.log j ++ [⟨k', r⟩]) u) p s := by
  obtain ⟨hrest, hrely⟩ := hout.rely P i k o f s hrun hP.shared hcond hs hguar j hij
  constructor
  · intro hidle
    exact hout.stable j _ _ _ (hP.quiet j hidle) hP.shared hs hrest
  · intro k' p hj
    have hsafe := hP.busy j k' p hj
    cases p with
    | ret a => exact hout.stable j _ _ _ hsafe hP.shared hs hrest
    | throw e => exact hout.stable j _ _ _ hsafe hP.shared hs hrest
    | call o' f' => exact hsafe.rely hP.shared hs (hrely k' o' f' hj)

end Outline

variable [DecidableEq ι]

def set (P : Pool ι κ Op Res ε β σ) (i : ι) (r : Option ((k : κ) × Prog Op Res ε (β k))) (s : σ) :
    Pool ι κ Op Res ε β σ :=
  { P with running := Function.update P.running i r, shared := s }

def record (P : Pool ι κ Op Res ε β σ) (i : ι) (e : (k : κ) × Except ε (β k)) :
    Pool ι κ Op Res ε β σ :=
  { P with log := Function.update P.log i (P.log i ++ [e]) }

/-- One thread moves: it starts a call, makes its next request under the condition `cond`, or
returns. -/
inductive Step (M : Machine ι κ Op Res ε β σ) (cond : ι → Pool ι κ Op Res ε β σ → Prop) :
    Pool ι κ Op Res ε β σ → Pool ι κ Op Res ε β σ → Prop
  | start {P : Pool ι κ Op Res ε β σ} {i : ι} {k : κ} (hidle : P.running i = none)
      (hk : M.starts i k) : Step M cond P (P.set i (some ⟨k, M.code k⟩) P.shared)
  | ask {P : Pool ι κ Op Res ε β σ} {i : ι} {k : κ} {o : Op} {f : Res o → Prog Op Res ε (β k)}
      {r : Res o} {s : σ} (hrun : P.running i = some ⟨k, .call o f⟩)
      (hact : M.act i o P.shared = some (r, s)) (hcond : cond i P) :
      Step M cond P (P.set i (some ⟨k, f r⟩) s)
  | stop {P : Pool ι κ Op Res ε β σ} {i : ι} {k : κ} {x : Except ε (β k)}
      (hrun : P.running i = some ⟨k, .ofExcept x⟩) :
      Step M cond P ((P.set i none P.shared).record i ⟨k, x⟩)

/-- Any number of steps, in any order. -/
abbrev Runs (M : Machine ι κ Op Res ε β σ) (cond : ι → Pool ι κ Op Res ε β σ → Prop) :
    Pool ι κ Op Res ε β σ → Pool ι κ Op Res ε β σ → Prop :=
  Relation.ReflTransGen (Step M cond)

/-- Any step is allowed. -/
abbrev anyStep : ι → Pool ι κ Op Res ε β σ → Prop := fun _ _ => True

section Outline
variable {M : Machine ι κ Op Res ε β σ} {cond : ι → Pool ι κ Op Res ε β σ → Prop} {inv : σ → Prop}
  {T : ι → κ → Terms Op σ} {rest : ι → σ → σ → Prop}
  {know : ι → List ((k : κ) × Except ε (β k)) → σ → Prop} {P P' : Pool ι κ Op Res ε β σ}

/-- A thread that starts a program with an outline. -/
theorem Kept.start (hP : Kept M inv T know P) {i : ι} {k : κ} {p : Prog Op Res ε (β k)}
    (hp : Safe (M.act i) inv (T i k) (fun r u => know i (P.log i ++ [⟨k, r⟩]) u) p P.shared) :
    Kept M inv T know (P.set i (some ⟨k, p⟩) P.shared) := by
  refine ⟨hP.shared, hP.past, fun j hj => ?_, fun j k' p' hj => ?_⟩
  · by_cases hij : j = i
    · subst hij
      simp [set] at hj
    · exact hP.quiet j (by simpa [set, hij] using hj)
  · by_cases hij : j = i
    · subst hij
      obtain rfl : k = k' := by simpa [set] using congrArg (Option.map Sigma.fst) hj
      obtain rfl : p = p' := by simpa [set] using hj
      exact hp
    · exact hP.busy j k' p' (by simpa [set, hij] using hj)

theorem Outline.step (hout : Outline M cond inv T rest know) (hP : Kept M inv T know P)
    (hstep : Step M cond P P') : Kept M inv T know P' := by
  cases hstep with
  | @start i k hidle hk => exact hP.start (hout.call i k _ _ hk hP.shared (hP.quiet i hidle))
  | @ask i k o f r s hrun hact hcond =>
    obtain ⟨A, hA, hready, hrely, hown⟩ := hP.busy i k _ hrun
    have hmay := hout.may P i k o f hrun hP.shared hcond
    obtain ⟨hs, hguar, hnext⟩ := hown _ r s hA hP.shared hmay hact
    have hothers : ∀ j, j ≠ i → _ := fun j hij => hout.others hP hij hrun hcond hs hguar
    refine ⟨hs, hP.past, fun j hj => ?_, fun j k' p hj => ?_⟩
    · by_cases hij : j = i
      · subst hij
        simp [set] at hj
      · exact (hothers j hij).1 (by simpa [set, hij] using hj)
    · by_cases hij : j = i
      · subst hij
        obtain rfl : k = k' := by simpa [set] using congrArg (Option.map Sigma.fst) hj
        obtain rfl : f r = p := by simpa [set] using hj
        exact hnext
      · exact (hothers j hij).2 k' p (by simpa [set, hij] using hj)
  | @stop i k x hrun =>
    have hlast : know i (P.log i ++ [⟨k, x⟩]) P.shared := (hP.busy i k _ hrun).of_ofExcept
    refine ⟨hP.shared, fun j => ?_, fun j hj => ?_, fun j k' p hj => ?_⟩
    · by_cases hij : j = i
      · subst hij
        exact ⟨P.shared, by simpa [record, set] using hlast⟩
      · simpa [record, set, hij] using hP.past j
    · by_cases hij : j = i
      · subst hij
        simpa [record, set] using hlast
      · simpa [record, set, hij] using hP.quiet j (by simpa [record, set, hij] using hj)
    · by_cases hij : j = i
      · subst hij
        simp [record, set] at hj
      · simpa [record, set, hij] using hP.busy j k' p (by simpa [record, set, hij] using hj)

/-- In every run whose steps meet the condition, the outlines hold in every state reached. -/
theorem Outline.runs (hout : Outline M cond inv T rest know) (hP : Kept M inv T know P)
    (hruns : Runs M cond P P') : Kept M inv T know P' := by
  induction hruns with
  | refl => exact hP
  | tail _ hstep ih => exact hout.step ih hstep

/-- Calls that keep an invariant whatever the others do keep it in every interleaving, and their
outcomes are as good as they are one by one. -/
theorem outcomes_of_runs {good : (k : κ) × Except ε (β k) → Prop} {s : σ}
    (hcode : ∀ i k u, M.starts i k → inv u →
      Safe (M.act i) inv Terms.none (fun r _ => good ⟨k, r⟩) (M.code k) u)
    (hs : inv s) (hruns : Runs M cond (idle s) P) :
    inv P.shared ∧ ∀ i, ∀ e ∈ P.log i, good e := by
  have hout : Outline M cond inv (fun _ _ => Terms.none) (fun _ _ _ => True)
      fun _ l _ => ∀ e ∈ l, good e :=
    { call := fun i k l u hk hu hl => (hcode i k u hk hu).mono hu fun r u' _ hr e he => by
        rcases List.mem_append.mp he with he | he
        · exact hl e he
        · rw [List.mem_singleton.mp he]
          exact hr
      stable := fun _ _ _ _ hl _ _ _ => hl
      may := fun _ _ _ _ _ _ _ _ => trivial
      rely := fun _ _ _ _ _ _ _ _ _ _ _ _ _ => ⟨trivial, fun _ _ _ _ => trivial⟩ }
  have hkept := hout.runs (kept_idle hs fun _ e he => by cases he) hruns
  refine ⟨hkept.shared, fun i e he => ?_⟩
  obtain ⟨u, hu⟩ := hkept.past i
  exact hu e he

end Outline

/-! ## Runs that are given move by move -/

inductive Move (ι κ : Type) where
  | start (i : ι) (k : κ)
  | ask (i : ι)
  | stop (i : ι)

/-- The pool after one move, if the thread can make it. -/
def move (M : Machine ι κ Op Res ε β σ) (P : Pool ι κ Op Res ε β σ) :
    Move ι κ → Option (Pool ι κ Op Res ε β σ)
  | .start i k =>
    match P.running i with
    | none => some (P.set i (some ⟨k, M.code k⟩) P.shared)
    | some _ => none
  | .ask i =>
    match P.running i with
    | some ⟨k, .call o f⟩ =>
      match M.act i o P.shared with
      | some (r, s) => some (P.set i (some ⟨k, f r⟩) s)
      | none => none
    | _ => none
  | .stop i =>
    match P.running i with
    | some ⟨k, .ret a⟩ => some ((P.set i none P.shared).record i ⟨k, .ok a⟩)
    | some ⟨k, .throw e⟩ => some ((P.set i none P.shared).record i ⟨k, .error e⟩)
    | _ => none

theorem step_of_move {M : Machine ι κ Op Res ε β σ}
    {cond : ι → Pool ι κ Op Res ε β σ → Prop} {P P' : Pool ι κ Op Res ε β σ} {m : Move ι κ}
    (hstarts : ∀ i k, m = .start i k → M.starts i k) (hcond : ∀ i, m = .ask i → cond i P)
    (hm : P.move M m = some P') : Step M cond P P' := by
  cases m with
  | start i k =>
    cases hrun : P.running i with
    | none =>
      simp only [move, hrun, Option.some.injEq] at hm
      subst hm
      exact .start hrun (hstarts i k rfl)
    | some c => simp [move, hrun] at hm
  | ask i =>
    match hrun : P.running i with
    | none => simp [move, hrun] at hm
    | some ⟨k, .ret a⟩ => simp [move, hrun] at hm
    | some ⟨k, .throw e⟩ => simp [move, hrun] at hm
    | some ⟨k, .call o f⟩ =>
      cases hact : M.act i o P.shared with
      | none => simp [move, hrun, hact] at hm
      | some x =>
        simp only [move, hrun, hact, Option.some.injEq] at hm
        subst hm
        exact .ask hrun hact (hcond i rfl)
  | stop i =>
    match hrun : P.running i with
    | none => simp [move, hrun] at hm
    | some ⟨k, .call o f⟩ => simp [move, hrun] at hm
    | some ⟨k, .ret a⟩ =>
      simp only [move, hrun, Option.some.injEq] at hm
      subst hm
      exact .stop (x := .ok a) hrun
    | some ⟨k, .throw e⟩ =>
      simp only [move, hrun, Option.some.injEq] at hm
      subst hm
      exact .stop (x := .error e) hrun

/-- The thread that makes the move. -/
def Move.thread : Move ι κ → ι
  | .start i _ => i
  | .ask i => i
  | .stop i => i

theorem running_of_move {M : Machine ι κ Op Res ε β σ} {P P' : Pool ι κ Op Res ε β σ}
    {m : Move ι κ} {j : ι} (hj : m.thread ≠ j) (hm : P.move M m = some P') :
    P'.running j = P.running j := by
  have hset : ∀ (i : ι) r s, i ≠ j → (P.set i r s).running j = P.running j := by
    intro i r s hij
    simp [set, Ne.symm hij]
  cases m with
  | start i k =>
    cases hrun : P.running i with
    | none =>
      simp only [move, hrun, Option.some.injEq] at hm
      rw [← hm]
      exact hset i _ _ hj
    | some c => simp [move, hrun] at hm
  | ask i =>
    match hrun : P.running i with
    | none => simp [move, hrun] at hm
    | some ⟨k, .ret a⟩ => simp [move, hrun] at hm
    | some ⟨k, .throw e⟩ => simp [move, hrun] at hm
    | some ⟨k, .call o f⟩ =>
      cases hact : M.act i o P.shared with
      | none => simp [move, hrun, hact] at hm
      | some x =>
        simp only [move, hrun, hact, Option.some.injEq] at hm
        rw [← hm]
        exact hset i _ _ hj
  | stop i =>
    match hrun : P.running i with
    | none => simp [move, hrun] at hm
    | some ⟨k, .call o f⟩ => simp [move, hrun] at hm
    | some ⟨k, .ret a⟩ =>
      simp only [move, hrun, Option.some.injEq] at hm
      rw [← hm]
      exact hset i none P.shared hj
    | some ⟨k, .throw e⟩ =>
      simp only [move, hrun, Option.some.injEq] at hm
      rw [← hm]
      exact hset i none P.shared hj

/-- The pool after a list of moves. -/
def play (M : Machine ι κ Op Res ε β σ) (moves : List (Move ι κ)) (P : Pool ι κ Op Res ε β σ) :
    Option (Pool ι κ Op Res ε β σ) :=
  moves.foldlM (move M) P

/-- A thread that makes no move is in the middle of what it was in the middle of. -/
theorem running_of_play {M : Machine ι κ Op Res ε β σ} {P P' : Pool ι κ Op Res ε β σ}
    {moves : List (Move ι κ)} {j : ι} (hmoves : ∀ m ∈ moves, m.thread ≠ j)
    (hplay : P.play M moves = some P') : P'.running j = P.running j := by
  induction moves generalizing P with
  | nil =>
    obtain rfl : P = P' := by simpa [play] using hplay
    rfl
  | cons m moves ih =>
    rw [play, List.foldlM_cons] at hplay
    obtain ⟨P1, hm, hrest⟩ := Option.bind_eq_some_iff.mp hplay
    rw [ih (fun m' hm' => hmoves m' (List.mem_cons_of_mem _ hm')) hrest]
    exact running_of_move (hmoves m List.mem_cons_self) hm

/-- Moves that all meet the condition are a run under it. -/
theorem runs_of_play {M : Machine ι κ Op Res ε β σ} {cond : ι → Pool ι κ Op Res ε β σ → Prop}
    {P P' : Pool ι κ Op Res ε β σ} {moves : List (Move ι κ)}
    (hstarts : ∀ i k, .start i k ∈ moves → M.starts i k)
    (hcond : ∀ n i Q, moves[n]? = some (.ask i) → P.play M (moves.take n) = some Q → cond i Q)
    (hplay : P.play M moves = some P') : Runs M cond P P' := by
  induction moves generalizing P with
  | nil =>
    obtain rfl : P = P' := by simpa [play] using hplay
    exact .refl
  | cons m moves ih =>
    rw [play, List.foldlM_cons] at hplay
    obtain ⟨P1, hm, hrest⟩ := Option.bind_eq_some_iff.mp hplay
    have hfirst : Step M cond P P1 := by
      apply step_of_move (fun i k hk => hstarts i k (hk ▸ List.mem_cons_self)) _ hm
      intro i hi
      exact hcond 0 i P (by simp [hi]) rfl
    have hlater : ∀ n i Q, moves[n]? = some (.ask i) → P1.play M (moves.take n) = some Q →
        cond i Q := by
      intro n i Q hn hQ
      apply hcond (n + 1) i Q hn
      rw [List.take_succ_cons, play, List.foldlM_cons, hm]
      exact hQ
    exact .head hfirst (ih (fun i k hk => hstarts i k (List.mem_cons_of_mem _ hk)) hlater hrest)

end Pool

end Effects
