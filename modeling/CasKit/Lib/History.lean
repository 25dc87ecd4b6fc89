import Mathlib.Data.Nat.Notation
import Mathlib.Tactic.TypeStar

/-!
# Histories with crashes

A system takes calls. A call completes, or it is cut off at some moment and the system restarts
from what is left. A relation that every completed call and every cut off one gives between the
states before and after holds across a whole history, and so does an invariant.
-/
namespace Effects

/-- How a system answers calls. -/
structure System (σ κ : Type*) where
  after : κ → σ → σ
  moment : κ → ℕ → σ → σ
  restart : σ → σ

namespace System
variable {σ κ : Type*} (M : System σ κ) (ok : σ → κ → Prop)

/-- The states that calls, each allowed where it is made, lead to. -/
inductive History (s : σ) : σ → Prop
  | start : History s s
  | call {t : σ} (past : History s t) (k : κ) (hk : ok t k) : History s (M.after k t)
  | crash {t : σ} (past : History s t) (k : κ) (hk : ok t k) (n : ℕ) :
      History s (M.restart (M.moment k n t))

variable {M ok} {s t : σ}

/-- What single calls keep and relate, a history keeps and relates. -/
theorem History.keeps {I : σ → Prop} {R : σ → σ → Prop} (hrefl : ∀ t, R t t)
    (htrans : ∀ t u v, R t u → R u v → R t v)
    (hcall : ∀ t k, I t → ok t k → I (M.after k t) ∧ R t (M.after k t))
    (hcrash : ∀ t k n, I t → ok t k →
      I (M.restart (M.moment k n t)) ∧ R t (M.restart (M.moment k n t)))
    (h : M.History ok s t) (hs : I s) : I t ∧ R s t := by
  induction h with
  | start => exact ⟨hs, hrefl s⟩
  | call _ k hk ih =>
    obtain ⟨hI, hR⟩ := hcall _ k ih.1 hk
    exact ⟨hI, htrans _ _ _ ih.2 hR⟩
  | crash _ k hk n ih =>
    obtain ⟨hI, hR⟩ := hcrash _ k n ih.1 hk
    exact ⟨hI, htrans _ _ _ ih.2 hR⟩

end System
end Effects
