import Mathlib.Data.Finset.Card
import Mathlib.Data.Finset.Lattice.Basic
import Mathlib.Order.Lattice

/-!
# Stores with two tiers

Objects are kept under addresses that determine them, each on its own, in a bundle, or both. An
object is put on its own; bundling moves all objects that are on their own; a sweep for a set of
addresses that are live removes the others, and whatever of a bundle is still needed it bundles
anew. What such a store holds at the end of a run can be read off the operations.
-/
namespace Tiers
variable {κ : Type*} [DecidableEq κ]

/-- The addresses of the objects on their own and of those in bundles. -/
structure Store (κ : Type*) where
  loose : Finset κ
  packed : Finset κ

namespace Store

def empty : Store κ := ⟨∅, ∅⟩

/-- What the store holds. -/
def all (T : Store κ) : Finset κ := T.loose ∪ T.packed

@[simp] theorem all_empty : (empty : Store κ).all = ∅ := by simp [all, empty]

theorem mem_all {T : Store κ} {k : κ} : k ∈ T.all ↔ k ∈ T.loose ∨ k ∈ T.packed := by simp [all]

end Store

/-- Operations. A sweep that is not `whole` leaves bundles that hold anything live as they are. -/
inductive Op (κ : Type*) where
  | put (k : κ)
  | delete (k : κ)
  | bundle (threshold : ℕ)
  | sweep (live : Finset κ) (whole : Bool)

/-- What an operation makes of a store. A sweep chooses which copies in bundles it keeps. -/
inductive Step : Store κ → Op κ → Store κ → Prop
  | put (T : Store κ) (k : κ) : Step T (.put k) ⟨insert k T.loose, T.packed⟩
  | delete (T : Store κ) (k : κ) : Step T (.delete k) ⟨T.loose.erase k, T.packed⟩
  | few (T : Store κ) {n : ℕ} (h : T.loose.card ≤ n) : Step T (.bundle n) T
  | bundle (T : Store κ) {n : ℕ} (h : n < T.loose.card) :
      Step T (.bundle n) ⟨∅, T.loose ∪ T.packed⟩
  | sweep (T : Store κ) {live packed : Finset κ} {whole : Bool} (hsub : packed ⊆ T.packed)
      (hkeep : T.packed ∩ live ⊆ T.loose ∪ packed) (hwhole : whole = true → packed ⊆ live) :
      Step T (.sweep live whole) ⟨T.loose ∩ live, packed⟩

/-- Operations one after another. -/
inductive Run (T : Store κ) : List (Op κ) → Store κ → Prop
  | start : Run T [] T
  | step {ops : List (Op κ)} {U V : Store κ} {op : Op κ} (past : Run T ops U)
      (h : Step U op V) : Run T (ops ++ [op]) V

/-- The operation takes no object from the address. -/
def Op.Spares (k : κ) : Op κ → Prop
  | put _ => True
  | delete k' => k' ≠ k
  | bundle _ => True
  | sweep live _ => k ∈ live

/-- If the operation does not spare the object, then it takes all copies of it. -/
def Op.Thorough (k : κ) : Op κ → Prop
  | put _ => True
  | delete k' => k' ≠ k
  | bundle _ => True
  | sweep live whole => k ∈ live ∨ whole = true

section Steps
variable {T U : Store κ} {op : Op κ} {ops : List (Op κ)} {k : κ}

theorem Step.stays (h : Step T op U) (hop : op.Spares k) (hk : k ∈ T.all) : k ∈ U.all := by
  rw [Store.mem_all] at hk ⊢
  cases h with
  | put k' => simp only [Finset.mem_insert]; tauto
  | delete k' =>
    have hne : k ≠ k' := fun heq => hop heq.symm
    simpa [hne] using hk
  | few => exact hk
  | bundle => simpa using hk
  | sweep hsub hkeep hwhole =>
    have hlive : k ∈ _ := hop
    rcases hk with hk | hk
    · simp [hk, hlive]
    · have := hkeep (Finset.mem_inter.mpr ⟨hk, hlive⟩)
      simp only [Finset.mem_union] at this
      simp only [Finset.mem_inter]
      tauto

/-- What is there after an operation was put by it, or was there and was spared. -/
theorem Step.origin (h : Step T op U) (hop : op.Thorough k) (hk : k ∈ U.all) :
    op = .put k ∨ op.Spares k ∧ k ∈ T.all := by
  rw [Store.mem_all] at hk ⊢
  cases h with
  | put k' =>
    simp only [Finset.mem_insert] at hk
    by_cases heq : k = k'
    · simp [heq]
    · right
      exact ⟨trivial, by tauto⟩
  | delete k' =>
    right
    exact ⟨hop, by simp only [Finset.mem_erase] at hk; tauto⟩
  | few => exact .inr ⟨trivial, hk⟩
  | bundle => exact .inr ⟨trivial, by simpa using hk⟩
  | sweep hsub hkeep hwhole =>
    right
    rcases hk with hk | hk
    · simp only [Finset.mem_inter] at hk
      exact ⟨hk.2, .inl hk.1⟩
    · exact ⟨hop.elim id fun h => hwhole h hk, .inr (hsub hk)⟩

theorem Run.stays (h : Run T ops U) (hops : ∀ op ∈ ops, op.Spares k) (hk : k ∈ T.all) :
    k ∈ U.all := by
  induction h with
  | start => exact hk
  | step past hstep ih =>
    simp only [List.mem_append, List.mem_singleton] at hops
    exact hstep.stays (hops _ (.inr rfl)) (ih fun op hop => hops op (.inl hop))

/-- The parts of a run. -/
theorem Run.split {pre post : List (Op κ)} (h : Run T (pre ++ post) U) :
    ∃ V, Run T pre V ∧ Run V post U := by
  generalize hops : pre ++ post = ops at h
  induction h generalizing post with
  | start =>
    simp only [List.append_eq_nil_iff] at hops
    exact ⟨T, by rw [hops.1]; exact .start, by rw [hops.2]; exact .start⟩
  | step past hstep ih =>
    rcases List.eq_nil_or_concat post with rfl | ⟨front, last, rfl⟩
    · rw [List.append_nil] at hops
      exact ⟨_, hops ▸ past.step hstep, .start⟩
    · rw [List.concat_eq_append, ← List.append_assoc] at hops
      obtain ⟨hfront, hlast⟩ := List.append_inj' hops rfl
      obtain ⟨V, hpre, hpost⟩ := ih hfront
      rw [List.concat_eq_append]
      exact ⟨V, hpre, (List.singleton_inj.mp hlast) ▸ hpost.step hstep⟩

end Steps

end Tiers
