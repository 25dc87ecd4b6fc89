import CasKit.Gc

/-!
# The coverage rule

The loop over the packs in closed form: a pack with garbage keeps the live objects that no
initial cover and no earlier pack with garbage has, and it is rewritten or removed according
to whether there are any.
-/
namespace CasKit
open Files

namespace Gc

section Closed
variable (garbageSet covered : Finset Hash)

/-- The live objects of a pack that neither the initial cover nor an earlier pack with
garbage has. -/
def uncovered (before : List PackState) (p : PackState) : List Hash :=
  p.hashes.filter fun h =>
    h ∉ garbageSet ∧ h ∉ covered ∧ ∀ q ∈ before, q.garbage ≠ [] → h ∉ q.hashes

/-- The packs with garbage, each with what it keeps. -/
def decided (before : List PackState) : List PackState → List (PackState × List Hash)
  | [] => []
  | p :: rest =>
    if p.garbage = [] then decided (before ++ [p]) rest
    else (p, uncovered garbageSet covered before p) :: decided (before ++ [p]) rest

variable {garbageSet covered} {before packs : List PackState} {p : PackState} {h : Hash}
  {keep : List Hash}

theorem mem_uncovered : h ∈ uncovered garbageSet covered before p ↔
    h ∈ p.hashes ∧ h ∉ garbageSet ∧ h ∉ covered ∧
      ∀ q ∈ before, q.garbage ≠ [] → h ∉ q.hashes := by
  simp [uncovered]

theorem mem_decided : (p, keep) ∈ decided garbageSet covered before packs ↔
    ∃ pre post, packs = pre ++ p :: post ∧ p.garbage ≠ [] ∧
      keep = uncovered garbageSet covered (before ++ pre) p := by
  induction packs generalizing before with
  | nil => simp [decided]
  | cons q rest ih =>
    have hrest : (p, keep) ∈ decided garbageSet covered (before ++ [q]) rest ↔
        ∃ pre post, q :: rest = q :: pre ++ p :: post ∧ p.garbage ≠ [] ∧
          keep = uncovered garbageSet covered (before ++ q :: pre) p := by
      rw [ih]
      simp
    have hsplit : ∀ pre post, q :: rest = pre ++ p :: post →
        (pre = [] ∧ q = p) ∨ ∃ pre', pre = q :: pre' := by
      intro pre post h
      cases pre with
      | nil => exact .inl ⟨rfl, (List.cons.inj h).1⟩
      | cons a pre' => exact .inr ⟨pre', by rw [(List.cons.inj h).1]⟩
    constructor
    · intro hmem
      by_cases hq : q.garbage = []
      · rw [decided, if_pos hq, hrest] at hmem
        obtain ⟨pre, post, h1, h2⟩ := hmem
        exact ⟨q :: pre, post, h1, h2⟩
      · rw [decided, if_neg hq] at hmem
        rcases List.mem_cons.mp hmem with heq | hmem
        · obtain ⟨rfl, rfl⟩ := Prod.mk.inj heq
          exact ⟨[], rest, rfl, hq, by rw [List.append_nil]⟩
        · rw [hrest] at hmem
          obtain ⟨pre, post, h1, h2⟩ := hmem
          exact ⟨q :: pre, post, h1, h2⟩
    · rintro ⟨pre, post, h1, hp, hk⟩
      rcases hsplit pre post h1 with ⟨rfl, rfl⟩ | ⟨pre', rfl⟩
      · rw [decided, if_neg hp, hk, List.append_nil]
        exact List.mem_cons_self
      · have htail := hrest.mpr ⟨pre', post, h1, hp, hk⟩
        by_cases hq : q.garbage = []
        · rwa [decided, if_pos hq]
        · rw [decided, if_neg hq]
          exact List.mem_cons_of_mem _ htail

/-- What is covered after the packs `before`. -/
def CoversUpTo (garbageSet covered : Finset Hash) (before : List PackState) (st : Coverage) :
    Prop :=
  ∀ h, h ∈ st.covered ↔ h ∈ covered ∨ h ∉ garbageSet ∧ ∃ q ∈ before, q.garbage ≠ [] ∧ h ∈ q.hashes

theorem needed_eq_uncovered {st : Coverage} (hst : CoversUpTo garbageSet covered before st)
    (p : PackState) : needed garbageSet st.covered p = uncovered garbageSet covered before p := by
  unfold needed uncovered
  apply List.filter_congr
  intro h _
  have := hst h
  by_cases hg : h ∈ garbageSet
  · simp [hg]
  · by_cases hc : h ∈ covered <;> simp [hg, hc, this]

/-- One pack of the loop, with garbage or without. -/
theorem CoversUpTo.step {st : Coverage} (hst : CoversUpTo garbageSet covered before st)
    (p : PackState) : CoversUpTo garbageSet covered (before ++ [p]) (coverPack garbageSet st p) := by
  have hneeded := needed_eq_uncovered hst p
  intro h
  unfold coverPack
  cases hg : p.garbage with
  | nil =>
    simp only [List.isEmpty_nil, if_true]
    rw [hst h]
    simp [hg]
  | cons g gs =>
    have hmem : h ∈ needed garbageSet st.covered p ↔
        h ∈ p.hashes ∧ h ∉ garbageSet ∧ h ∉ st.covered := by
      simp [needed]
    have hdone : h ∉ garbageSet ∧ h ∈ p.hashes → h ∈ st.covered ∨ h ∈ needed garbageSet st.covered p := by
      rintro ⟨h1, h2⟩
      by_cases hc : h ∈ st.covered
      · exact .inl hc
      · exact .inr (hmem.mpr ⟨h2, h1, hc⟩)
    have hafter : h ∈ st.covered ∨ h ∈ needed garbageSet st.covered p ↔
        h ∈ covered ∨ h ∉ garbageSet ∧ ∃ q ∈ before ++ [p], q.garbage ≠ [] ∧ h ∈ q.hashes := by
      constructor
      · rintro (hc | hn)
        · rcases (hst h).mp hc with h1 | ⟨h1, q, hq, h2⟩
          · exact .inl h1
          · exact .inr ⟨h1, q, List.mem_append_left _ hq, h2⟩
        · obtain ⟨h1, h2, -⟩ := hmem.mp hn
          exact .inr ⟨h2, p, by simp, by simp [hg], h1⟩
      · rintro (hc | ⟨h1, q, hq, h2, h3⟩)
        · exact .inl ((hst h).mpr (.inl hc))
        · rcases List.mem_append.mp hq with hq | hq
          · exact .inl ((hst h).mpr (.inr ⟨h1, q, hq, h2, h3⟩))
          · obtain rfl := List.mem_singleton.mp hq
            exact hdone ⟨h1, h3⟩
    by_cases hkeep : needed garbageSet st.covered p = []
    · simp only [List.isEmpty_cons, Bool.false_eq_true, if_false, hkeep, List.isEmpty_nil, if_true]
      rw [← hafter, hkeep]
      simp
    · have hne : (needed garbageSet st.covered p).isEmpty = false := by
        simpa using hkeep
      simp only [List.isEmpty_cons, Bool.false_eq_true, if_false, hne]
      rw [← hafter]
      simp

variable (packs) in
/-- The packs that the loop removes and rewrites, in closed form. -/
theorem foldl_coverPack {st : Coverage} (hst : CoversUpTo garbageSet covered before st) :
    (packs.foldl (coverPack garbageSet) st).packsToRemove = st.packsToRemove ++
        ((decided garbageSet covered before packs).filter fun d => d.2 = []).map
          (fun d => d.1.packPath) ∧
      (packs.foldl (coverPack garbageSet) st).packsToRewrite = st.packsToRewrite ++
        ((decided garbageSet covered before packs).filter fun d => d.2 ≠ []).map
          (fun d => ⟨d.1.packPath, d.2⟩) := by
  induction packs generalizing before st with
  | nil => simp [decided]
  | cons p rest ih =>
    obtain ⟨hremove, hrewrite⟩ := ih (hst.step p)
    have hneeded := needed_eq_uncovered hst p
    rw [List.foldl_cons, hremove, hrewrite]
    cases hg : p.garbage with
    | nil => simp [decided, coverPack, hg]
    | cons g gs =>
      by_cases hkeep : uncovered garbageSet covered before p = []
      · simp [decided, coverPack, hg, hneeded, hkeep]
      · have hne : (uncovered garbageSet covered before p).isEmpty = false := by simpa using hkeep
        simp [decided, coverPack, hg, hneeded, hkeep, hne]

end Closed

section Coverage
variable {looseSet : List Hash} {garbageSet : Finset Hash} {packs : List PackState}

theorem coversUpTo_start (remove : List Path) (rewrite : List PackRewrite) (a b : ℕ) :
    CoversUpTo garbageSet (initialCover looseSet garbageSet packs) []
      ⟨initialCover looseSet garbageSet packs, remove, rewrite, a, b⟩ := by
  intro h
  simp

theorem mem_packsToRewrite {r : PackRewrite} :
    r ∈ (coverage looseSet garbageSet packs).packsToRewrite ↔
      ∃ pre p post, packs = pre ++ p :: post ∧ p.garbage ≠ [] ∧ r.keep ≠ [] ∧
        r = ⟨p.packPath, uncovered garbageSet (initialCover looseSet garbageSet packs) pre p⟩ := by
  have hstart := @coversUpTo_start looseSet garbageSet packs [] [] 0 0
  have hclosed := (foldl_coverPack packs hstart).2
  rw [coverage, hclosed, List.nil_append]
  simp only [List.mem_map, List.mem_filter, Prod.exists, mem_decided, List.nil_append,
    decide_eq_true_eq]
  constructor
  · rintro ⟨p, keep, ⟨⟨pre, post, h1, h2, rfl⟩, hne⟩, rfl⟩
    exact ⟨pre, p, post, h1, h2, hne, rfl⟩
  · rintro ⟨pre, p, post, h1, h2, hne, rfl⟩
    exact ⟨p, _, ⟨⟨pre, post, h1, h2, rfl⟩, hne⟩, rfl⟩

theorem mem_packsToRemove {path : Path} :
    path ∈ (coverage looseSet garbageSet packs).packsToRemove ↔
      ∃ pre p post, packs = pre ++ p :: post ∧ p.garbage ≠ [] ∧ path = p.packPath ∧
        uncovered garbageSet (initialCover looseSet garbageSet packs) pre p = [] := by
  have hstart := @coversUpTo_start looseSet garbageSet packs [] [] 0 0
  have hclosed := (foldl_coverPack packs hstart).1
  rw [coverage, hclosed, List.nil_append]
  simp only [List.mem_map, List.mem_filter, Prod.exists, mem_decided, List.nil_append,
    decide_eq_true_eq]
  constructor
  · rintro ⟨p, keep, ⟨⟨pre, post, h1, h2, rfl⟩, hne⟩, rfl⟩
    exact ⟨pre, p, post, h1, h2, rfl, hne⟩
  · rintro ⟨pre, p, post, h1, h2, rfl, hne⟩
    exact ⟨p, _, ⟨⟨pre, post, h1, h2, rfl⟩, hne⟩, rfl⟩

theorem mem_initialCover {h : Hash} : h ∈ initialCover looseSet garbageSet packs ↔
    h ∈ looseSet ∧ h ∉ garbageSet ∨ ∃ p ∈ packs, p.garbage = [] ∧ h ∈ p.hashes := by
  simp [initialCover, and_assoc]

end Coverage

end Gc
end CasKit
