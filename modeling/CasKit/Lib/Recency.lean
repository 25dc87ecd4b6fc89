import Mathlib.Data.List.Nodup
import Mathlib.Tactic

/-!
# Recency lists

A history of keyed values, the newest first. What a least-recently-used cache of a given capacity
holds is the newest entry of each key, in the order of age, cut at the capacity; a hit moves its
entry to the front of that list, and a miss puts one there and drops the last at capacity.
-/
namespace Recency
variable {κ ν : Type}

/-- No two entries with the same key. -/
def Distinct (cache : List (κ × ν)) : Prop := (cache.map Prod.fst).Nodup

section Distinct
variable {cache cache' : List (κ × ν)} {k : κ} {v : ν}

theorem Distinct.sublist (h : Distinct cache) (hsub : cache'.Sublist cache) : Distinct cache' :=
  List.Nodup.sublist (hsub.map Prod.fst) h

theorem Distinct.cons (h : Distinct cache) (hk : k ∉ cache.map Prod.fst) :
    Distinct ((k, v) :: cache) := List.nodup_cons.mpr ⟨hk, h⟩

/-- The key of an entry splits a list without repeated keys. -/
theorem Distinct.split (h : Distinct cache) (hmem : (k, v) ∈ cache) : ∃ a b,
    cache = a ++ (k, v) :: b ∧ (∀ x ∈ a, x.1 ≠ k) ∧ ∀ x ∈ b, x.1 ≠ k := by
  obtain ⟨a, b, rfl⟩ := List.append_of_mem hmem
  rw [Distinct, List.map_append, List.map_cons] at h
  have hmiddle := List.nodup_middle.mp h
  have hnot : k ∉ a.map Prod.fst ++ b.map Prod.fst := (List.nodup_cons.mp hmiddle).1
  refine ⟨a, b, rfl, fun x hx heq => ?_, fun x hx heq => ?_⟩
  · exact hnot (List.mem_append_left _ (heq ▸ List.mem_map_of_mem hx))
  · exact hnot (List.mem_append_right _ (heq ▸ List.mem_map_of_mem hx))

end Distinct

variable [DecidableEq κ]

/-- The newest entry of each key, in the order of age. -/
def newest : List (κ × ν) → List (κ × ν)
  | [] => []
  | e :: hist => e :: (newest hist).filter fun x => x.1 ≠ e.1

/-- The newest entries, cut at the capacity. -/
def recent (cap : ℕ) (hist : List (κ × ν)) : List (κ × ν) := (newest hist).take cap

section Lemmas
variable {cap : ℕ} {hist cache : List (κ × ν)} {k : κ} {v : ν}

theorem not_mem_filter_keys (cache : List (κ × ν)) (k : κ) :
    k ∉ (cache.filter fun x => x.1 ≠ k).map Prod.fst := by
  intro hk
  obtain ⟨e, he, heq⟩ := List.mem_map.mp hk
  have hne := List.of_mem_filter he
  simp [heq] at hne

theorem distinct_newest (hist : List (κ × ν)) : Distinct (newest hist) := by
  induction hist with
  | nil => exact List.nodup_nil
  | cons e hist ih =>
    exact (ih.sublist List.filter_sublist).cons (not_mem_filter_keys (newest hist) e.1)

theorem filter_eq_self_of_ne {l : List (κ × ν)} (h : ∀ x ∈ l, x.1 ≠ k) :
    l.filter (fun x => x.1 ≠ k) = l :=
  List.filter_eq_self.mpr fun x hx => decide_eq_true (h x hx)

theorem filter_split {a b : List (κ × ν)} (ha : ∀ x ∈ a, x.1 ≠ k) (hb : ∀ x ∈ b, x.1 ≠ k) :
    (a ++ (k, v) :: b).filter (fun x => x.1 ≠ k) = a ++ b := by
  rw [List.filter_append, List.filter_cons_of_neg (by simp), filter_eq_self_of_ne ha,
    filter_eq_self_of_ne hb]

/-- The entry that is read again goes to the front. -/
theorem recent_hit (hmem : (k, v) ∈ recent cap hist) :
    recent cap ((k, v) :: hist) = (k, v) :: (recent cap hist).filter fun x => x.1 ≠ k := by
  have hdistinct := distinct_newest hist
  obtain ⟨a, b, heq, ha, hb⟩ := hdistinct.split (List.mem_of_mem_take hmem)
  have hlt : a.length < cap := by
    by_contra hge
    rw [recent, heq, List.take_append_of_le_length (by omega)] at hmem
    exact ha _ (List.mem_of_mem_take hmem) rfl
  obtain ⟨c, rfl⟩ : ∃ c, cap = c + 1 := ⟨cap - 1, by omega⟩
  have htake : (newest hist).take (c + 1) = a ++ (k, v) :: b.take (c - a.length) := by
    rw [heq, List.take_append, List.take_of_length_le (by omega),
      show c + 1 - a.length = (c - a.length) + 1 by omega, List.take_succ_cons]
  have hb' : ∀ x ∈ b.take (c - a.length), x.1 ≠ k := fun x hx => hb x (List.mem_of_mem_take hx)
  simp only [recent, newest]
  rw [htake, filter_split ha hb', heq, filter_split ha hb, List.take_succ_cons, List.take_append,
    List.take_of_length_le (show a.length ≤ c by omega)]

/-- A new entry goes to the front, and at capacity the last one goes. -/
theorem recent_miss (hcap : 0 < cap) (hk : k ∉ (recent cap hist).map Prod.fst) :
    recent cap ((k, v) :: hist) = (k, v) ::
      if (recent cap hist).length ≥ cap then (recent cap hist).dropLast else recent cap hist := by
  obtain ⟨c, rfl⟩ : ∃ c, cap = c + 1 := ⟨cap - 1, by omega⟩
  have hne : ∀ x ∈ (newest hist).take (c + 1), x.1 ≠ k := by
    intro x hx heq
    exact hk (heq ▸ List.mem_map_of_mem hx)
  have hfilter : ((newest hist).filter fun x => x.1 ≠ k).take c = (newest hist).take c := by
    conv_lhs => rw [← List.take_append_drop (c + 1) (newest hist), List.filter_append,
      filter_eq_self_of_ne hne]
    by_cases hlen : (newest hist).length ≤ c
    · rw [List.take_of_length_le (show (newest hist).length ≤ c + 1 by omega),
        List.drop_eq_nil_of_le (by omega), List.filter_nil, List.append_nil]
    · rw [List.take_append_of_le_length (by rw [List.length_take]; omega), List.take_take,
        Nat.min_eq_left (by omega)]
  simp only [recent, newest, List.take_succ_cons, hfilter, List.length_take]
  by_cases hfull : c + 1 ≤ (newest hist).length
  · have hdrop : ((newest hist).take (c + 1)).dropLast = (newest hist).take c := by
      rw [List.dropLast_eq_take, List.length_take, Nat.min_eq_left hfull, List.take_take]
      simp
    rw [if_pos (by omega), hdrop]
  · rw [if_neg (by omega), List.take_of_length_le (by omega), List.take_of_length_le (by omega)]

end Lemmas

end Recency
