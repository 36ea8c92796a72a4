import Mathlib.Data.List.Basic
import Mathlib.Data.List.Nodup

/-!
# Ordered association lists

The entries of a map in the order of their keys, as a search tree keeps them. Inserting
replaces the value of a key that is there.
-/

universe u v

namespace OrderedMap
variable {κ : Type u} {ν : Type v} [LT κ] [DecidableLT κ]

abbrev keys (m : List (κ × ν)) : List κ := m.map Prod.fst

def Sorted (m : List (κ × ν)) : Prop := (keys m).Pairwise (· < ·)

def insert (k : κ) (v : ν) : List (κ × ν) → List (κ × ν)
  | [] => [(k, v)]
  | e :: m =>
    if k < e.1 then (k, v) :: e :: m
    else if e.1 < k then e :: insert k v m
    else (k, v) :: m

theorem mem_insert {k : κ} {v : ν} {m : List (κ × ν)} {e : κ × ν} (he : e ∈ insert k v m) :
    e = (k, v) ∨ e ∈ m := by
  induction m with
  | nil => simpa [insert] using he
  | cons d m ih =>
    simp only [insert] at he
    split_ifs at he with h1 h2
    · simpa using he
    · rcases List.mem_cons.mp he with rfl | he
      · exact Or.inr List.mem_cons_self
      · exact (ih he).imp_right (List.mem_cons_of_mem _)
    · exact (List.mem_cons.mp he).imp_right (List.mem_cons_of_mem _)

section Order
variable [LE κ] [Std.IsLinearOrder κ] [Std.LawfulOrderLT κ]

theorem sorted_insert {k : κ} {v : ν} {m : List (κ × ν)} (hm : Sorted m) :
    Sorted (insert k v m) := by
  induction m with
  | nil => simp [Sorted, insert]
  | cons d m ih =>
    obtain ⟨hd, hm⟩ := List.pairwise_cons.mp hm
    simp only [insert]
    split_ifs with h1 h2
    · refine List.pairwise_cons.mpr ⟨fun k' hk' => ?_, List.pairwise_cons.mpr ⟨hd, hm⟩⟩
      rcases List.mem_cons.mp hk' with rfl | hk'
      · exact h1
      · exact Std.lt_trans h1 (hd k' hk')
    · refine List.pairwise_cons.mpr ⟨fun k' hk' => ?_, ih hm⟩
      obtain ⟨e, he, rfl⟩ := List.mem_map.mp hk'
      rcases mem_insert he with rfl | he
      · exact h2
      · exact hd e.1 (List.mem_map_of_mem he)
    · have heq : d.1 = k :=
        Std.le_antisymm (Std.not_lt.mp h1) (Std.not_lt.mp h2)
      exact List.pairwise_cons.mpr ⟨fun k' hk' => heq ▸ hd k' hk', hm⟩

/-- A key behind all others goes to the end. -/
theorem insert_of_forall_lt {k : κ} {v : ν} {m : List (κ × ν)} (h : ∀ k' ∈ keys m, k' < k) :
    insert k v m = m ++ [(k, v)] := by
  induction m with
  | nil => rfl
  | cons d m ih =>
    have hd : d.1 < k := h d.1 List.mem_cons_self
    have hno : ¬ k < d.1 := fun hlt => Std.lt_irrefl (Std.lt_trans hd hlt)
    rw [insert, if_neg hno, if_pos hd, ih fun k' hk' => h k' (List.mem_cons_of_mem _ hk')]
    rfl

/-- The entries of an ordered map, inserted in their order, are the map. -/
theorem foldl_insert {l m : List (κ × ν)} (h : Sorted (l ++ m)) :
    m.foldl (fun m e => insert e.1 e.2 m) l = l ++ m := by
  induction m generalizing l with
  | nil => simp
  | cons e m ih =>
    have hsplit : l ++ e :: m = (l ++ [e]) ++ m := by simp
    have hlast : ∀ k' ∈ keys l, k' < e.1 := by
      intro k' hk'
      rw [Sorted, keys, List.map_append, List.pairwise_append] at h
      exact h.2.2 k' hk' e.1 List.mem_cons_self
    rw [List.foldl_cons, insert_of_forall_lt hlast, hsplit]
    exact ih (hsplit ▸ h)

end Order
end OrderedMap
