import Mathlib.Data.List.Basic
import Mathlib.Data.List.Perm.Basic
import Mathlib.Tactic

/-!
# Buckets

A list of buckets, each under its key. The contents of a bucket may be exchanged; what all the
buckets hold together then changes by the contents of that one.
-/

namespace Buckets

variable {κ β : Type} [DecidableEq κ] {bs : List (κ × List β)} {k : κ} {b : List β}

/-- The bucket of a key. -/
def lookup : List (κ × List β) → κ → Option (List β)
  | [], _ => none
  | e :: bs, k => if e.1 = k then some e.2 else lookup bs k

/-- The bucket of a key gets other contents. -/
def replace : List (κ × List β) → κ → List β → List (κ × List β)
  | [], _, _ => []
  | e :: bs, k, l => if e.1 = k then (e.1, l) :: bs else e :: replace bs k l

theorem lookup_cons (e : κ × List β) (bs : List (κ × List β)) (k : κ) :
    lookup (e :: bs) k = if e.1 = k then some e.2 else lookup bs k := rfl

theorem replace_cons (e : κ × List β) (bs : List (κ × List β)) (k : κ) (l : List β) :
    replace (e :: bs) k l = if e.1 = k then (e.1, l) :: bs else e :: replace bs k l := rfl

/-- What the buckets hold. -/
def all (bs : List (κ × List β)) : List β := bs.flatMap Prod.snd

omit [DecidableEq κ] in
@[simp] theorem all_append (bs bs' : List (κ × List β)) : all (bs ++ bs') = all bs ++ all bs' :=
  List.flatMap_append

omit [DecidableEq κ] in
@[simp] theorem all_cons (e : κ × List β) (bs : List (κ × List β)) :
    all (e :: bs) = e.2 ++ all bs := rfl

omit [DecidableEq κ] in
@[simp] theorem all_nil : all ([] : List (κ × List β)) = [] := rfl

omit [DecidableEq κ] in
theorem mem_all {x : β} : x ∈ all bs ↔ ∃ e ∈ bs, x ∈ e.2 := List.mem_flatMap

theorem lookup_split (h : lookup bs k = some b) :
    ∃ pre post, bs = pre ++ (k, b) :: post ∧ ∀ l, replace bs k l = pre ++ (k, l) :: post := by
  induction bs with
  | nil => cases h
  | cons e bs ih =>
      rw [lookup_cons] at h
      by_cases he : e.1 = k
      · rw [if_pos he, Option.some_inj] at h
        subst he h
        exact ⟨[], bs, rfl, fun l => if_pos rfl⟩
      · rw [if_neg he] at h
        obtain ⟨pre, post, rfl, hreplace⟩ := ih h
        refine ⟨e :: pre, post, rfl, fun l => ?_⟩
        rw [replace_cons, if_neg he, hreplace]
        rfl

theorem lookup_eq_none (h : lookup bs k = none) : k ∉ bs.map Prod.fst := by
  induction bs with
  | nil => exact List.not_mem_nil
  | cons e bs ih =>
      rw [lookup_cons] at h
      by_cases he : e.1 = k
      · rw [if_pos he] at h
        cases h
      · rw [if_neg he] at h
        rw [List.map_cons, List.mem_cons, not_or]
        exact ⟨Ne.symm he, ih h⟩

theorem mem_of_lookup (h : lookup bs k = some b) : (k, b) ∈ bs := by
  obtain ⟨pre, post, rfl, -⟩ := lookup_split h
  exact List.mem_append_right _ List.mem_cons_self

/-- A bucket that is there is found. -/
theorem lookup_of_mem (hkeys : (bs.map Prod.fst).Nodup) (h : (k, b) ∈ bs) :
    lookup bs k = some b := by
  induction bs with
  | nil => cases h
  | cons e bs ih =>
      rw [List.map_cons, List.nodup_cons] at hkeys
      rcases List.mem_cons.mp h with rfl | h
      · exact if_pos rfl
      · rw [lookup_cons, if_neg, ih hkeys.2 h]
        rintro rfl
        exact hkeys.1 (List.mem_map.mpr ⟨_, h, rfl⟩)

theorem lookup_append_self (h : lookup bs k = none) (l : List β) :
    lookup (bs ++ [(k, l)]) k = some l := by
  induction bs with
  | nil => exact if_pos rfl
  | cons e bs ih =>
      rw [lookup_cons] at h
      by_cases he : e.1 = k
      · rw [if_pos he] at h
        cases h
      · rw [if_neg he] at h
        rw [List.cons_append, lookup_cons, if_neg he]
        exact ih h

theorem lookup_append_of_some (h : lookup bs k = some b) (bs' : List (κ × List β)) :
    lookup (bs ++ bs') k = some b := by
  induction bs with
  | nil => cases h
  | cons e bs ih =>
      rw [lookup_cons] at h
      rw [List.cons_append, lookup_cons]
      split_ifs at h ⊢
      · exact h
      · exact ih h

@[simp] theorem keys_replace (bs : List (κ × List β)) (k : κ) (l : List β) :
    (replace bs k l).map Prod.fst = bs.map Prod.fst := by
  induction bs with
  | nil => rfl
  | cons e bs ih =>
      rw [replace_cons]
      split_ifs
      · rfl
      · rw [List.map_cons, ih]
        rfl

theorem mem_replace {l : List β} {e : κ × List β} (h : e ∈ replace bs k l) :
    e ∈ bs ∨ e = (k, l) := by
  induction bs with
  | nil => cases h
  | cons e' bs ih =>
      rw [replace_cons] at h
      split_ifs at h with he
      · rcases List.mem_cons.mp h with rfl | h
        · exact Or.inr (by rw [he])
        · exact Or.inl (List.mem_cons_of_mem _ h)
      · rcases List.mem_cons.mp h with rfl | h
        · exact Or.inl List.mem_cons_self
        · exact (ih h).imp_left (List.mem_cons_of_mem _)

/-- **Exchanging the contents of a bucket** changes the whole by that bucket. -/
theorem all_replace (h : lookup bs k = some b) :
    ∃ rest, (all bs).Perm (b ++ rest) ∧ ∀ l, (all (replace bs k l)).Perm (l ++ rest) := by
  obtain ⟨pre, post, rfl, hreplace⟩ := lookup_split h
  have hperm : ∀ l, (all (pre ++ (k, l) :: post)).Perm (l ++ (all pre ++ all post)) := by
    intro l
    rw [all_append, all_cons]
    exact List.perm_append_comm_assoc _ _ _
  refine ⟨all pre ++ all post, hperm b, fun l => ?_⟩
  rw [hreplace]
  exact hperm l

/-- The other buckets stay. -/
theorem lookup_replace_of_ne {k' : κ} (hne : k' ≠ k) (l : List β) :
    lookup (replace bs k l) k' = lookup bs k' := by
  induction bs with
  | nil => rfl
  | cons e bs ih =>
      rw [replace_cons]
      split_ifs with he
      · rw [lookup_cons, lookup_cons, if_neg (by rw [he]; exact hne.symm),
          if_neg (by rw [he]; exact hne.symm)]
      · rw [lookup_cons, lookup_cons, ih]

theorem lookup_replace_self (h : lookup bs k = some b) (l : List β) :
    lookup (replace bs k l) k = some l := by
  induction bs with
  | nil => cases h
  | cons e bs ih =>
      rw [lookup_cons] at h
      rw [replace_cons]
      split_ifs with he
      · exact if_pos he
      · rw [if_neg he] at h
        rw [lookup_cons, if_neg he]
        exact ih h

end Buckets
