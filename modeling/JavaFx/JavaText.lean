import JavaFx.Css.DataStream

/-!
# Methods of strings

`String.split`, and the cases of ASCII letters.
-/

namespace JavaFx

open Css (JString)

/-- `Pattern.split` with a pattern for one or more delimiters: the empty pieces at the end are
dropped, an empty one at the front is not. -/
def splitRuns (delimiter : BitVec 16 → Bool) (text : JString) : List JString :=
  match text.splitOnP delimiter with
  | [] => []
  | [piece] => [piece]
  | first :: pieces =>
      let rest := pieces.filter (· ≠ [])
      if first = [] ∧ rest = [] then [] else first :: rest

def asciiUpper (c : BitVec 16) : BitVec 16 := if 0x61 ≤ c ∧ c ≤ 0x7a then c - 32 else c

def asciiLower (c : BitVec 16) : BitVec 16 := if 0x41 ≤ c ∧ c ≤ 0x5a then c + 32 else c

/-- A loop that passes over empty pieces sees those between two delimiters only. -/
theorem foldl_splitRuns {α : Type} {f : α → JString → α} (hf : ∀ a, f a [] = a)
    (delimiter : BitVec 16 → Bool) (text : JString) (a : α) :
    (splitRuns delimiter text).foldl f a = (text.splitOnP delimiter).foldl f a := by
  have hfilter : ∀ (pieces : List JString) (b : α),
      (pieces.filter (· ≠ [])).foldl f b = pieces.foldl f b := by
    intro pieces
    induction pieces with
    | nil => exact fun b => rfl
    | cons piece pieces ih =>
        intro b
        by_cases hp : piece = []
        · rw [List.filter_cons_of_neg (by simpa using hp), ih, List.foldl_cons, hp, hf]
        · rw [List.filter_cons_of_pos (by simpa using hp), List.foldl_cons, List.foldl_cons, ih]
  unfold splitRuns
  rcases text.splitOnP delimiter with _ | ⟨first, _ | ⟨second, pieces⟩⟩
  · rfl
  · rfl
  · simp only
    split_ifs with hnone
    · rw [List.foldl_cons, ← hfilter (second :: pieces), hnone.1, hnone.2, hf]
    · rw [List.foldl_cons, List.foldl_cons, hfilter]

end JavaFx
