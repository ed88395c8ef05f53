import Mathlib.Data.List.Basic

/-!
# A text and its lines

The text of a list of lines is the lines joined by a separator. Around one line the text
falls into what the lines before it contribute (each with a separator behind it), the line,
and what the lines after it contribute (each with a separator in front).
-/

namespace Lines

variable {α : Type} (sep : α)

/-- What the lines before a line contribute. -/
def before (ls : List (List α)) : List α := ls.flatMap (· ++ [sep])

/-- What the lines after a line contribute. -/
def after (ls : List (List α)) : List α := ls.flatMap (sep :: ·)

@[simp] theorem before_nil : before sep [] = [] := rfl

@[simp] theorem before_append (ls ms : List (List α)) :
    before sep (ls ++ ms) = before sep ls ++ before sep ms := by
  simp [before]

@[simp] theorem before_cons (l : List α) (ls : List (List α)) :
    before sep (l :: ls) = l ++ sep :: before sep ls := by
  simp [before]

@[simp] theorem after_nil : after sep [] = [] := rfl

@[simp] theorem after_append (ls ms : List (List α)) :
    after sep (ls ++ ms) = after sep ls ++ after sep ms := by
  simp [after]

@[simp] theorem after_cons (l : List α) (ls : List (List α)) :
    after sep (l :: ls) = sep :: (l ++ after sep ls) := by
  simp [after]

/-- Moving the separators from behind the lines to in front of them. -/
theorem append_after (l : List α) (ls : List (List α)) (m : List α) :
    l ++ after sep (ls ++ [m]) = before sep (l :: ls) ++ m := by
  induction ls generalizing l with
  | nil => simp
  | cons k ls ih =>
      have := ih k
      simp only [before_cons, after_append, after_cons, after_nil, List.cons_append,
        List.append_assoc, List.append_nil] at this ⊢
      rw [this]

theorem intercalate_cons (l : List α) (ls : List (List α)) :
    [sep].intercalate (l :: ls) = l ++ after sep ls := by
  induction ls generalizing l with
  | nil => simp
  | cons m ls ih =>
      rw [List.intercalate_cons_cons, ih m]
      simp

/-- **The text around a line.** -/
theorem intercalate_split (pre : List (List α)) (l : List α) (post : List (List α)) :
    [sep].intercalate (pre ++ l :: post) = before sep pre ++ (l ++ after sep post) := by
  cases pre with
  | nil => simpa using intercalate_cons sep l post
  | cons k pre =>
      have h := append_after sep k pre l
      rw [List.cons_append, intercalate_cons, ← List.append_assoc, ← h]
      simp

end Lines
