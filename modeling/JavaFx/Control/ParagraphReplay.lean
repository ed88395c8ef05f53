import JavaFx.Control.ParagraphEvents

/-!
# Replaying the events of the paragraph list

A copy of the list follows an insertion or a deletion exactly when no event reports as removed a
text that was not there. An edited paragraph is reported with its new text, so the copy follows
only where the edit leaves the text of the paragraph as it was.
-/

namespace JavaFx.Control

open Css (JString)
open Lines TextAreaContent

namespace ObservedContent

/-- A copy of the list, changed by each event in turn, ends as the list does. -/
def Replays (s : TextAreaContent) (m : Method ObservedContent Bool) : Prop :=
  (m.run ⟨s, []⟩).2.fired.foldlM (fun texts change => change.replay texts) s.paragraphs =
    some (m.run ⟨s, []⟩).2.content.paragraphs

instance (s : TextAreaContent) (m : Method ObservedContent Bool) : Decidable (Replays s m) :=
  inferInstanceAs (Decidable (_ = _))

/-! ## One event -/

/-- **Replaying one event** whose sizes are right. -/
theorem replay_eq (pre old removed added post : List JString) (h : removed.length = old.length) :
    (ParagraphListChange.mk pre.length (pre.length + added.length) removed
      (pre ++ (added ++ post))).replay (pre ++ (old ++ post)) =
        if old = removed then some (pre ++ (added ++ post)) else none := by
  have hold : ((pre ++ (old ++ post)).drop pre.length).take removed.length = old := by
    rw [List.drop_left, h, List.take_left]
  have hafter : (pre ++ (old ++ post)).drop (pre.length + removed.length) = post := by
    rw [← List.drop_drop, List.drop_left, h, List.drop_left]
  have hadded : Splice.slice pre.length (pre.length + added.length) (pre ++ (added ++ post)) =
      added := by
    rw [Splice.slice, List.drop_left, Nat.add_sub_cancel_left, List.take_left]
  rw [ParagraphListChange.replay]
  simp only [hold, hafter, hadded, List.take_left, List.length_append, Nat.le_add_right, true_and]

/-- An event for a paragraph at its place. -/
theorem replay_edited (pre : List JString) (old reported new : JString) (post : List JString) :
    (ParagraphListChange.mk pre.length (pre.length + 1) [reported] (pre ++ new :: post)).replay
      (pre ++ old :: post) = if old = reported then some (pre ++ new :: post) else none := by
  have h := replay_eq pre [old] [reported] [new] post rfl
  simp only [List.cons.injEq, and_true] at h
  exact h

/-! ## Insertion -/

theorem splitLine_of_plain {text : JString} (h : newline ∉ text) (lines : List JString × JString) :
    text.foldl splitLine lines = (lines.1, lines.2 ++ text) := by
  induction text generalizing lines with
  | nil => simp
  | cons c text ih =>
      rw [List.mem_cons, not_or] at h
      rw [List.foldl_cons, ih h.2, splitLine, if_neg fun he => h.1 he.symm]
      simp

/-- The lines closed before stay in front. -/
theorem splitLine_closed (text : JString) (lines : List JString × JString) :
    ∃ more last, text.foldl splitLine lines = (lines.1 ++ more, last) := by
  induction text generalizing lines with
  | nil => exact ⟨[], lines.2, by simp⟩
  | cons c text ih =>
      obtain ⟨more, last, h⟩ := ih (splitLine lines c)
      rw [List.foldl_cons, h]
      by_cases hc : c = newline
      · exact ⟨lines.2 :: more, last, by simp [splitLine, hc]⟩
      · exact ⟨more, last, by simp [splitLine, hc]⟩

/-- The first line of a text with a line break. -/
theorem splitLine_first {first : JString} (rest : JString) (h : newline ∉ first) :
    ∃ middle last, (first ++ newline :: rest).foldl splitLine ([], []) =
      (first :: middle, last) := by
  obtain ⟨middle, last, heq⟩ := splitLine_closed rest ([first], [])
  refine ⟨middle, last, ?_⟩
  rw [List.foldl_append, splitLine_of_plain h, List.foldl_cons, splitLine, if_pos rfl]
  exact heq

/-- A text is one line, or has a first line. -/
theorem plain_or_first (text : JString) :
    newline ∉ text ∨ ∃ first rest, text = first ++ newline :: rest ∧ newline ∉ first := by
  by_cases h : newline ∈ text
  · obtain ⟨first, rest, heq, hfirst⟩ := List.eq_append_cons_of_mem h
    exact Or.inr ⟨first, rest, heq, hfirst⟩
  · exact Or.inl h

/-- A text has one first line. -/
theorem first_unique {first first' rest rest' : JString} (h : newline ∉ first)
    (h' : newline ∉ first') (heq : first ++ newline :: rest = first' ++ newline :: rest') :
    first = first' := by
  have hwhile : ∀ {a b : JString}, newline ∉ a →
      (a ++ newline :: b).takeWhile (fun c => c ≠ newline) = a := by
    intro a b ha
    rw [List.takeWhile_append_of_pos, List.takeWhile_cons_of_neg (by simp), List.append_nil]
    intro c hc
    rw [decide_eq_true_eq]
    rintro rfl
    exact ha hc
  rw [← hwhile (b := rest) h, heq, hwhile h']

/-- What is inserted in a paragraph behind `start` characters leaves the text of the paragraph as
it was: the first line of what is inserted is the rest of the paragraph. -/
def FirstLineIs (filtered rest : JString) : Prop :=
  ∃ more, filtered = rest ++ newline :: more ∧ newline ∉ rest

/-- An insertion whose events say what happened. -/
def InsertReplayable (s : TextAreaContent) (index : ℤ) (text : Option JString) : Prop :=
  (index < 0 ∨ s.contentLength < index) ∨ text = none ∨
    ∃ str, text = some str ∧ (filterInput str false false = [] ∨
      ∃ pre paragraph post start, s.paragraphs = pre ++ paragraph :: post ∧
        index = (before newline pre).length + (start : ℕ) ∧ start ≤ paragraph.length ∧
        FirstLineIs (filterInput str false false) (paragraph.drop start))

/-- There is one paragraph that holds an index. -/
theorem Holds.unique {paragraphs : List JString} {index : ℤ} {pre pre' post post' : List JString}
    {p p' : JString} (h : Holds paragraphs index pre p post)
    (h' : Holds paragraphs index pre' p' post') : pre = pre' ∧ p = p' ∧ post = post' := by
  have hsplit := h.split.symm.trans h'.split
  -- the paragraph after `p` starts behind the index
  have hnot : ∀ {a b c d : List JString} {q r : JString}, a ++ q :: b = c ++ r :: d →
      index ≤ (before newline a).length + q.length → ((before newline c).length : ℤ) ≤ index →
      ¬ a.length < c.length := by
    intro a b c d q r heq hle hfrom hlt
    obtain ⟨e, rfl⟩ : ∃ e, c = a ++ q :: e := by
      have htake := congrArg (List.take c.length) heq
      rw [List.take_left' rfl] at htake
      obtain ⟨k, hk⟩ := Nat.exists_eq_add_of_lt hlt
      rw [hk, show a.length + k + 1 = a.length + (k + 1) from rfl,
        List.take_length_add_append] at htake
      exact ⟨b.take k, htake.symm⟩
    simp at hfrom
    omega
  have hlength : pre.length = pre'.length := by
    have h₁ := hnot hsplit h.le_end h'.from_le
    have h₂ := hnot hsplit.symm h'.le_end h.from_le
    omega
  obtain ⟨hpre, hcons⟩ := List.append_inj hsplit hlength
  obtain ⟨hp, hpost⟩ := List.cons.inj hcons
  exact ⟨hpre, hp, hpost⟩

/-- The place of an index, and the walk that finds it. -/
theorem holds_of_mem {s : TextAreaContent} (hs : s.WellFormed) {index : ℤ} (hpos : 0 ≤ index)
    (hle : index ≤ s.contentLength) :
    ∃ pre paragraph post start, s.paragraphs = pre ++ paragraph :: post ∧
      index = (before newline pre).length + (start : ℕ) ∧ start ≤ paragraph.length ∧
      walkBackward s.paragraphs index s.paragraphs.length (s.contentLength + 1) =
        .ok (pre.length, (before newline pre).length) := by
  obtain ⟨pre, paragraph, post, hholds, -, hwalk⟩ := walkBackward_eq hpos (le_refl _)
    (by rw [List.take_length]) (show index < (before newline s.paragraphs).length by
      have := length_before_eq hs
      omega)
  rw [length_before_eq hs] at hwalk
  obtain ⟨start, hindex, hstart⟩ := hholds.exists_nat
  exact ⟨pre, paragraph, post, start, hholds.split, hindex, hstart, hwalk⟩

/-- **The events of an insertion** that puts one line into a paragraph. -/
theorem insert_line_run {s : TextAreaContent} {index : ℤ} {str : JString} (notifyListeners : Bool)
    {pre post : List JString} {p : JString} {start : ℕ}
    (hguard : ¬ (index < 0 ∨ s.contentLength < index)) (hsplit : s.paragraphs = pre ++ p :: post)
    (hindex : index = (before newline pre).length + (start : ℕ)) (hstart : start ≤ p.length)
    (hwalk : walkBackward s.paragraphs index s.paragraphs.length (s.contentLength + 1) =
      .ok (pre.length, (before newline pre).length))
    (hne : filterInput str false false ≠ []) (hplain : newline ∉ filterInput str false false) :
    ∃ q : JString, q.length = p.length + (filterInput str false false).length ∧
      ((insert index (some str) notifyListeners).run ⟨s, []⟩).2.content.paragraphs =
        pre ++ q :: post ∧
      ((insert index (some str) notifyListeners).run ⟨s, []⟩).2.fired =
        [⟨pre.length, pre.length + 1, [q], pre ++ q :: post⟩] := by
  have hoff : index - (before newline pre).length = (start : ℤ) := by omega
  have hlength : 0 < (filterInput str false false).length := List.length_pos_of_ne_nil hne
  refine ⟨p.take start ++ (filterInput str false false ++ p.drop start), ?_, ?_⟩
  · simp only [List.length_append, List.length_take, List.length_drop]
    omega
  have hedit := onContent_edit_run (s := ⟨s, []⟩)
    (f := (insertAt · start (filterInput str false false))) hsplit
    (insertAt_eq hstart (filterInput str false false))
  rw [insert, Method.run_this_bind, if_neg hguard]
  simp only [if_pos hlength, splitLine_of_plain hplain, List.nil_append, hwalk,
    Method.run_lift_ok_bind, hoff]
  rw [Method.run_bind_ok hedit, Method.run_bind_ok (fireEdited_run rfl)]
  exact ⟨rfl, rfl⟩

/-- The events of an insertion that splits a paragraph. -/
theorem insert_lines_run {s : TextAreaContent} {index : ℤ} {str : JString} (notifyListeners : Bool)
    {pre post : List JString} {p first rest : JString} {start : ℕ}
    (hguard : ¬ (index < 0 ∨ s.contentLength < index)) (hsplit : s.paragraphs = pre ++ p :: post)
    (hindex : index = (before newline pre).length + (start : ℕ)) (hstart : start ≤ p.length)
    (hwalk : walkBackward s.paragraphs index s.paragraphs.length (s.contentLength + 1) =
      .ok (pre.length, (before newline pre).length))
    (htext : filterInput str false false = first ++ newline :: rest) (hfirst : newline ∉ first) :
    ∃ added : List JString,
      ((insert index (some str) notifyListeners).run ⟨s, []⟩).2.content.paragraphs =
        pre ++ (p.take start ++ first) :: (added ++ post) ∧
      ((insert index (some str) notifyListeners).run ⟨s, []⟩).2.fired =
        [⟨pre.length, pre.length + 1, [p.take start ++ first],
            pre ++ (p.take start ++ first) :: post⟩,
          ⟨pre.length + 1, pre.length + 1 + added.length, [],
            pre ++ (p.take start ++ first) :: (added ++ post)⟩] := by
  have hoff : index - (before newline pre).length = (start : ℤ) := by omega
  have hlength : 0 < (first ++ newline :: rest).length := by simp
  obtain ⟨middle, last, hlines⟩ := splitLine_first rest hfirst
  refine ⟨middle ++ [last ++ p.drop start], ?_⟩
  have hget : listGet s.paragraphs pre.length = .ok p := by simp [listGet, hsplit]
  have hdelete : deleteRange p start p.length = .ok (p.take start) := by
    rw [deleteRange_eq hstart (le_refl _)]
    simp
  have hinsert : insertAt (p.take start) start first = .ok (p.take start ++ first) := by
    have hlen : (p.take start).length = start := List.length_take_of_le hstart
    rw [insertAt_eq (by omega)]
    simp [List.drop_eq_nil_of_le (le_of_eq hlen)]
  have hedit := onContent_edit_run (s := ⟨s, []⟩) (f := (deleteRange · start p.length)) hsplit
    hdelete
  have hedit' := onContent_edit_run
    (s := ⟨{ s with paragraphs := pre ++ p.take start :: post }, []⟩)
    (f := (insertAt · start first)) rfl hinsert
  have htake : (pre ++ (p.take start ++ first) :: post).take (pre.length + 1) =
      pre ++ [p.take start ++ first] := by
    rw [List.take_length_add_append]
    rfl
  have hdrop : (pre ++ (p.take start ++ first) :: post).drop (pre.length + 1) = post := by
    rw [List.drop_length_add_append]
    rfl
  rw [insert, Method.run_this_bind, if_neg hguard]
  simp only [htext, if_pos hlength, hlines, hwalk, Method.run_lift_ok_bind, hoff, hget,
    substring_eq hstart (le_refl _)]
  rw [Method.run_bind_ok hedit, Method.run_bind_ok hedit', Method.run_bind_ok (fireEdited_run rfl)]
  have hlist : (pre ++ (p.take start ++ first) :: post).take (pre.length + 1) ++
      (middle ++ [last ++ p.drop start] ++
        (pre ++ (p.take start ++ first) :: post).drop (pre.length + 1)) =
      pre ++ (p.take start ++ first) :: (middle ++ [last ++ p.drop start] ++ post) := by
    rw [htake, hdrop, List.append_assoc, List.singleton_append]
  have hcount : pre.length + 1 + (middle ++ [last ++ p.drop start]).length =
      pre.length + (middle.length + 2) := by
    rw [List.length_append, List.length_singleton]
    omega
  rw [hcount, ← hlist]
  simp only [List.take_length]
  exact ⟨rfl, rfl⟩

/-- A call that throws, and one that has nothing to insert, tell nobody anything. -/
theorem replays_of_quiet {s : TextAreaContent} {m : Method ObservedContent Bool}
    (h : (m.run ⟨s, []⟩).2 = ⟨s, []⟩) : Replays s m := by
  rw [Replays, h]
  rfl

theorem insert_replays_iff {s : TextAreaContent} (hs : s.WellFormed) (index : ℤ)
    (text : Option JString) (notifyListeners : Bool) :
    Replays s (insert index text notifyListeners) ↔ InsertReplayable s index text := by
  by_cases hguard : index < 0 ∨ s.contentLength < index
  · refine iff_of_true (replays_of_quiet ?_) (Or.inl hguard)
    rw [insert, Method.run_this_bind, if_pos hguard]
    rfl
  cases text with
  | none =>
      refine iff_of_true (replays_of_quiet ?_) (Or.inr (Or.inl rfl))
      rw [insert, Method.run_this_bind, if_neg hguard]
      rfl
  | some str =>
      by_cases hnil : filterInput str false false = []
      · refine iff_of_true (replays_of_quiet ?_) (Or.inr (Or.inr ⟨str, rfl, Or.inl hnil⟩))
        rw [insert, Method.run_this_bind, if_neg hguard]
        simp only [hnil]
        rfl
      obtain ⟨pre, p, post, start, hsplit, hindex, hstart, hwalk⟩ :=
        holds_of_mem hs (by omega : 0 ≤ index) (by omega)
      -- the condition is about the paragraph that the walk finds
      have hcondition : InsertReplayable s index (some str) ↔
          FirstLineIs (filterInput str false false) (p.drop start) := by
        constructor
        · rintro (hout | hnone | ⟨str', hstr, hempty | ⟨pre', p', post', start', hsplit', hindex',
            hstart', hline⟩⟩)
          · exact absurd hout hguard
          · cases hnone
          · cases hstr
            exact absurd hempty hnil
          · cases hstr
            have hholds : Holds s.paragraphs index pre p post := ⟨hsplit, by omega, by omega⟩
            have hholds' : Holds s.paragraphs index pre' p' post' := ⟨hsplit', by omega, by omega⟩
            obtain ⟨rfl, rfl, rfl⟩ := Holds.unique hholds hholds'
            have hsame : start' = start := by omega
            rw [← hsame]
            exact hline
        · exact fun hline => Or.inr (Or.inr ⟨str, rfl,
            Or.inr ⟨pre, p, post, start, hsplit, hindex, hstart, hline⟩⟩)
      rw [hcondition]
      rcases plain_or_first (filterInput str false false) with hplain | ⟨first, rest, htext, hfirst⟩
      · -- the paragraph has grown, and its old text is longer than it was
        refine iff_of_false ?_ ?_
        · obtain ⟨q, hlength, hcontent, hfired⟩ := insert_line_run notifyListeners hguard hsplit
            hindex hstart hwalk hnil hplain
          have hne : p ≠ q := by
            rintro rfl
            have := List.length_pos_of_ne_nil hnil
            omega
          rw [Replays, hcontent, hfired, hsplit, List.foldlM_cons, replay_edited, if_neg hne]
          exact fun h => by cases h
        · rintro ⟨more, heq, -⟩
          refine hplain ?_
          rw [heq]
          simp
      · obtain ⟨added, hcontent, hfired⟩ := insert_lines_run notifyListeners hguard hsplit hindex
          hstart hwalk htext hfirst
        have hsecond := replay_eq (pre ++ [p.take start ++ first]) [] [] added post rfl
        simp only [List.length_append, List.length_singleton, List.append_assoc,
          List.singleton_append, List.nil_append, if_true] at hsecond
        have hkeep : p = p.take start ++ first ↔ p.drop start = first := by
          constructor
          · intro h
            have hdrop := congrArg (List.drop start) h
            rw [List.drop_append_of_le_length (by rw [List.length_take_of_le hstart]),
              List.drop_take, Nat.sub_self] at hdrop
            simpa using hdrop
          · intro h
            rw [← h, List.take_append_drop]
        have hline : FirstLineIs (filterInput str false false) (p.drop start) ↔
            p.drop start = first := by
          rw [htext]
          constructor
          · rintro ⟨more, heq, hplain⟩
            exact first_unique hplain hfirst heq.symm
          · rintro rfl
            exact ⟨rest, rfl, hfirst⟩
        rw [hline, Replays, hcontent, hfired, hsplit, List.foldlM_cons, replay_edited]
        by_cases hsame : p.drop start = first
        · refine iff_of_true ?_ hsame
          rw [if_pos (hkeep.mpr hsame), Option.bind_eq_bind, Option.bind_some, List.foldlM_cons,
            hsecond]
          rfl
        · refine iff_of_false ?_ hsame
          rw [if_neg fun h => hsame (hkeep.mp h)]
          exact fun h => by cases h

/-! ## Deletion -/

/-- A deletion whose events say what happened: it ends where a paragraph starts that has the same
text as the one in which the deletion starts. -/
def DeleteReplayable (s : TextAreaContent) (start end_ : ℤ) : Prop :=
  end_ ≤ start ∨ (start < 0 ∨ s.contentLength < end_) ∨
    ∃ pre paragraph between post, s.paragraphs = pre ++ paragraph :: (between ++ paragraph :: post) ∧
      end_ = (before newline (pre ++ paragraph :: between)).length ∧
      (before newline pre).length ≤ start ∧ start ≤ (before newline pre).length + paragraph.length

/-- The events of a deletion within a paragraph. -/
theorem delete_within_run {s : TextAreaContent} {start end_ : ℤ} (notifyListeners : Bool)
    {pre post : List JString} {p : JString} {a b : ℕ}
    (hguard : ¬ (start < 0 ∨ s.contentLength < end_)) (hlt : start < end_)
    (hsplit : s.paragraphs = pre ++ p :: post)
    (ha : start = (before newline pre).length + (a : ℕ))
    (hb : end_ = (before newline pre).length + (b : ℕ)) (hle : b ≤ p.length)
    (hwalkT : walkBackward s.paragraphs end_ s.paragraphs.length (s.contentLength + 1) =
      .ok (pre.length, (before newline pre).length))
    (hwalkL : walkBackward s.paragraphs start (pre.length + 1)
      ((before newline pre).length + (p.length + 1)) =
        .ok (pre.length, (before newline pre).length)) :
    ((delete start end_ notifyListeners).run ⟨s, []⟩).2.content.paragraphs =
        pre ++ (p.take a ++ p.drop b) :: post ∧
      ((delete start end_ notifyListeners).run ⟨s, []⟩).2.fired =
        [⟨pre.length, pre.length + 1, [p.take a ++ p.drop b],
          pre ++ (p.take a ++ p.drop b) :: post⟩] := by
  have hget : listGet s.paragraphs pre.length = .ok p := by simp [listGet, hsplit]
  have hdelete : deleteRange p (start - (before newline pre).length)
      (end_ - (before newline pre).length) = .ok (p.take a ++ p.drop b) := by
    rw [show start - (before newline pre).length = (a : ℤ) by omega,
      show end_ - (before newline pre).length = (b : ℤ) by omega, deleteRange_eq (by omega) hle]
  have hedit := onContent_edit_run (s := ⟨s, []⟩)
    (f := (deleteRange · (start - (before newline pre).length)
      (end_ - (before newline pre).length))) hsplit hdelete
  have horder : ¬ end_ < start := by omega
  have hlength : 0 < end_ - start := by omega
  rw [delete, Method.run_this_bind, if_neg horder]
  simp only [if_neg hguard, if_pos hlength, hwalkT, Method.run_lift_ok_bind, hget, hwalkL, if_true]
  rw [Method.run_bind_ok hedit, Method.run_bind_ok (fireEdited_run rfl)]
  exact ⟨rfl, rfl⟩

/-- **The events of a deletion** over several paragraphs. -/
theorem delete_across_run {s : TextAreaContent} {start end_ : ℤ} (notifyListeners : Bool)
    {pre between post : List JString} {leading trailing : JString} {a b : ℕ}
    (hguard : ¬ (start < 0 ∨ s.contentLength < end_)) (hlt : start < end_)
    (hsplit : s.paragraphs = (pre ++ leading :: between) ++ trailing :: post)
    (ha : start = (before newline pre).length + (a : ℕ)) (hale : a ≤ leading.length)
    (hb : end_ = (before newline (pre ++ leading :: between)).length + (b : ℕ))
    (hble : b ≤ trailing.length)
    (hwalkT : walkBackward s.paragraphs end_ s.paragraphs.length (s.contentLength + 1) =
      .ok ((pre ++ leading :: between).length,
        (before newline (pre ++ leading :: between)).length))
    (hwalkL : walkBackward s.paragraphs start ((pre ++ leading :: between).length + 1)
      ((before newline (pre ++ leading :: between)).length + (trailing.length + 1)) =
        .ok (pre.length, (before newline pre).length)) :
    ((delete start end_ notifyListeners).run ⟨s, []⟩).2.content.paragraphs =
        pre ++ (leading.take a ++ trailing.drop b) :: post ∧
      ((delete start end_ notifyListeners).run ⟨s, []⟩).2.fired =
        [⟨(pre ++ leading :: between).length, (pre ++ leading :: between).length + 1,
            [trailing.drop b], (pre ++ leading :: between) ++ trailing.drop b :: post⟩,
          ⟨pre.length, pre.length, leading :: between, pre ++ trailing.drop b :: post⟩,
          ⟨pre.length, pre.length + 1, [leading],
            pre ++ (leading.take a ++ trailing.drop b) :: post⟩] := by
  have hgetT : listGet s.paragraphs (pre ++ leading :: between).length = .ok trailing := by
    rw [listGet, hsplit, List.getElem?_append_right (le_refl _), Nat.sub_self]
    rfl
  have hgetL : listGet s.paragraphs pre.length = .ok leading := by
    rw [listGet, hsplit, List.append_assoc, List.getElem?_append_right (le_refl _), Nat.sub_self]
    rfl
  have hne : pre.length ≠ (pre ++ leading :: between).length := by simp
  have hless : pre.length < (pre ++ leading :: between).length := by simp
  have hsegment : substring leading 0 (start - (before newline pre).length) =
      .ok (leading.take a) := by
    have := substring_eq (p := leading) (Nat.zero_le a) hale
    rw [show start - (before newline pre).length = (a : ℤ) by omega]
    simpa using this
  have hdelete : deleteRange trailing 0 (start + (end_ - start) -
      (before newline (pre ++ leading :: between)).length) = .ok (trailing.drop b) := by
    have := deleteRange_eq (p := trailing) (Nat.zero_le b) hble
    rw [show start + (end_ - start) - (before newline (pre ++ leading :: between)).length =
      (b : ℤ) by omega]
    simpa using this
  have hinsert : insertAt (trailing.drop b) 0 (leading.take a) =
      .ok (leading.take a ++ trailing.drop b) := by
    simpa using insertAt_eq (Nat.zero_le (trailing.drop b).length) (leading.take a)
  have hedit := onContent_edit_run (s := ⟨s, []⟩)
    (f := (deleteRange · 0 (start + (end_ - start) -
      (before newline (pre ++ leading :: between)).length))) hsplit hdelete
  have hremoved : Splice.slice pre.length (pre ++ leading :: between).length
      ((pre ++ leading :: between) ++ trailing.drop b :: post) = leading :: between := by
    rw [Splice.slice, List.append_assoc, List.drop_left, List.length_append,
      Nat.add_sub_cancel_left, List.take_left]
  have hcut : ((pre ++ leading :: between) ++ trailing.drop b :: post).take pre.length ++
      ((pre ++ leading :: between) ++ trailing.drop b :: post).drop
        (pre ++ leading :: between).length = pre ++ trailing.drop b :: post := by
    rw [List.drop_left, List.append_assoc, List.take_left]
  have horder : ¬ end_ < start := by omega
  have hlength : 0 < end_ - start := by omega
  rw [delete, Method.run_this_bind, if_neg horder]
  simp only [if_neg hguard, if_pos hlength, hwalkT, Method.run_lift_ok_bind, hgetT, hwalkL,
    if_neg hne, hgetL, hsegment]
  rw [Method.run_bind_ok hedit, Method.run_bind_ok (fireEdited_run rfl)]
  simp only [if_pos hless, Method.run_this_bind, hremoved]
  rw [run_onContent_modify_bind, run_fire_bind]
  simp only [hcut]
  rw [Method.run_bind_ok (onContent_edit_run (f := (insertAt · 0 (leading.take a))) rfl hinsert)]
  exact ⟨rfl, rfl⟩

theorem delete_replays_iff {s : TextAreaContent} (hs : s.WellFormed) (start end_ : ℤ)
    (notifyListeners : Bool) :
    Replays s (delete start end_ notifyListeners) ↔ DeleteReplayable s start end_ := by
  by_cases horder : end_ < start
  · refine iff_of_true (replays_of_quiet ?_) (Or.inl (by omega))
    rw [delete, Method.run_this_bind, if_pos horder]
    rfl
  by_cases hguard : start < 0 ∨ s.contentLength < end_
  · refine iff_of_true (replays_of_quiet ?_) (Or.inr (Or.inl hguard))
    rw [delete, Method.run_this_bind, if_neg horder]
    simp only [if_pos hguard]
    rfl
  by_cases hempty : end_ = start
  · refine iff_of_true (replays_of_quiet ?_) (Or.inl (by omega))
    rw [delete, Method.run_this_bind, if_neg horder]
    simp only [if_neg hguard, if_neg (show ¬ 0 < end_ - start by omega)]
    rfl
  have hlt : start < end_ := by omega
  -- the paragraph in which the range ends, and the one in which it starts
  obtain ⟨preT, trailing, post, b, hsplitT, hb, hble, hwalkT⟩ :=
    holds_of_mem hs (by omega : 0 ≤ end_) (by omega)
  have hholdsT : Holds s.paragraphs end_ preT trailing post := ⟨hsplitT, by omega, by omega⟩
  have hoffset : ((before newline preT).length : ℤ) + (trailing.length + 1) =
      (before newline (s.paragraphs.take (preT.length + 1))).length := by
    rw [hsplitT, List.take_length_add_append]
    simp
  obtain ⟨pre, leading, postL, hholdsL, hbound, hwalkL⟩ :=
    walkBackward_eq (by omega : 0 ≤ start) (show preT.length + 1 ≤ s.paragraphs.length by
      rw [hsplitT]
      simp) hoffset (by omega)
  obtain ⟨a, ha, hale⟩ := hholdsL.exists_nat
  have hcondition : DeleteReplayable s start end_ ↔
      ∃ between, preT = pre ++ leading :: between ∧ b = 0 ∧ trailing = leading := by
    constructor
    · rintro (hle | hout | ⟨pre', p', between', post', hsplit', hend', hfrom', hto'⟩)
      · exact absurd hle (by omega)
      · exact absurd hout hguard
      · have hL : Holds s.paragraphs start pre' p' (between' ++ p' :: post') :=
          ⟨hsplit', hfrom', hto'⟩
        have hT : Holds s.paragraphs end_ (pre' ++ p' :: between') p' post' := by
          refine ⟨?_, by omega, by omega⟩
          rw [hsplit', List.append_assoc, List.cons_append]
        obtain ⟨rfl, rfl, -⟩ := Holds.unique hholdsL hL
        obtain ⟨rfl, rfl, -⟩ := Holds.unique hholdsT hT
        exact ⟨between', rfl, by omega, rfl⟩
    · rintro ⟨between, rfl, rfl, rfl⟩
      refine Or.inr (Or.inr ⟨pre, trailing, between, post, ?_, by omega, by omega, by omega⟩)
      rw [hsplitT, List.append_assoc, List.cons_append]
  rw [hcondition]
  by_cases hsame : pre.length = preT.length
  · -- the paragraph has shrunk, and its old text is longer than it is now
    obtain ⟨rfl, hcons⟩ := List.append_inj (hholdsL.split.symm.trans hsplitT) hsame
    obtain ⟨rfl, rfl⟩ := List.cons.inj hcons
    obtain ⟨hcontent, hfired⟩ := delete_within_run notifyListeners hguard hlt hsplitT ha hb hble
      hwalkT hwalkL
    refine iff_of_false ?_ ?_
    · have hne : leading ≠ leading.take a ++ leading.drop b := by
        intro h
        have hlength := congrArg List.length h
        simp only [List.length_append, List.length_take, List.length_drop] at hlength
        omega
      rw [Replays, hcontent, hfired, hsplitT, List.foldlM_cons, replay_edited, if_neg hne]
      exact fun h => by cases h
    · rintro ⟨between, hpre, -⟩
      have := congrArg List.length hpre
      simp at this
  · obtain ⟨between, rfl⟩ : ∃ between, preT = pre ++ leading :: between := by
      have htake := congrArg (List.take preT.length) (hholdsL.split.symm.trans hsplitT)
      rw [List.take_left' rfl] at htake
      obtain ⟨d, hd⟩ := Nat.exists_eq_add_of_lt (show pre.length < preT.length by omega)
      rw [show preT.length = pre.length + (d + 1) by omega, List.take_length_add_append] at htake
      exact ⟨postL.take d, htake.symm⟩
    obtain ⟨hcontent, hfired⟩ := delete_across_run notifyListeners hguard hlt hsplitT ha hale hb
      hble hwalkT hwalkL
    have hfirst := replay_edited (pre ++ leading :: between) trailing (trailing.drop b)
      (trailing.drop b) post
    have hsecond := replay_eq pre (leading :: between) (leading :: between) []
      (trailing.drop b :: post) rfl
    have hthird := replay_edited pre (trailing.drop b) leading
      (leading.take a ++ trailing.drop b) post
    simp only [if_true, List.length_nil, List.nil_append, Nat.add_zero, List.cons_append]
      at hsecond
    have hwhole : trailing = trailing.drop b ↔ b = 0 := by
      constructor
      · intro h
        have hlength := congrArg List.length h
        rw [List.length_drop] at hlength
        omega
      · rintro rfl
        rfl
    rw [Replays, hcontent, hfired, hsplitT, List.foldlM_cons, hfirst]
    by_cases hb0 : b = 0
    · subst hb0
      rw [if_pos (hwhole.mpr rfl), Option.bind_eq_bind, Option.bind_some, List.foldlM_cons,
        List.append_assoc,
        List.cons_append, hsecond, Option.bind_eq_bind, Option.bind_some, List.foldlM_cons, hthird]
      by_cases htexts : trailing.drop 0 = leading
      · refine iff_of_true ?_ ⟨between, rfl, rfl, htexts⟩
        rw [if_pos htexts]
        rfl
      · refine iff_of_false ?_ fun ⟨_, _, _, h⟩ => htexts h
        rw [if_neg htexts]
        exact fun h => by cases h
    · refine iff_of_false ?_ fun ⟨_, _, h, _⟩ => hb0 h
      rw [if_neg fun h => hb0 (hwhole.mp h)]
      exact fun h => by cases h

end ObservedContent

/-! ## Both operations -/

namespace TextAreaContent.ContentOp

/-- The call, with its events. -/
def observed : ContentOp → Method ObservedContent Bool
  | .insert index text notifyListeners => ObservedContent.insert index text notifyListeners
  | .delete start end_ notifyListeners => ObservedContent.delete start end_ notifyListeners

/-- The texts that are reported as removed are those that were there. -/
def Replayable (s : TextAreaContent) : ContentOp → Prop
  | .insert index text _ => ObservedContent.InsertReplayable s index text
  | .delete start end_ _ => ObservedContent.DeleteReplayable s start end_

/-- **Replaying the events.** A copy of the paragraph list that follows the events of an operation
ends as the list does exactly when nothing is inserted or deleted, when the first line of what is
inserted is the rest of its paragraph, or when the deletion ends where a paragraph starts that has
the text of the first one. -/
theorem replays_iff {s : TextAreaContent} (hs : s.WellFormed) (op : ContentOp) :
    (op.observed.run ⟨s, []⟩).1 = (op.call.run s).1 ∧
      (op.observed.run ⟨s, []⟩).2.content = (op.call.run s).2 ∧
      (ObservedContent.Replays s op.observed ↔ op.Replayable s) := by
  cases op with
  | insert index text notifyListeners =>
      obtain ⟨hresult, hcontent⟩ :=
        ObservedContent.insert_tracks index text notifyListeners ⟨s, []⟩
      exact ⟨hresult, hcontent, ObservedContent.insert_replays_iff hs index text notifyListeners⟩
  | delete start end_ notifyListeners =>
      obtain ⟨hresult, hcontent⟩ :=
        ObservedContent.delete_tracks start end_ notifyListeners ⟨s, []⟩
      exact ⟨hresult, hcontent, ObservedContent.delete_replays_iff hs start end_ notifyListeners⟩

/-- A line break and a letter at the end of a text: the paragraph stays as it was. -/
theorem replays_new_line :
    ObservedContent.Replays ⟨[[0x61#16]], 1⟩
      (observed (.insert 1 (some [newline, 0x62#16]) true)) := by
  refine (replays_iff (s := ⟨[[0x61#16]], 1⟩) ⟨by decide, by decide⟩ _).2.2.mpr ?_
  refine Or.inr (Or.inr ⟨_, rfl, Or.inr ⟨[], [0x61#16], [], 1, rfl, rfl, by decide, ?_⟩⟩)
  exact ⟨[0x62#16], by decide, by decide⟩

/-- `"b\n"` goes out of `"ab\nc"`: the last event reports `"ab"` as removed, where `"c"` was. -/
theorem delete_reports_leading_again :
    ((TextAreaContent.insert 0 (some [0x61#16, 0x62#16, newline, 0x63#16]) true).run new).2 =
        ⟨[[0x61#16, 0x62#16], [0x63#16]], 4⟩ ∧
      ((observed (.delete 1 3 true)).run ⟨⟨[[0x61#16, 0x62#16], [0x63#16]], 4⟩, []⟩).2 =
        ⟨⟨[[0x61#16, 0x63#16]], 2⟩,
          [⟨1, 2, [[0x63#16]], [[0x61#16, 0x62#16], [0x63#16]]⟩,
            ⟨0, 0, [[0x61#16, 0x62#16]], [[0x63#16]]⟩,
            ⟨0, 1, [[0x61#16, 0x62#16]], [[0x61#16, 0x63#16]]⟩]⟩ ∧
      ¬ ObservedContent.Replays ⟨[[0x61#16, 0x62#16], [0x63#16]], 4⟩
        (observed (.delete 1 3 true)) := by
  refine ⟨by decide, by decide, by decide⟩

end TextAreaContent.ContentOp

end JavaFx.Control
