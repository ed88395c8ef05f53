import JavaFx.Control.TextAreaContent

/-!
# A text area's content is a string

The paragraphs stand for their join with line breaks. Both walks end at the paragraph that
holds the index they look for; from there each operation is an edit of one stretch of the
text around that paragraph.
-/

namespace JavaFx.Control.TextAreaContent

open Css (JString)
open Lines

/-- What the paragraphs stand for. -/
def text (s : TextAreaContent) : JString := [newline].intercalate s.paragraphs

/-- There is a paragraph, and `contentLength` is the length of the text. -/
structure WellFormed (s : TextAreaContent) : Prop where
  nonempty : s.paragraphs ≠ []
  length : s.contentLength = s.text.length

theorem WellFormed.new : WellFormed new := ⟨by decide, by decide⟩

/-! ## Finding a paragraph -/

/-- A paragraph of the list, its place and the place of its first character. -/
structure Holds (paragraphs : List JString) (index : ℤ) (pre : List JString)
    (paragraph : JString) (post : List JString) : Prop where
  split : paragraphs = pre ++ paragraph :: post
  from_le : ((before newline pre).length : ℤ) ≤ index
  le_end : index ≤ (before newline pre).length + paragraph.length

theorem length_before_eq {s : TextAreaContent} (h : s.WellFormed) :
    ((before newline s.paragraphs).length : ℤ) = s.contentLength + 1 := by
  obtain ⟨pre, last, hlast⟩ := List.eq_nil_or_concat s.paragraphs |>.resolve_left h.nonempty
  rw [h.length, text, hlast, List.concat_eq_append, intercalate_split]
  simp
  omega

/-- **The backward walk.** Started before the `k`-th paragraph it ends at the one that holds
the index. -/
theorem walkBackward_eq {paragraphs : List JString} {index : ℤ} (hindex : 0 ≤ index) :
    ∀ {k : ℕ} {offset : ℤ}, k ≤ paragraphs.length →
      offset = (before newline (paragraphs.take k)).length → index < offset →
      ∃ pre paragraph post, Holds paragraphs index pre paragraph post ∧ pre.length < k ∧
        walkBackward paragraphs index k offset =
          .ok (pre.length, (before newline pre).length) := by
  intro k
  induction k with
  | zero =>
      rintro offset - rfl hlt
      simp at hlt
      omega
  | succ k ih =>
      rintro offset hk rfl hlt
      have hget : listGet paragraphs k = .ok paragraphs[k] := by
        simp [listGet, List.getElem?_eq_getElem (show k < paragraphs.length by omega)]
      have htake : paragraphs.take (k + 1) = paragraphs.take k ++ [paragraphs[k]] :=
        (List.take_append_getElem (by omega)).symm
      have hoffset : ((before newline (paragraphs.take (k + 1))).length : ℤ) -
          (paragraphs[k].length + 1) = (before newline (paragraphs.take k)).length := by
        rw [htake, before_append, List.length_append]
        simp
      rw [walkBackward, hget, except_ok_bind]
      simp only [hoffset]
      by_cases hbelow : index < (before newline (paragraphs.take k)).length
      · rw [if_pos hbelow]
        obtain ⟨pre, paragraph, post, hholds, hpre, heq⟩ := ih (by omega) rfl hbelow
        exact ⟨pre, paragraph, post, hholds, by omega, heq⟩
      · rw [if_neg hbelow]
        have hlength : (paragraphs.take k).length = k := List.length_take_of_le (by omega)
        refine ⟨paragraphs.take k, paragraphs[k], paragraphs.drop (k + 1), ⟨?_, by omega, ?_⟩,
          by omega, by rw [hlength]; rfl⟩
        · rw [List.getElem_cons_drop, List.take_append_drop]
        · omega

/-- **The forward walk.** -/
theorem walkForward_eq : ∀ {rest : List JString} (k : ℕ) {offset : ℤ}, 0 ≤ offset →
    offset < (before newline rest).length →
    ∃ skipped paragraph post, Holds rest offset skipped paragraph post ∧
      walkForward rest k offset =
        (k + skipped.length, offset - (before newline skipped).length) := by
  intro rest
  induction rest with
  | nil =>
      intro k offset hpos hlt
      simp at hlt
      omega
  | cons paragraph rest ih =>
      intro k offset hpos hlt
      rw [walkForward]
      by_cases hhere : offset < paragraph.length + 1
      · refine ⟨[], paragraph, rest, ⟨rfl, by simpa using hpos, by simp; omega⟩, ?_⟩
        simp [hhere]
      · have hlt' : offset - (paragraph.length + 1) < (before newline rest).length := by
          simp at hlt
          omega
        obtain ⟨skipped, q, post, hholds, heq⟩ := ih (k + 1) (by omega) hlt'
        refine ⟨paragraph :: skipped, q, post, ⟨by simp [hholds.split], ?_, ?_⟩, ?_⟩
        · have := hholds.from_le
          simp
          omega
        · have := hholds.le_end
          simp
          omega
        · simp only [hhere, if_false]
          rw [heq]
          simp
          omega

theorem Holds.listGet {paragraphs : List JString} {index : ℤ} {pre post : List JString}
    {paragraph : JString} (h : Holds paragraphs index pre paragraph post) :
    listGet paragraphs pre.length = .ok paragraph := by
  simp [JavaFx.listGet, h.split]

/-- Where in its paragraph the index is. -/
theorem Holds.exists_nat {paragraphs : List JString} {index : ℤ} {pre post : List JString}
    {paragraph : JString} (h : Holds paragraphs index pre paragraph post) :
    ∃ start : ℕ, index = (before newline pre).length + start ∧ start ≤ paragraph.length := by
  have h₁ := h.from_le
  have h₂ := h.le_end
  exact ⟨(index - (before newline pre).length).toNat, by omega, by omega⟩

theorem text_eq {s : TextAreaContent} {pre post : List JString} {paragraph : JString}
    (h : s.paragraphs = pre ++ paragraph :: post) :
    s.text = before newline pre ++ (paragraph ++ after newline post) := by
  rw [text, h, intercalate_split]

theorem take_text {s : TextAreaContent} {pre post : List JString} {paragraph : JString}
    (h : s.paragraphs = pre ++ paragraph :: post) {start : ℕ} (hstart : start ≤ paragraph.length) :
    s.text.take ((before newline pre).length + start) =
      before newline pre ++ paragraph.take start := by
  rw [text_eq h, List.take_length_add_append, List.take_append_of_le_length hstart]

theorem drop_text {s : TextAreaContent} {pre post : List JString} {paragraph : JString}
    (h : s.paragraphs = pre ++ paragraph :: post) {start : ℕ} (hstart : start ≤ paragraph.length) :
    s.text.drop ((before newline pre).length + start) =
      paragraph.drop start ++ after newline post := by
  rw [text_eq h, List.drop_length_add_append, List.drop_append_of_le_length hstart]

/-! ## Editing a paragraph -/

theorem edit_run {s : TextAreaContent} {pre post : List JString} {p q : JString}
    {f : JString → Except Exn JString} (hs : s.paragraphs = pre ++ p :: post) (hf : f p = .ok q) :
    (edit pre.length f).run s = (.ok (), { s with paragraphs := pre ++ q :: post }) := by
  have hget : listGet s.paragraphs pre.length = .ok p := by simp [listGet, hs]
  rw [edit, Method.run_this_bind, hget, Method.run_lift_ok_bind, hf, Method.run_lift_ok_bind,
    Method.run_set, hs]
  simp

theorem insertAt_eq {p : JString} {start : ℕ} (h : start ≤ p.length) (str : JString) :
    insertAt p start str = .ok (p.take start ++ (str ++ p.drop start)) := by
  simp [insertAt, h]

theorem deleteRange_eq {p : JString} {start end_ : ℕ} (h : start ≤ end_) (hend : end_ ≤ p.length) :
    deleteRange p start end_ = .ok (p.take start ++ p.drop end_) := by
  have hmin : min (end_ : ℤ) p.length = end_ := by omega
  simp [deleteRange, hmin, h]

theorem substring_eq {p : JString} {start end_ : ℕ} (h : start ≤ end_) (hend : end_ ≤ p.length) :
    substring p start end_ = .ok ((p.take end_).drop start) := by
  simp [substring, h, hend]

/-! ## Inserting -/

/-- Splitting the text into lines loses nothing. -/
theorem foldl_splitLine (text : JString) (lines : List JString × JString) :
    before newline (text.foldl splitLine lines).1 ++ (text.foldl splitLine lines).2 =
      before newline lines.1 ++ (lines.2 ++ text) := by
  induction text generalizing lines with
  | nil => simp
  | cons c text ih =>
      rw [List.foldl_cons, ih, splitLine]
      by_cases hc : c = newline
      · simp [hc]
      · simp [hc]

/-- The state an insertion leaves. -/
structure Inserted (s : TextAreaContent) (index : ℤ) (str : JString) (s' : TextAreaContent) :
    Prop where
  wellFormed : s'.WellFormed
  text : s'.text = s.text.take index.toNat ++ (str ++ s.text.drop index.toNat)

theorem Inserted.of_text {s : TextAreaContent} (hs : s.WellFormed) {index : ℤ} {str : JString}
    {paragraphs : List JString} (hne : paragraphs ≠ [])
    (htext : [newline].intercalate paragraphs =
      s.text.take index.toNat ++ (str ++ s.text.drop index.toNat)) :
    Inserted s index str ⟨paragraphs, s.contentLength + str.length⟩ := by
  refine ⟨⟨hne, ?_⟩, htext⟩
  have hlength := congrArg List.length (List.take_append_drop index.toNat s.text)
  simp only [List.length_append] at hlength
  simp only [TextAreaContent.text] at htext ⊢
  rw [htext, hs.length]
  simp only [List.length_append, TextAreaContent.text] at hlength ⊢
  omega

/-- **Insertion.** An index in range and a text give the text with the filtered input at the
index. -/
theorem insert_run {s : TextAreaContent} (hs : s.WellFormed) {index : ℤ} (hpos : 0 ≤ index)
    (hle : index ≤ s.contentLength) (str : JString) (notifyListeners : Bool) :
    ∃ s', (insert index (some str) notifyListeners).run s =
        (.ok (notifyListeners && !(filterInput str false false).isEmpty), s') ∧
      Inserted s index (filterInput str false false) s' := by
  have hguard : ¬ (index < 0 ∨ s.contentLength < index) := by omega
  obtain ⟨pre, paragraph, post, hholds, -, hwalk⟩ := walkBackward_eq hpos (le_refl _)
    (by rw [List.take_length]) (show index < (before newline s.paragraphs).length by
      have := length_before_eq hs
      omega)
  rw [length_before_eq hs] at hwalk
  obtain ⟨start, hindex, hstart⟩ := hholds.exists_nat
  have hnat : index.toNat = (before newline pre).length + start := by omega
  have hoff : index - (before newline pre).length = (start : ℤ) := by omega
  have hbefore := take_text hholds.split hstart
  have hafter := drop_text hholds.split hstart
  rw [← hnat] at hbefore hafter
  rw [insert, Method.run_this_bind, if_neg hguard]
  simp only []
  generalize filterInput str false false = filtered
  have hsplit := foldl_splitLine filtered ([], [])
  generalize filtered.foldl splitLine ([], []) = lines at hsplit ⊢
  obtain ⟨closed, line⟩ := lines
  simp only [before_nil, List.nil_append] at hsplit
  by_cases hlength : 0 < filtered.length
  · have hempty : filtered.isEmpty = false := by
      cases filtered with
      | nil => simp at hlength
      | cons c cs => rfl
    rw [if_pos hlength, hwalk]
    simp only [Method.run_lift_ok_bind, hoff, hempty, Bool.not_false, Bool.and_true]
    cases closed with
    | nil =>
        -- a single line goes into the paragraph
        rw [Method.run_bind_ok (edit_run hholds.split (insertAt_eq hstart line))]
        refine ⟨_, rfl, Inserted.of_text hs (by simp) ?_⟩
        rw [before_nil, List.nil_append] at hsplit
        rw [intercalate_split, hbefore, hafter, hsplit]
        simp
    | cons first middle =>
        -- the paragraph is split; what follows the index moves behind the last line
        have hdelete : deleteRange paragraph start paragraph.length =
            .ok (paragraph.take start) := by
          rw [deleteRange_eq hstart (le_refl _)]
          simp
        have hinsert : insertAt (paragraph.take start) start first =
            .ok (paragraph.take start ++ first) := by
          have hlen : (paragraph.take start).length = start := List.length_take_of_le hstart
          rw [insertAt_eq (by omega)]
          simp [List.drop_eq_nil_of_le (le_of_eq hlen)]
        rw [hholds.listGet, Method.run_lift_ok_bind,
          substring_eq hstart (le_refl _), Method.run_lift_ok_bind,
          Method.run_bind_ok (edit_run hholds.split hdelete),
          Method.run_bind_ok (edit_run (f := (insertAt · start first)) rfl hinsert)]
        refine ⟨_, rfl, ?_⟩
        have htake : (pre ++ (paragraph.take start ++ first) :: post).take (pre.length + 1) =
            pre ++ [paragraph.take start ++ first] := by
          rw [List.take_length_add_append]
          rfl
        have hdrop : (pre ++ (paragraph.take start ++ first) :: post).drop (pre.length + 1) =
            post := by
          rw [List.drop_length_add_append]
          rfl
        simp only [htake, hdrop, List.take_length]
        refine Inserted.of_text hs (by simp) ?_
        have hlines := append_after newline first middle (line ++ paragraph.drop start)
        rw [List.append_assoc, List.singleton_append, intercalate_split, after_append,
          hbefore, hafter, ← hsplit]
        simp only [List.append_assoc] at hlines ⊢
        rw [← List.append_assoc first, hlines]
        simp
  · have hnil : filtered = [] := List.eq_nil_of_length_eq_zero (by omega)
    rw [if_neg hlength, hnil]
    refine ⟨s, by simp, hs, by simp⟩

/-! ## Deleting -/

/-- The state a deletion leaves. -/
structure Deleted (s : TextAreaContent) (start end_ : ℤ) (s' : TextAreaContent) : Prop where
  wellFormed : s'.WellFormed
  text : s'.text = s.text.take start.toNat ++ s.text.drop end_.toNat

theorem Deleted.of_text {s : TextAreaContent} (hs : s.WellFormed) {start end_ : ℤ}
    (hpos : 0 ≤ start) (hle : start ≤ end_) (hend : end_ ≤ s.contentLength)
    {paragraphs : List JString} (hne : paragraphs ≠ [])
    (htext : [newline].intercalate paragraphs =
      s.text.take start.toNat ++ s.text.drop end_.toNat) :
    Deleted s start end_ ⟨paragraphs, s.contentLength - (end_ - start)⟩ := by
  have hlength := hs.length
  refine ⟨⟨hne, ?_⟩, htext⟩
  simp only [TextAreaContent.text] at htext hlength ⊢
  rw [htext]
  simp only [List.length_append, List.length_take, List.length_drop]
  omega

/-- **Deletion.** A range of the text is cut out. -/
theorem delete_run {s : TextAreaContent} (hs : s.WellFormed) {start end_ : ℤ}
    (hpos : 0 ≤ start) (hle : start ≤ end_) (hend : end_ ≤ s.contentLength)
    (notifyListeners : Bool) :
    ∃ s', (delete start end_ notifyListeners).run s =
        (.ok (notifyListeners && decide (start < end_)), s') ∧ Deleted s start end_ s' := by
  have hguard₁ : ¬ end_ < start := by omega
  have hguard₂ : ¬ (start < 0 ∨ s.contentLength < end_) := by omega
  rw [delete, Method.run_this_bind, if_neg hguard₁, if_neg hguard₂]
  simp only []
  by_cases hlength : 0 < end_ - start
  · rw [if_pos hlength]
    have hlt : start < end_ := by omega
    simp only [hlt, decide_true, Bool.and_true]
    -- the paragraph the range ends in
    obtain ⟨preT, trailing, postT, hT, -, hwalkT⟩ :=
      walkBackward_eq (by omega : 0 ≤ end_) (le_refl _) (by rw [List.take_length])
        (show end_ < (before newline s.paragraphs).length by
          have := length_before_eq hs
          omega)
    rw [length_before_eq hs] at hwalkT
    rw [hwalkT]
    simp only [Method.run_lift_ok_bind, hT.listGet]
    -- the paragraph it starts in, at most as far
    have hoffset : ((before newline preT).length : ℤ) + (trailing.length + 1) =
        (before newline (s.paragraphs.take (preT.length + 1))).length := by
      rw [hT.split, List.take_length_add_append]
      simp
    obtain ⟨pre, leading, post, hL, hbound, hwalkL⟩ :=
      walkBackward_eq hpos (show preT.length + 1 ≤ s.paragraphs.length by
        rw [hT.split]; simp) hoffset (by have := hT.le_end; omega)
    rw [hwalkL]
    simp only [Method.run_lift_ok_bind]
    obtain ⟨a, ha, ha'⟩ := hL.exists_nat
    obtain ⟨b, hb, hb'⟩ := hT.exists_nat
    have hbefore := take_text hL.split ha'
    have hafter := drop_text hT.split hb'
    rw [show (before newline pre).length + a = start.toNat by omega] at hbefore
    rw [show (before newline preT).length + b = end_.toNat by omega] at hafter
    by_cases hsame : pre.length = preT.length
    · rw [if_pos hsame]
      obtain ⟨rfl, hcons⟩ := List.append_inj (hL.split.symm.trans hT.split) hsame
      obtain ⟨rfl, rfl⟩ := List.cons.inj hcons
      have hdelete : deleteRange leading (start - (before newline pre).length)
          (end_ - (before newline pre).length) = .ok (leading.take a ++ leading.drop b) := by
        rw [show start - (before newline pre).length = (a : ℤ) by omega,
          show end_ - (before newline pre).length = (b : ℤ) by omega,
          deleteRange_eq (by omega) hb']
      rw [Method.run_bind_ok (edit_run hL.split hdelete)]
      refine ⟨_, rfl, Deleted.of_text hs hpos hle hend (by simp) ?_⟩
      rw [intercalate_split, hbefore, hafter]
      simp
    · rw [if_neg hsame]
      -- the leading paragraph lies before the trailing one
      obtain ⟨between, hbetween⟩ : ∃ between, preT = pre ++ leading :: between := by
        have htake := congrArg (List.take preT.length) (hL.split.symm.trans hT.split)
        rw [List.take_left' rfl] at htake
        obtain ⟨d, hd⟩ := Nat.exists_eq_add_of_lt (show pre.length < preT.length by omega)
        rw [show preT.length = pre.length + (d + 1) by omega, List.take_length_add_append]
          at htake
        exact ⟨post.take d, htake.symm⟩
      have hsegment : substring leading 0 (start - (before newline pre).length) =
          .ok (leading.take a) := by
        have := substring_eq (p := leading) (Nat.zero_le a) ha'
        rw [show start - (before newline pre).length = (a : ℤ) by omega]
        simpa using this
      have hdelete : deleteRange trailing 0 (start + (end_ - start) -
          (before newline preT).length) = .ok (trailing.drop b) := by
        have := deleteRange_eq (p := trailing) (Nat.zero_le b) hb'
        rw [show start + (end_ - start) - (before newline preT).length = (b : ℤ) by omega]
        simpa using this
      have hinsert : insertAt (trailing.drop b) 0 (leading.take a) =
          .ok (leading.take a ++ trailing.drop b) := by
        simpa using insertAt_eq (Nat.zero_le (trailing.drop b).length) (leading.take a)
      have hcut : (preT ++ trailing.drop b :: postT).take pre.length ++
          (preT ++ trailing.drop b :: postT).drop preT.length =
            pre ++ trailing.drop b :: postT := by
        rw [List.drop_left, hbetween, List.append_assoc, List.take_left]
      simp only [hL.listGet, Method.run_lift_ok_bind, hsegment]
      rw [Method.run_bind_ok (edit_run hT.split hdelete), Method.run_modify_bind]
      simp only [hcut]
      rw [Method.run_bind_ok (edit_run (f := (insertAt · 0 (leading.take a))) rfl hinsert)]
      refine ⟨_, rfl, Deleted.of_text hs hpos hle hend (by simp) ?_⟩
      rw [intercalate_split, hbefore, hafter]
      simp
  · have heq : end_ = start := by omega
    rw [if_neg hlength, heq]
    exact ⟨s, by simp, hs, by simp⟩

/-! ## Reading -/

/-- The reading loop copies the text from where it stands. -/
theorem readOn_eq {s : TextAreaContent} : ∀ {todo : ℕ} {i : ℤ} {pre post : List JString}
    {paragraph : JString} {offset : ℕ} (textBuilder : JString),
    s.paragraphs = pre ++ paragraph :: post → offset ≤ paragraph.length →
    todo ≤ (paragraph.drop offset ++ after newline post).length →
    i + todo ≤ s.contentLength →
    s.readOn todo i paragraph pre.length offset textBuilder =
      .ok (textBuilder ++ (paragraph.drop offset ++ after newline post).take todo) := by
  intro todo
  induction todo with
  | zero =>
      intro i pre post paragraph offset textBuilder hs hoffset htodo hi
      simp [readOn]
  | succ todo ih =>
      intro i pre post paragraph offset textBuilder hs hoffset htodo hi
      rw [readOn]
      by_cases hlast : offset = paragraph.length
      · -- the paragraph is read: the line break and the next paragraph follow
        have hdrop : paragraph.drop offset = [] := List.drop_eq_nil_of_le (by omega)
        rw [if_pos ⟨by omega, by omega⟩]
        cases post with
        | nil => simp [hdrop] at htodo
        | cons next post =>
            have hget : listGet s.paragraphs (pre.length + 1) = .ok next := by
              rw [listGet, hs, List.getElem?_append_right (by omega)]
              simp
            rw [hdrop] at htodo ⊢
            rw [hget, except_ok_bind]
            have := ih (i := i + 1) (textBuilder ++ [newline])
              (show s.paragraphs = (pre ++ [paragraph]) ++ next :: post by simp [hs])
              (Nat.zero_le _) (by simp at htodo ⊢; omega) (by push_cast at hi; omega)
            rw [List.length_append, List.length_singleton] at this
            simpa using this
      · have hchar : charAt paragraph offset = .ok (paragraph[offset]) := by
          simp [charAt, List.getElem?_eq_getElem (show offset < paragraph.length by omega)]
        have hdrop : paragraph.drop offset = paragraph[offset] :: paragraph.drop (offset + 1) :=
          List.drop_eq_getElem_cons (by omega)
        rw [if_neg (by omega), hchar, except_ok_bind]
        have := ih (i := i + 1) (textBuilder ++ [paragraph[offset]]) hs
          (show offset + 1 ≤ paragraph.length by omega) (by rw [hdrop] at htodo; simp at htodo ⊢; omega) (by push_cast at hi; omega)
        rw [hdrop, List.cons_append, List.take_succ_cons]
        simpa using this

/-- **Reading.** A range of the text is its substring. -/
theorem get_eq {s : TextAreaContent} (hs : s.WellFormed) {start end_ : ℤ}
    (hpos : 0 ≤ start) (hle : start ≤ end_) (hend : end_ ≤ s.contentLength) :
    s.get start end_ = .ok ((s.text.take end_.toNat).drop start.toNat) := by
  obtain ⟨pre, paragraph, post, hholds, hwalk⟩ := walkForward_eq 0 hpos
    (show start < (before newline s.paragraphs).length by
      have := length_before_eq hs
      omega)
  rw [Nat.zero_add] at hwalk
  obtain ⟨offset, hoffset, hoffset'⟩ := hholds.exists_nat
  rw [get, if_neg (by omega), hwalk]
  simp only []
  rw [hholds.listGet, except_ok_bind,
    show start - (before newline pre).length = (offset : ℤ) by omega]
  have hafter := drop_text hholds.split hoffset'
  rw [show (before newline pre).length + offset = start.toNat by omega] at hafter
  have hlength := hs.length
  rw [readOn_eq [] hholds.split hoffset' (by rw [← hafter, List.length_drop]; omega) (by omega),
    ← hafter, List.nil_append, List.drop_take, show (end_ - start).toNat =
      end_.toNat - start.toNat by omega]

/-! ## Whole runs -/

/-- A call of the content. -/
inductive ContentOp where
  | insert (index : ℤ) (text : Option JString) (notifyListeners : Bool)
  | delete (start end_ : ℤ) (notifyListeners : Bool)

def ContentOp.call : ContentOp → Method TextAreaContent Bool
  | .insert index text notifyListeners => TextAreaContent.insert index text notifyListeners
  | .delete start end_ notifyListeners => TextAreaContent.delete start end_ notifyListeners

/-- The content after a sequence of calls, whatever became of each. -/
def afterCalls (calls : List ContentOp) : TextAreaContent :=
  calls.foldl (fun s op => (op.call.run s).2) new

/-- The arguments are in range for a text of this length. -/
def ContentOp.Accepted (length : ℕ) : ContentOp → Prop
  | .insert index text _ => 0 ≤ index ∧ index ≤ length ∧ text.isSome
  | .delete start end_ _ => 0 ≤ start ∧ start ≤ end_ ∧ end_ ≤ length

/-- What a call does to the string. -/
def ContentOp.onString : ContentOp → JString → JString
  | .insert index (some str) _, t =>
    t.take index.toNat ++ (filterInput str false false ++ t.drop index.toNat)
  | .insert _ none _, t => t
  | .delete start end_ _, t => t.take start.toNat ++ t.drop end_.toNat

theorem call_accepted {s : TextAreaContent} (hs : s.WellFormed) (op : ContentOp)
    (h : op.Accepted s.text.length) :
    ∃ fired s', op.call.run s = (.ok fired, s') ∧ s'.WellFormed ∧
      s'.text = op.onString s.text := by
  have hlength := hs.length
  cases op with
  | insert index text notifyListeners =>
      obtain ⟨hpos, hle, htext⟩ := h
      obtain ⟨str, rfl⟩ := Option.isSome_iff_exists.mp htext
      obtain ⟨s', hrun, hs'⟩ := insert_run hs hpos (by omega) str notifyListeners
      exact ⟨_, s', hrun, hs'.wellFormed, hs'.text⟩
  | delete start end_ notifyListeners =>
      obtain ⟨hpos, hle, hend⟩ := h
      obtain ⟨s', hrun, hs'⟩ := delete_run hs hpos hle (by omega) notifyListeners
      exact ⟨_, s', hrun, hs'.wellFormed, hs'.text⟩

/-- A call with other arguments throws before it changes anything. -/
theorem call_rejected {s : TextAreaContent} (hs : s.WellFormed) {op : ContentOp}
    (h : ¬ op.Accepted s.text.length) : ∃ e, op.call.run s = (.error e, s) := by
  have hlength := hs.length
  cases op with
  | insert index text notifyListeners =>
      rw [ContentOp.call, insert, Method.run_this_bind]
      by_cases hguard : index < 0 ∨ s.contentLength < index
      · rw [if_pos hguard]
        exact ⟨_, rfl⟩
      · rw [if_neg hguard]
        cases text with
        | none => exact ⟨_, rfl⟩
        | some str => exact absurd ⟨by omega, by omega, rfl⟩ h
  | delete start end_ notifyListeners =>
      rw [ContentOp.call, delete, Method.run_this_bind]
      by_cases horder : end_ < start
      · rw [if_pos horder]
        exact ⟨_, rfl⟩
      · rw [if_neg horder]
        by_cases hguard : start < 0 ∨ s.contentLength < end_
        · rw [if_pos hguard]
          exact ⟨_, rfl⟩
        · exact absurd ⟨by omega, by omega, by omega⟩ h

/-- One call keeps the invariant, returning or not. -/
theorem WellFormed.call {s : TextAreaContent} (hs : s.WellFormed) (op : ContentOp) :
    (op.call.run s).2.WellFormed := by
  by_cases h : op.Accepted s.text.length
  · obtain ⟨fired, s', hrun, hs', -⟩ := call_accepted hs op h
    rw [hrun]
    exact hs'
  · obtain ⟨e, he⟩ := call_rejected hs h
    rw [he]
    exact hs

theorem WellFormed.afterCalls (calls : List ContentOp) : (afterCalls calls).WellFormed := by
  induction calls using List.reverseRecOn with
  | nil => exact WellFormed.new
  | append_singleton calls op ih =>
      rw [TextAreaContent.afterCalls, List.foldl_concat]
      exact ih.call op

end JavaFx.Control.TextAreaContent
