import JavaFx.Fxml.KeyPathLexing
import JavaFx.Fxml.OperatorStack

/-!
# Reading printed tokens

A printed token is read up to the space after it. Three things go wrong: a variable that begins
with a keyword is split after it, the exponent of a double has no sign, and a variable at the end
of the text that is the beginning of a keyword takes one more unit from the pushback buffer, where
an earlier `readKeyword` has left it.
-/

namespace JavaFx.Fxml

variable {R : Type} {lang : Lang R}

/-! ## Keywords -/

/-- The keyword `readToken` tries for a first unit, and its value. -/
def keyword? (c : UInt16) : Option (List UInt16 × Value R) :=
  if c == unit 'n' then some (units "null", .null)
  else if c == unit 't' then some (units "true", .bool true)
  else if c == unit 'f' then some (units "false", .bool false)
  else none

/-- The keyword a text is compared with. -/
def keywordOf (text : List UInt16) : Option (List UInt16) :=
  (text.head?.bind (keyword? (R := Unit))).map Prod.fst

theorem keywordOf_cons (c : UInt16) (w : List UInt16) :
    keywordOf (c :: w) = (keyword? (R := R) c).map Prod.fst := by
  unfold keywordOf keyword?
  rw [List.head?_cons, Option.bind_some]
  split_ifs <;> rfl

theorem keyword?_cases {c : UInt16} {kw : List UInt16} {v : Value R}
    (h : keyword? c = some (kw, v)) :
    (c = unit 'n' ∧ kw = units "null" ∧ v = .null) ∨
      (c = unit 't' ∧ kw = units "true" ∧ v = .bool true) ∨
        (c = unit 'f' ∧ kw = units "false" ∧ v = .bool false) := by
  unfold keyword? at h
  split_ifs at h with hn ht hf
  · injection Option.some.inj h with hk hv
    exact Or.inl ⟨beq_iff_eq.mp hn, hk.symm, hv.symm⟩
  · injection Option.some.inj h with hk hv
    exact Or.inr (Or.inl ⟨beq_iff_eq.mp ht, hk.symm, hv.symm⟩)
  · injection Option.some.inj h with hk hv
    exact Or.inr (Or.inr ⟨beq_iff_eq.mp hf, hk.symm, hv.symm⟩)

/-- Keywords are letters, at most five of them. -/
theorem keyword?_letters {c : UInt16} {kw : List UInt16} {v : Value R}
    (h : keyword? c = some (kw, v)) :
    kw.length ≤ 5 ∧ kw.head? = some c ∧ ∀ d ∈ kw, 97 ≤ d ∧ d ≤ 122 := by
  have hletters : ∀ kw ∈ [units "null", units "true", units "false"],
      kw.length ≤ 5 ∧ kw.all fun d => decide (97 ≤ d ∧ d ≤ 122) := by
    decide +kernel
  have hkw : kw ∈ [units "null", units "true", units "false"] ∧ kw.head? = some c := by
    rcases keyword?_cases h with ⟨rfl, rfl, -⟩ | ⟨rfl, rfl, -⟩ | ⟨rfl, rfl, -⟩
    · exact ⟨List.mem_cons_self, rfl⟩
    · exact ⟨List.mem_cons_of_mem _ List.mem_cons_self, rfl⟩
    · exact ⟨List.mem_cons_of_mem _ (List.mem_cons_of_mem _ List.mem_cons_self), rfl⟩
  obtain ⟨hlength, hall⟩ := hletters kw hkw.1
  exact ⟨hlength, hkw.2, fun d hd => of_decide_eq_true (List.all_eq_true.mp hall d hd)⟩

/-- What reading a text as a keyword leaves at a place of the buffer. -/
def noted : List UInt16 → List UInt16 → ℕ → Option UInt16
  | _ :: _, c :: _, 0 => some c
  | k :: keyword, c :: reader, j + 1 => if k = c then noted keyword reader j else none
  | _, _, _ => none

theorem readKeywordFrom_true {keyword r : List UInt16} (i : ℕ) (buffer : List UInt16) :
    (readKeywordFrom i keyword (keyword ++ r) buffer).1 = (true, r) := by
  induction keyword generalizing i buffer with
  | nil => rfl
  | cons k keyword ih =>
      have hk : ¬(k != k) = true := by rw [bne_self_eq_false]; exact Bool.false_ne_true
      rw [List.cons_append, readKeywordFrom, if_neg hk]
      exact ih _ _

theorem take_set_succ {i : ℕ} {buffer : List UInt16} (hi : i < buffer.length) (c : UInt16) :
    (buffer.set i c).take (i + 1) = buffer.take i ++ [c] := by
  rw [List.take_succ_eq_append_getElem (by rwa [List.length_set]), List.getElem_set_self,
    List.take_set, List.set_eq_of_length_le]
  exact List.length_take_le _ _

/-- A text that is neither a keyword nor the beginning of one is put back. -/
theorem readKeywordFrom_false {keyword reader : List UInt16} (hk : ¬keyword <+: reader)
    (hr : ¬reader <+: keyword) {i : ℕ} {buffer : List UInt16}
    (hi : i + keyword.length ≤ buffer.length) :
    (readKeywordFrom i keyword reader buffer).1 = (false, buffer.take i ++ reader) := by
  induction keyword generalizing i reader buffer with
  | nil => exact absurd List.nil_prefix hk
  | cons k keyword ih =>
      rcases reader with _ | ⟨c, reader⟩
      · exact absurd List.nil_prefix hr
      have hlt : i < buffer.length := by
        rw [List.length_cons] at hi
        omega
      rw [readKeywordFrom]
      by_cases hkc : k = c
      · have hk' : ¬(k != c) = true := by rw [hkc, bne_self_eq_false]; exact Bool.false_ne_true
        rw [if_neg hk']
        rw [hkc] at hk hr
        have hlen : i + 1 + keyword.length ≤ (buffer.set i c).length := by
          rw [List.length_set]
          rw [List.length_cons] at hi
          omega
        have hrec := ih (fun hp => hk (List.cons_prefix_cons.mpr ⟨rfl, hp⟩))
          (fun hp => hr (List.cons_prefix_cons.mpr ⟨rfl, hp⟩)) hlen
        rw [hrec, take_set_succ hlt, List.append_assoc, List.singleton_append]
      · rw [if_pos (bne_iff_ne.mpr hkc), take_set_succ hlt, List.append_assoc, List.singleton_append]

/-- The beginning of a keyword at the end of the text takes an old unit along. -/
theorem readKeywordFrom_cut {keyword reader : List UInt16} (hr : reader <+: keyword)
    (hne : reader ≠ keyword) {i : ℕ} {buffer : List UInt16} {u : UInt16}
    (hu : buffer[i + reader.length]? = some u) :
    (readKeywordFrom i keyword reader buffer).1 = (false, buffer.take i ++ reader ++ [u]) := by
  induction keyword generalizing i reader buffer with
  | nil => exact absurd (List.prefix_nil.mp hr) hne
  | cons k keyword ih =>
      rcases reader with _ | ⟨c, reader⟩
      · obtain ⟨hlt, rfl⟩ := List.getElem?_eq_some_iff.mp hu
        rw [readKeywordFrom, List.append_nil]
        exact congrArg (Prod.mk false) (List.take_succ_eq_append_getElem hlt)
      obtain ⟨rfl, hr'⟩ := List.cons_prefix_cons.mp hr
      have hlt : i < buffer.length := by
        obtain ⟨hlt, -⟩ := List.getElem?_eq_some_iff.mp hu
        omega
      have hk' : ¬(c != c) = true := by rw [bne_self_eq_false]; exact Bool.false_ne_true
      have hu' : (buffer.set i c)[i + 1 + reader.length]? = some u := by
        rw [List.getElem?_set_ne (by omega), ← hu, List.length_cons]
        congr 1
        omega
      rw [readKeywordFrom, if_neg hk', ih hr' (fun heq => hne (heq ▸ rfl)) hu', take_set_succ hlt]
      simp only [List.append_assoc, List.cons_append, List.nil_append]

/-- What is noted stays in the buffer. -/
theorem readKeywordFrom_buffer {keyword : List UInt16} (reader : List UInt16) {i : ℕ}
    {buffer : List UInt16} (hi : i + keyword.length ≤ buffer.length) :
    (readKeywordFrom i keyword reader buffer).2.length = buffer.length ∧
      (∀ j < i, (readKeywordFrom i keyword reader buffer).2[j]? = buffer[j]?) ∧
        ∀ j, (readKeywordFrom i keyword reader buffer).2[i + j]? =
          (noted keyword reader j).or buffer[i + j]? := by
  induction keyword generalizing i reader buffer with
  | nil => exact ⟨rfl, fun _ _ => rfl, fun _ => rfl⟩
  | cons k keyword ih =>
      rcases reader with _ | ⟨c, reader⟩
      · exact ⟨rfl, fun _ _ => rfl, fun _ => rfl⟩
      rw [List.length_cons] at hi
      have hlt : i < buffer.length := by omega
      have hset : (buffer.set i c)[i]? = some c := List.getElem?_set_self hlt
      by_cases hkc : k = c
      · have hk' : ¬(k != c) = true := by rw [hkc, bne_self_eq_false]; exact Bool.false_ne_true
        have hlen : i + 1 + keyword.length ≤ (buffer.set i c).length := by
          rw [List.length_set]
          omega
        obtain ⟨hlength, hbefore, hafter⟩ := ih reader hlen
        rw [readKeywordFrom, if_neg hk']
        refine ⟨by rw [hlength, List.length_set], fun j hj => ?_, fun j => ?_⟩
        · rw [hbefore j (by omega), List.getElem?_set_ne (by omega)]
        · rcases j with _ | j
          · exact (hbefore i (Nat.lt_succ_self i)).trans hset
          · have hj := hafter j
            rw [List.getElem?_set_ne (by omega), Nat.add_right_comm i 1 j] at hj
            rw [noted, if_pos hkc]
            exact hj
      · rw [readKeywordFrom, if_pos (bne_iff_ne.mpr hkc)]
        refine ⟨List.length_set, fun j hj => List.getElem?_set_ne (by omega), fun j => ?_⟩
        rcases j with _ | j
        · exact hset
        · rw [noted, if_neg hkc]
          exact List.getElem?_set_ne (by omega)

/-- The unit a printed leaf leaves at a place of the buffer, if a space follows it. -/
def written (j : ℕ) (text : List UInt16) : Option UInt16 :=
  (keywordOf text).bind fun keyword => noted keyword (text ++ [unit ' ']) j

/-- The unit that is at a place of the buffer after some leaves. -/
def lastWritten (j : ℕ) (texts : List (List UInt16)) : Option UInt16 :=
  texts.foldl (fun last text => (written j text).or last) none

theorem lastWritten_concat (j : ℕ) (texts : List (List UInt16)) (text : List UInt16) :
    lastWritten j (texts ++ [text]) = (written j text).or (lastWritten j texts) := by
  rw [lastWritten, List.foldl_append]
  rfl

/-- The buffer after the leaves with these texts. -/
def Buffered (buffer : List UInt16) (texts : List (List UInt16)) : Prop :=
  buffer.length = pushbackBufferSize ∧
    ∀ j < pushbackBufferSize, buffer[j]? = some ((lastWritten j texts).getD 0)

theorem noted_space {keyword : List UInt16} (hk : ∀ d ∈ keyword, 97 ≤ d ∧ d ≤ 122)
    (text rest : List UInt16) (j : ℕ) :
    noted keyword (text ++ unit ' ' :: rest) j = noted keyword (text ++ [unit ' ']) j := by
  induction text generalizing keyword j with
  | nil =>
      rcases keyword with _ | ⟨k, keyword⟩
      · rcases j with _ | j <;> rfl
      have hne : k ≠ unit ' ' := by
        rintro rfl
        exact absurd (hk _ List.mem_cons_self) (by decide)
      rcases j with _ | j
      · rfl
      · rw [List.nil_append, List.nil_append, noted, noted, if_neg hne, if_neg hne]
  | cons c text ih =>
      rcases keyword with _ | ⟨k, keyword⟩
      · rcases j with _ | j <;> rfl
      rcases j with _ | j
      · rfl
      · rw [List.cons_append, List.cons_append, noted, noted,
          ih fun d hd => hk d (List.mem_cons_of_mem _ hd)]

theorem Buffered.readKeyword {buffer : List UInt16} {texts : List (List UInt16)}
    (h : Buffered buffer texts) {c : UInt16} {kw : List UInt16} {v : Value R}
    (hkw : keyword? c = some (kw, v)) (w rest : List UInt16) :
    Buffered (readKeyword kw (c :: w ++ unit ' ' :: rest) buffer).2 (texts ++ [c :: w]) := by
  obtain ⟨hlen, -, hletters⟩ := keyword?_letters hkw
  have hsize : 0 + kw.length ≤ buffer.length := by
    rw [h.1, Nat.zero_add]
    exact hlen.trans (by decide)
  obtain ⟨hlength, -, hplaces⟩ :=
    readKeywordFrom_buffer (c :: w ++ unit ' ' :: rest) hsize
  refine ⟨hlength.trans h.1, fun j hj => ?_⟩
  have hplace := hplaces j
  rw [Nat.zero_add, h.2 j hj, noted_space hletters] at hplace
  rw [Fxml.readKeyword, hplace, lastWritten_concat, written, keywordOf_cons (R := R), hkw,
    Option.map_some, Option.bind_some]
  cases noted kw (c :: w ++ [unit ' ']) j <;> rfl

theorem Buffered.of_not_keyword {buffer : List UInt16} {texts : List (List UInt16)}
    (h : Buffered buffer texts) {text : List UInt16} (hkw : keywordOf text = none) :
    Buffered buffer (texts ++ [text]) := by
  refine ⟨h.1, fun j hj => ?_⟩
  rw [lastWritten_concat, written, hkw]
  exact h.2 j hj

theorem buffered_nil : Buffered (List.replicate pushbackBufferSize 0) [] := by
  refine ⟨List.length_replicate, fun j hj => ?_⟩
  rw [List.getElem?_replicate, if_pos hj]
  rfl

end JavaFx.Fxml
