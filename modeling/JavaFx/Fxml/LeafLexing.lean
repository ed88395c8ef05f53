import JavaFx.Fxml.TokenLexing

/-!
# Reading printed leaves and operators

`ReadsAs` says that a printed text is read as a token and the tokenizer goes on after it. A leaf
that does not come back is read as another leaf, or not at all.
-/

namespace JavaFx.Fxml

variable {R : Type} {lang : Lang R}

/-! ## Leaves -/

/-- The literals and variables of the language. -/
def Leaf.Writable (lang : Lang R) : Leaf R → Prop
  | .literal (.long n) => n < 2 ^ 63
  | .literal (.double d) => IsDecimal (lang.doubleToString d)
  | .literal _ => True
  | .variable keyPath => lang.IsKeyPath keyPath

/-- The leaves that come back before a space: doubles without a minus in the exponent, and variables
whose first key does not begin with a keyword, without a `]` late in a quoted key. -/
def Leaf.IsRead (lang : Lang R) : Leaf R → Prop
  | .literal (.double d) => unit '-' ∉ lang.doubleToString d
  | .literal _ => True
  | .variable [] => True
  | .variable (first :: keys) =>
      (∀ keyword ∈ keywordOf first, ¬keyword <+: first) ∧ ∀ key ∈ keys, lang.KeyIsRead key

/-- A proper beginning of the keyword it is compared with. -/
def IsCut (text : List UInt16) : Prop :=
  ∃ keyword ∈ keywordOf text, text <+: keyword ∧ text ≠ keyword

/-- A printed text before `k` is read as a token, and the tokenizer goes on with what follows. -/
def ReadsAs (lang : Lang R) (unary : Bool) (buffer : List UInt16)
    (texts : List (List UInt16)) (text k : List UInt16) (token : Token R) : Prop :=
  ∃ c w r buffer', text = c :: w ∧ lang.isWhitespace c = false ∧
    readToken lang unary buffer c (w ++ k) = .ok ((token, r), buffer') ∧
      r.dropWhile lang.isWhitespace = k.dropWhile lang.isWhitespace ∧
        (k ≠ [] → Buffered buffer' texts)

theorem Boundary.eq_cons {k : List UInt16} (hk : Boundary k) (hne : k ≠ []) :
    ∃ rest, k = unit ' ' :: rest := by
  rcases k with _ | ⟨c, rest⟩
  · exact absurd rfl hne
  · exact ⟨rest, by rw [hk c rfl]⟩

/-! ## The branches of `readToken` -/

theorem readToken_keyword (h : lang.Documented) {c : UInt16} {kw : List UInt16} {v : Value R}
    (hkw : keyword? c = some (kw, v)) (unary : Bool) (buffer rest : List UInt16) :
    readToken lang unary buffer c rest = readKeywordToken lang kw v (c :: rest) buffer := by
  have hdigit : ∀ d : UInt16, d < 128 → (asciiDigit 10 d).isSome = false → ¬lang.isDigit d = true := by
    intro d hd hnone
    rw [h.digit_unit hd, hnone]
    exact Bool.false_ne_true
  rcases keyword?_cases hkw with ⟨rfl, rfl, rfl⟩ | ⟨rfl, rfl, rfl⟩ | ⟨rfl, rfl, rfl⟩
  · exact if_pos (beq_self_eq_true _)
  · rw [readToken, if_neg (by decide), if_neg (by decide), if_neg (hdigit _ (by decide) (by decide)),
      if_pos (beq_self_eq_true _)]
  · rw [readToken, if_neg (by decide), if_neg (by decide), if_neg (hdigit _ (by decide) (by decide)),
      if_neg (by decide), if_pos (beq_self_eq_true _)]

theorem keyword?_none_cases {c : UInt16} (hkw : keyword? (R := R) c = none) :
    ¬(c == unit 'n') = true ∧ ¬(c == unit 't') = true ∧ ¬(c == unit 'f') = true := by
  unfold keyword? at hkw
  split_ifs at hkw with hn ht hf
  exact ⟨hn, ht, hf⟩

theorem readToken_variable (h : lang.Documented) {c : UInt16}
    (hc : lang.isJavaIdentifierStart c = true) (hkw : keyword? (R := R) c = none)
    (unary : Bool) (buffer rest : List UInt16) :
    readToken lang unary buffer c rest =
      (readVariable lang (c :: rest)).bind fun token => .ok (token, buffer) := by
  obtain ⟨hn, ht, hf⟩ := keyword?_none_cases hkw
  have hquote : ¬(c == unit '"' || c == unit '\'') = true := by
    rw [Bool.or_eq_true, beq_iff_eq, beq_iff_eq]
    rintro (rfl | rfl)
    · exact h.start_ne hc (by decide) (by decide) rfl
    · exact h.start_ne hc (by decide) (by decide) rfl
  have hdigit : ¬lang.isDigit c = true := by
    intro hd
    rw [h.not_start_of_digit c hd] at hc
    cases hc
  rw [readToken, if_neg hn, if_neg hquote, if_neg hdigit, if_neg ht, if_neg hf, if_pos hc]
  rfl

theorem readToken_number (h : lang.Documented) {c : UInt16} (hc : lang.isDigit c = true)
    (unary : Bool) (buffer rest : List UInt16) :
    readToken lang unary buffer c rest = (readNumber lang (c :: rest)).bind fun number =>
      .ok ((.leaf (.literal number.1), number.2), buffer) := by
  have hn : ¬(c == unit 'n') = true := by
    rw [beq_iff_eq]
    exact h.digit_ne hc (by decide) (by decide)
  have hquote : ¬(c == unit '"' || c == unit '\'') = true := by
    rw [Bool.or_eq_true, beq_iff_eq, beq_iff_eq]
    rintro (rfl | rfl)
    · exact h.digit_ne hc (by decide) (by decide) rfl
    · exact h.digit_ne hc (by decide) (by decide) rfl
  rw [readToken, if_neg hn, if_neg hquote, if_pos hc]
  rfl

theorem keywordOf_digit (h : lang.Documented) {c : UInt16} (hc : lang.isDigit c = true)
    (w : List UInt16) : keywordOf (c :: w) = none := by
  rw [keywordOf_cons (R := R)]
  rcases hkw : keyword? (R := R) c with _ | ⟨kw, v⟩
  · rfl
  rcases keyword?_cases hkw with ⟨rfl, -⟩ | ⟨rfl, -⟩ | ⟨rfl, -⟩
  · exact absurd rfl (h.digit_ne hc (by decide) (by decide))
  · exact absurd rfl (h.digit_ne hc (by decide) (by decide))
  · exact absurd rfl (h.digit_ne hc (by decide) (by decide))

theorem whitespace_digit (h : lang.Documented) {c : UInt16} (hc : lang.isDigit c = true) :
    lang.isWhitespace c = false :=
  h.not_whitespace_of_part c (h.part_of_digit c hc)

/-! ## Literals -/

theorem readsAs_keyword (h : lang.Documented) {c : UInt16} {w : List UInt16} {v : Value R}
    (hkw : keyword? c = some (c :: w, v)) {k : List UInt16} (hk : Boundary k)
    {buffer : List UInt16} {texts : List (List UInt16)} (hbuffer : Buffered buffer texts)
    (unary : Bool) :
    ReadsAs lang unary buffer (texts ++ [c :: w]) (c :: w) k (.leaf (.literal v)) := by
  obtain ⟨-, -, hletters⟩ := keyword?_letters hkw
  have hc := hletters c List.mem_cons_self
  have hlt : c < 128 := UInt16.lt_of_le_of_lt hc.2 (by decide)
  have hws : lang.isWhitespace c = false := by
    refine h.not_whitespace_of_part c ?_
    rw [h.part_ascii c hlt, asciiPart, asciiStart, decide_eq_true hc.1, decide_eq_true hc.2]
    simp only [Bool.and_self, Bool.or_true, Bool.true_or]
  have hread : (readKeyword (c :: w) (c :: w ++ k) buffer).1 = (true, k) :=
    readKeywordFrom_true 0 buffer
  refine ⟨c, w, k, (readKeyword (c :: w) (c :: w ++ k) buffer).2, rfl, hws, ?_, rfl, fun hne => ?_⟩
  · rw [readToken_keyword h hkw, readKeywordToken]
    have hfirst : (readKeyword (c :: w) (c :: (w ++ k)) buffer).1.1 = true := congrArg Prod.fst hread
    have hsecond : (readKeyword (c :: w) (c :: (w ++ k)) buffer).1.2 = k := congrArg Prod.snd hread
    simp only [hfirst, hsecond, if_true]
    rfl
  · obtain ⟨rest, rfl⟩ := hk.eq_cons hne
    exact hbuffer.readKeyword hkw w rest

/-- The number that begins with `c`. -/
theorem readsAs_number (h : lang.Documented) {c : UInt16} {w : List UInt16}
    (hc : lang.isDigit c = true) {k : List UInt16} {v : Value R}
    (hread : readNumber lang (c :: w ++ k) = .ok (v, k))
    {buffer : List UInt16} {texts : List (List UInt16)} (hbuffer : Buffered buffer texts)
    (unary : Bool) :
    ReadsAs lang unary buffer (texts ++ [c :: w]) (c :: w) k (.leaf (.literal v)) := by
  refine ⟨c, w, k, buffer, rfl, whitespace_digit h hc, ?_, rfl, fun _ => ?_⟩
  · rw [List.cons_append] at hread
    rw [readToken_number h hc, hread]
    rfl
  · exact hbuffer.of_not_keyword (keywordOf_digit h hc w)

theorem decimalText_head (h : lang.Documented) (n : ℕ) :
    ∃ c w, decimalText n = c :: w ∧ lang.isDigit c = true := by
  obtain ⟨ds, hne, hds, htext, -⟩ := exists_digits n
  obtain ⟨d, ds, rfl⟩ := List.exists_cons_of_ne_nil hne
  refine ⟨decimalUnit d, ds.map decimalUnit, htext, ?_⟩
  rw [Lang.isDigit, h.digit_decimalUnit (hds d List.mem_cons_self)]
  rfl

theorem IsDecimal.head (h : lang.Documented) {text : List UInt16} (htext : IsDecimal text) :
    ∃ c w, text = c :: w ∧ lang.isDigit c = true := by
  obtain ⟨whole, fraction, exponent, rfl, hne, hdigits, -⟩ := htext
  obtain ⟨c, w, rfl⟩ := List.exists_cons_of_ne_nil hne
  exact ⟨c, _, rfl, isDigit_of_decimal h (hdigits c List.mem_cons_self)⟩

theorem readsAs_string (h : lang.Documented) (s : List UInt16) (k : List UInt16)
    {buffer : List UInt16} {texts : List (List UInt16)} (hbuffer : Buffered buffer texts)
    (unary : Bool) :
    ReadsAs lang unary buffer (texts ++ [Value.text lang (.string s)])
      (Value.text lang (.string s)) k (.leaf (.literal (.string s))) := by
  refine ⟨unit '"', s.flatMap escapeUnit ++ [unit '"'], k, buffer, rfl, ?_, ?_, rfl, fun _ => ?_⟩
  · rw [h.whitespace_ascii _ (by decide)]
    decide
  · have hread := readString_escapes h s k
    rw [readToken, if_neg (by decide), if_pos (by decide), List.append_assoc, List.singleton_append,
      hread]
    rfl
  · exact hbuffer.of_not_keyword rfl

theorem readsAs_literal (h : lang.Documented) {v : Value R}
    (hv : (Leaf.literal v).Writable lang) (hread : (Leaf.literal v).IsRead lang)
    {k : List UInt16} (hk : Boundary k) {buffer : List UInt16} {texts : List (List UInt16)}
    (hbuffer : Buffered buffer texts) (unary : Bool) :
    ReadsAs lang unary buffer (texts ++ [v.text lang]) (v.text lang) k (.leaf (.literal v)) := by
  cases v with
  | null => exact readsAs_keyword h rfl hk hbuffer unary
  | bool b =>
      cases b with
      | true | false => exact readsAs_keyword h rfl hk hbuffer unary
  | string s => exact readsAs_string h s k hbuffer unary
  | long n =>
      obtain ⟨c, w, htext, hc⟩ := decimalText_head h n
      have hnumber := readNumber_long h hv hk
      rw [Value.text, htext] at *
      exact readsAs_number h hc hnumber hbuffer unary
  | double d =>
      obtain ⟨c, w, htext, hc⟩ := IsDecimal.head h hv
      have hnumber := readNumber_double h hv hread hk
      rw [Value.text, htext] at *
      exact readsAs_number h hc hnumber hbuffer unary

/-! ## Variables -/

theorem EndsKey.not_letter {rest : List UInt16} (h : EndsKey rest) {c : UInt16}
    (hc : c ∈ rest.head?) : ¬(97 ≤ c ∧ c ≤ 122) := by
  rcases h c hc with rfl | rfl | rfl <;> decide

/-- A keyword at the beginning of a path is at the beginning of its first key. -/
theorem prefix_of_endsKey {kw a rest : List UInt16} (hletters : ∀ d ∈ kw, 97 ≤ d ∧ d ≤ 122)
    (hrest : EndsKey rest) (h : kw <+: a ++ rest) : kw <+: a := by
  induction a generalizing kw with
  | nil =>
      rcases kw with _ | ⟨k, kw⟩
      · exact List.nil_prefix
      rcases rest with _ | ⟨c, rest⟩
      · exact h
      obtain ⟨rfl, -⟩ := List.cons_prefix_cons.mp h
      exact absurd (hletters k List.mem_cons_self) (hrest.not_letter rfl)
  | cons c a ih =>
      rcases kw with _ | ⟨k, kw⟩
      · exact List.nil_prefix
      obtain ⟨rfl, htail⟩ := List.cons_prefix_cons.mp h
      exact List.cons_prefix_cons.mpr
        ⟨rfl, ih (fun d hd => hletters d (List.mem_cons_of_mem _ hd)) htail⟩

/-- The beginning of a keyword is a path of one key. -/
theorem keys_eq_nil_of_prefix {kw first : List UInt16} {keys : List (List UInt16)}
    (hletters : ∀ d ∈ kw, 97 ≤ d ∧ d ≤ 122) {k : List UInt16} (hk : Boundary k)
    (h : first ++ keysText lang keys k <+: kw) : keys = [] ∧ k = [] := by
  have hmem : ∀ c ∈ (keysText lang keys k).head?, False := by
    rintro c hc
    refine (endsKey_keysText keys hk.endsKey).not_letter hc (hletters c ?_)
    exact h.subset (List.mem_append_right _ (List.mem_of_mem_head? hc))
  have hnil : keysText lang keys k = [] := by
    rcases hkeys : keysText lang keys k with _ | ⟨c, rest⟩
    · rfl
    · exact (hmem c (by rw [hkeys]; rfl)).elim
  rw [keysText, List.append_eq_nil_iff] at hnil
  refine ⟨?_, hnil.2⟩
  rcases keys with _ | ⟨key, keys⟩
  · rfl
  have hpos : 0 < (keyText lang key).length := length_keyText_pos key
  have hzero := congrArg List.length hnil.1
  rw [List.flatMap_cons, List.length_append, List.length_nil] at hzero
  omega

theorem identifier_cons {first : List UInt16} (h : lang.isIdentifier first = true) :
    ∃ c w, first = c :: w ∧ lang.isJavaIdentifierStart c = true := by
  rcases first with _ | ⟨c, w⟩
  · cases h
  rw [Lang.isIdentifier, Bool.and_eq_true] at h
  exact ⟨c, w, rfl, h.1⟩

/-- What `readToken` makes of a path whose text is put back. -/
theorem readKeywordToken_false {kw reader reader' buffer : List UInt16} {v : Value R}
    (h : (readKeyword kw reader buffer).1 = (false, reader')) :
    readKeywordToken lang kw v reader buffer =
      (readVariable lang reader').bind fun token => .ok (token, (readKeyword kw reader buffer).2) := by
  have hfirst : (readKeyword kw reader buffer).1.1 = false := congrArg Prod.fst h
  have hsecond : (readKeyword kw reader buffer).1.2 = reader' := congrArg Prod.snd h
  simp only [readKeywordToken, hfirst, hsecond, Bool.false_eq_true, if_false]
  rfl

theorem readKeywordToken_true {kw reader reader' buffer : List UInt16} {v : Value R}
    (h : (readKeyword kw reader buffer).1 = (true, reader')) :
    readKeywordToken lang kw v reader buffer =
      .ok ((.leaf (.literal v), reader'), (readKeyword kw reader buffer).2) := by
  have hfirst : (readKeyword kw reader buffer).1.1 = true := congrArg Prod.fst h
  have hsecond : (readKeyword kw reader buffer).1.2 = reader' := congrArg Prod.snd h
  simp only [readKeywordToken, hfirst, hsecond, if_true]

/-- The places of the buffer a keyword uses. -/
theorem Buffered.size_le {buffer : List UInt16} {texts : List (List UInt16)}
    (h : Buffered buffer texts) {c : UInt16} {kw : List UInt16} {v : Value R}
    (hkw : keyword? c = some (kw, v)) : 0 + kw.length ≤ buffer.length := by
  rw [h.1, Nat.zero_add]
  exact (keyword?_letters hkw).1.trans (by decide)

/-- A text that is neither a keyword nor the beginning of one is put back whole. -/
theorem Buffered.readKeyword_false {buffer : List UInt16} {texts : List (List UInt16)}
    (h : Buffered buffer texts) {c : UInt16} {kw : List UInt16} {v : Value R}
    (hkw : keyword? c = some (kw, v)) {reader : List UInt16} (hk : ¬kw <+: reader)
    (hr : ¬reader <+: kw) : (Fxml.readKeyword kw reader buffer).1 = (false, reader) := by
  have hread := readKeywordFrom_false hk hr (h.size_le hkw)
  rwa [List.take_zero, List.nil_append] at hread

/-- The beginning of a keyword comes back with the old unit after it. -/
theorem Buffered.readKeyword_cut {buffer : List UInt16} {texts : List (List UInt16)}
    (h : Buffered buffer texts) {c : UInt16} {kw : List UInt16} {v : Value R}
    (hkw : keyword? c = some (kw, v)) {reader : List UInt16} (hr : reader <+: kw)
    (hne : reader ≠ kw) : (Fxml.readKeyword kw reader buffer).1 =
      (false, reader ++ [(lastWritten reader.length texts).getD 0]) := by
  have hlt : reader.length < pushbackBufferSize :=
    lt_of_le_of_lt (hr.length_le.trans (keyword?_letters hkw).1) (by decide)
  have hu : buffer[0 + reader.length]? = some ((lastWritten reader.length texts).getD 0) := by
    rw [Nat.zero_add]
    exact h.2 _ hlt
  have hread := readKeywordFrom_cut hr hne hu
  rwa [List.take_zero, List.nil_append] at hread

theorem readsAs_variable (h : lang.Documented) {first : List UInt16} {keys : List (List UInt16)}
    (hpath : lang.IsKeyPath (first :: keys)) (hread : (Leaf.variable (first :: keys)).IsRead lang)
    {k : List UInt16} (hk : Boundary k) {buffer : List UInt16} {texts : List (List UInt16)}
    (hbuffer : Buffered buffer texts)
    (hcut : k = [] → IsCut (keyPathText lang (first :: keys)) →
      lastWritten (keyPathText lang (first :: keys)).length texts = some (unit ' '))
    (unary : Bool) :
    ReadsAs lang unary buffer (texts ++ [keyPathText lang (first :: keys)])
      (keyPathText lang (first :: keys)) k (.leaf (.variable (first :: keys))) := by
  obtain ⟨c, f, rfl, hstart⟩ := identifier_cons hpath.1
  obtain ⟨hkeyword, hkeys⟩ := hread
  have hws := h.not_whitespace_of_part c (h.part_of_start c hstart)
  have htext : keyPathText lang ((c :: f) :: keys) = c :: (f ++ keys.flatMap (keyText lang)) := rfl
  have hparse := parse_keyPathText h hpath hkeys hk
  rcases hkw : keyword? (R := R) c with _ | ⟨kw, v⟩
  · refine ⟨c, _, k, buffer, htext, hws, ?_, rfl, fun _ => ?_⟩
    · rw [htext, List.cons_append] at hparse
      rw [readToken_variable h hstart hkw, readVariable, hparse]
      rfl
    · refine hbuffer.of_not_keyword ?_
      rw [htext, keywordOf_cons (R := R), hkw]
      rfl
  have hkwof : ∀ w : List UInt16, keywordOf (c :: w) = some kw := by
    intro w
    rw [keywordOf_cons (R := R), hkw]
    rfl
  obtain ⟨-, -, hletters⟩ := keyword?_letters hkw
  have hnot : ¬kw <+: keyPathText lang ((c :: f) :: keys) ++ k := by
    intro hp
    rw [keyPathText_append] at hp
    exact hkeyword kw (hkwof f) (prefix_of_endsKey hletters (endsKey_keysText keys hk.endsKey) hp)
  have hafter : k ≠ [] → Buffered
      (readKeyword kw (keyPathText lang ((c :: f) :: keys) ++ k) buffer).2
        (texts ++ [keyPathText lang ((c :: f) :: keys)]) := by
    intro hne
    obtain ⟨rest, rfl⟩ := hk.eq_cons hne
    rw [htext]
    exact hbuffer.readKeyword hkw _ rest
  by_cases hr : keyPathText lang ((c :: f) :: keys) ++ k <+: kw
  · -- the end of the text is the beginning of the keyword
    obtain ⟨rfl, rfl⟩ := keys_eq_nil_of_prefix hletters hk (by rwa [← keyPathText_append])
    rw [List.append_nil] at hr hnot
    have hne : keyPathText lang [c :: f] ≠ kw := by
      rintro rfl
      exact hnot (List.prefix_refl _)
    have hspace := hcut rfl ⟨kw, by rw [htext]; exact hkwof _, hr, hne⟩
    have hfalse := hbuffer.readKeyword_cut hkw hr hne
    rw [hspace, Option.getD_some] at hfalse
    have hparse' := parse_keyPathText h hpath hkeys (k := [unit ' '])
      (fun d hd => (Option.some.inj hd).symm)
    refine ⟨c, _, [unit ' '], (readKeyword kw (keyPathText lang [c :: f]) buffer).2, htext, hws, ?_,
      ?_, fun hnil => absurd rfl hnil⟩
    · rw [readToken_keyword h hkw, List.append_nil, ← htext, readKeywordToken_false hfalse,
        readVariable, hparse']
      rfl
    · have hsp : lang.isWhitespace (unit ' ') = true := by
        rw [h.whitespace_ascii _ (by decide)]
        decide
      rw [List.dropWhile_cons_of_pos hsp]
  · have hfalse := hbuffer.readKeyword_false hkw hnot hr
    refine ⟨c, _, k, (readKeyword kw (keyPathText lang ((c :: f) :: keys) ++ k) buffer).2, htext,
      hws, ?_, rfl, hafter⟩
    rw [readToken_keyword h hkw, ← List.cons_append, ← htext, readKeywordToken_false hfalse,
      readVariable, hparse]
    rfl

end JavaFx.Fxml
