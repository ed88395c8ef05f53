import JavaFx.Fxml.LeafLexing

/-!
# Leaves that do not come back

The other leaves are read as another leaf or not at all, whatever follows.
-/

namespace JavaFx.Fxml

variable {R : Type} {lang : Lang R}

/-! ## Old units in the buffer -/

/-- What a printed leaf can leave in the buffer. -/
def IsStale (lang : Lang R) (u : UInt16) : Prop :=
  u = unit ' ' ∨ u = unit '.' ∨ u = unit '[' ∨ lang.isJavaIdentifierPart u = true

theorem noted_mem {kw a rest : List UInt16} (hletters : ∀ d ∈ kw, 97 ≤ d ∧ d ≤ 122)
    (hrest : EndsKey rest) {j : ℕ} {u : UInt16} (h : noted kw (a ++ rest) j = some u) :
    u ∈ a ∨ rest.head? = some u := by
  induction a generalizing kw j with
  | nil =>
      rcases kw with _ | ⟨k, kw⟩
      · rcases j with _ | j <;> cases h
      rcases rest with _ | ⟨c, rest⟩
      · rcases j with _ | j <;> cases h
      rcases j with _ | j
      · exact Or.inr h
      · have hne : k ≠ c := by
          rintro rfl
          exact absurd (hletters k List.mem_cons_self) (hrest.not_letter rfl)
        rw [List.nil_append, noted, if_neg hne] at h
        cases h
  | cons c a ih =>
      rcases kw with _ | ⟨k, kw⟩
      · rcases j with _ | j <;> cases h
      rcases j with _ | j
      · left
        rw [Option.some.inj h]
        exact List.mem_cons_self
      · rw [List.cons_append, noted] at h
        split_ifs at h
        exact (ih (fun d hd => hletters d (List.mem_cons_of_mem _ hd)) h).imp_left
          (List.mem_cons_of_mem _)

/-- A text that begins with identifier parts leaves these, or what ends them. -/
theorem isStale_of_written {a rest : List UInt16}
    (ha : ∀ c ∈ a, lang.isJavaIdentifierPart c = true) (hrest : EndsKey (rest ++ [unit ' ']))
    {j : ℕ} {u : UInt16} (h : written j (a ++ rest) = some u) : IsStale lang u := by
  obtain ⟨kw, hkw, hnoted⟩ := Option.bind_eq_some_iff.mp h
  have hletters : ∀ d ∈ kw, 97 ≤ d ∧ d ≤ 122 := by
    rcases htext : a ++ rest with _ | ⟨c, w⟩
    · rw [htext] at hkw
      cases hkw
    rw [htext, keywordOf_cons (R := R)] at hkw
    obtain ⟨⟨kw', v⟩, hk, rfl⟩ := Option.map_eq_some_iff.mp hkw
    exact (keyword?_letters hk).2.2
  rw [List.append_assoc] at hnoted
  rcases noted_mem hletters hrest hnoted with hmem | hhead
  · exact Or.inr (Or.inr (Or.inr (ha u hmem)))
  · rcases hrest u hhead with rfl | rfl | rfl
    · exact Or.inr (Or.inl rfl)
    · exact Or.inr (Or.inr (Or.inl rfl))
    · exact Or.inl rfl

theorem written_none {j : ℕ} {text : List UInt16} (h : keywordOf text = none) :
    written j text = none := by
  rw [written, h]
  rfl

theorem part_of_letter (h : lang.Documented) {c : UInt16} (hc : 97 ≤ c ∧ c ≤ 122) :
    lang.isJavaIdentifierPart c = true := by
  rw [h.part_ascii c (UInt16.lt_of_le_of_lt hc.2 (by decide)), asciiPart, asciiStart,
    decide_eq_true hc.1, decide_eq_true hc.2]
  simp only [Bool.and_self, Bool.or_true, Bool.true_or]

theorem keyword?_null : keyword? (unit 'n') = some (units "null", (Value.null : Value R)) := rfl

theorem keyword?_true :
    keyword? (unit 't') = some (units "true", (Value.bool true : Value R)) := rfl

theorem keyword?_false :
    keyword? (unit 'f') = some (units "false", (Value.bool false : Value R)) := rfl

theorem endsKey_singleton {u : UInt16} (hu : u = unit '.' ∨ u = unit '[' ∨ u = unit ' ') :
    EndsKey [u] := by
  rintro c hc
  rw [← Option.some.inj hc]
  exact hu

theorem Leaf.isStale (h : lang.Documented) {x : Leaf R} (hx : x.Writable lang) {j : ℕ}
    {u : UInt16} (hu : written j (x.text lang) = some u) : IsStale lang u := by
  have hkeyword : ∀ {kw : List UInt16}, (∀ d ∈ kw, 97 ≤ d ∧ d ≤ 122) → written j kw = some u →
      IsStale lang u := by
    rintro kw hletters hw
    rw [← List.append_nil kw] at hw
    exact isStale_of_written (fun c hc => part_of_letter h (hletters c hc))
      (endsKey_singleton (Or.inr (Or.inr rfl))) hw
  cases x with
  | literal v =>
      cases v with
      | null => exact hkeyword (keyword?_letters (keyword?_null (R := R))).2.2 hu
      | bool b =>
          cases b with
          | true => exact hkeyword (keyword?_letters (keyword?_true (R := R))).2.2 hu
          | false => exact hkeyword (keyword?_letters (keyword?_false (R := R))).2.2 hu
      | string s => cases hu
      | long n =>
          obtain ⟨c, w, htext, hc⟩ := decimalText_head h n
          rw [Leaf.text, Value.text, htext, written_none (keywordOf_digit h hc w)] at hu
          cases hu
      | double d =>
          obtain ⟨c, w, htext, hc⟩ := IsDecimal.head h hx
          rw [Leaf.text, Value.text, htext, written_none (keywordOf_digit h hc w)] at hu
          cases hu
  | «variable» keyPath =>
      rcases keyPath with _ | ⟨first, keys⟩
      · cases hx
      have hrest : EndsKey (keysText lang keys [unit ' ']) :=
        endsKey_keysText keys (endsKey_singleton (Or.inr (Or.inr rfl)))
      exact isStale_of_written (part_of_isIdentifier h hx.1) hrest hu

/-- The texts of leaves of the language. -/
def Printed (lang : Lang R) (texts : List (List UInt16)) : Prop :=
  ∀ text ∈ texts, ∃ x : Leaf R, x.Writable lang ∧ x.text lang = text

theorem Printed.isStale (h : lang.Documented) {texts : List (List UInt16)}
    (htexts : Printed lang texts) {j : ℕ} {u : UInt16} (hu : lastWritten j texts = some u) :
    IsStale lang u := by
  induction texts using List.reverseRecOn with
  | nil => cases hu
  | append_singleton texts text ih =>
      rw [lastWritten_concat] at hu
      rcases hw : written j text with _ | v
      · rw [hw, Option.none_or] at hu
        exact ih (fun t ht => htexts t (List.mem_append_left _ ht)) hu
      · rw [hw, Option.some_or] at hu
        obtain ⟨x, hx, rfl⟩ := htexts text (List.mem_append_right _ (List.mem_singleton.mpr rfl))
        exact Leaf.isStale h hx (hw.trans hu)

/-! ## Leaves that are misread -/

/-- The text is read as another leaf than `x`, or not read. -/
def Misreads (lang : Lang R) (unary : Bool) (buffer : List UInt16) (text k : List UInt16)
    (x : Leaf R) : Prop :=
  ∃ c w, text = c :: w ∧ lang.isWhitespace c = false ∧
    ∀ read, readToken lang unary buffer c (w ++ k) = .ok read →
      ∃ y, read.1.1 = .leaf y ∧ y ≠ x

theorem misreads_double (h : lang.Documented) {d : R} (hd : IsDecimal (lang.doubleToString d))
    (hminus : unit '-' ∈ lang.doubleToString d) (unary : Bool) (buffer k : List UInt16) :
    Misreads lang unary buffer (lang.doubleToString d) k (.literal (.double d)) := by
  obtain ⟨c, w, htext, hc⟩ := IsDecimal.head h hd
  refine ⟨c, w, htext, whitespace_digit h hc, fun read hread => ?_⟩
  have hnumber := readNumber_negative h hd hminus k
  rw [htext, List.cons_append] at hnumber
  rw [readToken_number h hc, hnumber] at hread
  cases hread

/-- A variable with an old unit after its only key. -/
theorem parse_stale (h : lang.Documented) {first : List UInt16}
    (hfirst : lang.isIdentifier first = true) {u : UInt16} (hu : IsStale lang u)
    (hspace : u ≠ unit ' ') {path : List (List UInt16) × List UInt16}
    (hparse : KeyPath.parse lang (first ++ [u]) = .ok path) : path.1 ≠ [first] := by
  rcases hu with rfl | rfl | rfl | hpart
  · exact absurd rfl hspace
  · rw [parse_first h hfirst (endsKey_singleton (Or.inl rfl))] at hparse
    cases hparse
  · rw [parse_first h hfirst (endsKey_singleton (Or.inr (Or.inl rfl)))] at hparse
    have hbracket : parseRest lang (first ++ [unit '[']).length [unit '['] =
        .error (.illegalArgument "Unterminated bracketed identifier.") := by
      rw [List.length_append, List.length_singleton, parseRest, skipDot_of_ne (by decide)]
      exact parseKeys_error _ rfl startsKey_bracket rfl
    rw [hbracket] at hparse
    cases hparse
  · have hlonger : lang.isIdentifier (first ++ [u]) = true := by
      obtain ⟨c, w, rfl, hstart⟩ := identifier_cons hfirst
      rw [Lang.isIdentifier, Bool.and_eq_true] at hfirst
      rw [List.cons_append, Lang.isIdentifier, hstart, Bool.true_and, List.all_append, hfirst.2,
        Bool.true_and, List.all_cons, List.all_nil, Bool.and_true]
      exact hpart
    have hread := parse_first h hlonger (show EndsKey [] from fun c hc => by cases hc)
    rw [List.append_nil] at hread
    rw [hread] at hparse
    have hrest : parseRest lang (first ++ [u]).length [] = .ok ([], []) :=
      parseKeys_boundary h (fun c hc => by cases hc) _
    rw [hrest] at hparse
    obtain rfl := Except.ok.inj hparse
    intro heq
    have hlength := congrArg List.length (List.cons.inj heq).1
    rw [List.length_append, List.length_singleton] at hlength
    omega

theorem misreads_variable (h : lang.Documented) {first : List UInt16} {keys : List (List UInt16)}
    (hpath : lang.IsKeyPath (first :: keys)) {k : List UInt16} (hk : Boundary k)
    {buffer : List UInt16} {texts : List (List UInt16)} (hbuffer : Buffered buffer texts)
    (htexts : Printed lang texts)
    (hbad : ¬(Leaf.variable (first :: keys)).IsRead lang ∨
      (k = [] ∧ IsCut (keyPathText lang (first :: keys)) ∧
        lastWritten (keyPathText lang (first :: keys)).length texts ≠ some (unit ' ')))
    (unary : Bool) :
    Misreads lang unary buffer (keyPathText lang (first :: keys)) k (.variable (first :: keys)) := by
  obtain ⟨c, f, rfl, hstart⟩ := identifier_cons hpath.1
  have hws := h.not_whitespace_of_part c (h.part_of_start c hstart)
  have htext : keyPathText lang ((c :: f) :: keys) = c :: (f ++ keys.flatMap (keyText lang)) := rfl
  refine ⟨c, _, htext, hws, fun read hread => ?_⟩
  rcases hkw : keyword? (R := R) c with _ | ⟨kw, v⟩
  · -- no keyword begins with this unit: only a key in quotes can be wrong
    have hnone : ∀ w : List UInt16, keywordOf (c :: w) = none := by
      intro w
      rw [keywordOf_cons (R := R), hkw]
      rfl
    rcases hbad with hbad | ⟨-, ⟨kw, hk', -⟩, -⟩
    · have hkeys : ¬∀ key ∈ keys, lang.KeyIsRead key := by
        intro hall
        refine hbad ⟨fun kw hk' => ?_, hall⟩
        rw [hnone] at hk'
        cases hk'
      have hparse := parse_keyPathText_close h hpath hkeys hk
      rw [htext] at hparse
      rw [readToken_variable h hstart hkw, readVariable] at hread
      rw [List.cons_append] at hparse
      rw [hparse] at hread
      cases hread
    · rw [htext, hnone] at hk'
      cases hk'
  have hkwof : ∀ w : List UInt16, keywordOf (c :: w) = some kw := by
    intro w
    rw [keywordOf_cons (R := R), hkw]
    rfl
  obtain ⟨-, -, hletters⟩ := keyword?_letters hkw
  rw [readToken_keyword h hkw, ← List.cons_append, ← htext] at hread
  by_cases hp : kw <+: keyPathText lang ((c :: f) :: keys) ++ k
  · -- the keyword is read, and the rest of the name is left
    obtain ⟨r, hr⟩ := hp
    have htrue : (readKeyword kw (keyPathText lang ((c :: f) :: keys) ++ k) buffer).1 = (true, r) := by
      rw [← hr]
      exact readKeywordFrom_true 0 buffer
    rw [readKeywordToken_true htrue] at hread
    obtain rfl := Except.ok.inj hread
    exact ⟨.literal v, rfl, fun heq => by cases heq⟩
  have hkeyword : ∀ kw' ∈ keywordOf (c :: f), ¬kw' <+: c :: f := by
    rintro kw' hk' hp'
    rw [hkwof f] at hk'
    obtain rfl := Option.some.inj hk'
    refine hp ?_
    rw [keyPathText_append]
    exact hp'.trans (List.prefix_append _ _)
  by_cases hr : keyPathText lang ((c :: f) :: keys) ++ k <+: kw
  · obtain ⟨rfl, rfl⟩ := keys_eq_nil_of_prefix hletters hk (by rwa [← keyPathText_append])
    rw [List.append_nil] at hr hp hread
    have hne : keyPathText lang [c :: f] ≠ kw := by
      rintro rfl
      exact hp (List.prefix_refl _)
    have hspace : lastWritten (keyPathText lang [c :: f]).length texts ≠ some (unit ' ') := by
      rcases hbad with hbad | ⟨-, -, hspace⟩
      · exact absurd ⟨hkeyword, fun key hm => absurd hm List.not_mem_nil⟩ hbad
      · exact hspace
    have hfalse := hbuffer.readKeyword_cut hkw hr hne
    rw [readKeywordToken_false hfalse] at hread
    have hstale : IsStale lang ((lastWritten (keyPathText lang [c :: f]).length texts).getD 0) := by
      rcases hlast : lastWritten (keyPathText lang [c :: f]).length texts with _ | u
      · refine Or.inr (Or.inr (Or.inr ?_))
        rw [Option.getD_none, h.part_ascii _ (by decide)]
        decide
      · exact htexts.isStale h hlast
    have hne' : (lastWritten (keyPathText lang [c :: f]).length texts).getD 0 ≠ unit ' ' := by
      rcases hlast : lastWritten (keyPathText lang [c :: f]).length texts with _ | u
      · decide
      · rw [hlast] at hspace
        exact fun heq => hspace (congrArg some heq)
    rw [readVariable] at hread
    have hname : keyPathText lang [c :: f] = c :: f := List.append_nil _
    rw [hname] at hread hstale hne'
    rcases hparse : KeyPath.parse lang
        (c :: f ++ [(lastWritten (c :: f).length texts).getD 0]) with e | path
    · rw [hparse] at hread
      cases hread
    · rw [hparse] at hread
      obtain rfl := Except.ok.inj hread
      refine ⟨.variable path.1, rfl, fun heq => ?_⟩
      injection heq with heq
      exact parse_stale h hpath.1 hstale hne' hparse heq
  · have hfalse := hbuffer.readKeyword_false hkw hp hr
    rw [readKeywordToken_false hfalse, readVariable] at hread
    rcases hbad with hbad | ⟨rfl, ⟨kw', hk', hcut, -⟩, -⟩
    · have hkeys : ¬∀ key ∈ keys, lang.KeyIsRead key := fun hall => hbad ⟨hkeyword, hall⟩
      rw [parse_keyPathText_close h hpath hkeys hk] at hread
      cases hread
    · rw [htext, hkwof] at hk'
      obtain rfl := Option.some.inj hk'
      rw [List.append_nil] at hr
      exact absurd hcut hr

theorem not_isCut_literal (h : lang.Documented) {v : Value R}
    (hv : (Leaf.literal v).Writable lang) : ¬IsCut (v.text lang) := by
  rintro ⟨kw, hkw, -, hne⟩
  cases v with
  | null => exact hne (Option.some.inj hkw)
  | bool b =>
      cases b with
      | true => exact hne (Option.some.inj hkw)
      | false => exact hne (Option.some.inj hkw)
  | string s => cases hkw
  | long n =>
      obtain ⟨c, w, htext, hc⟩ := decimalText_head h n
      rw [Value.text, htext, keywordOf_digit h hc w] at hkw
      cases hkw
  | double d =>
      obtain ⟨c, w, htext, hc⟩ := IsDecimal.head h hv
      rw [Value.text, htext, keywordOf_digit h hc w] at hkw
      cases hkw

/-- A leaf comes back before `k`. -/
def ComesBack (lang : Lang R) (texts : List (List UInt16)) (k : List UInt16) (x : Leaf R) :
    Prop :=
  x.IsRead lang ∧
    (k = [] → IsCut (x.text lang) → lastWritten (x.text lang).length texts = some (unit ' '))

theorem readsAs_leaf (h : lang.Documented) {x : Leaf R} (hx : x.Writable lang)
    {k : List UInt16} (hk : Boundary k) {buffer : List UInt16} {texts : List (List UInt16)}
    (hbuffer : Buffered buffer texts) (hback : ComesBack lang texts k x) (unary : Bool) :
    ReadsAs lang unary buffer (texts ++ [x.text lang]) (x.text lang) k (.leaf x) := by
  cases x with
  | literal v => exact readsAs_literal h hx hback.1 hk hbuffer unary
  | «variable» keyPath =>
      rcases keyPath with _ | ⟨first, keys⟩
      · cases hx
      · exact readsAs_variable h hx hback.1 hk hbuffer hback.2 unary

theorem misreads_leaf (h : lang.Documented) {x : Leaf R} (hx : x.Writable lang)
    {k : List UInt16} (hk : Boundary k) {buffer : List UInt16} {texts : List (List UInt16)}
    (hbuffer : Buffered buffer texts) (htexts : Printed lang texts)
    (hback : ¬ComesBack lang texts k x) (unary : Bool) :
    Misreads lang unary buffer (x.text lang) k x := by
  cases x with
  | literal v =>
      have hread : ¬(Leaf.literal v).IsRead lang := by
        intro hread
        exact hback ⟨hread, fun _ hcut => absurd hcut (not_isCut_literal h hx)⟩
      cases v with
      | double d => exact misreads_double h hx (not_not.mp hread) unary buffer k
      | _ => exact absurd trivial hread
  | «variable» keyPath =>
      rcases keyPath with _ | ⟨first, keys⟩
      · cases hx
      refine misreads_variable h hx hk hbuffer htexts ?_ unary
      by_cases hread : (Leaf.variable (first :: keys)).IsRead lang
      · right
        by_contra hnot
        refine hback ⟨hread, fun hnil hcut => ?_⟩
        by_contra hspace
        exact hnot ⟨hnil, hcut, hspace⟩
      · exact Or.inl hread

end JavaFx.Fxml
