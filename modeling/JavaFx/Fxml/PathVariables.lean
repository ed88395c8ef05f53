import JavaFx.Fxml.ExpressionRoundTrip

/-!
# Dotted paths as expressions

The text of a path of identifiers is read as a variable, unless the reading of a keyword stops in
it: the keyword is there and more follows, or the text ends before the keyword does.
-/

namespace JavaFx.Fxml

variable {R : Type} {lang : Lang R}

/-- The text of a dotted path. -/
def pathText (path : List (List UInt16)) : List UInt16 := [unit '.'].intercalate path

/-- The texts that are literals. -/
def keywords : List (List UInt16) := [units "null", units "true", units "false"]

theorem pathText_eq {first : List UInt16} {keys : List (List UInt16)}
    (hkeys : ∀ key ∈ keys, lang.isIdentifier key = true) :
    pathText (first :: keys) = keyPathText lang (first :: keys) := by
  induction keys generalizing first with
  | nil =>
      rw [pathText, List.intercalate_singleton, keyPathText, List.flatMap_nil, List.append_nil]
  | cons key keys ih =>
      have htail : pathText (key :: keys) = keyPathText lang (key :: keys) :=
        ih fun k hk => hkeys k (List.mem_cons_of_mem _ hk)
      have hkey : keyText lang key = unit '.' :: key := by
        rw [keyText, if_pos (hkeys key List.mem_cons_self)]
      rw [pathText, List.intercalate_cons_cons, ← pathText, htail, keyPathText, keyPathText,
        List.flatMap_cons, hkey, List.append_assoc]
      rfl

/-- A keyword that a path begins with is in its first identifier. -/
theorem prefix_first {first : List UInt16} {keys : List (List UInt16)} {kw : List UInt16}
    (hletters : ∀ d ∈ kw, 97 ≤ d ∧ d ≤ 122) (hkeys : ∀ key ∈ keys, lang.isIdentifier key = true) :
    kw <+: keyPathText lang (first :: keys) ↔ kw <+: first := by
  rw [keyPathText]
  constructor
  · intro hbegin
    rcases List.prefix_or_prefix_of_prefix hbegin (List.prefix_append first _) with hfirst | ⟨t, rfl⟩
    · exact hfirst
    · -- the first unit after the identifier is a dot
      have htail := (List.prefix_append_right_inj first).mp hbegin
      cases t with
      | nil => rw [List.append_nil]
      | cons c t =>
          cases keys with
          | nil => cases List.prefix_nil.mp htail
          | cons key keys =>
              have hkey : keyText lang key = unit '.' :: key := by
                rw [keyText, if_pos (hkeys key List.mem_cons_self)]
              rw [List.flatMap_cons, hkey, List.cons_append, List.cons_prefix_cons] at htail
              have hletter := (hletters c (List.mem_append_right _ List.mem_cons_self)).1
              rw [htail.1] at hletter
              exact absurd hletter (by decide)
  · exact fun hfirst => hfirst.trans (List.prefix_append _ _)

theorem keywordOf_mem {text kw : List UInt16} (hkw : keywordOf text = some kw) : kw ∈ keywords := by
  cases text with
  | nil => cases hkw
  | cons c w =>
      rw [keywordOf_cons (R := Unit)] at hkw
      obtain ⟨⟨kw', v⟩, hkw', rfl⟩ := Option.map_eq_some_iff.mp hkw
      rcases keyword?_cases hkw' with ⟨-, rfl, -⟩ | ⟨-, rfl, -⟩ | ⟨-, rfl, -⟩
      · exact List.mem_cons_self
      · exact List.mem_cons_of_mem _ List.mem_cons_self
      · exact List.mem_cons_of_mem _ (List.mem_cons_of_mem _ List.mem_cons_self)

/-- The keyword that is tried is the only one that begins like the text. -/
theorem keywordOf_eq_some {text kw : List UInt16} (hkw : kw ∈ keywords) {c : UInt16}
    (hc : kw.head? = some c) (htext : text.head? = some c) : keywordOf text = some kw := by
  have hall : ∀ kw ∈ keywords, keywordOf kw = some kw := by decide
  have hkeyword := hall kw hkw
  rw [keywordOf, hc, Option.bind_some] at hkeyword
  rw [keywordOf, htext, Option.bind_some]
  exact hkeyword

theorem keywords_letters : ∀ kw ∈ keywords, ∀ d ∈ kw, 97 ≤ d ∧ d ≤ 122 := by
  intro kw hkw d hd
  have hall : (keywords.all fun kw => kw.all fun d => decide (97 ≤ d ∧ d ≤ 122)) = true := by
    decide
  exact of_decide_eq_true (List.all_eq_true.mp (List.all_eq_true.mp hall kw hkw) d hd)

theorem head?_of_begins {a b : List UInt16} (hbegin : a <+: b) {c : UInt16} (hc : a.head? = some c) :
    b.head? = some c := by
  obtain ⟨t, rfl⟩ := hbegin
  cases a with
  | nil => cases hc
  | cons d a => exact hc

/-- What the first token of a text needs to come back as a variable. -/
theorem comesBack_path_iff {first : List UInt16} {keys : List (List UInt16)}
    (hfirst : lang.isIdentifier first = true) (hkeys : ∀ key ∈ keys, lang.isIdentifier key = true)
    (hkeyword : keyPathText lang (first :: keys) ∉ keywords) :
    ComesBack lang [] [] (.variable (first :: keys)) ↔
      ∀ kw ∈ keywords, ¬ kw <+: keyPathText lang (first :: keys) ∧
        ¬ keyPathText lang (first :: keys) <+: kw := by
  obtain ⟨c, f, rfl, -⟩ := identifier_cons hfirst
  have hhead : (keyPathText lang ((c :: f) :: keys)).head? = some c := rfl
  constructor
  · rintro ⟨⟨hread, -⟩, hcut⟩ kw hkw
    constructor
    · intro hbegin
      have hbegin' := (prefix_first (keywords_letters kw hkw) hkeys).mp hbegin
      cases kw with
      | nil => exact absurd hkw (by decide)
      | cons d kw =>
          have hd := head?_of_begins hbegin' (c := d) rfl
          exact hread _ (keywordOf_eq_some hkw rfl hd) hbegin'
    · intro hbegin
      have hcut' : IsCut (keyPathText lang ((c :: f) :: keys)) := by
        refine ⟨kw, keywordOf_eq_some hkw (head?_of_begins hbegin hhead) hhead, hbegin, ?_⟩
        rintro rfl
        exact hkeyword hkw
      cases hcut rfl hcut'
  · intro hall
    refine ⟨⟨fun kw hkw hbegin => ?_, fun key hkey => .inl (hkeys key hkey)⟩, fun _ hcut => ?_⟩
    · exact (hall kw (keywordOf_mem hkw)).1 (hbegin.trans (List.prefix_append _ _))
    · obtain ⟨kw, hkw, hbegin, -⟩ := hcut
      exact absurd hbegin (hall kw (keywordOf_mem hkw)).2

/-- **The text of a path is read as this variable unless it begins with a keyword or is the
beginning of one.** -/
theorem parse_path_iff (lang : Lang R) (h : lang.Documented) {path : List (List UInt16)}
    (hne : path ≠ []) (hpath : ∀ key ∈ path, lang.isIdentifier key = true)
    (hkeyword : pathText path ∉ keywords) :
    parse lang (pathText path) = .ok (.leaf (.variable path)) ↔
      ∀ kw ∈ keywords, ¬ kw <+: pathText path ∧ ¬ pathText path <+: kw := by
  obtain ⟨first, keys, rfl⟩ := List.exists_cons_of_ne_nil hne
  have hkeys : ∀ key ∈ keys, lang.isIdentifier key = true :=
    fun key hkey => hpath key (List.mem_cons_of_mem _ hkey)
  have hfirst := hpath first List.mem_cons_self
  have htext : pathText (first :: keys) = keyPathText lang (first :: keys) := pathText_eq hkeys
  have hwritable : ∀ x ∈ (Postfix.Tree.leaf (Leaf.variable (first :: keys)) : Expression R).leaves,
      x.Writable lang := by
    intro x hx
    obtain rfl := List.mem_singleton.mp hx
    exact ⟨hfirst, fun key hkey => .inl (hkeys key hkey)⟩
  have hprint : print lang (.leaf (.variable (first :: keys))) = keyPathText lang (first :: keys) := by
    rw [print, lexemes, textOf, List.map_singleton, List.intercalate_singleton]
    rfl
  rw [htext] at hkeyword ⊢
  rw [← comesBack_path_iff hfirst hkeys hkeyword, ← hprint, parse_print_comesBack h _ hwritable]
  exact (and_iff_right trivial).trans (and_iff_left trivial)

/-- The path `node.text` -/
theorem parse_path_node : parse asciiLang (pathText [units "node", units "text"]) =
      .ok (.leaf (.variable [units "node", units "text"])) ↔
    ∀ kw ∈ keywords, ¬ kw <+: pathText [units "node", units "text"] ∧
      ¬ pathText [units "node", units "text"] <+: kw :=
  parse_path_iff asciiLang asciiLang_documented (List.cons_ne_nil _ _) (by decide) (by decide)

/-- The path `nullable` -/
theorem nullable_not_variable : [units "nullable"].all asciiLang.isIdentifier = true ∧
    pathText [units "nullable"] ∉ keywords ∧
      parse asciiLang (pathText [units "nullable"]) ≠ .ok (.leaf (.variable [units "nullable"])) := by
  refine ⟨by decide, by decide, ?_⟩
  decide

end JavaFx.Fxml
