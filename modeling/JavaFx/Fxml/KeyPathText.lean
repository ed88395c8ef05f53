import JavaFx.Fxml.KeyPathLexing
import JavaFx.Fxml.ExpressionRoundTrip

/-!
# The text of a key path

`toString` puts a key that begins with a digit in brackets and writes every other key as it is,
after a dot unless it is the first. Quotes are not printed, so a path comes back from its text
exactly when every key of it could have been written without them.
-/

namespace JavaFx.Fxml

variable {R : Type} (lang : Lang R)

/-! ## Printing -/

/-- A turn of the loop of `toString` at `i`; `charAt(0)` throws on an empty element. -/
def elementText (i : ℕ) : List UInt16 → Option (List UInt16)
  | [] => none
  | c :: element =>
      if lang.isDigit c then some (unit '[' :: c :: element ++ [unit ']'])
      else if 0 < i then some (unit '.' :: c :: element)
      else some (c :: element)

/-- The loop of `toString` over the elements from `i` on. -/
def elementsText : ℕ → List (List UInt16) → Option (List UInt16)
  | _, [] => some []
  | i, element :: elements => do
      let text ← elementText lang i element
      let rest ← elementsText (i + 1) elements
      some (text ++ rest)

/-- `KeyPath.toString` -/
def KeyPath.toString (path : List (List UInt16)) : Option (List UInt16) := elementsText lang 0 path

/-- `KeyPath.parse(String)`: what the reader still delivers is dropped. -/
def KeyPath.parseString (value : List UInt16) : Except ParseExn (List (List UInt16)) :=
  (KeyPath.parse lang value).map Prod.fst

/-- A key that can be written without quotes. -/
def Lang.IsPlain (key : List UInt16) : Prop :=
  lang.isIdentifier key = true ∨ lang.isIndex key = true

instance (key : List UInt16) : Decidable (lang.IsPlain key) :=
  inferInstanceAs (Decidable (_ ∨ _))

/-- A key and the brackets it is printed in. -/
def bracketedText (key : List UInt16) : List UInt16 :=
  if (key.head?.map lang.isDigit).getD false then unit '[' :: key ++ [unit ']'] else key

/-- A key after the first one, as it is printed. -/
def followingText (key : List UInt16) : List UInt16 :=
  if (key.head?.map lang.isDigit).getD false then unit '[' :: key ++ [unit ']']
  else unit '.' :: key

variable {lang}

theorem elementText_zero {key : List UInt16} (hne : key ≠ []) :
    elementText lang 0 key = some (bracketedText lang key) := by
  obtain ⟨c, key, rfl⟩ := List.exists_cons_of_ne_nil hne
  rw [elementText, bracketedText, List.head?_cons, Option.map_some, Option.getD_some]
  split_ifs with hc hi
  · rfl
  · exact absurd hi (lt_irrefl 0)
  · rfl

theorem elementText_succ (i : ℕ) {key : List UInt16} (hne : key ≠ []) :
    elementText lang (i + 1) key = some (followingText lang key) := by
  obtain ⟨c, key, rfl⟩ := List.exists_cons_of_ne_nil hne
  rw [elementText, followingText, List.head?_cons, Option.map_some, Option.getD_some]
  split_ifs with hc hi
  · rfl
  · rfl
  · exact absurd (Nat.succ_pos i) hi

theorem elementsText_succ (i : ℕ) {keys : List (List UInt16)} (hne : ∀ key ∈ keys, key ≠ []) :
    elementsText lang (i + 1) keys = some (keys.flatMap (followingText lang)) := by
  induction keys generalizing i with
  | nil => rfl
  | cons key keys ih =>
      have hrest := ih (i + 1) fun e he => hne e (List.mem_cons_of_mem _ he)
      rw [elementsText, elementText_succ i (hne key List.mem_cons_self), hrest, List.flatMap_cons]
      rfl

/-- The text of a path without empty keys. -/
theorem toString_cons {first : List UInt16} {keys : List (List UInt16)}
    (hne : ∀ key ∈ first :: keys, key ≠ []) :
    KeyPath.toString lang (first :: keys) =
      some (bracketedText lang first ++ keys.flatMap (followingText lang)) := by
  have hrest : elementsText lang 1 keys = some (keys.flatMap (followingText lang)) :=
    elementsText_succ 0 fun key hkey => hne key (List.mem_cons_of_mem _ hkey)
  rw [KeyPath.toString, elementsText, elementText_zero (hne first List.mem_cons_self), hrest]
  rfl

/-! ## Plain keys -/

theorem isIndex_iff {key : List UInt16} :
    lang.isIndex key = true ↔ key ≠ [] ∧ ∀ c ∈ key, lang.isDigit c = true := by
  rw [Lang.isIndex, Bool.and_eq_true, Bool.not_eq_true', List.all_eq_true,
    List.isEmpty_eq_false_iff]

theorem head_digit_iff (h : lang.Documented) {key : List UInt16} (hkey : lang.IsPlain key) :
    (key.head?.map lang.isDigit).getD false = true ↔ ¬lang.isIdentifier key = true := by
  rcases key with _ | ⟨c, key⟩
  · rcases hkey with hid | hindex
    · cases hid
    · cases hindex
  rw [List.head?_cons, Option.map_some, Option.getD_some]
  constructor
  · intro hc hid
    rw [Lang.isIdentifier, Bool.and_eq_true, h.not_start_of_digit c hc] at hid
    exact absurd hid.1 Bool.false_ne_true
  · intro hid
    exact (isIndex_iff.mp (hkey.resolve_left hid)).2 c List.mem_cons_self

/-- A plain key is printed as it is written. -/
theorem followingText_plain (h : lang.Documented) {key : List UInt16} (hkey : lang.IsPlain key) :
    followingText lang key = keyText lang key := by
  have hhead := head_digit_iff h hkey
  rw [followingText, keyText]
  by_cases hid : lang.isIdentifier key = true
  · rw [if_pos hid, if_neg fun hc => hhead.mp hc hid]
  · rw [if_neg hid, if_pos (hkey.resolve_left hid), if_pos (hhead.mpr hid)]

theorem bracketedText_identifier (h : lang.Documented) {key : List UInt16}
    (hid : lang.isIdentifier key = true) : bracketedText lang key = key :=
  if_neg fun hc => (head_digit_iff h (Or.inl hid)).mp hc hid

theorem bracketedText_index (h : lang.Documented) {key : List UInt16} (hkey : lang.IsPlain key)
    (hid : ¬lang.isIdentifier key = true) : bracketedText lang key = keyText lang key := by
  have hhead := (head_digit_iff h hkey).mpr hid
  rw [← followingText_plain h hkey, bracketedText, followingText, if_pos hhead, if_pos hhead]

/-! ## Keys that come back -/

theorem Lang.IsPlain.isKey {key : List UInt16} (hkey : lang.IsPlain key) : lang.IsKey key := by
  rcases hkey with hid | hindex
  · exact Or.inl hid
  · exact Or.inr (Or.inl hindex)

theorem Lang.IsPlain.isRead {key : List UInt16} (hkey : lang.IsPlain key) :
    lang.KeyIsRead key := by
  rcases hkey with hid | hindex
  · exact Or.inl hid
  · exact Or.inr (Or.inl hindex)

/-- A path of plain keys comes back, also one that begins with an index. -/
theorem parse_plain (h : lang.Documented) {first : List UInt16} {keys : List (List UInt16)}
    (hplain : ∀ key ∈ first :: keys, lang.IsPlain key) :
    KeyPath.parse lang (bracketedText lang first ++ keys.flatMap (followingText lang)) =
      .ok (first :: keys, []) := by
  have htail : keys.flatMap (followingText lang) = keysText lang keys [] := by
    rw [keysText, List.append_nil]
    exact List.flatMap_congr fun key hkey =>
      followingText_plain h (hplain key (List.mem_cons_of_mem _ hkey))
  have hfirst := hplain first List.mem_cons_self
  have hkeys : ∀ key ∈ keys, lang.IsKey key := fun key hkey =>
    (hplain key (List.mem_cons_of_mem _ hkey)).isKey
  have hread : ∀ key ∈ keys, lang.KeyIsRead key := fun key hkey =>
    (hplain key (List.mem_cons_of_mem _ hkey)).isRead
  rw [htail]
  by_cases hid : lang.isIdentifier first = true
  · have hback := parse_keyPathText h ⟨hid, hkeys⟩ hread boundary_nil
    rw [keyPathText_append] at hback
    rw [bracketedText_identifier h hid]
    exact hback
  · -- without a dot before it, the bracket is read as after a key
    have hall : ∀ key ∈ first :: keys, lang.IsKey key := fun key hkey => (hplain key hkey).isKey
    have hlen : (first :: keys).length ≤ (keysText lang (first :: keys) []).length + 1 :=
      Nat.le_succ_of_le (length_keys_le (first :: keys) [])
    have hback := parseRest_keysText h hall (fun key hkey => (hplain key hkey).isRead)
      boundary_nil hlen
    obtain ⟨w, hw⟩ := keyText_bracket hid
    rw [bracketedText_index h hfirst hid, ← keysText_cons]
    rw [keysText_cons, hw, List.cons_append] at hback ⊢
    rw [parseRest, skipDot_of_ne (by decide)] at hback
    rw [KeyPath.parse, show parseKeys lang _ _ = _ from hback]
    rfl

/-! ## Keys that are read from their text -/

/-- A key without quotes consists of digits and stands before its closing bracket. -/
theorem readBracketed_unquoted {quote : UInt16} {reader key rest : List UInt16}
    (hread : readBracketed lang quote false reader = .ok (key, rest)) :
    (key ≠ [] ∧ ∀ c ∈ key, lang.isDigit c = true) ∧ reader = key ++ unit ']' :: rest := by
  induction reader generalizing key rest with
  | nil => cases hread
  | cons c reader ih =>
      rw [readBracketed.eq_def] at hread
      simp only [Bool.not_false, Bool.true_and, Bool.false_and, Bool.false_eq_true, if_false]
        at hread
      split_ifs at hread with hcontrol hdigit
      have hc : lang.isDigit c = true := by
        rwa [Bool.not_eq_true', Bool.not_eq_false] at hdigit
      rcases reader with _ | ⟨d, reader⟩
      · cases hread
      simp only at hread
      split_ifs at hread with hclose
      · obtain ⟨rfl, rfl⟩ := Prod.mk.inj (Except.ok.inj hread)
        rw [beq_iff_eq] at hclose
        subst hclose
        refine ⟨⟨List.cons_ne_nil _ _, ?_⟩, rfl⟩
        rintro e he
        rwa [List.mem_singleton.mp he]
      · cases hrec : readBracketed lang quote false (d :: reader) with
        | error e => rw [hrec] at hread; cases hread
        | ok result =>
            obtain ⟨hdigits, hreader⟩ := ih hrec
            rw [hrec] at hread
            obtain ⟨rfl, rfl⟩ := Prod.mk.inj (Except.ok.inj hread)
            refine ⟨⟨List.cons_ne_nil _ _, ?_⟩, congrArg (c :: ·) hreader⟩
            rintro e he
            rcases List.mem_cons.mp he with rfl | he
            · exact hc
            · exact hdigits.2 e he

/-- A quoted key begins with the first unit that is read. -/
theorem readBracketed_head {quote c : UInt16} {reader key rest : List UInt16}
    (hread : readBracketed lang quote true (c :: reader) = .ok (key, rest)) :
    ∃ keys, key = c :: keys := by
  have hbind : ∀ x : Except ParseExn (List UInt16 × List UInt16),
      (x.bind fun k => .ok (c :: k.1, k.2)) = .ok (key, rest) → ∃ keys, key = c :: keys := by
    rintro (e | k) hx
    · cases hx
    · exact ⟨k.1, (Prod.mk.inj (Except.ok.inj hx)).1.symm⟩
  rw [readBracketed.eq_def] at hread
  simp only [Bool.not_true, Bool.true_and, Bool.false_and, Bool.false_eq_true, if_false,
    if_true] at hread
  split_ifs at hread with hcontrol
  rcases reader with _ | ⟨d, reader⟩
  · cases hread
  simp only at hread
  split_ifs at hread with hquote hclose
  · rcases reader with _ | ⟨e, reader⟩
    · cases hread
    simp only at hread
    split_ifs at hread with he
    · exact ⟨[], (Prod.mk.inj (Except.ok.inj hread)).1.symm⟩
    · exact hbind _ hread
  · exact hbind _ hread

/-- After its first unit a quoted key does not hold its quote. -/
theorem readBracketed_quote {quote : UInt16} (hquote : lang.isDigit quote = false)
    {reader key rest : List UInt16}
    (hread : readBracketed lang quote true reader = .ok (key, rest)) : quote ∉ key.tail := by
  induction reader generalizing key rest with
  | nil => cases hread
  | cons c reader ih =>
      rw [readBracketed.eq_def] at hread
      simp only [Bool.not_true, Bool.true_and, Bool.false_and, Bool.false_eq_true, if_false,
        if_true] at hread
      split_ifs at hread with hcontrol
      rcases reader with _ | ⟨d, reader⟩
      · cases hread
      simp only at hread
      split_ifs at hread with hd hclose
      · -- only digits follow the closing quote
        rcases reader with _ | ⟨e, reader⟩
        · cases hread
        simp only at hread
        split_ifs at hread with he
        · obtain ⟨rfl, rfl⟩ := Prod.mk.inj (Except.ok.inj hread)
          exact List.not_mem_nil
        · cases hrec : readBracketed lang quote false (e :: reader) with
          | error e => rw [hrec] at hread; cases hread
          | ok result =>
              obtain ⟨hdigits, -⟩ := readBracketed_unquoted hrec
              rw [hrec] at hread
              obtain ⟨rfl, rfl⟩ := Prod.mk.inj (Except.ok.inj hread)
              intro hm
              have := hdigits.2 quote hm
              rw [hquote] at this
              cases this
      · cases hrec : readBracketed lang quote true (d :: reader) with
        | error e => rw [hrec] at hread; cases hread
        | ok result =>
            obtain ⟨keys, hkeys⟩ := readBracketed_head hrec
            have htail := ih hrec
            rw [hrec] at hread
            obtain ⟨rfl, rfl⟩ := Prod.mk.inj (Except.ok.inj hread)
            rw [hkeys] at htail
            change quote ∉ result.1
            rw [hkeys, List.mem_cons, not_or]
            exact ⟨fun heq => hd (beq_iff_eq.mpr heq.symm), htail⟩

/-- A turn of the loop over the keys that gives one. -/
theorem parseKeys_cons {fuel : ℕ} {reader key r : List UInt16} {keys : List (List UInt16)}
    (hparse : parseKeys lang fuel reader = .ok (key :: keys, r)) :
    ∃ n c rest, reader.head? = some c ∧ lang.startsKey c = true ∧
      readKey lang reader = .ok (key, rest) ∧ parseRest lang n rest = .ok (keys, r) := by
  rcases fuel with _ | fuel
  · cases hparse
  rcases reader with _ | ⟨c, reader⟩
  · cases hparse
  by_cases hstart : lang.startsKey c = true
  · cases hread : readKey lang (c :: reader) with
    | error e =>
        rw [parseKeys_error fuel rfl hstart hread] at hparse
        cases hparse
    | ok k =>
        by_cases hne : k.1 = []
        · rw [parseKeys, if_pos (show ((c :: reader).head?.map lang.startsKey).getD false = true
            from hstart), hread] at hparse
          change (skipDot k.2).bind _ = _ at hparse
          cases hskip : skipDot k.2 with
          | error e => rw [hskip] at hparse; cases hparse
          | ok rest =>
              rw [hskip] at hparse
              change (if k.1 = [] then _ else _) = _ at hparse
              rw [if_pos hne] at hparse
              cases hparse
        · rw [parseKeys_succ fuel rfl hstart hread hne] at hparse
          cases hrest : parseRest lang fuel k.2 with
          | error e => rw [hrest] at hparse; cases hparse
          | ok ks =>
              rw [hrest] at hparse
              obtain ⟨hkeys, hr⟩ := Prod.mk.inj (Except.ok.inj hparse)
              obtain ⟨hkey, htail⟩ := List.cons.inj hkeys
              refine ⟨fuel, c, k.2, rfl, hstart, ?_, ?_⟩
              · rw [← hkey]
              · rw [hrest, ← htail, ← hr]
  · rw [parseKeys, if_neg (show ¬((c :: reader).head?.map lang.startsKey).getD false = true
      from hstart)] at hparse
    cases hparse

theorem isPlain_of_bracket (h : lang.Documented) {key text rest : List UInt16} {c : UInt16}
    (hc : lang.isDigit c = true)
    (hread : readKey lang (unit '[' :: c :: key ++ unit ']' :: text) = .ok (c :: key, rest)) :
    lang.IsPlain (c :: key) ∧ rest = text := by
  have hq : ¬(c == unit '"' || c == unit '\'') = true := by
    rw [Bool.or_eq_true, beq_iff_eq, beq_iff_eq]
    rintro (heq | heq)
    · exact h.digit_ne hc (by decide) (by decide) heq
    · exact h.digit_ne hc (by decide) (by decide) heq
  rw [List.cons_append, readKey, if_pos (beq_self_eq_true _), List.cons_append, readBracketKey,
    if_neg hq] at hread
  obtain ⟨hdigits, htext⟩ := readBracketed_unquoted hread
  rw [List.cons_append, List.cons_inj_right, List.append_cancel_left_eq, List.cons_inj_right]
    at htext
  exact ⟨Or.inr (isIndex_iff.mpr hdigits), htext.symm⟩

/-- A key that begins with a bracket is not read from its own text. -/
theorem readKey_open (h : lang.Documented) {key text rest : List UInt16}
    (htext : ∀ c ∈ text.head?, c ≠ unit '"' ∧ c ≠ unit '\'') :
    readKey lang (unit '[' :: key ++ text) ≠ .ok (unit '[' :: key, rest) := by
  intro hread
  rw [List.cons_append, readKey, if_pos (beq_self_eq_true _)] at hread
  have hopen : lang.isDigit (unit '[') = false := by
    rw [h.digit_unit (by decide)]
    decide
  rcases hreader : key ++ text with _ | ⟨d, reader⟩
  · rw [hreader] at hread
    cases hread
  rw [hreader, readBracketKey] at hread
  by_cases hd : (d == unit '"' || d == unit '\'') = true
  · rw [if_pos hd] at hread
    rw [Bool.or_eq_true, beq_iff_eq, beq_iff_eq] at hd
    have hdigit : lang.isDigit d = false := by
      rcases hd with rfl | rfl
      · rw [h.digit_unit (by decide)]; decide
      · rw [h.digit_unit (by decide)]; decide
    have hquote := readBracketed_quote hdigit hread
    rcases key with _ | ⟨e, key⟩
    · rw [List.nil_append] at hreader
      have hne := htext d (by rw [hreader]; rfl)
      rcases hd with rfl | rfl
      · exact hne.1 rfl
      · exact hne.2 rfl
    · obtain ⟨rfl, -⟩ := List.cons.inj hreader
      exact hquote List.mem_cons_self
  · rw [if_neg hd] at hread
    obtain ⟨hdigits, -⟩ := readBracketed_unquoted hread
    have := hdigits.2 (unit '[') List.mem_cons_self
    rw [hopen] at this
    cases this

theorem span_eq {p : UInt16 → Bool} {xs ys zs : List UInt16} (h : xs.span p = (ys, zs)) :
    (∀ c ∈ ys, p c = true) ∧ xs = ys ++ zs := by
  rw [List.span_eq_takeWhile_dropWhile] at h
  obtain ⟨rfl, rfl⟩ := Prod.mk.inj h
  exact ⟨fun c hc => List.mem_takeWhile_imp hc, List.takeWhile_append_dropWhile.symm⟩

/-- A key that is read from its text is plain, and what follows it is what was printed after it. -/
theorem isPlain_of_parseKeys (h : lang.Documented) {fuel : ℕ} {key text r : List UInt16}
    {keys : List (List UInt16)} (hne : key ≠ [])
    (htext : ∀ c ∈ text.head?, c ≠ unit '"' ∧ c ≠ unit '\'')
    (hparse : parseKeys lang fuel (bracketedText lang key ++ text) = .ok (key :: keys, r)) :
    lang.IsPlain key ∧ ∃ n, parseRest lang n text = .ok (keys, r) := by
  obtain ⟨n, d, rest, hhead, hstart, hread, hrest⟩ := parseKeys_cons hparse
  obtain ⟨c, key, rfl⟩ := List.exists_cons_of_ne_nil hne
  rw [bracketedText, List.head?_cons, Option.map_some, Option.getD_some] at hhead hread
  by_cases hc : lang.isDigit c = true
  · rw [if_pos hc, List.append_assoc, List.singleton_append] at hread
    obtain ⟨hplain, rfl⟩ := isPlain_of_bracket h hc hread
    exact ⟨hplain, n, hrest⟩
  · rw [if_neg hc] at hhead hread
    by_cases hopen : c = unit '['
    · subst hopen
      exact absurd hread (readKey_open h htext)
    · rw [List.cons_append, readKey, if_neg (by rwa [beq_iff_eq])] at hread
      obtain ⟨hparts, happ⟩ := span_eq (Except.ok.inj hread)
      obtain rfl : text = rest :=
        List.append_cancel_left (show (c :: key) ++ text = (c :: key) ++ rest from happ)
      obtain rfl := Option.some.inj hhead
      rw [Lang.startsKey, Bool.or_eq_true, beq_iff_eq] at hstart
      refine ⟨Or.inl ?_, n, hrest⟩
      rw [Lang.isIdentifier, Bool.and_eq_true, List.all_eq_true]
      refine ⟨hstart.resolve_right hopen, fun e he => ?_⟩
      have hpart := hparts e (List.mem_cons_of_mem _ he)
      rw [Lang.isKeyPart, Bool.and_eq_true] at hpart
      exact hpart.2

theorem skipDot_followingText {key : List UInt16} (hne : key ≠ []) (text : List UInt16) :
    skipDot (followingText lang key ++ text) = .ok (bracketedText lang key ++ text) := by
  rw [followingText, bracketedText]
  by_cases hhead : (key.head?.map lang.isDigit).getD false = true
  · rw [if_pos hhead, if_pos hhead]
    exact skipDot_of_ne (by decide) (key ++ [unit ']'] ++ text)
  · rw [if_neg hhead, if_neg hhead, List.cons_append, skipDot, if_pos (beq_self_eq_true _),
      if_neg (List.append_ne_nil_of_left_ne_nil hne text)]

theorem head_followingTexts (keys : List (List UInt16)) :
    ∀ c ∈ (keys.flatMap (followingText lang)).head?, c ≠ unit '"' ∧ c ≠ unit '\'' := by
  rintro c hc
  rcases keys with _ | ⟨key, keys⟩
  · cases hc
  rw [List.flatMap_cons, followingText] at hc
  split_ifs at hc
  · obtain rfl := Option.some.inj hc
    decide
  · obtain rfl := Option.some.inj hc
    decide

/-- Keys that come back from what is printed of them are plain. -/
theorem isPlain_of_parseRest (h : lang.Documented) {fuel : ℕ} {keys : List (List UInt16)}
    {r : List UInt16} (hne : ∀ key ∈ keys, key ≠ [])
    (hparse : parseRest lang fuel (keys.flatMap (followingText lang)) = .ok (keys, r)) :
    ∀ key ∈ keys, lang.IsPlain key := by
  induction keys generalizing fuel with
  | nil => exact fun key hkey => absurd hkey List.not_mem_nil
  | cons first keys ih =>
      have hfirst := hne first List.mem_cons_self
      rw [List.flatMap_cons, parseRest, skipDot_followingText hfirst] at hparse
      obtain ⟨hplain, n, hrest⟩ :=
        isPlain_of_parseKeys h hfirst (head_followingTexts keys) hparse
      have hkeys := ih (fun key hkey => hne key (List.mem_cons_of_mem _ hkey)) hrest
      rintro key hkey
      rcases List.mem_cons.mp hkey with rfl | hkey
      · exact hplain
      · exact hkeys key hkey

/-! ## The round trip -/

theorem parseKeys_ne_nil {fuel : ℕ} {reader r : List UInt16} {keys : List (List UInt16)}
    (hparse : parseKeys lang fuel reader = .ok (keys, r)) : ∀ key ∈ keys, key ≠ [] := by
  induction fuel generalizing reader keys with
  | zero =>
      obtain ⟨rfl, -⟩ := Prod.mk.inj (Except.ok.inj hparse)
      exact fun key hkey => absurd hkey List.not_mem_nil
  | succ fuel ih =>
      rw [parseKeys] at hparse
      split_ifs at hparse with hstart
      · cases hread : readKey lang reader with
        | error e => rw [hread] at hparse; cases hparse
        | ok k =>
            rw [hread] at hparse
            change (skipDot k.2).bind _ = _ at hparse
            cases hskip : skipDot k.2 with
            | error e => rw [hskip] at hparse; cases hparse
            | ok rest =>
                rw [hskip] at hparse
                by_cases hne : k.1 = []
                · rw [Except.bind, if_pos hne] at hparse
                  cases hparse
                rw [Except.bind, if_neg hne] at hparse
                cases hrest : parseKeys lang fuel rest with
                | error e => rw [hrest] at hparse; cases hparse
                | ok ks =>
                    rw [hrest] at hparse
                    obtain ⟨rfl, rfl⟩ := Prod.mk.inj (Except.ok.inj hparse)
                    rintro key hkey
                    rcases List.mem_cons.mp hkey with rfl | hkey
                    · exact hne
                    · exact ih hrest key hkey
      · obtain ⟨rfl, -⟩ := Prod.mk.inj (Except.ok.inj hparse)
        exact fun key hkey => absurd hkey List.not_mem_nil

/-- The path an accepted string is read as: its keys are there and not empty. -/
theorem parseString_keys {value : List UInt16} {path : List (List UInt16)}
    (hparse : KeyPath.parseString lang value = .ok path) :
    ∃ r, parseKeys lang (value.length + 1) value = .ok (path, r) ∧ path ≠ [] := by
  rw [KeyPath.parseString, KeyPath.parse] at hparse
  cases hkeys : parseKeys lang (value.length + 1) value with
  | error e => rw [hkeys] at hparse; cases hparse
  | ok k =>
      rw [hkeys] at hparse
      change Except.map Prod.fst (if k.1 = [] then _ else _) = _ at hparse
      by_cases hne : k.1 = []
      · rw [if_pos hne] at hparse
        cases hparse
      · rw [if_neg hne] at hparse
        obtain rfl := Except.ok.inj hparse
        exact ⟨k.2, rfl, hne⟩

variable (lang)

/-- **The text of a key path.** The path of an accepted string is read back from its text exactly
when each of its keys is an identifier or consists of digits. -/
theorem parse_toString_iff (h : lang.Documented) {value : List UInt16} {path : List (List UInt16)}
    (hparse : KeyPath.parseString lang value = .ok path) :
    (∃ text, KeyPath.toString lang path = some text ∧ KeyPath.parseString lang text = .ok path) ↔
      ∀ key ∈ path, lang.IsPlain key := by
  obtain ⟨r, hkeys, hpath⟩ := parseString_keys hparse
  have hne := parseKeys_ne_nil hkeys
  obtain ⟨first, keys, rfl⟩ := List.exists_cons_of_ne_nil hpath
  constructor
  · rintro ⟨text, htext, hback⟩
    rw [toString_cons hne] at htext
    obtain rfl := Option.some.inj htext
    obtain ⟨r', hagain, -⟩ := parseString_keys hback
    obtain ⟨hplain, n, hrest⟩ := isPlain_of_parseKeys h (hne first List.mem_cons_self)
      (head_followingTexts keys) hagain
    have hothers := isPlain_of_parseRest h
      (fun key hkey => hne key (List.mem_cons_of_mem _ hkey)) hrest
    rintro key hkey
    rcases List.mem_cons.mp hkey with rfl | hkey
    · exact hplain
    · exact hothers key hkey
  · intro hplain
    refine ⟨_, toString_cons hne, ?_⟩
    rw [KeyPath.parseString, parse_plain h hplain]
    rfl

/-- An index and identifiers after each other. -/
theorem indexed_path_comes_back :
    KeyPath.parseString asciiLang (units "a[1].b") = .ok [units "a", units "1", units "b"] ∧
      ∃ text, KeyPath.toString asciiLang [units "a", units "1", units "b"] = some text ∧
        KeyPath.parseString asciiLang text = .ok [units "a", units "1", units "b"] := by
  have hparse : KeyPath.parseString asciiLang (units "a[1].b") =
      .ok [units "a", units "1", units "b"] := by decide +kernel
  refine ⟨hparse, (parse_toString_iff asciiLang asciiLang_documented hparse).mpr ?_⟩
  decide +kernel

/-- A quoted key with a dot comes back as two keys. -/
theorem dotted_key_splits :
    KeyPath.parseString asciiLang (units "a[\"b.c\"]") = .ok [units "a", units "b.c"] ∧
      KeyPath.toString asciiLang [units "a", units "b.c"] = some (units "a.b.c") ∧
      KeyPath.parseString asciiLang (units "a.b.c") = .ok [units "a", units "b", units "c"] ∧
      [units "a", units "b", units "c"] ≠ [units "a", units "b.c"] := by
  decide +kernel

end JavaFx.Fxml
