import JavaFx.Fxml.LiteralLexing

/-!
# Reading printed key paths

A key path comes back from its text unless a quoted key has a `]` after its first unit, which ends
the bracket inside the quotes.
-/

namespace JavaFx.Fxml

variable {R : Type} {lang : Lang R}

/-! ## Keys -/

/-- The keys that can be written after the first: identifiers, indexes, and texts without control
characters that leave one of the quotes free. -/
def Lang.IsKey (lang : Lang R) (key : List UInt16) : Prop :=
  lang.isIdentifier key = true ∨ lang.isIndex key = true ∨
    (key ≠ [] ∧ (∀ c ∈ key, isISOControl c = false) ∧ ¬(unit '"' ∈ key ∧ unit '\'' ∈ key))

/-- A quoted key has no `]` after its first unit. -/
def Lang.KeyIsRead (lang : Lang R) (key : List UInt16) : Prop :=
  lang.isIdentifier key = true ∨ lang.isIndex key = true ∨ unit ']' ∉ key.tail

theorem isKeyPart_of_part (h : lang.Documented) {c : UInt16}
    (hc : lang.isJavaIdentifierPart c = true) : lang.isKeyPart c = true := by
  have hdot : c ≠ unit '.' := h.part_ne hc (by decide) (by decide)
  have hopen : c ≠ unit '[' := h.part_ne hc (by decide) (by decide)
  rw [Lang.isKeyPart, hc, Bool.and_true, Bool.and_eq_true, bne_iff_ne, bne_iff_ne]
  exact ⟨hdot, hopen⟩

theorem part_of_isIdentifier (h : lang.Documented) {key : List UInt16}
    (hkey : lang.isIdentifier key = true) : ∀ c ∈ key, lang.isJavaIdentifierPart c = true := by
  rcases key with _ | ⟨c, key⟩
  · cases hkey
  rw [Lang.isIdentifier, Bool.and_eq_true, List.all_eq_true] at hkey
  rintro d hd
  rcases List.mem_cons.mp hd with rfl | hd
  · exact h.part_of_start d hkey.1
  · exact hkey.2 d hd

/-- What stands after a key: a dot, a bracket, or the end of the path. -/
def EndsKey (rest : List UInt16) : Prop :=
  ∀ c ∈ rest.head?, c = unit '.' ∨ c = unit '[' ∨ c = unit ' '

theorem isKeyPart_endsKey (h : lang.Documented) {rest : List UInt16} (hrest : EndsKey rest) :
    ∀ c ∈ rest.head?, lang.isKeyPart c = false := by
  rintro c hc
  rcases hrest c hc with rfl | rfl | rfl
  · rfl
  · rfl
  · rw [Lang.isKeyPart, h.part_ascii _ (by decide)]
    decide

theorem readKey_identifier (h : lang.Documented) {key : List UInt16}
    (hkey : lang.isIdentifier key = true) {rest : List UInt16} (hrest : EndsKey rest) :
    readKey lang (key ++ rest) = .ok (key, rest) := by
  have hspan := span_boundary
    (fun c hc => isKeyPart_of_part h (part_of_isIdentifier h hkey c hc)) (isKeyPart_endsKey h hrest)
  rcases key with _ | ⟨c, key⟩
  · cases hkey
  rw [Lang.isIdentifier, Bool.and_eq_true] at hkey
  have hopen : (c == unit '[') = false :=
    beq_eq_false_iff_ne.mpr (h.start_ne hkey.1 (by decide) (by decide))
  rw [List.cons_append, readKey, if_neg (by rw [hopen]; exact Bool.false_ne_true)]
  exact congrArg Except.ok hspan

theorem readBracketed_step {quote : UInt16} {quoted : Bool} {c d : UInt16}
    (hc : isISOControl c = false) (hdigit : quoted = true ∨ lang.isDigit c = true)
    (hq : (quoted && d == quote) = false) (hd : (d == unit ']') = false)
    {rest : List UInt16} :
    readBracketed lang quote quoted (c :: d :: rest) =
      (readBracketed lang quote quoted (d :: rest)).bind fun key => .ok (c :: key.1, key.2) := by
  have hcond : (!quoted && !lang.isDigit c) = false := by
    rcases hdigit with rfl | hdigit
    · rfl
    · rw [hdigit, Bool.not_true, Bool.and_false]
  conv_lhs => rw [readBracketed.eq_def]
  simp only [hc, hcond, hq, hd, Bool.false_eq_true, if_false]
  rfl

theorem readBracketed_index (h : lang.Documented) {key : List UInt16} (hne : key ≠ [])
    (hkey : ∀ c ∈ key, lang.isDigit c = true) (rest : List UInt16) :
    readBracketed lang 0 false (key ++ unit ']' :: rest) = .ok (key, rest) := by
  induction key with
  | nil => exact absurd rfl hne
  | cons c key ih =>
      have hc := hkey c List.mem_cons_self
      have hcontrol := h.not_control_of_digit c hc
      rcases key with _ | ⟨d, key⟩
      · have hcond : (!false && !lang.isDigit c) = false := by rw [hc]; rfl
        rw [List.cons_append, List.nil_append, readBracketed.eq_def]
        simp only [hcontrol, hcond, Bool.false_and, beq_self_eq_true, Bool.false_eq_true, if_false,
          if_true]
      · have hd : (d == unit ']') = false := beq_eq_false_iff_ne.mpr
          (h.digit_ne (hkey d (List.mem_cons_of_mem _ List.mem_cons_self)) (by decide) (by decide))
        have hrec := ih (List.cons_ne_nil _ _) fun e he => hkey e (List.mem_cons_of_mem _ he)
        rw [List.cons_append, List.cons_append,
          readBracketed_step hcontrol (Or.inr hc) (Bool.false_and _) hd]
        rw [List.cons_append] at hrec
        rw [hrec]
        rfl

theorem readBracketed_quoted {quote : UInt16} {key : List UInt16} (hne : key ≠ [])
    (hcontrol : ∀ c ∈ key, isISOControl c = false) (hquote : quote ∉ key)
    (hclose : unit ']' ∉ key.tail) (rest : List UInt16) :
    readBracketed lang quote true (key ++ quote :: unit ']' :: rest) = .ok (key, rest) := by
  induction key with
  | nil => exact absurd rfl hne
  | cons c key ih =>
      have hc := hcontrol c List.mem_cons_self
      rcases key with _ | ⟨d, key⟩
      · have hcond : (!true && !lang.isDigit c) = false := rfl
        rw [List.cons_append, List.nil_append, readBracketed.eq_def]
        simp only [hc, hcond, Bool.true_and, beq_self_eq_true, Bool.false_eq_true, if_false,
          if_true]
      · have hd : (d == unit ']') = false := by
          refine beq_eq_false_iff_ne.mpr ?_
          rintro rfl
          exact hclose List.mem_cons_self
        have hq : (true && d == quote) = false := by
          rw [Bool.true_and]
          refine beq_eq_false_iff_ne.mpr ?_
          rintro rfl
          exact hquote (List.mem_cons_of_mem _ List.mem_cons_self)
        have hrec := ih (List.cons_ne_nil _ _) (fun e he => hcontrol e (List.mem_cons_of_mem _ he))
          (fun hm => hquote (List.mem_cons_of_mem _ hm))
          (fun hm => hclose (List.mem_cons_of_mem _ hm))
        rw [List.cons_append, List.cons_append, readBracketed_step hc (Or.inl rfl) hq hd]
        rw [List.cons_append] at hrec
        rw [hrec]
        rfl

/-- A `]` in the quotes ends the loop while the quotes are open. -/
theorem readBracketed_close {quote : UInt16} {key : List UInt16}
    (hcontrol : ∀ c ∈ key, isISOControl c = false) (hquote : quote ∉ key)
    (hclose : unit ']' ∈ key.tail) (rest : List UInt16) :
    readBracketed lang quote true (key ++ rest) =
      .error (.illegalArgument "Unterminated quoted identifier.") := by
  induction key with
  | nil => exact absurd hclose List.not_mem_nil
  | cons c key ih =>
      have hc := hcontrol c List.mem_cons_self
      rcases key with _ | ⟨d, key⟩
      · exact absurd hclose List.not_mem_nil
      have hq : (true && d == quote) = false := by
        rw [Bool.true_and]
        refine beq_eq_false_iff_ne.mpr ?_
        rintro rfl
        exact hquote (List.mem_cons_of_mem _ List.mem_cons_self)
      by_cases hd : (d == unit ']') = true
      · have hcond : (!true && !lang.isDigit c) = false := rfl
        rw [List.cons_append, List.cons_append, readBracketed.eq_def]
        simp only [hc, hcond, hq, hd, Bool.false_eq_true, if_false, if_true]
      · have hmem : unit ']' ∈ key := by
          rcases List.mem_cons.mp hclose with heq | hmem
          · exact absurd (beq_iff_eq.mpr heq.symm) hd
          · exact hmem
        have hrec := ih (fun e he => hcontrol e (List.mem_cons_of_mem _ he))
          (fun hm => hquote (List.mem_cons_of_mem _ hm)) hmem
        rw [List.cons_append, List.cons_append,
          readBracketed_step hc (Or.inl rfl) hq (eq_false_of_ne_true hd)]
        rw [List.cons_append] at hrec
        rw [hrec]
        rfl

theorem quoteOf_not_mem {key : List UInt16} (h : ¬(unit '"' ∈ key ∧ unit '\'' ∈ key)) :
    quoteOf key ∉ key := by
  unfold quoteOf
  split
  · next hq => exact fun hm => h ⟨hq, hm⟩
  · next hq => exact hq

theorem isQuote_quoteOf (key : List UInt16) :
    (quoteOf key == unit '"' || quoteOf key == unit '\'') = true := by
  unfold quoteOf
  split <;> rfl

/-! ## Paths -/

/-- The keys after the first, with what follows the path. -/
def keysText (lang : Lang R) (keys : List (List UInt16)) (k : List UInt16) : List UInt16 :=
  keys.flatMap (keyText lang) ++ k

/-- What `KeyPath.parse` does after a key. -/
def parseRest (lang : Lang R) (fuel : ℕ) (reader : List UInt16) :
    Except ParseExn (List (List UInt16) × List UInt16) :=
  (skipDot reader).bind (parseKeys lang fuel)

theorem keysText_cons (key : List UInt16) (keys : List (List UInt16)) (k : List UInt16) :
    keysText lang (key :: keys) k = keyText lang key ++ keysText lang keys k := by
  rw [keysText, List.flatMap_cons, List.append_assoc, keysText]

theorem endsKey_keysText (keys : List (List UInt16)) {k : List UInt16} (hk : EndsKey k) :
    EndsKey (keysText lang keys k) := by
  rcases keys with _ | ⟨key, keys⟩
  · exact hk
  rw [keysText_cons, keyText]
  rintro c hc
  split_ifs at hc
  · exact Or.inl (Option.some.inj hc).symm
  · exact Or.inr (Or.inl (Option.some.inj hc).symm)
  · exact Or.inr (Or.inl (Option.some.inj hc).symm)

/-- A turn of the loop over the keys. -/
theorem parseKeys_succ {reader rest : List UInt16} {key : List UInt16} (fuel : ℕ) {c : UInt16}
    (hhead : reader.head? = some c) (hstart : lang.startsKey c = true)
    (hread : readKey lang reader = .ok (key, rest)) (hne : key ≠ []) :
    parseKeys lang (fuel + 1) reader =
      (parseRest lang fuel rest).bind fun keys => .ok (key :: keys.1, keys.2) := by
  have hcond : (reader.head?.map lang.startsKey).getD false = true := by
    rw [hhead]
    exact hstart
  rw [parseKeys, if_pos hcond, hread, parseRest]
  change (skipDot rest).bind _ = _
  cases skipDot rest with
  | error e => rfl
  | ok r => exact if_neg hne

theorem parseKeys_error {reader : List UInt16} (fuel : ℕ) {c : UInt16} {e : ParseExn}
    (hhead : reader.head? = some c) (hstart : lang.startsKey c = true)
    (hread : readKey lang reader = .error e) : parseKeys lang (fuel + 1) reader = .error e := by
  have hcond : (reader.head?.map lang.startsKey).getD false = true := by
    rw [hhead]
    exact hstart
  rw [parseKeys, if_pos hcond, hread]
  rfl

theorem startsKey_bracket : lang.startsKey (unit '[') = true := by
  rw [Lang.startsKey, beq_self_eq_true, Bool.or_true]

/-- A key that is not an identifier, after its bracket. -/
theorem readBracketKey_keyText (h : lang.Documented) {key : List UInt16} (hkey : lang.IsKey key)
    (hid : lang.isIdentifier key = false) (hread : lang.KeyIsRead key) (rest : List UInt16) :
    readKey lang (keyText lang key ++ rest) = .ok (key, rest) := by
  have hnid : ¬lang.isIdentifier key = true := by rw [hid]; exact Bool.false_ne_true
  rw [keyText, if_neg hnid]
  by_cases hindex : lang.isIndex key = true
  · have hall := hindex
    rw [Lang.isIndex, Bool.and_eq_true, Bool.not_eq_true', List.all_eq_true] at hall
    have hne : key ≠ [] := List.isEmpty_eq_false_iff.mp hall.1
    have hbracket := readBracketed_index h hne hall.2 rest
    rw [if_pos hindex]
    simp only [List.cons_append, List.append_assoc, List.nil_append]
    rw [readKey, if_pos (beq_self_eq_true _)]
    obtain ⟨c, key, rfl⟩ := List.exists_cons_of_ne_nil hne
    have hc := hall.2 c List.mem_cons_self
    have hq : ¬(c == unit '"' || c == unit '\'') = true := by
      rw [Bool.or_eq_true, beq_iff_eq, beq_iff_eq]
      rintro (heq | heq)
      · exact h.digit_ne hc (by decide) (by decide) heq
      · exact h.digit_ne hc (by decide) (by decide) heq
    rw [List.cons_append, readBracketKey, if_neg hq]
    exact hbracket
  · obtain ⟨hne, hcontrol, hquotes⟩ := (hkey.resolve_left hnid).resolve_left hindex
    have hclose := (hread.resolve_left hnid).resolve_left hindex
    rw [if_neg hindex]
    simp only [List.cons_append, List.append_assoc, List.nil_append]
    rw [readKey, if_pos (beq_self_eq_true _), readBracketKey, if_pos (isQuote_quoteOf key)]
    exact readBracketed_quoted hne hcontrol (quoteOf_not_mem hquotes) hclose rest

theorem readKey_close {key : List UInt16} (hkey : lang.IsKey key)
    (hread : ¬lang.KeyIsRead key) (rest : List UInt16) :
    readKey lang (keyText lang key ++ rest) =
      .error (.illegalArgument "Unterminated quoted identifier.") := by
  unfold Lang.KeyIsRead at hread
  rw [not_or, not_or, not_not] at hread
  obtain ⟨hid, hindex, hclose⟩ := hread
  obtain ⟨-, hcontrol, hquotes⟩ := (hkey.resolve_left hid).resolve_left hindex
  rw [keyText, if_neg hid, if_neg hindex]
  simp only [List.cons_append, List.append_assoc, List.nil_append]
  rw [readKey, if_pos (beq_self_eq_true _), readBracketKey, if_pos (isQuote_quoteOf key)]
  exact readBracketed_close hcontrol (quoteOf_not_mem hquotes) hclose _

theorem skipDot_of_ne {c : UInt16} (hc : c ≠ unit '.') (rest : List UInt16) :
    skipDot (c :: rest) = .ok (c :: rest) := by
  rw [skipDot, if_neg (by rwa [beq_iff_eq])]

theorem keyText_bracket {key : List UInt16} (hid : ¬lang.isIdentifier key = true) :
    ∃ w, keyText lang key = unit '[' :: w := by
  rw [keyText, if_neg hid]
  split
  · exact ⟨_, rfl⟩
  · exact ⟨_, rfl⟩

theorem identifier_head {key : List UInt16} (hkey : lang.isIdentifier key = true)
    (rest : List UInt16) : ∃ c, (key ++ rest).head? = some c ∧ lang.startsKey c = true := by
  rcases key with _ | ⟨c, key⟩
  · cases hkey
  rw [Lang.isIdentifier, Bool.and_eq_true] at hkey
  exact ⟨c, rfl, by rw [Lang.startsKey, hkey.1, Bool.true_or]⟩

theorem identifier_ne_nil {key : List UInt16} (hkey : lang.isIdentifier key = true) : key ≠ [] := by
  rintro rfl
  cases hkey

theorem parseKeys_boundary (h : lang.Documented) {k : List UInt16} (hk : Boundary k) (fuel : ℕ) :
    parseRest lang fuel k = .ok ([], k) := by
  rcases k with _ | ⟨c, k⟩
  · rcases fuel with _ | fuel <;> rfl
  have hc := hk c rfl
  have hstart : lang.startsKey c = false := by
    rw [hc, Lang.startsKey, h.start_ascii _ (by decide)]
    decide
  rw [parseRest, skipDot_of_ne (by rw [hc]; decide)]
  rcases fuel with _ | fuel
  · rfl
  · change parseKeys lang (fuel + 1) (c :: k) = _
    rw [parseKeys, if_neg]
    rw [List.head?_cons, Option.map_some, Option.getD_some, hstart]
    exact Bool.false_ne_true

theorem Boundary.endsKey {k : List UInt16} (hk : Boundary k) : EndsKey k :=
  fun c hc => Or.inr (Or.inr (hk c hc))

theorem Lang.IsKey.ne_nil {key : List UInt16} (hkey : lang.IsKey key) : key ≠ [] := by
  rintro rfl
  rcases hkey with hid | hindex | hquoted
  · cases hid
  · cases hindex
  · exact hquoted.1 rfl

/-- A key that comes back, and the rest of the path after it. -/
theorem parseRest_key (h : lang.Documented) {key : List UInt16} (hkey : lang.IsKey key)
    (hread : lang.KeyIsRead key) {rest : List UInt16} (hrest : EndsKey rest) (fuel : ℕ) :
    parseRest lang (fuel + 1) (keyText lang key ++ rest) =
      (parseRest lang fuel rest).bind fun keys => .ok (key :: keys.1, keys.2) := by
  by_cases hid : lang.isIdentifier key = true
  · obtain ⟨c, hhead, hstart⟩ := identifier_head hid rest
    have hskip : skipDot (unit '.' :: (key ++ rest)) = .ok (key ++ rest) := by
      rw [skipDot, if_pos (beq_self_eq_true _), if_neg]
      intro hnil
      rw [hnil] at hhead
      cases hhead
    rw [keyText, if_pos hid, List.cons_append, parseRest, hskip]
    exact parseKeys_succ fuel hhead hstart (readKey_identifier h hid hrest) hkey.ne_nil
  · have hkeyRead := readBracketKey_keyText h hkey (eq_false_of_ne_true hid) hread rest
    obtain ⟨w, hw⟩ := keyText_bracket hid
    rw [hw, List.cons_append] at hkeyRead ⊢
    rw [parseRest, skipDot_of_ne (by decide)]
    exact parseKeys_succ fuel rfl startsKey_bracket hkeyRead hkey.ne_nil

/-- The keys after the first come back. -/
theorem parseRest_keysText (h : lang.Documented) {keys : List (List UInt16)}
    (hkeys : ∀ key ∈ keys, lang.IsKey key) (hread : ∀ key ∈ keys, lang.KeyIsRead key)
    {k : List UInt16} (hk : Boundary k) {fuel : ℕ} (hfuel : keys.length ≤ fuel) :
    parseRest lang fuel (keysText lang keys k) = .ok (keys, k) := by
  induction keys generalizing fuel with
  | nil => exact parseKeys_boundary h hk fuel
  | cons key keys ih =>
      obtain ⟨fuel, rfl⟩ := Nat.exists_eq_succ_of_ne_zero (Nat.ne_zero_of_lt hfuel)
      have hrec := ih (fun e he => hkeys e (List.mem_cons_of_mem _ he))
        (fun e he => hread e (List.mem_cons_of_mem _ he)) (Nat.le_of_succ_le_succ hfuel)
      rw [keysText_cons, parseRest_key h (hkeys key List.mem_cons_self)
        (hread key List.mem_cons_self) (endsKey_keysText keys hk.endsKey), hrec]
      rfl

/-- A quoted key with a `]` in it ends the path with an exception. -/
theorem parseRest_close (h : lang.Documented) {keys : List (List UInt16)}
    (hkeys : ∀ key ∈ keys, lang.IsKey key) (hread : ¬∀ key ∈ keys, lang.KeyIsRead key)
    {k : List UInt16} (hk : EndsKey k) {fuel : ℕ} (hfuel : keys.length ≤ fuel) :
    parseRest lang fuel (keysText lang keys k) =
      .error (.illegalArgument "Unterminated quoted identifier.") := by
  induction keys generalizing fuel with
  | nil => exact absurd (fun key hm => absurd hm List.not_mem_nil) hread
  | cons key keys ih =>
      have hkey := hkeys key List.mem_cons_self
      obtain ⟨fuel, rfl⟩ := Nat.exists_eq_succ_of_ne_zero (Nat.ne_zero_of_lt hfuel)
      rw [keysText_cons]
      by_cases hbad : lang.KeyIsRead key
      · have hrec := ih (fun e he => hkeys e (List.mem_cons_of_mem _ he))
          (fun hall => hread fun e he => by
            rcases List.mem_cons.mp he with rfl | he
            · exact hbad
            · exact hall e he) (Nat.le_of_succ_le_succ hfuel)
        rw [parseRest_key h hkey hbad (endsKey_keysText keys hk), hrec]
        rfl
      · have hclose := readKey_close hkey hbad (keysText lang keys k)
        have hid : ¬lang.isIdentifier key = true := fun hid => hbad (Or.inl hid)
        obtain ⟨w, hw⟩ := keyText_bracket hid
        rw [hw, List.cons_append] at hclose ⊢
        rw [parseRest, skipDot_of_ne (by decide)]
        exact parseKeys_error _ rfl startsKey_bracket hclose

/-! ## Whole paths -/

/-- The key paths that can be written. -/
def Lang.IsKeyPath (lang : Lang R) : List (List UInt16) → Prop
  | [] => False
  | first :: keys => lang.isIdentifier first = true ∧ ∀ key ∈ keys, lang.IsKey key

theorem length_keyText_pos (key : List UInt16) : 0 < (keyText lang key).length := by
  unfold keyText
  split_ifs <;> exact Nat.succ_pos _

theorem length_keys_le (keys : List (List UInt16)) (k : List UInt16) :
    keys.length ≤ (keysText lang keys k).length := by
  induction keys with
  | nil => exact Nat.zero_le _
  | cons key keys ih =>
      have hpos : 0 < (keyText lang key).length := length_keyText_pos key
      rw [keysText_cons, List.length_append, List.length_cons]
      omega

/-- The first key is read, then the rest. -/
theorem parse_first (h : lang.Documented) {first : List UInt16}
    (hfirst : lang.isIdentifier first = true) {rest : List UInt16} (hrest : EndsKey rest) :
    KeyPath.parse lang (first ++ rest) =
      (parseRest lang (first ++ rest).length rest).bind fun keys => .ok (first :: keys.1, keys.2) := by
  obtain ⟨c, hhead, hstart⟩ := identifier_head hfirst rest
  rw [KeyPath.parse, parseKeys_succ _ hhead hstart (readKey_identifier h hfirst hrest)
    (identifier_ne_nil hfirst)]
  cases parseRest lang (first ++ rest).length rest with
  | error e => rfl
  | ok keys => rfl

theorem keyPathText_append (first : List UInt16) (keys : List (List UInt16)) (k : List UInt16) :
    keyPathText lang (first :: keys) ++ k = first ++ keysText lang keys k := by
  rw [keyPathText, List.append_assoc, keysText]

/-- **Key paths come back.** -/
theorem parse_keyPathText (h : lang.Documented) {first : List UInt16} {keys : List (List UInt16)}
    (hpath : lang.IsKeyPath (first :: keys)) (hread : ∀ key ∈ keys, lang.KeyIsRead key)
    {k : List UInt16} (hk : Boundary k) :
    KeyPath.parse lang (keyPathText lang (first :: keys) ++ k) = .ok (first :: keys, k) := by
  have hlen : keys.length ≤ (first ++ keysText lang keys k).length := by
    have : keys.length ≤ (keysText lang keys k).length := length_keys_le keys k
    rw [List.length_append]
    omega
  rw [keyPathText_append, parse_first h hpath.1 (endsKey_keysText keys hk.endsKey),
    parseRest_keysText h hpath.2 hread hk hlen]
  rfl

theorem parse_keyPathText_close (h : lang.Documented) {first : List UInt16}
    {keys : List (List UInt16)} (hpath : lang.IsKeyPath (first :: keys))
    (hread : ¬∀ key ∈ keys, lang.KeyIsRead key) {k : List UInt16} (hk : Boundary k) :
    KeyPath.parse lang (keyPathText lang (first :: keys) ++ k) =
      .error (.illegalArgument "Unterminated quoted identifier.") := by
  have hlen : keys.length ≤ (first ++ keysText lang keys k).length := by
    have : keys.length ≤ (keysText lang keys k).length := length_keys_le keys k
    rw [List.length_append]
    omega
  rw [keyPathText_append, parse_first h hpath.1 (endsKey_keysText keys hk.endsKey),
    parseRest_close h hpath.2 hread hk.endsKey hlen]
  rfl

end JavaFx.Fxml
