import JavaFx.Input.KeyCombination

/-!
# Names of key combinations

The name of a combination with a key character is a row of tokens, the modifiers first and the
quoted character last. The scan of such a name, with any spaces about the separators, is followed
token by token. A backslash at the end of the character hides the closing quote from it.
-/

namespace JavaFx.Input

open Css (JString lit)
open Web (trim unit)

/-! ## Names as rows of tokens -/

/-- Tokens with a `+` between them; `gap i` is what stands before and behind the `+` after the
token `i`. -/
def spaced (gap : ℕ → JString × JString) : ℕ → List JString → JString → JString
  | _, [], last => last
  | i, token :: tokens, last =>
      token ++ (gap i).1 ++ unit '+' :: (gap i).2 ++ spaced gap (i + 1) tokens last

/-- No spaces about the separators. -/
def tight : ℕ → JString × JString := fun _ => ([], [])

/-- Only spaces stand about the separators. -/
def OnlySpaces (gap : ℕ → JString × JString) : Prop :=
  ∀ i, ∀ c ∈ (gap i).1 ++ (gap i).2, isSpace c = true

/-- The modifiers that are written, in their order. -/
def Modifiers.written (m : Modifiers) : List Modifier :=
  [⟨.SHIFT, m.shift⟩, ⟨.CONTROL, m.control⟩, ⟨.ALT, m.alt⟩, ⟨.META, m.meta_⟩,
    ⟨.SHORTCUT, m.shortcut⟩].filter (·.value ≠ .UP)

def quotedToken (text : JString) : JString := unit '\'' :: escapeQuotes text ++ [unit '\'']

/-- The name of a combination with `gap` about its separators. -/
def spacedName (gap : ℕ → JString × JString) (text : JString) (m : Modifiers) : JString :=
  spaced gap 0 (m.written.map Modifier.toString) (quotedToken text)

/-- Tokens with a `+` after each. -/
def lead (tokens : List JString) : JString := tokens.flatMap (· ++ [unit '+'])

/-- What has been written so far, with a `+` if there is something. -/
def separated (sb : JString) : JString := if sb ≠ [] then sb ++ [unit '+'] else sb

theorem lead_cons (token : JString) (tokens : List JString) :
    lead (token :: tokens) = token ++ unit '+' :: lead tokens := by
  rw [lead, List.flatMap_cons, List.append_assoc, List.singleton_append, lead]

theorem lead_append (xs ys : List JString) : lead (xs ++ ys) = lead xs ++ lead ys :=
  List.flatMap_append

theorem spaced_tight (i : ℕ) (tokens : List JString) (last : JString) :
    spaced tight i tokens last = lead tokens ++ last := by
  induction tokens generalizing i with
  | nil => rfl
  | cons token tokens ih =>
      rw [spaced, ih, lead_cons]
      simp only [tight, List.append_nil, List.cons_append, List.nil_append, List.append_assoc]

theorem separated_append {sb token : JString} (hne : token ≠ []) :
    separated (separated sb ++ token) = separated sb ++ lead [token] := by
  rw [separated, if_pos (List.append_ne_nil_of_right_ne_nil _ hne), lead_cons, List.append_assoc]
  rfl

theorem separated_addModifier (sb : JString) {key : KeyCode} (hkey : key.getName ≠ [])
    (value : ModifierValue) :
    separated (addModifierIntoString sb key value) =
      separated sb ++
        lead (([⟨key, value⟩].filter (·.value ≠ .UP)).map Modifier.toString) := by
  rw [addModifierIntoString]
  by_cases hup : value = .UP
  · have hnone : [(⟨key, value⟩ : Modifier)].filter (·.value ≠ .UP) = [] := by
      rw [hup]
      rfl
    rw [if_pos hup, hnone]
    exact (List.append_nil _).symm
  · have hone : [(⟨key, value⟩ : Modifier)].filter (·.value ≠ .UP) = [⟨key, value⟩] :=
      List.filter_cons_of_pos (decide_eq_true hup)
    have hne : (⟨key, value⟩ : Modifier).toString ≠ [] := List.append_ne_nil_of_right_ne_nil _ hkey
    rw [if_neg hup, hone, List.map_singleton, ← separated_append hne]
    congr 1
    rw [Modifier.toString]
    by_cases hany : value = .ANY
    · simp only [hany, if_true, separated, List.append_assoc]
    · simp only [hany, if_false, separated, List.nil_append]

/-- **A name is its tokens.** -/
theorem getName_eq_spaced (text : JString) (m : Modifiers) :
    (KeyCombination.character text m).getName = spacedName tight text m := by
  have hmods : separated m.getName = lead (m.written.map Modifier.toString) := by
    have hwritten : m.written = ([Modifier.mk .SHIFT m.shift] ++ [Modifier.mk .CONTROL m.control] ++
        [Modifier.mk .ALT m.alt] ++ [Modifier.mk .META m.meta_] ++
          [Modifier.mk .SHORTCUT m.shortcut]).filter (·.value ≠ .UP) := rfl
    rw [Modifiers.getName, separated_addModifier _ (by decide), separated_addModifier _ (by decide),
      separated_addModifier _ (by decide), separated_addModifier _ (by decide),
      separated_addModifier _ (by decide), hwritten]
    simp only [List.filter_append, List.map_append, lead_append]
    rfl
  rw [spacedName, spaced_tight, ← hmods]
  exact List.append_assoc _ _ _

/-! ## Scanning -/

variable {name chars : JString}

theorem scan_append (i : ℕ) (xs ys : JString) (s : Scan) :
    scan name chars i (xs ++ ys) s =
      (scan name chars i xs s).bind (scan name chars (i + xs.length) ys) := by
  induction xs generalizing i s with
  | nil => rfl
  | cons c xs ih =>
      rw [List.cons_append, scan, scan]
      cases scanStep name chars i c s with
      | error e => rfl
      | ok s' =>
          have hlen : i + (c :: xs).length = i + 1 + xs.length := by
            rw [List.length_cons]
            omega
          rw [hlen]
          exact ih (i + 1) s'

/-- A character that no state treats in its own way. -/
def isPlain (c : BitVec 16) : Bool := !isSpace c && c != unit '+' && c != unit '\''

/-- A text that begins and ends with a plain character and has no others but blanks. -/
structure IsPhrase (text : JString) : Prop where
  chars : ∀ c ∈ text, isPlain c = true ∨ c = unit ' '
  first : ∀ c ∈ text.head?, isPlain c = true ∧ ¬c ≤ unit ' '
  last : ∀ c ∈ text.getLast?, isPlain c = true

theorem isPlain_iff {c : BitVec 16} :
    isPlain c = true ↔ isSpace c = false ∧ c ≠ unit '+' ∧ c ≠ unit '\'' := by
  rw [isPlain, Bool.and_eq_true, Bool.and_eq_true, bne_iff_ne, bne_iff_ne, Bool.not_eq_true',
    and_assoc]

/-- Inside a token. -/
def inToken (state : ScanState) (start : ℕ) (tokens : List JString) : Scan :=
  ⟨state, start, -1, tokens⟩

/-- A phrase is read from its second character on, or after a blank. -/
theorem scan_phrase {text : JString} (hchars : ∀ c ∈ text, isPlain c = true ∨ c = unit ' ')
    (hlast : ∀ c ∈ text.getLast?, isPlain c = true) (i start : ℕ) (tokens : List JString) :
    scan name chars i text (inToken .BASIC start tokens) = .ok (inToken .BASIC start tokens) ∧
      ∀ tokenEnd, text ≠ [] → scan name chars i text ⟨.WHITESPACE, start, tokenEnd, tokens⟩ =
        .ok (inToken .BASIC start tokens) := by
  induction text generalizing i with
  | nil => exact ⟨rfl, fun _ hne => absurd rfl hne⟩
  | cons c text ih =>
      have hrest : ∀ d ∈ text, isPlain d = true ∨ d = unit ' ' :=
        fun d hd => hchars d (List.mem_cons_of_mem _ hd)
      have hrestLast : ∀ d ∈ text.getLast?, isPlain d = true := by
        rintro d hd
        refine hlast d ?_
        rw [List.getLast?_cons, Option.mem_def.mp hd]
        rfl
      obtain ⟨hbasic, hblank⟩ := ih hrest hrestLast (i + 1)
      rcases hchars c List.mem_cons_self with hc | rfl
      · obtain ⟨hspace, hplus, hquote⟩ := isPlain_iff.mp hc
        constructor
        · rw [scan, scanStep, inToken]
          simp only [hspace, hplus, hquote, Bool.false_eq_true, if_false]
          exact hbasic
        · rintro tokenEnd -
          rw [scan, scanStep]
          simp only [hspace, hplus, hquote, Bool.false_eq_true, if_false]
          exact hbasic
      · have hne : text ≠ [] := by
          rintro rfl
          exact absurd (hlast _ rfl) (by decide)
        constructor
        · exact hblank i hne
        · exact fun tokenEnd _ => hblank tokenEnd hne

theorem scan_spaces {text : JString} (hspace : ∀ c ∈ text, isSpace c = true) (i : ℕ) {s : Scan}
    (hs : s.state = .WHITESPACE ∨ s.state = .SEPARATOR) : scan name chars i text s = .ok s := by
  induction text generalizing i with
  | nil => rfl
  | cons c text ih =>
      have hc := hspace c List.mem_cons_self
      have hstep : scanStep name chars i c s = .ok s := by
        rcases hs with hs | hs
        · rw [scanStep, hs]
          exact if_pos hc
        · rw [scanStep, hs]
          exact if_pos hc
      rw [scan, hstep]
      exact ih (fun d hd => hspace d (List.mem_cons_of_mem _ hd)) (i + 1)

/-- A separator and the spaces about it: the token has ended before them. -/
theorem scan_gap {before behind : JString} (hbefore : ∀ c ∈ before, isSpace c = true)
    (hbehind : ∀ c ∈ behind, isSpace c = true) (i start : ℕ) (tokens : List JString) :
    scan name chars i (before ++ unit '+' :: behind) (inToken .BASIC start tokens) =
      .ok ⟨.SEPARATOR, start, i, tokens⟩ := by
  have hplus : isSpace (unit '+') = false := by decide
  have hend : ∀ k, scan name chars k behind ⟨.SEPARATOR, start, i, tokens⟩ =
      .ok ⟨.SEPARATOR, start, i, tokens⟩ := fun k => scan_spaces hbehind k (Or.inr rfl)
  rcases before with _ | ⟨c, before⟩
  · rw [List.nil_append, scan, scanStep, inToken]
    simp only [hplus, Bool.false_eq_true, if_false, if_true]
    exact hend (i + 1)
  · have hc := hbefore c List.mem_cons_self
    have hrest : scan name chars (i + 1) before ⟨.WHITESPACE, start, i, tokens⟩ =
        .ok ⟨.WHITESPACE, start, i, tokens⟩ :=
      scan_spaces (fun d hd => hbefore d (List.mem_cons_of_mem _ hd)) _ (Or.inl rfl)
    rw [List.cons_append, scan, scanStep, inToken]
    simp only [hc, if_true]
    change scan name chars (i + 1) (before ++ unit '+' :: behind) _ = _
    rw [scan_append, hrest]
    change scan name chars (i + 1 + before.length) (unit '+' :: behind) _ = _
    rw [scan, scanStep]
    simp only [hplus, Bool.false_eq_true, if_false, if_true]
    exact hend _

/-- The scan is before the first character of a token, and `tokens` are those before it. -/
def Ready (name chars : JString) (i : ℕ) (tokens : List JString) (s : Scan) : Prop :=
  ∀ c, isSpace c = false → c ≠ unit '+' →
    scanStep name chars i c s =
      .ok (inToken (if c = unit '\'' then .QUOTED else .BASIC) i tokens)

theorem ready_zero : Ready name chars 0 [] ⟨.BASIC, 0, -1, []⟩ := by
  intro c hspace hplus
  rw [scanStep]
  simp only [hspace, hplus, Bool.false_eq_true, if_false, true_or, if_true]
  split
  · rfl
  · rfl

/-- After a separator the token before it is added. -/
theorem ready_separator {pre token : JString} {post : JString} (hne : token ≠ [])
    (hchars : chars = pre ++ token ++ post) (i : ℕ) (tokens : List JString) :
    Ready name chars i (tokens ++ [token])
      ⟨.SEPARATOR, pre.length, (pre.length + token.length : ℕ), tokens⟩ := by
  intro c hspace hplus
  have hpos : 0 < token.length := List.length_pos_of_ne_nil hne
  have hend : ¬((pre.length + token.length : ℕ) : ℤ) ≤ (pre.length : ℤ) := by omega
  have hlen : (((pre.length + token.length : ℕ) : ℤ) - (pre.length : ℤ)).toNat = token.length := by
    omega
  have hslice : (chars.drop pre.length).take token.length = token := by
    rw [hchars, List.append_assoc, List.drop_left, List.take_left]
  rw [scanStep]
  simp only [hspace, hplus, hend, Bool.false_eq_true, if_false, hlen, hslice]
  rfl

/-- The tokens before the last one are read one after the other. -/
theorem scan_spaced {gap : ℕ → JString × JString} (hgap : OnlySpaces gap) (last : JString)
    {tokens : List JString} (htokens : ∀ token ∈ tokens, token ≠ [] ∧ IsPhrase token)
    (k : ℕ) {pre : JString} (hchars : chars = pre ++ spaced gap k tokens last)
    {read : List JString} {s : Scan} (hready : Ready name chars pre.length read s) :
    ∃ pre' s', chars = pre' ++ last ∧ Ready name chars pre'.length (read ++ tokens) s' ∧
      scan name chars pre.length (spaced gap k tokens last) s =
        scan name chars pre'.length last s' := by
  induction tokens generalizing k pre read s with
  | nil =>
      refine ⟨pre, s, hchars, ?_, rfl⟩
      rwa [List.append_nil]
  | cons token tokens ih =>
      obtain ⟨hne, hphrase⟩ := htokens token List.mem_cons_self
      obtain ⟨c, body, rfl⟩ := List.exists_cons_of_ne_nil hne
      obtain ⟨hspace, hplus, hquote⟩ := isPlain_iff.mp (hphrase.first c rfl).1
      have hbefore : ∀ d ∈ (gap k).1, isSpace d = true :=
        fun d hd => hgap k d (List.mem_append_left _ hd)
      have hbehind : ∀ d ∈ (gap k).2, isSpace d = true :=
        fun d hd => hgap k d (List.mem_append_right _ hd)
      have hlast : ∀ d ∈ body.getLast?, isPlain d = true := by
        rintro d hd
        refine hphrase.last d ?_
        rw [List.getLast?_cons, Option.mem_def.mp hd]
        rfl
      have hbody : scan name chars (pre.length + 1) body (inToken .BASIC pre.length read) =
          .ok (inToken .BASIC pre.length read) :=
        (scan_phrase (fun d hd => hphrase.chars d (List.mem_cons_of_mem _ hd)) hlast _ _ _).1
      have htoken : scan name chars pre.length (c :: body) s =
          .ok (inToken .BASIC pre.length read) := by
        rw [scan, hready c hspace hplus, if_neg hquote]
        exact hbody
      have hsep : scan name chars (pre.length + (c :: body).length)
          ((gap k).1 ++ unit '+' :: (gap k).2) (inToken .BASIC pre.length read) =
            .ok ⟨.SEPARATOR, pre.length, (pre.length + (c :: body).length : ℕ), read⟩ :=
        scan_gap hbefore hbehind _ _ _
      have hchars' : chars = pre ++ (c :: body) ++ ((gap k).1 ++ unit '+' :: (gap k).2) ++
          spaced gap (k + 1) tokens last := by
        rw [hchars, spaced]
        simp only [List.append_assoc, List.cons_append]
      have hlen : (pre ++ (c :: body) ++ ((gap k).1 ++ unit '+' :: (gap k).2)).length =
          pre.length + (c :: body).length + ((gap k).1 ++ unit '+' :: (gap k).2).length := by
        rw [List.length_append, List.length_append]
      obtain ⟨pre', s', hpre', hready', hscan⟩ :=
        ih (fun t ht => htokens t (List.mem_cons_of_mem _ ht)) (k + 1) hchars'
          (ready_separator hne (by rw [hchars', List.append_assoc]) _ read)
      refine ⟨pre', s', hpre', ?_, ?_⟩
      · rwa [List.append_assoc] at hready'
      · rw [spaced, List.append_assoc, List.append_assoc, scan_append, htoken]
        change scan name chars (pre.length + (c :: body).length) _ _ = _
        rw [← List.append_assoc, scan_append, hsep, ← hscan, hlen]
        rfl

/-! ## The quoted token -/

theorem getElem?_pre {pre post : JString} {c : BitVec 16} (hchars : chars = pre ++ c :: post) :
    chars[pre.length]? = some c := by
  rw [hchars, List.getElem?_append_right le_rfl, Nat.sub_self]
  rfl

/-- Quotes in the text are escaped and do not end it. -/
theorem scan_escaped (text : JString) {pre post : JString}
    (hchars : chars = pre ++ escapeQuotes text ++ post) (start : ℕ) (tokens : List JString) :
    scan name chars pre.length (escapeQuotes text) (inToken .QUOTED start tokens) =
      .ok (inToken .QUOTED start tokens) := by
  induction text generalizing pre with
  | nil => rfl
  | cons c text ih =>
      by_cases hc : c = unit '\''
      · have hesc : escapeQuotes (c :: text) =
            unit '\\' :: unit '\'' :: escapeQuotes text := by
          rw [escapeQuotes, List.flatMap_cons, if_pos hc]
          rfl
        have hslash : chars[pre.length]? = some (unit '\\') :=
          getElem?_pre (by rw [hchars, hesc, List.append_assoc, List.cons_append])
        have hchars' : chars = pre ++ [unit '\\', unit '\''] ++ escapeQuotes text ++ post := by
          rw [hchars, hesc]
          simp only [List.append_assoc, List.cons_append, List.nil_append]
        have hrest := ih hchars'
        rw [List.length_append] at hrest
        rw [hesc, scan, scanStep, inToken]
        simp only [show ¬(unit '\\' = unit '\'') by decide, false_and, if_false]
        change scan name chars (pre.length + 1) (unit '\'' :: escapeQuotes text) _ = _
        rw [scan, scanStep]
        simp only [Nat.add_sub_cancel, hslash, not_true_eq_false, and_false, if_false, ne_eq]
        exact hrest
      · have hesc : escapeQuotes (c :: text) = c :: escapeQuotes text := by
          rw [escapeQuotes, List.flatMap_cons, if_neg hc]
          rfl
        have hchars' : chars = pre ++ [c] ++ escapeQuotes text ++ post := by
          rw [hchars, hesc]
          simp only [List.append_assoc, List.cons_append, List.nil_append]
        have hrest := ih hchars'
        rw [List.length_append] at hrest
        rw [hesc, scan, scanStep, inToken]
        simp only [hc, false_and, if_false]
        exact hrest

/-- The last character of an escaped text is that of the text. -/
theorem getLast?_escapeQuotes {text : JString} (hne : text ≠ []) :
    (escapeQuotes text).getLast? = text.getLast? := by
  rw [← List.dropLast_append_getLast hne, escapeQuotes, List.flatMap_append,
    List.getLast?_append, List.getLast?_append]
  by_cases hc : text.getLast hne = unit '\''
  · rw [List.flatMap_singleton, if_pos hc, hc]
    rfl
  · rw [List.flatMap_singleton, if_neg hc]
    rfl

theorem unescape_escape (text : JString) : unescapeQuotes (escapeQuotes text) = text := by
  induction text with
  | nil => rfl
  | cons c text ih =>
      rw [escapeQuotes, List.flatMap_cons]
      change unescapeQuotes (_ ++ escapeQuotes text) = _
      by_cases hc : c = unit '\''
      · rw [if_pos hc, List.cons_append, List.cons_append, List.nil_append, unescapeQuotes,
          if_pos ⟨rfl, rfl⟩, ih, hc]
      · rw [if_neg hc, List.singleton_append]
        cases hrest : escapeQuotes text with
        | nil =>
            rw [hrest] at ih
            rw [unescapeQuotes, ← ih]
            rfl
        | cons d rest =>
            -- an escaped text does not begin with a quote
            have hd : d ≠ unit '\'' := by
              rintro rfl
              rcases text with _ | ⟨e, text⟩
              · cases hrest
              rw [escapeQuotes, List.flatMap_cons] at hrest
              split_ifs at hrest with he
              · exact absurd (List.cons.inj hrest).1 (by decide)
              · exact he (List.cons.inj hrest).1
            rw [unescapeQuotes, if_neg fun hand => hd hand.2, ← hrest, ih]

/-- The last token: its closing quote is read as one unless a backslash stands before it. -/
theorem scan_quoted {text : JString} (hne : text ≠ []) {pre : JString}
    (hchars : chars = pre ++ quotedToken text) {tokens : List JString} {s : Scan}
    (hready : Ready name chars pre.length tokens s) :
    scan name chars pre.length (quotedToken text) s =
      .ok (inToken (if text.getLast? = some (unit '\\') then .QUOTED else .BASIC)
        pre.length tokens) := by
  have hchars' : chars = pre ++ [unit '\''] ++ escapeQuotes text ++ [unit '\''] := by
    rw [hchars, quotedToken]
    simp only [List.append_assoc, List.cons_append, List.nil_append]
  have hescaped : scan name chars (pre ++ [unit '\'']).length (escapeQuotes text)
      (inToken .QUOTED pre.length tokens) = .ok (inToken .QUOTED pre.length tokens) :=
    scan_escaped text hchars' _ _
  have hesc : escapeQuotes text ≠ [] := by
    intro hnil
    have hlast := getLast?_escapeQuotes hne
    rw [hnil, List.getLast?_nil] at hlast
    exact hne (List.getLast?_eq_none_iff.mp hlast.symm)
  have hprev : chars[pre.length + 1 + (escapeQuotes text).length - 1]? = text.getLast? := by
    rw [← getLast?_escapeQuotes hne, ← List.dropLast_append_getLast hesc]
    have hlast : chars = pre ++ unit '\'' :: (escapeQuotes text).dropLast ++
        (escapeQuotes text).getLast hesc :: [unit '\''] := by
      rw [hchars']
      conv_lhs => rw [← List.dropLast_append_getLast hesc]
      simp only [List.append_assoc, List.cons_append, List.nil_append]
    have hget := getElem?_pre hlast
    rw [List.getLast?_concat, ← hget]
    congr 1
    simp only [List.length_append, List.length_cons, List.length_nil]
    omega
  rw [quotedToken, List.cons_append, scan, hready _ (by decide) (by decide), if_pos rfl]
  rw [List.length_append] at hescaped
  change scan name chars (pre.length + 1) (escapeQuotes text ++ [unit '\'']) _ = _
  rw [scan_append, show pre.length + 1 = pre.length + [unit '\''].length from rfl, hescaped]
  change scan name chars (pre.length + 1 + (escapeQuotes text).length) [unit '\''] _ = _
  rw [scan, scanStep, inToken]
  simp only [hprev, true_and]
  by_cases hlast : text.getLast? = some (unit '\\')
  · rw [if_pos hlast, if_neg (not_not_intro hlast)]
    rfl
  · rw [if_neg hlast, if_pos hlast]
    rfl

/-! ## Splitting -/

theorem spaced_ne_nil {gap : ℕ → JString × JString} (k : ℕ) (tokens : List JString)
    {last : JString} (hlast : last ≠ []) : spaced gap k tokens last ≠ [] := by
  rcases tokens with _ | ⟨token, tokens⟩
  · exact hlast
  · rw [spaced]
    simp only [List.append_assoc, List.cons_append, ne_eq, List.append_eq_nil_iff, reduceCtorEq,
      and_false, not_false_eq_true]

theorem getLast?_spaced {gap : ℕ → JString × JString} (k : ℕ) (tokens : List JString)
    {last : JString} (hlast : last ≠ []) :
    (spaced gap k tokens last).getLast? = last.getLast? := by
  induction tokens generalizing k with
  | nil => rfl
  | cons token tokens ih =>
      rw [spaced, List.getLast?_append_of_ne_nil _ (spaced_ne_nil (k + 1) tokens hlast), ih]

theorem trim_of_ends {s : JString} (hfirst : ∀ c ∈ s.head?, ¬c ≤ unit ' ')
    (hlast : ∀ c ∈ s.getLast?, ¬c ≤ unit ' ') : trim s = s := by
  rcases s with _ | ⟨c, s⟩
  · rfl
  have hc := hfirst c rfl
  rw [trim, List.dropWhile_cons_of_neg (by simpa using hc)]
  have hrev : ∀ d ∈ (c :: s).reverse.head?, ¬d ≤ unit ' ' := by
    rintro d hd
    exact hlast d (by rwa [List.head?_reverse] at hd)
  cases hr : (c :: s).reverse with
  | nil => exact absurd hr (by simp)
  | cons d r =>
      have hd := hrev d (by rw [hr]; rfl)
      rw [List.dropWhile_cons_of_neg (by simpa using hd), ← hr, List.reverse_reverse]

/-- **Splitting a name**: the tokens come back unless the text ends with a backslash. -/
theorem splitName_spaced {gap : ℕ → JString × JString} (hgap : OnlySpaces gap)
    {tokens : List JString} (htokens : ∀ token ∈ tokens, token ≠ [] ∧ IsPhrase token)
    {text : JString} (hne : text ≠ []) :
    splitName (spaced gap 0 tokens (quotedToken text)) =
      if text.getLast? = some (unit '\\') then
        cannotParse (spaced gap 0 tokens (quotedToken text))
      else .ok (tokens ++ [quotedToken text]) := by
  have hquoted : quotedToken text ≠ [] := List.cons_ne_nil _ _
  have htrim : trim (spaced gap 0 tokens (quotedToken text)) =
      spaced gap 0 tokens (quotedToken text) := by
    refine trim_of_ends ?_ ?_
    · rintro c hc
      rcases tokens with _ | ⟨token, tokens⟩
      · obtain rfl := Option.some.inj hc
        decide
      · obtain ⟨htoken, hphrase⟩ := htokens token List.mem_cons_self
        obtain ⟨d, body, rfl⟩ := List.exists_cons_of_ne_nil htoken
        obtain rfl := Option.some.inj hc
        exact (hphrase.first d rfl).2
    · rintro c hc
      rw [getLast?_spaced 0 tokens hquoted, quotedToken, List.getLast?_concat] at hc
      obtain rfl := Option.some.inj hc
      decide
  have hready : Ready (spaced gap 0 tokens (quotedToken text))
      (spaced gap 0 tokens (quotedToken text)) ([] : JString).length [] ⟨.BASIC, 0, -1, []⟩ :=
    ready_zero
  have hchars : spaced gap 0 tokens (quotedToken text) =
      [] ++ spaced gap 0 tokens (quotedToken text) := rfl
  obtain ⟨pre, s, hchars, hready, hscan⟩ :=
    scan_spaced hgap (quotedToken text) htokens 0 hchars hready
  rw [splitName, htrim]
  change (scan _ _ ([] : JString).length _ _).bind _ = _
  rw [hscan, scan_quoted hne hchars hready]
  by_cases hlast : text.getLast? = some (unit '\\')
  · rw [if_pos hlast, if_pos hlast]
    rfl
  · rw [if_neg hlast, if_neg hlast]
    change Except.ok (tokens ++ [List.drop pre.length (spaced gap 0 tokens (quotedToken text))]) = _
    rw [hchars, List.drop_left]

/-! ## Reading the tokens -/

/-- What `String` documents for the cases of ASCII texts in the root locale. -/
structure Cases.Documented (u : Cases) : Prop where
  upper_ascii : ∀ s : JString, (∀ c ∈ s, c < 128) → u.toUpperCase s = s.map asciiUpper
  lower_ascii : ∀ s : JString, (∀ c ∈ s, c < 128) → u.toLowerCase s = s.map asciiLower

/-- An ASCII word with a capital first and no other. -/
def IsCapitalized (word : JString) : Prop :=
  word ≠ [] ∧ word.all (· < 128) = true ∧ word.head?.map asciiUpper = word.head? ∧
    word.tail.map asciiLower = word.tail

instance (word : JString) : Decidable (IsCapitalized word) :=
  inferInstanceAs (Decidable (_ ∧ _ ∧ _ ∧ _))

/-- Words with a blank between them. -/
def joinWords : List JString → JString → JString
  | [], sb => sb
  | word :: words, sb => joinWords words ((if sb ≠ [] then sb ++ [unit ' '] else sb) ++ word)

theorem normalizeWords_capitalized {u : Cases} (hu : u.Documented) {words : List JString}
    (hwords : ∀ word ∈ words, IsCapitalized word) (sb : JString) :
    normalizeWords u words sb = .ok (joinWords words sb) := by
  induction words generalizing sb with
  | nil => rfl
  | cons word words ih =>
      obtain ⟨hne, hall, hfirst, htail⟩ := hwords word List.mem_cons_self
      obtain ⟨c, rest, rfl⟩ := List.exists_cons_of_ne_nil hne
      have hascii : ∀ d ∈ c :: rest, d < 128 := fun d hd =>
        of_decide_eq_true (List.all_eq_true.mp hall d hd)
      have hupper : u.toUpperCase [c] = [c] := by
        rw [hu.upper_ascii [c] fun d hd => hascii d (List.mem_singleton.mp hd ▸ List.mem_cons_self)]
        exact congrArg (fun x => [x]) (Option.some.inj hfirst)
      have hlower : u.toLowerCase rest = rest := by
        rw [hu.lower_ascii rest fun d hd => hascii d (List.mem_cons_of_mem _ hd)]
        exact htail
      rw [normalizeWords, hupper, hlower, joinWords]
      simp only [List.append_assoc, List.singleton_append]
      exact ih (fun w hw => hwords w (List.mem_cons_of_mem _ hw)) _

theorem possible_phrases : ∀ m ∈ POSSIBLE_MODIFIERS,
    (m.toString.all fun c => isPlain c || c == unit ' ') = true ∧
    (m.toString.head?.all fun c => isPlain c && !(c ≤ unit ' ')) = true ∧
    m.toString.getLast?.all isPlain = true := by
  decide +kernel

theorem isPhrase_possible {m : Modifier} (hm : m ∈ POSSIBLE_MODIFIERS) : IsPhrase m.toString := by
  obtain ⟨hchars, hfirst, hlast⟩ := possible_phrases m hm
  constructor
  · rintro c hc
    have hcase := List.all_eq_true.mp hchars c hc
    rwa [Bool.or_eq_true, beq_iff_eq] at hcase
  · rintro c hc
    have hcase := Option.all_eq_true _ _ |>.mp hfirst c hc
    rwa [Bool.and_eq_true, Bool.not_eq_true', decide_eq_false_iff_not] at hcase
  · rintro c hc
    exact Option.all_eq_true _ _ |>.mp hlast c hc

/-- The words of a modifier, and the modifier of the words. -/
theorem possible_words : ∀ m ∈ POSSIBLE_MODIFIERS, m.toString ≠ [] ∧
    (∀ word ∈ splitSpaces m.toString, IsCapitalized word) ∧
      joinWords (splitSpaces m.toString) [] = m.toString ∧ getModifier m.toString = some m ∧
        m.toString.head? ≠ some (unit '\'') := by
  decide +kernel

theorem readToken_modifier {u : Cases} (hu : u.Documented) (value : JString) {m : Modifier}
    (hm : m ∈ POSSIBLE_MODIFIERS) (r : Reading) :
    readToken u value m.toString r = .ok { r with modifiers := r.modifiers ++ [m] } := by
  obtain ⟨-, hwords, hjoin, hget, hquote⟩ := possible_words m hm
  have hnormal : normalizeToken u m.toString = .ok m.toString := by
    rw [normalizeToken, normalizeWords_capitalized hu hwords, hjoin]
  rw [readToken, if_neg fun h => hquote h.2.1, hnormal]
  simp only [bind, Except.bind, hget]

theorem readTokens_modifiers {u : Cases} (hu : u.Documented) (value : JString)
    {ms : List Modifier} (hms : ∀ m ∈ ms, m ∈ POSSIBLE_MODIFIERS) (rest : List JString)
    (r : Reading) :
    readTokens u value (ms.map Modifier.toString ++ rest) r =
      readTokens u value rest { r with modifiers := r.modifiers ++ ms } := by
  induction ms generalizing r with
  | nil =>
      rw [List.map_nil, List.nil_append, List.append_nil]
  | cons m ms ih =>
      have hrest := ih (fun x hx => hms x (List.mem_cons_of_mem _ hx))
        { r with modifiers := r.modifiers ++ [m] }
      rw [List.map_cons, List.cons_append, readTokens,
        readToken_modifier hu value (hms m List.mem_cons_self)]
      rw [List.append_assoc, List.singleton_append] at hrest
      exact hrest

/-- The quoted token gives the text back. -/
theorem readToken_quoted (u : Cases) (value : JString) {text : JString} (hne : text ≠ [])
    (modifiers : List Modifier) :
    readToken u value (quotedToken text) ⟨modifiers, none, none⟩ =
      .ok ⟨modifiers, none, some text⟩ := by
  have hpos : 0 < (escapeQuotes text).length := by
    refine List.length_pos_of_ne_nil fun hnil => ?_
    have hlast := getLast?_escapeQuotes hne
    rw [hnil, List.getLast?_nil] at hlast
    exact hne (List.getLast?_eq_none_iff.mp hlast.symm)
  have hlen : 2 < (quotedToken text).length := by
    rw [quotedToken, List.cons_append, List.length_cons, List.length_append, List.length_singleton]
    omega
  have hlast : (quotedToken text).getLast? = some (unit '\'') := List.getLast?_concat
  have hinner : (quotedToken text).tail.dropLast = escapeQuotes text := by
    rw [quotedToken, List.cons_append, List.tail_cons, List.dropLast_concat]
  rw [readToken, if_pos ⟨hlen, rfl, hlast⟩, hinner, unescape_escape]
  rfl

theorem written_possible (m : Modifiers) : ∀ x ∈ m.written, x ∈ POSSIBLE_MODIFIERS := by
  rcases m with ⟨shift, control, alt, meta_, shortcut⟩
  rintro x hx
  rw [Modifiers.written, List.mem_filter] at hx
  obtain ⟨hx, hup⟩ := hx
  simp only [List.mem_cons, List.not_mem_nil, or_false] at hx
  rcases hx with rfl | rfl | rfl | rfl | rfl
  · cases shift <;> revert hup <;> decide
  · cases control <;> revert hup <;> decide
  · cases alt <;> revert hup <;> decide
  · cases meta_ <;> revert hup <;> decide
  · cases shortcut <;> revert hup <;> decide

/-- The constructor takes the written modifiers back apart. -/
theorem ofList_written (m : Modifiers) : Modifiers.ofList m.written = .ok m := by
  rcases m with ⟨shift, control, alt, meta_, shortcut⟩
  -- every combination of the five values is computed
  cases shift <;> cases control <;> cases alt <;> cases meta_ <;> cases shortcut <;> rfl

/-! ## The round trip -/

/-- A name with any spaces about its separators. -/
theorem valueOf_spacedName {u : Cases} (hu : u.Documented) {gap : ℕ → JString × JString}
    (hgap : OnlySpaces gap) {text : JString} (hne : text ≠ []) (m : Modifiers) :
    valueOf u (spacedName gap text m) =
      if text.getLast? = some (unit '\\') then cannotParse (spacedName gap text m)
      else .ok (.character text m) := by
  have hpossible := written_possible m
  have htokens : ∀ token ∈ m.written.map Modifier.toString, token ≠ [] ∧ IsPhrase token := by
    rintro token htoken
    obtain ⟨x, hx, rfl⟩ := List.mem_map.mp htoken
    exact ⟨(possible_words x (hpossible x hx)).1, isPhrase_possible (hpossible x hx)⟩
  rw [valueOf, spacedName, splitName_spaced hgap htokens hne]
  by_cases hlast : text.getLast? = some (unit '\\')
  · rw [if_pos hlast, if_pos hlast]
    rfl
  · rw [if_neg hlast, if_neg hlast, except_ok_bind, readTokens_modifiers hu _ hpossible, readTokens,
      readToken_quoted u _ hne]
    change (Modifiers.ofList ([] ++ m.written)).bind _ = _
    rw [List.nil_append, ofList_written]
    rfl

theorem onlySpaces_tight : OnlySpaces tight := fun _ _ hc => absurd hc List.not_mem_nil

/-- **Names come back.** A name is read as the combination it is the name of, and spaces about its
separators change nothing, exactly when the key character does not end with a backslash. -/
theorem valueOf_getName_iff (u : Cases) (hu : u.Documented) {text : JString} (hne : text ≠ [])
    (m : Modifiers) :
    (valueOf u (KeyCombination.character text m).getName = .ok (.character text m) ∧
      ∀ gap, OnlySpaces gap → valueOf u (spacedName gap text m) =
        valueOf u (KeyCombination.character text m).getName) ↔
      text.getLast? ≠ some (unit '\\') := by
  rw [getName_eq_spaced, valueOf_spacedName hu onlySpaces_tight hne]
  constructor
  · rintro ⟨hback, -⟩ hlast
    rw [if_pos hlast] at hback
    cases hback
  · intro hlast
    rw [if_neg hlast]
    refine ⟨rfl, fun gap hgap => ?_⟩
    rw [valueOf_spacedName hu hgap hne, if_neg hlast]

/-- The cases of ASCII letters. -/
def asciiCases : Cases where
  toUpperCase s := s.map asciiUpper
  toLowerCase s := s.map asciiLower

theorem asciiCases_documented : asciiCases.Documented := ⟨fun _ _ => rfl, fun _ _ => rfl⟩

/-- A key character with a quote after a backslash, and a separator. -/
theorem quoted_character_comes_back :
    valueOf asciiCases
        (KeyCombination.character (lit "\\'+") ⟨.ANY, .DOWN, .UP, .UP, .UP⟩).getName =
      .ok (.character (lit "\\'+") ⟨.ANY, .DOWN, .UP, .UP, .UP⟩) ∧
    ∀ gap, OnlySpaces gap →
      valueOf asciiCases (spacedName gap (lit "\\'+") ⟨.ANY, .DOWN, .UP, .UP, .UP⟩) =
        valueOf asciiCases
          (KeyCombination.character (lit "\\'+") ⟨.ANY, .DOWN, .UP, .UP, .UP⟩).getName :=
  (valueOf_getName_iff asciiCases asciiCases_documented (by decide) _).mpr (by decide)

/-- A backslash escapes the closing quote. -/
theorem backslash_is_not_read :
    (KeyCombination.character (lit "\\") ⟨.UP, .DOWN, .UP, .UP, .UP⟩).getName =
        lit "Ctrl+'\\'" ∧
      valueOf asciiCases (lit "Ctrl+'\\'") = cannotParse (lit "Ctrl+'\\'") := by
  decide +kernel

end JavaFx.Input
