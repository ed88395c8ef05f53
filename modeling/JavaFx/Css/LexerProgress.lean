import JavaFx.Css.CSSLexer

/-!
# The lexer makes progress

Each loop of the lexer reads a character in every round that goes on, and none goes on at the end of
the text. A token is therefore found after as many rounds as there are characters, and unless it is
the end it has consumed some of them.
-/

namespace JavaFx.Css.CSSLexer

variable {s t u : CSSLexer}

/-! ## Reading -/

/-- Characters have been read, and nothing else that the next token depends on has changed. -/
structure Reads (s t : CSSLexer) : Prop where
  suffix : t.input <:+ s.input
  token : t.token = s.token
  currentState : t.currentState = s.currentState

/-- Some character has been read. -/
def Consumes (s t : CSSLexer) : Prop := Reads s t ∧ t.input.length < s.input.length

theorem Reads.refl (s : CSSLexer) : Reads s s := ⟨List.suffix_rfl, rfl, rfl⟩

theorem Reads.trans (h : Reads s t) (h' : Reads t u) : Reads s u :=
  ⟨h'.suffix.trans h.suffix, h'.token.trans h.token, h'.currentState.trans h.currentState⟩

theorem Reads.length_le (h : Reads s t) : t.input.length ≤ s.input.length := h.suffix.length_le

theorem Consumes.trans (h : Consumes s t) (h' : Reads t u) : Consumes s u :=
  ⟨h.1.trans h', lt_of_le_of_lt h'.length_le h.2⟩

theorem Reads.trans_consumes (h : Reads s t) (h' : Consumes t u) : Consumes s u :=
  ⟨h.trans h'.1, lt_of_lt_of_le h'.2 h.length_le⟩

theorem reads_readChar (s : CSSLexer) : Reads s s.readChar := by
  rw [readChar]
  split
  · exact ⟨List.tail_suffix _, rfl, rfl⟩
  · exact ⟨List.tail_suffix _, rfl, rfl⟩

theorem input_readChar (s : CSSLexer) : s.readChar.input = s.input.tail := by
  rw [readChar]
  split
  · rfl
  · rfl

theorem ch_eq_none_iff : s.ch = none ↔ s.input = [] := List.head?_eq_none_iff

/-- **A character** is consumed unless there is none. -/
theorem consumes_readChar (h : s.ch ≠ none) : Consumes s s.readChar := by
  refine ⟨reads_readChar s, ?_⟩
  rw [input_readChar, List.length_tail]
  have hne := mt ch_eq_none_iff.mpr h
  have hpos := List.length_pos_iff.mpr hne
  omega

theorem reads_append (s : CSSLexer) : Reads s s.append := ⟨List.suffix_rfl, rfl, rfl⟩

theorem consumes_append_readChar (h : s.ch ≠ none) : Consumes s s.append.readChar :=
  (reads_append s).trans_consumes (consumes_readChar h)

theorem ch_ne_none_of_recognizes {r : Recognizer} (h : recognizes r s.ch = true) : s.ch ≠ none := by
  intro hnone
  rw [hnone] at h
  cases h

theorem ch_ne_none_of_eq {c : UInt16} (h : s.ch = some c) : s.ch ≠ none := by
  rw [h]
  exact Option.some_ne_none c

/-! ## Loops -/

/-- The rule for a loop that reads. -/
theorem loop_spec {ρ : Type} {round : CSSLexer → Option (CSSLexer ⊕ ρ)} {Inv : CSSLexer → Prop}
    {Exit : ρ → Prop}
    (hround : ∀ t, Inv t → Rounds.Keeps Inv (fun t => t.input.length) Exit t (round t))
    (hs : Inv s) : ∃ r, s.loop round = some r ∧ Exit r :=
  Rounds.iterate_spec hround hs (Nat.lt_succ_self _)

/-- A loop whose rounds that go on consume a character. -/
theorem loop_reads {ρ : Type} {round : CSSLexer → Option (CSSLexer ⊕ ρ)} {Exit : ρ → Prop}
    (hround : ∀ t, Reads s t → ∃ next, round t = some next ∧
      ((∃ u, next = .inl u ∧ Consumes t u) ∨ ∃ r, next = .inr r ∧ Exit r)) :
    ∃ r, s.loop round = some r ∧ Exit r := by
  refine loop_spec (fun t ht => ?_) (Reads.refl s)
  obtain ⟨next, heq, ⟨u, rfl, hu⟩ | ⟨r, rfl, hr⟩⟩ := hround t ht
  · rw [heq]
    exact ⟨ht.trans hu.1, hu.2⟩
  · rw [heq]
    exact hr

theorem skipWhile_spec (r : Recognizer) (s : CSSLexer) :
    ∃ t, s.skipWhile r = some t ∧ Reads s t := by
  refine loop_reads fun t ht => ?_
  by_cases hr : recognizes r t.ch = true
  · exact ⟨_, by rw [if_pos hr], Or.inl ⟨_, rfl, consumes_readChar (ch_ne_none_of_recognizes hr)⟩⟩
  · exact ⟨_, by rw [if_neg hr], Or.inr ⟨_, rfl, ht⟩⟩

/-! ## URLs -/

theorem escapedChar_spec (h : s.ch ≠ none) : ∃ t, s.escapedChar = some t ∧ Consumes s t := by
  have hread := consumes_readChar h
  rw [escapedChar]
  split
  · obtain ⟨t, ht, hreads⟩ := skipWhile_spec nlChars s.readChar
    exact ⟨t, ht, hread.trans hreads⟩
  · split
    · exact ⟨_, rfl, hread.trans ((reads_append _).trans (reads_readChar _))⟩
    · exact ⟨_, rfl, hread⟩

theorem loop_quotedRound (endQuote : Option UInt16) (s : CSSLexer) :
    ∃ t, s.loop (quotedRound endQuote) = some t ∧ Reads s t := by
  refine loop_reads fun t ht => ?_
  rw [quotedRound]
  split
  · exact ⟨_, rfl, Or.inr ⟨_, rfl, ht⟩⟩
  · split
    · exact ⟨_, rfl, Or.inr ⟨_, rfl, ht⟩⟩
    next hsome =>
      split
      · exact ⟨_, rfl, Or.inr ⟨_, rfl, ht⟩⟩
      · split
        · obtain ⟨u, hu, hconsumes⟩ := escapedChar_spec hsome
          exact ⟨_, by rw [hu]; rfl, Or.inl ⟨u, rfl, hconsumes⟩⟩
        · exact ⟨_, rfl, Or.inl ⟨_, rfl, consumes_append_readChar hsome⟩⟩

/-- What a type is found with: it says when the end of the text was found. -/
structure Typed (s : CSSLexer) (r : TokenType × CSSLexer) : Prop where
  reads : Reads s r.2
  atEnd : r.1 = .eof → r.2.ch = none
  notSkip : r.1 ≠ .skip

theorem Typed.of_reads {r : TokenType × CSSLexer} (h : Reads s t) (h' : Typed t r) : Typed s r :=
  ⟨h.trans h'.reads, h'.atEnd, h'.notSkip⟩

theorem loop_badUrlRound (s : CSSLexer) : ∃ r, s.loop badUrlRound = some r ∧ Typed s r := by
  refine loop_reads fun t ht => ?_
  rw [badUrlRound]
  split
  next hnone => exact ⟨_, rfl, Or.inr ⟨_, rfl, ht, fun _ => hnone, nofun⟩⟩
  next hsome =>
    split
    · exact ⟨_, rfl, Or.inr ⟨_, rfl, ht.trans (reads_readChar t), nofun, nofun⟩⟩
    · exact ⟨_, rfl, Or.inl ⟨_, rfl, consumes_readChar hsome⟩⟩

theorem consumeQuoted_spec (s : CSSLexer) : ∃ r, s.consumeQuoted = some r ∧ Typed s r := by
  obtain ⟨t, ht, hreads⟩ := loop_quotedRound s.ch s.readChar
  have hst : Reads s t := (reads_readChar s).trans hreads
  rw [consumeQuoted]
  simp only [ht, Option.bind_eq_bind, Option.bind_some]
  split
  · obtain ⟨u, hu, hreads'⟩ := skipWhile_spec wsChars t.readChar
    have hsu : Reads s u := (hst.trans (reads_readChar t)).trans hreads'
    simp only [hu, Option.bind_some]
    split
    · exact ⟨_, rfl, hsu.trans (reads_readChar u), nofun, nofun⟩
    · split
      · exact ⟨_, rfl, hsu, nofun, nofun⟩
      · obtain ⟨r, hr, hend⟩ := loop_badUrlRound u
        exact ⟨r, hr, hend.of_reads hsu⟩
  · obtain ⟨r, hr, hend⟩ := loop_badUrlRound t
    exact ⟨r, hr, hend.of_reads hst⟩

theorem loop_unquotedRound (s : CSSLexer) :
    ∃ r, s.loop unquotedRound = some r ∧ Reads s r.2 ∧
      r.1 ≠ some .eof ∧ r.1 ≠ some .skip := by
  refine loop_reads fun t ht => ?_
  obtain ⟨u, hu, hreads⟩ := skipWhile_spec wsChars t
  have hsu : Reads s u := ht.trans hreads
  rw [unquotedRound]
  simp only [hu, Option.bind_eq_bind, Option.bind_some]
  split
  · exact ⟨_, rfl, Or.inr ⟨_, rfl, hsu.trans (reads_readChar u), nofun, nofun⟩⟩
  · split
    · exact ⟨_, rfl, Or.inr ⟨_, rfl, hsu, nofun, nofun⟩⟩
    next hsome =>
      split
      · obtain ⟨w, hw, hconsumes⟩ := escapedChar_spec hsome
        exact ⟨_, by rw [hw]; rfl, Or.inl ⟨w, rfl, hreads.trans_consumes hconsumes⟩⟩
      · split
        · exact ⟨_, rfl, Or.inr ⟨_, rfl, hsu, nofun, nofun⟩⟩
        · exact ⟨_, rfl, Or.inl ⟨_, rfl, hreads.trans_consumes (consumes_append_readChar hsome)⟩⟩

theorem consumeUnquoted_spec (s : CSSLexer) : ∃ r, s.consumeUnquoted = some r ∧ Typed s r := by
  obtain ⟨⟨type, t⟩, ht, hreads, hne, hne'⟩ := loop_unquotedRound s.append.readChar
  have hst : Reads s t := ((reads_append s).trans (reads_readChar _)).trans hreads
  rw [consumeUnquoted]
  simp only [ht, Option.bind_eq_bind, Option.bind_some]
  cases type with
  | none =>
      obtain ⟨r, hr, hend⟩ := loop_badUrlRound t
      exact ⟨r, hr, hend.of_reads hst⟩
  | some type =>
      exact ⟨_, rfl, hst, fun heof => absurd (congrArg some heof) hne,
        fun hskip => hne' (congrArg some hskip)⟩

theorem consumeUrl_spec (s : CSSLexer) : ∃ r, s.consumeUrl = some r ∧ Typed s r := by
  obtain ⟨t, ht, hreads⟩ := skipWhile_spec wsChars { s with text := [] }
  have hst : Reads s t := ⟨hreads.suffix, hreads.token, hreads.currentState⟩
  rw [consumeUrl]
  simp only [ht, Option.bind_eq_bind, Option.bind_some]
  split
  next hnone => exact ⟨_, rfl, hst, fun _ => hnone, nofun⟩
  next =>
    split
    · obtain ⟨r, hr, hend⟩ := consumeQuoted_spec t
      exact ⟨r, hr, hend.of_reads hst⟩
    · obtain ⟨r, hr, hend⟩ := consumeUnquoted_spec t
      exact ⟨r, hr, hend.of_reads hst⟩

/-! ## States of the automaton -/

/-- Trying a state reads nothing, and no state but the first accepts the end of the text. -/
theorem accepts_spec {state : LexerState} (hstate : state ≠ .initState) (s : CSSLexer) :
    Reads s (s.accepts state).2 ∧ (s.accepts state).2.input = s.input ∧
      ((s.accepts state).1 = true → s.ch ≠ none) := by
  have hunits : Reads s s.acceptsUnit.2 ∧ s.acceptsUnit.2.input = s.input ∧
      (s.acceptsUnit.1 = true → s.ch ≠ none) := by
    rw [acceptsUnit]
    split
    · exact ⟨Reads.refl s, rfl, nofun⟩
    next hchar =>
      have hsome : s.ch ≠ none := by
        intro hnone
        rw [hnone] at hchar
        exact hchar rfl
      split
      · exact ⟨Reads.refl s, rfl, fun _ => hsome⟩
      · exact ⟨⟨List.suffix_rfl, rfl, rfl⟩, rfl, fun _ => hsome⟩
  have hplain : (state.recognizers.any fun r => recognizes r s.ch) = true → s.ch ≠ none := by
    intro hany
    obtain ⟨r, -, hr⟩ := List.any_eq_true.mp hany
    exact ch_ne_none_of_recognizes hr
  cases state with
  | initState => exact absurd rfl hstate
  | unitsState => exact hunits
  | _ => exact ⟨Reads.refl s, rfl, hplain⟩

theorem firstAccepting_spec {states : List LexerState} (hstates : .initState ∉ states)
    (s : CSSLexer) : Reads s (firstAccepting states s).2 ∧
      (firstAccepting states s).2.input = s.input ∧
      ∀ state ∈ (firstAccepting states s).1, state ≠ .initState ∧ s.ch ≠ none := by
  induction states generalizing s with
  | nil => exact ⟨Reads.refl s, rfl, nofun⟩
  | cons state states ih =>
      obtain ⟨hne, hrest⟩ := not_or.mp (mt List.mem_cons.mpr hstates)
      obtain ⟨hreads, hinput, haccepts⟩ := accepts_spec (Ne.symm hne) s
      rw [firstAccepting]
      cases heq : s.accepts state with
      | mk accepted t =>
          rw [heq] at hreads hinput haccepts
          cases accepted with
          | true =>
              refine ⟨hreads, hinput, fun state' hstate' => ?_⟩
              rw [← Option.mem_some_iff.mp hstate']
              exact ⟨Ne.symm hne, haccepts rfl⟩
          | false =>
              obtain ⟨hreads', hinput', hall⟩ := ih hrest t
              refine ⟨hreads.trans hreads', hinput'.trans hinput, fun state' hstate' => ?_⟩
              have hch : t.ch = s.ch := by rw [ch, hinput, ch]
              rw [← hch]
              exact hall state' hstate'

theorem initState_notMem_reachable (state : LexerState) : .initState ∉ state.reachable := by
  cases state with
  | _ => decide

theorem unitType_ne (unitsMask : BitVec 32) :
    unitType unitsMask ≠ .eof ∧ unitType unitsMask ≠ .skip := by
  have hite : ∀ {p : Prop} [Decidable p] {type other : TokenType}, type ≠ .eof ∧ type ≠ .skip →
      other ≠ .eof ∧ other ≠ .skip →
      (if p then type else other) ≠ .eof ∧ (if p then type else other) ≠ .skip := by
    intro p _ type other htype hother
    split
    · exact htype
    · exact hother
  rw [unitType]
  iterate 13 refine hite (by decide) ?_
  decide

/-- The type of a state, for which a URL may read on. -/
theorem getType_spec (s : CSSLexer) : ∃ r, s.getType = some r ∧ Typed s r ∧
    (s.currentState = .initState → r = (.invalid, s)) := by
  have htyped : ∀ type : TokenType, type ≠ .eof → type ≠ .skip → Typed s (type, s) :=
    fun type hne hskip => ⟨Reads.refl s, fun heof => absurd heof hne, hskip⟩
  rw [getType]
  cases hstate : s.currentState with
  | lparenState =>
      simp only []
      split
      · obtain ⟨r, hr, hend⟩ := consumeUrl_spec s
        exact ⟨r, hr, hend, nofun⟩
      · exact ⟨_, rfl, htyped _ (by decide) (by decide), nofun⟩
  | unitsState =>
      exact ⟨_, rfl, ⟨⟨List.suffix_rfl, rfl, hstate.symm⟩,
        fun heof => absurd heof (unitType_ne _).1, (unitType_ne _).2⟩, nofun⟩
  | initState => exact ⟨_, rfl, htyped _ (by decide) (by decide), fun _ => rfl⟩
  | _ => exact ⟨_, rfl, htyped _ (by decide) (by decide), nofun⟩

/-! ## Comments and `!important` -/

theorem skipComment_spec (s : CSSLexer) : ∃ t, s.skipComment = some t ∧ Reads s t := by
  refine loop_reads fun t ht => ?_
  rw [commentRound]
  split
  · exact ⟨_, rfl, Or.inr ⟨_, rfl, ht⟩⟩
  next hsome =>
    have hread := consumes_readChar hsome
    split
    · simp only []
      split
      · refine ⟨_, rfl, Or.inr ⟨_, rfl, ht.trans (hread.1.trans ?_)⟩⟩
        have hoffset : Reads t.readChar { t.readChar with offset := t.readChar.pos } :=
          ⟨List.suffix_rfl, rfl, rfl⟩
        exact hoffset.trans (reads_readChar _)
      · exact ⟨_, rfl, Or.inl ⟨_, rfl, hread⟩⟩
    · exact ⟨_, rfl, Or.inl ⟨_, rfl, hread⟩⟩

theorem skipEOL_spec (s : CSSLexer) : ∃ t, s.skipEOL = some t ∧ Reads s t := by
  refine loop_reads fun t ht => ?_
  rw [eolRound]
  split
  · exact ⟨_, rfl, Or.inr ⟨_, rfl, ht⟩⟩
  next hsome =>
    have hread := consumes_readChar hsome
    simp only []
    split
    · exact ⟨_, rfl, Or.inr ⟨_, rfl, ht.trans hread.1⟩⟩
    · exact ⟨_, rfl, Or.inl ⟨_, rfl, hread⟩⟩

theorem acceptLetters_spec (letters : List Recognizer) (s : CSSLexer) :
    Reads s (acceptLetters letters s).2 := by
  induction letters generalizing s with
  | nil => exact Reads.refl s
  | cons r letters ih =>
      have hread : Reads s s.append.readChar := (reads_append s).trans (reads_readChar _)
      rw [acceptLetters]
      split
      · exact hread.trans (ih _)
      · exact hread

theorem skipDeclaration_spec (s : CSSLexer) : ∃ t, s.skipDeclaration = some t ∧ Reads s t := by
  refine loop_reads fun t ht => ?_
  by_cases hch : t.ch ≠ some (Json.unit ';') ∧ t.ch ≠ some (Json.unit '}') ∧ t.ch ≠ none
  · exact ⟨_, by rw [if_pos hch], Or.inl ⟨_, rfl, consumes_readChar hch.2.2⟩⟩
  · exact ⟨_, by rw [if_neg hch], Or.inr ⟨_, rfl, ht⟩⟩

/-- What `scanImportant` returns: the end only at the end of the text. -/
structure Scanned (s : CSSLexer) (r : Token × CSSLexer) : Prop where
  suffix : r.2.input <:+ s.input
  currentState : r.2.currentState = s.currentState
  token : r.2.token = s.token ∨ r.1 = Token.eofToken ∧ r.2.token = some Token.eofToken
  atEnd : r.1.type = .eof → r.2.ch = none

theorem Scanned.of_reads {r : Token × CSSLexer} (h : Reads s t) (h' : Scanned t r) : Scanned s r :=
  ⟨h'.suffix.trans h.suffix, h'.currentState.trans h.currentState,
    h'.token.imp (fun heq => heq.trans h.token) id, h'.atEnd⟩

theorem scanLetters_spec (s : CSSLexer) : ∃ r, s.scanLetters = some r ∧ Scanned s r := by
  have hletters := acceptLetters_spec importantLetters s
  rw [scanLetters]
  cases heq : acceptLetters importantLetters s with
  | mk accepted t =>
      rw [heq] at hletters
      cases accepted with
      | true =>
          exact ⟨_, rfl, hletters.suffix, hletters.currentState, Or.inl hletters.token, nofun⟩
      | false =>
          obtain ⟨u, hu, hreads⟩ := skipDeclaration_spec t
          have hsu := hletters.trans hreads
          simp only [Bool.false_eq_true, if_false, hu, Option.bind_eq_bind, Option.bind_some]
          split
          · exact ⟨_, rfl, hsu.suffix, hsu.currentState, Or.inl hsu.token, nofun⟩
          next hnone =>
            exact ⟨_, rfl, hsu.suffix, hsu.currentState, Or.inl hsu.token,
              fun _ => not_not.mp hnone⟩

theorem loop_importantRound (s : CSSLexer) : ∃ r, s.loop importantRound = some r ∧ Scanned s r := by
  refine loop_reads fun t ht => ?_
  rw [importantRound]
  split
  next hnone =>
    exact ⟨_, rfl, Or.inr ⟨_, rfl, ht.suffix, ht.currentState, Or.inr ⟨rfl, rfl⟩, fun _ => hnone⟩⟩
  next hsome =>
    have hread := consumes_readChar hsome
    split
    · simp only []
      split
      · obtain ⟨u, hu, hreads⟩ := skipComment_spec t.readChar
        exact ⟨_, by rw [hu]; rfl, Or.inl ⟨u, rfl, hread.trans hreads⟩⟩
      · split
        · obtain ⟨u, hu, hreads⟩ := skipEOL_spec t.readChar
          exact ⟨_, by rw [hu]; rfl, Or.inl ⟨u, rfl, hread.trans hreads⟩⟩
        · have hst := ht.trans hread.1
          exact ⟨_, rfl, Or.inr ⟨_, rfl, hst.suffix, hst.currentState, Or.inl hst.token, nofun⟩⟩
    · split
      · exact ⟨_, rfl, Or.inl ⟨_, rfl, hread⟩⟩
      · obtain ⟨r, hr, hscanned⟩ := scanLetters_spec t
        exact ⟨_, by rw [hr]; rfl, Or.inr ⟨r, rfl, hscanned.of_reads ht⟩⟩

/-! ## Strings and at-rules -/

/-- A character that is read and is not the end has another one before it. -/
theorem ch_ne_none_of_readChar (h : s.readChar.ch ≠ none) : s.ch ≠ none := by
  intro hnone
  rw [ch_eq_none_iff] at hnone
  rw [ch, input_readChar, hnone] at h
  exact h rfl

/-- A loop that reads first has consumed a character when it stops. -/
theorem Reads.consumes_readChar (h : Reads s t) (hs : s.ch ≠ none) : Consumes s t.readChar := by
  by_cases ht : t.ch = none
  · refine ⟨h.trans (reads_readChar t), ?_⟩
    rw [input_readChar, ch_eq_none_iff.mp ht]
    exact List.length_pos_iff.mpr (mt ch_eq_none_iff.mpr hs)
  · exact h.trans_consumes (CSSLexer.consumes_readChar ht)

theorem loop_stringRound (endq : Option UInt16) (hs : s.ch ≠ none) :
    ∃ t, s.loop (stringRound endq) = some t ∧ Consumes s t := by
  refine loop_reads fun t ht => ?_
  rw [stringRound]
  simp only []
  split
  · exact ⟨_, rfl, Or.inr ⟨_, rfl, ht.consumes_readChar hs⟩⟩
  next hsome =>
    have hconsumes : Consumes t t.readChar.append :=
      (consumes_readChar (ch_ne_none_of_readChar hsome)).trans (reads_append _)
    split
    · exact ⟨_, rfl, Or.inr ⟨_, rfl, ht.trans_consumes hconsumes⟩⟩
    · exact ⟨_, rfl, Or.inl ⟨_, rfl, hconsumes⟩⟩

theorem readKeyword_spec (hs : s.ch ≠ none) :
    ∃ r, s.readKeyword = some r ∧ Consumes s r.1 := by
  have hround : ∀ p : CSSLexer × Json.JString, Reads s p.1 →
      Rounds.Keeps (fun p : CSSLexer × Json.JString => Reads s p.1) (fun p => p.1.input.length)
        (fun p : CSSLexer × Json.JString => Consumes s p.1) p (keywordRound p) := by
    intro p hp
    have hst := hp.trans (reads_readChar p.1)
    have hround : keywordRound p = some (if !recognizes wsChars p.1.readChar.ch &&
        p.1.readChar.ch ≠ none then .inl (p.1.readChar, p.2 ++ [p.1.readChar.char])
        else .inr (p.1.readChar, p.2 ++ [p.1.readChar.char])) := rfl
    rw [hround]
    by_cases hgoes : (!recognizes wsChars p.1.readChar.ch && p.1.readChar.ch ≠ none) = true
    · rw [if_pos hgoes]
      rw [Bool.and_eq_true] at hgoes
      have hch : p.1.ch ≠ none := ch_ne_none_of_readChar (by simpa using hgoes.2)
      exact ⟨hst, (consumes_readChar hch).2⟩
    · rw [if_neg hgoes]
      exact hp.consumes_readChar hs
  exact Rounds.iterate_spec hround (Reads.refl s) (Nat.lt_succ_self _)

theorem skipRule_spec (s : CSSLexer) : ∃ t, s.skipRule = some t ∧ Reads s t := by
  refine loop_reads fun t ht => ⟨_, rfl, ?_⟩
  split
  next hgoes =>
    exact Or.inl ⟨_, rfl, consumes_readChar (ch_ne_none_of_readChar hgoes.2)⟩
  next => exact Or.inr ⟨_, rfl, ht.trans (reads_readChar t)⟩

/-- An at-rule leaves a token that is not the end, or none. -/
theorem atRule_spec (hs : s.ch ≠ none) : ∃ t, s.atRule = some t ∧ t.input <:+ s.input ∧
    t.input.length < s.input.length ∧ t.currentState = s.currentState ∧
    (∀ tok ∈ t.token, tok ∈ s.token ∨ tok.type ≠ .eof) := by
  obtain ⟨⟨t, keywordSB⟩, ht, hreads, hlt⟩ := readKeyword_spec hs
  rw [atRule]
  simp only [ht, Option.bind_eq_bind, Option.bind_some]
  split
  · exact ⟨_, rfl, hreads.suffix, hlt, hreads.currentState, fun tok htok => Or.inr (by
      rw [← Option.mem_some_iff.mp htok]
      exact nofun)⟩
  · obtain ⟨u, hu, hreads'⟩ := skipRule_spec t
    have hsu : Consumes s u := Consumes.trans ⟨hreads, hlt⟩ hreads'
    simp only [hu, Option.bind_some]
    split
    · have hst := hsu.trans (reads_readChar u)
      exact ⟨_, rfl, hst.1.suffix, hst.2, hst.1.currentState, fun tok htok => Or.inr (by
        rw [← Option.mem_some_iff.mp htok]
        decide)⟩
    · exact ⟨_, rfl, hsu.1.suffix, hsu.2, hsu.1.currentState, fun tok htok => Or.inl (by
        rw [← hsu.1.token]
        exact htok)⟩

/-! ## Tokens -/

/-- The state between two tokens. -/
structure Ready (s : CSSLexer) : Prop where
  currentState : s.currentState = .initState
  token : s.token = none ∨ s.token = some Token.eofToken ∧ s.ch = none

/-- A token: it has consumed characters unless it is the end, and the end is found at the end. -/
structure Found (s : CSSLexer) (r : Token × CSSLexer) : Prop where
  suffix : r.2.input <:+ s.input
  token : r.2.token = none ∨ r.2.token = some Token.eofToken ∧ r.2.ch = none
  consumes : r.1.type ≠ .eof → r.2.input.length < s.input.length
  atEnd : r.1.type = .eof → r.2.ch = none
  skip : r.1.type = .skip → r.2.token = none ∧ r.2.currentState = .initState

theorem Found.of_suffix {r : Token × CSSLexer} (h : t.input <:+ s.input) (h' : Found t r) :
    Found s r :=
  ⟨h'.suffix.trans h, h'.token, fun hne => lt_of_lt_of_le (h'.consumes hne) h.length_le, h'.atEnd,
    h'.skip⟩

/-- The end of the text. -/
theorem found_returnEof (h : s.ch = none) : Found s s.returnEof :=
  ⟨List.suffix_rfl, Or.inr ⟨rfl, h⟩, fun hne => absurd rfl hne, fun _ => h, nofun⟩

/-- What follows the `switch` reads at most one character more. -/
theorem returnToken_spec (t : CSSLexer) (htoken : ∀ tok ∈ t.token, tok.type ≠ .eof) :
    t.returnToken.2.input <:+ t.input ∧ t.returnToken.1.type ≠ .eof ∧
      t.returnToken.2.token = none ∧ t.returnToken.2.currentState = t.currentState ∧
      (t.ch ≠ none → t.charNotConsumed = false →
        t.returnToken.2.input.length < t.input.length) := by
  have hread : ∀ u : CSSLexer, u.input = t.input → u.currentState = t.currentState →
      u.charNotConsumed = t.charNotConsumed →
      ∀ v, v = (if u.ch ≠ none ∧ u.charNotConsumed = false then u.readChar else u) →
      v.input <:+ t.input ∧ v.currentState = t.currentState ∧
        (t.ch ≠ none → t.charNotConsumed = false → v.input.length < t.input.length) := by
    rintro u hinput hstate hflag v rfl
    have hch : u.ch = t.ch := by rw [ch, ch, hinput]
    split
    next hgoes =>
      have hconsumes := consumes_readChar hgoes.1
      rw [← hinput, ← hstate]
      exact ⟨hconsumes.1.suffix, hconsumes.1.currentState, fun _ _ => hconsumes.2⟩
    next hstays =>
      rw [hch, hflag] at hstays
      exact ⟨hinput ▸ List.suffix_rfl, hstate, fun h h' => absurd ⟨h, h'⟩ hstays⟩
  rw [returnToken]
  cases heq : t.token with
  | none =>
      obtain ⟨hsuffix, hstate, hlt⟩ := hread { t with offset := t.pos, token := none }
        rfl rfl rfl _ rfl
      exact ⟨hsuffix, nofun, rfl, hstate, hlt⟩
  | some tok =>
      have hne : tok.type ≠ .eof := htoken tok heq
      obtain ⟨hsuffix, hstate, hlt⟩ := hread t rfl rfl rfl _ rfl
      simp only [if_neg hne]
      exact ⟨hsuffix, hne, trivial, hstate, hlt⟩

/-- A token of the `switch` for which characters have been read already. -/
theorem found_returnToken_of_lt (hsuffix : t.input <:+ s.input)
    (hlt : t.input.length < s.input.length) (hstate : t.currentState = .initState)
    (htoken : ∀ tok ∈ t.token, tok.type ≠ .eof) : Found s t.returnToken := by
  obtain ⟨hrest, hne, hnone, hstate', -⟩ := returnToken_spec t htoken
  exact ⟨hrest.trans hsuffix, Or.inl hnone, fun _ => lt_of_le_of_lt hrest.length_le hlt,
    fun heof => absurd heof hne, fun _ => ⟨hnone, hstate'.trans hstate⟩⟩

/-- A token of the `switch` whose last character is still to be read. -/
theorem found_returnToken (hsuffix : t.input <:+ s.input) (hch : t.ch ≠ none)
    (hflag : t.charNotConsumed = false) (hstate : t.currentState = .initState)
    (htoken : ∀ tok ∈ t.token, tok.type ≠ .eof) : Found s t.returnToken := by
  obtain ⟨hrest, hne, hnone, hstate', hlt⟩ := returnToken_spec t htoken
  exact ⟨hrest.trans hsuffix, Or.inl hnone,
    fun _ => lt_of_lt_of_le (hlt hch hflag) hsuffix.length_le,
    fun heof => absurd heof hne, fun _ => ⟨hnone, hstate'.trans hstate⟩⟩

theorem setToken_ne_eof {type : TokenType} (htype : type ≠ .eof) (text : Option Json.JString)
    (s : CSSLexer) : ∀ tok ∈ (s.setToken type text).token, tok.type ≠ .eof := by
  intro tok htok
  rw [← Option.mem_some_iff.mp htok]
  exact htype

theorem setNewline_ne_eof (text : String) (s : CSSLexer) :
    ∀ tok ∈ (s.setNewline text).token, tok.type ≠ .eof := by
  intro tok htok
  rw [← Option.mem_some_iff.mp htok]
  exact nofun

/-- The state in which the `switch` is entered. -/
structure Switches (s : CSSLexer) : Prop where
  currentState : s.currentState = .initState
  token : s.token = none
  charNotConsumed : s.charNotConsumed = false

/-- What a round of the loop over a token does that began in `s`: it goes on, or finds the token. -/
def Goes (s : CSSLexer) (next : CSSLexer ⊕ (Token × CSSLexer)) : Prop :=
  (∃ t, next = .inl t ∧ Consumes s t) ∨ ∃ r, next = .inr r ∧ Found s r

theorem stringToken_spec (hs : Switches s) (hch : s.ch ≠ none) :
    ∃ t, s.stringToken = some t ∧ Found s t.returnToken := by
  obtain ⟨t, ht, hreads, hlt⟩ := loop_stringRound (s := s.append) s.ch hch
  have hfound : ∀ {type : TokenType}, type ≠ .eof →
      Found s (t.setToken type (some t.text)).returnToken := fun htype =>
    found_returnToken_of_lt hreads.suffix hlt (hreads.currentState.trans hs.currentState)
      (setToken_ne_eof htype _ t)
  rw [stringToken]
  simp only [ht, Option.bind_eq_bind, Option.bind_some]
  split
  · exact ⟨_, rfl, hfound (by decide)⟩
  · exact ⟨_, rfl, hfound (by decide)⟩

theorem solidus_spec (hs : Switches s) (hch : s.ch ≠ none) :
    ∃ next, s.solidus = some next ∧ Goes s next := by
  have hread := consumes_readChar hch
  have hafter : ∀ t, Reads s.readChar t → Goes s (if t.ch ≠ none then .inl t else .inr t.returnEof) := by
    intro t ht
    split
    · exact Or.inl ⟨t, rfl, hread.trans ht⟩
    next hnone =>
      exact Or.inr ⟨_, rfl, (found_returnEof (not_not.mp hnone)).of_suffix
        (hread.trans ht).1.suffix⟩
  rw [solidus]
  simp only []
  split
  · obtain ⟨t, ht, hreads⟩ := skipComment_spec s.readChar
    refine ⟨_, ?_, hafter t hreads⟩
    simp only [ht, Option.bind_eq_bind, Option.bind_some]
    split
    · rfl
    · rfl
  · split
    · obtain ⟨t, ht, hreads⟩ := skipEOL_spec s.readChar
      refine ⟨_, ?_, hafter t hreads⟩
      simp only [ht, Option.bind_eq_bind, Option.bind_some]
      split
      · rfl
      · rfl
    · refine ⟨_, rfl, Or.inr ⟨_, rfl, found_returnToken_of_lt hread.1.suffix hread.2
        (hread.1.currentState.trans hs.currentState) ?_⟩⟩
      exact setToken_ne_eof (by decide) (some (Json.lit "/")) s.readChar

theorem found_carriageReturn (hs : Switches s) (hch : s.ch ≠ none) : Found s s.carriageReturn := by
  have hread := consumes_readChar hch
  rw [carriageReturn]
  split
  · exact found_returnToken_of_lt hread.1.suffix hread.2
      (hread.1.currentState.trans hs.currentState) (setNewline_ne_eof _ _)
  · refine ⟨hread.1.suffix, ?_, fun _ => hread.2, nofun, nofun⟩
    simp only []
    split
    next hnone => exact Or.inr ⟨rfl, hnone⟩
    next => exact Or.inl rfl

theorem scanImportant_spec (hs : Switches s) (hch : s.ch ≠ none) :
    ∃ r, s.scanImportant = some r ∧ Found s r := by
  obtain ⟨r, hr, hscanned⟩ := loop_importantRound s.append.readChar
  have hread := consumes_append_readChar hch
  have htoken : s.append.readChar.token = none := hread.1.token.trans hs.token
  have hready : r.2.token = none ∨ r.1 = Token.eofToken ∧ r.2.token = some Token.eofToken := by
    rw [← htoken]
    exact hscanned.token
  refine ⟨r, hr, hscanned.suffix.trans hread.1.suffix, hready.imp id ?_, fun _ => ?_,
    hscanned.atEnd, fun hskip => ⟨?_, ?_⟩⟩
  · rintro ⟨heof, htoken'⟩
    refine ⟨htoken', hscanned.atEnd ?_⟩
    rw [heof]
    rfl
  · exact lt_of_le_of_lt hscanned.suffix.length_le hread.2
  · rcases hready with hnone | ⟨heof, -⟩
    · exact hnone
    · rw [heof] at hskip
      cases hskip
  · exact (hscanned.currentState.trans hread.1.currentState).trans hs.currentState

theorem atRule_found (hs : Switches s) (hch : s.ch ≠ none) :
    ∃ t, s.atRule = some t ∧ Found s t.returnToken := by
  obtain ⟨t, ht, hsuffix, hlt, hstate, htoken⟩ := atRule_spec hch
  refine ⟨t, ht, found_returnToken_of_lt hsuffix hlt (hstate.trans hs.currentState) ?_⟩
  intro tok htok
  rcases htoken tok htok with hold | hne
  · rw [hs.token] at hold
    cases hold
  · exact hne

theorem singleType_ne_eof (c : UInt16) : ∀ type ∈ singleType c, type ≠ .eof := by
  have hite : ∀ {p : Prop} [Decidable p] {type : TokenType} {other : Option TokenType},
      type ≠ .eof → (∀ t ∈ other, t ≠ .eof) →
        ∀ t ∈ (if p then some type else other), t ≠ .eof := by
    intro p _ type other htype hother t ht
    split at ht
    · rw [← Option.mem_some_iff.mp ht]
      exact htype
    · exact hother t ht
  rw [singleType]
  iterate 11 refine hite (by decide) ?_
  exact nofun

theorem switchChar_spec (hs : Switches s) : ∃ next, s.switchChar = some next ∧ Goes s next := by
  have htoken : ∀ (type : TokenType) (text : Option Json.JString), s.ch ≠ none → type ≠ .eof →
      Found s (s.setToken type text).returnToken := fun type text hch htype =>
    found_returnToken List.suffix_rfl hch hs.charNotConsumed hs.currentState
      (setToken_ne_eof htype text s)
  rw [switchChar]
  cases heq : s.ch with
  | none => exact ⟨_, rfl, Or.inr ⟨_, rfl, found_returnEof heq⟩⟩
  | some c =>
      have hch : s.ch ≠ none := ch_ne_none_of_eq heq
      simp only []
      split
      · obtain ⟨t, ht, hfound⟩ := stringToken_spec hs hch
        exact ⟨_, by rw [ht]; rfl, Or.inr ⟨_, rfl, hfound⟩⟩
      split
      · exact solidus_spec hs hch
      split
      · exact ⟨_, rfl, Or.inr ⟨_, rfl, found_carriageReturn hs hch⟩⟩
      split
      · exact ⟨_, rfl, Or.inr ⟨_, rfl, found_returnToken List.suffix_rfl hch hs.charNotConsumed
          hs.currentState (setNewline_ne_eof _ s)⟩⟩
      split
      · obtain ⟨r, hr, hfound⟩ := scanImportant_spec hs hch
        exact ⟨_, by rw [hr]; rfl, Or.inr ⟨r, rfl, hfound⟩⟩
      split
      · obtain ⟨t, ht, hfound⟩ := atRule_found hs hch
        exact ⟨_, by rw [ht]; rfl, Or.inr ⟨_, rfl, hfound⟩⟩
      cases htype : singleType c with
      | some type =>
          exact ⟨_, rfl, Or.inr ⟨_, rfl, htoken type _ hch (singleType_ne_eof c type htype)⟩⟩
      | none => exact ⟨_, rfl, Or.inr ⟨_, rfl, htoken .invalid _ hch (by decide)⟩⟩

/-! ## The loops of `getToken` and `nextToken` -/

/-- What the loop of `getToken` keeps: away from the first state a character has been read. -/
structure Scanning (s t : CSSLexer) : Prop where
  suffix : t.input <:+ s.input
  token : t.token = none
  consumed : t.currentState ≠ .initState → t.input.length < s.input.length

theorem accepts_charNotConsumed (state : LexerState) (s : CSSLexer) :
    (s.accepts state).2.charNotConsumed = s.charNotConsumed := by
  have hunits : s.acceptsUnit.2.charNotConsumed = s.charNotConsumed := by
    rw [acceptsUnit]
    split
    · rfl
    · split
      · rfl
      · rfl
  cases state with
  | unitsState => exact hunits
  | _ => rfl

theorem firstAccepting_charNotConsumed (states : List LexerState) (s : CSSLexer) :
    (firstAccepting states s).2.charNotConsumed = s.charNotConsumed := by
  induction states generalizing s with
  | nil => rfl
  | cons state states ih =>
      have hflag := accepts_charNotConsumed state s
      rw [firstAccepting]
      cases heq : s.accepts state with
      | mk accepted t =>
          rw [heq] at hflag
          cases accepted with
          | true => exact hflag
          | false => exact (ih t).trans hflag

theorem tokenRound_spec (ht : Scanning s t) :
    Rounds.Keeps (Scanning s) (fun t => t.input.length) (Found s) t t.tokenRound := by
  obtain ⟨t', ht'⟩ : ∃ t', t' = { t with charNotConsumed := false } := ⟨_, rfl⟩
  have hcleared : Reads t t' := by
    rw [ht']
    exact ⟨List.suffix_rfl, rfl, rfl⟩
  have hclear : t'.charNotConsumed = false := by rw [ht']
  obtain ⟨hreads, hinput, haccepts⟩ := firstAccepting_spec
    (initState_notMem_reachable t'.currentState) t'
  have hflag := (firstAccepting_charNotConsumed t'.currentState.reachable t').trans hclear
  rw [tokenRound, ← ht']
  simp only []
  cases heq : firstAccepting t'.currentState.reachable t' with
  | mk newState u =>
      rw [heq] at hreads hinput haccepts hflag
      have htu : Reads t u := hcleared.trans hreads
      cases newState with
      | some newState =>
          have hch : u.ch ≠ none := by
            rw [ch, hinput]
            exact (haccepts newState rfl).2
          have hread : Consumes { u with currentState := newState }
              { u with currentState := newState }.append.readChar := consumes_append_readChar hch
          have hlt := lt_of_lt_of_le hread.2 htu.length_le
          exact ⟨⟨hread.1.suffix.trans (htu.suffix.trans ht.suffix),
            hread.1.token.trans (htu.token.trans ht.token),
            fun _ => lt_of_lt_of_le hlt ht.suffix.length_le⟩, hlt⟩
      | none =>
          obtain ⟨⟨type, v⟩, hv, ⟨hreads', heof, hskip⟩, hinit⟩ := getType_spec u
          have htv := htu.trans hreads'
          simp only [hv, Option.bind_eq_bind, Option.bind_some]
          by_cases hstate : u.currentState = .initState
          · -- no state was entered, and the character is one of the `switch`
            cases hinit hstate
            rw [if_neg (not_or.mpr ⟨not_not.mpr rfl, not_not.mpr hstate⟩)]
            obtain ⟨next, hnext, hgoes⟩ := switchChar_spec
              ⟨hstate, htv.token.trans ht.token, hflag⟩
            rw [hnext]
            rcases hgoes with ⟨w, rfl, hw⟩ | ⟨r, rfl, hr⟩
            · exact ⟨⟨(htv.trans hw.1).suffix.trans ht.suffix,
                ((htv.trans hw.1).token).trans ht.token,
                fun _ => lt_of_lt_of_le (htv.trans_consumes hw).2 ht.suffix.length_le⟩,
                (htv.trans_consumes hw).2⟩
            · exact hr.of_suffix (htv.suffix.trans ht.suffix)
          · have hstate' : v.currentState ≠ .initState := by
              rw [hreads'.currentState]
              exact hstate
            have hlt : t.input.length < s.input.length := by
              refine ht.consumed ?_
              rw [← htu.currentState]
              exact hstate
            rw [if_pos (Or.inr hstate')]
            exact ⟨htv.suffix.trans ht.suffix, Or.inl (htv.token.trans ht.token),
              fun _ => lt_of_le_of_lt htv.length_le hlt, heof,
              fun htype => absurd htype hskip⟩

theorem getToken_spec (hstate : s.currentState = .initState) (htoken : s.token = none) :
    ∃ r, s.getToken = some r ∧ Found s r :=
  loop_spec (fun _ ht => tokenRound_spec ht)
    ⟨List.suffix_rfl, htoken, fun hne => absurd hstate hne⟩

/-- What the loop of `nextToken` keeps. -/
structure Skipping (s t : CSSLexer) : Prop where
  suffix : t.input <:+ s.input
  currentState : t.currentState = .initState
  token : t.token = none

theorem skipRound_spec (ht : Skipping s t) :
    Rounds.Keeps (Skipping s) (fun t => t.input.length) (Found s) t t.skipRound := by
  obtain ⟨⟨tok, u⟩, hu, hfound⟩ := getToken_spec ht.currentState ht.token
  rw [skipRound]
  simp only [hu, Option.bind_eq_bind, Option.bind_some]
  split
  next hskip =>
    rw [Token.equals, Bool.and_eq_true] at hskip
    have htype : tok.type = .skip := (of_decide_eq_true hskip.1).symm
    have hne : tok.type ≠ .eof := by
      rw [htype]
      decide
    exact ⟨⟨hfound.suffix.trans ht.suffix, (hfound.skip htype).2, (hfound.skip htype).1⟩,
      hfound.consumes hne⟩
  next => exact hfound.of_suffix ht.suffix

/-- **One call** of `nextToken`: it ends, consumes characters unless it returns the end, which it
does only when none are left. -/
theorem nextToken_spec (hs : Ready s) : ∃ tok t, s.nextToken = some (tok, t) ∧ Ready t ∧
    t.input <:+ s.input ∧ (tok.type ≠ .eof → t.input.length < s.input.length) ∧
    (tok.type = .eof → t.ch = none) := by
  rcases hs.token with hnone | ⟨heof, hch⟩
  · have hround : ∀ t, Skipping s t →
        Rounds.Keeps (Skipping s) (fun t => t.input.length) (Found s) t t.skipRound :=
      fun t ht => skipRound_spec ht
    obtain ⟨⟨tok, t⟩, ht, hfound⟩ := loop_spec hround ⟨List.suffix_rfl, hs.currentState, hnone⟩
    refine ⟨tok, { t with text := [], currentState := .initState }, ?_, ⟨rfl, hfound.token⟩,
      hfound.suffix, hfound.consumes, hfound.atEnd⟩
    rw [nextToken, hnone]
    simp only [ht, Option.bind_eq_bind, Option.bind_some]
    rfl
  · obtain ⟨t, ht⟩ : ∃ t, t = { s with text := [], currentState := .initState } := ⟨_, rfl⟩
    have hnext : s.nextToken = some (Token.eofToken, t) := by
      rw [nextToken, heof, ht]
      rfl
    refine ⟨Token.eofToken, t, hnext, ?_⟩
    rw [ht]
    exact ⟨⟨rfl, Or.inr ⟨heof, hch⟩⟩, List.suffix_rfl, fun hne => absurd rfl hne, fun _ => hch⟩

/-! ## All calls -/

/-- At the end every further call returns the end. -/
theorem nextToken_of_ch_eq_none (hs : Ready s) (hch : s.ch = none) :
    ∃ tok t, s.nextToken = some (tok, t) ∧ Ready t ∧ t.ch = none ∧ tok.type = .eof := by
  obtain ⟨tok, t, hnext, ht, hsuffix, hconsumes, -⟩ := nextToken_spec hs
  rw [ch_eq_none_iff] at hch
  refine ⟨tok, t, hnext, ht, ?_, ?_⟩
  · rw [hch, List.suffix_nil] at hsuffix
    exact ch_eq_none_iff.mpr hsuffix
  · by_contra hne
    have hlt := hconsumes hne
    rw [hch] at hlt
    exact Nat.not_lt_zero _ hlt

theorem ready_setReader (reader : Json.JString) (s : CSSLexer) : Ready (s.setReader reader) :=
  ⟨rfl, Or.inl rfl⟩

/-- The token and the lexer that a call leaves, when the lexer is ready for it. -/
theorem exists_calls (hs : Ready s) : ∃ lexers : ℕ → CSSLexer, ∃ tokens : ℕ → Token,
    lexers 0 = s ∧ ∀ n, (lexers n).nextToken = some (tokens n, lexers (n + 1)) ∧
      Ready (lexers n) := by
  have hnext : ∀ u : { u : CSSLexer // Ready u }, ∃ p : Token × { u : CSSLexer // Ready u },
      u.1.nextToken = some (p.1, p.2.1) := by
    intro u
    obtain ⟨tok, t, h, ht, -⟩ := nextToken_spec u.2
    exact ⟨(tok, ⟨t, ht⟩), h⟩
  choose next hnext using hnext
  let lexers : ℕ → { u : CSSLexer // Ready u } := fun n => (fun u => (next u).2)^[n] ⟨s, hs⟩
  refine ⟨fun n => (lexers n).1, fun n => (next (lexers n)).1, rfl, fun n => ⟨?_, (lexers n).2⟩⟩
  have hsucc : lexers (n + 1) = (next (lexers n)).2 := Function.iterate_succ_apply' _ _ _
  exact (hnext (lexers n)).trans (by simp only [hsucc])

/-- **Progress.** On every text all calls of `nextToken` end, each token that is not the end consumes
characters, and from some call on, which comes after no more calls than there are characters, the
token is the end. -/
theorem nextToken_progress (s : CSSLexer) (reader : Json.JString) :
    ∃ lexers : ℕ → CSSLexer, ∃ tokens : ℕ → Token, lexers 0 = s.setReader reader ∧
      (∀ n, (lexers n).nextToken = some (tokens n, lexers (n + 1))) ∧
      (∀ n, (tokens n).type ≠ .eof → (lexers (n + 1)).input <:+ (lexers n).input ∧
        (lexers (n + 1)).input.length < (lexers n).input.length) ∧
      ∃ m ≤ reader.length, ∀ n, (tokens n).type = .eof ↔ m ≤ n := by
  obtain ⟨lexers, tokens, hzero, hcalls⟩ := exists_calls (ready_setReader reader s)
  have hconsumes : ∀ n, (tokens n).type ≠ .eof → (lexers (n + 1)).input <:+ (lexers n).input ∧
      (lexers (n + 1)).input.length < (lexers n).input.length := by
    intro n hne
    obtain ⟨tok, t, hnext, -, hsuffix, hlt, -⟩ := nextToken_spec (hcalls n).2
    cases (hcalls n).1.symm.trans hnext
    exact ⟨hsuffix, hlt hne⟩
  have hends : ∀ n, (tokens n).type = .eof → (tokens (n + 1)).type = .eof := by
    intro n heof
    obtain ⟨tok, t, hnext, -, -, -, hend⟩ := nextToken_spec (hcalls n).2
    cases (hcalls n).1.symm.trans hnext
    obtain ⟨tok', t', hnext', -, -, heof'⟩ :=
      nextToken_of_ch_eq_none (hcalls (n + 1)).2 (hend heof)
    cases (hcalls (n + 1)).1.symm.trans hnext'
    exact heof'
  -- while no end has come, each call has consumed a character
  have hlength : ∀ n, (∀ i < n, (tokens i).type ≠ .eof) →
      n + (lexers n).input.length ≤ reader.length := by
    intro n
    induction n with
    | zero =>
        intro _
        rw [hzero, Nat.zero_add]
        exact le_rfl
    | succ n ih =>
        intro hbefore
        have hle := ih fun i hi => hbefore i (Nat.lt_succ_of_lt hi)
        have hlt := (hconsumes n (hbefore n (Nat.lt_succ_self n))).2
        omega
  have hexists : ∃ m, (tokens m).type = .eof := by
    by_contra hnever
    have hle := hlength (reader.length + 1) fun i _ heof => hnever ⟨i, heof⟩
    omega
  refine ⟨lexers, tokens, hzero, fun n => (hcalls n).1, hconsumes, Nat.find hexists, ?_, fun n => ?_⟩
  · have hle := hlength (Nat.find hexists) fun i hi => Nat.find_min hexists hi
    omega
  · constructor
    · exact fun heof => Nat.find_min' hexists heof
    · intro hle
      induction n, hle using Nat.le_induction with
      | base => exact Nat.find_spec hexists
      | succ n _ ih => exact hends n ih

end JavaFx.Css.CSSLexer
