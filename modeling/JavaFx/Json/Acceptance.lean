import JavaFx.Json.Lexing
import JavaFx.Json.StackMachine

/-!
# What a reader accepts

A session is at a configuration of the stack machine; a round of the loop of `next()` follows a
turn (`passes_of_turn`), and where there is no turn the call does not return (`stuck`). So the
calls up to `END_DOCUMENT` complete just when the stack machine comes to its end, which is when an
object or an array has been read and a further token behind it. That token is not looked at
(`completes_iff`).
-/

namespace JavaFx.Json

open JSONSymbol

/-! ## Calls of `next()` -/

/-- What a call has returned, and what `key()` and `value()` return after it. -/
structure Observation where
  event : EventType
  key : Option JString
  value : Option JString
deriving DecidableEq

def Session.observe (s : Session) (event : EventType) : Observation := ⟨event, s.key, s.value⟩

/-- Calls of `next()` up to the first one that returns `END_DOCUMENT`, with what each shows. -/
inductive Delivers : Session → List Observation → Session → Prop where
  | last {rounds : ℕ} {s s' : Session} : s.next rounds = some (.ok .END_DOCUMENT, s') →
      Delivers s [s'.observe .END_DOCUMENT] s'
  | more {rounds : ℕ} {s s' s'' : Session} {event : EventType} {obs : List Observation} :
      s.next rounds = some (.ok event, s') → event ≠ .END_DOCUMENT → Delivers s' obs s'' →
      Delivers s (s'.observe event :: obs) s''

/-- A new reader is made and `next()` called until it returns `END_DOCUMENT`; there is no
exception. -/
def Completes (p : Parser) (t : JString) (obs : List Observation) : Prop :=
  ∃ s s', Session.open_ p t = (.ok (), s) ∧ Delivers s obs s'

/-- The observation is what is told. -/
inductive Tells : Observation → Told → Prop where
  | startDocument (key value : Option JString) : Tells ⟨.START_DOCUMENT, key, value⟩ .startDocument
  | endDocument (key value : Option JString) : Tells ⟨.END_DOCUMENT, key, value⟩ .endDocument
  | startObject (key value : Option JString) : Tells ⟨.START_OBJECT, key, value⟩ .startObject
  | endObject (key value : Option JString) : Tells ⟨.END_OBJECT, key, value⟩ .endObject
  | startArray (key value : Option JString) : Tells ⟨.START_ARRAY, key, value⟩ .startArray
  | endArray (key value : Option JString) : Tells ⟨.END_ARRAY, key, value⟩ .endArray
  | startValue (key : JString) (value : Option JString) :
      Tells ⟨.START_VALUE, some key, value⟩ (.startValue key)
  | endValue (key value : Option JString) : Tells ⟨.END_VALUE, key, value⟩ .endValue
  | startArrayElement (key value : Option JString) :
      Tells ⟨.START_ARRAY_ELEMENT, key, value⟩ .startArrayElement
  | endArrayElement (key value : Option JString) :
      Tells ⟨.END_ARRAY_ELEMENT, key, value⟩ .endArrayElement
  | true_ (key value : Option JString) : Tells ⟨.TRUE, key, value⟩ (.keyword .true_)
  | false_ (key value : Option JString) : Tells ⟨.FALSE, key, value⟩ (.keyword .false_)
  | null_ (key value : Option JString) : Tells ⟨.NULL, key, value⟩ (.keyword .null_)
  | string (key : Option JString) (s : JString) : Tells ⟨.STRING, key, some s⟩ (.string s)
  | integer (key : Option JString) (text : JString) :
      Tells ⟨.INTEGER, key, some text⟩ (.integer text)
  | number (key : Option JString) (text : JString) :
      Tells ⟨.NUMBER, key, some text⟩ (.number text)

/-! ## A session at a configuration -/

/-- The session is at the configuration. -/
structure Shows (s : Session) (c : Config) : Prop where
  stack : s.parser.stack = c.stack
  terminal : s.parser.terminal = c.tok.symbol
  found : Found s.scanner c.tok c.rest
  keys : s.reader.stack.length = c.stack.count OV_
  own : s.own = none
  eod : s.reader.eod = false

/-- The symbols above the first one: neither this one nor the end of the stream. -/
def Inner (x : JSONSymbol) : Prop := x ≠ X ∧ x ≠ X_ ∧ x ≠ EOS

instance (x : JSONSymbol) : Decidable (Inner x) := inferInstanceAs (Decidable (_ ∧ _ ∧ _))

/-- The first symbol or its marker is at the bottom, and neither is anywhere else. -/
def Shaped (stack : List JSONSymbol) : Prop :=
  stack = [X] ∨ ∃ top, stack = top ++ [X_] ∧ ∀ x ∈ top, Inner x

theorem transitions_inner {s t : JSONSymbol} {target : List JSONSymbol}
    (h : s.transitions t = some target) : (∀ x ∈ target, Inner x) ∧ OV_ ∉ target := by
  cases s <;> cases t <;> simp [transitions] at h <;> subst h <;> decide

/-- A symbol that is not the last one is taken off, and others may come in its place. -/
theorem Shaped.replace {x : JSONSymbol} {st : List JSONSymbol} (h : Shaped (x :: st))
    (new : List JSONSymbol) (hX : x ≠ X) (hX_ : x ≠ X_) (hnew : ∀ y ∈ new, Inner y) : Shaped (new ++ st) := by
  rcases h with h | ⟨top, h, htop⟩
  · cases h
    exact absurd rfl hX
  · cases top with
    | nil =>
        cases h
        exact absurd rfl hX_
    | cons _ top =>
        cases h
        refine .inr ⟨new ++ top, by simp, fun y hy => ?_⟩
        rcases List.mem_append.mp hy with hy | hy
        · exact hnew y hy
        · exact htop y (.tail _ hy)

theorem Turn.shaped {c c' : Config} {ts : List Told} (h : Turn c ts c') (hc : Shaped c.stack) :
    Shaped c'.stack := by
  cases h with
  | marker hm hX_ =>
      exact hc.replace [] (by rintro rfl; cases hm) hX_ (by simp)
  | @expand s m target st tok rest hs hm ht =>
      obtain ⟨htarget, -⟩ := transitions_inner ht
      by_cases hX : s = X
      · subst hX
        cases hm
        rcases hc with hc | ⟨top, hc, htop⟩
        · cases hc
          exact .inr ⟨target, rfl, htarget⟩
        · cases top with
          | nil => cases hc
          | cons _ top =>
              cases hc
              exact absurd rfl (htop X (.head _)).1
      · have hm' : Inner m := by
          revert hm hX
          cases s <;> simp [markerSymbol] <;> rintro rfl <;> decide
        have hnew := hc.replace (target ++ [m]) hX (by rintro rfl; cases hm) fun y hy => by
          rcases List.mem_append.mp hy with hy | hy
          · exact htarget y hy
          · exact List.mem_singleton.mp hy ▸ hm'
        simpa using hnew
  | @consume s st tok tok' rest rest' htok _ =>
      refine hc.replace [] ?_ ?_ (by simp)
      · rintro rfl
        revert htok
        cases tok <;> simp [Token.symbol]
      · rintro rfl
        revert htok
        cases tok <;> simp [Token.symbol]
  | value _ =>
      exact hc.replace [COLON, V, OV_] (by decide) (by decide) (by decide)

theorem Shaped.head_ne_eos {st : List JSONSymbol} : ¬Shaped (EOS :: st) := by
  rintro (h | ⟨top, h, htop⟩)
  · cases h
  · cases top with
    | nil => cases h
    | cons _ top =>
        cases h
        exact (htop EOS (.head _)).2.2 rfl

/-! ## One round -/

section Rounds

variable {s : Session} {m x : JSONSymbol} {st target : List JSONSymbol} {tok tok' : Token}
  {rest rest' : JString} {ts : List Told} {c c' : Config}

/-- The session with another stack of symbols. -/
def Session.atStack (s : Session) (st : List JSONSymbol) : Session :=
  { s with parser := { s.parser with stack := st } }

theorem symbol_marker (h : s.parser.stack = m :: st) (hm : m.isMarker = true) :
    s.symbol = (.ok m, s.atStack st) := by
  simp only [Session.symbol, JSONSymbol.next, h, hm, if_true]
  rfl

theorem not_isMarker (h : x.markerSymbol = some m) : x.isMarker = false := by
  cases x <;> first | rfl | exact absurd h (by simp [markerSymbol])

theorem symbol_expand (h : s.parser.stack = x :: st) (hm : x.markerSymbol = some m)
    (ht : x.transitions s.parser.terminal = some target) :
    s.symbol = (.ok x, s.atStack (target ++ m :: st)) := by
  simp [Session.symbol, JSONSymbol.next, h, not_isMarker hm, hm, ht, Session.atStack]

theorem symbol_token {scanner : JSONScanner} {symbol : JSONSymbol}
    (h : s.parser.stack = s.parser.terminal :: st) (hmarker : s.parser.terminal.isMarker = false)
    (hm : s.parser.terminal.markerSymbol = none)
    (hnext : s.scanner.nextSymbol = (.ok symbol, scanner)) :
    s.symbol = (.ok s.parser.terminal,
      { s with parser := ⟨st, symbol, s.scanner.value⟩, scanner := scanner }) := by
  simp [Session.symbol, JSONSymbol.next, h, hmarker, hm, hnext]

/-- The symbol of a token is no marker and stands for nothing else. -/
theorem Token.symbol_terminal (tok : Token) :
    tok.symbol.isMarker = false ∧ tok.symbol.markerSymbol = none := by
  cases tok <;> exact ⟨rfl, rfl⟩

/-- The session after a token: the value is that of the token, and the next one is ahead. -/
theorem symbol_token_of_lexes (hstack : s.parser.stack = tok.symbol :: st)
    (hterminal : s.parser.terminal = tok.symbol) (hfound : Found s.scanner tok rest)
    (h : Lexes rest tok' rest') : ∃ scanner,
      s.symbol = (.ok tok.symbol,
        { s with parser := ⟨st, tok'.symbol, tok.value⟩, scanner := scanner }) ∧
      Found scanner tok' rest' ∧
      ∀ n, tok = .number n → scanner.isInt = (tok'.lastNumber n).isInt := by
  obtain ⟨scanner, hnext, hfound'⟩ := nextSymbol_of_lexes hfound.ready h
  refine ⟨scanner, ?_, hfound', ?_⟩
  · have hsymbol := tok.symbol_terminal
    rw [← hterminal] at hstack hsymbol ⊢
    rw [symbol_token hstack hsymbol.1 hsymbol.2 hnext, hfound.value]
  · intro n hn
    cases tok' with
    | number n' => exact hfound'.isInt n' rfl
    | _ => exact (nextSymbol_isInt hnext (by simp [Token.symbol])).trans (hfound.isInt n hn)

namespace Session

/-- The loop goes on from the next configuration, or it has told what there is to tell. -/
def Passes (s : Session) (c : Config) : List Told → Prop
  | [] => ∃ s', Shows s' c ∧ s'.reader.nullValue = false ∧
      ∀ rounds, loop (rounds + 1) s = loop rounds s'
  | [t] => ∃ event s', Shows s' c ∧ Tells (s'.observe event) t ∧ event ≠ .END_DOCUMENT ∧
      ∀ rounds, loop (rounds + 2) s = some (.ok event, s')
  | _ => False

end Session

open Session

theorem loop_error {e : JSONExn} {s₁ : Session} (h : s.symbol = (.error e, s₁)) (rounds : ℕ) :
    ∀ (event : EventType) (s' : Session), loop rounds s ≠ some (.ok event, s') := by
  intro event s'
  cases rounds with
  | zero => simp [loop]
  | succ rounds => simp [loop, h]

/-- The loop returns `currentEvent = event`. -/
theorem passes_event {t : Told} (s₁ : Session) (event : EventType) (hs : Shows s₁ c)
    (hloop : ∀ rounds, loop (rounds + 2) s = some (s₁.event event))
    (htell : Tells (s₁.observe event) t) (hevent : event ≠ .END_DOCUMENT) : s.Passes c [t] :=
  ⟨event, { s₁ with reader := { s₁.reader with currentEvent := some event } },
    ⟨hs.stack, hs.terminal, hs.found, hs.keys, hs.own, hs.eod⟩, htell, hevent, hloop⟩

/-- A marker. -/
theorem passes_marker (hs : Shows s ⟨m :: st, tok, rest⟩) (hnull : s.reader.nullValue = false)
    (hm : m.isMarker = true) (hX : m ≠ X_) :
    s.Passes ⟨st, tok, rest⟩ (markerTold m) := by
  have hsymbol := symbol_marker hs.stack hm
  have hshows (hne : m ≠ OV_) : Shows (s.atStack st) ⟨st, tok, rest⟩ := by
    refine ⟨rfl, hs.terminal, hs.found, ?_, hs.own, hs.eod⟩
    have hkeys := hs.keys
    rwa [List.count_cons_of_ne hne] at hkeys
  have hreader (reader : StreamReader) (hstack : reader.stack = s.reader.stack)
      (heod : reader.eod = s.reader.eod) (hne : m ≠ OV_) :
      Shows { s.atStack st with reader := reader } ⟨st, tok, rest⟩ := by
    have h := hshows hne
    exact ⟨h.stack, h.terminal, h.found, hstack ▸ h.keys, h.own, heod ▸ h.eod⟩
  cases m <;> simp only [isMarker, Bool.false_eq_true] at hm <;> try exact absurd rfl hX
  case O_ =>
    exact passes_event ((s.atStack st).withKey none) .END_OBJECT
      (hreader _ rfl rfl (by decide)) (fun rounds => by simp only [loop, hsymbol])
      (.endObject _ _) (by decide)
  case O1_ => exact ⟨_, hshows (by decide), hnull, fun rounds => by simp only [loop, hsymbol]⟩
  case O3_ => exact ⟨_, hshows (by decide), hnull, fun rounds => by simp only [loop, hsymbol]⟩
  case A1_ => exact ⟨_, hshows (by decide), hnull, fun rounds => by simp only [loop, hsymbol]⟩
  case A2_ => exact ⟨_, hshows (by decide), hnull, fun rounds => by simp only [loop, hsymbol]⟩
  case V_ => exact ⟨_, hshows (by decide), hnull, fun rounds => by simp only [loop, hsymbol]⟩
  case OV_ =>
    -- there is a key for every entry that is open
    have hlength := hs.keys
    rw [List.count_cons_self] at hlength
    cases hstack : s.reader.stack with
    | nil => simp [hstack] at hlength
    | cons key keys =>
        rw [hstack, List.length_cons, Nat.add_right_cancel_iff] at hlength
        refine passes_event ((((s.atStack st).withStack keys).withKey key).withNullValue true)
          .END_VALUE ⟨rfl, hs.terminal, hs.found, hlength, hs.own, hs.eod⟩ (fun rounds => ?_)
          (.endValue _ _) (by decide)
        have hstack' : (s.atStack st).reader.stack = key :: keys := hstack
        simp only [loop, hsymbol, endValue, hstack']
  case A_ =>
    exact passes_event (s.atStack st) .END_ARRAY (hshows (by decide))
      (fun rounds => by simp only [loop, hsymbol]) (.endArray _ _) (by decide)
  case VA_ =>
    exact passes_event ((s.atStack st).withNullValue true) .END_ARRAY_ELEMENT
      (hreader _ rfl rfl (by decide)) (fun rounds => by simp only [loop, hsymbol])
      (.endArrayElement _ _) (by decide)

/-- A symbol that stands for others. -/
theorem passes_expand (hs : Shows s ⟨x :: st, tok, rest⟩) (hshaped : Shaped (x :: st))
    (hnull : s.reader.nullValue = false) (hx : x ≠ OV) (hm : x.markerSymbol = some m) (ht : x.transitions tok.symbol = some target) :
    s.Passes ⟨target ++ m :: st, tok, rest⟩ (expandTold x) := by
  have hsymbol := symbol_expand hs.stack hm (hs.terminal ▸ ht)
  have hmarker := not_isMarker hm
  have hcount : (target ++ m :: st).count OV_ = (x :: st).count OV_ := by
    have hm' : m ≠ OV_ := by
      rintro rfl
      exact hx (by revert hm; cases x <;> simp [markerSymbol])
    have hx' : x ≠ OV_ := by
      rintro rfl
      simp [markerSymbol] at hm
    rw [List.count_append, List.count_eq_zero_of_not_mem (transitions_inner ht).2, Nat.zero_add,
      List.count_cons_of_ne hm', List.count_cons_of_ne hx']
  have hshows : Shows (s.atStack (target ++ m :: st)) ⟨target ++ m :: st, tok, rest⟩ :=
    ⟨rfl, hs.terminal, hs.found, hs.keys.trans hcount.symm, hs.own, hs.eod⟩
  have hreader (reader : StreamReader) (hstack : reader.stack = s.reader.stack)
      (heod : reader.eod = s.reader.eod) :
      Shows { s.atStack (target ++ m :: st) with reader := reader }
        ⟨target ++ m :: st, tok, rest⟩ :=
    ⟨hshows.stack, hshows.terminal, hshows.found, hstack ▸ hshows.keys, hshows.own,
      heod ▸ hshows.eod⟩
  cases x <;> simp only [markerSymbol, reduceCtorEq] at hm <;> try exact absurd rfl hx
  case X =>
    -- nothing is below
    refine passes_event ((s.atStack (target ++ m :: st)).withStack []) .START_DOCUMENT
      ⟨rfl, hs.terminal, hs.found, ?_, hs.own, hs.eod⟩
      (fun rounds => by simp only [loop, hsymbol]) (.startDocument _ _) (by decide)
    rcases hshaped with hst | ⟨top, hst, htop⟩
    · cases hst
      rw [hcount]
      rfl
    · cases top with
      | nil => cases hst
      | cons _ top =>
          cases hst
          exact absurd rfl (htop X (.head _)).1
  case O =>
    exact passes_event ((s.atStack (target ++ m :: st)).withKey none) .START_OBJECT
      (hreader _ rfl rfl) (fun rounds => by simp only [loop, hsymbol]) (.startObject _ _)
      (by decide)
  case O1 => exact ⟨_, hshows, hnull, fun rounds => by simp only [loop, hsymbol]⟩
  case O3 => exact ⟨_, hshows, hnull, fun rounds => by simp only [loop, hsymbol]⟩
  case A =>
    exact passes_event (s.atStack (target ++ m :: st)) .START_ARRAY hshows
      (fun rounds => by simp only [loop, hsymbol]) (.startArray _ _) (by decide)
  case A1 => exact ⟨_, hshows, hnull, fun rounds => by simp only [loop, hsymbol]⟩
  case A2 => exact ⟨_, hshows, hnull, fun rounds => by simp only [loop, hsymbol]⟩
  case V => exact ⟨_, hshows, hnull, fun rounds => by simp only [loop, hsymbol]⟩
  case VA =>
    exact passes_event (s.atStack (target ++ m :: st)) .START_ARRAY_ELEMENT hshows
      (fun rounds => by simp only [loop, hsymbol]) (.startArrayElement _ _) (by decide)

/-- A token. -/
theorem passes_token (hs : Shows s ⟨tok.symbol :: st, tok, rest⟩) (h : Lexes rest tok' rest')
    (heos : tok ≠ .eos) (hnull : s.reader.nullValue = false) :
    s.Passes ⟨st, tok', rest'⟩ (tokenTold tok tok') := by
  obtain ⟨scanner, hsymbol, hfound, hisInt⟩ := symbol_token_of_lexes hs.stack hs.terminal hs.found h
  have hcount : s.reader.stack.length = st.count OV_ := by
    have hkeys := hs.keys
    rwa [List.count_cons_of_ne (by cases tok <;> simp [Token.symbol])] at hkeys
  have hshows : Shows { s with parser := ⟨st, tok'.symbol, tok.value⟩, scanner := scanner }
      ⟨st, tok', rest'⟩ := ⟨rfl, rfl, hfound, hcount, hs.own, hs.eod⟩
  have hvalue : Session.value { s with parser := ⟨st, tok'.symbol, tok.value⟩, scanner := scanner }
      = tok.value := if_neg (by simp [hnull])
  have hpunctuation (htok : ∀ rounds, loop (rounds + 1) s = loop rounds
      { s with parser := ⟨st, tok'.symbol, tok.value⟩, scanner := scanner }) :
      s.Passes ⟨st, tok', rest'⟩ [] := ⟨_, hshows, hnull, htok⟩
  cases tok
  case curlyOpen => exact hpunctuation fun rounds => by simp only [loop, hsymbol, Token.symbol]
  case curlyClose => exact hpunctuation fun rounds => by simp only [loop, hsymbol, Token.symbol]
  case squareOpen => exact hpunctuation fun rounds => by simp only [loop, hsymbol, Token.symbol]
  case squareClose => exact hpunctuation fun rounds => by simp only [loop, hsymbol, Token.symbol]
  case colon => exact hpunctuation fun rounds => by simp only [loop, hsymbol, Token.symbol]
  case comma => exact hpunctuation fun rounds => by simp only [loop, hsymbol, Token.symbol]
  case keyword k =>
    have hreader : Shows
        (Session.withNullValue
          { s with parser := ⟨st, tok'.symbol, some k.text⟩, scanner := scanner } true)
        ⟨st, tok', rest'⟩ := ⟨rfl, rfl, hfound, hcount, hs.own, hs.eod⟩
    cases k with
    | true_ =>
        refine passes_event _ .TRUE hreader (fun rounds => ?_) (.true_ _ _) (by decide)
        simp only [loop, hsymbol, Token.symbol]
        rfl
    | false_ =>
        refine passes_event _ .FALSE hreader (fun rounds => ?_) (.false_ _ _) (by decide)
        simp only [loop, hsymbol, Token.symbol]
        rfl
    | null_ =>
        refine passes_event _ .NULL hreader (fun rounds => ?_) (.null_ _ _) (by decide)
        simp only [loop, hsymbol, Token.symbol]
        rfl
  case string text =>
    refine passes_event _ .STRING hshows
      (fun rounds => by simp only [loop, hsymbol, Token.symbol]) ?_ (by decide)
    rw [observe, hvalue]
    exact .string _ _
  case number n =>
    have hinteger : isInteger { s with
        parser := ⟨st, tok'.symbol, some n.text⟩, scanner := scanner } =
        (tok'.lastNumber n).isInt := by
      rw [isInteger, hs.own]
      exact hisInt n rfl
    refine passes_event _ (if (tok'.lastNumber n).isInt then .INTEGER else .NUMBER) hshows
      (fun rounds => ?_) ?_ (by split <;> decide)
    · simp only [loop, hsymbol, Token.symbol]
      exact congrArg (fun b => some (event _ (if b = true then .INTEGER else .NUMBER))) hinteger
    · rw [observe, hvalue]
      split
      · exact .integer _ _
      · exact .number _ _
  case eos => exact absurd rfl heos

/-- The symbol of an entry: the reader calls itself, which gives the key. -/
theorem passes_value {key : JString} (hs : Shows s ⟨OV :: st, .string key, rest⟩)
    (h : Lexes rest tok' rest') :
    s.Passes ⟨COLON :: V :: OV_ :: st, tok', rest'⟩ [.startValue key] := by
  have hsymbol : s.symbol = (.ok OV, s.atStack (STRING :: COLON :: V :: OV_ :: st)) :=
    symbol_expand hs.stack rfl (by rw [hs.terminal]; rfl)
  have hkeys : s.reader.stack.length = st.count OV_ := hs.keys
  -- the key is on the stack like a value
  obtain ⟨scanner, hstring, hfound, -⟩ := @symbol_token_of_lexes
    ((s.atStack (STRING :: COLON :: V :: OV_ :: st)).withNullValue false)
    (COLON :: V :: OV_ :: st) (.string key) tok' rest rest' rfl hs.terminal hs.found h
  refine passes_event (Session.withNullValue (Session.withStack (Session.withKey
      { s with parser := ⟨COLON :: V :: OV_ :: st, tok'.symbol, some key⟩, scanner := scanner,
               reader := { s.reader with currentEvent := some .STRING } } (some key))
      (some key :: s.reader.stack)) true) .START_VALUE ?_ (fun rounds => ?_) (.startValue _ _)
      (by decide)
  · refine ⟨rfl, rfl, hfound, ?_, hs.own, hs.eod⟩
    simp [Session.withNullValue, Session.withStack, hkeys]
  · have heod : (s.atStack (STRING :: COLON :: V :: OV_ :: st)).reader.eod = false := hs.eod
    simp only [loop, hsymbol, enter, heod, hstring, Token.symbol]
    rfl

/-- **A round of the loop follows a turn of the stack machine.** -/
theorem passes_of_turn (hs : Shows s c) (hshaped : Shaped c.stack)
    (hnull : s.reader.nullValue = false) (h : Turn c ts c') : s.Passes c' ts := by
  cases h with
  | marker hm hX_ => exact passes_marker hs hnull hm hX_
  | expand hx hm ht => exact passes_expand hs hshaped hnull hx hm ht
  | consume htok hlexes =>
      subst htok
      refine passes_token hs hlexes ?_ hnull
      rintro rfl
      exact hshaped.head_ne_eos
  | value hlexes => exact passes_value hs hlexes

/-- There is no token ahead: the scanner throws an exception when a token is taken. -/
theorem symbol_error (hstack : s.parser.stack = tok.symbol :: st)
    (hterminal : s.parser.terminal = tok.symbol) (hfound : Found s.scanner tok rest)
    (h : ∀ tok' rest', ¬Lexes rest tok' rest') : ∃ e s₁, s.symbol = (.error e, s₁) := by
  rcases hnext : s.scanner.nextSymbol with ⟨result, scanner⟩
  cases result with
  | ok symbol =>
      obtain ⟨tok', rest', hlexes, -⟩ := lexes_of_nextSymbol hfound.ready hnext
      exact absurd hlexes (h tok' rest')
  | error e =>
      have hsymbol := tok.symbol_terminal
      rw [← hterminal] at hstack hsymbol
      simp [symbol, JSONSymbol.next, hstack, hsymbol.1, hsymbol.2, hnext]

/-- **Where there is no turn the call does not return**, unless the end of the document has been
reached. -/
theorem stuck (hs : Shows s c) (hturn : ∀ ts c', ¬Turn c ts c') (hend : c.stack.head? ≠ some X_)
    (rounds : ℕ) (event : EventType) (s' : Session) : loop rounds s ≠ some (.ok event, s') := by
  obtain ⟨stack, tok, rest⟩ := c
  have hstack := hs.stack
  have hterminal := hs.terminal
  cases stack with
  | nil =>
      have hsymbol : s.symbol = (.error .emptyStack, s) := by
        simp only [symbol, JSONSymbol.next, hstack]
      exact loop_error hsymbol rounds event s'
  | cons x st =>
      cases hmarker : x.isMarker with
      | true => exact absurd (.marker hmarker fun hX => hend (congrArg some hX)) (hturn _ _)
      | false =>
          cases hm : x.markerSymbol with
          | none =>
              by_cases hx : tok.symbol = x
              · subst hx
                obtain ⟨e, s₁, hsymbol⟩ := symbol_error hstack hterminal hs.found
                  fun tok' rest' hlexes => hturn _ _ (.consume rfl hlexes)
                exact loop_error hsymbol rounds event s'
              · have hsymbol : ∃ e s₁, s.symbol = (.error e, s₁) := by
                  simp [symbol, JSONSymbol.next, hstack, hterminal, hmarker, hm, Ne.symm hx]
                obtain ⟨e, s₁, hsymbol⟩ := hsymbol
                exact loop_error hsymbol rounds event s'
          | some m =>
              cases ht : x.transitions tok.symbol with
              | none =>
                  have hsymbol : ∃ e s₁, s.symbol = (.error e, s₁) := by
                    simp [symbol, JSONSymbol.next, hstack, hterminal, hmarker, hm, ht]
                  obtain ⟨e, s₁, hsymbol⟩ := hsymbol
                  exact loop_error hsymbol rounds event s'
              | some target =>
                  by_cases hx : x = OV
                  · subst hx
                    cases tok <;> simp [Token.symbol, transitions] at ht
                    case string key =>
                      subst ht
                      -- the key is there, and what follows it is no token
                      have hsymbol : s.symbol =
                          (.ok OV, s.atStack (STRING :: COLON :: V :: OV_ :: st)) :=
                        symbol_expand hstack rfl (by rw [hterminal]; rfl)
                      obtain ⟨e, s₁, hinner⟩ := @symbol_error
                        ((s.atStack (STRING :: COLON :: V :: OV_ :: st)).withNullValue false)
                        (COLON :: V :: OV_ :: st) (.string key) rest rfl hterminal hs.found
                        fun tok' rest' hlexes => hturn _ _ (.value hlexes)
                      have heod : (s.atStack (STRING :: COLON :: V :: OV_ :: st)).reader.eod =
                          false := hs.eod
                      cases rounds with
                      | zero => simp [loop]
                      | succ rounds =>
                          cases rounds with
                          | zero => simp [loop, hsymbol, enter, heod]
                          | succ rounds => simp [loop, hsymbol, enter, heod, hinner]
                  · exact absurd (.expand hx hm ht) (hturn _ _)

/-! ## Whole runs -/

theorem loop_end {st : List JSONSymbol} (h : s.parser.stack = X_ :: st) (rounds : ℕ) :
    loop (rounds + 1) s = some (Session.event (Session.withStack
      { s.atStack st with reader := { s.reader with eod := true } } []) .END_DOCUMENT) := by
  simp only [loop, symbol_marker h rfl]
  rfl

/-- More rounds give the same result. -/
theorem loop_mono {rounds : ℕ} {r : Except JSONExn EventType × Session}
    (h : loop rounds s = some r) : loop (rounds + 1) s = some r := by
  induction rounds generalizing s r with
  | zero => simp [loop] at h
  | succ rounds ih =>
      rw [loop] at h ⊢
      rcases hsymbol : s.symbol with ⟨result, s₁⟩
      rw [hsymbol] at h
      cases result with
      | error e => exact h
      | ok current =>
          cases current <;> try exact h
          case OV =>
            dsimp only at h ⊢
            cases heod : s₁.reader.eod with
            | true =>
                simp only [enter, heod, if_true] at h ⊢
                exact h
            | false =>
                simp only [enter, heod, Bool.false_eq_true, if_false] at h ⊢
                cases hinner : loop rounds (s₁.withNullValue false) with
                | none => simp [hinner] at h
                | some r' =>
                    rw [hinner] at h
                    rw [ih hinner]
                    exact h
          all_goals exact ih h

theorem loop_le {rounds rounds' : ℕ} {r : Except JSONExn EventType × Session}
    (h : loop rounds s = some r) (hle : rounds ≤ rounds') : loop rounds' s = some r := by
  induction hle with
  | refl => exact h
  | step _ ih => exact loop_mono ih

theorem next_le {rounds rounds' : ℕ} {r : Except JSONExn EventType × Session}
    (h : s.next rounds = some r) (hle : rounds ≤ rounds') : s.next rounds' = some r := by
  unfold Session.next enter at h ⊢
  split_ifs at h ⊢ with heod
  · exact h
  · exact loop_le h hle

/-- What a call returns does not depend on how many rounds it may take. -/
theorem next_unique {rounds rounds' : ℕ} {r r' : Except JSONExn EventType × Session}
    (h : s.next rounds = some r) (h' : s.next rounds' = some r') : r = r' := by
  have h₁ := next_le h (Nat.le_max_left rounds rounds')
  rw [next_le h' (Nat.le_max_right rounds rounds')] at h₁
  exact (Option.some.inj h₁).symm

theorem Delivers.unique {s s₁ s₂ : Session} {obs₁ obs₂ : List Observation}
    (h₁ : Delivers s obs₁ s₁) (h₂ : Delivers s obs₂ s₂) : obs₁ = obs₂ ∧ s₁ = s₂ := by
  induction h₁ generalizing obs₂ with
  | last hnext =>
      cases h₂ with
      | last hnext' =>
          cases next_unique hnext hnext'
          exact ⟨rfl, rfl⟩
      | more hnext' hevent _ =>
          cases next_unique hnext hnext'
          exact absurd rfl hevent
  | more hnext hevent _ ih =>
      cases h₂ with
      | last hnext' =>
          cases next_unique hnext hnext'
          exact absurd rfl hevent
      | more hnext' _ h₂ =>
          cases next_unique hnext hnext'
          obtain ⟨rfl, rfl⟩ := ih h₂
          exact ⟨rfl, rfl⟩

/-- The loop from a configuration: the next thing is told, or the end has been reached. -/
theorem loop_of_run {k : ℕ} (h : Run k c ts ⟨[X_], tok', rest'⟩) (hs : Shows s c)
    (hshaped : Shaped c.stack) (hnull : s.reader.nullValue = false) :
    (ts = [] ∧ ∃ rounds s', loop rounds s = some (.ok .END_DOCUMENT, s') ∧
      s'.parser.terminal = tok'.symbol) ∨
    ∃ t ts' k' c₁ rounds event s₁, ts = t :: ts' ∧ k' < k ∧
      loop rounds s = some (.ok event, s₁) ∧ event ≠ .END_DOCUMENT ∧ Shows s₁ c₁ ∧
      Shaped c₁.stack ∧ Tells (s₁.observe event) t ∧ Run k' c₁ ts' ⟨[X_], tok', rest'⟩ := by
  induction k generalizing s c ts with
  | zero =>
      cases h
      exact .inl ⟨rfl, 1, _, loop_end hs.stack 0, hs.terminal⟩
  | succ k ih =>
      cases h with
      | @step _ _ c₁ _ ts₁ ts₂ hturn hrun =>
          have hshaped₁ := hturn.shaped hshaped
          have hpasses := passes_of_turn hs hshaped hnull hturn
          match ts₁, hpasses with
          | [], ⟨s₁, hs₁, hnull₁, hloop⟩ =>
              rcases ih hrun hs₁ hshaped₁ hnull₁ with ⟨hts, rounds, s', hr, hterminal⟩ |
                ⟨t, ts', k', c₂, rounds, event, s₂, hts, hk, hr, hrest⟩
              · exact .inl ⟨hts, rounds + 1, s', (hloop rounds).trans hr, hterminal⟩
              · exact .inr ⟨t, ts', k', c₂, rounds + 1, event, s₂, hts, by omega,
                  (hloop rounds).trans hr, hrest⟩
          | [t], ⟨event, s₁, hs₁, htell, hevent, hloop⟩ =>
              exact .inr ⟨t, ts₂, k, c₁, 2, event, s₁, rfl, by omega, hloop 0, hevent, hs₁,
                hshaped₁, htell, hrun⟩

/-- **A run of the stack machine is delivered.** -/
theorem delivers_of_run {k : ℕ} (h : Run k c ts ⟨[X_], tok', rest'⟩) (hs : Shows s c)
    (hshaped : Shaped c.stack) : ∃ obs s', Delivers s obs s' ∧
      List.Forall₂ Tells obs (ts ++ [.endDocument]) ∧ s'.parser.terminal = tok'.symbol := by
  induction k using Nat.strong_induction_on generalizing s c ts with
  | _ k ih =>
      have hs' : Shows (s.withNullValue false) c :=
        ⟨hs.stack, hs.terminal, hs.found, hs.keys, hs.own, hs.eod⟩
      have hnext (rounds : ℕ) : s.next rounds = loop rounds (s.withNullValue false) :=
        if_neg (by rw [hs.eod]; decide)
      rcases loop_of_run h hs' hshaped rfl with ⟨rfl, rounds, s', hr, hterminal⟩ |
        ⟨t, ts', k', c₁, rounds, event, s₁, rfl, hk, hr, hevent, hs₁, hshaped₁, htell, hrun⟩
      · exact ⟨_, s', .last ((hnext rounds).trans hr), .cons (.endDocument _ _) .nil, hterminal⟩
      · obtain ⟨obs, s', hdelivers, htells, hterminal⟩ := ih k' hk hrun hs₁ hshaped₁
        exact ⟨_, s', .more ((hnext rounds).trans hr) hevent hdelivers, .cons htell htells,
          hterminal⟩

/-- A call that returns has followed the stack machine. -/
theorem runs_of_loop {rounds : ℕ} {event : EventType} {s' : Session}
    (h : loop rounds s = some (.ok event, s')) (hs : Shows s c) (hshaped : Shaped c.stack)
    (hnull : s.reader.nullValue = false) :
    (event = .END_DOCUMENT ∧ ∃ tok rest, Runs c [] ⟨[X_], tok, rest⟩ ∧
      s'.parser.terminal = tok.symbol) ∨
    event ≠ .END_DOCUMENT ∧ ∃ t c', Runs c [t] c' ∧ Shows s' c' ∧ Shaped c'.stack ∧
      Tells (s'.observe event) t := by
  induction rounds generalizing s c with
  | zero => simp [loop] at h
  | succ rounds ih =>
      by_cases hturn : ∃ ts c₁, Turn c ts c₁
      · obtain ⟨ts, c₁, hturn⟩ := hturn
        have hshaped₁ := hturn.shaped hshaped
        have hpasses := passes_of_turn hs hshaped hnull hturn
        match ts, hpasses with
        | [], ⟨s₁, hs₁, hnull₁, hloop⟩ =>
            rcases ih ((hloop rounds).symm.trans h) hs₁ hshaped₁ hnull₁ with
              ⟨hevent, tok, rest, hruns, hterminal⟩ | ⟨hevent, t, c', hruns, hrest⟩
            · exact .inl ⟨hevent, tok, rest, Runs.silent hturn hruns, hterminal⟩
            · exact .inr ⟨hevent, t, c', Runs.silent hturn hruns, hrest⟩
        | [t], ⟨event', s₁, hs₁, htell, hevent, hloop⟩ =>
            have heq := (loop_mono h).symm.trans (hloop rounds)
            cases heq
            exact .inr ⟨hevent, t, c₁, Runs.step hturn (.refl c₁), hs₁, hshaped₁, htell⟩
      · have hno : ∀ ts c₁, ¬Turn c ts c₁ := fun ts c₁ hturn' => hturn ⟨ts, c₁, hturn'⟩
        by_cases hend : c.stack.head? = some X_
        · obtain ⟨stack, tok, rest⟩ := c
          obtain ⟨st, rfl⟩ : ∃ st, stack = X_ :: st := by
            cases stack with
            | nil => cases hend
            | cons x st => exact ⟨st, by cases hend; rfl⟩
          obtain rfl : st = [] := by
            rcases hshaped with hst | ⟨top, hst, htop⟩
            · cases hst
            · cases top with
              | nil =>
                  cases hst
                  rfl
              | cons _ top =>
                  cases hst
                  exact absurd rfl (htop X_ (.head _)).2.1
          have heq := h.symm.trans (loop_end hs.stack rounds)
          cases heq
          exact .inl ⟨rfl, tok, rest, .refl _, hs.terminal⟩
        · exact absurd h (stuck hs hno hend (rounds + 1) event s')

/-- **What is delivered comes from a run of the stack machine.** -/
theorem runs_of_delivers {s' : Session} {obs : List Observation} (h : Delivers s obs s')
    (hs : Shows s c) (hshaped : Shaped c.stack) : ∃ ts tok rest, Runs c ts ⟨[X_], tok, rest⟩ ∧
      List.Forall₂ Tells obs (ts ++ [.endDocument]) ∧ s'.parser.terminal = tok.symbol := by
  have hnext {s : Session} {c : Config} (hs : Shows s c) (rounds : ℕ) :
      s.next rounds = loop rounds (s.withNullValue false) := if_neg (by rw [hs.eod]; decide)
  have hs' {s : Session} {c : Config} (hs : Shows s c) : Shows (s.withNullValue false) c :=
    ⟨hs.stack, hs.terminal, hs.found, hs.keys, hs.own, hs.eod⟩
  induction h generalizing c with
  | last hcall =>
      rw [hnext hs] at hcall
      rcases runs_of_loop hcall (hs' hs) hshaped rfl with
        ⟨-, tok, rest, hruns, hterminal⟩ | ⟨hevent, -⟩
      · exact ⟨[], tok, rest, hruns, .cons (.endDocument _ _) .nil, hterminal⟩
      · exact absurd rfl hevent
  | more hcall hevent _ ih =>
      rw [hnext hs] at hcall
      rcases runs_of_loop hcall (hs' hs) hshaped rfl with
        ⟨rfl, -⟩ | ⟨-, t, c', hruns, hs₁, hshaped₁, htell⟩
      · exact absurd rfl hevent
      · obtain ⟨ts, tok, rest, hruns', htells, hterminal⟩ := ih hs₁ hshaped₁
        exact ⟨t :: ts, tok, rest, hruns.trans hruns', .cons htell htells, hterminal⟩

end Rounds

/-! ## Texts -/

section Texts

variable {p : Parser} {t rest rest' : JString} {s s' : Session} {v : JSONTree} {tok : Token}
  {obs : List Observation}

/-- The constructor reads the first token. -/
theorem open_of_lexes (p : Parser) (h : Lexes t tok rest) :
    ∃ s, Session.open_ p t = (.ok (), s) ∧ Shows s ⟨[X], tok, rest⟩ := by
  obtain ⟨scanner, hnext, hfound⟩ := nextSymbol_of_lexes (ready_new t) h
  refine ⟨⟨⟨[X], tok.symbol, p.value⟩, scanner, StreamReader.new, none⟩, ?_, ?_⟩
  · simp only [Session.open_, JSONSymbol.init, hnext]
  · exact ⟨rfl, rfl, hfound, rfl, rfl, rfl⟩

theorem lexes_of_open (h : Session.open_ p t = (.ok (), s)) :
    ∃ tok rest, Lexes t tok rest ∧ Shows s ⟨[X], tok, rest⟩ := by
  rcases hnext : (JSONScanner.new t).nextSymbol with ⟨result, scanner⟩
  cases result with
  | error e => simp [Session.open_, JSONSymbol.init, hnext] at h
  | ok symbol =>
      obtain ⟨tok, rest, hlexes, -, -⟩ := lexes_of_nextSymbol (ready_new t) hnext
      obtain ⟨s', hopen, hshows⟩ := open_of_lexes p hlexes
      rw [h] at hopen
      cases hopen
      exact ⟨tok, rest, hlexes, hshows⟩

/-- An object or an array with a token behind it is read to its end. -/
theorem delivers_of_begins (p : Parser) (hbegins : v.Begins t rest) (hnext : Lexes rest tok rest') :
    ∃ s obs s', Session.open_ p t = (.ok (), s) ∧ Delivers s obs s' ∧
      List.Forall₂ Tells obs v.toldDocument ∧ s'.parser.terminal = tok.symbol := by
  obtain ⟨hcollection, hall⟩ := hbegins
  obtain ⟨tok₀, rest₀, hfirst, hahead⟩ := ahead_of_lexesAll hall hnext
  obtain ⟨s, hopen, hshows⟩ := open_of_lexes p hfirst
  obtain ⟨k, hrun⟩ := runs_document_iff.mpr ⟨v, hcollection, hahead, rfl⟩
  obtain ⟨obs, s', hdelivers, htells, hterminal⟩ := delivers_of_run hrun hshows (.inl rfl)
  exact ⟨s, obs, s', hopen, hdelivers, htells, hterminal⟩

/-- What is read to its end is an object or an array with a token behind it. -/
theorem begins_of_delivers (hopen : Session.open_ p t = (.ok (), s)) (h : Delivers s obs s') :
    ∃ v rest tok rest', JSONTree.Begins v t rest ∧ Lexes rest tok rest' ∧
      List.Forall₂ Tells obs v.toldDocument ∧ s'.parser.terminal = tok.symbol := by
  obtain ⟨tok₀, rest₀, hfirst, hshows⟩ := lexes_of_open hopen
  obtain ⟨ts, tok, rest', hruns, htells, hterminal⟩ := runs_of_delivers h hshows (.inl rfl)
  obtain ⟨v, hcollection, hahead, rfl⟩ := runs_document_iff.mp hruns
  obtain ⟨rest, hall, hnext⟩ := lexesAll_of_ahead hfirst hahead
  exact ⟨v, rest, tok, rest', ⟨hcollection, hall⟩, hnext, htells, hterminal⟩

/-- **What a reader accepts**: an object or an array at the beginning and one more token, which
may be the end of the text. -/
theorem completes_iff :
    (∃ obs, Completes p t obs) ↔
      ∃ v rest tok rest', JSONTree.Begins v t rest ∧ Lexes rest tok rest' := by
  constructor
  · rintro ⟨obs, s, s', hopen, h⟩
    obtain ⟨v, rest, tok, rest', hbegins, hnext, -⟩ := begins_of_delivers hopen h
    exact ⟨v, rest, tok, rest', hbegins, hnext⟩
  · rintro ⟨v, rest, tok, rest', hbegins, hnext⟩
    obtain ⟨s, obs, s', hopen, h, -⟩ := delivers_of_begins p hbegins hnext
    exact ⟨obs, s, s', hopen, h⟩

theorem symbol_eos (h : tok.symbol = EOS) : tok = .eos := by
  cases tok <;> simp [Token.symbol] at h ⊢

theorem blank_of_lexes_eos (h : Lexes rest .eos rest') : Blank rest := by
  cases h with
  | eos hblank => exact hblank
  | token _ hspelled _ => cases hspelled

/-- The text is accepted just when it is one object or array, and then the events tell what there
is in it. -/
def ReadsJSON (t : JString) : Prop :=
  ∀ p : Parser, ((∃ obs, Completes p t obs) ↔ ∃ v, JSONTree.IsText v t) ∧
    ∀ obs v, Completes p t obs → JSONTree.IsText v t → List.Forall₂ Tells obs v.toldDocument

/-- A token that is not the end comes after the first object or array. -/
def GoesOn (t : JString) : Prop :=
  ∃ v rest tok rest', JSONTree.Begins v t rest ∧ Lexes rest tok rest' ∧ tok ≠ .eos

/-- The token behind the closing bracket is read ahead, but nothing compares it with the end. -/
theorem GoesOn.not_readsJSON (h : GoesOn t) : ¬ReadsJSON t := by
  rintro hreads
  obtain ⟨v, rest, tok, rest', hbegins, hnext, htok⟩ := h
  obtain ⟨s, obs, s₁, hopen, hdelivers, -, hterminal⟩ :=
    delivers_of_begins Parser.initial hbegins hnext
  obtain ⟨v', rest₂, hbegins', hblank⟩ :=
    (hreads Parser.initial).1.mp ⟨obs, s, s₁, hopen, hdelivers⟩
  -- both describe the state after the last call
  obtain ⟨s', obs', s₂, hopen', hdelivers', -, hterminal'⟩ :=
    delivers_of_begins Parser.initial hbegins' (.eos hblank)
  rw [hopen] at hopen'
  cases hopen'
  obtain ⟨-, rfl⟩ := hdelivers.unique hdelivers'
  exact htok (symbol_eos (hterminal.symm.trans hterminal'))

/-- **A reader accepts exactly JSON, and delivers it, unless a further token comes after the
closing bracket.** -/
theorem readsJSON_iff (t : JString) : ReadsJSON t ↔ ¬GoesOn t := by
  constructor
  · intro h hgoesOn
    exact hgoesOn.not_readsJSON h
  · intro h p
    constructor
    · constructor
      · rintro ⟨obs, s, s', hopen, hdelivers⟩
        obtain ⟨v, rest, tok, rest', hbegins, hnext, -⟩ := begins_of_delivers hopen hdelivers
        have htok : tok = .eos := by
          by_contra htok
          exact h ⟨v, rest, tok, rest', hbegins, hnext, htok⟩
        subst htok
        exact ⟨v, rest, hbegins, blank_of_lexes_eos hnext⟩
      · rintro ⟨v, rest, hbegins, hblank⟩
        exact completes_iff.mpr ⟨v, rest, .eos, [], hbegins, .eos hblank⟩
    · rintro obs v ⟨s, s₁, hopen, hdelivers⟩ ⟨rest, hbegins, hblank⟩
      obtain ⟨s', obs', s₂, hopen', hdelivers', htells, -⟩ :=
        delivers_of_begins p hbegins (.eos hblank)
      rw [hopen] at hopen'
      cases hopen'
      obtain ⟨rfl, -⟩ := hdelivers.unique hdelivers'
      exact htells

theorem lexes_spelled {tok : Token} {u : JString} (h : tok.Spelled u) (hends : tok.Ends rest) :
    Lexes (u ++ rest) tok rest := by
  rw [← List.nil_append (u ++ rest)]
  exact .token nofun h hends

/-- `{}{` is accepted, but it is not JSON. -/
theorem second_brace_accepted : ¬ReadsJSON [unit '{', unit '}', unit '{'] := by
  refine GoesOn.not_readsJSON ⟨.object [], [unit '{'], .curlyOpen, [], ⟨trivial, ?_⟩, ?_, nofun⟩
  · rw [JSONTree.tokens]
    exact .cons (lexes_spelled .curlyOpen trivial)
      (.cons (lexes_spelled .curlyClose trivial) (.nil _))
  · exact lexes_spelled .curlyOpen trivial

end Texts

end JavaFx.Json
