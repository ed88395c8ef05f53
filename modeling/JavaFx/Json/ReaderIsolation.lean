import JavaFx.Lib.Purging
import JavaFx.Json.JSONStreamReader

/-!
# Several readers

The stack of symbols, the symbol ahead, the scanner and the value of the last symbol are static:
a reader that is made takes them away from the others. A world has all readers. One of them gets
what it gets alone if it is called only until the next one is made, and asked for a value only as
long as it is its own (`isolated_of_allowed`).
-/

namespace JavaFx.Json

open JSONSymbol

/-! ## The static value

A call does not depend on the static value: it leaves it, or puts another in its place before it
looks at it. -/

def Session.withValue (s : Session) (value : Option JString) : Session :=
  { s with parser := { s.parser with value := value } }

/-- The same with another static value in the session that is left. -/
def resultWithValue {α : Type} (value : Option JString) (r : Except JSONExn α × Session) :
    Except JSONExn α × Session := (r.1, r.2.withValue value)

namespace Session

variable {α : Type} {δ : Type} {s : Session}

/-- The events that have a text. -/
def HasText (event : EventType) : Prop := event = .STRING ∨ event = .INTEGER ∨ event = .NUMBER

/-- The call puts another value in the place of the static one. -/
def Sets (call : Session → Option (Except JSONExn α × Session)) (s : Session) : Prop :=
  ∀ value, call (s.withValue value) = call s

/-- The call leaves the static value. -/
def Leaves (call : Session → Option (Except JSONExn α × Session)) (s : Session) : Prop :=
  ∀ value, call (s.withValue value) = (call s).map (resultWithValue value)

/-- A round takes a token, which sets the value, or leaves the value and is no token. -/
theorem symbol_value (s : Session) :
    (∀ value, (s.withValue value).symbol = s.symbol) ∨
    (∀ value, (s.withValue value).symbol = resultWithValue value s.symbol) ∧
      ∀ current, s.symbol.1 = .ok current → current.isMarker = true ∨ current.markerSymbol ≠ none := by
  obtain ⟨⟨stack, terminal, value⟩, scanner, reader, own⟩ := s
  unfold symbol JSONSymbol.next withValue
  cases stack with
  | nil => exact .inr ⟨fun _ => rfl, nofun⟩
  | cons current stack =>
      cases hmarker : current.isMarker with
      | true =>
          refine .inr ⟨fun value => ?_, fun current' h => ?_⟩
          · simp [resultWithValue, withValue, hmarker]
          · simp only [hmarker, if_true, Except.ok.injEq] at h
            exact .inl (h ▸ hmarker)
      | false =>
          cases hm : current.markerSymbol with
          | none =>
              by_cases hterminal : current = terminal
              · subst hterminal
                refine .inl fun value => ?_
                rcases hnext : scanner.nextSymbol with ⟨result, scanner'⟩
                cases result <;> simp [hmarker, hm]
              · refine .inr ⟨fun value => ?_, ?_⟩
                · simp [resultWithValue, withValue, hmarker, hm, hterminal]
                · simp [hmarker, hm, hterminal]
          | some m =>
              cases ht : current.transitions terminal with
              | none =>
                  refine .inr ⟨fun value => ?_, ?_⟩
                  · simp [resultWithValue, withValue, hmarker, hm, ht]
                  · simp [hmarker, hm, ht]
              | some target =>
                  refine .inr ⟨fun value => ?_, fun current' h => ?_⟩
                  · simp [resultWithValue, withValue, hmarker, hm, ht]
                  · simp only [hmarker, hm, ht] at h
                    simp at h
                    exact .inr (by rw [← h, hm]; simp)

/-- The loop sets the value or leaves it, and what has a text has been set. -/
theorem loop_value (rounds : ℕ) (s : Session) :
    Sets (loop rounds) s ∨ Leaves (loop rounds) s ∧
      ∀ event s', loop rounds s = some (.ok event, s') → ¬HasText event := by
  induction rounds generalizing s with
  | zero => exact .inr ⟨fun _ => rfl, by simp [loop]⟩
  | succ rounds ih =>
      rcases symbol_value s with hsets | ⟨hleaves, hno⟩
      · exact .inl fun value => by simp only [loop, hsets value]
      · rcases hsymbol : s.symbol with ⟨result, s₁⟩
        simp only [hsymbol] at hno
        have hsymbol' (value : Option JString) :
            (s.withValue value).symbol = (result, s₁.withValue value) := by
          rw [hleaves value, hsymbol]
          rfl
        cases result with
        | error e =>
            refine .inr ⟨fun value => ?_, by simp [loop, hsymbol]⟩
            simp only [loop, hsymbol, hsymbol']
            rfl
        | ok current =>
            have hreturns (e : EventType) (s₂ : Session)
                (hloop : loop (rounds + 1) s = some (s₂.event e))
                (hloop' : ∀ value, loop (rounds + 1) (s.withValue value) =
                  some ((s₂.withValue value).event e)) (htext : ¬HasText e) :
                Sets (loop (rounds + 1)) s ∨ Leaves (loop (rounds + 1)) s ∧
                  ∀ event s', loop (rounds + 1) s = some (.ok event, s') → ¬HasText event := by
              refine .inr ⟨fun value => by rw [hloop, hloop']; rfl, fun event s' h => ?_⟩
              rw [hloop] at h
              cases h
              exact htext
            have hgoesOn (hloop : loop (rounds + 1) s = loop rounds s₁)
                (hloop' : ∀ value, loop (rounds + 1) (s.withValue value) =
                  loop rounds (s₁.withValue value)) :
                Sets (loop (rounds + 1)) s ∨ Leaves (loop (rounds + 1)) s ∧
                  ∀ event s', loop (rounds + 1) s = some (.ok event, s') → ¬HasText event := by
              rcases ih s₁ with hsets | ⟨hleaves, htext⟩
              · exact .inl fun value => by rw [hloop, hloop', hsets value]
              · refine .inr ⟨fun value => by rw [hloop, hloop', hleaves value], ?_⟩
                rw [hloop]
                exact htext
            cases current
            case X =>
                exact hreturns .START_DOCUMENT (s₁.withStack []) (by simp only [loop, hsymbol])
                  (fun value => by simp only [loop, hsymbol']; rfl) (by simp [HasText])
            case O =>
                exact hreturns .START_OBJECT (s₁.withKey none) (by simp only [loop, hsymbol])
                  (fun value => by simp only [loop, hsymbol']; rfl) (by simp [HasText])
            case A =>
                exact hreturns .START_ARRAY s₁ (by simp only [loop, hsymbol])
                  (fun value => by simp only [loop, hsymbol']) (by simp [HasText])
            case VA =>
                exact hreturns .START_ARRAY_ELEMENT s₁ (by simp only [loop, hsymbol])
                  (fun value => by simp only [loop, hsymbol']) (by simp [HasText])
            case X_ =>
                exact hreturns .END_DOCUMENT
                  (Session.withStack { s₁ with reader := { s₁.reader with eod := true } } [])
                  (by simp only [loop, hsymbol]) (fun value => by simp only [loop, hsymbol']; rfl)
                  (by simp [HasText])
            case O_ =>
                exact hreturns .END_OBJECT (s₁.withKey none) (by simp only [loop, hsymbol])
                  (fun value => by simp only [loop, hsymbol']; rfl) (by simp [HasText])
            case A_ =>
                exact hreturns .END_ARRAY s₁ (by simp only [loop, hsymbol])
                  (fun value => by simp only [loop, hsymbol']) (by simp [HasText])
            case VA_ =>
                exact hreturns .END_ARRAY_ELEMENT (s₁.withNullValue true)
                  (by simp only [loop, hsymbol]) (fun value => by simp only [loop, hsymbol']; rfl)
                  (by simp [HasText])
            case OV_ =>
                cases hstack : s₁.reader.stack with
                | nil =>
                    refine .inr ⟨fun value => ?_, by simp [loop, hsymbol, endValue, hstack]⟩
                    have hstack' : (s₁.withValue value).reader.stack = [] := hstack
                    simp only [loop, hsymbol, hsymbol', endValue, hstack, hstack']
                    rfl
                | cons key keys =>
                    refine hreturns .END_VALUE
                      (((s₁.withStack keys).withKey key).withNullValue true)
                      (by simp only [loop, hsymbol, endValue, hstack]) (fun value => ?_)
                      (by simp [HasText])
                    have hstack' : (s₁.withValue value).reader.stack = key :: keys := hstack
                    simp only [loop, hsymbol', endValue, hstack']
                    rfl
            case OV =>
                -- what the reader gets from itself is the key, which is then a text
                have hswap (value : Option JString) : (s₁.withValue value).withNullValue false =
                    (s₁.withNullValue false).withValue value := rfl
                cases heod : s₁.reader.eod with
                | true =>
                    have heod' (value : Option JString) :
                        (s₁.withValue value).reader.eod = true := heod
                    refine hreturns .START_VALUE (Session.withNullValue (Session.withStack
                      (s₁.event .END_DOCUMENT).2 (s₁.reader.key :: s₁.reader.stack)) true)
                      ?_ (fun value => ?_) (by simp [HasText])
                    · simp only [loop, hsymbol, enter, heod, if_true]
                      rfl
                    · simp only [loop, hsymbol', enter, heod', if_true]
                      rfl
                | false =>
                    have heod' (value : Option JString) :
                        (s₁.withValue value).reader.eod = false := heod
                    rcases ih (s₁.withNullValue false) with hsets | ⟨hleaves, htext⟩
                    · refine .inl fun value => ?_
                      simp only [loop, hsymbol, hsymbol', enter, heod, heod', Bool.false_eq_true,
                        if_false, hswap, hsets value]
                    · cases hinner : loop rounds (s₁.withNullValue false) with
                      | none =>
                          refine .inr ⟨fun value => ?_, ?_⟩
                          · simp [loop, hsymbol, hsymbol', enter, heod, heod', hswap,
                              hleaves value, hinner]
                          · simp [loop, hsymbol, enter, heod, hinner]
                      | some r =>
                          obtain ⟨result, s₂⟩ := r
                          cases result with
                          | error e =>
                              refine .inr ⟨fun value => ?_, ?_⟩
                              · simp [loop, hsymbol, hsymbol', enter, heod, heod', hswap,
                                  hleaves value, hinner, resultWithValue]
                              · simp [loop, hsymbol, enter, heod, hinner]
                          | ok type =>
                              have htype : type ≠ .STRING := fun h =>
                                htext type s₂ hinner (.inl h)
                              refine hreturns .START_VALUE (Session.withNullValue
                                (s₂.withStack (s₂.reader.key :: s₂.reader.stack)) true)
                                ?_ (fun value => ?_) (by simp [HasText])
                              · simp [loop, hsymbol, enter, heod, hinner, htype]
                              · simp [loop, hsymbol', enter, heod', hswap, hleaves value, hinner,
                                  resultWithValue, htype]
                                rfl
            case KEYWORD => exact absurd (hno _ rfl) (by decide)
            case STRING => exact absurd (hno _ rfl) (by decide)
            case NUMBER => exact absurd (hno _ rfl) (by decide)
            case EOS => exact absurd (hno _ rfl) (by decide)
            all_goals
              exact hgoesOn (by simp only [loop, hsymbol])
                (fun value => by simp only [loop, hsymbol'])

theorem next_value (rounds : ℕ) (s : Session) :
    Sets (Session.next rounds) s ∨ Leaves (Session.next rounds) s ∧
      ∀ event s', s.next rounds = some (.ok event, s') → ¬HasText event := by
  have heod' (value : Option JString) : (s.withValue value).reader.eod = s.reader.eod := rfl
  cases heod : s.reader.eod with
  | true =>
      refine .inr ⟨fun value => ?_, fun event s' h => ?_⟩
      · simp only [Session.next, enter, heod', heod, if_true]
        rfl
      · simp only [Session.next, enter, heod, if_true, Option.some.injEq] at h
        cases h
        simp [HasText]
  | false =>
      have hnext : s.next rounds = loop rounds (s.withNullValue false) := by
        simp [Session.next, enter, heod]
      have hnext' (value : Option JString) : (s.withValue value).next rounds =
          loop rounds ((s.withNullValue false).withValue value) := by
        simp only [Session.next, enter, heod', heod, Bool.false_eq_true, if_false]
        rfl
      rcases loop_value rounds (s.withNullValue false) with hsets | ⟨hleaves, htext⟩
      · exact .inl fun value => by rw [hnext, hnext', hsets value]
      · refine .inr ⟨fun value => by rw [hnext, hnext', hleaves value], ?_⟩
        rw [hnext]
        exact htext

/-- Only a text is looked up when something is inserted. -/
theorem insert_withValue (D : Doubles δ) {type : EventType} (h : ¬HasText type) (s : Session)
    (b : Building δ) (value : Option JString) :
    insert D type (s.withValue value) b =
      ((insert D type s b).1, (insert D type s b).2.withValue value) := by
  cases type <;> first | rfl | exact absurd (by simp [HasText]) h

theorem skip_value (rounds calls : ℕ) (s : Session) :
    Sets (skip rounds calls) s ∨ Leaves (skip rounds calls) s := by
  induction calls generalizing s with
  | zero => exact .inr fun _ => rfl
  | succ calls ih =>
      rcases next_value rounds s with hsets | ⟨hleaves, -⟩
      · exact .inl fun value => by simp only [skip, hsets value]
      · cases hnext : s.next rounds with
        | none => exact .inr fun value => by simp [skip, hleaves value, hnext]
        | some r =>
            obtain ⟨result, s₁⟩ := r
            cases result with
            | error e =>
                exact .inr fun value => by simp [skip, hleaves value, hnext, resultWithValue]
            | ok type =>
                have hskip : skip rounds (calls + 1) s =
                    if type = .END_DOCUMENT || type = .ERROR || type = .START_ARRAY ||
                      type = .START_OBJECT then some (.ok (), s₁) else skip rounds calls s₁ := by
                  simp only [skip, hnext]
                have hskip' (value : Option JString) : skip rounds (calls + 1) (s.withValue value) =
                    if type = .END_DOCUMENT || type = .ERROR || type = .START_ARRAY ||
                      type = .START_OBJECT then some (.ok (), s₁.withValue value)
                    else skip rounds calls (s₁.withValue value) := by
                  simp only [skip, hleaves value, hnext, Option.map_some, resultWithValue]
                split_ifs at hskip hskip' with hstop
                · exact .inr fun value => by rw [hskip, hskip']; rfl
                · rcases ih s₁ with hsets | hleaves₁
                  · exact .inl fun value => by rw [hskip, hskip', hsets value]
                  · exact .inr fun value => by rw [hskip, hskip', hleaves₁ value]

theorem fill_value (D : Doubles δ) (rounds calls : ℕ) (s : Session) (b : Building δ) :
    Sets (fun s => fill D rounds calls s b) s ∨ Leaves (fun s => fill D rounds calls s b) s := by
  induction calls generalizing s b with
  | zero => exact .inr fun _ => rfl
  | succ calls ih =>
      rcases next_value rounds s with hsets | ⟨hleaves, htext⟩
      · exact .inl fun value => by simp only [fill, hsets value]
      · cases hnext : s.next rounds with
        | none => exact .inr fun value => by simp [fill, hleaves value, hnext]
        | some r =>
            obtain ⟨result, s₁⟩ := r
            cases result with
            | error e =>
                exact .inr fun value => by simp [fill, hleaves value, hnext, resultWithValue]
            | ok type =>
                have hfill' (value : Option JString) :
                    (s.withValue value).next rounds = some (.ok type, s₁.withValue value) := by
                  rw [hleaves value, hnext]
                  rfl
                have hinsert := insert_withValue D (htext type s₁ hnext) s₁ b
                cases hstop : type = .END_DOCUMENT || type = .ERROR || b.done with
                | true =>
                    exact .inr fun value => by simp [fill, hfill', hnext, hstop, resultWithValue]
                | false =>
                    rcases hresult : insert D type s₁ b with ⟨result, s₂⟩
                    simp only [hresult] at hinsert
                    cases result with
                    | error e =>
                        exact .inr fun value => by
                          simp [fill, hfill', hnext, hstop, hresult, hinsert, resultWithValue]
                    | ok b' =>
                        rcases ih s₂ b' with hsets | hleaves₁
                        · refine .inl fun value => ?_
                          have := hsets value
                          simp [fill, hfill', hnext, hstop, hresult, hinsert, this]
                        · refine .inr fun value => ?_
                          have := hleaves₁ value
                          simp [fill, hfill', hnext, hstop, hresult, hinsert, this]

theorem collect_value (D : Doubles δ) (rounds calls : ℕ) (s : Session) :
    Sets (collect D rounds calls) s ∨ Leaves (collect D rounds calls) s := by
  have hevent (value : Option JString) :
      (s.withValue value).reader.currentEvent = s.reader.currentEvent := rfl
  have hrooted (root : JSONValue δ) (h : ∀ value, collect D rounds calls (s.withValue value) =
        (fill D rounds calls (s.withValue value) ⟨root, [], false⟩).map
          fun r => (r.1.map some, r.2))
      (h' : collect D rounds calls s =
        (fill D rounds calls s ⟨root, [], false⟩).map fun r => (r.1.map some, r.2)) :
      Sets (collect D rounds calls) s ∨ Leaves (collect D rounds calls) s := by
    rcases fill_value D rounds calls s ⟨root, [], false⟩ with hsets | hleaves
    · refine .inl fun value => ?_
      have hfill : fill D rounds calls (s.withValue value) ⟨root, [], false⟩ =
        fill D rounds calls s ⟨root, [], false⟩ := hsets value
      rw [h, h', hfill]
    · refine .inr fun value => ?_
      have hfill : fill D rounds calls (s.withValue value) ⟨root, [], false⟩ =
        (fill D rounds calls s ⟨root, [], false⟩).map (resultWithValue value) := hleaves value
      rw [h, h', hfill, Option.map_map, Option.map_map]
      rfl
  unfold collect at hrooted ⊢
  simp only [hevent] at hrooted ⊢
  cases hcurrent : s.reader.currentEvent with
  | none => exact .inr fun value => by simp only [hevent, hcurrent]; rfl
  | some event =>
      rw [hcurrent] at hrooted
      cases event
      case START_ARRAY => exact hrooted (.array []) (fun _ => rfl) rfl
      case START_OBJECT => exact hrooted (.object []) (fun _ => rfl) rfl
      all_goals exact .inr fun value => by simp only [hevent, hcurrent]; rfl

/-- **A document is built with the static value that the call has set**, or without one. -/
theorem build_value (D : Doubles δ) (rounds calls : ℕ) (s : Session) :
    Sets (build D rounds calls) s ∨ Leaves (build D rounds calls) s := by
  have hevent (value : Option JString) :
      (s.withValue value).reader.currentEvent = s.reader.currentEvent := rfl
  cases hstart : s.reader.currentEvent = some .START_ARRAY ||
      s.reader.currentEvent = some .START_OBJECT with
  | true =>
      rcases collect_value D rounds calls s with hsets | hleaves
      · exact .inl fun value => by simp only [build, hevent, hstart, if_true, hsets value]
      · exact .inr fun value => by simp only [build, hevent, hstart, if_true, hleaves value]
  | false =>
      rcases skip_value rounds calls s with hsets | hleaves
      · exact .inl fun value => by
          simp only [build, hevent, hstart, Bool.false_eq_true, if_false, hsets value]
      · cases hskip : skip rounds calls s with
        | none =>
            refine .inr fun value => ?_
            simp only [build, hevent, hstart, Bool.false_eq_true, if_false, hleaves value, hskip,
              Option.map_none]
        | some r =>
            obtain ⟨result, s₁⟩ := r
            cases result with
            | error e =>
                refine .inr fun value => ?_
                simp only [build, hevent, hstart, Bool.false_eq_true, if_false, hleaves value,
                  hskip, Option.map_some, resultWithValue]
            | ok _ =>
                rcases collect_value D rounds calls s₁ with hsets | hleaves₁
                · refine .inl fun value => ?_
                  simp only [build, hevent, hstart, Bool.false_eq_true, if_false, hleaves value,
                    hskip, Option.map_some, resultWithValue, hsets value]
                · refine .inr fun value => ?_
                  simp only [build, hevent, hstart, Bool.false_eq_true, if_false, hleaves value,
                    hskip, Option.map_some, resultWithValue, hleaves₁ value]

end Session

/-! ## The world of all readers -/

/-- A reader: it is still to be made, or its constructor has thrown an exception, or it is there. -/
inductive Slot where
  | fresh
  | failed (scanner : JSONScanner)
  | live (reader : StreamReader) (scanner : JSONScanner)

namespace Slot

def scanner : Slot → Option JSONScanner
  | fresh => none
  | failed scanner => some scanner
  | live _ scanner => some scanner

def withScanner (scanner : JSONScanner) : Slot → Slot
  | fresh => fresh
  | failed _ => failed scanner
  | live reader _ => live reader scanner

def withReader (reader : StreamReader) : Slot → Slot
  | live _ scanner => live reader scanner
  | slot => slot

end Slot

/-- The static fields, with the reader whose scanner is the static one, and all readers. Who has
set the static value last is noted, but nothing depends on it. -/
structure World (ι : Type) where
  parser : Parser
  current : Option ι
  slots : ι → Slot
  writer : Option ι

inductive ReaderCall where
  | new (t : JString)
  | next
  | value
  | key
  | build

/-- What a call gives: what is returned or thrown, or nothing since the call has not come to its
end or there is no reader to call. -/
inductive Answer (δ : Type) where
  | made (r : Except JSONExn Unit)
  | event (r : Except JSONExn EventType)
  | text (s : Option JString)
  | document (r : Except JSONExn (Option (JSONValue δ)))
  | unfinished
  | absent

/-- The value is the same after the call, whatever it was before. -/
def setsValue {α : Type} (call : Session → Option (Except JSONExn α × Session)) (s : Session) :
    Bool :=
  match call (s.withValue none), call (s.withValue (some [])) with
  | some (_, s₁), some (_, s₂) => s₁.parser.value = s₂.parser.value
  | _, _ => false

namespace World

variable {ι : Type} [DecidableEq ι] {δ α : Type}

def initial : World ι := ⟨Parser.initial, none, fun _ => .fresh, none⟩

/-- The scanner in the static field. -/
def shared (w : World ι) : Option JSONScanner := w.current.bind fun j => (w.slots j).scanner

def session (w : World ι) (i : ι) (reader : StreamReader) (scanner : JSONScanner) : Session :=
  if w.current = some i then ⟨w.parser, scanner, reader, none⟩
  else ⟨w.parser, w.shared.getD scanner, reader, some scanner⟩

/-- The static scanner is another object now, which belongs to the reader `current`. -/
def setShared (w : World ι) (scanner : JSONScanner) : World ι :=
  match w.current with
  | none => w
  | some j => { w with slots := Function.update w.slots j ((w.slots j).withScanner scanner) }

def store (w : World ι) (i : ι) (s : Session) : World ι :=
  setShared { w with
    parser := s.parser
    slots := Function.update w.slots i ((w.slots i).withReader s.reader) } s.scanner

def call (w : World ι) (i : ι) (s : Session)
    (f : Session → Option (Except JSONExn α × Session)) (answer : Except JSONExn α → Answer δ) :
    Answer δ × World ι :=
  match f s with
  | none => (.unfinished, w)
  | some (r, s') =>
      (answer r, { w.store i s' with writer := if setsValue f s then some i else w.writer })

/-- The constructor. -/
def make (w : World ι) (i : ι) (t : JString) : Answer δ × World ι :=
  let r := Session.open_ w.parser t
  (.made r.1,
    { w with
      parser := r.2.parser
      current := some i
      slots := Function.update w.slots i
        (match r.1 with
          | .ok _ => .live r.2.reader r.2.scanner
          | .error _ => .failed r.2.scanner) })

/-- One call on the reader `i`. -/
def step (D : Doubles δ) (rounds calls : ℕ) (w : World ι) (i : ι) (op : ReaderCall) :
    Answer δ × World ι :=
  match w.slots i, op with
  | .fresh, .new t => w.make i t
  | .live reader scanner, .next =>
      w.call i (w.session i reader scanner) (Session.next rounds) .event
  | .live reader scanner, .build =>
      w.call i (w.session i reader scanner) (Session.build D rounds calls) .document
  | .live reader scanner, .value => (.text (w.session i reader scanner).value, w)
  | .live reader scanner, .key => (.text (w.session i reader scanner).key, w)
  | _, _ => (.absent, w)

/-- The call is made on the reader made last or on one that has come to its end, and a value is
asked for only where no other reader has set it. -/
def Allowed (w : World ι) (i : ι) (op : ReaderCall) : Prop :=
  ∀ reader scanner, w.slots i = .live reader scanner →
    match op with
    | .next | .build => w.current = some i ∨ reader.eod = true
    | .value => reader.nullValue = true ∨ w.writer = none ∨ w.writer = some i
    | .new _ | .key => True

end World

/-! ## What a call does to the others -/

section Calls

variable {α δ : Type} {f : Session → Option (Except JSONExn α × Session)} {s s' : Session}
  {r : Except JSONExn α}

theorem setsValue_of_sets (h : Session.Sets f s) (hr : f s = some (r, s')) :
    setsValue f s = true := by
  simp [setsValue, h none, h (some []), hr]

theorem setsValue_of_leaves (h : Session.Leaves f s) (hr : f s = some (r, s')) :
    setsValue f s = false := by
  simp only [setsValue, h none, h (some []), hr, Option.map_some, resultWithValue]
  rfl

theorem value_of_leaves (h : Session.Leaves f s) (hr : f s = some (r, s')) :
    s'.parser.value = s.parser.value := by
  have hsame := h s.parser.value
  have hs : s.withValue s.parser.value = s := rfl
  rw [hs, hr] at hsame
  exact congrArg (fun r : Except JSONExn α × Session => r.2.parser.value) (Option.some.inj hsame)

/-- After the end of the document a call does not look at anything that is static. -/
def EndCall (f : Session → Option (Except JSONExn α × Session)) : Prop :=
  ∀ reader : StreamReader, reader.eod = true →
    ∃ o : Option (Except JSONExn α × StreamReader), ∀ parser scanner own,
      f ⟨parser, scanner, reader, own⟩ = o.map fun r => (r.1, ⟨parser, scanner, r.2, own⟩)

theorem next_end (rounds : ℕ) : EndCall (Session.next rounds) := by
  intro reader heod
  refine ⟨some (.ok .END_DOCUMENT, { reader with currentEvent := some .END_DOCUMENT }), ?_⟩
  intro parser scanner own
  simp [Session.next, Session.enter, heod, Session.event]

theorem fill_end (D : Doubles δ) (rounds calls : ℕ) (b : Building δ) :
    EndCall fun s => Session.fill D rounds calls s b := by
  intro reader heod
  cases calls with
  | zero => exact ⟨none, fun _ _ _ => rfl⟩
  | succ calls =>
      refine ⟨some (.ok b.root, { reader with currentEvent := some .END_DOCUMENT }), ?_⟩
      intro parser scanner own
      simp [Session.fill, Session.next, Session.enter, heod, Session.event]

theorem collect_end (D : Doubles δ) (rounds calls : ℕ) :
    EndCall (Session.collect D rounds calls) := by
  intro reader heod
  have hrooted (root : JSONValue δ)
      (h : ∀ parser scanner own, Session.collect D rounds calls ⟨parser, scanner, reader, own⟩ =
        (Session.fill D rounds calls ⟨parser, scanner, reader, own⟩ ⟨root, [], false⟩).map
          fun r => (r.1.map some, r.2)) :
      ∃ o : Option (Except JSONExn (Option (JSONValue δ)) × StreamReader), ∀ parser scanner own,
        Session.collect D rounds calls ⟨parser, scanner, reader, own⟩ =
          o.map fun r => (r.1, ⟨parser, scanner, r.2, own⟩) := by
    obtain ⟨o, ho⟩ := fill_end D rounds calls ⟨root, [], false⟩ reader heod
    refine ⟨o.map fun r => (r.1.map some, r.2), fun parser scanner own => ?_⟩
    have hfill : Session.fill D rounds calls ⟨parser, scanner, reader, own⟩ ⟨root, [], false⟩ =
        o.map fun r => (r.1, ⟨parser, scanner, r.2, own⟩) := ho parser scanner own
    rw [h, hfill, Option.map_map, Option.map_map]
    rfl
  cases hevent : reader.currentEvent with
  | none => exact ⟨some (.ok none, reader), fun _ _ _ => by simp [Session.collect, hevent]⟩
  | some event =>
      cases event
      case START_ARRAY => exact hrooted (.array []) fun _ _ _ => by simp [Session.collect, hevent]
      case START_OBJECT => exact hrooted (.object []) fun _ _ _ => by simp [Session.collect, hevent]
      all_goals exact ⟨some (.ok none, reader), fun _ _ _ => by simp [Session.collect, hevent]⟩

theorem build_end (D : Doubles δ) (rounds calls : ℕ) :
    EndCall (Session.build D rounds calls) := by
  intro reader heod
  cases hstart : reader.currentEvent = some .START_ARRAY ||
      reader.currentEvent = some .START_OBJECT with
  | true =>
      obtain ⟨o, ho⟩ := collect_end D rounds calls reader heod
      refine ⟨o, fun parser scanner own => ?_⟩
      simp only [Session.build, hstart, if_true, ho]
  | false =>
      cases calls with
      | zero =>
          refine ⟨none, fun parser scanner own => ?_⟩
          simp only [Session.build, hstart, Bool.false_eq_true, if_false, Session.skip,
            Option.map_none]
      | succ calls =>
          obtain ⟨o, ho⟩ := collect_end D rounds (calls + 1)
            { reader with currentEvent := some .END_DOCUMENT } heod
          refine ⟨o, fun parser scanner own => ?_⟩
          have hskip : Session.skip rounds (calls + 1) ⟨parser, scanner, reader, own⟩ =
              some (.ok (), ⟨parser, scanner, { reader with currentEvent := some .END_DOCUMENT },
                own⟩) := by
            simp [Session.skip, Session.next, Session.enter, heod, Session.event]
          simp only [Session.build, hstart, Bool.false_eq_true, if_false, hskip, ho]

end Calls

/-! ## Isolation -/

namespace World

variable {ι : Type} [DecidableEq ι] {δ α : Type} {w t : World ι} {i j : ι}
  {f : Session → Option (Except JSONExn α × Session)} {answer : Except JSONExn α → Answer δ}
  {reader : StreamReader} {scanner : JSONScanner}

/-- What the reader `i` sees of a world is the same as in `t`, where it is alone. -/
structure Sees (i : ι) (w t : World ι) : Prop where
  slot : w.slots i = t.slots i
  alone : ∀ reader scanner, t.slots i = .live reader scanner → t.current = some i
  stack : w.current = some i → ∀ reader scanner, t.slots i = .live reader scanner →
    w.parser.stack = t.parser.stack ∧ w.parser.terminal = t.parser.terminal
  value : w.writer = none ∨ w.writer = some i → w.parser.value = t.parser.value

theorem store_slots_of_current (h : w.current = some j) (s : Session) (hij : i ≠ j) :
    (w.store j s).slots i = w.slots i := by
  simp [store, setShared, h, Function.update_of_ne hij]

theorem store_slot_self (h : w.current = some i) (hlive : w.slots i = .live reader scanner)
    (s : Session) : (w.store i s).slots i = .live s.reader s.scanner := by
  simp [store, setShared, h, hlive, Slot.withReader, Slot.withScanner]

/-- A reader whose scanner is not the static one keeps its own. -/
theorem store_slot_of_ne (h : w.current ≠ some i) (hlive : w.slots i = .live reader scanner)
    (s : Session) : (w.store i s).slots i = .live s.reader scanner := by
  unfold store setShared
  dsimp only
  split
  · simp [hlive, Slot.withReader]
  · rename_i j hj
    have hij : i ≠ j := by
      rintro rfl
      exact h hj
    simp [Function.update_of_ne hij, hlive, Slot.withReader]

/-- The static scanner is stored where it was. -/
theorem store_slots_of_ne (hij : i ≠ j) (s : Session)
    (hs : s.scanner = w.shared.getD scanner) : (w.store j s).slots i = w.slots i := by
  unfold store setShared
  dsimp only
  split
  · exact Function.update_of_ne hij _ _
  · rename_i k hk
    by_cases hik : i = k
    · subst hik
      dsimp only
      rw [Function.update_self, Function.update_of_ne hij, hs, shared, hk, Option.bind_some]
      cases w.slots i <;> rfl
    · dsimp only
      rw [Function.update_of_ne hik, Function.update_of_ne hij]

@[simp] theorem store_statics (s : Session) : (w.store i s).parser = s.parser := by
  unfold store setShared
  split <;> rfl

@[simp] theorem store_current (s : Session) : (w.store i s).current = w.current := by
  unfold store setShared
  split <;> rfl

/-- A call on the reader itself. -/
theorem Sees.call_own (h : Sees i w t) (hlive : w.slots i = .live reader scanner)
    (hf : ∀ s, Session.Sets f s ∨ Session.Leaves f s) (hend : EndCall f)
    (hallowed : w.current = some i ∨ reader.eod = true) :
    (w.call i (w.session i reader scanner) f answer).1 =
        (t.call i (t.session i reader scanner) f answer).1 ∧
      Sees i (w.call i (w.session i reader scanner) f answer).2
        (t.call i (t.session i reader scanner) f answer).2 := by
  have hlive' : t.slots i = .live reader scanner := h.slot.symm.trans hlive
  have halone := h.alone reader scanner hlive'
  have hsession : t.session i reader scanner = ⟨t.parser, scanner, reader, none⟩ := if_pos halone
  by_cases hcurrent : w.current = some i
  · obtain ⟨hstack, hterminal⟩ := h.stack hcurrent reader scanner hlive'
    have hsession' : w.session i reader scanner = ⟨w.parser, scanner, reader, none⟩ :=
      if_pos hcurrent
    have hswap : t.session i reader scanner =
        (w.session i reader scanner).withValue t.parser.value := by
      rw [hsession, hsession', Session.withValue]
      dsimp only
      rw [hstack, hterminal]
    cases hr : f (w.session i reader scanner) with
    | none =>
        have hr' : f (t.session i reader scanner) = none := by
          rw [hswap]
          rcases hf (w.session i reader scanner) with hsets | hleaves
          · rw [hsets, hr]
          · rw [hleaves, hr]
            rfl
        simp only [call, hr, hr']
        exact ⟨trivial, h⟩
    | some r =>
        obtain ⟨r, s₁⟩ := r
        rcases hf (w.session i reader scanner) with hsets | hleaves
        · have hr' : f (t.session i reader scanner) = some (r, s₁) := by rw [hswap, hsets, hr]
          have hsets' : Session.Sets f (t.session i reader scanner) := by
            intro value
            rw [hswap]
            exact (hsets value).trans (hsets t.parser.value).symm
          simp only [call, hr, hr', setsValue_of_sets hsets hr, setsValue_of_sets hsets' hr']
          refine ⟨trivial, ⟨?_, fun _ _ _ => by simpa using halone, fun _ _ _ _ => by simp,
            fun _ => by simp⟩⟩
          exact (store_slot_self hcurrent hlive s₁).trans (store_slot_self halone hlive' s₁).symm
        · have hr' : f (t.session i reader scanner) =
              some (r, s₁.withValue t.parser.value) := by
            rw [hswap, hleaves, hr]
            rfl
          have hleaves' : Session.Leaves f (t.session i reader scanner) := by
            intro value
            rw [hswap, hleaves t.parser.value, Option.map_map]
            exact hleaves value
          have hvalue : s₁.parser.value = w.parser.value := by
            rw [value_of_leaves hleaves hr, hsession']
          simp only [call, hr, hr', setsValue_of_leaves hleaves hr, setsValue_of_leaves hleaves' hr']
          refine ⟨trivial, ⟨?_, fun _ _ _ => by simpa using halone, fun _ _ _ _ => by
            simp [Session.withValue], fun hwriter => ?_⟩⟩
          · exact (store_slot_self hcurrent hlive s₁).trans
              (store_slot_self halone hlive' (s₁.withValue t.parser.value)).symm
          · rw [store_statics, hvalue, store_statics]
            exact h.value hwriter
  · -- the document has come to its end: only the event is noted
    obtain ⟨o, ho⟩ := hend reader (hallowed.resolve_left hcurrent)
    have hsession' : w.session i reader scanner =
        ⟨w.parser, w.shared.getD scanner, reader, some scanner⟩ := if_neg hcurrent
    have hleaves (p : Parser) (sc : JSONScanner) (own : Option JSONScanner) :
        Session.Leaves f ⟨p, sc, reader, own⟩ := by
      intro value
      rw [Session.withValue, ho, ho, Option.map_map]
      rfl
    cases o with
    | none =>
        simp only [call, hsession, hsession', ho, Option.map_none]
        exact ⟨trivial, h⟩
    | some r =>
        obtain ⟨r, reader'⟩ := r
        have hr := ho w.parser (w.shared.getD scanner) (some scanner)
        have hr' := ho t.parser scanner none
        rw [Option.map_some] at hr hr'
        simp only [call, hsession, hsession', hr, hr', setsValue_of_leaves (hleaves _ _ _) hr,
          setsValue_of_leaves (hleaves _ _ _) hr']
        refine ⟨trivial, ⟨?_, fun _ _ _ => by simpa using halone, fun hcurrent' => ?_, fun hwriter => ?_⟩⟩
        · exact (store_slot_of_ne hcurrent hlive _).trans (store_slot_self halone hlive'
            ⟨t.parser, scanner, reader', none⟩).symm
        · exact absurd (by simpa using hcurrent') hcurrent
        · rw [store_statics, store_statics]
          exact h.value hwriter

/-- A call on another reader. -/
theorem Sees.call_other (h : Sees i w t) (hij : i ≠ j)
    (hf : ∀ s, Session.Sets f s ∨ Session.Leaves f s) (hend : EndCall f)
    (hallowed : w.current = some j ∨ reader.eod = true) :
    Sees i (w.call j (w.session j reader scanner) f answer).2 t := by
  cases hr : f (w.session j reader scanner) with
  | none =>
      simp only [call, hr]
      exact h
  | some r =>
      obtain ⟨r, s₁⟩ := r
      have hparser : (w.session j reader scanner).parser = w.parser := by
        unfold session
        split <;> rfl
      have hvalue : (if setsValue f (w.session j reader scanner) then some j else w.writer) = none ∨
          (if setsValue f (w.session j reader scanner) then some j else w.writer) = some i →
          s₁.parser.value = t.parser.value := by
        rcases hf (w.session j reader scanner) with hsets | hleaves
        · rw [setsValue_of_sets hsets hr, if_pos rfl]
          rintro (hw | hw)
          · cases hw
          · exact absurd (Option.some.inj hw).symm hij
        · rw [setsValue_of_leaves hleaves hr, if_neg (by decide), value_of_leaves hleaves hr,
            hparser]
          exact h.value
      by_cases hcurrent : w.current = some j
      · simp only [call, hr]
        refine ⟨(store_slots_of_current hcurrent s₁ hij).trans h.slot, h.alone, fun hi => ?_,
          fun hwriter => ?_⟩
        · rw [store_current, hcurrent] at hi
          exact absurd (Option.some.inj hi).symm hij
        · rw [store_statics]
          exact hvalue hwriter
      · obtain ⟨o, ho⟩ := hend reader (hallowed.resolve_left hcurrent)
        have hsession : w.session j reader scanner =
            ⟨w.parser, w.shared.getD scanner, reader, some scanner⟩ := if_neg hcurrent
        obtain ⟨reader', rfl⟩ : ∃ reader', s₁ =
            ⟨w.parser, w.shared.getD scanner, reader', some scanner⟩ := by
          rw [hsession, ho] at hr
          cases o with
          | none => cases hr
          | some r =>
              cases hr
              exact ⟨_, rfl⟩
        simp only [call, hr]
        refine ⟨(store_slots_of_ne hij _ rfl).trans h.slot, h.alone, fun hi => ?_,
          fun hwriter => ?_⟩
        · rw [store_current] at hi
          rw [store_statics]
          exact h.stack hi
        · rw [store_statics]
          exact hvalue hwriter

/-- The constructor reads the first token, whatever the static fields were. -/
theorem open_statics (p q : Parser) (text : JString) :
    (Session.open_ p text).1 = (Session.open_ q text).1 ∧
      (Session.open_ p text).2.reader = (Session.open_ q text).2.reader ∧
      (Session.open_ p text).2.scanner = (Session.open_ q text).2.scanner ∧
      (Session.open_ p text).2.parser.value = p.value ∧
      ((Session.open_ p text).1 = .ok () →
        (Session.open_ p text).2.parser.stack = (Session.open_ q text).2.parser.stack ∧
        (Session.open_ p text).2.parser.terminal = (Session.open_ q text).2.parser.terminal) := by
  unfold Session.open_ JSONSymbol.init
  rcases (JSONScanner.new text).nextSymbol with ⟨result, scanner⟩
  cases result with
  | error e => exact ⟨rfl, rfl, rfl, rfl, nofun⟩
  | ok symbol => exact ⟨rfl, rfl, rfl, rfl, fun _ => ⟨rfl, rfl⟩⟩

theorem Sees.make_own (h : Sees i w t) (text : JString) :
    (w.make i text : Answer δ × World ι).1 = (t.make i text).1 ∧
      Sees i (w.make i text : Answer δ × World ι).2 (t.make i text : Answer δ × World ι).2 := by
  obtain ⟨hresult, hreader, hscanner, hvalue, hparser⟩ := open_statics w.parser t.parser text
  have hvalue' := (open_statics t.parser w.parser text).2.2.2.1
  refine ⟨congrArg Answer.made hresult, ⟨?_, fun _ _ _ => rfl, fun _ reader scanner hlive => ?_,
    fun hwriter => ?_⟩⟩
  · simp only [make, Function.update_self, hresult, hreader, hscanner]
  · refine hparser ?_
    rw [hresult]
    revert hlive
    simp only [make, Function.update_self]
    cases (Session.open_ t.parser text).1 with
    | error e => nofun
    | ok _ => exact fun _ => rfl
  · exact hvalue.trans ((h.value hwriter).trans hvalue'.symm)

theorem Sees.make_other (h : Sees i w t) (hij : i ≠ j) (text : JString) :
    Sees i (w.make j text : Answer δ × World ι).2 t := by
  obtain ⟨-, -, -, hvalue, -⟩ := open_statics w.parser w.parser text
  refine ⟨(Function.update_of_ne hij _ _).trans h.slot, h.alone, fun hi => ?_, fun hwriter => ?_⟩
  · exact absurd (Option.some.inj hi).symm hij
  · exact hvalue.trans (h.value hwriter)

section Steps

variable {D : Doubles δ} {rounds calls : ℕ} {op : ReaderCall}

/-- **What a reader sees is kept by its own calls**, which give the same. -/
theorem Sees.step_own (h : Sees i w t) (hallowed : Allowed w i op) :
    (step D rounds calls w i op).1 = (step D rounds calls t i op).1 ∧
      Sees i (step D rounds calls w i op).2 (step D rounds calls t i op).2 := by
  have hslot := h.slot
  cases hw : w.slots i with
  | fresh =>
      rw [hw] at hslot
      cases op <;> simp only [step, hw, ← hslot] <;> try exact ⟨trivial, h⟩
      exact h.make_own _
  | failed scanner =>
      rw [hw] at hslot
      cases op <;> simp only [step, hw, ← hslot] <;> exact ⟨trivial, h⟩
  | live reader scanner =>
      have hallowed := hallowed reader scanner hw
      rw [hw] at hslot
      cases op <;> simp only [step, hw, ← hslot]
      case new => exact ⟨trivial, h⟩
      case next =>
        exact h.call_own hw (fun s => (Session.next_value rounds s).imp_right And.left)
          (next_end rounds) hallowed
      case build =>
        exact h.call_own hw (Session.build_value D rounds calls) (build_end D rounds calls) hallowed
      case key =>
        refine ⟨?_, h⟩
        simp only [Session.key, session]
        split <;> split <;> rfl
      case value =>
        refine ⟨?_, h⟩
        have hvalue (w : World ι) : (w.session i reader scanner).value =
            if reader.nullValue then none else w.parser.value := by
          unfold session
          split <;> rfl
        rw [hvalue, hvalue]
        rcases hallowed with hnull | hwriter
        · rw [if_pos hnull, if_pos hnull]
        · rw [h.value hwriter]

/-- **What a reader sees is kept by the calls of the others.** -/
theorem Sees.step_other (h : Sees i w t) (hij : i ≠ j) (hallowed : Allowed w j op) :
    Sees i (step D rounds calls w j op).2 t := by
  cases hw : w.slots j with
  | fresh =>
      cases op <;> simp only [step, hw] <;> try exact h
      exact h.make_other hij _
  | failed scanner => cases op <;> simp only [step, hw] <;> exact h
  | live reader scanner =>
      have hallowed := hallowed reader scanner hw
      cases op <;> simp only [step, hw] <;> try exact h
      case next =>
        exact h.call_other hij (fun s => (Session.next_value rounds s).imp_right And.left)
          (next_end rounds) hallowed
      case build =>
        exact h.call_other hij (Session.build_value D rounds calls) (build_end D rounds calls)
          hallowed

/-- Each reader gets what it gets when it is used alone. -/
def Isolated (D : Doubles δ) (rounds calls : ℕ) (ops : List (ι × ReaderCall)) : Prop :=
  ∀ i, (Purging.results (step D rounds calls) initial ops).filter (fun r => r.1 = i) =
    Purging.results (step D rounds calls) initial (ops.filter fun op => op.1 = i)

/-- **Readers do not disturb each other in a run whose calls are allowed**: a reader is not called
any more when another one has been made, unless it has come to its end, and it is not asked for a
value that another one has set. -/
theorem isolated_of_allowed (D : Doubles δ) (rounds calls : ℕ) (ops : List (ι × ReaderCall))
    (hops : Purging.AllAllowed (step D rounds calls) Allowed initial ops) :
    Isolated D rounds calls ops := by
  intro i
  have hinitial : Sees i (initial : World ι) initial :=
    ⟨rfl, fun _ _ h => (by cases h), fun h => (by cases h), fun _ => rfl⟩
  exact Purging.results_filter (fun s t op h hallowed => h.step_own hallowed)
    (fun s t j op h hj hallowed => h.step_other (Ne.symm hj) hallowed) hinitial hops

end Steps

end World

/-! Two readers of `[]`, called in turn: the second one begins with the array. -/

def twoReaders : List (Bool × ReaderCall) :=
  [(true, .new [unit '[', unit ']']), (false, .new [unit '[', unit ']']), (true, .next),
    (false, .next)]

def Answer.eventOf : Answer Unit → Option EventType
  | .event (.ok e) => some e
  | _ => none

/-- Readers disturb each other. -/
theorem readers_disturb :
    ¬World.Isolated (⟨fun _ => (), fun _ => []⟩ : Doubles Unit) 10 10 twoReaders := by
  intro h
  have hevents := congrArg (List.map fun r => r.2.eventOf) (h false)
  revert hevents
  decide

/-- Two readers one after the other do not disturb each other. -/
theorem readers_one_after_the_other :
    World.Isolated (⟨fun _ => (), fun _ => []⟩ : Doubles Unit) 10 10
      [(true, .new [unit '[', unit ']']), (true, .next), (false, .new [unit '[', unit ']']),
        (false, .next)] := by
  refine World.isolated_of_allowed _ _ _ _ ?_
  refine .cons (fun _ _ _ => trivial) (.cons (fun _ _ _ => .inl rfl) ?_)
  exact .cons (fun _ _ _ => trivial) (.cons (fun _ _ _ => .inl rfl) (.nil _))

end JavaFx.Json
