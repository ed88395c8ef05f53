import JavaFx.Css.BinaryRoundTrip

/-!
# Reading back a whole style sheet

Selectors and font faces are read to their ends, so that the rules behind them are found where
they have been written. A style sheet reads back its declarations if and only if there are no
more rules and declarations than a short can count, and every converter is known to one of the
two `getInstance` methods (`roundTrips_iff`).
-/

namespace JavaFx.Css

open ByteStream TableCodec

variable {P : Platform} {limit : ℕ}

/-! ## Selectors -/

/-- The sizes of the two sets fit in a short. -/
def SimpleNames.Fits (s : SimpleNames) : Prop :=
  s.styleClasses.length < 32768 ∧ s.pseudoClasses.length < 32768

def SelectorNames.Fits : SelectorNames → Prop
  | .simple s => s.Fits
  | .compound selectors relationships => selectors.length < 32768 ∧
      relationships.length < 32768 ∧ ∀ s ∈ selectors, s.Fits

theorem codec_names {names : List JString} (h : names.length < 32768) :
    Codec 32768 limit
      (.emit (writeShort names.length) ++ .all (fun c => putString (some c)) names)
      (fun _ T => readNames T) (names.map some) := by
  refine (codec_writeShort h).append ?_
  exact codec_all names fun c _ => codec_putString (some c)

/-- What a simple selector is read as. -/
def SimpleNames.reread (s : SimpleNames) : SimpleNames :=
  .new (some s.name) (s.styleClasses.map some) (s.pseudoClasses.map some) (some s.id)

/-- A simple selector behind its type. -/
theorem SimpleNames.codec {s : SimpleNames} (h : s.Fits) :
    Codec 32768 limit s.writeBinary (fun n T => SelectorNames.readBinary n T)
      (.simple s.reread) := by
  have hnames : Codec 32768 limit (putString (some s.name) ++
      ((.emit (writeShort s.styleClasses.length) ++
        .all (fun c => putString (some c)) s.styleClasses) ++ (putString (some s.id) ++
          (.emit (writeShort s.pseudoClasses.length) ++
            .all (fun c => putString (some c)) s.pseudoClasses))))
      (fun _ T => SimpleNames.readBinary T) s.reread := by
    refine (codec_putString (some s.name)).append ((codec_names h.1).append
      ((codec_putString (some s.id)).append ?_))
    exact (codec_names h.2).bind_pure fun _ _ => decodes_pure _
  rw [Writer.append_assoc] at hnames
  exact Codec.descend (List.cons_ne_nil _ _) (decodes_byte_of_lt (by decide))
    (hnames.map SelectorNames.simple) fun n T => rfl

/-- What a selector is read as. -/
def SelectorNames.reread : SelectorNames → SelectorNames
  | .simple s => .simple s.reread
  | .compound selectors relationships =>
      .compound (selectors.map SimpleNames.reread) relationships

theorem codec_combinator (r : Combinator) :
    Codec 32768 limit (putByte (Combinator.ordinal r)) (fun _ _ => readCombinator) r := by
  cases r with
  | child | descendant => exact (codec_putByte (by decide)).bind_pure fun _ _ => decodes_pure _

theorem SelectorNames.codec {s : SelectorNames} (h : s.Fits) :
    Codec 32768 limit s.writeBinary (fun n T => SelectorNames.readBinary n T) s.reread := by
  cases s with
  | simple s => exact SimpleNames.codec h
  | compound selectors relationships =>
      obtain ⟨hselectors, hrelationships, hfits⟩ := h
      have hinner : Codec 32768 limit (.all SimpleNames.writeBinary selectors)
          (fun n T => replicateReader (do
            let s ← SelectorNames.readBinary n T
            s.toSimple) selectors.length) (selectors.map SimpleNames.reread) :=
        codec_all selectors fun s hs =>
          (SimpleNames.codec (hfits s hs)).bind_pure fun _ _ => decodes_pure _
      have hcombinators : Codec 32768 limit
          (.all (fun r => putByte (Combinator.ordinal r)) relationships)
          (fun _ _ => replicateReader readCombinator relationships.length)
          (relationships.map id) :=
        codec_all relationships fun r _ => codec_combinator r
      rw [List.map_id] at hcombinators
      refine Codec.descend (List.cons_ne_nil _ _) (decodes_byte_of_lt (by decide))
        ((codec_writeShort hselectors).append (hinner.append
          ((codec_writeShort hrelationships).append ?_))) fun n T => rfl
      exact hcombinators.bind_pure fun _ _ => decodes_pure _

theorem codec_selectors {selectors : List SelectorNames} (h : selectors.length < 32768)
    (hfits : ∀ s ∈ selectors, s.Fits) :
    Codec 32768 limit (Rule.writeSelectors selectors) (fun n T => Rule.readSelectors n T)
      (selectors.map SelectorNames.reread) := by
  refine (codec_writeShort h).append ?_
  refine (codec_all selectors fun s hs => SelectorNames.codec (hfits s hs)).congr fun n T => ?_
  rw [checkCapacity_natCast, pure_bind]

/-! ## Rules -/

/-- The rule has declarations, all of them ordinary. -/
def Rule.Declares (url : Option JString) (r : Rule P) (ds : List (Declaration P)) : Prop :=
  r.declarations = some ds ∧ ∀ d ∈ ds, d.Ordinary url

def Rule.Fits (r : Rule P) : Prop :=
  (r.selectors.getD []).length < 32768 ∧ ∀ s ∈ r.selectors.getD [], s.Fits

/-- A blob is kept, and gives `a` when it is looked at. -/
theorem codec_blob {w : Out} {selectors : List SelectorNames} {α : Type}
    {f : List (Option JString) → Rule P → α} {a : α}
    (h : ∀ ⦃tab bs tab'⦄, w tab = .ok (bs, tab') → Grows tab tab' ∧
      ∀ T, bs.length < 2 ^ 31 → tab' <+: T → T.length < 32768 →
        f T (Rule.unread P selectors bs) = a) :
    Codec 32768 limit (Rule.writeBlob w) (fun _ T => f T <$> Rule.readSerialized 5 selectors)
      a := by
  intro tab bs tab' hw
  unfold Rule.writeBlob at hw
  cases hwrite : w tab with
  | error e => rw [hwrite] at hw; cases hw
  | ok x =>
      obtain ⟨blob, tab₁⟩ := x
      rw [hwrite] at hw
      dsimp only at hw
      split at hw
      · next hlen =>
          cases hw
          obtain ⟨hgrows, hf⟩ := h hwrite
          refine ⟨hgrows, fun n T _ _ hT hbound => ?_⟩
          rw [← hf T hlen hT hbound]
          refine Decodes.map ((decodes_int_of_lt hlen).bind ?_) _
          rw [if_neg (by omega), Int.toNat_natCast]
          exact (decodes_take StreamExn.eof rfl).bind_nil (decodes_pure _)
      · cases hw

/-- What a rule returns as its declarations after it has been read. -/
theorem Rule.codec {url url' : Option JString} {strings : List (Option JString)} {r : Rule P}
    {ds : List (Declaration P)} (h : r.Declares url ds) (hfits : r.Fits) :
    Codec 32768 limit (r.writeBinary url' strings)
      (fun n T => Rule.getUnobservedDeclarationList url T <$> Rule.readBinary (P := P) 5 n T)
      (viewed ds) := by
  have hlist : r.getUnobservedDeclarationList url' strings = .ok (some ds) := by
    simp only [getUnobservedDeclarationList, h.1]
  have hblob : Codec 32768 limit (writeBlob (writeDeclarations ds)) (fun _ T =>
      Rule.getUnobservedDeclarationList url T <$>
        Rule.readSerialized (P := P) 5 ((r.selectors.getD []).map SelectorNames.reread))
      (viewed ds) := by
    refine codec_blob fun tab bs tab' hw => ?_
    obtain ⟨hgrows, hview⟩ := readDeclarations_eq h.2 hw
    exact ⟨hgrows, fun T hlen hT hb => hview T hlen hT hb _⟩
  have hboth := (codec_selectors hfits.1 hfits.2).append
    (f := fun _ T selectors => Rule.getUnobservedDeclarationList url T <$>
      Rule.readSerialized (P := P) 5 selectors) hblob
  rw [writeBinary, hlist]
  exact hboth.congr fun n T => (map_bind _ _ _).symm

/-! ## Font faces -/

def FontFace.Fits (f : FontFace) : Prop :=
  f.descriptors.length < 32768 ∧ f.sources.length < 32768

/-- The constants of an enumeration come back by their names. -/
theorem decodes_enumValueOf {E : Type} {name : E → String} {values : List E}
    (hname : Function.Injective name) {e : E} (he : e ∈ values) :
    Decodes (enumValueOf name values (lit (name e))) [] e := by
  have hfind : values.find? (fun x => lit (name x) = lit (name e)) = some e := by
    induction values with
    | nil => exact nomatch he
    | cons x values ih =>
        rw [List.find?_cons]
        by_cases hx : x = e
        · rw [hx, decide_eq_true rfl]
        · rw [decide_eq_false fun hn => hx (hname (lit_injective hn))]
          exact ih ((List.mem_cons.mp he).resolve_left fun hn => hx hn.symm)
  rw [enumValueOf, hfind]
  exact decodes_pure e

theorem FontFaceSrc.codec (s : FontFaceSrc) :
    Codec 32768 limit s.writeBinary (fun _ T => FontFaceSrc.readBinary T) s := by
  obtain ⟨type, src, format⟩ := s
  cases type with
  | none =>
      intro tab bs tab' hw
      obtain ⟨_, _, _, hfail, -, -⟩ := Writer.append_eq_ok hw
      cases hfail
  | some type =>
      have hname : Function.Injective FontFaceSrcType.name := by
        intro a b hab
        cases a <;> cases b <;> first | rfl | exact absurd hab (by decide)
      have hmem : type ∈ FontFaceSrcType.values := by
        cases type <;> decide
      refine (codec_putStringInt (some (lit type.name))).append
        (Codec.of_nil ((decodes_enumValueOf hname hmem).map some)
          ((codec_putStringInt src).append ?_))
      exact (codec_putStringInt format).bind_pure fun _ _ => decodes_pure _

theorem FontFace.codec {f : FontFace} (h : f.Fits) :
    Codec 32768 limit f.writeBinary (fun _ T => FontFace.readBinary T) f := by
  have hdescriptors : Codec 32768 limit
      (.all (fun e => putStringInt e.1 ++ putStringInt e.2) f.descriptors)
      (fun _ T => replicateReader (readDescriptor T) f.descriptors.length)
      (f.descriptors.map id) :=
    codec_all f.descriptors fun e _ => (codec_putStringInt e.1).append
      ((codec_putStringInt e.2).bind_pure fun _ _ => decodes_pure _)
  have hsources : Codec 32768 limit (.all FontFaceSrc.writeBinary f.sources)
      (fun _ T => replicateReader (FontFaceSrc.readBinary T) f.sources.length)
      (f.sources.map id) :=
    codec_all f.sources fun s _ => s.codec
  rw [List.map_id] at hdescriptors hsources
  refine (codec_writeShort h.1).append (Codec.of_nil (decodes_capacity _) (hdescriptors.append
    ((codec_writeShort h.2).append (Codec.of_nil (decodes_capacity _) ?_))))
  exact hsources.bind_pure fun _ _ => decodes_pure _

/-! ## The strings -/

namespace StringStore

theorem writeStrings_cons {s : JString} {rest : List (Option JString)} {bs : List Byte}
    (h : writeStrings (some s :: rest) = .ok bs) :
    ∃ b₁ b₂, writeUTF s = .ok b₁ ∧ writeStrings rest = .ok b₂ ∧ bs = b₁ ++ b₂ := by
  rw [writeStrings] at h
  split at h
  · next b₁ b₂ h₁ h₂ =>
      cases h
      exact ⟨b₁, b₂, h₁, h₂, rfl⟩
  · cases h
  · cases h

/-- The strings from position `n` on; null is where the index says. -/
theorem decodes_strings {index : ℤ} (l : List (Option JString)) :
    ∀ {n : ℕ} {bs : List Byte}, writeStrings l = .ok bs →
      (∀ j, l[j]? = some none ↔ ((n + j : ℕ) : ℤ) = index ∧ j < l.length) →
      Decodes (readStrings index n l.length) bs l := by
  induction l with
  | nil =>
      intro n bs h _
      cases h
      exact decodes_pure []
  | cons s l ih =>
      intro n bs h hnull
      have htail : ∀ j, l[j]? = some none ↔ ((n + 1 + j : ℕ) : ℤ) = index ∧ j < l.length := by
        intro j
        have := hnull (j + 1)
        rw [List.getElem?_cons_succ, List.length_cons] at this
        rw [this, show n + (j + 1) = n + 1 + j by omega]
        omega
      have hhead := hnull 0
      rw [List.getElem?_cons_zero, Nat.add_zero] at hhead
      cases s with
      | none =>
          have hn : (n : ℤ) = index := (hhead.mp rfl).1
          rw [List.length_cons, readStrings, if_pos hn]
          exact (ih h htail).bind_nil (decodes_pure _)
      | some s =>
          have hn : ¬ (n : ℤ) = index := fun hn => by
            have := hhead.mpr ⟨hn, Nat.succ_pos _⟩
            cases this
          obtain ⟨b₁, b₂, h₁, h₂, rfl⟩ := writeStrings_cons h
          rw [List.length_cons, readStrings, if_neg hn]
          exact (decodes_UTF h₁).bind ((ih h₂ htail).bind_nil (decodes_pure _))

/-- The table of strings comes back. -/
theorem decodes_binary {strings : List (Option JString)} (hnodup : strings.Nodup)
    (hlen : strings.length < 32768) {bs : List Byte} (h : writeBinary strings = .ok bs) :
    Decodes readBinary bs strings := by
  obtain ⟨body, hbody, rfl⟩ := except_map_eq_ok.mp h
  rw [List.append_assoc]
  refine (decodes_short_of_lt hlen).bind ?_
  have hread : ∀ index : ℤ, Decodes readShort (writeShort (nullIndex strings)) index →
      (∀ j, strings[j]? = some none ↔ ((0 + j : ℕ) : ℤ) = index ∧ j < strings.length) →
      Decodes (do
        let nullIndex ← readShort
        if (strings.length : ℤ) < 0 then throw (.runtime .negativeArraySize)
        else readStrings nullIndex 0 (strings.length : ℤ).toNat)
        (writeShort (nullIndex strings) ++ body) strings := by
    intro index hshort hnull
    refine hshort.bind ?_
    rw [if_neg (by omega), Int.toNat_natCast]
    exact decodes_strings strings hbody hnull
  cases hfind : strings.findIdx? (· = none) with
  | none =>
      have hindex : nullIndex strings = 65535 := by rw [nullIndex, hfind]; rfl
      refine hread (-1) (by rw [hindex]; exact decodes_short 65535) fun j => ?_
      refine iff_of_false (fun hj => ?_) (fun hj => ?_)
      · have hmem := List.mem_of_getElem? hj
        have := List.findIdx?_eq_none_iff.mp hfind none hmem
        simp at this
      · omega
  | some i =>
      obtain ⟨hi, hnone, -⟩ := List.findIdx?_eq_some_iff_getElem.mp hfind
      have hindex : nullIndex strings = i := by rw [nullIndex, hfind]; rfl
      refine hread i (by rw [hindex]; exact decodes_short_of_lt (by omega)) fun j => ?_
      constructor
      · intro hj
        obtain ⟨hj, hjn⟩ := List.getElem?_eq_some_iff.mp hj
        have : j = i := (hnodup.getElem_inj_iff).mp (hjn.trans (of_decide_eq_true hnone).symm)
        exact ⟨by omega, hj⟩
      · rintro ⟨hji, hj⟩
        have : j = i := by omega
        subst this
        rw [List.getElem?_eq_getElem hj, of_decide_eq_true hnone]

end StringStore

/-! ## Style sheets -/

namespace Stylesheet

def Fits (s : Stylesheet P) : Prop := (∀ r ∈ s.rules, r.Fits) ∧ ∀ f ∈ s.fontFaces, f.Fits

/-- Reading gives the same origin, and rules that return the same declarations. -/
def RoundTrips (url : Option JString) (s : Stylesheet P) (input : List Byte) : Prop :=
  ∃ (s' : Stylesheet P) (rest : List Byte), Stylesheet.load url 5 input = .ok (s', rest) ∧
    s'.origin = s.origin ∧
    s'.rules.map (Rule.getUnobservedDeclarationList s'.url s'.stringStore) =
      s.rules.map fun r => .ok r.declarations

theorem codec_origin (o : StyleOrigin) :
    Codec 32768 limit (putString (some (lit o.name))) (fun _ T => readOrigin T) o := by
  have hname : Function.Injective StyleOrigin.name := by
    intro a b hab
    cases a <;> cases b <;> first | rfl | exact absurd hab (by decide)
  have hmem : o ∈ StyleOrigin.values := by
    cases o <;> decide
  exact (codec_putString _).bind_pure fun _ _ => decodes_enumValueOf hname hmem

/-- What the rules return after they have been read. -/
def views (rules : List (Rule P)) : List (Except StreamExn (Option (List (Declaration P)))) :=
  rules.map fun r => viewed (r.declarations.getD [])

theorem codec_rules {url url' : Option JString} {strings : List (Option JString)}
    {rules : List (Rule P)} (hdecl : ∀ r ∈ rules, ∃ ds, r.Declares url ds)
    (hfits : ∀ r ∈ rules, r.Fits) :
    Codec 32768 limit (.all (Rule.writeBinary url' strings) rules)
      (fun n T => List.map (Rule.getUnobservedDeclarationList url T) <$>
        replicateReader (Rule.readBinary (P := P) 5 n T) rules.length) (views rules) := by
  refine (codec_all rules fun r hr => ?_).congr fun n T => replicateReader_map _ _ _
  obtain ⟨ds, hds⟩ := hdecl r hr
  rw [hds.1, Option.getD_some]
  exact Rule.codec hds (hfits r hr)

/-- Some font faces are read, however many there are. -/
theorem readFontFaces_ok {faces : List FontFace} (hfits : ∀ f ∈ faces, f.Fits)
    {tab tab' : List (Option JString)} {bs : List Byte}
    (hw : (Writer.all FontFace.writeBinary faces : Out) tab = .ok (bs, tab')) :
    Grows tab tab' ∧ ∀ T, tab' <+: T → T.length < 32768 →
      ∃ result, readFontFaces 5 T (writeShort faces.length ++ bs) = .ok result := by
  have hall : ∀ faces' : List FontFace, (∀ f ∈ faces', f ∈ faces) →
      Codec 32768 (bs.length + 1) (.all FontFace.writeBinary faces')
        (fun _ T => replicateReader (FontFace.readBinary T) faces'.length) (faces'.map id) :=
    fun faces' hsub => codec_all faces' fun f hf => FontFace.codec (hfits f (hsub f hf))
  refine ⟨(hall faces (fun _ hf => hf) hw).1, fun T hT hbound => ?_⟩
  rw [readFontFaces, if_pos (le_refl 5), (decodes_short faces.length).bind_apply]
  have hle : (toSigned 16 (faces.length % 65536)).toNat ≤ faces.length := by
    have := Nat.mod_le faces.length 65536
    by_cases hm : faces.length % 65536 < 32768
    · rw [show toSigned 16 (faces.length % 65536) = ((faces.length % 65536 : ℕ) : ℤ) from
        toSigned_of_lt hm]
      omega
    · have := toSigned_short_neg hm
      omega
  generalize (toSigned 16 (faces.length % 65536)).toNat = k at hle
  rw [← List.take_append_drop k faces, Writer.all_append] at hw
  obtain ⟨front, back, tab₁, hfront, hback, rfl⟩ := Writer.append_eq_ok hw
  have hgrows := (hall _ (fun _ hf => List.mem_of_mem_drop hf) hback).1
  have hdecodes := (hall _ (fun _ hf => List.mem_of_mem_take hf) hfront).2 (front ++ back).length T
    (by rw [List.length_append]; omega) (by omega) (hgrows.1.trans hT) hbound
  rw [List.length_take, Nat.min_eq_left hle] at hdecodes
  exact ⟨_, hdecodes back⟩

/-- The parts of what has been written. -/
structure Parts (s : Stylesheet P) (strings : List (Option JString)) where
  origin : List Byte
  rules : List Byte
  faces : List Byte
  tab₁ : List (Option JString)
  tab₂ : List (Option JString)
  written_origin : putString (some (lit s.origin.name)) [] = .ok (origin, tab₁)
  written_rules : (Writer.all (Rule.writeBinary s.url s.stringStore) s.rules : Out) tab₁ =
    .ok (rules, tab₂)
  written_faces : (Writer.all FontFace.writeBinary s.fontFaces : Out) tab₂ = .ok (faces, strings)

variable {url : Option JString} {s : Stylesheet P} {strings : List (Option JString)}

/-- What follows the origin. -/
def Parts.body (parts : Parts s strings) : List Byte :=
  writeShort s.rules.length ++ (parts.rules ++ (writeShort s.fontFaces.length ++ parts.faces))

def Parts.bytes (parts : Parts s strings) : List Byte := parts.origin ++ parts.body

theorem exists_parts {input : List Byte} (h : s.convertToBinary = .ok (strings, input)) :
    ∃ (parts : Parts s strings) (tbytes : List Byte),
      StringStore.writeBinary strings = .ok tbytes ∧ input = tbytes ++ parts.bytes := by
  unfold convertToBinary at h
  cases hwrite : s.writeBinary [] with
  | error e => rw [hwrite] at h; cases h
  | ok x =>
  obtain ⟨bytes, strings'⟩ := x
  rw [hwrite] at h
  obtain ⟨tbytes, htbytes, heq⟩ := except_map_eq_ok.mp h
  cases heq
  obtain ⟨origin, b₁, tab₁, horigin, h₁, rfl⟩ := Writer.append_eq_ok hwrite
  obtain ⟨count, b₂, tab, hcount, h₂, rfl⟩ := Writer.append_eq_ok h₁
  cases hcount
  obtain ⟨rules, b₃, tab₂, hrules, h₃, rfl⟩ := Writer.append_eq_ok h₂
  obtain ⟨count', faces, tab, hcount, hfaces, rfl⟩ := Writer.append_eq_ok h₃
  cases hcount
  exact ⟨⟨origin, rules, faces, tab₁, tab₂, horigin, hrules, hfaces⟩, tbytes, htbytes, rfl⟩

/-- The reader behind the origin. -/
def readRest (url : Option JString) (origin : StyleOrigin) (depth : ℕ)
    (strings : List (Option JString)) : In (Stylesheet P) := do
  let rules ← readRules 5 depth strings
  let fontFaces ← readFontFaces 5 strings
  pure { url := url, origin := origin, rules := rules, fontFaces := fontFaces,
         stringStore := strings }

/-- A style sheet that is read has as many rules as the short says. -/
theorem readRest_length (parts : Parts s strings) {s' : Stylesheet P} {depth : ℕ}
    {rest : List Byte} (h : readRest url s.origin depth strings parts.body = .ok (s', rest))
    (hrules : s'.rules.length = s.rules.length) : s.rules.length < 32768 := by
  obtain ⟨rules, rest₁, hread, hrest⟩ := bind_eq_ok h
  obtain ⟨faces, rest₂, -, hpure⟩ := bind_eq_ok hrest
  cases hpure
  rw [readRules, Parts.body, (decodes_short s.rules.length).bind_apply] at hread
  obtain ⟨n, rest₃, hcapacity, hreplicate⟩ := bind_eq_ok hread
  have hn : rules.length = n := length_replicateReader hreplicate
  apply toSigned_short_eq
  unfold checkCapacity at hcapacity
  split at hcapacity
  · cases hcapacity
  · next hnonneg =>
      cases hcapacity
      change rules.length = s.rules.length at hrules
      omega

section

variable (hdecl : ∀ r ∈ s.rules, ∃ ds, r.Declares url ds) (hfits : s.Fits)
  (hlen : strings.length < 32768) (parts : Parts s strings)

include hdecl hfits

theorem Parts.grows : Grows [] parts.tab₁ ∧ Grows parts.tab₁ parts.tab₂ ∧
    Grows parts.tab₂ strings := by
  refine ⟨?_, ?_, (readFontFaces_ok hfits.2 parts.written_faces).1⟩
  · exact ((codec_origin s.origin : Codec 32768 0 _ _ _) parts.written_origin).1
  · exact ((codec_rules hdecl hfits.1 : Codec 32768 0 _ _ _) parts.written_rules).1

include hlen

/-- The strings and the origin come back. -/
theorem load_eq {tbytes : List Byte} (hstrings : StringStore.writeBinary strings = .ok tbytes) :
    Stylesheet.load (P := P) url 5 (tbytes ++ parts.bytes) =
      readRest url s.origin parts.bytes.length strings parts.body := by
  obtain ⟨h₁, h₂, h₃⟩ := parts.grows hdecl hfits
  have htable := StringStore.decodes_binary ((h₁.trans (h₂.trans h₃)).2 List.nodup_nil) hlen
    hstrings
  have horigin : Codec 32768 (parts.bytes.length + 1) _ _ _ := codec_origin s.origin
  have hfirst := (horigin parts.written_origin).2 parts.bytes.length strings
    (by rw [Parts.bytes, List.length_append]; omega) (Nat.lt_succ_self _) (h₂.trans h₃).1 hlen
  rw [load, htable.bind_apply]
  exact hfirst.bind_apply _ _

/-- The rules come back, if there are not too many of them. -/
theorem readRest_ok (hrules : s.rules.length < 32768) :
    ∃ (s' : Stylesheet P) (rest : List Byte),
      readRest url s.origin parts.bytes.length strings parts.body = .ok (s', rest) ∧
        s'.origin = s.origin ∧
        s'.rules.map (Rule.getUnobservedDeclarationList s'.url s'.stringStore) = views s.rules := by
  obtain ⟨-, -, h₃⟩ := parts.grows hdecl hfits
  have hdecodes := ((codec_rules hdecl hfits.1 : Codec 32768 (parts.bytes.length + 1) _ _ _)
    parts.written_rules).2 parts.bytes.length strings
    (by simp only [Parts.bytes, Parts.body, List.length_append]; omega) (Nat.lt_succ_self _) h₃.1
    hlen
  obtain ⟨rules, hread, hviews⟩ := map_eq_ok (hdecodes (writeShort s.fontFaces.length ++ parts.faces))
  obtain ⟨⟨faces, rest⟩, hfaces⟩ :=
    (readFontFaces_ok hfits.2 parts.written_faces).2 strings List.prefix_rfl hlen
  refine ⟨{ url := url, origin := s.origin, rules := rules, fontFaces := faces,
            stringStore := strings }, rest, ?_, rfl, hviews⟩
  have hreadRules : readRules (P := P) 5 parts.bytes.length strings parts.body =
      .ok (rules, writeShort s.fontFaces.length ++ parts.faces) := by
    rw [readRules, Parts.body, (decodes_short_of_lt hrules).bind_apply, checkCapacity_natCast,
      pure_bind]
    exact hread
  rw [readRest, bind_of_ok hreadRules, bind_of_ok hfaces]
  rfl

/-- What decides is what the rules return. -/
theorem roundTrips_iff_views {tbytes : List Byte}
    (hstrings : StringStore.writeBinary strings = .ok tbytes) :
    RoundTrips url s (tbytes ++ parts.bytes) ↔ s.rules.length < 32768 ∧
      views s.rules = s.rules.map fun r => .ok r.declarations := by
  have hload := load_eq hdecl hfits hlen parts hstrings
  constructor
  · rintro ⟨s', rest, hs', -, hmap⟩
    have hlength : s'.rules.length = s.rules.length := by
      have := congrArg List.length hmap
      rwa [List.length_map, List.length_map] at this
    rw [hload] at hs'
    have hrules := readRest_length parts hs' hlength
    refine ⟨hrules, ?_⟩
    obtain ⟨s'', rest', hs'', -, hviews⟩ := readRest_ok hdecl hfits hlen parts hrules
    cases hs'.symm.trans hs''
    rw [← hviews, hmap]
  · rintro ⟨hrules, hsame⟩
    obtain ⟨s', rest, hs', horigin, hviews⟩ := readRest_ok hdecl hfits hlen parts hrules
    exact ⟨s', rest, hload.trans hs', horigin, hviews.trans hsame⟩

end

/-- **A binary style sheet reads back its declarations.** The bytes that `writeBinary` produces
for a style sheet and its strings read back as the same origin and the same declarations of each
rule, if and only if a short can count the rules and the declarations of each rule, and every
converter is known to `getInstance`. -/
theorem roundTrips_iff (hdecl : ∀ r ∈ s.rules, ∃ ds, r.Declares url ds) (hfits : s.Fits)
    {input : List Byte} (hwrite : s.convertToBinary = .ok (strings, input))
    (hlen : strings.length < 32768) :
    RoundTrips url s input ↔ s.rules.length < 32768 ∧
      ∀ r ∈ s.rules, ∀ ds, r.declarations = some ds → ds.length < 32768 ∧
        ∀ d ∈ ds, ∀ u ∈ d.parsedValue.nodes, Converter.Restorable u.converter := by
  obtain ⟨parts, tbytes, hstrings, rfl⟩ := exists_parts hwrite
  rw [roundTrips_iff_views hdecl hfits hlen parts hstrings, views, List.map_inj_left]
  refine and_congr_right fun _ => forall_congr' fun r => forall_congr' fun hr => ?_
  obtain ⟨ds, hds, -⟩ := hdecl r hr
  rw [hds, Option.getD_some, viewed_eq_iff]
  simp only [Declaration.restored_eq_iff, Option.some.injEq, forall_eq']

/-! ### A converter that is lost -/

/-- A platform on which all doubles are floats. -/
def plainPlatform : Platform := ⟨id, some, fun _ => rfl, fun _ h => h⟩

/-- The style sheet has been written, with few strings. -/
def isWritten (s : Stylesheet P) : Bool :=
  match s.convertToBinary with
  | .ok (strings, _) => strings.length < 32768
  | .error _ => false

theorem exists_written (h : s.isWritten = true) :
    ∃ strings input, s.convertToBinary = .ok (strings, input) ∧ strings.length < 32768 := by
  unfold isWritten at h
  split at h
  · next strings input hw => exact ⟨strings, input, hw, of_decide_eq_true h⟩
  · cases h

/-- A tree of sizes, with a row that is null. -/
def sizeSheet : Stylesheet plainPlatform where
  rules := [
    { selectors := some [.simple ⟨lit "*", [], [], []⟩]
      declarations := some [⟨lit "-fx-x", .mk true none (.arrayOfValueArray
        [none, some [none, some (.mk false none (.size (longBitsToDouble 0) .em))]]), true⟩] }]

theorem sizeSheet_declares : ∀ r ∈ sizeSheet.rules, ∃ ds, r.Declares none ds := by
  intro r hr
  rw [List.mem_singleton.mp hr]
  refine ⟨_, rfl, ?_⟩
  intro d hd
  rw [List.mem_singleton.mp hd]
  constructor
  · intro u hu
    simp [ParsedValue.nodes, Value.nodes, layerNodes, entryNodes] at hu
    rcases hu with rfl | rfl
    · simp [ParsedValue.value, Value.PlainHead]
    · simp [ParsedValue.value, Value.PlainHead]
  · exact .inl rfl

theorem sizeSheet_fits : sizeSheet.Fits := by
  refine ⟨?_, fun f hf => nomatch hf⟩
  intro r hr
  rw [List.mem_singleton.mp hr]
  constructor
  · decide
  · intro s hs
    rw [List.mem_singleton.mp hs]
    exact ⟨by decide, by decide⟩

/-- A style sheet without converters. -/
theorem roundTrips_iff_sizeSheet : ∃ strings input,
    sizeSheet.convertToBinary = .ok (strings, input) ∧ RoundTrips none sizeSheet input := by
  obtain ⟨strings, input, hwrite, hlen⟩ := exists_written (s := sizeSheet) (by decide +kernel)
  have hiff := roundTrips_iff sizeSheet_declares sizeSheet_fits hwrite hlen
  refine ⟨strings, input, hwrite, hiff.mpr ⟨by decide, ?_⟩⟩
  intro r hr ds hds
  rw [List.mem_singleton.mp hr] at hds
  cases hds
  refine ⟨by decide, ?_⟩
  intro d hd u hu
  rw [List.mem_singleton.mp hd] at hu
  simp [ParsedValue.nodes, Value.nodes, layerNodes, entryNodes] at hu
  rcases hu with rfl | rfl
  · exact fun _ h => nomatch h
  · exact fun _ h => nomatch h

def imagePatternConverter : ConverterClass where
  name := lit "com.sun.javafx.css.converters.PaintConverter$ImagePatternConverter"
  name_ne := by decide +kernel
  not_enum := by decide +kernel

def stringConverter : ConverterClass where
  name := lit "com.sun.javafx.css.converters.StringConverter"
  name_ne := by decide +kernel
  not_enum := by decide +kernel

def urlConverter : ConverterClass where
  name := Declaration.urlConverterName
  name_ne := by decide +kernel
  not_enum := by decide +kernel

/-- What the parser makes of `-fx-fill: image-pattern("a.png")`. -/
def imageDeclaration : Declaration plainPlatform where
  property := lit "-fx-fill"
  parsedValue := .mk false (some (.other imagePatternConverter)) (.valueArray
    [some (.mk false (some (.other urlConverter)) (.valueArray
      [some (.mk false (some (.other stringConverter)) (.string (lit "a.png"))), none]))])
  important := false

def imageSheet : Stylesheet plainPlatform where
  rules := [{ selectors := some [], declarations := some [imageDeclaration] }]

theorem getInstance_imagePattern : Converter.getInstance imagePatternConverter.name = none := by
  have hswitch : switchOn converterClasses imagePatternConverter.name = none := by
    cases h : switchOn converterClasses imagePatternConverter.name with
    | none => rfl
    | some t =>
        obtain ⟨c, hc, hfrom, -⟩ := switchOn_eq_some h
        have hno : ∀ c ∈ converterClasses,
            c.1 ≠ "com.sun.javafx.css.converters.PaintConverter$ImagePatternConverter" := by
          decide +kernel
        exact absurd (lit_injective hfrom) (hno c hc)
  rw [Converter.getInstance, hswitch]
  rfl

theorem imageSheet_declares : ∀ r ∈ imageSheet.rules, ∃ ds, r.Declares none ds := by
  intro r hr
  rw [List.mem_singleton.mp hr]
  refine ⟨[imageDeclaration], rfl, ?_⟩
  intro d hd
  rw [List.mem_singleton.mp hd]
  constructor
  · intro u hu
    simp [imageDeclaration, ParsedValue.nodes, Value.nodes, entryNodes] at hu
    rcases hu with rfl | rfl | rfl
    · simp [ParsedValue.value, Value.PlainHead]
    · simp [ParsedValue.value, Value.PlainHead]
    · simp [ParsedValue.value, Value.PlainHead]
  · exact .inl rfl

theorem imageSheet_fits : imageSheet.Fits := by
  refine ⟨?_, fun f hf => nomatch hf⟩
  intro r hr
  rw [List.mem_singleton.mp hr]
  constructor
  · decide
  · exact fun s hs => nomatch hs

theorem imageDeclaration_ne : imageDeclaration.restored ≠ imageDeclaration := by
  intro h
  have hself := Declaration.restored_eq_iff.mp h imageDeclaration.parsedValue
    (List.mem_cons_self ..) (.other imagePatternConverter) rfl
  rw [Converter.restored, getInstance_imagePattern] at hself
  cases hself

/-- The converter of an image pattern is not read back: `getInstance` does not know it. -/
theorem imagePattern_converter_lost : ∃ strings input,
    imageSheet.convertToBinary = .ok (strings, input) ∧ strings.length < 32768 ∧
      (∀ r ∈ imageSheet.rules, ∃ ds, r.Declares none ds) ∧ imageSheet.Fits ∧
      ¬ RoundTrips none imageSheet input := by
  obtain ⟨strings, input, hwrite, hlen⟩ := exists_written (s := imageSheet) (by decide +kernel)
  refine ⟨strings, input, hwrite, hlen, imageSheet_declares, imageSheet_fits, ?_⟩
  intro hround
  obtain ⟨parts, tbytes, hstrings, rfl⟩ := exists_parts hwrite
  have hviews := ((roundTrips_iff_views imageSheet_declares imageSheet_fits hlen parts
    hstrings).mp hround).2
  have hview : viewed [imageDeclaration] = .ok (some [imageDeclaration]) :=
    (List.cons.inj hviews).1
  exact imageDeclaration_ne ((viewed_eq_iff.mp hview).2 imageDeclaration (List.mem_cons_self ..))

end Stylesheet

end JavaFx.Css
