import JavaFx.Css.DataStream
import JavaFx.Css.Selector
import JavaFx.Lib.TableCodec

/-!
# The binary form of a style sheet

`Stylesheet.writeBinary` writes everything but strings, for which it writes indexes into a
`StringStore` that is collected on the way and written in front. Declarations are kept as the
bytes they were read from until somebody asks a rule for them.
-/

namespace JavaFx.Css

open ByteStream TableCodec

/-- A string of the store may be null. -/
abbrev Out := TableCodec.Writer (Option JString) StreamExn

abbrev In (α : Type) := Reader StreamExn α

/-- `os.writeShort(stringStore.addString(s))` -/
def putString (s : Option JString) : Out := .intern writeShort s

/-- `os.writeInt(stringStore.addString(s))` -/
def putStringInt (s : Option JString) : Out := .intern writeInt s

def In.ofExcept {α : Type} : Except Exn α → In α
  | .ok a => pure a
  | .error e => throw (.runtime e)

/-- `strings[is.readShort()]` -/
def readString (strings : List (Option JString)) : In (Option JString) := do
  let index ← readShort
  In.ofExcept (arrayGet strings index)

/-- `strings[is.readInt()]` -/
def readStringInt (strings : List (Option JString)) : In (Option JString) := do
  let index ← readInt
  In.ofExcept (arrayGet strings index)

/-- `new ArrayList(n)` throws for a negative `n`. -/
def checkCapacity (n : ℤ) : In ℕ :=
  if n < 0 then throw (.runtime (.illegalArgument "Illegal Capacity")) else pure n.toNat

/-! ## `StringStore` -/

namespace StringStore

/-- The strings that are not null, in their order. -/
def writeStrings : List (Option JString) → Except StreamExn (List Byte)
  | [] => .ok []
  | none :: rest => writeStrings rest
  | some s :: rest =>
      match writeUTF s, writeStrings rest with
      | .ok bs, .ok bs' => .ok (bs ++ bs')
      | .error e, _ => .error e
      | _, .error e => .error e

/-- The index of null, or -1, which has the bits of 65535. -/
def nullIndex (strings : List (Option JString)) : ℕ :=
  (strings.findIdx? (· = none)).getD 65535

def writeBinary (strings : List (Option JString)) : Except StreamExn (List Byte) :=
  (writeStrings strings).map fun bs =>
    writeShort strings.length ++ writeShort (nullIndex strings) ++ bs

/-- The loop of `readBinary` from `n` on, with `k` strings to come. -/
def readStrings (nullIndex : ℤ) : ℕ → ℕ → In (List (Option JString))
  | _, 0 => pure []
  | n, k + 1 =>
      if (n : ℤ) = nullIndex then do
        let rest ← readStrings nullIndex (n + 1) k
        pure (none :: rest)
      else do
        let s ← readUTF
        let rest ← readStrings nullIndex (n + 1) k
        pure (some s :: rest)

def readBinary : In (List (Option JString)) := do
  let nStrings ← readShort
  let nullIndex ← readShort
  if nStrings < 0 then throw (.runtime .negativeArraySize)
  else readStrings nullIndex 0 nStrings.toNat

end StringStore

/-! ## Converters -/

def enumConverterName : JString := lit "com.sun.javafx.css.converters.EnumConverter"

/-- A class that extends `StyleConverterImpl`, other than `EnumConverter`. It has one instance. -/
structure ConverterClass where
  name : JString
  name_ne : name ≠ []
  not_enum : ¬ enumConverterName <+: name
deriving DecidableEq

/-- A converter is a `StyleConverterImpl` or not. -/
inductive Converter where
  | enumConverter (enumClass : JString)
  | other (c : ConverterClass)
  | foreign
deriving DecidableEq

/-- The `switch` of `StyleConverterImpl.getInstance`: the class of each name. -/
def converterClasses : List (String × String) :=
  let css := "com.sun.javafx.css.converters."
  let region := "com.sun.javafx.scene.layout.region."
  let same : String → String × String := fun s => (s, s)
  [same (css ++ "BooleanConverter"), same (css ++ "ColorConverter"),
    same (css ++ "CursorConverter"), same (css ++ "EffectConverter"),
    same (css ++ "EffectConverter$DropShadowConverter"),
    same (css ++ "EffectConverter$InnerShadowConverter"),
    same (css ++ "FontConverter"),
    same (css ++ "FontConverter$FontStyleConverter"),
    (css ++ "FontConverter$StyleConverter", css ++ "FontConverter$FontStyleConverter"),
    same (css ++ "FontConverter$FontWeightConverter"),
    (css ++ "FontConverter$WeightConverter", css ++ "FontConverter$FontWeightConverter"),
    same (css ++ "FontConverter$FontSizeConverter"),
    (css ++ "FontConverter$SizeConverter", css ++ "FontConverter$FontSizeConverter"),
    same (css ++ "InsetsConverter"), same (css ++ "InsetsConverter$SequenceConverter"),
    same (css ++ "PaintConverter"), same (css ++ "PaintConverter$SequenceConverter"),
    same (css ++ "PaintConverter$LinearGradientConverter"),
    same (css ++ "PaintConverter$RadialGradientConverter"),
    same (css ++ "SizeConverter"), same (css ++ "SizeConverter$SequenceConverter"),
    same (css ++ "StringConverter"), same (css ++ "StringConverter$SequenceConverter"),
    same (css ++ "URLConverter"), same (css ++ "URLConverter$SequenceConverter"),
    same (region ++ "BackgroundPositionConverter"),
    (region ++ "BackgroundImage$BackgroundPositionConverter",
      region ++ "BackgroundPositionConverter"),
    same (region ++ "BackgroundSizeConverter"),
    (region ++ "BackgroundImage$BackgroundSizeConverter", region ++ "BackgroundSizeConverter"),
    same (region ++ "BorderImageSliceConverter"),
    (region ++ "BorderImage$SliceConverter", region ++ "BorderImageSliceConverter"),
    same (region ++ "BorderImageWidthConverter"),
    same (region ++ "BorderImageWidthsSequenceConverter"),
    same (region ++ "BorderStrokeStyleSequenceConverter"),
    (region ++ "StrokeBorder$BorderStyleSequenceConverter",
      region ++ "BorderStrokeStyleSequenceConverter"),
    same (region ++ "BorderStyleConverter"),
    (region ++ "StrokeBorder$BorderStyleConverter", region ++ "BorderStyleConverter"),
    same (region ++ "LayeredBackgroundPositionConverter"),
    (region ++ "BackgroundImage$LayeredBackgroundPositionConverter",
      region ++ "LayeredBackgroundPositionConverter"),
    same (region ++ "LayeredBackgroundSizeConverter"),
    (region ++ "BackgroundImage$LayeredBackgroundSizeConverter",
      region ++ "LayeredBackgroundSizeConverter"),
    same (region ++ "LayeredBorderPaintConverter"),
    (region ++ "StrokeBorder$LayeredBorderPaintConverter",
      region ++ "LayeredBorderPaintConverter"),
    same (region ++ "LayeredBorderStyleConverter"),
    (region ++ "StrokeBorder$LayeredBorderStyleConverter",
      region ++ "LayeredBorderStyleConverter"),
    same (region ++ "RepeatStructConverter"),
    (region ++ "BackgroundImage$BackgroundRepeatConverter", region ++ "RepeatStructConverter"),
    (region ++ "BorderImage$RepeatConverter", region ++ "RepeatStructConverter"),
    same (region ++ "SliceSequenceConverter"),
    (region ++ "BorderImage$SliceSequenceConverter", region ++ "SliceSequenceConverter"),
    same (region ++ "StrokeBorderPaintConverter"),
    (region ++ "StrokeBorder$BorderPaintConverter", region ++ "StrokeBorderPaintConverter"),
    same (region ++ "Margins$Converter"), same (region ++ "Margins$SequenceConverter"),
    same "javafx.scene.layout.CornerRadiiConverter",
    same "com.sun.javafx.css.parser.DeriveColorConverter",
    same "com.sun.javafx.css.parser.DeriveSizeConverter",
    same "com.sun.javafx.css.parser.LadderConverter",
    same "com.sun.javafx.css.parser.StopConverter"]

/-- The `switch` of `EnumConverter.getInstance`. -/
def enumClasses : List (String × String) :=
  let same : String → String × String := fun s => (s, s)
  [same "com.sun.javafx.cursor.CursorType", same "javafx.scene.layout.BackgroundRepeat",
    ("com.sun.javafx.scene.layout.region.Repeat", "javafx.scene.layout.BackgroundRepeat"),
    same "javafx.geometry.HPos", same "javafx.geometry.Orientation", same "javafx.geometry.Pos",
    same "javafx.geometry.Side", same "javafx.geometry.VPos", same "javafx.scene.effect.BlendMode",
    same "javafx.scene.effect.BlurType", same "javafx.scene.paint.CycleMethod",
    same "javafx.scene.shape.ArcType", same "javafx.scene.shape.StrokeLineCap",
    same "javafx.scene.shape.StrokeLineJoin", same "javafx.scene.shape.StrokeType",
    same "javafx.scene.text.FontPosture", same "javafx.scene.text.FontSmoothingType",
    same "javafx.scene.text.FontWeight", same "javafx.scene.text.TextAlignment"]

/-- A `switch` over strings. -/
def switchOn (cases : List (String × String)) (s : JString) : Option JString :=
  (cases.find? fun c => lit c.1 = s).map fun c => lit c.2

def ConverterClass.ofName (name : JString) : Option ConverterClass :=
  if h : name ≠ [] ∧ ¬ enumConverterName <+: name then some ⟨name, h.1, h.2⟩ else none

namespace Converter

/-- `StyleConverterImpl.getInstance(converterClass)` -/
def getInstance (converterClass : JString) : Option Converter :=
  ((switchOn converterClasses converterClass).bind ConverterClass.ofName).map .other

/-- `EnumConverter.getInstance(ename)` -/
def getEnumInstance (ename : JString) : Option Converter :=
  (switchOn enumClasses ename).map .enumConverter

/-- The flag and the `StyleConverterImpl` behind it. -/
def writeBinary : Option Converter → Out
  | some (.other c) => .emit (writeBoolean true) ++ putString (some c.name)
  | some (.enumConverter e) =>
      .emit (writeBoolean true) ++ (putString (some enumConverterName) ++ putString (some e))
  | some .foreign => .emit (writeBoolean false)
  | none => .emit (writeBoolean false)

/-- `EnumConverter.readBinary` -/
def readEnum (strings : List (Option JString)) : In (Option Converter) := do
  let index ← readShort
  let ename ← if 0 ≤ index ∧ index ≤ strings.length then In.ofExcept (arrayGet strings index)
    else pure none
  pure (match ename with
    | none => none
    | some ename => if ename = [] then none else getEnumInstance ename)

/-- `StyleConverterImpl.readBinary` -/
def readImpl (strings : List (Option JString)) : In (Option Converter) := do
  let cname ← readString strings
  match cname with
  | none => pure none
  | some cname =>
      if cname = [] then pure none
      else if enumConverterName <+: cname then readEnum strings
      else pure (getInstance cname)

/-- The flag `hasType` and what follows it. -/
def readBinary (strings : List (Option JString)) : In (Option Converter) := do
  let hasType ← readBoolean
  if hasType then readImpl strings else pure none

end Converter

/-! ## Parsed values -/

/-- `c < 0 || c > 1`, by the bits; NaN is neither. -/
def outOfRange (c : Double) : Bool :=
  2 ^ 63 < c.bits.toNat ∨ 0x3ff0000000000000 < c.bits.toNat ∧ c.bits.toNat ≤ 0x7ff0000000000000

/-- What is asked of the platform: `(double) (float) d`, and the external form of `new URL(s)`,
if `s` is well formed. -/
structure Platform where
  toFloat : Double → Double
  newURL : JString → Option JString
  toFloat_idem : ∀ d, toFloat (toFloat d) = toFloat d
  toFloat_range : ∀ d, outOfRange d = false → outOfRange (toFloat d) = false

variable {P : Platform}

/-- A component of a `Color` is a float between 0 and 1. -/
structure Component (P : Platform) where
  val : Double
  isFloat : P.toFloat val = val
  inRange : outOfRange val = false

def Component.ofDouble (d : Double) : Except Exn (Component P) :=
  if h : outOfRange d = false then
    .ok ⟨P.toFloat d, P.toFloat_idem d, P.toFloat_range d h⟩
  else .error (.illegalArgument "Color's value must be in the range 0.0-1.0")

structure Color (P : Platform) where
  red : Component P
  green : Component P
  blue : Component P
  opacity : Component P

inductive SizeUnits where
  | percent | inch | cm | mm | em | ex | pt | pc | px | deg | grad | rad | turn
deriving DecidableEq

def SizeUnits.name : SizeUnits → String
  | percent => "PERCENT"
  | inch => "IN"
  | cm => "CM"
  | mm => "MM"
  | em => "EM"
  | ex => "EX"
  | pt => "PT"
  | pc => "PC"
  | px => "PX"
  | deg => "DEG"
  | grad => "GRAD"
  | rad => "RAD"
  | turn => "TURN"

def SizeUnits.values : List SizeUnits :=
  [percent, inch, cm, mm, em, ex, pt, pc, px, deg, grad, rad, turn]

mutual

/-- A `ParsedValueImpl` -/
inductive ParsedValue (P : Platform) where
  | mk (lookup : Bool) (converter : Option Converter) (value : Value P)

/-- The `value` of a `ParsedValueImpl`. -/
inductive Value (P : Platform) where
  | value (v : ParsedValue P)
  | valueArray (values : List (Option (ParsedValue P)))
  | arrayOfValueArray (layers : List (Option (List (Option (ParsedValue P)))))
  | color (c : Color P)
  | enum (name : JString)
  | boolean (b : Bool)
  | size (value : Double) (units : SizeUnits)
  | string (s : JString)
  | url (spec : JString)
  | null

end

def NULL_VALUE : ℕ := 0
def VALUE : ℕ := 1
def VALUE_ARRAY : ℕ := 2
def ARRAY_OF_VALUE_ARRAY : ℕ := 3
def STRING : ℕ := 4
def COLOR : ℕ := 5
def ENUM : ℕ := 6
def BOOLEAN : ℕ := 7
def URL : ℕ := 8
def SIZE : ℕ := 9

def putByte (n : ℕ) : Out := .emit (writeByte n)

def Component.writeBinary (c : Component P) : Out := .emit (writeLong (doubleToLongBits c.val))

mutual

def ParsedValue.writeBinary : ParsedValue P → Out
  | .mk lookup converter value =>
      .emit (writeBoolean lookup) ++ (Converter.writeBinary converter ++ value.writeBinary)

def Value.writeBinary : Value P → Out
  | .value v => putByte VALUE ++ v.writeBinary
  | .valueArray values =>
      putByte VALUE_ARRAY ++ (putByte VALUE ++ (.emit (writeInt values.length) ++
        writeEntries values))
  | .arrayOfValueArray layers =>
      putByte ARRAY_OF_VALUE_ARRAY ++ (putByte VALUE ++ (.emit (writeInt layers.length) ++
        writeLayers layers))
  | .color c =>
      putByte COLOR ++ (c.red.writeBinary ++ (c.green.writeBinary ++ (c.blue.writeBinary ++
        c.opacity.writeBinary)))
  | .enum name => putByte ENUM ++ putString (some name)
  | .boolean b => putByte BOOLEAN ++ .emit (writeBoolean b)
  | .size value units =>
      putByte SIZE ++ (.emit (writeLong (doubleToLongBits value)) ++
        putString (some (lit units.name)))
  | .string s => putByte STRING ++ putString (some s)
  | .url spec => putByte URL ++ putString (some spec)
  | .null => putByte NULL_VALUE

/-- The entries of an array, each behind a byte that says whether it is null. -/
def writeEntries : List (Option (ParsedValue P)) → Out
  | [] => .emit []
  | none :: rest => putByte NULL_VALUE ++ writeEntries rest
  | some v :: rest => (putByte VALUE ++ v.writeBinary) ++ writeEntries rest

/-- The rows of an array of arrays. -/
def writeLayers : List (Option (List (Option (ParsedValue P)))) → Out
  | [] => .emit []
  | none :: rest => (putByte NULL_VALUE ++ .emit (writeInt 0)) ++ writeLayers rest
  | some values :: rest =>
      (putByte VALUE ++ (.emit (writeInt values.length) ++ writeEntries values)) ++
        writeLayers rest

end

/-- The byte in front of a length, which versions before 4 do not have. -/
def readMarker (bssVersion : ℕ) : In Unit :=
  if bssVersion ≥ 4 then (fun _ => ()) <$> readByte else pure ()

def readEntry (read : In (ParsedValue P)) : In (Option (ParsedValue P)) := do
  let vtype ← readByte
  if vtype = VALUE then some <$> read else pure none

/-- A length and that many entries. -/
def readEntries (read : In (ParsedValue P)) (bssVersion : ℕ) :
    In (Option (List (Option (ParsedValue P)))) := do
  readMarker bssVersion
  let nVals ← readInt
  let values ← replicateReader (readEntry read) nVals.toNat
  pure (if nVals > 0 then some values else none)

def Component.readBinary : In (Component P) := do
  let b ← readLong
  In.ofExcept (Component.ofDouble (longBitsToDouble b))

def readColor : In (Color P) := do
  let r ← Component.readBinary
  let g ← Component.readBinary
  let b ← Component.readBinary
  let a ← Component.readBinary
  pure ⟨r, g, b, a⟩

/-- `Enum.valueOf`, with pixels for a name that is unknown or null. -/
def SizeUnits.valueOf (name : Option JString) : SizeUnits :=
  (SizeUnits.values.find? fun u => some (lit u.name) = name).getD .px

/-- A string value; null stays null. -/
def Value.ofString : Option JString → Value P
  | some s => .string s
  | none => .null

/-- Version 2 has another index behind that of an enumeration constant. -/
def readEnumName (bssVersion : ℕ) (strings : List (Option JString)) : In (Option JString) := do
  let ename ← readString strings
  if bssVersion = 2 then do
    let bad ← readShort
    if bad ≥ strings.length then throw (.runtime (.illegalArgument "bad version"))
    else pure ename
  else pure ename

def readURL (P : Platform) (strings : List (Option JString)) : In (Value P) := do
  let str ← readString strings
  match str.bind P.newURL with
  | some spec => pure (.url spec)
  | none => throw .internalError

/-- The value behind its type; `read` reads a nested one. -/
def readValue (read : In (ParsedValue P)) (bssVersion : ℕ) (strings : List (Option JString))
    (valType : ℤ) : In (Value P) :=
  if valType = VALUE then .value <$> read
  else if valType = VALUE_ARRAY then do
    let values ← readEntries read bssVersion
    pure (values.elim .null .valueArray)
  else if valType = ARRAY_OF_VALUE_ARRAY then do
    readMarker bssVersion
    let nLayers ← readInt
    let layers ← replicateReader (readEntries read bssVersion) nLayers.toNat
    pure (if nLayers > 0 then .arrayOfValueArray layers else .null)
  else if valType = COLOR then .color <$> readColor
  else if valType = ENUM then Value.ofString <$> readEnumName bssVersion strings
  else if valType = BOOLEAN then .boolean <$> readBoolean
  else if valType = SIZE then do
    let bits ← readLong
    let unitStr ← readString strings
    pure (.size (longBitsToDouble bits) (SizeUnits.valueOf unitStr))
  else if valType = STRING then Value.ofString <$> readString strings
  else if valType = URL then readURL P strings
  else if valType = NULL_VALUE then pure .null
  else throw .internalError

/-- `ParsedValueImpl.readBinary`, with a bound on the nesting. -/
def ParsedValue.readBinary (bssVersion : ℕ) : ℕ → List (Option JString) → In (ParsedValue P)
  | 0, _ => throw (.runtime .stackOverflow)
  | depth + 1, strings => do
      let lookup ← readBoolean
      let converter ← Converter.readBinary strings
      let valType ← readByte
      let value ← readValue (ParsedValue.readBinary bssVersion depth strings) bssVersion strings
        valType
      pure (.mk lookup converter value)

/-! ## Declarations -/

namespace ParsedValue

def converter : ParsedValue P → Option Converter
  | .mk _ c _ => c

def value : ParsedValue P → Value P
  | .mk _ _ v => v

end ParsedValue

structure Declaration (P : Platform) where
  property : JString
  parsedValue : ParsedValue P
  important : Bool

namespace Declaration

def writeBinary (d : Declaration P) : Out :=
  putString (some d.property) ++ (d.parsedValue.writeBinary ++ .emit (writeBoolean d.important))

def readBinary (bssVersion depth : ℕ) (strings : List (Option JString)) :
    In (Declaration P) := do
  let propertyName ← readString strings
  let parsedValue ← ParsedValue.readBinary bssVersion depth strings
  let important ← readBoolean
  match propertyName with
  | some property => pure ⟨property, parsedValue, important⟩
  | none => throw (.runtime (.illegalArgument "propertyName cannot be null"))

def urlConverterName : JString := lit "com.sun.javafx.css.converters.URLConverter"

def urlSequenceConverterName : JString :=
  lit "com.sun.javafx.css.converters.URLConverter$SequenceConverter"

/-- `values[1] = new ParsedValueImpl(stylesheetUrl, null)`, after a cast to an array. -/
def fixUrlIn (stylesheetUrl : JString) : Value P → Except StreamExn (Value P)
  | .valueArray values =>
      match arraySet values 1 (some (.mk false none (.string stylesheetUrl))) with
      | .ok values => .ok (.valueArray values)
      | .error e => .error (.runtime e)
  | .null => .error (.runtime .nullPointer)
  | _ => .error .classCast

/-- The loop of `fixUrl` over the layers. -/
def fixUrlLayers (stylesheetUrl : JString) :
    List (Option (ParsedValue P)) → Except StreamExn (List (Option (ParsedValue P)))
  | [] => .ok []
  | none :: _ => .error (.runtime .nullPointer)
  | some (.mk lookup converter value) :: rest =>
      match fixUrlIn stylesheetUrl value, fixUrlLayers stylesheetUrl rest with
      | .ok value, .ok rest => .ok (some (.mk lookup converter value) :: rest)
      | .error e, _ => .error e
      | _, .error e => .error e

/-- `fixUrl(stylesheetUrl)` for a value with the converter `c`. -/
def fixUrlValue (stylesheetUrl : JString) (c : Converter) (value : Value P) :
    Except StreamExn (Value P) :=
  match c with
  | .other c =>
      if c.name = urlConverterName then fixUrlIn stylesheetUrl value
      else if c.name = urlSequenceConverterName then
        match value with
        | .valueArray layers =>
            match fixUrlLayers stylesheetUrl layers with
            | .ok layers => .ok (.valueArray layers)
            | .error e => .error e
        | .null => .error (.runtime .nullPointer)
        | _ => .error .classCast
      else .ok value
  | _ => .ok value

def fixUrl (stylesheetUrl : JString) (d : Declaration P) : Except StreamExn (Declaration P) :=
  match d.parsedValue with
  | .mk lookup (some c) value =>
      match fixUrlValue stylesheetUrl c value with
      | .ok value => .ok { d with parsedValue := .mk lookup (some c) value }
      | .error e => .error e
  | .mk _ none _ => .ok d

end Declaration

/-! ## Selectors -/

/-- What is written of a `SimpleSelector`: the names in its two sets in the order in which the
sets are iterated over. -/
structure SimpleNames where
  name : JString
  styleClasses : List JString
  id : JString
  pseudoClasses : List JString

inductive SelectorNames where
  | simple (s : SimpleNames)
  | compound (selectors : List SimpleNames) (relationships : List Combinator)

def TYPE_SIMPLE : ℕ := 1
def TYPE_COMPOUND : ℕ := 2

def SimpleNames.writeBinary (s : SimpleNames) : Out :=
  putByte TYPE_SIMPLE ++ (putString (some s.name) ++ (.emit (writeShort s.styleClasses.length) ++
    (.all (fun c => putString (some c)) s.styleClasses ++ (putString (some s.id) ++
      (.emit (writeShort s.pseudoClasses.length) ++
        .all (fun c => putString (some c)) s.pseudoClasses)))))

/-- `ordinal()` of a combinator. -/
def Combinator.ordinal : Combinator → ℕ
  | .child => 0
  | .descendant => 1

def SelectorNames.writeBinary : SelectorNames → Out
  | .simple s => s.writeBinary
  | .compound selectors relationships =>
      putByte TYPE_COMPOUND ++ (.emit (writeShort selectors.length) ++
        (.all SimpleNames.writeBinary selectors ++ (.emit (writeShort relationships.length) ++
          .all (fun r => putByte (Combinator.ordinal r)) relationships)))

/-- The loop over a short number of strings. -/
def readNames (strings : List (Option JString)) : In (List (Option JString)) := do
  let n ← readShort
  replicateReader (readString strings) n.toNat

/-- `new SimpleSelector(name, styleClasses, pseudoclasses, id)`, which skips names that are null
or empty. -/
def SimpleNames.new (name : Option JString) (styleClasses : List (Option JString))
    (pseudoClasses : List (Option JString)) (id : Option JString) : SimpleNames where
  name := name.getD (lit "*")
  styleClasses := (styleClasses.filterMap fun s => s).filter (· ≠ [])
  id := id.getD []
  pseudoClasses := (pseudoClasses.filterMap fun s => s).filter (· ≠ [])

def SimpleNames.readBinary (strings : List (Option JString)) : In SimpleNames := do
  let name ← readString strings
  let styleClasses ← readNames strings
  let id ← readString strings
  let pseudoClasses ← readNames strings
  pure (.new name styleClasses pseudoClasses id)

def readCombinator : In Combinator := do
  let ordinal ← readByte
  pure (if ordinal = Combinator.ordinal .child then .child else .descendant)

/-- `(SimpleSelector) selector` -/
def SelectorNames.toSimple : SelectorNames → In SimpleNames
  | .simple s => pure s
  | .compound _ _ => throw .classCast

/-- `Selector.readBinary`, with a bound on the nesting. -/
def SelectorNames.readBinary : ℕ → List (Option JString) → In SelectorNames
  | 0, _ => throw (.runtime .stackOverflow)
  | depth + 1, strings => do
      let type ← readByte
      if type = TYPE_SIMPLE then SelectorNames.simple <$> SimpleNames.readBinary strings
      else do
        let nSelectors ← readShort
        let selectors ← replicateReader
          (do
            let s ← SelectorNames.readBinary depth strings
            s.toSimple)
          nSelectors.toNat
        let nRelationships ← readShort
        let relationships ← replicateReader readCombinator nRelationships.toNat
        pure (.compound selectors relationships)

/-! ## Rules -/

/-- The declarations are those that have been read from `serializedDecls`, or null. -/
structure Rule (P : Platform) where
  selectors : Option (List SelectorNames)
  declarations : Option (List (Declaration P))
  serializedDecls : Option (List Byte) := none
  bssVersion : ℕ := 5

/-- The loop over the declarations of a rule whose style sheet has the URL `url`. -/
def readDeclarations (url : Option JString) (bssVersion depth : ℕ)
    (strings : List (Option JString)) : In (List (Declaration P)) := do
  let nDeclarations ← readShort
  let n ← checkCapacity nDeclarations
  replicateReader
    (do
      let decl ← Declaration.readBinary bssVersion depth strings
      match url with
      | some url => fun s => (decl.fixUrl url).map fun d => (d, s)
      | none => pure decl)
    n

namespace Rule

/-- `getUnobservedDeclarationList()` of a rule of a style sheet with this URL and these
strings. An `IOException` is swallowed. -/
def getUnobservedDeclarationList (url : Option JString) (strings : List (Option JString))
    (r : Rule P) : Except StreamExn (Option (List (Declaration P))) :=
  match r.declarations, r.serializedDecls with
  | none, some bytes =>
      match readDeclarations url r.bssVersion bytes.length strings bytes with
      | .ok (decls, _) => .ok (some decls)
      | .error .eof => .ok (some [])
      | .error .utfDataFormat => .ok (some [])
      | .error e => .error e
  | declarations, _ => .ok declarations

/-- `bos.toByteArray()` behind its size. An array has fewer than `2 ^ 31` bytes. -/
def writeBlob (w : Out) : Out := fun tab =>
  match w tab with
  | .error e => .error e
  | .ok (bs, tab') =>
      if bs.length < 2 ^ 31 then .ok (writeInt bs.length ++ bs, tab') else .error .outOfMemory

def writeDeclarations (decls : List (Declaration P)) : Out :=
  .emit (writeShort decls.length) ++ .all Declaration.writeBinary decls

def writeSelectors (selectors : List SelectorNames) : Out :=
  .emit (writeShort selectors.length) ++ .all SelectorNames.writeBinary selectors

/-- `writeBinary` of a rule of a style sheet with this URL and these strings. -/
def writeBinary (url : Option JString) (strings : List (Option JString)) (r : Rule P) : Out :=
  writeSelectors (r.selectors.getD []) ++
    match r.getUnobservedDeclarationList url strings with
    | .ok (some decls) => writeBlob (writeDeclarations decls)
    | .ok none => .emit (writeShort 0)
    | .error e => .fail e

def readSelectors (depth : ℕ) (strings : List (Option JString)) : In (List SelectorNames) := do
  let nSelectors ← readShort
  let n ← checkCapacity nSelectors
  replicateReader (SelectorNames.readBinary depth strings) n

/-- The bytes of the declarations, which are kept. -/
def readSerialized (bssVersion : ℕ) (selectors : List SelectorNames) : In (Rule P) := do
  let nBytes ← readInt
  if nBytes < 0 then throw (.runtime .negativeArraySize)
  else do
    let buf ← take .eof nBytes.toNat
    pure { selectors := some selectors, declarations := none, serializedDecls := some buf,
           bssVersion := bssVersion }

/-- Versions before 4 have no size in front of the declarations. -/
def readBinary (bssVersion depth : ℕ) (strings : List (Option JString)) : In (Rule P) := do
  let selectors ← readSelectors depth strings
  if bssVersion < 4 then do
    let declarations ← readDeclarations none bssVersion depth strings
    pure { selectors := some selectors, declarations := some declarations }
  else readSerialized bssVersion selectors

end Rule

/-! ## Font faces -/

inductive FontFaceSrcType where
  | url | localFont | reference
deriving DecidableEq

def FontFaceSrcType.name : FontFaceSrcType → String
  | url => "URL"
  | localFont => "LOCAL"
  | reference => "REFERENCE"

def FontFaceSrcType.values : List FontFaceSrcType := [url, localFont, reference]

structure FontFaceSrc where
  type : Option FontFaceSrcType
  src : Option JString
  format : Option JString

/-- The descriptors are the entries of a map. -/
structure FontFace where
  descriptors : List (Option JString × Option JString)
  sources : List FontFaceSrc

/-- `type.name()` throws for a null type. -/
def FontFaceSrc.writeBinary (s : FontFaceSrc) : Out :=
  (match s.type with
    | some type => putStringInt (some (lit type.name))
    | none => .fail (.runtime .nullPointer)) ++ (putStringInt s.src ++ putStringInt s.format)

def FontFace.writeBinary (f : FontFace) : Out :=
  .emit (writeShort f.descriptors.length) ++
    (.all (fun e => putStringInt e.1 ++ putStringInt e.2) f.descriptors ++
      (.emit (writeShort f.sources.length) ++ .all FontFaceSrc.writeBinary f.sources))

/-- `valueOf` of an enumeration. -/
def enumValueOf {E : Type} (name : E → String) (values : List E) (s : JString) : In E :=
  match values.find? fun e => lit (name e) = s with
  | some e => pure e
  | none => throw (.runtime (.illegalArgument "No enum constant"))

def FontFaceSrc.readBinary (strings : List (Option JString)) : In FontFaceSrc := do
  let typeName ← readStringInt strings
  let type ← match typeName with
    | some s => some <$> enumValueOf FontFaceSrcType.name FontFaceSrcType.values s
    | none => pure none
  let src ← readStringInt strings
  let format ← readStringInt strings
  pure ⟨type, src, format⟩

def readDescriptor (strings : List (Option JString)) : In (Option JString × Option JString) := do
  let key ← readStringInt strings
  let value ← readStringInt strings
  pure (key, value)

def FontFace.readBinary (strings : List (Option JString)) : In FontFace := do
  let nEntries ← readShort
  let n ← checkCapacity nEntries
  let descriptors ← replicateReader (readDescriptor strings) n
  let nSources ← readShort
  let m ← checkCapacity nSources
  let sources ← replicateReader (FontFaceSrc.readBinary strings) m
  pure ⟨descriptors, sources⟩

/-! ## Style sheets -/

inductive StyleOrigin where
  | userAgent | user | author | inline
deriving DecidableEq

def StyleOrigin.name : StyleOrigin → String
  | userAgent => "USER_AGENT"
  | user => "USER"
  | author => "AUTHOR"
  | inline => "INLINE"

def StyleOrigin.values : List StyleOrigin := [userAgent, user, author, inline]

structure Stylesheet (P : Platform) where
  url : Option JString := none
  origin : StyleOrigin := .author
  rules : List (Rule P) := []
  fontFaces : List FontFace := []
  stringStore : List (Option JString) := []

namespace Stylesheet

def writeBinary (s : Stylesheet P) : Out :=
  putString (some (lit s.origin.name)) ++ (.emit (writeShort s.rules.length) ++
    (.all (Rule.writeBinary s.url s.stringStore) s.rules ++
      (.emit (writeShort s.fontFaces.length) ++ .all FontFace.writeBinary s.fontFaces)))

def readOrigin (strings : List (Option JString)) : In StyleOrigin := do
  let name ← readString strings
  match name with
  | some name => enumValueOf StyleOrigin.name StyleOrigin.values name
  | none => throw (.runtime .nullPointer)

def readRules (bssVersion depth : ℕ) (strings : List (Option JString)) : In (List (Rule P)) := do
  let nRules ← readShort
  let n ← checkCapacity nRules
  replicateReader (Rule.readBinary bssVersion depth strings) n

/-- Versions before 5 have no font faces. -/
def readFontFaces (bssVersion : ℕ) (strings : List (Option JString)) : In (List FontFace) :=
  if bssVersion ≥ 5 then do
    let nFontFaces ← readShort
    replicateReader (FontFace.readBinary strings) nFontFaces.toNat
  else pure []

/-- `readBinary` of a style sheet with this URL and no rules yet. The nesting is bounded by the
number of bytes. -/
def readBinary (url : Option JString) (bssVersion : ℕ) (strings : List (Option JString)) :
    In (Stylesheet P) := fun input =>
  (do
    let origin ← readOrigin strings
    let rules ← readRules bssVersion input.length strings
    let fontFaces ← readFontFaces bssVersion strings
    pure { url := url, origin := origin, rules := rules, fontFaces := fontFaces,
           stringStore := strings } : In (Stylesheet P)) input

/-- What `convertToBinary` writes behind the version number, and the strings it has collected. -/
def convertToBinary (s : Stylesheet P) :
    Except StreamExn (List (Option JString) × List Byte) :=
  match s.writeBinary [] with
  | .error e => .error e
  | .ok (bytes, strings) => (StringStore.writeBinary strings).map fun bs => (strings, bs ++ bytes)

/-- What `loadBinary` does behind the version number. -/
def load (url : Option JString) (bssVersion : ℕ) : In (Stylesheet P) := do
  let strings ← StringStore.readBinary
  readBinary url bssVersion strings

end Stylesheet

end JavaFx.Css
