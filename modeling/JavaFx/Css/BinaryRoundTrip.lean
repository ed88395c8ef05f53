import JavaFx.Css.BinaryFormat

/-!
# Reading back a binary style sheet

Everything but converters comes back from what has been written of a declaration; a converter
comes back if one of the two `getInstance` methods knows its class (`Converter.restored`).
-/

namespace JavaFx.Css

open ByteStream TableCodec

variable {P : Platform} {limit : ℕ}

/-! ## Strings and counts -/

theorem decodes_ofExcept {α : Type} (a : α) : Decodes (In.ofExcept (.ok a)) [] a := decodes_pure a

theorem arrayGet_of_getElem? {α : Type} {l : List α} {i : ℕ} {a : α} (h : l[i]? = some a) :
    arrayGet l (i : ℤ) = .ok a := by
  rw [arrayGet, if_pos (Int.natCast_nonneg i), Int.toNat_natCast, h]

theorem codec_putString (s : Option JString) :
    Codec 32768 limit (putString s) (fun _ T => readString T) s := by
  refine codec_intern fun i T hi hT => (decodes_short_of_lt hi).bind_nil ?_
  rw [arrayGet_of_getElem? hT]
  exact decodes_ofExcept s

theorem codec_putStringInt (s : Option JString) :
    Codec 32768 limit (putStringInt s) (fun _ T => readStringInt T) s := by
  refine codec_intern fun i T hi hT => (decodes_int_of_lt (by omega)).bind_nil ?_
  rw [arrayGet_of_getElem? hT]
  exact decodes_ofExcept s

theorem codec_putByte {n : ℕ} (h : n < 128) :
    Codec 32768 limit (putByte n) (fun _ _ => readByte) (n : ℤ) :=
  codec_emit (decodes_byte_of_lt h)

theorem codec_writeShort {n : ℕ} (h : n < 32768) :
    Codec (K := Option JString) 32768 limit (.emit (writeShort n)) (fun _ _ => readShort) (n : ℤ) :=
  codec_emit (decodes_short_of_lt h)

theorem checkCapacity_natCast (n : ℕ) : checkCapacity (n : ℤ) = pure n := by
  rw [checkCapacity, if_neg (by omega), Int.toNat_natCast]

theorem decodes_capacity (n : ℕ) : Decodes (checkCapacity (n : ℤ)) [] n := by
  rw [checkCapacity_natCast]
  exact decodes_pure n

/-! ## Converters -/

/-- What a converter is read as. -/
def Converter.restored : Converter → Option Converter
  | .enumConverter e => if e = [] then none else getEnumInstance e
  | .other c => getInstance c.name
  | .foreign => none

namespace Converter

theorem codec_readEnum (e : JString) :
    Codec 32768 limit (putString (some e)) (fun _ T => readEnum T)
      (restored (.enumConverter e)) := by
  refine codec_intern fun i T hi hT => (decodes_short_of_lt hi).bind_nil ?_
  have hlt : i < T.length := (List.getElem?_eq_some_iff.mp hT).1
  rw [if_pos ⟨Int.natCast_nonneg i, by omega⟩, arrayGet_of_getElem? hT]
  exact (decodes_ofExcept (some e)).bind_nil (decodes_pure _)

/-- A converter is read as what is restored of it. -/
theorem codec (c : Option Converter) :
    Codec 32768 limit (writeBinary c) (fun _ T => readBinary T) (c.bind restored) := by
  rcases c with _ | (e | c | _)
  · exact (codec_emit (decodes_boolean false)).bind_pure fun _ _ => decodes_pure none
  · refine (codec_emit (decodes_boolean true)).append ?_
    refine (codec_putString (some enumConverterName)).append ((codec_readEnum e).congr ?_)
    intro n T
    have hne : enumConverterName ≠ [] := by decide +kernel
    simp only [if_neg hne, if_pos List.prefix_rfl]
  · refine (codec_emit (decodes_boolean true)).append ?_
    refine (codec_putString (some c.name)).bind_pure fun n T => ?_
    simp only [if_neg c.name_ne, if_neg c.not_enum]
    exact decodes_pure _
  · exact (codec_emit (decodes_boolean false)).bind_pure fun _ _ => decodes_pure none

end Converter

/-! ## Parsed values -/

mutual

/-- A value and everything below it. -/
def ParsedValue.nodes : ParsedValue P → List (ParsedValue P)
  | .mk lookup converter value => .mk lookup converter value :: value.nodes

def Value.nodes : Value P → List (ParsedValue P)
  | .value v => v.nodes
  | .valueArray values => entryNodes values
  | .arrayOfValueArray layers => layerNodes layers
  | .color _ | .enum _ | .boolean _ | .size _ _ | .string _ | .url _ | .null => []

def entryNodes : List (Option (ParsedValue P)) → List (ParsedValue P)
  | [] => []
  | none :: rest => entryNodes rest
  | some v :: rest => v.nodes ++ entryNodes rest

def layerNodes : List (Option (List (Option (ParsedValue P)))) → List (ParsedValue P)
  | [] => []
  | none :: rest => layerNodes rest
  | some values :: rest => entryNodes values ++ layerNodes rest

end

mutual

/-- A value with the converters that are restored. -/
def ParsedValue.restored : ParsedValue P → ParsedValue P
  | .mk lookup converter value => .mk lookup (converter.bind Converter.restored) value.restored

def Value.restored : Value P → Value P
  | .value v => .value v.restored
  | .valueArray values => .valueArray (restoredEntries values)
  | .arrayOfValueArray layers => .arrayOfValueArray (restoredLayers layers)
  | .color c => .color c
  | .enum name => .enum name
  | .boolean b => .boolean b
  | .size value units => .size value units
  | .string s => .string s
  | .url spec => .url spec
  | .null => .null

def restoredEntries : List (Option (ParsedValue P)) → List (Option (ParsedValue P))
  | [] => []
  | none :: rest => none :: restoredEntries rest
  | some v :: rest => some v.restored :: restoredEntries rest

def restoredLayers : List (Option (List (Option (ParsedValue P)))) →
    List (Option (List (Option (ParsedValue P))))
  | [] => []
  | none :: rest => none :: restoredLayers rest
  | some values :: rest => some (restoredEntries values) :: restoredLayers rest

end

/-- No enumeration constant, no URL and no empty array; a row may be null. -/
def Value.PlainHead : Value P → Prop
  | .valueArray values => values ≠ []
  | .arrayOfValueArray layers => layers ≠ [] ∧ ∀ row ∈ layers, row ≠ some []
  | .enum _ | .url _ => False
  | .value _ | .color _ | .boolean _ | .size _ _ | .string _ | .null => True

/-- A tree of nested values, arrays, colors, booleans, sizes, strings and null. -/
def ParsedValue.Plain (v : ParsedValue P) : Prop := ∀ u ∈ v.nodes, u.value.PlainHead

theorem Component.codec (c : Component P) :
    Codec 32768 limit c.writeBinary (fun _ _ => Component.readBinary) c := by
  refine codec_emit ((decodes_long _).bind_nil ?_)
  rw [longBitsToDouble_toLongBits, Component.ofDouble, dif_pos c.inRange]
  obtain ⟨val, hfloat, hrange⟩ := c
  have hc : (⟨P.toFloat val, P.toFloat_idem val, P.toFloat_range val hrange⟩ : Component P) =
      ⟨val, hfloat, hrange⟩ := by
    simp only [hfloat]
  dsimp only
  rw [hc]
  exact decodes_ofExcept _

theorem codec_color (c : Color P) :
    Codec 32768 limit (c.red.writeBinary ++ (c.green.writeBinary ++ (c.blue.writeBinary ++
      c.opacity.writeBinary))) (fun _ _ => readColor) c := by
  refine c.red.codec.append (c.green.codec.append (c.blue.codec.append ?_))
  exact c.opacity.codec.bind_pure fun _ _ => decodes_pure _

theorem SizeUnits.valueOf_name (u : SizeUnits) : SizeUnits.valueOf (some (lit u.name)) = u := by
  cases u <;> decide +kernel

/-- Every entry takes a byte. -/
theorem length_le_writeEntries (values : List (Option (ParsedValue P))) :
    ∀ ⦃tab bs tab'⦄, writeEntries values tab = .ok (bs, tab') → values.length ≤ bs.length := by
  induction values with
  | nil =>
      intro tab bs tab' _
      exact Nat.zero_le _
  | cons v values ih =>
      intro tab bs tab' h
      rcases v with _ | v
      · rw [writeEntries] at h
        obtain ⟨bs₁, bs₂, tab₁, h₁, h₂, rfl⟩ := Writer.append_eq_ok h
        cases h₁
        have := ih h₂
        rw [List.length_append, List.length_cons]
        simp only [writeByte, length_bigEndian]
        omega
      · rw [writeEntries] at h
        obtain ⟨bs₁, bs₂, tab₁, h₁, h₂, rfl⟩ := Writer.append_eq_ok h
        obtain ⟨bs₃, bs₄, tab₃, h₃, h₄, rfl⟩ := Writer.append_eq_ok h₁
        cases h₃
        have := ih h₂
        rw [List.length_append, List.length_append, List.length_cons]
        simp only [writeByte, length_bigEndian]
        omega

/-- Every row takes a byte. -/
theorem length_le_writeLayers (layers : List (Option (List (Option (ParsedValue P))))) :
    ∀ ⦃tab bs tab'⦄, writeLayers layers tab = .ok (bs, tab') → layers.length ≤ bs.length := by
  induction layers with
  | nil =>
      intro tab bs tab' _
      exact Nat.zero_le _
  | cons row layers ih =>
      intro tab bs tab' h
      rcases row with _ | row
      · rw [writeLayers] at h
        obtain ⟨bs₁, bs₂, tab₁, h₁, h₂, rfl⟩ := Writer.append_eq_ok h
        obtain ⟨bs₃, bs₄, tab₃, h₃, h₄, rfl⟩ := Writer.append_eq_ok h₁
        cases h₃
        have := ih h₂
        rw [List.length_append, List.length_append, List.length_cons]
        simp only [writeByte, length_bigEndian]
        omega
      · rw [writeLayers] at h
        obtain ⟨bs₁, bs₂, tab₁, h₁, h₂, rfl⟩ := Writer.append_eq_ok h
        obtain ⟨bs₃, bs₄, tab₃, h₃, h₄, rfl⟩ := Writer.append_eq_ok h₁
        cases h₃
        have := ih h₂
        rw [List.length_append, List.length_append, List.length_cons]
        simp only [writeByte, length_bigEndian]
        omega

/-- The marker of version 5. -/
theorem codec_marker {n : ℕ} (h : n < 128) :
    Codec 32768 limit (putByte n) (fun _ _ => readMarker 5) () :=
  codec_emit ((decodes_byte_of_lt h).map fun _ => ())

/-- An array behind its marker and its length. -/
theorem codec_array {read : ℕ → List (Option JString) → In (ParsedValue P)} {n : ℕ} (hn : n < 128)
    {values values' : List (Option (ParsedValue P))}
    (h : Codec 32768 (2 ^ 31) (writeEntries values)
      (fun n T => replicateReader (readEntry (read n T)) values.length) values') :
    Codec 32768 (2 ^ 31) (putByte n ++ (.emit (writeInt values.length) ++ writeEntries values))
      (fun n T => readEntries (read n T) 5) (if values = [] then none else some values') := by
  refine (codec_marker hn).append (Codec.counted (fun hlt => decodes_int_of_lt hlt)
    (length_le_writeEntries values) (h.bind_pure fun m T => ?_))
  by_cases hv : values = []
  · subst hv
    exact decodes_pure _
  · have hpos : ((values.length : ℕ) : ℤ) > 0 := by
      have := List.length_pos_iff.mpr hv
      omega
    rw [if_pos hpos, if_neg hv]
    exact decodes_pure _

mutual

theorem ParsedValue.codec (v : ParsedValue P) (h : ∀ u ∈ v.nodes, u.value.PlainHead) :
    Codec 32768 (2 ^ 31) v.writeBinary (fun n T => ParsedValue.readBinary 5 n T) v.restored := by
  match v, h with
  | .mk lookup converter value, h =>
      have hvalue := Value.codec value
        (fun u hu => h u (by rw [ParsedValue.nodes]; exact List.mem_cons_of_mem _ hu))
        (h (.mk lookup converter value) (by rw [ParsedValue.nodes]; exact List.mem_cons_self ..))
      rw [ParsedValue.writeBinary, ParsedValue.restored]
      refine Codec.descend (List.cons_ne_nil _ _) (decodes_boolean lookup)
        ((Converter.codec converter).append ?_) (fun n T => rfl)
      have hmk := hvalue.bind_pure
        (f := fun _ _ x => pure (ParsedValue.mk lookup (converter.bind Converter.restored) x))
        fun _ _ => decodes_pure _
      exact hmk.congr fun n T => bind_assoc _ _ _

theorem Value.codec (x : Value P) (h : ∀ u ∈ x.nodes, u.value.PlainHead) (hx : x.PlainHead) :
    Codec 32768 (2 ^ 31) x.writeBinary (fun n T => do
      let valType ← readByte
      readValue (ParsedValue.readBinary 5 n T) 5 T valType) x.restored := by
  match x, h, hx with
  | .value v, h, _ =>
      rw [Value.writeBinary, Value.restored]
      exact (codec_putByte (by decide)).append ((ParsedValue.codec v h).map _)
  | .valueArray values, h, hx =>
      rw [Value.writeBinary, Value.restored]
      refine (codec_putByte (by decide)).append ?_
      refine (codec_array (by decide) (entries_codec values h)).bind_pure fun n T => ?_
      rw [if_neg hx]
      exact decodes_pure _
  | .arrayOfValueArray layers, h, hx =>
      rw [Value.writeBinary, Value.restored]
      refine (codec_putByte (by decide)).append ((codec_marker (by decide)).append ?_)
      refine Codec.counted (fun hlt => decodes_int_of_lt hlt) (length_le_writeLayers layers)
        ((layers_codec layers h hx.2).bind_pure fun m T => ?_)
      have hpos : ((layers.length : ℕ) : ℤ) > 0 := by
        have := List.length_pos_iff.mpr hx.1
        omega
      rw [if_pos hpos]
      exact decodes_pure _
  | .color c, _, _ =>
      rw [Value.writeBinary, Value.restored]
      exact (codec_putByte (by decide)).append ((codec_color c).map _)
  | .boolean b, _, _ =>
      rw [Value.writeBinary, Value.restored]
      exact (codec_putByte (by decide)).append ((codec_emit (decodes_boolean b)).map _)
  | .size value units, _, _ =>
      rw [Value.writeBinary, Value.restored]
      refine (codec_putByte (by decide)).append ((codec_emit (decodes_long _)).append ?_)
      refine (codec_putString _).bind_pure fun n T => ?_
      rw [SizeUnits.valueOf_name, longBitsToDouble_toLongBits]
      exact decodes_pure _
  | .string s, _, _ =>
      rw [Value.writeBinary, Value.restored]
      exact (codec_putByte (by decide)).append ((codec_putString (some s)).map Value.ofString)
  | .null, _, _ =>
      rw [Value.writeBinary, Value.restored]
      exact (codec_putByte (by decide)).bind_pure fun _ _ => decodes_pure _
  | .enum _, _, hx => exact hx.elim
  | .url _, _, hx => exact hx.elim

theorem entries_codec (values : List (Option (ParsedValue P)))
    (h : ∀ u ∈ entryNodes values, u.value.PlainHead) :
    Codec 32768 (2 ^ 31) (writeEntries values)
      (fun n T => replicateReader (readEntry (ParsedValue.readBinary 5 n T)) values.length)
      (restoredEntries values) := by
  match values, h with
  | [], _ =>
      rw [writeEntries, restoredEntries]
      exact codec_emit (decodes_pure [])
  | none :: rest, h =>
      rw [writeEntries, restoredEntries]
      refine Codec.cons ?_ (entries_codec rest h)
      exact (codec_putByte (by decide)).bind_pure fun _ _ => decodes_pure none
  | some v :: rest, h =>
      have hv := ParsedValue.codec v
        (fun u hu => h u (by rw [entryNodes]; exact List.mem_append_left _ hu))
      have hrest := entries_codec rest
        (fun u hu => h u (by rw [entryNodes]; exact List.mem_append_right _ hu))
      rw [writeEntries, restoredEntries]
      exact Codec.cons ((codec_putByte (by decide)).append (hv.map some)) hrest

theorem layers_codec (layers : List (Option (List (Option (ParsedValue P)))))
    (h : ∀ u ∈ layerNodes layers, u.value.PlainHead) (hrows : ∀ row ∈ layers, row ≠ some []) :
    Codec 32768 (2 ^ 31) (writeLayers layers)
      (fun n T => replicateReader (readEntries (ParsedValue.readBinary 5 n T) 5) layers.length)
      (restoredLayers layers) := by
  match layers, h, hrows with
  | [], _, _ =>
      rw [writeLayers, restoredLayers]
      exact codec_emit (decodes_pure [])
  | none :: rest, h, hrows =>
      have hrest := layers_codec rest h (fun row hrow => hrows row (List.mem_cons_of_mem _ hrow))
      rw [writeLayers, restoredLayers]
      refine Codec.cons ((codec_marker (by decide)).append ?_) hrest
      refine (codec_emit (decodes_int_of_lt (by decide))).bind_pure fun _ _ => ?_
      exact (decodes_pure []).bind_nil (decodes_pure none)
  | some values :: rest, h, hrows =>
      have hvalues := entries_codec values
        (fun u hu => h u (by rw [layerNodes]; exact List.mem_append_left _ hu))
      have hrest := layers_codec rest
        (fun u hu => h u (by rw [layerNodes]; exact List.mem_append_right _ hu))
        (fun row hrow => hrows row (List.mem_cons_of_mem _ hrow))
      have hrow := codec_array (n := VALUE) (by decide) hvalues
      rw [if_neg (fun hnil => hrows _ (List.mem_cons_self ..) (congrArg some hnil))] at hrow
      rw [writeLayers, restoredLayers]
      exact Codec.cons hrow hrest

end

/-! ### What is lost -/

/-- The converter is read back as itself. -/
def Converter.Restorable (c : Option Converter) : Prop := ∀ x, c = some x → x.restored = some x

theorem Converter.bind_restored_eq_iff {c : Option Converter} :
    c.bind restored = c ↔ Restorable c := by
  cases c with
  | none => exact iff_of_true rfl fun _ h => (nomatch h)
  | some c =>
      constructor
      · intro h x hx
        cases hx
        exact h
      · exact fun h => h c rfl

mutual

/-- A value comes back if all converters in it do. -/
theorem ParsedValue.restored_eq_iff (v : ParsedValue P) :
    v.restored = v ↔ ∀ u ∈ v.nodes, Converter.Restorable u.converter := by
  match v with
  | .mk lookup converter value =>
      rw [ParsedValue.restored, ParsedValue.nodes, List.forall_mem_cons,
        ← Value.restored_eq_iff value, ParsedValue.converter, ← Converter.bind_restored_eq_iff]
      simp

theorem Value.restored_eq_iff (x : Value P) :
    x.restored = x ↔ ∀ u ∈ x.nodes, Converter.Restorable u.converter := by
  match x with
  | .value v =>
      rw [Value.restored, Value.nodes, ← ParsedValue.restored_eq_iff v, Value.value.injEq]
  | .valueArray values =>
      rw [Value.restored, Value.nodes, ← restoredEntries_eq_iff values, Value.valueArray.injEq]
  | .arrayOfValueArray layers =>
      rw [Value.restored, Value.nodes, ← restoredLayers_eq_iff layers,
        Value.arrayOfValueArray.injEq]
  | .color _ | .enum _ | .boolean _ | .size _ _ | .string _ | .url _ | .null =>
      simp [Value.restored, Value.nodes]

theorem restoredEntries_eq_iff (values : List (Option (ParsedValue P))) :
    restoredEntries values = values ↔
      ∀ u ∈ entryNodes values, Converter.Restorable u.converter := by
  match values with
  | [] => simp [restoredEntries, entryNodes]
  | none :: rest =>
      rw [restoredEntries, entryNodes, ← restoredEntries_eq_iff rest]
      simp
  | some v :: rest =>
      rw [restoredEntries, entryNodes, List.forall_mem_append, ← ParsedValue.restored_eq_iff v,
        ← restoredEntries_eq_iff rest]
      simp

theorem restoredLayers_eq_iff (layers : List (Option (List (Option (ParsedValue P))))) :
    restoredLayers layers = layers ↔
      ∀ u ∈ layerNodes layers, Converter.Restorable u.converter := by
  match layers with
  | [] => simp [restoredLayers, layerNodes]
  | none :: rest =>
      rw [restoredLayers, layerNodes, ← restoredLayers_eq_iff rest]
      simp
  | some values :: rest =>
      rw [restoredLayers, layerNodes, List.forall_mem_append, ← restoredEntries_eq_iff values,
        ← restoredLayers_eq_iff rest]
      simp

end

/-! ## Declarations -/

namespace Declaration

def restored (d : Declaration P) : Declaration P := { d with parsedValue := d.parsedValue.restored }

theorem codec (d : Declaration P) (h : d.parsedValue.Plain) :
    Codec 32768 (2 ^ 31) d.writeBinary (fun n T => Declaration.readBinary 5 n T) d.restored := by
  refine (codec_putString (some d.property)).append
    ((ParsedValue.codec d.parsedValue h).append ?_)
  exact (codec_emit (decodes_boolean d.important)).bind_pure fun _ _ => decodes_pure _

theorem restored_eq_iff {d : Declaration P} :
    d.restored = d ↔ ∀ u ∈ d.parsedValue.nodes, Converter.Restorable u.converter := by
  rw [← ParsedValue.restored_eq_iff]
  constructor
  · exact fun h => congrArg parsedValue h
  · intro h
    rw [restored, h]

/-- The value is no image of a style sheet, or a sequence of such. -/
def NoUrl (d : Declaration P) : Prop :=
  ∀ c, d.parsedValue.converter = some (.other c) →
    c.name ≠ urlConverterName ∧ c.name ≠ urlSequenceConverterName

theorem fixUrl_of_noUrl (url : JString) {d : Declaration P} (h : d.NoUrl) :
    d.fixUrl url = .ok d := by
  obtain ⟨property, ⟨lookup, converter, value⟩, important⟩ := d
  rcases converter with _ | (e | c | _)
  · rfl
  · rfl
  · obtain ⟨h₁, h₂⟩ := h c rfl
    simp only [fixUrl, fixUrlValue, if_neg h₁, if_neg h₂]
  · rfl

end Declaration

/-! ## The declarations of a rule -/

theorem switchOn_eq_some {cases : List (String × String)} {s t : JString}
    (h : switchOn cases s = some t) : ∃ c ∈ cases, lit c.1 = s ∧ lit c.2 = t := by
  obtain ⟨c, hc, ht⟩ := Option.map_eq_some_iff.mp h
  have hfrom := List.find?_some hc
  exact ⟨c, List.mem_of_find?_eq_some hc, of_decide_eq_true hfrom, ht⟩

/-- No other class is restored as one of the two that take a URL. -/
theorem Converter.restored_url {c c' : ConverterClass}
    (h : (Converter.other c).restored = some (.other c')) :
    (c'.name = Declaration.urlConverterName → c.name = Declaration.urlConverterName) ∧
      (c'.name = Declaration.urlSequenceConverterName →
        c.name = Declaration.urlSequenceConverterName) := by
  obtain ⟨x, hx, hc'⟩ := Option.map_eq_some_iff.mp h
  obtain ⟨name, hname, hclass⟩ := Option.bind_eq_some_iff.mp hx
  obtain ⟨entry, hmem, hfrom, hto⟩ := switchOn_eq_some hname
  injection hc' with hc'
  subst hc'
  have hname' : x.name = name := by
    unfold ConverterClass.ofName at hclass
    split at hclass
    · cases hclass
      rfl
    · cases hclass
  have htable : ∀ e ∈ converterClasses,
      (e.2 = "com.sun.javafx.css.converters.URLConverter" →
        e.1 = "com.sun.javafx.css.converters.URLConverter") ∧
      (e.2 = "com.sun.javafx.css.converters.URLConverter$SequenceConverter" →
        e.1 = "com.sun.javafx.css.converters.URLConverter$SequenceConverter") := by
    decide +kernel
  obtain ⟨h₁, h₂⟩ := htable entry hmem
  rw [hname', ← hto, ← hfrom]
  exact ⟨fun hu => congrArg lit (h₁ (lit_injective hu)),
    fun hu => congrArg lit (h₂ (lit_injective hu))⟩

theorem Converter.restored_enumConverter {e : JString} {c : ConverterClass} :
    (Converter.enumConverter e).restored ≠ some (.other c) := by
  intro h
  simp only [restored] at h
  split at h
  · cases h
  · obtain ⟨x, -, hx⟩ := Option.map_eq_some_iff.mp h
    cases hx

theorem Declaration.NoUrl.restored {d : Declaration P} (h : d.NoUrl) : d.restored.NoUrl := by
  obtain ⟨property, ⟨lookup, converter, value⟩, important⟩ := d
  intro c' hc'
  have hbind : converter.bind Converter.restored = some (.other c') := hc'
  rcases converter with _ | (e | c | _)
  · cases hbind
  · exact absurd hbind Converter.restored_enumConverter
  · obtain ⟨h₁, h₂⟩ := Converter.restored_url hbind
    obtain ⟨hn₁, hn₂⟩ := h c rfl
    exact ⟨fun hu => hn₁ (h₁ hu), fun hu => hn₂ (h₂ hu)⟩
  · cases hbind

/-- The declaration has a plain value, which the URL of the style sheet leaves alone. -/
def Declaration.Ordinary (url : Option JString) (d : Declaration P) : Prop :=
  d.parsedValue.Plain ∧ (url = none ∨ d.NoUrl)

/-- A declaration in the loop that reads them. -/
def readFixed (url : Option JString) (bssVersion depth : ℕ) (strings : List (Option JString)) :
    In (Declaration P) := do
  let decl ← Declaration.readBinary bssVersion depth strings
  match url with
  | some url => fun s => (decl.fixUrl url).map fun d => (d, s)
  | none => pure decl

theorem codec_readFixed {url : Option JString} {d : Declaration P} (h : d.Ordinary url) :
    Codec 32768 (2 ^ 31) d.writeBinary (fun n T => readFixed url 5 n T) d.restored := by
  refine (d.codec h.1).bind_pure fun n T => ?_
  cases url with
  | none => exact decodes_pure _
  | some url =>
      have hno : d.NoUrl := h.2.resolve_left (fun hn => nomatch hn)
      intro rest
      show (d.restored.fixUrl url).map (fun d => (d, [] ++ rest)) = _
      rw [Declaration.fixUrl_of_noUrl url hno.restored]
      rfl

/-- What a rule with the declarations `ds` returns after it has been read: their number has
been cut to a short. -/
def viewed (ds : List (Declaration P)) : Except StreamExn (Option (List (Declaration P))) :=
  if ds.length % 65536 < 32768 then
    .ok (some ((ds.take (ds.length % 65536)).map Declaration.restored))
  else .error (.runtime (.illegalArgument "Illegal Capacity"))

theorem viewed_eq_iff {ds : List (Declaration P)} :
    viewed ds = .ok (some ds) ↔ ds.length < 32768 ∧ ∀ d ∈ ds, d.restored = d := by
  unfold viewed
  constructor
  · intro h
    split at h
    · next hlt =>
        injection h with h
        injection h with h
        have hlen := congrArg List.length h
        rw [List.length_map, List.length_take] at hlen
        have hle : ds.length ≤ ds.length % 65536 := by
          rw [← hlen]
          exact (Nat.min_le_left _ _).trans (by rw [hlen])
        rw [List.take_of_length_le hle] at h
        exact ⟨by omega, List.map_inj_left.mp (h.trans (List.map_id ds).symm)⟩
    · cases h
  · rintro ⟨hlt, hd⟩
    rw [Nat.mod_eq_of_lt (by omega), if_pos hlt, List.take_length]
    rw [List.map_congr_left hd, List.map_id']

/-- A rule that has been read but not yet asked for its declarations. -/
def Rule.unread (P : Platform) (selectors : List SelectorNames) (bytes : List Byte) : Rule P where
  selectors := some selectors
  declarations := none
  serializedDecls := some bytes

theorem Rule.declarationList_of_ok {url : Option JString} {T : List (Option JString)}
    {selectors : List SelectorNames} {bytes rest : List Byte} {ds : List (Declaration P)}
    (h : readDeclarations url 5 bytes.length T bytes = .ok (ds, rest)) :
    (Rule.unread P selectors bytes).getUnobservedDeclarationList url T = .ok (some ds) := by
  simp only [getUnobservedDeclarationList, unread, h]

theorem Rule.declarationList_of_error {url : Option JString} {T : List (Option JString)}
    {selectors : List SelectorNames} {bytes : List Byte} {e : Exn}
    (h : readDeclarations (P := P) url 5 bytes.length T bytes = .error (.runtime e)) :
    (Rule.unread P selectors bytes).getUnobservedDeclarationList url T = .error (.runtime e) := by
  simp only [getUnobservedDeclarationList, unread, h]

/-- The declarations of a rule are read as they have been written. -/
theorem readDeclarations_eq {url : Option JString} {ds : List (Declaration P)}
    (h : ∀ d ∈ ds, d.Ordinary url) {tab tab' : List (Option JString)} {bs : List Byte}
    (hw : Rule.writeDeclarations ds tab = .ok (bs, tab')) : Grows tab tab' ∧
      ∀ T, bs.length < 2 ^ 31 → tab' <+: T → T.length < 32768 →
        ∀ selectors, (Rule.unread P selectors bs).getUnobservedDeclarationList url T =
          viewed ds := by
  have hall : ∀ ds' : List (Declaration P), (∀ d ∈ ds', d ∈ ds) →
      Codec 32768 (2 ^ 31) (.all Declaration.writeBinary ds')
        (fun n T => replicateReader (readFixed url 5 n T) ds'.length)
        (ds'.map Declaration.restored) :=
    fun ds' hsub => codec_all ds' fun d hd => codec_readFixed (h d (hsub d hd))
  obtain ⟨count, body, tab₁, hcount, hbody, rfl⟩ := Writer.append_eq_ok hw
  cases hcount
  refine ⟨(hall ds (fun _ hd => hd) hbody).1, fun T hlen hT hbound selectors => ?_⟩
  have hshort := decodes_short ds.length
  by_cases hm : ds.length % 65536 < 32768
  · -- as many declarations as the short says, of those that have been written
    have hsigned : toSigned 16 (ds.length % 65536) = ((ds.length % 65536 : ℕ) : ℤ) :=
      toSigned_of_lt hm
    rw [hsigned] at hshort
    have hle : ds.length % 65536 ≤ ds.length := Nat.mod_le _ _
    have hsplit := hbody
    rw [← List.take_append_drop (ds.length % 65536) ds, Writer.all_append] at hsplit
    obtain ⟨front, back, tab₂, hfront, hback, rfl⟩ := Writer.append_eq_ok hsplit
    have hgrows := (hall _ (fun _ hd => List.mem_of_mem_drop hd) hback).1
    have hdecodes := (hall _ (fun _ hd => List.mem_of_mem_take hd) hfront).2
      (writeShort ds.length ++ (front ++ back)).length T
      (by rw [List.length_append, List.length_append]; omega) hlen (hgrows.1.trans hT) hbound
    rw [List.length_take, Nat.min_eq_left hle] at hdecodes
    have hread : Decodes (readDeclarations url 5
        (writeShort ds.length ++ (front ++ back)).length T) (writeShort ds.length ++ front)
        ((ds.take (ds.length % 65536)).map Declaration.restored) := by
      refine hshort.bind ?_
      rw [checkCapacity_natCast, pure_bind]
      exact hdecodes
    rw [Rule.declarationList_of_ok (by rw [← List.append_assoc]; exact hread back), viewed,
      if_pos hm]
  · have hread : readDeclarations (P := P) url 5 (writeShort ds.length ++ body).length T
        (writeShort ds.length ++ body) =
          .error (.runtime (.illegalArgument "Illegal Capacity")) := by
      rw [readDeclarations, hshort.bind_apply, checkCapacity, if_pos (toSigned_short_neg hm)]
      rfl
    rw [Rule.declarationList_of_error hread, viewed, if_neg hm]

end JavaFx.Css
