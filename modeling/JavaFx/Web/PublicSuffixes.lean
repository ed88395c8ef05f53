import JavaFx.Web.Cookie

/-!
# `PublicSuffixes`

The rules of the file stand in one map, under the name without its mark. A later rule for a name
takes the place of an earlier one, whatever their kinds are.
-/

namespace JavaFx.Web

open Css (JString lit)

namespace PublicSuffixes

/-- `\s` -/
def isSpace (c : BitVec 16) : Bool :=
  c = unit ' ' || c = unit '\t' || c = unit '\n' || c = unit '\x0b' || c = unit '\x0c' ||
    c = unit '\r'

/-- `line.split("\\s+", 2)[0]` -/
def firstField (line : JString) : JString := line.takeWhile fun c => !isSpace c

/-- The kind of a rule, and what is left of it without the mark. -/
def markOf (line : JString) : Rule × JString :=
  if (lit "!").isPrefixOf line then (.exception, line.drop 1)
  else if (lit "*.").isPrefixOf line then (.wildcard, line.drop 2)
  else (.simple, line)

/-- What a line puts into the map; `toASCII` is `IDN.toASCII`, which may throw. -/
def parseLine (toASCII : JString → Option JString) (line : JString) : Option (JString × Rule) :=
  let line := firstField line
  if line = [] then none
  else if (lit "//").isPrefixOf line then none
  else
    let (rule, line) := markOf line
    (toASCII line).map fun line => (line, rule)

/-- `result.put(line, rule)` -/
def putRule (rules : JString → Option Rule) (entry : JString × Rule) : JString → Option Rule :=
  Function.update rules entry.1 (some entry.2)

/-- `loadRules(reader)`, for the lines of the reader. -/
def loadRules (toASCII : JString → Option JString) (lines : List JString) :
    JString → Option Rule :=
  (lines.filterMap (parseLine toASCII)).foldl putRule fun _ => none

/-! ## The rules of a file -/

variable (toASCII : JString → Option JString) (lines : List JString)

/-- The kinds of the rules that the file has for a name, in their order. -/
def rulesFor (name : JString) : List Rule :=
  ((lines.filterMap (parseLine toASCII)).filter fun entry => entry.1 = name).map Prod.snd

/-- The file has a rule: a line whose first field is the name behind the mark of the rule. -/
def HasRule (rule : Rule) (name : JString) : Prop :=
  ∃ line ∈ lines, firstField line ≠ [] ∧ (lit "//").isPrefixOf (firstField line) = false ∧
    (markOf (firstField line)).1 = rule ∧ toASCII (markOf (firstField line)).2 = some name

variable {toASCII lines} {name domain : JString} {rule : Rule}

theorem parseLine_eq_some_iff {line : JString} :
    parseLine toASCII line = some (name, rule) ↔ firstField line ≠ [] ∧
      (lit "//").isPrefixOf (firstField line) = false ∧ (markOf (firstField line)).1 = rule ∧
        toASCII (markOf (firstField line)).2 = some name := by
  rw [parseLine]
  simp only []
  split
  next hempty => exact iff_of_false nofun fun h => h.1 hempty
  next hne =>
    split
    next hcomment => exact iff_of_false nofun fun h => by simp [hcomment] at h
    next hrule =>
      rw [Option.map_eq_some_iff]
      constructor
      · rintro ⟨text, htext, heq⟩
        cases heq
        exact ⟨hne, Bool.eq_false_iff.mpr hrule, rfl, htext⟩
      · rintro ⟨-, -, rfl, htext⟩
        exact ⟨name, htext, rfl⟩

theorem mem_rulesFor : rule ∈ rulesFor toASCII lines name ↔ HasRule toASCII lines rule name := by
  rw [rulesFor, List.mem_map]
  constructor
  · rintro ⟨⟨name', rule'⟩, hmem, rfl⟩
    obtain ⟨hentry, hname⟩ := List.mem_filter.mp hmem
    cases of_decide_eq_true hname
    obtain ⟨line, hline, hparse⟩ := List.mem_filterMap.mp hentry
    exact ⟨line, hline, parseLine_eq_some_iff.mp hparse⟩
  · rintro ⟨line, hline, hparse⟩
    refine ⟨(name, rule), List.mem_filter.mpr ⟨?_, decide_eq_true rfl⟩, rfl⟩
    exact List.mem_filterMap.mpr ⟨line, hline, parseLine_eq_some_iff.mpr hparse⟩

/-- **The map** has the last rule of the file for a name. -/
theorem loadRules_eq (name : JString) :
    loadRules toASCII lines name = (rulesFor toASCII lines name).getLast? := by
  rw [loadRules, rulesFor]
  induction lines.filterMap (parseLine toASCII) using List.reverseRecOn with
  | nil => rfl
  | append_singleton entries entry ih =>
      rw [List.foldl_append, List.foldl_cons, List.foldl_nil, putRule, List.filter_append,
        List.map_append]
      by_cases hname : entry.1 = name
      · have hsingle : List.filter (fun e : JString × Rule => e.1 = name) [entry] = [entry] :=
          List.filter_cons_of_pos (decide_eq_true hname)
        rw [hsingle, ← hname, Function.update_self]
        exact List.getLast?_concat.symm
      · have hsingle : List.filter (fun e : JString × Rule => e.1 = name) [entry] = [] :=
          List.filter_cons_of_neg (by simpa using hname)
        rw [hsingle, Function.update_of_ne (Ne.symm hname), List.map_nil, List.append_nil]
        exact ih

theorem hasRule_of_getLast? (h : (rulesFor toASCII lines name).getLast? = some rule) :
    HasRule toASCII lines rule name := mem_rulesFor.mp (List.mem_of_getLast? h)

/-! ## Public suffixes -/

/-- What stands behind the first label of a domain. -/
def parent (domain : JString) : JString := (afterPoint domain).getD []

/-- A domain that the file calls a public suffix. -/
def Suffix (toASCII : JString → Option JString) (lines : List JString) (domain : JString) : Prop :=
  ¬ HasRule toASCII lines .exception domain ∧
    (HasRule toASCII lines .simple domain ∨ HasRule toASCII lines .wildcard domain ∨
      HasRule toASCII lines .wildcard (parent domain))

/-- The rules of the file that are looked at are the last ones for their names: an exception for
the domain, and a wildcard for its parent where there is no rule for the domain itself. -/
structure LastWins (toASCII : JString → Option JString) (lines : List JString) (domain : JString) :
    Prop where
  exception : HasRule toASCII lines .exception domain →
    (rulesFor toASCII lines domain).getLast? = some .exception
  wildcard : (∀ rule, ¬ HasRule toASCII lines rule domain) →
    HasRule toASCII lines .wildcard (parent domain) →
      (rulesFor toASCII lines (parent domain)).getLast? = some .wildcard

/-- **A lookup** answers as the whole file says exactly when the rules it needs are not replaced. -/
theorem isPublicSuffix_iff (p : Platform) (toASCII : JString → Option JString)
    (lines : List JString) {domain : JString} (hdomain : domain ≠ []) :
    (isPublicSuffix { p with rules := loadRules toASCII lines } domain = true ↔
      Suffix toASCII lines domain) ↔ LastWins toASCII lines domain := by
  rw [isPublicSuffix, if_neg hdomain]
  simp only [loadRules_eq]
  cases heq : (rulesFor toASCII lines domain).getLast? with
  | none =>
      have hnone : ∀ rule, ¬ HasRule toASCII lines rule domain := by
        intro rule hrule
        have hmem := mem_rulesFor.mpr hrule
        rw [List.getLast?_eq_none_iff.mp heq] at hmem
        cases hmem
      have hsuffix : Suffix toASCII lines domain ↔
          HasRule toASCII lines .wildcard (parent domain) :=
        ⟨fun h => (h.2.resolve_left (hnone _)).resolve_left (hnone _),
          fun h => ⟨hnone _, Or.inr (Or.inr h)⟩⟩
      rw [hsuffix]
      change (decide ((rulesFor toASCII lines (parent domain)).getLast? = some .wildcard) = true ↔
        _) ↔ _
      rw [decide_eq_true_iff]
      constructor
      · exact fun h => ⟨fun hexception => absurd hexception (hnone _), fun _ => h.mpr⟩
      · exact fun h => ⟨hasRule_of_getLast?, h.wildcard hnone⟩
  | some rule =>
      have hrule : HasRule toASCII lines rule domain := hasRule_of_getLast? heq
      have hwins : LastWins toASCII lines domain ↔
          (HasRule toASCII lines .exception domain → rule = .exception) := by
        constructor
        · exact fun h hexception => Option.some.inj (heq.symm.trans (h.exception hexception))
        · exact fun h => ⟨fun hexception => heq.trans (congrArg some (h hexception)),
            fun hnone => absurd hrule (hnone rule)⟩
      rw [hwins]
      cases rule with
      | exception =>
          have hnot : ¬ Suffix toASCII lines domain := fun h => h.1 hrule
          exact iff_of_true (iff_of_false nofun hnot) fun _ => rfl
      | simple =>
          refine iff_true_left rfl |>.trans ?_
          exact ⟨fun h hexception => absurd hexception h.1,
            fun h => ⟨fun hexception => absurd (h hexception) nofun, Or.inl hrule⟩⟩
      | wildcard =>
          refine iff_true_left rfl |>.trans ?_
          exact ⟨fun h hexception => absurd hexception h.1,
            fun h => ⟨fun hexception => absurd (h hexception) nofun, Or.inr (Or.inl hrule)⟩⟩

/-- A platform for which only the rules matter. -/
def plainPlatform : Platform where
  upper := id
  lower := id
  toLowerCase := id
  parseLong _ := none
  parseDate _ := none
  rules _ := none
  currentTimeMillis _ := 0

/-- With one rule for a name its kind is kept. -/
theorem wildcard_of_one_line :
    (isPublicSuffix { plainPlatform with rules := loadRules some [lit "*.ck"] } (lit "co.ck") =
      true ↔ Suffix some [lit "*.ck"] (lit "co.ck")) :=
  (isPublicSuffix_iff plainPlatform some [lit "*.ck"] (by decide)).mpr
    ⟨fun h => by
      have := mem_rulesFor.mpr h
      revert this
      decide, fun _ _ => by decide⟩

/-- A simple rule behind the wildcard of the same name. -/
theorem wildcard_replaced :
    isPublicSuffix { plainPlatform with rules := loadRules some [lit "*.ck", lit "ck"] }
        (lit "co.ck") = false ∧
      Suffix some [lit "*.ck", lit "ck"] (lit "co.ck") ∧
      isPublicSuffix { plainPlatform with rules := loadRules some [lit "ck", lit "*.ck"] }
        (lit "co.ck") = true := by
  refine ⟨by decide, ⟨fun h => ?_, Or.inr (Or.inr ?_)⟩, by decide⟩
  · have hmem := mem_rulesFor.mpr h
    revert hmem
    decide
  · exact mem_rulesFor.mp (by decide)

end PublicSuffixes

end JavaFx.Web
