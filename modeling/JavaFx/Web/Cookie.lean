import JavaFx.Animation.TickCalculation
import JavaFx.Css.DataStream
import JavaFx.JavaInt

/-!
# Cookies

What `Cookie.parse` makes of a `Set-Cookie` header, and the comparisons of domains and paths. The
list of public suffixes, the dates, the cases of characters and the clock belong to the platform.
-/

namespace JavaFx.Web

open Animation (maxLong toLong)
open Css (JString lit)

/-! ## The platform -/

/-- A rule of the list of public suffixes. -/
inductive Rule where
  | simple
  | wildcard
  | exception
deriving DecidableEq

structure Platform where
  /-- `Character.toUpperCase` -/
  upper : BitVec 16 → BitVec 16
  /-- `Character.toLowerCase` -/
  lower : BitVec 16 → BitVec 16
  /-- `String.toLowerCase` -/
  toLowerCase : JString → JString
  /-- `Long.parseLong` -/
  parseLong : JString → Option ℤ
  /-- `DateParser.parse` -/
  parseDate : JString → Option ℤ
  /-- `PublicSuffixes.RULES` -/
  rules : JString → Option Rule
  /-- The readings of the clock, in their order. -/
  currentTimeMillis : ℕ → ℤ

section Strings

/-- A character of the source. -/
def unit (c : Char) : BitVec 16 := BitVec.ofNat 16 c.toNat

/-- `s.trim()` -/
def trim (s : JString) : JString :=
  ((s.dropWhile (· ≤ unit ' ')).reverse.dropWhile (· ≤ unit ' ')).reverse

/-- `s.split("=", 2)`: what stands before the first `=`, and what behind it. -/
def splitPair (s : JString) : JString × Option JString :=
  (s.takeWhile (· ≠ unit '='), (s.dropWhile (· ≠ unit '=')).tail?)

/-- `s.equalsIgnoreCase(t)` -/
def equalsIgnoreCase (p : Platform) (s t : JString) : Bool :=
  s.length = t.length && (s.zip t).all fun (c, d) =>
    c = d || p.upper c = p.upper d || p.lower (p.upper c) = p.lower (p.upper d)

/-- The text behind the first point, if there is one. -/
def afterPoint (s : JString) : Option JString := (s.dropWhile (· ≠ unit '.')).tail?

end Strings

/-! ## Times -/

structure ExtendedTime where
  baseTime : ℤ
  subtime : ℤ
deriving DecidableEq

namespace ExtendedTime

def incrementSubtime (t : ExtendedTime) : ExtendedTime :=
  { t with subtime := toInt (t.subtime + 1) }

def compareTo (this other : ExtendedTime) : ℤ :=
  let d := toInt (this.baseTime - other.baseTime)
  if d ≠ 0 then d else toInt (this.subtime - other.subtime)

end ExtendedTime

/-! ## Cookies -/

/-- A cookie. The path of a cookie that has just been parsed may be missing. -/
structure Cookie (Path : Type) where
  name : JString
  value : JString
  expiryTime : ℤ
  domain : JString
  path : Path
  creationTime : ExtendedTime
  lastAccessTime : ℤ
  persistent : Bool
  hostOnly : Bool
  secureOnly : Bool
  httpOnly : Bool
deriving DecidableEq

namespace Cookie

variable (p : Platform)

def parseExpires (attributeValue : JString) : Option ℤ :=
  (p.parseDate attributeValue).map (max · 0)

def parseMaxAge (attributeValue : JString) (currentTime : ℤ) : Option ℤ :=
  (p.parseLong attributeValue).map fun maxAge =>
    if maxAge ≤ 0 then 0
    else if (toLong (maxLong - currentTime)).tdiv 1000 < maxAge then maxLong
    else toLong (currentTime + maxAge * 1000)

def parseDomain (attributeValue : JString) : Option JString :=
  match attributeValue with
  | [] => none
  | c :: rest => some (p.toLowerCase (if c = unit '.' then rest else c :: rest))

def parsePath (attributeValue : JString) : Option JString :=
  if attributeValue.head? = some (unit '/') then some attributeValue else none

/-- The attributes read so far. -/
structure Attributes where
  expires : Option ℤ := none
  maxAge : Option ℤ := none
  domain : Option JString := none
  path : Option JString := none
  secure : Bool := false
  httpOnly : Bool := false

/-- One turn of the loop over the attributes; one that does not parse is ignored. -/
def Attributes.item (currentTime : ExtendedTime) (a : Attributes) (item : JString) : Attributes :=
  let terms := splitPair item
  let attrName := trim terms.1
  let attrValue := trim (terms.2.getD [])
  if equalsIgnoreCase p (lit "Expires") attrName then
    { a with expires := (parseExpires p attrValue).orElse fun _ => a.expires }
  else if equalsIgnoreCase p (lit "Max-Age") attrName then
    { a with
      maxAge := (parseMaxAge p attrValue currentTime.baseTime).orElse fun _ => a.maxAge }
  else if equalsIgnoreCase p (lit "Domain") attrName then
    { a with domain := (parseDomain p attrValue).orElse fun _ => a.domain }
  else if equalsIgnoreCase p (lit "Path") attrName then { a with path := parsePath attrValue }
  else if equalsIgnoreCase p (lit "Secure") attrName then { a with secure := true }
  else if equalsIgnoreCase p (lit "HttpOnly") attrName then { a with httpOnly := true }
  else a

def parse (setCookieString : JString) (currentTime : ExtendedTime) :
    Option (Cookie (Option JString)) :=
  let items := setCookieString.splitOn (unit ';')
  let nameValuePair := splitPair (items.headD [])
  match nameValuePair.2 with
  | none => none
  | some value =>
      let name := trim nameValuePair.1
      if name = [] then none
      else
        let a := items.tail.foldl (Attributes.item p currentTime) {}
        some {
          name := name
          value := trim value
          expiryTime := (a.maxAge.orElse fun _ => a.expires).getD maxLong
          domain := a.domain.getD []
          path := a.path
          creationTime := currentTime
          lastAccessTime := currentTime.baseTime
          persistent := (a.maxAge.orElse fun _ => a.expires).isSome
          hostOnly := false
          secureOnly := a.secure
          httpOnly := a.httpOnly }

/-- `hasExpired()`, with the clock read for the `time`-th time. -/
def hasExpired {Path : Type} (cookie : Cookie Path) (time : ℕ) : Bool :=
  cookie.expiryTime < p.currentTimeMillis time

/-- `equals` -/
def equals (c c' : Cookie JString) : Bool :=
  c.name = c'.name && c.domain = c'.domain && c.path = c'.path

/-- A decimal digit, as `\d` has it. -/
def isDigit (c : BitVec 16) : Bool := unit '0' ≤ c && c ≤ unit '9'

/-- `Integer.parseInt` of a group of digits. -/
def parseGroup (s : JString) : ℕ := s.foldl (fun n c => 10 * n + (c.toNat - (unit '0').toNat)) 0

def isIpAddress (hostname : JString) : Bool :=
  let groups := hostname.splitOn (unit '.')
  groups.length = 4 && groups.all fun s =>
    s.all isDigit && 1 ≤ s.length && s.length ≤ 3 && parseGroup s ≤ 255

def domainMatches (domain cookieDomain : JString) : Bool :=
  cookieDomain.isSuffixOf domain && (domain.length = cookieDomain.length ||
    (domain[domain.length - cookieDomain.length - 1]? = some (unit '.') && !isIpAddress domain))

/-- `defaultPath(uri)` for the path of the address. -/
def defaultPath (path : Option JString) : JString :=
  match path with
  | some (c :: rest) =>
      if c = unit '/' then
        let path := ((c :: rest).reverse.dropWhile (· ≠ unit '/')).tail.reverse
        if path = [] then [unit '/'] else path
      else [unit '/']
  | _ => [unit '/']

def pathMatches (path : Option JString) (cookiePath : JString) : Bool :=
  match path with
  | none => false
  | some path => cookiePath.isPrefixOf path && (path.length = cookiePath.length ||
      cookiePath.getLast? = some (unit '/') || path[cookiePath.length]? = some (unit '/'))

end Cookie

/-- `PublicSuffixes.isPublicSuffix(domain)` -/
def isPublicSuffix (p : Platform) (domain : JString) : Bool :=
  if domain = [] then false
  else
    match p.rules domain with
    | some .exception => false
    | some .simple => true
    | some .wildcard => true
    | none => p.rules ((afterPoint domain).getD []) = some .wildcard

end JavaFx.Web
