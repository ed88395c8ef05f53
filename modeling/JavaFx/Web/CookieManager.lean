import JavaFx.Web.CookieStore

/-!
# `CookieManager`

Cookies come from the `Set-Cookie` headers of a response and go back in the `Cookie` header of the
requests they belong to.
-/

namespace JavaFx.Web

open Css (JString lit)
open CookieStore (Query)

/-- What the manager asks of an address. -/
structure URI where
  scheme : Option JString
  host : Option JString
  path : Option JString

namespace CookieManager

variable (p : Platform) (o : Orders)

/-- `s.equalsIgnoreCase(t)` for a `t` that may be null. -/
def isScheme (s : String) (t : Option JString) : Bool :=
  t.any (equalsIgnoreCase p (lit s))

def secureProtocol (uri : URI) : Bool :=
  isScheme p "https" uri.scheme || isScheme p "javascripts" uri.scheme

def httpApi (uri : URI) : Bool := isScheme p "http" uri.scheme || isScheme p "https" uri.scheme

/-- The host of an address, canonicalized; none if it is null or empty. -/
def canonicalHost (uri : URI) : Option JString :=
  match uri.host with
  | none => none
  | some host => if host = [] then none else some (p.toLowerCase host)

/-- The cookies of the header that goes back. -/
def getList (uri : URI) : Method CookieStore (List Stored) :=
  match canonicalHost p uri with
  | none => return []
  | some host =>
      CookieStore.get p o
        { hostname := host, path := uri.path
          secureProtocol := secureProtocol p uri, httpApi := httpApi p uri }

/-- The text of the header. -/
def cookieString (cookieList : List Stored) : JString :=
  List.intercalate (lit "; ") (cookieList.map fun c => c.name ++ lit "=" ++ c.value)

/-- `get(uri)`; null is none. -/
def get (uri : URI) : Method CookieStore (Option JString) := do
  let cookieList ← getList p o uri
  return if cookieString cookieList = [] then none else some (cookieString cookieList)

/-- The domain that is accepted for a host, empty for the host alone; none if the cookie is
ignored. -/
def acceptDomain (host domain : JString) : Option JString :=
  if isPublicSuffix p domain then
    if domain = host then some [] else none
  else if domain ≠ [] ∧ !Cookie.domainMatches host domain then none
  else some domain

/-- The cookie as the store takes it, or none if it is ignored before the store is asked. -/
def accept (uri : URI) (cookie : Cookie (Option JString)) : Option Stored :=
  match canonicalHost p uri with
  | none => none
  | some host =>
      match acceptDomain p host cookie.domain with
      | none => none
      | some domain =>
          if cookie.httpOnly && !httpApi p uri then none
          else
            some { cookie with
              hostOnly := decide (domain = [])
              domain := if domain = [] then host else domain
              path := cookie.path.getD (Cookie.defaultPath uri.path) }

/-- The cookie goes to the store, unless it would overwrite one that only HTTP may see. -/
def overwrite (uri : URI) (cookie : Stored) (oldCookie : Option Stored) : Method CookieStore Unit :=
  match oldCookie with
  | none => CookieStore.put p o cookie
  | some oldCookie =>
      if oldCookie.httpOnly && !httpApi p uri then return ()
      else CookieStore.put p o { cookie with creationTime := oldCookie.creationTime }

/-- `put(uri, cookie)` -/
def putCookie (uri : URI) (cookie : Cookie (Option JString)) : Method CookieStore Unit :=
  match accept p uri cookie with
  | none => return ()
  | some cookie => do
      let oldCookie ← CookieStore.getCookie p cookie
      overwrite p o uri cookie oldCookie

/-- The loop over the values of a header, the last one first. -/
def putValues (uri : URI) : List JString → ExtendedTime → Method CookieStore Unit
  | [], _ => return ()
  | value :: values, currentTime =>
      match Cookie.parse p value currentTime with
      | none => putValues uri values currentTime
      | some cookie => do
          putCookie p o uri cookie
          putValues uri values currentTime.incrementSubtime

/-- The headers of a response, each with its values. -/
abbrev Headers := List (Option JString × List JString)

/-- `put(uri, responseHeaders)` -/
def put (uri : URI) : Headers → Method CookieStore Unit
  | [] => return ()
  | (key, values) :: responseHeaders => do
      if isScheme p "Set-Cookie" key then do
        let s ← Method.this
        set { s with counters := { s.counters with time := s.counters.time + 1 } }
        putValues p o uri values.reverse
          { baseTime := p.currentTimeMillis s.counters.time, subtime := 0 }
      put uri responseHeaders

end CookieManager

end JavaFx.Web
