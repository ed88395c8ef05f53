import JavaFx.Lib.Buckets
import JavaFx.Method
import JavaFx.Web.Cookie

/-!
# `CookieStore`

The cookies of a domain stand in a bucket, in the order in which they were added. Expired cookies
are removed wherever the store comes across them, and the number of all cookies is kept by hand.
-/

namespace JavaFx.Web

open Css (JString lit)

/-- A cookie in the store has a path. -/
abbrev Stored := Cookie JString

/-! ## One bucket -/

namespace Bucket

def get (bucket : List Stored) (cookie : Stored) : Option Stored :=
  bucket.find? (Cookie.equals · cookie)

def remove (bucket : List Stored) (cookie : Stored) : List Stored :=
  bucket.eraseP (Cookie.equals · cookie)

/-- `bucket.put(cookie, cookie)`: an equal cookie gives its place. -/
def put (bucket : List Stored) (cookie : Stored) : List Stored :=
  if bucket.any (Cookie.equals · cookie) then
    bucket.map fun c => if c.equals cookie then cookie else c
  else bucket ++ [cookie]

end Bucket

/-- The state while the store goes through a bucket. -/
structure Counters where
  totalCount : ℤ := 0
  /-- How often the clock has been read. -/
  time : ℕ := 0
deriving DecidableEq

/-! ## The orders that the runtime decides -/

/-- The sort of `Collections`, which may refuse a comparator that is no order, and the order in
which a `PriorityQueue` gives its elements. -/
structure Orders where
  sort : (Stored → Stored → ℤ) → List Stored → Except Exn (List Stored)
  sort_perm : ∀ compare l l', sort compare l = .ok l' → l'.Perm l
  removals : (Stored → Stored → ℤ) → List Stored → List Stored
  removals_perm : ∀ compare l, (removals compare l).Perm l

/-- Both by a stable sort. -/
def Orders.stable : Orders where
  sort compare l := .ok (l.mergeSort fun c c' => decide (compare c c' ≤ 0))
  sort_perm := by
    rintro compare l l' h
    cases h
    exact List.mergeSort_perm l _
  removals compare l := l.mergeSort fun c c' => decide (compare c c' ≤ 0)
  removals_perm := fun compare l => List.mergeSort_perm l _

structure CookieStore where
  buckets : List (JString × List Stored) := []
  counters : Counters := {}
deriving DecidableEq

namespace CookieStore

variable (p : Platform) (o : Orders)

def MAX_BUCKET_SIZE : ℕ := 50

def TOTAL_COUNT_LOWER_THRESHOLD : ℤ := 3000

def TOTAL_COUNT_UPPER_THRESHOLD : ℤ := 4000

/-- The contents of a bucket that is there, and the counters, after something was done to it. -/
def withBucket (s : CookieStore) (domain : JString) (bucket : List Stored) (n : Counters) :
    CookieStore :=
  { buckets := Buckets.replace s.buckets domain bucket, counters := n }

/-- `get(cookie)` -/
def getCookie (cookie : Stored) : Method CookieStore (Option Stored) := do
  let s ← Method.this
  match Buckets.lookup s.buckets cookie.domain with
  | none => return none
  | some bucket =>
      match Bucket.get bucket cookie with
      | none => return none
      | some storedCookie =>
          let n := { s.counters with time := s.counters.time + 1 }
          if storedCookie.hasExpired p s.counters.time then do
            set (s.withBucket cookie.domain (Bucket.remove bucket storedCookie)
              { n with totalCount := n.totalCount - 1 })
            return none
          else do
            set { s with counters := n }
            return some storedCookie

/-! ## Queries -/

/-- What a query asks for. -/
structure Query where
  hostname : JString
  path : Option JString
  secureProtocol : Bool
  httpApi : Bool

/-- The tests of `find` on a cookie that has not expired. -/
def Query.admits (q : Query) (cookie : Stored) : Bool :=
  if cookie.hostOnly ∧ !equalsIgnoreCase p q.hostname cookie.domain then false
  else if !cookie.hostOnly ∧ !Cookie.domainMatches q.hostname cookie.domain then false
  else if !Cookie.pathMatches q.path cookie.path then false
  else if cookie.secureOnly && !q.secureProtocol then false
  else if cookie.httpOnly && !q.httpApi then false
  else true

/-- What is left of a bucket, the cookies that are found in it, and the counters. -/
structure Found where
  bucket : List Stored := []
  list : List Stored := []
  counters : Counters

/-- `find(list, bucket, ..)` -/
def find (q : Query) : List Stored → Counters → Found
  | [], n => { counters := n }
  | cookie :: rest, n =>
      let n' := { n with time := n.time + 1 }
      if cookie.hasExpired p n.time then find q rest { n' with totalCount := n'.totalCount - 1 }
      else
        let found := find q rest n'
        if q.admits p cookie then
          { found with bucket := cookie :: found.bucket, list := cookie :: found.list }
        else { found with bucket := cookie :: found.bucket }

/-- What stands behind the points of a domain. -/
def parents : JString → List JString
  | [] => []
  | c :: rest =>
      if c = unit '.' ∧ rest ≠ [] then rest :: parents rest
      else parents rest

/-- The domains that the loop of a query goes through. -/
def domains (hostname : JString) : List JString :=
  if hostname = [] then [] else hostname :: parents hostname

/-- One turn of the loop over the domains. -/
def findIn (q : Query) (domain : JString) (s : CookieStore) : CookieStore × List Stored :=
  match Buckets.lookup s.buckets domain with
  | none => (s, [])
  | some bucket =>
      let found := find p q bucket s.counters
      (s.withBucket domain found.bucket found.counters, found.list)

/-- The loop over the domains. -/
def findAll (q : Query) : List JString → CookieStore → CookieStore × List Stored
  | [], s => (s, [])
  | domain :: rest, s =>
      let (s, list) := findIn p q domain s
      let (s, list') := findAll q rest s
      (s, list ++ list')

/-- `GetComparator` -/
def getCompare (c1 c2 : Stored) : ℤ :=
  let d := (c2.path.length : ℤ) - c1.path.length
  if d ≠ 0 then d else c1.creationTime.compareTo c2.creationTime

/-- `setLastAccessTime(currentTime)` on the cookies of the list. -/
def touch (list : List Stored) (currentTime : ℤ) (s : CookieStore) : CookieStore :=
  { s with
    buckets := s.buckets.map fun (domain, bucket) =>
      (domain, bucket.map fun c =>
        if list.any (Cookie.equals · c) then { c with lastAccessTime := currentTime } else c) }

/-- `get(hostname, path, secureProtocol, httpApi)` -/
def get (q : Query) : Method CookieStore (List Stored) := do
  let s ← Method.this
  let (s, list) := findAll p q (domains q.hostname) s
  set s
  let result ← liftM (o.sort getCompare list)
  let currentTime := p.currentTimeMillis s.counters.time
  modify fun s => touch result currentTime
    { s with counters := { s.counters with time := s.counters.time + 1 } }
  return result.map fun c => { c with lastAccessTime := currentTime }

/-! ## Changes -/

/-- What is left of a bucket, and the cookie in it that has been accessed earliest. -/
structure Swept where
  bucket : List Stored := []
  earliestCookie : Option Stored
  counters : Counters

/-- The one of two cookies that has been accessed earlier. -/
def earlier (earliestCookie : Option Stored) (cookie : Stored) : Stored :=
  match earliestCookie with
  | none => cookie
  | some earliest => if cookie.lastAccessTime < earliest.lastAccessTime then cookie else earliest

/-- The loop of `purge(bucket)`. -/
def sweep : List Stored → Option Stored → Counters → Swept
  | [], earliestCookie, n => { earliestCookie := earliestCookie, counters := n }
  | cookie :: rest, earliestCookie, n =>
      let n' := { n with time := n.time + 1 }
      if cookie.hasExpired p n.time then
        sweep rest earliestCookie { n' with totalCount := n'.totalCount - 1 }
      else
        let swept := sweep rest (some (earlier earliestCookie cookie)) n'
        { swept with bucket := cookie :: swept.bucket }

/-- `purge(bucket)` -/
def purgeBucket (bucket : List Stored) (n : Counters) : List Stored × Counters :=
  let swept := sweep p bucket none n
  if MAX_BUCKET_SIZE < swept.bucket.length then
    (swept.earliestCookie.elim swept.bucket (Bucket.remove swept.bucket),
      { swept.counters with totalCount := swept.counters.totalCount - 1 })
  else (swept.bucket, swept.counters)

/-- `if (bucket.size() > MAX_BUCKET_SIZE) purge(bucket)` -/
def limitBucket (bucket : List Stored) (n : Counters) : List Stored × Counters :=
  if MAX_BUCKET_SIZE < bucket.length then purgeBucket p bucket n else (bucket, n)

/-- The loop of `purge()` over the buckets: what is left of them, and the removal queue. -/
def sweepAll : List (JString × List Stored) → Counters →
    List (JString × List Stored) × List Stored × Counters
  | [], n => ([], [], n)
  | (domain, bucket) :: rest, n =>
      let swept := sweep p bucket none n
      let others := sweepAll rest swept.counters
      ((domain, swept.bucket) :: others.1, swept.bucket ++ others.2.1, others.2.2)

/-- `RemovalComparator` -/
def removalCompare (c1 c2 : Stored) : ℤ := toInt (c1.lastAccessTime - c2.lastAccessTime)

/-- The loop of `purge()` that removes the cookies as the queue gives them. -/
def removeExcess : List Stored → Method CookieStore Unit
  | [] => do
      let s ← Method.this
      if TOTAL_COUNT_LOWER_THRESHOLD < s.counters.totalCount then throw .noSuchElement
  | cookie :: removalQueue => do
      let s ← Method.this
      if TOTAL_COUNT_LOWER_THRESHOLD < s.counters.totalCount then do
        match Buckets.lookup s.buckets cookie.domain with
        | none => pure ()
        | some bucket =>
            set (s.withBucket cookie.domain (Bucket.remove bucket cookie)
              { s.counters with totalCount := s.counters.totalCount - 1 })
        removeExcess removalQueue

/-- `purge()` -/
def purge : Method CookieStore Unit := do
  let s ← Method.this
  let (buckets, removalQueue, n) := sweepAll p s.buckets s.counters
  set ({ buckets := buckets, counters := n } : CookieStore)
  removeExcess (o.removals removalCompare removalQueue)

/-- The bucket of a domain, which is made if it is missing. -/
def openBucket (s : CookieStore) (domain : JString) : CookieStore × List Stored :=
  match Buckets.lookup s.buckets domain with
  | none => ({ s with buckets := s.buckets ++ [(domain, [])] }, [])
  | some bucket => (s, bucket)

def put (cookie : Stored) : Method CookieStore Unit := do
  let s ← Method.this
  let (s, bucket) := s.openBucket cookie.domain
  let n := { s.counters with time := s.counters.time + 1 }
  let isOld := bucket.any (Cookie.equals · cookie)
  if cookie.hasExpired p s.counters.time then
    set (s.withBucket cookie.domain (Bucket.remove bucket cookie)
      { n with totalCount := if isOld then n.totalCount - 1 else n.totalCount })
  else if isOld then
    set (s.withBucket cookie.domain (Bucket.put bucket cookie) n)
  else do
    let limited :=
      limitBucket p (Bucket.put bucket cookie) { n with totalCount := n.totalCount + 1 }
    set (s.withBucket cookie.domain limited.1 limited.2)
    if TOTAL_COUNT_UPPER_THRESHOLD < limited.2.totalCount then purge p o

end CookieStore

end JavaFx.Web
