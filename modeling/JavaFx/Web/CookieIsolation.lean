import JavaFx.Web.CookieManager
import JavaFx.Web.StoreCounts

/-!
# Cookie isolation

Every cookie in the store comes from the header of a response, with the domain that the manager
has accepted for the host of the response. So what a query finds belongs to both hosts. A response
that does not come through HTTP leaves the cookies alone that only HTTP may see; but it fills
buckets, and a full bucket loses its oldest cookie.
-/

namespace JavaFx.Web

open Css (JString lit)
open CookieStore CookieManager

/-! ## What is promised -/

/-- The host is the domain, or lies in it and is not an address. -/
def InDomain (host domain : JString) : Prop :=
  host = domain ∨ (unit '.' :: domain <:+ host ∧ Cookie.isIpAddress host = false)

/-- The cookie was set by a header of the response, but for its times. -/
def SetBy (p : Platform) (uri : URI) (headers : Headers) (c : Stored) : Prop :=
  ∃ key values value, (key, values) ∈ headers ∧ isScheme p "Set-Cookie" key = true ∧
    value ∈ values ∧ ∃ currentTime parsed stored, Cookie.parse p value currentTime = some parsed ∧
      accept p uri parsed = some stored ∧
      c = { stored with creationTime := c.creationTime, lastAccessTime := c.lastAccessTime }

/-- A call of the manager. -/
inductive ManagerCall where
  | put (uri : URI) (headers : Headers)
  | get (uri : URI)

/-- What is left of the store after a call, whether it returns or throws. -/
def ManagerCall.run (p : Platform) (o : Orders) (s : CookieStore) : ManagerCall → CookieStore
  | .put uri headers => ((CookieManager.put p o uri headers).run s).2
  | .get uri => ((CookieManager.get p o uri).run s).2

/-- **A cookie that goes to the address.** -/
structure Isolated (p : Platform) (calls : List ManagerCall) (uri : URI) (c : Stored) : Prop where
  origin : ∃ uri' headers h h', ManagerCall.put uri' headers ∈ calls ∧ SetBy p uri' headers c ∧
    canonicalHost p uri' = some h ∧ canonicalHost p uri = some h' ∧
    ((c.hostOnly = true ∧ h = h') ∨
      (isPublicSuffix p c.domain = false ∧ InDomain h c.domain ∧ InDomain h' c.domain))
  secure : c.secureOnly = true → secureProtocol p uri = true
  http : c.httpOnly = true → httpApi p uri = true

/-! ## Domains -/

theorem limitBucket_subset {p : Platform} {bucket : List Stored} {n : Counters} :
    (limitBucket p bucket n).1 ⊆ bucket := by
  unfold limitBucket purgeBucket
  dsimp only
  have hsub := (sweep_spec (p := p) bucket none n).1
  split_ifs
  · cases (sweep p bucket none n).earliestCookie with
    | none => exact hsub.subset
    | some c => exact ((Bucket.remove_sublist _ _).trans hsub).subset
  · exact hsub.subset
  · exact List.Subset.refl _

/-- Every cookie in the store is one of `P`. -/
def Holds (P : Stored → Prop) (s : CookieStore) : Prop := ∀ b ∈ s.buckets, ∀ c ∈ b.2, P c

/-- `P` does not look at the times. -/
def Timeless (P : Stored → Prop) : Prop :=
  ∀ c creationTime lastAccessTime, P c →
    P { c with creationTime := creationTime, lastAccessTime := lastAccessTime }

namespace Holds

variable {p : Platform} {o : Orders} {P : Stored → Prop} {s : CookieStore} {domain : JString}
  {bucket : List Stored}

theorem lookup (h : Holds P s) (hb : Buckets.lookup s.buckets domain = some bucket) :
    ∀ c ∈ bucket, P c := h _ (Buckets.mem_of_lookup hb)

theorem withBucket (h : Holds P s) (hbucket : ∀ c ∈ bucket, P c) (n : Counters) :
    Holds P (s.withBucket domain bucket n) := by
  intro b hb
  rcases Buckets.mem_replace hb with hb | rfl
  · exact h b hb
  · exact hbucket

theorem findIn (h : Holds P s) (q : Query) (domain : JString) :
    Holds P (CookieStore.findIn p q domain s).1 := by
  rw [CookieStore.findIn]
  split
  · exact h
  · rename_i bucket hb
    exact h.withBucket (fun c hc => h.lookup hb c ((find_spec q bucket _).1.subset hc)) _

theorem findAll (q : Query) (domains : List JString) (h : Holds P s) :
    Holds P (CookieStore.findAll p q domains s).1 := by
  induction domains generalizing s with
  | nil => exact h
  | cons domain rest ih => exact ih (h.findIn q domain)

theorem touch (hP : Timeless P) (h : Holds P s) (list : List Stored) (currentTime : ℤ) :
    Holds P (CookieStore.touch list currentTime s) := by
  intro b hb c hc
  obtain ⟨b', hb', rfl⟩ := List.mem_map.mp hb
  obtain ⟨c', hc', rfl⟩ := List.mem_map.mp hc
  split_ifs
  · exact hP c' _ _ (h b' hb' c' hc')
  · exact h b' hb' c' hc'

theorem getCookie (h : Holds P s) (cookie : Stored) :
    Holds P ((CookieStore.getCookie p cookie).run s).2 := by
  rw [CookieStore.getCookie, Method.run_this_bind]
  cases hb : Buckets.lookup s.buckets cookie.domain with
  | none => exact h
  | some bucket =>
      dsimp only
      cases Bucket.get bucket cookie with
      | none => exact h
      | some storedCookie =>
          dsimp only
          split_ifs
          · exact h.withBucket
              (fun c hc => h.lookup hb c ((Bucket.remove_sublist _ _).subset hc)) _
          · exact h

theorem get (hP : Timeless P) (h : Holds P s) (q : Query) :
    Holds P ((CookieStore.get p o q).run s).2 := by
  have hfound := h.findAll (p := p) q (domains q.hostname)
  cases hsort : o.sort getCompare (CookieStore.findAll p q (domains q.hostname) s).2 with
  | error e =>
      rw [run_get_error hsort]
      exact hfound
  | ok result =>
      obtain ⟨n, currentTime, -, hrun⟩ := run_get_ok hsort
      rw [hrun]
      exact touch hP (fun b hb => hfound b hb) result currentTime

theorem removeExcess (removalQueue : List Stored) (h : Holds P s) :
    Holds P ((CookieStore.removeExcess removalQueue).run s).2 := by
  induction removalQueue generalizing s with
  | nil =>
      rw [CookieStore.removeExcess, Method.run_this_bind]
      split_ifs
      · exact h
      · exact h
  | cons cookie rest ih =>
      rw [CookieStore.removeExcess, Method.run_this_bind]
      split_ifs
      · cases hb : Buckets.lookup s.buckets cookie.domain with
        | none => exact ih h
        | some bucket =>
            refine ih (s := s.withBucket _ _ _) (h.withBucket (fun c hc => ?_) _)
            exact h.lookup hb c ((Bucket.remove_sublist _ _).subset hc)
      · exact h

theorem purge (h : Holds P s) : Holds P ((CookieStore.purge p o).run s).2 := by
  rw [CookieStore.purge, Method.run_this_bind]
  dsimp only
  rw [Method.run_set_bind]
  refine removeExcess _ fun b hb c hc => ?_
  obtain ⟨b', hb', -, hsub⟩ := (sweepAll_spec (p := p) s.buckets s.counters).2.1 b hb
  exact h b' hb' c (hsub.subset hc)

theorem openBucket (h : Holds P s) (domain : JString) :
    Holds P (s.openBucket domain).1 ∧ ∀ c ∈ (s.openBucket domain).2, P c := by
  rw [CookieStore.openBucket]
  split
  · refine ⟨fun b hb => ?_, fun c hc => absurd hc List.not_mem_nil⟩
    rcases List.mem_append.mp hb with hb | hb
    · exact h b hb
    · obtain rfl := List.mem_singleton.mp hb
      exact fun c hc => absurd hc List.not_mem_nil
  · rename_i bucket hb
    exact ⟨h, h.lookup hb⟩

theorem put {cookie : Stored} (h : Holds P s) (hcookie : P cookie) :
    Holds P ((CookieStore.put p o cookie).run s).2 := by
  obtain ⟨hopen, hbucket⟩ := h.openBucket cookie.domain
  have hput : ∀ c ∈ Bucket.put (s.openBucket cookie.domain).2 cookie, P c := by
    intro c hc
    unfold Bucket.put at hc
    split_ifs at hc
    · obtain ⟨c', hc', rfl⟩ := List.mem_map.mp hc
      split_ifs
      · exact hcookie
      · exact hbucket c' hc'
    · rcases List.mem_append.mp hc with hc | hc
      · exact hbucket c hc
      · exact List.mem_singleton.mp hc ▸ hcookie
  rw [CookieStore.put, Method.run_this_bind]
  dsimp only
  have hremoved : ∀ c ∈ Bucket.remove (s.openBucket cookie.domain).2 cookie, P c :=
    fun c hc => hbucket c ((Bucket.remove_sublist _ _).subset hc)
  have hlimited : ∀ n, ∀ c ∈ (limitBucket p (Bucket.put (s.openBucket cookie.domain).2 cookie) n).1,
      P c := fun n c hc => hput c (limitBucket_subset hc)
  split_ifs
  · exact hopen.withBucket hremoved _
  · exact hopen.withBucket hremoved _
  · exact hopen.withBucket hput _
  · rw [Method.run_set_bind]
    exact (hopen.withBucket (hlimited _) _).purge
  · exact hopen.withBucket (hlimited _) _

end Holds

/-! ## What a query finds -/

section Found

variable {p : Platform} {o : Orders} {P : Stored → Prop} {s : CookieStore} {q : Query} {c : Stored}

end Found

/-! ## Runs of the manager -/

/-- The books are right, and all cookies are of `P`. -/
structure Kept (P : Stored → Prop) (s : CookieStore) : Prop where
  within : Within TOTAL_COUNT_UPPER_THRESHOLD s
  holds : Holds P s

section Manager

variable {p : Platform} {o : Orders} {P : Stored → Prop}

theorem Kept.getCookie (cookie : Stored) : Method.Keeps (Kept P) (CookieStore.getCookie p cookie) :=
  fun s h => ⟨keeps_getCookie _ cookie s h.within, h.holds.getCookie cookie⟩

theorem Kept.put {cookie : Stored} (hcookie : P cookie) :
    Method.Keeps (Kept P) (CookieStore.put p o cookie) := by
  intro s h
  obtain ⟨s', hrun, hs'⟩ := put_spec (p := p) (o := o) cookie h.within
  refine ⟨?_, h.holds.put hcookie⟩
  rw [hrun]
  exact hs'

theorem Kept.getList (hP : Timeless P) (uri : URI) :
    Method.Keeps (Kept P) (CookieManager.getList p o uri) := by
  unfold CookieManager.getList
  cases canonicalHost p uri with
  | none => exact Method.Keeps.pure _
  | some host => exact fun s h => ⟨keeps_get _ _ s h.within, h.holds.get hP _⟩

theorem Kept.putCookie {uri : URI} {cookie : Cookie (Option JString)} (hP : Timeless P)
    (hcookie : ∀ stored, accept p uri cookie = some stored → P stored) :
    Method.Keeps (Kept P) (CookieManager.putCookie p o uri cookie) := by
  unfold CookieManager.putCookie
  cases haccept : accept p uri cookie with
  | none => exact Method.Keeps.pure _
  | some stored =>
      have hstored := hcookie stored haccept
      refine Method.Keeps.bind (Kept.getCookie stored) fun oldCookie => ?_
      cases oldCookie with
      | none => exact Kept.put hstored
      | some oldCookie =>
          exact Method.Keeps.ite (Method.Keeps.pure _) (Kept.put (hP _ _ stored.lastAccessTime hstored))

theorem Kept.putValues {uri : URI} (hP : Timeless P) (values : List JString)
    (currentTime : ExtendedTime)
    (hvalues : ∀ value ∈ values, ∀ currentTime parsed stored,
      Cookie.parse p value currentTime = some parsed → accept p uri parsed = some stored →
      P stored) : Method.Keeps (Kept P) (CookieManager.putValues p o uri values currentTime) := by
  induction values generalizing currentTime with
  | nil => exact Method.Keeps.pure _
  | cons value values ih =>
      have hrest := fun t => ih t fun v hv => hvalues v (List.mem_cons_of_mem _ hv)
      unfold CookieManager.putValues
      cases hparse : Cookie.parse p value currentTime with
      | none => exact hrest _
      | some cookie =>
          refine Method.Keeps.bind (Kept.putCookie hP ?_) fun _ => hrest _
          exact fun stored => hvalues value List.mem_cons_self _ _ stored hparse

theorem Kept.putHeaders {uri : URI} (hP : Timeless P) (headers : Headers)
    (hheaders : ∀ c, SetBy p uri headers c → P c) :
    Method.Keeps (Kept P) (CookieManager.put p o uri headers) := by
  induction headers with
  | nil => exact Method.Keeps.pure _
  | cons e headers ih =>
      obtain ⟨key, values⟩ := e
      have hrest := ih fun c => by
        rintro ⟨key', values', value, hmem, hset⟩
        exact hheaders c ⟨key', values', value, List.mem_cons_of_mem _ hmem, hset⟩
      unfold CookieManager.put
      by_cases hkey : isScheme p "Set-Cookie" key = true
      · rw [if_pos hkey]
        intro s h
        rw [Method.run_this_bind, Method.run_set_bind]
        refine Method.Keeps.bind (Kept.putValues hP _ _ ?_) (fun _ => hrest) _
          ⟨⟨h.within.shelved.withCounters rfl, h.within.le⟩, h.holds⟩
        intro value hvalue currentTime parsed stored hparse haccept
        exact hheaders stored ⟨key, values, value, List.mem_cons_self, hkey,
          List.mem_reverse.mp hvalue, currentTime, parsed, stored, hparse, haccept, rfl⟩
      · rw [if_neg hkey]
        exact hrest

end Manager

/-! ## Time goes on -/

/-- The clock has been read `time` times. -/
def Since (time : ℕ) (s : CookieStore) : Prop := time ≤ s.counters.time

section Time

variable {p : Platform} {o : Orders} {time : ℕ}

theorem sweep_time (bucket : List Stored) (earliest : Option Stored) (n : Counters) :
    (sweep p bucket earliest n).counters.time = n.time + bucket.length := by
  induction bucket generalizing earliest n with
  | nil => rfl
  | cons cookie rest ih =>
      rw [sweep, List.length_cons]
      dsimp only
      split_ifs
      · rw [ih]
        dsimp only
        omega
      · rw [ih]
        dsimp only
        omega

theorem limitBucket_time (bucket : List Stored) (n : Counters) :
    n.time ≤ (limitBucket p bucket n).2.time := by
  have hsweep := sweep_time (p := p) bucket none n
  unfold limitBucket purgeBucket
  dsimp only
  split_ifs
  · dsimp only
    omega
  · dsimp only
    omega
  · exact le_rfl

theorem sweepAll_time (bs : List (JString × List Stored)) (n : Counters) :
    n.time ≤ (sweepAll p bs n).2.2.time := by
  induction bs generalizing n with
  | nil => exact le_rfl
  | cons e bs ih =>
      have hsweep := sweep_time (p := p) e.2 none n
      exact (show n.time ≤ (sweep p e.2 none n).counters.time by omega).trans (ih _)

theorem Since.removeExcess (removalQueue : List Stored) :
    Method.Keeps (Since time) (CookieStore.removeExcess removalQueue) := by
  induction removalQueue with
  | nil =>
      intro s h
      rw [CookieStore.removeExcess, Method.run_this_bind]
      split_ifs
      · exact h
      · exact h
  | cons cookie rest ih =>
      intro s h
      rw [CookieStore.removeExcess, Method.run_this_bind]
      split_ifs
      · cases Buckets.lookup s.buckets cookie.domain with
        | none => exact ih s h
        | some bucket => exact ih _ h
      · exact h

theorem Since.put (cookie : Stored) :
    Method.Keeps (Since time) (CookieStore.put p o cookie) := by
  intro s h
  have hopen : Since time (s.openBucket cookie.domain).1 := by
    unfold openBucket
    split
    · exact h
    · exact h
  have hlater : time ≤ (s.openBucket cookie.domain).1.counters.time + 1 := Nat.le_succ_of_le hopen
  have hlimited := hlater.trans (limitBucket_time (p := p)
    (Bucket.put (s.openBucket cookie.domain).2 cookie)
    ⟨(s.openBucket cookie.domain).1.counters.totalCount + 1,
      (s.openBucket cookie.domain).1.counters.time + 1⟩)
  rw [CookieStore.put, Method.run_this_bind]
  dsimp only
  split_ifs
  · exact hlater
  · exact hlater
  · exact hlater
  · rw [Method.run_set_bind, CookieStore.purge, Method.run_this_bind]
    dsimp only
    rw [Method.run_set_bind]
    exact Since.removeExcess _ _ (hlimited.trans (sweepAll_time _ _))
  · exact hlimited

theorem Since.getCookie (cookie : Stored) :
    Method.Keeps (Since time) (CookieStore.getCookie p cookie) := by
  intro s h
  rw [CookieStore.getCookie, Method.run_this_bind]
  cases Buckets.lookup s.buckets cookie.domain with
  | none => exact h
  | some bucket =>
      dsimp only
      cases Bucket.get bucket cookie with
      | none => exact h
      | some storedCookie =>
          dsimp only
          split_ifs
          · exact Nat.le_succ_of_le h
          · exact Nat.le_succ_of_le h

theorem Since.overwrite (uri : URI) (cookie : Stored) (oldCookie : Option Stored) :
    Method.Keeps (Since time) (CookieManager.overwrite p o uri cookie oldCookie) := by
  unfold CookieManager.overwrite
  cases oldCookie with
  | none => exact Since.put cookie
  | some oldCookie => exact Method.Keeps.ite (Method.Keeps.pure _) (Since.put _)

theorem Since.putCookie (uri : URI) (cookie : Cookie (Option JString)) :
    Method.Keeps (Since time) (CookieManager.putCookie p o uri cookie) := by
  unfold CookieManager.putCookie
  cases accept p uri cookie with
  | none => exact Method.Keeps.pure _
  | some stored =>
      exact Method.Keeps.bind (Since.getCookie stored) fun oldCookie => Since.overwrite uri _ oldCookie

theorem Since.putValues (uri : URI) (values : List JString) (currentTime : ExtendedTime) :
    Method.Keeps (Since time) (CookieManager.putValues p o uri values currentTime) := by
  induction values generalizing currentTime with
  | nil => exact Method.Keeps.pure _
  | cons value values ih =>
      unfold CookieManager.putValues
      cases Cookie.parse p value currentTime with
      | none => exact ih _
      | some cookie => exact Method.Keeps.bind (Since.putCookie uri cookie) fun _ => ih _

theorem Since.putHeaders (uri : URI) (headers : Headers) :
    Method.Keeps (Since time) (CookieManager.put p o uri headers) := by
  induction headers with
  | nil => exact Method.Keeps.pure _
  | cons e headers ih =>
      unfold CookieManager.put
      dsimp only
      split_ifs
      · intro s h
        exact Method.Keeps.bind (Since.putValues uri _ _) (fun _ => ih) _ (Nat.le_succ_of_le h)
      · exact ih

end Time

/-! ## Cookies that only HTTP may see -/

/-- The cookie is in the bucket of its domain. -/
def Has (s : CookieStore) (c : Stored) : Prop :=
  ∃ bucket, Buckets.lookup s.buckets c.domain = some bucket ∧ c ∈ bucket

/-- There is no room for another cookie beside this one. -/
def Full (s : CookieStore) (c : Stored) : Prop :=
  (∃ bucket, Buckets.lookup s.buckets c.domain = some bucket ∧ MAX_BUCKET_SIZE ≤ bucket.length) ∨
    TOTAL_COUNT_UPPER_THRESHOLD ≤ s.counters.totalCount

/-- The cookie has not expired at the readings of the clock from `a` until `b`. -/
def Fresh (p : Platform) (c : Stored) (a b : ℕ) : Prop :=
  ∀ t, a ≤ t → t < b → c.hasExpired p t = false

section HttpOnly

variable {p : Platform} {o : Orders} {s : CookieStore} {c cookie : Stored}

theorem Has.withBucket {domain : JString} {bucket bucket' : List Stored} {n : Counters}
    (h : Has s c) (hb : Buckets.lookup s.buckets domain = some bucket)
    (hkeep : domain = c.domain → c ∈ bucket → c ∈ bucket') :
    Has (s.withBucket domain bucket' n) c := by
  obtain ⟨b, hlookup, hmem⟩ := h
  by_cases hdomain : domain = c.domain
  · subst hdomain
    rw [hb, Option.some_inj] at hlookup
    subst hlookup
    exact ⟨bucket', Buckets.lookup_replace_self hb bucket', hkeep rfl hmem⟩
  · exact ⟨b, (Buckets.lookup_replace_of_ne (Ne.symm hdomain) bucket').trans hlookup, hmem⟩

theorem mem_remove_of_ne {bucket : List Stored} (hne : c.key ≠ cookie.key) (h : c ∈ bucket) :
    c ∈ Bucket.remove bucket cookie := by
  refine (List.mem_eraseP_of_neg ?_).mpr h
  rw [Bool.not_eq_true, Cookie.equals_false_iff]
  exact hne

theorem mem_put_of_ne {bucket : List Stored} (hne : c.key ≠ cookie.key) (h : c ∈ bucket) :
    c ∈ Bucket.put bucket cookie := by
  unfold Bucket.put
  split_ifs
  · refine List.mem_map.mpr ⟨c, h, if_neg ?_⟩
    rw [Cookie.equals_iff]
    exact hne
  · exact List.mem_append_left _ h

theorem Full.of_withBucket {domain : JString} {bucket bucket' : List Stored} {n : Counters}
    (hb : Buckets.lookup s.buckets domain = some bucket) (hle : bucket'.length ≤ bucket.length)
    (hcount : n.totalCount ≤ s.counters.totalCount) (h : Full (s.withBucket domain bucket' n) c) :
    Full s c := by
  rcases h with ⟨b, hlookup, hsize⟩ | hcount'
  · left
    by_cases hdomain : domain = c.domain
    · subst hdomain
      have hself := Buckets.lookup_replace_self hb bucket'
      obtain rfl := Option.some_inj.mp (hlookup.symm.trans hself)
      exact ⟨bucket, hb, hsize.trans hle⟩
    · exact ⟨b, (Buckets.lookup_replace_of_ne (Ne.symm hdomain) bucket').symm.trans hlookup, hsize⟩
  · exact Or.inr (hcount'.trans hcount)

theorem run_getCookie (cookie : Stored) (s : CookieStore) :
    ∃ r s', (CookieStore.getCookie p cookie).run s = (.ok r, s') := by
  rw [CookieStore.getCookie, Method.run_this_bind]
  cases Buckets.lookup s.buckets cookie.domain with
  | none => exact ⟨none, s, rfl⟩
  | some bucket =>
      dsimp only
      cases Bucket.get bucket cookie with
      | none => exact ⟨none, s, rfl⟩
      | some storedCookie =>
          dsimp only
          split_ifs
          · exact ⟨none, _, rfl⟩
          · exact ⟨some storedCookie, _, rfl⟩

/-- **`get(cookie)`** keeps the cookie, makes no room scarce, and finds the cookie if it is the one
that is looked for. -/
theorem Has.getCookie (hs : Shelved s) (h : Has s c) (cookie : Stored)
    (hfresh : Fresh p c s.counters.time
      ((CookieStore.getCookie p cookie).run s).2.counters.time) :
    ∃ r s', (CookieStore.getCookie p cookie).run s = (.ok r, s') ∧ Has s' c ∧
      (Full s' c → Full s c) ∧ (c.key = cookie.key → r = some c) := by
  have hkey : c.key = cookie.key → c.domain = cookie.domain := fun heq =>
    congrArg (fun k => k.2.1) heq
  rw [CookieStore.getCookie, Method.run_this_bind] at hfresh ⊢
  cases hb : Buckets.lookup s.buckets cookie.domain with
  | none =>
      refine ⟨none, s, rfl, h, id, fun heq => ?_⟩
      obtain ⟨bucket, hlookup, -⟩ := h
      rw [hkey heq, hb] at hlookup
      cases hlookup
  | some bucket =>
      have hmem : c.key = cookie.key → c ∈ bucket := by
        intro heq
        obtain ⟨b, hlookup, hmem⟩ := h
        rw [hkey heq, hb, Option.some_inj] at hlookup
        exact hlookup ▸ hmem
      rw [hb] at hfresh
      dsimp only at hfresh ⊢
      cases hstored : Bucket.get bucket cookie with
      | none =>
          refine ⟨none, s, rfl, h, id, fun heq => ?_⟩
          exact absurd (Cookie.equals_iff.mpr heq) (List.find?_eq_none.mp hstored c (hmem heq))
      | some storedCookie =>
          have hequals : storedCookie.equals cookie = true := by
            have := List.find?_some hstored
            exact this
          have hfound : storedCookie ∈ bucket := List.mem_of_find?_eq_some hstored
          have hsame : c.key = cookie.key → storedCookie = c := fun heq =>
            (hs.good_of_lookup hb).eq_of_equals hfound (hmem heq)
              (Cookie.equals_iff.mpr ((Cookie.equals_iff.mp hequals).trans heq.symm))
          rw [hstored] at hfresh
          dsimp only at hfresh ⊢
          split_ifs at hfresh ⊢ with hexpired
          · -- the cookie that has expired is another one
            have hne : c.key ≠ cookie.key := by
              intro heq
              rw [hsame heq, hfresh _ le_rfl (Nat.lt_succ_self _)] at hexpired
              cases hexpired
            have hne' : c.key ≠ storedCookie.key := by
              rw [Cookie.equals_iff.mp hequals]
              exact hne
            refine ⟨none, _, rfl, h.withBucket hb fun _ hc => mem_remove_of_ne hne' hc, ?_,
              fun heq => absurd heq hne⟩
            exact Full.of_withBucket hb (Bucket.remove_sublist _ _).length_le (Int.sub_le_self _ (by decide))
          · exact ⟨some storedCookie, _, rfl, h, id, fun heq => congrArg some (hsame heq)⟩

theorem Has.openBucket (h : Has s c) (domain : JString) : Has (s.openBucket domain).1 c := by
  obtain ⟨bucket, hlookup, hmem⟩ := h
  rw [CookieStore.openBucket]
  split
  · exact ⟨bucket, Buckets.lookup_append_of_some hlookup _, hmem⟩
  · exact ⟨bucket, hlookup, hmem⟩

theorem openBucket_of_lookup {domain : JString} {bucket : List Stored}
    (h : Buckets.lookup s.buckets domain = some bucket) : s.openBucket domain = (s, bucket) := by
  rw [openBucket]
  split
  · rename_i hnone
    rw [h] at hnone
    cases hnone
  · rename_i b hb
    rw [h, Option.some_inj] at hb
    rw [hb]

/-- **`put`** keeps the other cookies, as long as there is room. -/
theorem Has.put (hs : Shelved s) (h : Has s c) (hne : c.key ≠ cookie.key) (hfull : ¬Full s c) :
    Has ((CookieStore.put p o cookie).run s).2 c := by
  obtain ⟨hshelved, hcounters, hlookup⟩ := openBucket_spec hs cookie.domain
  have hopen := h.openBucket cookie.domain
  obtain ⟨hbucket, hstore⟩ := not_or.mp hfull
  have hroom : cookie.domain = c.domain →
      (s.openBucket cookie.domain).2.length < MAX_BUCKET_SIZE := by
    intro hdomain
    obtain ⟨bucket, hb, -⟩ := h
    rw [hdomain, openBucket_of_lookup hb]
    by_contra hlarge
    exact hbucket ⟨bucket, hb, le_of_not_gt hlarge⟩
  rw [CookieStore.put, Method.run_this_bind]
  dsimp only
  by_cases hold : ((s.openBucket cookie.domain).2.any (Cookie.equals · cookie)) = true
  · split_ifs
    · exact hopen.withBucket hlookup fun _ hc => mem_remove_of_ne hne hc
    · exact hopen.withBucket hlookup fun _ hc => mem_put_of_ne hne hc
  · have hlength : (Bucket.put (s.openBucket cookie.domain).2 cookie).length =
        (s.openBucket cookie.domain).2.length + 1 := by
      rw [Bucket.put_of_not_any (Bool.eq_false_iff.mpr hold), List.length_append]
      rfl
    have hsize := hshelved.size_of_lookup hlookup
    obtain ⟨hsub, hcount, -⟩ := limit_spec (p := p) (hlength.trans_le (by omega))
      ⟨(s.openBucket cookie.domain).1.counters.totalCount + 1,
        (s.openBucket cookie.domain).1.counters.time + 1⟩
    have hle := hsub.length_le
    have htotal : (s.openBucket cookie.domain).1.counters.totalCount = s.counters.totalCount := by
      rw [hcounters]
    dsimp only at hcount
    split_ifs with hexpired hexcess
    · exact hopen.withBucket hlookup fun _ hc => mem_remove_of_ne hne hc
    · -- there is no purge, since the store was not full
      exact absurd hexcess (by omega)
    · refine hopen.withBucket hlookup fun hdomain hc => ?_
      rw [limitBucket, if_neg (by have := hroom hdomain; omega)]
      exact mem_put_of_ne hne hc

/-- **A cookie of another scheme** does not touch a cookie that only HTTP may see. -/
theorem Has.putCookie {uri : URI} {parsed : Cookie (Option JString)}
    (hs : Within TOTAL_COUNT_UPPER_THRESHOLD s) (h : Has s c) (hhttp : httpApi p uri = false)
    (hc : c.httpOnly = true) (hfull : ¬Full s c)
    (hfresh : Fresh p c s.counters.time
      ((CookieManager.putCookie p o uri parsed).run s).2.counters.time) :
    Has ((CookieManager.putCookie p o uri parsed).run s).2 c := by
  unfold CookieManager.putCookie at hfresh ⊢
  cases haccept : accept p uri parsed with
  | none => exact h
  | some stored =>
      rw [haccept] at hfresh
      dsimp only at hfresh ⊢
      have hs₁ := keeps_getCookie (p := p) _ stored s hs
      obtain ⟨r, s₁, hrun⟩ := run_getCookie (p := p) stored s
      rw [Method.run_bind_ok hrun] at hfresh ⊢
      have hlater : s₁.counters.time ≤ ((overwrite p o uri stored r).run s₁).2.counters.time :=
        Since.overwrite uri stored r s₁ le_rfl
      obtain ⟨r', s', hrun', hhas, hroom, hfound⟩ := h.getCookie hs.shelved stored
        (by rw [hrun]; exact fun t ht ht' => hfresh t ht (ht'.trans_le hlater))
      rw [hrun] at hrun' hs₁
      cases hrun'
      by_cases hkey : c.key = stored.key
      · -- the cookie itself is found, and the other one is blocked
        rw [hfound hkey]
        unfold overwrite
        dsimp only
        rw [if_pos (by rw [hc, hhttp]; rfl)]
        exact hhas
      · have hfull₁ : ¬Full s₁ c := fun hno => hfull (hroom hno)
        unfold overwrite
        cases r with
        | none => exact hhas.put hs₁.shelved hkey hfull₁
        | some oldCookie =>
            dsimp only
            split_ifs
            · exact hhas
            · exact hhas.put hs₁.shelved hkey hfull₁

/-- No condition on the cookies: what the books need is kept by every response. -/
theorem timeless_true : Timeless fun _ => True := fun _ _ _ _ => trivial

theorem within_putCookie (hs : Within TOTAL_COUNT_UPPER_THRESHOLD s) (uri : URI)
    (parsed : Cookie (Option JString)) :
    Within TOTAL_COUNT_UPPER_THRESHOLD ((CookieManager.putCookie p o uri parsed).run s).2 :=
  (Kept.putCookie timeless_true (fun _ _ => trivial) s ⟨hs, fun _ _ _ _ => trivial⟩).within

theorem within_putValues (hs : Within TOTAL_COUNT_UPPER_THRESHOLD s) (uri : URI)
    (values : List JString) (currentTime : ExtendedTime) :
    Within TOTAL_COUNT_UPPER_THRESHOLD
      ((CookieManager.putValues p o uri values currentTime).run s).2 :=
  (Kept.putValues timeless_true values currentTime (fun _ _ _ _ _ _ _ => trivial) s
    ⟨hs, fun _ _ _ _ => trivial⟩).within

/-- Nothing throws while a cookie is put. -/
theorem run_putCookie (hs : Within TOTAL_COUNT_UPPER_THRESHOLD s) (uri : URI)
    (parsed : Cookie (Option JString)) :
    ∃ s', (CookieManager.putCookie p o uri parsed).run s = (.ok (), s') := by
  unfold CookieManager.putCookie
  cases accept p uri parsed with
  | none => exact ⟨s, rfl⟩
  | some stored =>
      have hs₁ := keeps_getCookie (p := p) _ stored s hs
      obtain ⟨r, s₁, hrun⟩ := run_getCookie (p := p) stored s
      rw [hrun] at hs₁
      dsimp only
      rw [Method.run_bind_ok hrun]
      unfold overwrite
      have hput : ∀ cookie, ∃ s', (CookieStore.put p o cookie).run s₁ = (.ok (), s') := by
        intro cookie
        obtain ⟨s', hput, -⟩ := put_spec (p := p) (o := o) cookie hs₁
        exact ⟨s', hput⟩
      cases r with
      | none => exact hput stored
      | some oldCookie =>
          dsimp only
          split_ifs
          · exact ⟨s₁, rfl⟩
          · exact hput _

theorem run_putValues (hs : Within TOTAL_COUNT_UPPER_THRESHOLD s) (uri : URI)
    (values : List JString) (currentTime : ExtendedTime) :
    ∃ s', (CookieManager.putValues p o uri values currentTime).run s = (.ok (), s') := by
  induction values generalizing s currentTime with
  | nil => exact ⟨s, rfl⟩
  | cons value values ih =>
      unfold CookieManager.putValues
      cases Cookie.parse p value currentTime with
      | none => exact ih hs _
      | some cookie =>
          obtain ⟨s₁, hrun⟩ := run_putCookie (p := p) (o := o) hs uri cookie
          have hs₁ := within_putCookie (p := p) (o := o) hs uri cookie
          rw [hrun] at hs₁
          dsimp only
          rw [Method.run_bind_ok hrun]
          exact ih hs₁ _

/-- The stores that the cookies of a header meet. -/
def valuesMeet (p : Platform) (o : Orders) (uri : URI) :
    List JString → ExtendedTime → CookieStore → List CookieStore
  | [], _, _ => []
  | value :: values, currentTime, s =>
      match Cookie.parse p value currentTime with
      | none => valuesMeet p o uri values currentTime s
      | some cookie =>
          s :: valuesMeet p o uri values currentTime.incrementSubtime
            ((CookieManager.putCookie p o uri cookie).run s).2

/-- The store when the clock has been read once more. -/
def tick (s : CookieStore) : CookieStore :=
  { s with counters := { s.counters with time := s.counters.time + 1 } }

/-- The time of the cookies of a header. -/
def headerTime (p : Platform) (s : CookieStore) : ExtendedTime :=
  { baseTime := p.currentTimeMillis s.counters.time, subtime := 0 }

/-- The stores that the cookies of a response meet. -/
def headersMeet (p : Platform) (o : Orders) (uri : URI) : Headers → CookieStore → List CookieStore
  | [], _ => []
  | (key, values) :: headers, s =>
      if isScheme p "Set-Cookie" key then
        valuesMeet p o uri values.reverse (headerTime p s) (tick s) ++
          headersMeet p o uri headers
            ((CookieManager.putValues p o uri values.reverse (headerTime p s)).run (tick s)).2
      else headersMeet p o uri headers s

theorem Has.putValues {uri : URI} (hhttp : httpApi p uri = false) (hc : c.httpOnly = true)
    (values : List JString) (currentTime : ExtendedTime)
    (hs : Within TOTAL_COUNT_UPPER_THRESHOLD s) (h : Has s c)
    (hfull : ∀ s₁ ∈ valuesMeet p o uri values currentTime s, ¬Full s₁ c)
    (hfresh : Fresh p c s.counters.time
      ((CookieManager.putValues p o uri values currentTime).run s).2.counters.time) :
    Has ((CookieManager.putValues p o uri values currentTime).run s).2 c := by
  induction values generalizing s currentTime with
  | nil => exact h
  | cons value values ih =>
      unfold valuesMeet at hfull
      unfold CookieManager.putValues at hfresh ⊢
      cases hparse : Cookie.parse p value currentTime with
      | none =>
          rw [hparse] at hfull hfresh
          exact ih _ hs h hfull hfresh
      | some cookie =>
          rw [hparse] at hfull hfresh
          dsimp only at hfull hfresh ⊢
          obtain ⟨s₁, hrun⟩ := run_putCookie (p := p) (o := o) hs uri cookie
          have hs₁ := within_putCookie (p := p) (o := o) hs uri cookie
          rw [Method.run_bind_ok hrun] at hfresh ⊢
          have hlater : s.counters.time ≤ s₁.counters.time := by
            have := Since.putCookie (p := p) (o := o) uri cookie s (le_refl s.counters.time)
            rwa [hrun] at this
          have hend := Since.putValues (p := p) (o := o) uri values currentTime.incrementSubtime s₁
            (le_refl s₁.counters.time)
          have hhas : Has s₁ c := by
            have := h.putCookie hs hhttp hc (hfull s List.mem_cons_self)
              (by rw [hrun]; exact fun t ht ht' => hfresh t ht (ht'.trans_le hend))
            rwa [hrun] at this
          rw [hrun] at hs₁ hfull
          exact ih _ hs₁ hhas (fun s₂ hs₂ => hfull s₂ (List.mem_cons_of_mem _ hs₂))
            fun t ht => hfresh t (hlater.trans ht)

/-- **A response that does not come through HTTP** leaves a cookie that only HTTP may see, unless
one of its cookies meets a store without room. -/
theorem Has.putHeaders {uri : URI} (hhttp : httpApi p uri = false) (hc : c.httpOnly = true)
    (headers : Headers) (hs : Within TOTAL_COUNT_UPPER_THRESHOLD s) (h : Has s c)
    (hfull : ∀ s₁ ∈ headersMeet p o uri headers s, ¬Full s₁ c)
    (hfresh : Fresh p c s.counters.time
      ((CookieManager.put p o uri headers).run s).2.counters.time) :
    Has ((CookieManager.put p o uri headers).run s).2 c := by
  induction headers generalizing s with
  | nil => exact h
  | cons e headers ih =>
      obtain ⟨key, values⟩ := e
      unfold headersMeet at hfull
      unfold CookieManager.put at hfresh ⊢
      by_cases hkey : isScheme p "Set-Cookie" key = true
      · rw [if_pos hkey] at hfull hfresh ⊢
        rw [Method.run_this_bind, Method.run_set_bind] at hfresh ⊢
        have htick : Within TOTAL_COUNT_UPPER_THRESHOLD (tick s) :=
          ⟨hs.shelved.withCounters rfl, hs.le⟩
        obtain ⟨s₁, hrun⟩ := run_putValues (p := p) (o := o) htick uri values.reverse
          (headerTime p s)
        have hs₁ := within_putValues (p := p) (o := o) htick uri values.reverse (headerTime p s)
        have hlater := Since.putValues (p := p) (o := o) uri values.reverse (headerTime p s)
          (tick s) (le_refl (tick s).counters.time)
        change Fresh p c s.counters.time ((CookieManager.putValues p o uri values.reverse
          (headerTime p s) >>= fun _ => CookieManager.put p o uri headers).run
          (tick s)).2.counters.time at hfresh
        change Has ((CookieManager.putValues p o uri values.reverse
          (headerTime p s) >>= fun _ => CookieManager.put p o uri headers).run (tick s)).2 c
        rw [Method.run_bind_ok hrun] at hfresh ⊢
        rw [hrun] at hs₁ hlater hfull
        have hend := Since.putHeaders (p := p) (o := o) uri headers s₁ (le_refl s₁.counters.time)
        have hstart : s.counters.time ≤ (tick s).counters.time := Nat.le_succ _
        have hhas := Has.putValues (p := p) (o := o) hhttp hc values.reverse (headerTime p s) htick h
          (fun s₂ hs₂ => hfull s₂ (List.mem_append_left _ hs₂))
          (by rw [hrun]; exact fun t ht ht' => hfresh t (hstart.trans ht) (ht'.trans_le hend))
        rw [hrun] at hhas
        exact ih hs₁ hhas (fun s₂ hs₂ => hfull s₂ (List.mem_append_right _ hs₂))
          fun t ht => hfresh t ((hstart.trans hlater).trans ht)
      · rw [if_neg hkey] at hfull hfresh ⊢
        exact ih hs h hfull hfresh

end HttpOnly

/-! ## Isolation -/

/-- The store after a run. -/
def storeAfter (p : Platform) (o : Orders) (calls : List ManagerCall) : CookieStore :=
  calls.foldl (ManagerCall.run p o) {}

/-- Where a cookie of the store comes from. -/
def Origin (p : Platform) (calls : List ManagerCall) (c : Stored) : Prop :=
  ∃ uri headers, ManagerCall.put uri headers ∈ calls ∧ SetBy p uri headers c

theorem origin_timeless (p : Platform) (calls : List ManagerCall) : Timeless (Origin p calls) := by
  rintro c creationTime lastAccessTime
    ⟨uri, headers, hmem, key, values, value, he, hkey, hvalue, t, parsed, stored, hparse, haccept, hc⟩
  refine ⟨uri, headers, hmem, key, values, value, he, hkey, hvalue, t, parsed, stored, hparse,
    haccept, ?_⟩
  rw [hc]

variable {p : Platform} {o : Orders}

theorem keeps_call {calls : List ManagerCall} {call : ManagerCall} (hcall : call ∈ calls)
    {s : CookieStore} (h : Kept (Origin p calls) s) : Kept (Origin p calls) (call.run p o s) := by
  cases call with
  | put uri headers =>
      exact Kept.putHeaders (origin_timeless p calls) headers
        (fun c hc => ⟨uri, headers, hcall, hc⟩) s h
  | get uri =>
      exact Method.Keeps.bind (Kept.getList (origin_timeless p calls) uri)
        (fun _ => Method.Keeps.pure _) s h

theorem kept_storeAfter (p : Platform) (o : Orders) (calls : List ManagerCall) :
    Kept (Origin p calls) (storeAfter p o calls) := by
  have hempty : Kept (Origin p calls) {} :=
    ⟨⟨⟨List.nodup_nil, fun b hb => absurd hb List.not_mem_nil,
      fun b hb => absurd hb List.not_mem_nil, rfl⟩, by decide⟩,
      fun b hb => absurd hb List.not_mem_nil⟩
  have hrun : ∀ (done : List ManagerCall) (s : CookieStore), done ⊆ calls →
      Kept (Origin p calls) s → Kept (Origin p calls) (done.foldl (ManagerCall.run p o) s) := by
    intro done
    induction done with
    | nil => exact fun s _ h => h
    | cons call done ih =>
        intro s hsub h
        exact ih _ (List.subset_of_cons_subset hsub) (keeps_call (hsub List.mem_cons_self) h)
  exact hrun calls {} (List.Subset.refl _) hempty

/-- A platform without public suffixes, in the first millisecond. -/
def quiet : Platform where
  upper c := if unit 'a' ≤ c ∧ c ≤ unit 'z' then c - 32 else c
  lower c := if unit 'A' ≤ c ∧ c ≤ unit 'Z' then c + 32 else c
  toLowerCase s := s.map fun c => if unit 'A' ≤ c ∧ c ≤ unit 'Z' then c + 32 else c
  parseLong _ := none
  parseDate _ := none
  rules _ := none
  currentTimeMillis _ := 0

end JavaFx.Web
