import JavaFx.Web.CookieIsolation
import JavaFx.Web.CookieTimes

/-!
# The result of a query

The store goes through the buckets of the hostname and of what stands behind its points. A cookie
that matches is in one of these, and each of them is gone through once, so what is collected are the
matching cookies that have not expired when the store comes to them. They are then sorted.
-/

namespace JavaFx.Web

open Comparator
open Css (JString lit)
open CookieStore

/-! ## Rules -/

variable {p : Platform} {q : Query}

/-- The cookies of a row that are collected when its first one is looked at with the reading `time`
of the clock. -/
def selected (p : Platform) (q : Query) (row : List Stored) (time : ℕ) : List Stored :=
  ((row.zipIdx time).filter fun x => !x.1.hasExpired p x.2 && q.admits p x.1).map Prod.fst

/-- The cookies that the loop over the domains comes to. -/
def visited (s : CookieStore) (ds : List JString) : List Stored :=
  ds.flatMap fun d => (Buckets.lookup s.buckets d).getD []

/-- A state of the store: the buckets have different domains, a bucket holds the cookies of its
domain, no two of them equal, and no domain is empty. -/
structure Addressed (s : CookieStore) : Prop where
  keys : (s.buckets.map Prod.fst).Nodup
  good : ∀ b ∈ s.buckets, GoodBucket b.1 b.2
  domain_ne : ∀ c ∈ Buckets.all s.buckets, c.domain ≠ []

variable {s : CookieStore}

theorem Addressed.mem_visited (h : Addressed s) {ds : List JString} {c : Stored} :
    c ∈ visited s ds ↔ c ∈ Buckets.all s.buckets ∧ c.domain ∈ ds := by
  rw [visited, List.mem_flatMap, Buckets.mem_all]
  constructor
  · rintro ⟨d, hd, hc⟩
    cases hb : Buckets.lookup s.buckets d with
    | none =>
        rw [hb] at hc
        cases hc
    | some bucket =>
        rw [hb] at hc
        have hmem := Buckets.mem_of_lookup hb
        refine ⟨⟨_, hmem, hc⟩, ?_⟩
        rw [(h.good _ hmem).domain_eq c hc]
        exact hd
  · rintro ⟨⟨b, hb, hc⟩, hd⟩
    refine ⟨c.domain, hd, ?_⟩
    rw [(h.good b hb).domain_eq c hc, Buckets.lookup_of_mem h.keys hb]
    exact hc

theorem accept_domain_ne (hlower : ∀ text : JString, text ≠ [] → p.toLowerCase text ≠ [])
    {uri : URI} {cookie : Cookie (Option JString)} {stored : Stored}
    (h : CookieManager.accept p uri cookie = some stored) : stored.domain ≠ [] := by
  unfold CookieManager.accept at h
  cases hhost : CookieManager.canonicalHost p uri with
  | none =>
      rw [hhost] at h
      cases h
  | some host =>
      have hne : host ≠ [] := by
        unfold CookieManager.canonicalHost at hhost
        split at hhost
        · cases hhost
        · split_ifs at hhost with hempty
          obtain rfl := Option.some.inj hhost
          exact hlower _ hempty
      rw [hhost] at h
      dsimp only at h
      split at h
      · cases h
      · split_ifs at h with hblocked hempty
        · obtain rfl := Option.some.inj h
          exact hne
        · obtain rfl := Option.some.inj h
          exact hempty

/-- **Every state that the manager brings the store into** is of this kind. -/
theorem addressed_storeAfter (hlower : ∀ text : JString, text ≠ [] → p.toLowerCase text ≠ [])
    (o : Orders) (calls : List ManagerCall) : Addressed (storeAfter p o calls) := by
  obtain ⟨⟨hshelved, -⟩, horigin⟩ := kept_storeAfter p o calls
  refine ⟨hshelved.keys, hshelved.good, ?_⟩
  rintro c hc
  obtain ⟨b, hb, hc⟩ := Buckets.mem_all.mp hc
  obtain ⟨uri, headers, -, key, values, value, -, -, -, t, parsed, stored, -, haccept, heq⟩ :=
    horigin b hb c hc
  have hdomain : c.domain = stored.domain := by rw [heq]
  rw [hdomain]
  exact accept_domain_ne hlower haccept

/-! ## The order -/

/-- What `Collections.sort` documents: elements on which the comparator keeps its contract are put
in its order. -/
def Orders.Documented (o : Orders) : Prop :=
  ∀ compare l, Lawful compare {c | c ∈ l} →
    ∃ l', o.sort compare l = .ok l' ∧ l'.Pairwise fun a b => compare a b ≤ 0

end JavaFx.Web
