import JavaFx.Web.CookieStore

/-!
# The books of the cookie store

The number kept by hand is that of the cookies in the buckets, and the limits hold after every
call. A call changes the contents of one bucket after the other, so it suffices to know by how much
each bucket shrinks or grows.
-/

namespace JavaFx.Web

open Css (JString)
open CookieStore

/-! ## Equal cookies -/

/-- What `equals` looks at. -/
def Cookie.key (c : Stored) : JString × JString × JString := (c.name, c.domain, c.path)

theorem Cookie.equals_iff {c c' : Stored} : c.equals c' = true ↔ c.key = c'.key := by
  unfold Cookie.equals Cookie.key
  simp only [Bool.and_eq_true, decide_eq_true_eq, Prod.mk.injEq, and_assoc]

theorem Cookie.equals_false_iff {c c' : Stored} : c.equals c' = false ↔ c.key ≠ c'.key := by
  rw [← Bool.not_eq_true, Cookie.equals_iff]

/-- The contents of a bucket as they have to be. -/
structure GoodBucket (domain : JString) (bucket : List Stored) : Prop where
  domain_eq : ∀ c ∈ bucket, c.domain = domain
  nodup : (bucket.map Cookie.key).Nodup

variable {domain : JString} {bucket bucket' : List Stored} {cookie : Stored}

theorem GoodBucket.sublist (h : GoodBucket domain bucket) (hsub : bucket'.Sublist bucket) :
    GoodBucket domain bucket' :=
  ⟨fun c hc => h.domain_eq c (hsub.subset hc), h.nodup.sublist (hsub.map _)⟩

theorem GoodBucket.eq_of_equals (h : GoodBucket domain bucket) {c c' : Stored} (hc : c ∈ bucket)
    (hc' : c' ∈ bucket) (heq : c.equals c' = true) : c = c' :=
  List.inj_on_of_nodup_map h.nodup hc hc' (Cookie.equals_iff.mp heq)

theorem GoodBucket.map (h : GoodBucket domain bucket) {f : Stored → Stored}
    (hf : ∀ c, (f c).key = c.key) : GoodBucket domain (bucket.map f) := by
  refine ⟨?_, ?_⟩
  · rintro c' hc'
    obtain ⟨c, hc, rfl⟩ := List.mem_map.mp hc'
    have hdomain : (f c).domain = c.domain := congrArg (fun k => k.2.1) (hf c)
    rw [hdomain]
    exact h.domain_eq c hc
  · rw [List.map_map]
    have hkey : Cookie.key ∘ f = Cookie.key := funext hf
    rw [hkey]
    exact h.nodup

/-! ## One bucket -/

namespace Bucket

theorem remove_sublist (bucket : List Stored) (cookie : Stored) :
    (remove bucket cookie).Sublist bucket := List.eraseP_sublist

/-- A cookie that is there is taken out. -/
theorem length_remove (h : bucket.any (Cookie.equals · cookie) = true) :
    (remove bucket cookie).length + 1 = bucket.length := by
  obtain ⟨c, hc, heq⟩ := List.any_eq_true.mp h
  have hlength : (remove bucket cookie).length = bucket.length - 1 :=
    List.length_eraseP_of_mem (p := (Cookie.equals · cookie)) hc heq
  have hpos := List.length_pos_of_mem hc
  omega

theorem remove_of_not_any (h : bucket.any (Cookie.equals · cookie) = false) :
    remove bucket cookie = bucket := by
  rw [List.any_eq_false] at h
  exact List.eraseP_of_forall_not h

theorem any_of_mem (h : cookie ∈ bucket) : bucket.any (Cookie.equals · cookie) = true :=
  List.any_eq_true.mpr ⟨cookie, h, Cookie.equals_iff.mpr rfl⟩

/-- What is left when one of the cookies is taken out. -/
theorem perm_remove (h : GoodBucket domain bucket) (hc : cookie ∈ bucket) :
    bucket.Perm (cookie :: remove bucket cookie) := by
  obtain ⟨c, l₁, l₂, -, heq, hsplit, herase⟩ :=
    List.exists_of_eraseP (p := (Cookie.equals · cookie)) hc (Cookie.equals_iff.mpr rfl)
  have hcc : c = cookie :=
    h.eq_of_equals (hsplit ▸ List.mem_append_right _ List.mem_cons_self) hc heq
  rw [remove, herase, hsplit, hcc]
  exact List.perm_middle

theorem put_of_any (h : bucket.any (Cookie.equals · cookie) = true) :
    put bucket cookie = bucket.map fun c => if c.equals cookie then cookie else c := if_pos h

theorem put_of_not_any (h : bucket.any (Cookie.equals · cookie) = false) :
    put bucket cookie = bucket ++ [cookie] := by
  rw [put, h, if_neg Bool.false_ne_true]

theorem put_good (h : GoodBucket domain bucket) (hdomain : cookie.domain = domain) :
    GoodBucket domain (put bucket cookie) := by
  cases hany : bucket.any (Cookie.equals · cookie) with
  | true =>
      rw [put_of_any hany]
      refine h.map fun c => ?_
      split_ifs with heq
      · exact (Cookie.equals_iff.mp heq).symm
      · rfl
  | false =>
      rw [put_of_not_any hany]
      refine ⟨?_, ?_⟩
      · rintro c hc
        rcases List.mem_append.mp hc with hc | hc
        · exact h.domain_eq c hc
        · obtain rfl := List.mem_singleton.mp hc
          exact hdomain
      · rw [List.map_append, List.map_singleton, List.nodup_append]
        refine ⟨h.nodup, List.nodup_singleton _, ?_⟩
        rintro k hk k' hk' rfl
        obtain ⟨c, hc, hck⟩ := List.mem_map.mp hk
        rw [List.mem_singleton.mp hk'] at hck
        have := List.any_eq_false.mp hany c hc
        exact this (Cookie.equals_iff.mpr hck)

end Bucket

/-! ## The store -/

/-- The books of a store, without the limit on all cookies. -/
structure Shelved (s : CookieStore) : Prop where
  keys : (s.buckets.map Prod.fst).Nodup
  good : ∀ b ∈ s.buckets, GoodBucket b.1 b.2
  size : ∀ b ∈ s.buckets, b.2.length ≤ MAX_BUCKET_SIZE
  totalCount : s.counters.totalCount = (Buckets.all s.buckets).length

/-- **The books are right**, and the limits are kept. -/
structure Booked (s : CookieStore) : Prop where
  totalCount : s.counters.totalCount = ((s.buckets.map fun b => b.2.length).sum : ℕ)
  domain : ∀ b ∈ s.buckets, ∀ c ∈ b.2, c.domain = b.1
  distinct : (s.buckets.flatMap Prod.snd).Pairwise fun c c' =>
    ¬(c.name = c'.name ∧ c.domain = c'.domain ∧ c.path = c'.path)
  bucketSize : ∀ b ∈ s.buckets, b.2.length ≤ 50
  storeSize : (s.buckets.map fun b => b.2.length).sum ≤ 4000

/-- The key of a cookie says in which bucket it is. -/
theorem distinct_of_good {bs : List (JString × List Stored)} (hkeys : (bs.map Prod.fst).Nodup)
    (hgood : ∀ b ∈ bs, GoodBucket b.1 b.2) : ((Buckets.all bs).map Cookie.key).Nodup := by
  induction bs with
  | nil => exact List.nodup_nil
  | cons b bs ih =>
      rw [List.map_cons, List.nodup_cons] at hkeys
      have hb := hgood b List.mem_cons_self
      have hbs : ∀ b' ∈ bs, GoodBucket b'.1 b'.2 := fun b' h => hgood b' (List.mem_cons_of_mem _ h)
      rw [Buckets.all_cons, List.map_append, List.nodup_append]
      refine ⟨hb.nodup, ih hkeys.2 hbs, ?_⟩
      rintro k hk k' hk' rfl
      obtain ⟨c, hc, rfl⟩ := List.mem_map.mp hk
      obtain ⟨c', hc', heq⟩ := List.mem_map.mp hk'
      obtain ⟨b', hb', hc'⟩ := Buckets.mem_all.mp hc'
      -- equal keys have equal domains
      have hdomain : c'.domain = c.domain := congrArg (fun k => k.2.1) heq
      rw [hb.domain_eq c hc, (hbs b' hb').domain_eq c' hc'] at hdomain
      exact hkeys.1 (hdomain ▸ List.mem_map_of_mem hb')

namespace Shelved

variable {s : CookieStore}

theorem good_of_lookup (h : Shelved s) (hb : Buckets.lookup s.buckets domain = some bucket) :
    GoodBucket domain bucket := h.good _ (Buckets.mem_of_lookup hb)

theorem size_of_lookup (h : Shelved s) (hb : Buckets.lookup s.buckets domain = some bucket) :
    bucket.length ≤ MAX_BUCKET_SIZE := h.size _ (Buckets.mem_of_lookup hb)

/-- **Other contents of a bucket**, and a count that follows. -/
theorem withBucket (h : Shelved s) (hb : Buckets.lookup s.buckets domain = some bucket)
    (hgood : GoodBucket domain bucket') (hsize : bucket'.length ≤ MAX_BUCKET_SIZE) {n : Counters}
    (hcount : n.totalCount + bucket.length = s.counters.totalCount + bucket'.length) :
    Shelved (s.withBucket domain bucket' n) := by
  refine ⟨?_, ?_, ?_, ?_⟩
  · rw [CookieStore.withBucket, Buckets.keys_replace]
    exact h.keys
  · intro b hmem
    rcases Buckets.mem_replace hmem with hmem | rfl
    · exact h.good b hmem
    · exact hgood
  · intro b hmem
    rcases Buckets.mem_replace hmem with hmem | rfl
    · exact h.size b hmem
    · exact hsize
  · obtain ⟨rest, hall, hreplace⟩ := Buckets.all_replace hb
    have htotal := h.totalCount
    rw [hall.length_eq, List.length_append] at htotal
    rw [CookieStore.withBucket, (hreplace bucket').length_eq, List.length_append]
    push_cast at htotal ⊢
    omega

theorem withCounters (h : Shelved s) {n : Counters}
    (hcount : n.totalCount = s.counters.totalCount) : Shelved { s with counters := n } :=
  ⟨h.keys, h.good, h.size, hcount.trans h.totalCount⟩

theorem booked (h : Shelved s) (hstore : s.counters.totalCount ≤ TOTAL_COUNT_UPPER_THRESHOLD) :
    Booked s := by
  have hsum : (Buckets.all s.buckets).length = (s.buckets.map fun b => b.2.length).sum :=
    List.length_flatMap
  have htotal := h.totalCount
  rw [hsum] at htotal
  refine ⟨htotal, fun b hb => (h.good b hb).domain_eq, ?_, h.size, ?_⟩
  · have hnodup := distinct_of_good h.keys h.good
    rw [List.Nodup, List.pairwise_map] at hnodup
    refine hnodup.imp ?_
    rintro c c' hne ⟨hname, hdomain, hpath⟩
    exact hne (Prod.ext hname (Prod.ext hdomain hpath))
  · rw [htotal] at hstore
    exact Int.ofNat_le.mp hstore

end Shelved

/-! ## Sweeping out what has expired -/

section Sweep

variable {p : Platform}

theorem sweep_spec (bucket : List Stored) (earliest : Option Stored) (n : Counters) :
    (sweep p bucket earliest n).bucket.Sublist bucket ∧
      (sweep p bucket earliest n).counters.totalCount + bucket.length =
        n.totalCount + (sweep p bucket earliest n).bucket.length := by
  induction bucket generalizing earliest n with
  | nil => exact ⟨List.Sublist.refl _, rfl⟩
  | cons cookie rest ih =>
      rw [sweep]
      dsimp only
      split_ifs with hexpired
      · obtain ⟨hsub, hcount⟩ := ih earliest
          { n with time := n.time + 1, totalCount := n.totalCount - 1 }
        refine ⟨hsub.cons _, ?_⟩
        rw [List.length_cons]
        push_cast
        dsimp only at hcount
        omega
      · obtain ⟨hsub, hcount⟩ := ih (some _) { n with time := n.time + 1 }
        refine ⟨hsub.cons_cons cookie, ?_⟩
        rw [List.length_cons, List.length_cons]
        push_cast
        dsimp only at hcount
        omega

/-- The cookie accessed earliest is one that is left, if there is one. -/
theorem sweep_earliest (bucket : List Stored) (earliest : Option Stored) (n : Counters) :
    (∀ c, (sweep p bucket earliest n).earliestCookie = some c →
        earliest = some c ∨ c ∈ (sweep p bucket earliest n).bucket) ∧
      ((sweep p bucket earliest n).earliestCookie = none →
        earliest = none ∧ (sweep p bucket earliest n).bucket = []) := by
  induction bucket generalizing earliest n with
  | nil => exact ⟨fun c hc => Or.inl hc, fun hnone => ⟨hnone, rfl⟩⟩
  | cons cookie rest ih =>
      rw [sweep]
      dsimp only
      split_ifs with hexpired
      · exact ih earliest _
      · refine ⟨fun c hc => ?_, fun hnone => ?_⟩
        · rcases (ih _ _).1 c hc with heq | hmem
          · rw [Option.some_inj] at heq
            cases earliest with
            | none => exact Or.inr (heq ▸ List.mem_cons_self)
            | some e =>
                rw [earlier] at heq
                split_ifs at heq
                · exact Or.inr (heq ▸ List.mem_cons_self)
                · exact Or.inl (congrArg some heq)
          · exact Or.inr (List.mem_cons_of_mem _ hmem)
        · exact absurd ((ih _ _).2 hnone).1 (Option.some_ne_none _)

/-- **`purge(bucket)`** brings a bucket with one cookie too many back to the limit. -/
theorem purgeBucket_spec (hsize : bucket.length ≤ MAX_BUCKET_SIZE + 1) (n : Counters) :
    (purgeBucket p bucket n).1.Sublist bucket ∧
      (purgeBucket p bucket n).2.totalCount + bucket.length =
        n.totalCount + (purgeBucket p bucket n).1.length ∧
      (purgeBucket p bucket n).1.length ≤ MAX_BUCKET_SIZE := by
  obtain ⟨hsub, hcount⟩ := sweep_spec (p := p) bucket none n
  obtain ⟨hearliest, hnone⟩ := sweep_earliest (p := p) bucket none n
  rw [purgeBucket]
  dsimp only
  split_ifs with hexcess
  · have hle := hsub.length_le
    cases hcookie : (sweep p bucket none n).earliestCookie with
    | none =>
        rw [(hnone hcookie).2] at hexcess
        exact absurd hexcess (Nat.not_lt_zero _)
    | some c =>
        have hmem := (hearliest c hcookie).resolve_left (Option.some_ne_none _ ∘ Eq.symm)
        have hlength := Bucket.length_remove (Bucket.any_of_mem hmem)
        refine ⟨(Bucket.remove_sublist _ _).trans hsub, ?_, ?_⟩
        · dsimp only [Option.elim]
          omega
        · dsimp only [Option.elim]
          omega
  · exact ⟨hsub, hcount, le_of_not_gt hexcess⟩

/-- A bucket that is purged when it is too large. -/
theorem limit_spec (hsize : bucket.length ≤ MAX_BUCKET_SIZE + 1) (n : Counters) :
    (limitBucket p bucket n).1.Sublist bucket ∧
      (limitBucket p bucket n).2.totalCount + bucket.length =
        n.totalCount + (limitBucket p bucket n).1.length ∧
      (limitBucket p bucket n).1.length ≤ MAX_BUCKET_SIZE := by
  rw [limitBucket]
  split_ifs with hexcess
  · exact purgeBucket_spec hsize n
  · exact ⟨List.Sublist.refl _, rfl, le_of_not_gt hexcess⟩

end Sweep

/-! ## Queries -/

section Queries

variable {p : Platform} {o : Orders} {s : CookieStore}

theorem find_spec (q : Query) (bucket : List Stored) (n : Counters) :
    (find p q bucket n).bucket.Sublist bucket ∧
      (find p q bucket n).counters.totalCount + bucket.length =
        n.totalCount + (find p q bucket n).bucket.length := by
  induction bucket generalizing n with
  | nil => exact ⟨List.Sublist.refl _, rfl⟩
  | cons cookie rest ih =>
      rw [find]
      dsimp only
      by_cases hexpired : cookie.hasExpired p n.time = true
      · obtain ⟨hsub, hcount⟩ := ih { n with time := n.time + 1, totalCount := n.totalCount - 1 }
        rw [if_pos hexpired]
        refine ⟨hsub.cons _, ?_⟩
        rw [List.length_cons]
        push_cast
        dsimp only at hcount
        omega
      · obtain ⟨hsub, hcount⟩ := ih { n with time := n.time + 1 }
        have hcount' : ∀ l : List Stored, l = (find p q rest { n with time := n.time + 1 }).bucket →
            (find p q rest { n with time := n.time + 1 }).counters.totalCount +
              (cookie :: rest).length = n.totalCount + (cookie :: l).length := by
          rintro _ rfl
          rw [List.length_cons, List.length_cons]
          push_cast
          dsimp only at hcount
          omega
        rw [if_neg hexpired]
        split_ifs
        · exact ⟨hsub.cons_cons cookie, hcount' _ rfl⟩
        · exact ⟨hsub.cons_cons cookie, hcount' _ rfl⟩

theorem Shelved.findIn (h : Shelved s) (q : Query) (domain : JString) :
    Shelved (findIn p q domain s).1 := by
  rw [CookieStore.findIn]
  split
  · exact h
  · rename_i bucket hb
    obtain ⟨hsub, hcount⟩ := find_spec (p := p) q bucket s.counters
    exact h.withBucket hb ((h.good_of_lookup hb).sublist hsub)
      (hsub.length_le.trans (h.size_of_lookup hb)) hcount

theorem Shelved.findAll (q : Query) (domains : List JString) (h : Shelved s) :
    Shelved (findAll p q domains s).1 := by
  induction domains generalizing s with
  | nil => exact h
  | cons domain rest ih => exact ih (h.findIn q domain)

theorem findIn_le (s : CookieStore) (q : Query) (domain : JString) :
    (CookieStore.findIn p q domain s).1.counters.totalCount ≤ s.counters.totalCount := by
  rw [CookieStore.findIn]
  split
  · exact le_rfl
  · rename_i bucket hb
    obtain ⟨hsub, hcount⟩ := find_spec (p := p) q bucket s.counters
    have hle := hsub.length_le
    show (find p q bucket s.counters).counters.totalCount ≤ s.counters.totalCount
    omega

theorem findAll_le (q : Query) (domains : List JString) (h : Shelved s) :
    (CookieStore.findAll p q domains s).1.counters.totalCount ≤ s.counters.totalCount := by
  induction domains generalizing s with
  | nil => exact le_rfl
  | cons domain rest ih => exact (ih (h.findIn q domain)).trans (findIn_le s q domain)

/-- New times of access change nothing that is counted. -/
theorem Shelved.touch (h : Shelved s) (list : List Stored) (currentTime : ℤ) :
    Shelved (touch list currentTime s) := by
  have hf : ∀ c : Stored, (if list.any (Cookie.equals · c) then
      { c with lastAccessTime := currentTime } else c).key = c.key := by
    intro c
    split_ifs
    · rfl
    · rfl
  have hmem : ∀ b ∈ (CookieStore.touch list currentTime s).buckets, ∃ b' ∈ s.buckets,
      b = (b'.1, b'.2.map fun c =>
        if list.any (Cookie.equals · c) then { c with lastAccessTime := currentTime } else c) := by
    intro b hb
    obtain ⟨b', hb', rfl⟩ := List.mem_map.mp hb
    exact ⟨b', hb', rfl⟩
  refine ⟨?_, ?_, ?_, ?_⟩
  · rw [CookieStore.touch, List.map_map]
    exact h.keys
  · intro b hb
    obtain ⟨b', hb', rfl⟩ := hmem b hb
    exact (h.good b' hb').map hf
  · intro b hb
    obtain ⟨b', hb', rfl⟩ := hmem b hb
    rw [List.length_map]
    exact h.size b' hb'
  · refine h.totalCount.trans (congrArg _ ?_)
    show _ = (Buckets.all (s.buckets.map _)).length
    unfold Buckets.all
    rw [List.length_flatMap, List.length_flatMap, List.map_map]
    refine congrArg List.sum (List.map_congr_left fun b _ => ?_)
    exact (List.length_map _).symm

/-- `Shelved`, with a bound on all cookies. -/
structure Within (limit : ℤ) (s : CookieStore) : Prop where
  shelved : Shelved s
  le : s.counters.totalCount ≤ limit

theorem keeps_getCookie (limit : ℤ) (cookie : Stored) :
    Method.Keeps (Within limit) (getCookie p cookie) := by
  rintro s ⟨h, hle⟩
  rw [getCookie, Method.run_this_bind]
  cases hb : Buckets.lookup s.buckets cookie.domain with
  | none => exact ⟨h, hle⟩
  | some bucket =>
      dsimp only
      cases hstored : Bucket.get bucket cookie with
      | none => exact ⟨h, hle⟩
      | some storedCookie =>
          dsimp only
          split_ifs with hexpired
          · have hmem : storedCookie ∈ bucket := List.mem_of_find?_eq_some hstored
            have hlength := Bucket.length_remove (Bucket.any_of_mem hmem)
            have hsize := h.size_of_lookup hb
            refine ⟨h.withBucket hb ((h.good_of_lookup hb).sublist (Bucket.remove_sublist _ _))
              (by omega) ?_, ?_⟩
            · dsimp only
              omega
            · show s.counters.totalCount - 1 ≤ limit
              omega
          · exact ⟨h.withCounters rfl, hle⟩

theorem run_get_error {q : Query} {e : Exn}
    (h : o.sort getCompare (CookieStore.findAll p q (domains q.hostname) s).2 = .error e) :
    (get p o q).run s = (.error e, (CookieStore.findAll p q (domains q.hostname) s).1) := by
  rw [CookieStore.get, Method.run_this_bind]
  dsimp only
  rw [Method.run_set_bind, h]
  rfl

theorem run_get_ok {q : Query} {result : List Stored}
    (h : o.sort getCompare (CookieStore.findAll p q (domains q.hostname) s).2 = .ok result) :
    ∃ n : Counters, ∃ currentTime,
      n.totalCount = (CookieStore.findAll p q (domains q.hostname) s).1.counters.totalCount ∧
      (get p o q).run s =
        (.ok (result.map fun c => { c with lastAccessTime := currentTime }),
          CookieStore.touch result currentTime
            { (CookieStore.findAll p q (domains q.hostname) s).1 with counters := n }) := by
  refine ⟨{ (CookieStore.findAll p q (domains q.hostname) s).1.counters with
    time := (CookieStore.findAll p q (domains q.hostname) s).1.counters.time + 1 },
    p.currentTimeMillis (CookieStore.findAll p q (domains q.hostname) s).1.counters.time, rfl, ?_⟩
  rw [CookieStore.get, Method.run_this_bind]
  dsimp only
  rw [Method.run_set_bind, h]
  rfl

theorem keeps_get (limit : ℤ) (q : Query) : Method.Keeps (Within limit) (get p o q) := by
  rintro s ⟨h, hle⟩
  have hfound := h.findAll (p := p) q (domains q.hostname)
  have hfoundLe := (findAll_le (p := p) q (domains q.hostname) h).trans hle
  cases hsort : o.sort getCompare (CookieStore.findAll p q (domains q.hostname) s).2 with
  | error e =>
      rw [run_get_error hsort]
      exact ⟨hfound, hfoundLe⟩
  | ok result =>
      obtain ⟨n, currentTime, hn, hrun⟩ := run_get_ok hsort
      rw [hrun]
      exact ⟨(hfound.withCounters hn).touch result currentTime, hn.trans_le hfoundLe⟩

/-! ## Changes -/

/-- Sweeping all buckets. -/
theorem sweepAll_spec (bs : List (JString × List Stored)) (n : Counters) :
    (sweepAll p bs n).1.map Prod.fst = bs.map Prod.fst ∧
      (∀ b ∈ (sweepAll p bs n).1, ∃ b' ∈ bs, b.1 = b'.1 ∧ b.2.Sublist b'.2) ∧
      (sweepAll p bs n).2.1 = Buckets.all (sweepAll p bs n).1 ∧
      (sweepAll p bs n).2.2.totalCount + (Buckets.all bs).length =
        n.totalCount + (Buckets.all (sweepAll p bs n).1).length := by
  induction bs generalizing n with
  | nil => exact ⟨rfl, fun b hb => absurd hb List.not_mem_nil, rfl, rfl⟩
  | cons e bs ih =>
      obtain ⟨hsub, hcount⟩ := sweep_spec (p := p) e.2 none n
      obtain ⟨hkeys, hall, hqueue, htotal⟩ := ih (sweep p e.2 none n).counters
      rw [sweepAll]
      dsimp only
      refine ⟨?_, ?_, ?_, ?_⟩
      · rw [List.map_cons, List.map_cons, hkeys]
      · rintro b hb
        rcases List.mem_cons.mp hb with rfl | hb
        · exact ⟨e, List.mem_cons_self, rfl, hsub⟩
        · obtain ⟨b', hb', hrest⟩ := hall b hb
          exact ⟨b', List.mem_cons_of_mem _ hb', hrest⟩
      · rw [hqueue, Buckets.all_cons]
      · rw [Buckets.all_cons, Buckets.all_cons, List.length_append, List.length_append]
        push_cast
        omega

theorem Shelved.sweepAll (h : Shelved s) :
    Shelved { buckets := (sweepAll p s.buckets s.counters).1
              counters := (CookieStore.sweepAll p s.buckets s.counters).2.2 } := by
  obtain ⟨hkeys, hall, -, htotal⟩ := sweepAll_spec (p := p) s.buckets s.counters
  refine ⟨?_, ?_, ?_, ?_⟩
  · show ((CookieStore.sweepAll p s.buckets s.counters).1.map Prod.fst).Nodup
    rw [hkeys]
    exact h.keys
  · intro b hb
    obtain ⟨b', hb', hkey, hsub⟩ := hall b hb
    rw [hkey]
    exact (h.good b' hb').sublist hsub
  · intro b hb
    obtain ⟨b', hb', -, hsub⟩ := hall b hb
    exact hsub.length_le.trans (h.size b' hb')
  · have hcount := h.totalCount
    show (CookieStore.sweepAll p s.buckets s.counters).2.2.totalCount =
      (Buckets.all (CookieStore.sweepAll p s.buckets s.counters).1).length
    omega

/-- **The removal queue suffices**, since it holds all cookies there are. -/
theorem removeExcess_spec (removalQueue : List Stored) (h : Shelved s)
    (hqueue : removalQueue.Perm (Buckets.all s.buckets)) :
    ∃ s', (removeExcess removalQueue).run s = (.ok (), s') ∧ Shelved s' ∧
      s'.counters.totalCount ≤ TOTAL_COUNT_LOWER_THRESHOLD := by
  induction removalQueue generalizing s with
  | nil =>
      have htotal := h.totalCount
      rw [← hqueue.length_eq] at htotal
      have hnot : ¬TOTAL_COUNT_LOWER_THRESHOLD < s.counters.totalCount := by
        rw [htotal]
        decide
      refine ⟨s, ?_, h, le_of_not_gt hnot⟩
      rw [removeExcess, Method.run_this_bind, if_neg hnot]
      rfl
  | cons cookie rest ih =>
      rw [removeExcess, Method.run_this_bind]
      by_cases hmore : TOTAL_COUNT_LOWER_THRESHOLD < s.counters.totalCount
      · rw [if_pos hmore]
        -- the cookie is in the bucket of its domain
        obtain ⟨b, hb, hmem⟩ := Buckets.mem_all.mp (hqueue.subset List.mem_cons_self)
        have hdomain := (h.good b hb).domain_eq cookie hmem
        have hlookup : Buckets.lookup s.buckets cookie.domain = some b.2 :=
          Buckets.lookup_of_mem h.keys (hdomain ▸ hb)
        have hgood := h.good_of_lookup hlookup
        have hlength := Bucket.length_remove (Bucket.any_of_mem hmem)
        have hsize := h.size_of_lookup hlookup
        rw [hlookup]
        refine ih (h.withBucket hlookup (hgood.sublist (Bucket.remove_sublist _ _)) (by omega) ?_) ?_
        · dsimp only
          omega
        · obtain ⟨others, hall, hreplace⟩ := Buckets.all_replace hlookup
          have hperm := (hqueue.trans hall).trans ((Bucket.perm_remove hgood hmem).append_right others)
          exact hperm.cons_inv.trans (hreplace _).symm
      · rw [if_neg hmore]
        exact ⟨s, rfl, h, le_of_not_gt hmore⟩

/-- **`purge()`** leaves as many cookies as it may. -/
theorem purge_spec (h : Shelved s) :
    ∃ s', (purge p o).run s = (.ok (), s') ∧ Shelved s' ∧
      s'.counters.totalCount ≤ TOTAL_COUNT_LOWER_THRESHOLD := by
  rw [purge, Method.run_this_bind]
  dsimp only
  rw [Method.run_set_bind]
  refine removeExcess_spec _ h.sweepAll ?_
  exact (o.removals_perm _ _).trans (.of_eq (sweepAll_spec (p := p) s.buckets s.counters).2.2.1)

theorem openBucket_spec (h : Shelved s) (domain : JString) :
    Shelved (s.openBucket domain).1 ∧ (s.openBucket domain).1.counters = s.counters ∧
      Buckets.lookup (s.openBucket domain).1.buckets domain = some (s.openBucket domain).2 := by
  rw [openBucket]
  split
  · rename_i hnone
    refine ⟨⟨?_, ?_, ?_, ?_⟩, rfl, Buckets.lookup_append_self hnone []⟩
    · rw [List.map_append, List.nodup_append]
      refine ⟨h.keys, List.nodup_singleton _, ?_⟩
      rintro k hk k' hk' rfl
      rw [List.mem_singleton.mp hk'] at hk
      exact Buckets.lookup_eq_none hnone hk
    · intro b hb
      rcases List.mem_append.mp hb with hb | hb
      · exact h.good b hb
      · obtain rfl := List.mem_singleton.mp hb
        exact ⟨fun c hc => absurd hc List.not_mem_nil, List.nodup_nil⟩
    · intro b hb
      rcases List.mem_append.mp hb with hb | hb
      · exact h.size b hb
      · obtain rfl := List.mem_singleton.mp hb
        exact Nat.zero_le _
    · rw [Buckets.all_append, List.length_append]
      exact h.totalCount.trans (by rw [Buckets.all_cons]; rfl)
  · rename_i bucket hb
    exact ⟨h, rfl, hb⟩

/-- **`put`** always returns, and keeps the books. -/
theorem put_spec (cookie : Stored) (h : Within TOTAL_COUNT_UPPER_THRESHOLD s) :
    ∃ s', (put p o cookie).run s = (.ok (), s') ∧ Within TOTAL_COUNT_UPPER_THRESHOLD s' := by
  obtain ⟨hshelved, hcounters, hlookup⟩ := openBucket_spec h.shelved cookie.domain
  have hle := h.le
  rw [put, Method.run_this_bind]
  obtain ⟨⟨s₁, bucket⟩, hopen⟩ : ∃ r, r = s.openBucket cookie.domain := ⟨_, rfl⟩
  rw [← hopen] at hshelved hcounters hlookup ⊢
  dsimp only at hshelved hcounters hlookup ⊢
  rw [← hcounters] at hle
  have hgood := hshelved.good_of_lookup hlookup
  have hsize := hshelved.size_of_lookup hlookup
  have hput : GoodBucket cookie.domain (Bucket.put bucket cookie) := Bucket.put_good hgood rfl
  cases hany : bucket.any (Cookie.equals · cookie) with
  | true =>
      by_cases hexpired : cookie.hasExpired p s₁.counters.time = true
      · rw [if_pos hexpired]
        have hlength := Bucket.length_remove hany
        refine ⟨_, rfl, hshelved.withBucket hlookup (hgood.sublist (Bucket.remove_sublist _ _))
          (by omega) ?_, ?_⟩
        · rw [if_pos rfl]
          dsimp only
          omega
        · show (if true = true then s₁.counters.totalCount - 1 else s₁.counters.totalCount) ≤ _
          rw [if_pos rfl]
          omega
      · rw [if_neg hexpired, if_pos rfl]
        have hlength : (Bucket.put bucket cookie).length = bucket.length := by
          rw [Bucket.put_of_any hany, List.length_map]
        exact ⟨_, rfl, hshelved.withBucket hlookup hput (hlength.trans_le hsize)
          (by rw [hlength]), hle⟩
  | false =>
      by_cases hexpired : cookie.hasExpired p s₁.counters.time = true
      · rw [if_pos hexpired, Bucket.remove_of_not_any hany]
        exact ⟨_, rfl, hshelved.withBucket hlookup hgood hsize rfl, hle⟩
      · rw [if_neg hexpired, if_neg Bool.false_ne_true]
        have hlength : (Bucket.put bucket cookie).length = bucket.length + 1 := by
          rw [Bucket.put_of_not_any hany, List.length_append]
          rfl
        obtain ⟨hsub, hcount, hsize'⟩ := limit_spec (p := p) (hlength.trans_le (by omega))
          ⟨s₁.counters.totalCount + 1, s₁.counters.time + 1⟩
        dsimp only at hcount
        have hcount' : (limitBucket p (Bucket.put bucket cookie)
            ⟨s₁.counters.totalCount + 1, s₁.counters.time + 1⟩).2.totalCount + bucket.length =
            s₁.counters.totalCount + (limitBucket p (Bucket.put bucket cookie)
              ⟨s₁.counters.totalCount + 1, s₁.counters.time + 1⟩).1.length := by omega
        have hkept := hshelved.withBucket hlookup (hput.sublist hsub) hsize' hcount'
        rw [Method.run_set_bind]
        split_ifs with hexcess
        · obtain ⟨s', hrun, hs', hle'⟩ := purge_spec (p := p) (o := o) hkept
          exact ⟨s', hrun, hs', hle'.trans (by decide)⟩
        · exact ⟨_, rfl, hkept, le_of_not_gt hexcess⟩

end Queries

/-! ## Runs -/

/-- A call of the store. -/
inductive StoreCall where
  | put (cookie : Stored)
  | getCookie (cookie : Stored)
  | get (q : Query)

/-- What is left of the store after a call, whether it returns or throws. -/
def StoreCall.run (p : Platform) (o : Orders) (s : CookieStore) : StoreCall → CookieStore
  | .put cookie => ((CookieStore.put p o cookie).run s).2
  | .getCookie cookie => ((CookieStore.getCookie p cookie).run s).2
  | .get q => ((CookieStore.get p o q).run s).2

theorem Within.run (p : Platform) (o : Orders) {s : CookieStore}
    (h : Within TOTAL_COUNT_UPPER_THRESHOLD s) (call : StoreCall) :
    Within TOTAL_COUNT_UPPER_THRESHOLD (call.run p o s) := by
  cases call with
  | put cookie =>
      obtain ⟨s', hrun, hs'⟩ := put_spec (p := p) (o := o) cookie h
      rw [StoreCall.run, hrun]
      exact hs'
  | getCookie cookie => exact keeps_getCookie _ cookie s h
  | get q => exact keeps_get _ q s h

/-- **The books of the store**: after every sequence of calls they are right and the limits are
kept, and the next `put` finds enough cookies to remove. -/
theorem booked_of_calls (p : Platform) (o : Orders) (calls : List StoreCall) :
    Booked (calls.foldl (StoreCall.run p o) {}) ∧
      ∀ cookie, ((put p o cookie).run (calls.foldl (StoreCall.run p o) {})).1 = .ok () := by
  have hempty : Within TOTAL_COUNT_UPPER_THRESHOLD {} :=
    ⟨⟨List.nodup_nil, fun b hb => absurd hb List.not_mem_nil,
      fun b hb => absurd hb List.not_mem_nil, rfl⟩, by decide⟩
  have hwithin : ∀ (calls : List StoreCall) (s : CookieStore),
      Within TOTAL_COUNT_UPPER_THRESHOLD s →
      Within TOTAL_COUNT_UPPER_THRESHOLD (calls.foldl (StoreCall.run p o) s) := by
    intro calls
    induction calls with
    | nil => exact fun s h => h
    | cons call calls ih => exact fun s h => ih _ (h.run p o call)
  refine ⟨(hwithin calls {} hempty).shelved.booked (hwithin calls {} hempty).le, fun cookie => ?_⟩
  obtain ⟨s', hrun, -⟩ := put_spec (p := p) (o := o) cookie (hwithin calls {} hempty)
  rw [hrun]

end JavaFx.Web
