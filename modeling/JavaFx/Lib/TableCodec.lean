import JavaFx.Lib.ByteStream

/-!
# Formats with a table of keys

A writer emits bytes and collects the keys it refers to in a table that only grows; a reader is
given the whole table. `Codec w r a` says that `r` gets `a` back from what `w` has written, for
every table that extends the one the writer has left. Readers have a bound on their recursion,
for which the number of bytes always suffices.
-/

namespace TableCodec

open ByteStream

variable {K ε α β γ : Type}

/-- A writer: the table before, the bytes and the table after. -/
def Writer (K ε : Type) := List K → Except ε (List Byte × List K)

namespace Writer

def emit (bs : List Byte) : Writer K ε := fun tab => .ok (bs, tab)

def fail (e : ε) : Writer K ε := fun _ => .error e

def append (w w' : Writer K ε) : Writer K ε := fun tab =>
  match w tab with
  | .error e => .error e
  | .ok (bs, tab') =>
      match w' tab' with
      | .error e => .error e
      | .ok (bs', tab'') => .ok (bs ++ bs', tab'')

instance : Append (Writer K ε) := ⟨append⟩

/-- The index of the key, which is added to the table if it is not there. -/
def intern [DecidableEq K] (encode : ℕ → List Byte) (k : K) : Writer K ε := fun tab =>
  match tab.findIdx? (· = k) with
  | some i => .ok (encode i, tab)
  | none => .ok (encode tab.length, tab ++ [k])

/-- Everything in a list, one after the other. -/
def all (w : α → Writer K ε) : List α → Writer K ε
  | [] => emit []
  | a :: as => w a ++ all w as

theorem append_eq_ok {w w' : Writer K ε} {tab tab'' : List K} {bs : List Byte}
    (h : (w ++ w') tab = .ok (bs, tab'')) : ∃ bs₁ bs₂ tab', w tab = .ok (bs₁, tab') ∧
      w' tab' = .ok (bs₂, tab'') ∧ bs = bs₁ ++ bs₂ := by
  change append w w' tab = _ at h
  unfold append at h
  cases hw : w tab with
  | error e => rw [hw] at h; cases h
  | ok x =>
      rw [hw] at h
      obtain ⟨bs₁, tab'⟩ := x
      dsimp only at h
      cases hw' : w' tab' with
      | error e => rw [hw'] at h; cases h
      | ok y =>
          rw [hw'] at h
          obtain ⟨bs₂, tab₂⟩ := y
          cases h
          exact ⟨bs₁, bs₂, tab', rfl, hw', rfl⟩

theorem emit_nil_append (w : Writer K ε) : emit [] ++ w = w := by
  funext tab
  change append (emit []) w tab = w tab
  unfold append emit
  cases h : w tab with
  | error e => simp only [h]
  | ok x => simp only [h, List.nil_append]

theorem append_assoc (w w' w'' : Writer K ε) : (w ++ w') ++ w'' = w ++ (w' ++ w'') := by
  funext tab
  change append (append w w') w'' tab = append w (append w' w'') tab
  unfold append
  cases h : w tab with
  | error e => rfl
  | ok x =>
      cases h' : w' x.2 with
      | error e => simp only [h']
      | ok y =>
          cases h'' : w'' y.2 with
          | error e => simp only [h', h'']
          | ok z => simp only [h', h'', List.append_assoc]

theorem all_append (w : α → Writer K ε) (as bs : List α) :
    all w (as ++ bs) = all w as ++ all w bs := by
  induction as with
  | nil => rw [List.nil_append, all, emit_nil_append]
  | cons a as ih => rw [List.cons_append, all, all, ih, append_assoc]

end Writer

/-- The table has only been added to, and no key twice. -/
def Grows (tab tab' : List K) : Prop := tab <+: tab' ∧ (tab.Nodup → tab'.Nodup)

theorem grows_refl (tab : List K) : Grows tab tab := ⟨List.prefix_rfl, id⟩

theorem Grows.trans {tab tab' tab'' : List K} (h : Grows tab tab') (h' : Grows tab' tab'') :
    Grows tab tab'' :=
  ⟨h.1.trans h'.1, fun hn => h'.2 (h.2 hn)⟩

/-- What `w` writes, `r` reads as `a`, if the table has fewer than `bound` keys. The first
argument of `r` bounds its recursion and is below `limit`. -/
def Codec (bound limit : ℕ) (w : Writer K ε) (r : ℕ → List K → Reader ε α) (a : α) : Prop :=
  ∀ ⦃tab bs tab'⦄, w tab = .ok (bs, tab') → Grows tab tab' ∧
    ∀ n T, bs.length ≤ n → n < limit → tab' <+: T → T.length < bound → Decodes (r n T) bs a

variable {bound limit : ℕ}

/-- Bytes that do not depend on the table. -/
theorem codec_emit {bs : List Byte} {r : Reader ε α} {a : α} (h : Decodes r bs a) :
    Codec (K := K) bound limit (.emit bs) (fun _ _ => r) a := by
  intro tab bs' tab' hw
  cases hw
  exact ⟨grows_refl tab, fun _ _ _ _ _ _ => h⟩

theorem Codec.append {w w' : Writer K ε} {r : ℕ → List K → Reader ε α} {a : α}
    {f : ℕ → List K → α → Reader ε β} {b : β} (h : Codec bound limit w r a)
    (h' : Codec bound limit w' (fun n T => f n T a) b) :
    Codec bound limit (w ++ w') (fun n T => r n T >>= f n T) b := by
  intro tab bs tab'' hw
  obtain ⟨bs₁, bs₂, tab', h₁, h₂, rfl⟩ := Writer.append_eq_ok hw
  obtain ⟨hpre, hr⟩ := h h₁
  obtain ⟨hpre', hr'⟩ := h' h₂
  refine ⟨hpre.trans hpre', fun n T hn hlim hT hlt => ?_⟩
  rw [List.length_append] at hn
  exact (hr n T (by omega) hlim (hpre'.1.trans hT) hlt).bind (hr' n T (by omega) hlim hT hlt)

/-- A reader may start with something that needs no bytes. -/
theorem Codec.of_nil {r : Reader ε α} {a : α} (hr : Decodes r [] a) {w : Writer K ε}
    {f : ℕ → List K → α → Reader ε β} {b : β} (h : Codec bound limit w (fun n T => f n T a) b) :
    Codec bound limit w (fun n T => r >>= f n T) b := by
  rw [← Writer.emit_nil_append w]
  exact (codec_emit hr).append h

/-- The last value is only looked at. -/
theorem Codec.map {w : Writer K ε} {r : ℕ → List K → Reader ε α} {a : α}
    (h : Codec bound limit w r a) (g : α → β) : Codec bound limit w (fun n T => g <$> r n T) (g a) := by
  intro tab bs tab' hw
  obtain ⟨hpre, hr⟩ := h hw
  exact ⟨hpre, fun n T hn hlim hT hlt => (hr n T hn hlim hT hlt).map g⟩

/-- A reader may go on with a value that needs no more bytes. -/
theorem Codec.bind_pure {w : Writer K ε} {r : ℕ → List K → Reader ε α} {a : α}
    {f : ℕ → List K → α → Reader ε β} {b : β} (h : Codec bound limit w r a)
    (hf : ∀ n T, Decodes (f n T a) [] b) :
    Codec bound limit w (fun n T => r n T >>= f n T) b := by
  intro tab bs tab' hw
  obtain ⟨hpre, hr⟩ := h hw
  exact ⟨hpre, fun n T hn hlim hT hlt => (hr n T hn hlim hT hlt).bind_nil (hf n T)⟩

/-- Two readers that agree. -/
theorem Codec.congr {w : Writer K ε} {r r' : ℕ → List K → Reader ε α} {a : α}
    (h : Codec bound limit w r a) (hr : ∀ n T, r n T = r' n T) : Codec bound limit w r' a := by
  have : r = r' := funext fun n => funext fun T => hr n T
  rwa [← this]

/-- A recursive call has a smaller bound than the caller, which has already read something. -/
theorem Codec.descend {bs₀ : List Byte} (hne : bs₀ ≠ []) {r₀ : Reader ε α} {a : α}
    (h₀ : Decodes r₀ bs₀ a) {w : Writer K ε} {f : ℕ → List K → α → Reader ε β} {b : β}
    (h : Codec bound limit w (fun n T => f n T a) b) {r : ℕ → List K → Reader ε β}
    (hr : ∀ n T, r (n + 1) T = r₀ >>= f n T) : Codec bound limit (.emit bs₀ ++ w) r b := by
  intro tab bs tab'' hw
  obtain ⟨bs₁, bs₂, tab', h₁, h₂, rfl⟩ := Writer.append_eq_ok hw
  cases h₁
  obtain ⟨hpre, hdec⟩ := h h₂
  refine ⟨hpre, fun n T hn hlim hT hlt => ?_⟩
  have hpos : 0 < bs₀.length := List.length_pos_iff.mpr hne
  rw [List.length_append] at hn
  cases n with
  | zero => omega
  | succ n =>
      rw [hr]
      exact h₀.bind (hdec n T (by omega) (by omega) hT hlt)

/-- A number in front that says how often to read, and is no more than the bytes behind it. -/
theorem Codec.counted {k : ℕ} {encode : ℕ → List Byte} {r : Reader ε α} {a : α}
    (hr : k < limit → Decodes r (encode k) a) {w : Writer K ε}
    (hw : ∀ ⦃tab bs tab'⦄, w tab = .ok (bs, tab') → k ≤ bs.length)
    {f : ℕ → List K → α → Reader ε β} {b : β} (h : Codec bound limit w (fun n T => f n T a) b) :
    Codec bound limit (.emit (encode k) ++ w) (fun n T => r >>= f n T) b := by
  intro tab bs tab'' hwrite
  obtain ⟨bs₁, bs₂, tab', h₁, h₂, rfl⟩ := Writer.append_eq_ok hwrite
  cases h₁
  obtain ⟨hgrows, hdec⟩ := h h₂
  refine ⟨hgrows, fun n T hn hlim hT hlt => ?_⟩
  rw [List.length_append] at hn
  have hk := hw h₂
  exact (hr (by omega)).bind (hdec n T (by omega) hlim hT hlt)

/-- One more value in front of others of its kind. -/
theorem Codec.cons {w w' : Writer K ε} {r : ℕ → List K → Reader ε α} {a : α} {k : ℕ} {as : List α}
    (h : Codec bound limit w r a)
    (h' : Codec bound limit w' (fun n T => replicateReader (r n T) k) as) :
    Codec bound limit (w ++ w') (fun n T => replicateReader (r n T) (k + 1)) (a :: as) := by
  refine Codec.append (f := fun n T x => do
    let xs ← replicateReader (r n T) k
    pure (x :: xs)) h ?_
  exact h'.bind_pure fun _ _ => decodes_pure _

/-- A list is read by as many readers as it has elements. -/
theorem codec_all {w : α → Writer K ε} {r : ℕ → List K → Reader ε β} {g : α → β} (as : List α)
    (h : ∀ a ∈ as, Codec bound limit (w a) r (g a)) :
    Codec bound limit (.all w as) (fun n T => replicateReader (r n T) as.length) (as.map g) := by
  induction as with
  | nil => exact codec_emit (decodes_pure [])
  | cons a as ih =>
      exact (h a (List.mem_cons_self ..)).cons (ih fun b hb => h b (List.mem_cons_of_mem _ hb))

/-- A key is found under the index it has been given. -/
theorem codec_intern [DecidableEq K] {encode : ℕ → List Byte} {r : List K → Reader ε α} {k : K}
    {a : α} (h : ∀ i T, i < bound → T[i]? = some k → Decodes (r T) (encode i) a) :
    Codec bound limit (.intern encode k) (fun _ T => r T) a := by
  intro tab bs tab' hw
  unfold Writer.intern at hw
  split at hw
  · next i hi =>
      cases hw
      obtain ⟨hlt, hk, -⟩ := List.findIdx?_eq_some_iff_getElem.mp hi
      refine ⟨grows_refl _, fun _ T _ _ hT hbound => ?_⟩
      obtain ⟨rest, rfl⟩ := hT
      refine h i _ ?_ ?_
      · rw [List.length_append] at hbound
        omega
      · rw [List.getElem?_append_left hlt, List.getElem?_eq_getElem hlt, of_decide_eq_true hk]
  · next hnone =>
    cases hw
    have hnew : k ∉ tab := fun hk => by
      have := List.findIdx?_eq_none_iff.mp hnone k hk
      simp at this
    have hgrows : Grows tab (tab ++ [k]) :=
      ⟨List.prefix_append _ _, fun hn => List.nodup_append.mpr
        ⟨hn, List.pairwise_singleton _ _, fun a ha b hb hab => hnew
          (List.mem_singleton.mp hb ▸ hab ▸ ha)⟩⟩
    refine ⟨hgrows, fun _ T _ _ hT hbound => ?_⟩
    obtain ⟨rest, rfl⟩ := hT
    refine h _ _ ?_ ?_
    · rw [List.length_append, List.length_append] at hbound
      omega
    · rw [List.append_assoc, List.getElem?_append_right (Nat.le_refl _), Nat.sub_self]
      rfl

/-! ## What ends up in the table -/

/-- The writer keeps the table and leaves the keys `ks` in it. -/
def Interns (w : Writer K ε) (ks : List K) : Prop :=
  ∀ ⦃tab bs tab'⦄, w tab = .ok (bs, tab') → tab <+: tab' ∧ ∀ k ∈ ks, k ∈ tab'

theorem interns_emit (bs : List Byte) : Interns (K := K) (ε := ε) (.emit bs) [] := by
  intro tab bs' tab' hw
  cases hw
  exact ⟨List.prefix_rfl, fun k hk => nomatch hk⟩

theorem interns_intern [DecidableEq K] (encode : ℕ → List Byte) (k : K) :
    Interns (ε := ε) (.intern encode k) [k] := by
  intro tab bs tab' hw
  unfold Writer.intern at hw
  split at hw
  · next i hi =>
      cases hw
      obtain ⟨hlt, hk, -⟩ := List.findIdx?_eq_some_iff_getElem.mp hi
      refine ⟨List.prefix_rfl, fun k' hk' => ?_⟩
      rw [List.mem_singleton.mp hk', ← of_decide_eq_true hk]
      exact List.getElem_mem hlt
  · cases hw
    refine ⟨List.prefix_append _ _, fun k' hk' => ?_⟩
    exact List.mem_append_right _ hk'

theorem Interns.append {w w' : Writer K ε} {ks ks' : List K} (h : Interns w ks)
    (h' : Interns w' ks') : Interns (w ++ w') (ks ++ ks') := by
  intro tab bs tab'' hw
  obtain ⟨bs₁, bs₂, tab', h₁, h₂, rfl⟩ := Writer.append_eq_ok hw
  obtain ⟨hpre, hks⟩ := h h₁
  obtain ⟨hpre', hks'⟩ := h' h₂
  refine ⟨hpre.trans hpre', fun k hk => ?_⟩
  rcases List.mem_append.mp hk with hk | hk
  · exact hpre'.subset (hks k hk)
  · exact hks' k hk

theorem interns_all {w : α → Writer K ε} {f : α → List K} (as : List α)
    (h : ∀ a, Interns (w a) (f a)) : Interns (.all w as) (as.flatMap f) := by
  induction as with
  | nil => exact interns_emit []
  | cons a as ih => exact (h a).append ih

/-! ## Writers that never fail -/

def Total (w : Writer K ε) : Prop := ∀ tab, ∃ bs tab', w tab = .ok (bs, tab')

theorem total_emit (bs : List Byte) : Total (K := K) (ε := ε) (.emit bs) := fun tab =>
  ⟨bs, tab, rfl⟩

theorem total_intern [DecidableEq K] (encode : ℕ → List Byte) (k : K) :
    Total (ε := ε) (.intern encode k) := by
  intro tab
  unfold Writer.intern
  split
  · exact ⟨_, _, rfl⟩
  · exact ⟨_, _, rfl⟩

theorem Total.append {w w' : Writer K ε} (h : Total w) (h' : Total w') : Total (w ++ w') := by
  intro tab
  obtain ⟨bs, tab', hw⟩ := h tab
  obtain ⟨bs', tab'', hw'⟩ := h' tab'
  refine ⟨bs ++ bs', tab'', ?_⟩
  change Writer.append w w' tab = _
  rw [Writer.append, hw]
  simp only [hw']

theorem total_all {w : α → Writer K ε} (h : ∀ a, Total (w a)) (as : List α) :
    Total (.all w as) := by
  induction as with
  | nil => exact total_emit []
  | cons a as ih => exact (h a).append ih

end TableCodec
