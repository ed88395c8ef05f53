import JavaFx.Collections.ObservableMapWrapper

/-!
# The entries of a map

A well-formed map has one entry for each of its keys, and its valid iterators
stand on entries of the map. Writing, adding or removing an entry keeps a map
well formed and changes its content at one key.
-/

set_option linter.unusedSectionVars false

namespace JavaFx.Collections

variable {K V : Type} [DecidableEq K]

/-! ## Well-formed maps -/

/-- An iterator that has not been invalidated stands on entries of the map. -/
structure MapIterator.Valid (s : ObservableMap K V) (it : MapIterator K V) : Prop where
  le : it.expectedModCount ≤ s.modCount
  nodup : it.expectedModCount = s.modCount → it.rest.Nodup
  rest : it.expectedModCount = s.modCount → ∀ n ∈ it.rest, n ∈ s.table
  last : it.expectedModCount = s.modCount → ∀ n, it.lastReturned = some n →
    n ∈ s.table ∧ n ∉ it.rest ∧ it.lastKey = s.keyOf n

namespace ObservableMap

structure WellFormed (s : ObservableMap K V) : Prop where
  nodup : s.table.Nodup
  lt : ∀ n ∈ s.table, n < s.entries.length
  keys : ∀ n ∈ s.table, ∀ m ∈ s.table, s.keyOf n = s.keyOf m → n = m
  valid : ∀ it ∈ s.iterators, it.Valid s

variable {s : ObservableMap K V}

theorem find_eq_some (h : s.WellFormed) {n : ℕ} {k : K} (hn : n ∈ s.table)
    (hk : s.keyOf n = some k) : s.find k = some n := by
  unfold find
  cases hf : s.table.find? (fun m => decide (s.keyOf m = some k)) with
  | none =>
      have := List.find?_eq_none.mp hf n hn
      simp [hk] at this
  | some m =>
      have hm := List.mem_of_find?_eq_some hf
      have hkm : s.keyOf m = some k := by simpa using List.find?_some hf
      rw [h.keys m hm n hn (hkm.trans hk.symm)]

theorem mem_of_find {n : ℕ} {k : K} (h : s.find k = some n) :
    n ∈ s.table ∧ s.keyOf n = some k :=
  ⟨List.mem_of_find?_eq_some h, by simpa using List.find?_some h⟩

theorem find_eq_none_iff {k : K} :
    s.find k = none ↔ ∀ n ∈ s.table, s.keyOf n ≠ some k := by
  unfold find
  rw [List.find?_eq_none]
  simp

theorem content_eq (h : s.WellFormed) {n : ℕ} {k : K} (hn : n ∈ s.table)
    (hk : s.keyOf n = some k) : s.content k = s.valueOf n := by
  rw [content, find_eq_some h hn hk]
  rfl

theorem exists_entry (h : s.WellFormed) {n : ℕ} (hn : n ∈ s.table) :
    ∃ e, s.entries[n]? = some e ∧ s.keyOf n = some e.key ∧
      s.valueOf n = some e.value := by
  have hlt := h.lt n hn
  refine ⟨s.entries[n], List.getElem?_eq_getElem hlt, ?_, ?_⟩
  · rw [keyOf, List.getElem?_eq_getElem hlt]
    rfl
  · rw [valueOf, List.getElem?_eq_getElem hlt]
    rfl

/-! ## Writing, adding and removing entries -/

/-- A structural modification invalidates every iterator. -/
theorem stale {t : ObservableMap K V} {it : MapIterator K V} {count : ℕ}
    (hle : it.expectedModCount ≤ count) (ht : t.modCount = count + 1 := by rfl) :
    it.Valid t := by
  have hne : it.expectedModCount ≠ t.modCount := by omega
  exact ⟨by omega, fun h => absurd h hne, fun h => absurd h hne,
    fun h => absurd h hne⟩

section WriteValue

variable {n : ℕ} {v : Option V}

@[simp] theorem keyOf_writeValue (m : ℕ) : (s.writeValue n v).keyOf m = s.keyOf m := by
  unfold keyOf writeValue
  rw [List.getElem?_modify]
  cases s.entries[m]? with
  | none => rfl
  | some e =>
      show Option.map _ (some _) = _
      split <;> rfl

theorem valueOf_writeValue (m : ℕ) :
    (s.writeValue n v).valueOf m = if m = n then (s.valueOf m).map fun _ => v
      else s.valueOf m := by
  unfold valueOf writeValue
  rw [List.getElem?_modify]
  cases s.entries[m]? with
  | none => simp
  | some e =>
      by_cases hmn : n = m
      · simp [hmn]
      · simp [hmn, Ne.symm hmn]

@[simp] theorem find_writeValue (k : K) : (s.writeValue n v).find k = s.find k := by
  unfold find
  simp only [keyOf_writeValue]
  rfl

theorem WellFormed.writeValue (h : s.WellFormed) : (s.writeValue n v).WellFormed where
  nodup := h.nodup
  lt := fun m hm => by
    have := h.lt m hm
    simpa [ObservableMap.writeValue] using this
  keys := fun m hm m' hm' heq => h.keys m hm m' hm' (by simpa using heq)
  valid := fun it hit =>
    { le := (h.valid it hit).le
      nodup := (h.valid it hit).nodup
      rest := (h.valid it hit).rest
      last := fun hcur m hm => by
        rw [keyOf_writeValue]
        exact (h.valid it hit).last hcur m hm }

/-- Writing to an entry of the map changes the value of its key. -/
theorem content_writeValue (h : s.WellFormed) {k : K} (hn : n ∈ s.table)
    (hk : s.keyOf n = some k) :
    (s.writeValue n v).content = Function.update s.content k (some v) := by
  funext k'
  unfold content
  rw [find_writeValue]
  by_cases hkk : k' = k
  · subst hkk
    obtain ⟨e, -, -, hv⟩ := exists_entry h hn
    rw [Function.update_self, find_eq_some h hn hk]
    show (s.writeValue n v).valueOf n = some v
    rw [valueOf_writeValue, if_pos rfl, hv]
    rfl
  · rw [Function.update_of_ne hkk]
    cases hf : s.find k' with
    | none => rfl
    | some m =>
        have hmn : m ≠ n := by
          rintro rfl
          rw [(mem_of_find hf).2] at hk
          exact hkk (Option.some.inj hk)
        show (s.writeValue n v).valueOf m = s.valueOf m
        rw [valueOf_writeValue, if_neg hmn]

/-- Writing to a detached entry does not change the map. -/
theorem content_writeValue_detached (hn : n ∉ s.table) :
    (s.writeValue n v).content = s.content := by
  funext k
  unfold content
  rw [find_writeValue]
  cases hf : s.find k with
  | none => rfl
  | some m =>
      have hmn : m ≠ n := by
        rintro rfl
        exact hn (mem_of_find hf).1
      show (s.writeValue n v).valueOf m = s.valueOf m
      rw [valueOf_writeValue, if_neg hmn]

end WriteValue

section AddEntry

variable {k : K} {v : Option V}

theorem keyOf_addEntry {n : ℕ} (hn : n < s.entries.length) :
    (s.addEntry k v).keyOf n = s.keyOf n := by
  unfold keyOf addEntry
  rw [List.getElem?_append_left hn]

theorem valueOf_addEntry {n : ℕ} (hn : n < s.entries.length) :
    (s.addEntry k v).valueOf n = s.valueOf n := by
  unfold valueOf addEntry
  rw [List.getElem?_append_left hn]

theorem keyOf_added : (s.addEntry k v).keyOf s.entries.length = some k := by
  simp [keyOf, addEntry]

theorem valueOf_added : (s.addEntry k v).valueOf s.entries.length = some v := by
  simp [valueOf, addEntry]

theorem mem_table_addEntry {n : ℕ} :
    n ∈ (s.addEntry k v).table ↔ n ∈ s.table ∨ n = s.entries.length := by
  simp [addEntry]

theorem WellFormed.addEntry (h : s.WellFormed) (hk : s.find k = none) :
    (s.addEntry k v).WellFormed where
  nodup := by
    have hnew : s.entries.length ∉ s.table := fun hmem =>
      Nat.lt_irrefl _ (h.lt _ hmem)
    show (s.table ++ [s.entries.length]).Nodup
    rw [← List.concat_eq_append]
    exact h.nodup.concat hnew
  lt := fun n hn => by
    show n < (s.entries ++ [_]).length
    rw [List.length_append, List.length_singleton]
    rcases mem_table_addEntry.mp hn with hn | rfl
    · have := h.lt n hn
      omega
    · omega
  keys := fun n hn m hm heq => by
    have hfresh := find_eq_none_iff.mp hk
    rcases mem_table_addEntry.mp hn with hn | rfl <;>
      rcases mem_table_addEntry.mp hm with hm | rfl
    · rw [keyOf_addEntry (h.lt n hn), keyOf_addEntry (h.lt m hm)] at heq
      exact h.keys n hn m hm heq
    · rw [keyOf_addEntry (h.lt n hn), keyOf_added] at heq
      exact absurd heq (hfresh n hn)
    · rw [keyOf_addEntry (h.lt m hm), keyOf_added] at heq
      exact absurd heq.symm (hfresh m hm)
    · rfl
  valid := fun it hit => stale (h.valid it hit).le

theorem content_addEntry (h : s.WellFormed) (hk : s.find k = none) :
    (s.addEntry k v).content = Function.update s.content k (some v) := by
  have hwf := h.addEntry (v := v) hk
  funext k'
  by_cases hkk : k' = k
  · subst hkk
    rw [Function.update_self, content_eq hwf (mem_table_addEntry.mpr (Or.inr rfl))
      keyOf_added, valueOf_added]
  · rw [Function.update_of_ne hkk]
    cases hf : s.find k' with
    | some n =>
        obtain ⟨hn, hkn⟩ := mem_of_find hf
        have hlt := h.lt n hn
        rw [content_eq h hn hkn, content_eq hwf (mem_table_addEntry.mpr (Or.inl hn))
          ((keyOf_addEntry hlt).trans hkn), valueOf_addEntry hlt]
    | none =>
        have hnone : (s.addEntry k v).find k' = none := by
          rw [find_eq_none_iff] at hf ⊢
          intro n hn
          rcases mem_table_addEntry.mp hn with hn | rfl
          · rw [keyOf_addEntry (h.lt n hn)]
            exact hf n hn
          · rw [keyOf_added]
            exact fun heq => hkk (Option.some.inj heq).symm
        rw [content, content, hf, hnone]
        rfl

end AddEntry

section RemoveEntry

variable {n : ℕ}

theorem mem_table_removeEntry (h : s.WellFormed) {m : ℕ} :
    m ∈ (s.removeEntry n).table ↔ m ≠ n ∧ m ∈ s.table :=
  h.nodup.mem_erase_iff

theorem WellFormed.removeEntry (h : s.WellFormed) : (s.removeEntry n).WellFormed where
  nodup := h.nodup.erase n
  lt := fun m hm => h.lt m ((mem_table_removeEntry h).mp hm).2
  keys := fun m hm m' hm' heq =>
    h.keys m ((mem_table_removeEntry h).mp hm).2 m'
      ((mem_table_removeEntry h).mp hm').2 heq
  valid := fun it hit => stale (h.valid it hit).le

theorem content_removeEntry (h : s.WellFormed) {k : K} (hn : n ∈ s.table)
    (hk : s.keyOf n = some k) :
    (s.removeEntry n).content = Function.update s.content k none := by
  have hwf := h.removeEntry (n := n)
  funext k'
  by_cases hkk : k' = k
  · subst hkk
    have hnone : (s.removeEntry n).find k' = none := by
      rw [find_eq_none_iff]
      intro m hm hkm
      obtain ⟨hne, hm'⟩ := (mem_table_removeEntry h).mp hm
      exact hne (h.keys m hm' n hn (Eq.trans hkm hk.symm))
    rw [Function.update_self, content, hnone]
    rfl
  · rw [Function.update_of_ne hkk]
    cases hf : s.find k' with
    | some m =>
        obtain ⟨hm, hkm⟩ := mem_of_find hf
        have hne : m ≠ n := by
          rintro rfl
          rw [hkm] at hk
          exact hkk (Option.some.inj hk)
        rw [content_eq h hm hkm,
          content_eq hwf ((mem_table_removeEntry h).mpr ⟨hne, hm⟩) hkm]
        rfl
    | none =>
        have hnone : (s.removeEntry n).find k' = none := by
          rw [find_eq_none_iff] at hf ⊢
          intro m hm
          exact hf m ((mem_table_removeEntry h).mp hm).2
        rw [content, content, hf, hnone]
        rfl

end RemoveEntry

/-- The content does not depend on the order of the table. -/
theorem content_rehash (h : s.WellFormed) {table : List ℕ}
    (hperm : table.Perm s.table) :
    ({ s with table := table }).WellFormed ∧
      ({ s with table := table }).content = s.content := by
  have hwf : ({ s with table := table }).WellFormed :=
    { nodup := hperm.nodup_iff.mpr h.nodup
      lt := fun n hn => h.lt n (hperm.mem_iff.mp hn)
      keys := fun n hn m hm heq =>
        h.keys n (hperm.mem_iff.mp hn) m (hperm.mem_iff.mp hm) heq
      valid := fun it hit =>
        { le := (h.valid it hit).le
          nodup := (h.valid it hit).nodup
          rest := fun hcur n hn =>
            hperm.mem_iff.mpr ((h.valid it hit).rest hcur n hn)
          last := fun hcur n hn => by
            obtain ⟨hmem, hrest⟩ := (h.valid it hit).last hcur n hn
            exact ⟨hperm.mem_iff.mpr hmem, hrest⟩ } }
  refine ⟨hwf, funext fun k => ?_⟩
  cases hf : s.find k with
  | some n =>
      obtain ⟨hn, hk⟩ := mem_of_find hf
      rw [content_eq h hn hk, content_eq hwf (hperm.mem_iff.mpr hn) hk]
      rfl
  | none =>
      have hnone : ({ s with table := table }).find k = none := by
        rw [find_eq_none_iff] at hf ⊢
        intro n hn
        exact hf n (hperm.mem_iff.mp hn)
      rw [content, content, hf, hnone]
      rfl

end ObservableMap

end JavaFx.Collections
