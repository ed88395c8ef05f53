import JavaFx.Collections.Change
import JavaFx.Lib.IndexPerm
import JavaFx.Lib.Runs

/-!
# What a listener is promised

A `Change` reaches a listener when the list already has its final content. Its
sub-changes, read in order, take the content the listener knows to that final
content: a permutation moves the elements of its range, an addition or removal
replaces `getRemoved()` by the final elements of `[getFrom(), getTo())`, and an
update leaves every element where it is. The documented order of the kinds is
permutations, additions and removals, updates, and the additions and removals
are sorted by `from`.
-/

namespace JavaFx.Collections

open IndexPerm Splice Runs

variable {α : Type}

/-! ## The accessors of one sub-change -/

namespace SubChange

def getRemoved (c : SubChange α) : List α := c.removed.getD []

def getRemovedSize (c : SubChange α) : ℕ := c.getRemoved.length

def wasPermutated (c : SubChange α) : Bool := c.perm.length != 0

def wasRemoved (c : SubChange α) : Bool := !c.getRemoved.isEmpty

def wasAdded (c : SubChange α) : Bool :=
  !c.wasPermutated && !c.updated && c.from_ < c.to_

end SubChange

/-! ## Replaying -/

/-- What the elements of a content are: references, which an update leaves as
they are, or snapshots of the objects' states, which it takes anew. -/
inductive Elements where
  | references
  | snapshots
deriving DecidableEq, Repr

/-- The content after an update of `[lo, hi)`. -/
def Elements.refresh (k : Elements) (new : List α) (lo hi : ℕ) (l : List α) :
    List α :=
  match k with
  | .references => l
  | .snapshots => splice lo (hi - lo) (slice lo hi new) l

/-- The sub-change takes the content `l` to `l'` on the way to `new`. -/
inductive SubChange.Replays (k : Elements) (new : List α) (c : SubChange α) :
    List α → List α → Prop where
  | permutation (l : List α) : c.perm ≠ [] → c.updated = false →
      c.getRemoved = [] → IsPerm c.from_ c.perm →
      c.to_ = c.from_ + c.perm.length → c.to_ ≤ l.length →
      Replays k new c l (permute c.from_ c.perm l)
  | addRemove (pre post : List α) : c.perm = [] → c.updated = false →
      pre.length = c.from_ → c.from_ ≤ c.to_ → c.to_ ≤ new.length →
      Replays k new c (pre ++ (c.getRemoved ++ post))
        (pre ++ (slice c.from_ c.to_ new ++ post))
  | update (l : List α) : c.perm = [] → c.updated = true → c.getRemoved = [] →
      c.from_ ≤ c.to_ → c.to_ ≤ l.length → c.to_ ≤ new.length →
      Replays k new c l (k.refresh new c.from_ c.to_ l)

/-- The sub-changes, one after the other, take `l` to `l'`. -/
inductive ReplaysAll (k : Elements) (new : List α) :
    List (SubChange α) → List α → List α → Prop where
  | nil (l : List α) : ReplaysAll k new [] l l
  | cons {c : SubChange α} {cs : List (SubChange α)} {l m l' : List α} :
      c.Replays k new l m → ReplaysAll k new cs m l' →
      ReplaysAll k new (c :: cs) l l'

theorem ReplaysAll.append_inv {k : Elements} {new : List α}
    {cs cs' : List (SubChange α)} {l l' : List α}
    (h : ReplaysAll k new (cs ++ cs') l l') :
    ∃ m, ReplaysAll k new cs l m ∧ ReplaysAll k new cs' m l' := by
  induction cs generalizing l with
  | nil => exact ⟨l, .nil l, h⟩
  | cons c cs ih =>
      cases h with
      | cons hc hcs =>
          obtain ⟨m, hm, hm'⟩ := ih hcs
          exact ⟨m, .cons hc hm, hm'⟩

/-- The splice an addition or removal makes. -/
def SubChange.edit (new : List α) (c : SubChange α) : Edit α :=
  ⟨c.from_, c.getRemovedSize, slice c.from_ c.to_ new⟩

/-- The content after the permutations of a change. -/
def permuteAll {β : Type} (ps : List (SubChange α)) (l : List β) : List β :=
  ps.foldl (fun l c => permute c.from_ c.perm l) l

section Replay

variable {k : Elements} {new l l' : List α}

theorem replays_permutation {c : SubChange α} (hperm : c.perm ≠ [])
    (h : c.Replays k new l l') :
    IsPerm c.from_ c.perm ∧ c.to_ = c.from_ + c.perm.length ∧ c.to_ ≤ l.length ∧
      l' = permute c.from_ c.perm l := by
  cases h with
  | permutation l _ _ _ hp hto hle => exact ⟨hp, hto, hle, rfl⟩
  | addRemove pre post hnil => exact absurd hnil hperm
  | update l hnil => exact absurd hnil hperm

/-- A permutation says nothing of removals or updates. -/
theorem replays_permutation_only {c : SubChange α} (hperm : c.perm ≠ [])
    (h : c.Replays k new l l') : c.updated = false ∧ c.getRemoved = [] := by
  cases h with
  | permutation l _ hupd hrem => exact ⟨hupd, hrem⟩
  | addRemove pre post hnil => exact absurd hnil hperm
  | update l hnil => exact absurd hnil hperm

theorem replays_addRemove {c : SubChange α} (hperm : c.perm = [])
    (hupd : c.updated = false) (h : c.Replays k new l l') :
    c.from_ ≤ c.to_ ∧ c.to_ ≤ new.length ∧ c.from_ + c.getRemovedSize ≤ l.length ∧
      l' = splice c.from_ c.getRemovedSize (slice c.from_ c.to_ new) l := by
  cases h with
  | permutation l hne => exact absurd hperm hne
  | addRemove pre post _ _ hpre hft hto =>
      refine ⟨hft, hto, ?_, (splice_append hpre rfl).symm⟩
      rw [List.length_append, List.length_append, hpre]
      unfold SubChange.getRemovedSize
      omega
  | update l _ hu => rw [hupd] at hu; cases hu

theorem replays_update {c : SubChange α} (hperm : c.perm = [])
    (hupd : c.updated = true) (h : c.Replays .references new l l') :
    c.getRemoved = [] ∧ l' = l := by
  cases h with
  | permutation l hne => exact absurd hperm hne
  | addRemove pre post _ hu => rw [hupd] at hu; cases hu
  | update l _ _ hrem => exact ⟨hrem, rfl⟩

theorem map_permuteAll {β γ : Type} (f : β → γ) (ps : List (SubChange α))
    (l : List β) : (permuteAll ps l).map f = permuteAll ps (l.map f) := by
  induction ps generalizing l with
  | nil => rfl
  | cons c ps ih =>
      show (permuteAll ps (permute c.from_ c.perm l)).map f = _
      rw [ih, map_permute]
      rfl

theorem replaysAll_spliceAll {cs : List (SubChange α)}
    (hcs : ∀ c ∈ cs, c.perm = [] ∧ c.updated = false)
    (h : ReplaysAll k new cs l l') : l' = spliceAll (cs.map (SubChange.edit new)) l := by
  induction h with
  | nil l => rfl
  | @cons c cs l m l' hc _ ih =>
      obtain ⟨hperm, hupd⟩ := hcs c List.mem_cons_self
      obtain ⟨-, -, -, rfl⟩ := replays_addRemove hperm hupd hc
      exact ih fun c hcm => hcs c (List.mem_cons_of_mem _ hcm)

theorem replaysAll_updates {cs : List (SubChange α)}
    (hcs : ∀ c ∈ cs, c.perm = [] ∧ c.updated = true)
    (h : ReplaysAll .references new cs l l') : l' = l := by
  induction h with
  | nil l => rfl
  | @cons c cs l m l' hc _ ih =>
      obtain ⟨hperm, hupd⟩ := hcs c List.mem_cons_self
      obtain ⟨-, rfl⟩ := replays_update hperm hupd hc
      exact ih fun c hcm => hcs c (List.mem_cons_of_mem _ hcm)

theorem replaysAll_permuteAll {ps : List (SubChange α)}
    (hps : ∀ c ∈ ps, c.perm ≠ []) (h : ReplaysAll k new ps l l') :
    l' = permuteAll ps l ∧ l'.length = l.length := by
  induction h with
  | nil l => exact ⟨rfl, rfl⟩
  | cons hc hcs ih =>
      obtain ⟨hp, hto, hle, rfl⟩ :=
        replays_permutation (hps _ List.mem_cons_self) hc
      obtain ⟨hl', hlen⟩ := ih fun c hcm => hps c (List.mem_cons_of_mem _ hcm)
      refine ⟨hl', ?_⟩
      rw [hlen, (permute_moves hp (by omega)).length_eq]

end Replay

/-- A `Change` with its kinds of sub-changes in the documented order, and the
content of `getList()` at the time it is delivered. -/
structure DocumentedChange (α : Type) where
  permutations : List (SubChange α)
  addRemoves : List (SubChange α)
  updates : List (SubChange α)
  list : List α
  isPermutation : ∀ c ∈ permutations, c.perm ≠ []
  isAddRemove : ∀ c ∈ addRemoves, c.perm = [] ∧ c.updated = false
  isUpdate : ∀ c ∈ updates, c.perm = [] ∧ c.updated = true
  sorted : addRemoves.Pairwise fun a b => a.from_ ≤ b.from_

namespace DocumentedChange

theorem no_updates : ∀ c ∈ ([] : List (SubChange α)), c.perm = [] ∧ c.updated = true :=
  fun _ hc => absurd hc List.not_mem_nil

/-- The sub-changes as `next()` visits them. -/
def changes (ch : DocumentedChange α) : List (SubChange α) :=
  ch.permutations ++ (ch.addRemoves ++ ch.updates)

/-- The change takes the content `l` to the one its list has now. -/
def Replays (k : Elements) (ch : DocumentedChange α) (l : List α) : Prop :=
  ReplaysAll k ch.list ch.changes l ch.list

/-- The splices of the additions and removals of a change. -/
def edits (ch : DocumentedChange α) : List (Edit α) :=
  ch.addRemoves.map (SubChange.edit ch.list)

/-- The final content, from the one before the change. -/
theorem Replays.list_eq {ch : DocumentedChange α} {l : List α}
    (h : ch.Replays .references l) :
    ch.list = spliceAll ch.edits (permuteAll ch.permutations l) := by
  obtain ⟨m, hps, hrest⟩ := ReplaysAll.append_inv h
  obtain ⟨m', hars, hups⟩ := ReplaysAll.append_inv hrest
  rw [replaysAll_updates ch.isUpdate hups,
    ← (replaysAll_permuteAll ch.isPermutation hps).1]
  exact replaysAll_spliceAll ch.isAddRemove hars

theorem Replays.to_le {k : Elements} {ch : DocumentedChange α} {l : List α}
    (h : ch.Replays k l) : ∀ c ∈ ch.addRemoves, c.to_ ≤ ch.list.length := by
  have hall : ∀ {cs : List (SubChange α)} {l l' : List α},
      ReplaysAll k ch.list cs l l' →
      ∀ c ∈ cs, c.perm = [] → c.updated = false → c.to_ ≤ ch.list.length := by
    intro cs l l' hcs
    induction hcs with
    | nil l => intro c hc; cases hc
    | cons hc _ ih =>
        intro c hcm hperm hupd
        rcases List.mem_cons.mp hcm with rfl | hcm
        · exact (replays_addRemove hperm hupd hc).2.1
        · exact ih c hcm hperm hupd
  intro c hc
  obtain ⟨hperm, hupd⟩ := ch.isAddRemove c hc
  exact hall h c (List.mem_append_right _ (List.mem_append_left _ hc)) hperm hupd

end DocumentedChange

/-! ## Runs of changes -/

/-- `P` holds of every change of a run, at the content it starts from. -/
def Throughout (P : List α → DocumentedChange α → Prop) :
    List α → List (DocumentedChange α) → Prop
  | _, [] => True
  | l, ch :: run => P l ch ∧ Throughout P ch.list run

/-- The content of the source after a run. -/
def contentAfter (l : List α) (run : List (DocumentedChange α)) : List α :=
  run.foldl (fun _ ch => ch.list) l

theorem Throughout.and {P Q : List α → DocumentedChange α → Prop} {l : List α}
    {run : List (DocumentedChange α)} (hP : Throughout P l run)
    (hQ : Throughout Q l run) : Throughout (fun l ch => P l ch ∧ Q l ch) l run := by
  induction run generalizing l with
  | nil => trivial
  | cons ch run ih => exact ⟨⟨hP.1, hQ.1⟩, ih hP.2 hQ.2⟩

section Follow

variable {σ ε e : Type} {st : σ → ε → Except e σ} (change : ε → DocumentedChange α)
  {V C : List α → DocumentedChange α → Prop} (sync good : List α → σ → Prop)

/-- A listener that follows one change of a source it is in step with follows a
whole run. -/
theorem follows_prefixes
    (hstep : ∀ l s x, V l (change x) → sync l s →
      ∃ s', st s x = .ok s' ∧ sync (change x).list s')
    {run : List ε} {l : List α} {s : σ} (hV : Throughout V l (run.map change))
    (hs : sync l s) {pre : List ε} (hpre : pre <+: run) :
    ∃ s', runAll st s pre = .ok s' ∧
      sync (contentAfter l (pre.map change)) s' := by
  induction run generalizing l s pre with
  | nil =>
      rw [List.prefix_nil.mp hpre]
      exact ⟨s, rfl, hs⟩
  | cons x run ih =>
      obtain ⟨hVx, hVrun⟩ := hV
      cases pre with
      | nil => exact ⟨s, rfl, hs⟩
      | cons y pre =>
          obtain ⟨rfl, hpre'⟩ := List.cons_prefix_cons.mp hpre
          obtain ⟨s', hs', hsync⟩ := hstep l s y hVx hs
          rw [runAll_cons_ok pre hs']
          exact ih hVrun hsync hpre'

/-- Conversely, what a listener needs to follow one change it needs throughout a
run that it follows. -/
theorem throughout_of_follows
    (hstep : ∀ l s x s', V l (change x) → sync l s → st s x = .ok s' →
      good (change x).list s' → C l (change x) ∧ sync (change x).list s')
    {run : List ε} {l : List α} {s : σ} (hV : Throughout V l (run.map change))
    (hs : sync l s)
    (h : ∀ pre, pre <+: run → ∃ s', runAll st s pre = .ok s' ∧
      good (contentAfter l (pre.map change)) s') :
    Throughout C l (run.map change) := by
  induction run generalizing l s with
  | nil => trivial
  | cons x run ih =>
      obtain ⟨hVx, hVrun⟩ := hV
      obtain ⟨s', hs', hgood⟩ := h [x] (List.prefix_append [x] run)
      rw [runAll_singleton] at hs'
      obtain ⟨hC, hsync⟩ := hstep l s x s' hVx hs hs' hgood
      refine ⟨hC, ih hVrun hsync fun pre hpre => ?_⟩
      obtain ⟨t, ht, hgt⟩ := h (x :: pre) (List.cons_prefix_cons.mpr ⟨rfl, hpre⟩)
      rw [runAll_cons_ok pre hs'] at ht
      exact ⟨t, ht, hgt⟩

end Follow

end JavaFx.Collections
