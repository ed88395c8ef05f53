import JavaFx.Concurrent.Task

/-!
# Which interleavings keep the protocol

The states other than `CANCELLED` are set in the order in which the background thread posts them,
so only the one `setState(CANCELLED)` can come in between. It breaks the protocol where it comes
after the result, which the FX thread may learn before the `FutureTask` is done, and where it comes
in a listener, before the event of the state that has been set (`protocol_iff`).
-/

namespace JavaFx.Concurrent

open Runs

/-! ## Logs -/

theorem snoc_eq_append_cons {α : Type} {l before after : List α} {x y : α} :
    l ++ [x] = before ++ y :: after ↔ (after = [] ∧ x = y ∧ l = before) ∨
      ∃ rest, after = rest ++ [x] ∧ l = before ++ y :: rest := by
  constructor
  · intro h
    rcases List.eq_nil_or_concat after with rfl | ⟨rest, z, rfl⟩
    · obtain ⟨hl, hx⟩ := List.append_inj' h rfl
      cases hx
      exact .inl ⟨rfl, rfl, hl⟩
    · have h' : l ++ [x] = (before ++ y :: rest) ++ [z] := by
        rw [h, List.append_assoc, List.cons_append, List.concat_eq_append]
      obtain ⟨hl, hx⟩ := List.append_inj' h' rfl
      cases hx
      exact .inr ⟨rest, List.concat_eq_append, hl⟩
  · rintro (⟨rfl, rfl, rfl⟩ | ⟨rest, rfl, rfl⟩)
    · rfl
    · rw [List.append_assoc, List.cons_append]

/-- A terminal state is entered last, with nothing behind it but its own event. -/
def Settled (log : List Event) : Prop :=
  ∀ before s after, log = before ++ .entered s :: after → s.isTerminal = true →
    after = [] ∨ after = [.fired s]

def ScheduledFirst (log : List Event) : Prop :=
  ∀ before after, log = before ++ .entered .running :: after → .entered .scheduled ∈ before

/-- As long as no terminal state has been entered, any event may follow. -/
theorem settled_append {log : List Event} {e : Event}
    (h : ∀ s, s.isTerminal = true → .entered s ∉ log) : Settled (log ++ [e]) := by
  intro before s after hlog hs
  rcases snoc_eq_append_cons.mp hlog with ⟨rfl, -, -⟩ | ⟨rest, rfl, rfl⟩
  · exact .inl rfl
  · exact absurd (List.mem_append_right _ (List.mem_cons_self ..)) (h s hs)

/-- The event of a terminal state may follow its entry. -/
theorem settled_fired {log : List Event} {s : State} (h : Settled (log ++ [.entered s])) :
    Settled (log ++ [.entered s] ++ [.fired s]) := by
  intro before s' after hlog hs'
  rcases snoc_eq_append_cons.mp hlog with ⟨rfl, he, -⟩ | ⟨rest, rfl, hrest⟩
  · cases he
  · rcases snoc_eq_append_cons.mp hrest with ⟨rfl, he, -⟩ | ⟨rest', rfl, hrest'⟩
    · cases he
      exact .inr rfl
    · rcases h before s' (rest' ++ [.entered s]) hrest hs' with h | h
      · exact absurd h (by simp)
      · obtain ⟨-, he⟩ := List.append_inj' (show rest' ++ [.entered s] = [] ++ [.fired s'] from h) rfl
        cases he

theorem ScheduledFirst.append {log : List Event} {e : Event} (h : ScheduledFirst log)
    (he : e = .entered .running → .entered .scheduled ∈ log) : ScheduledFirst (log ++ [e]) := by
  intro before after hlog
  rcases snoc_eq_append_cons.mp hlog with ⟨-, rfl, rfl⟩ | ⟨rest, -, hrest⟩
  · exact he rfl
  · exact h before rest hrest

namespace Task

/-! ## The invariant -/

/-- The states other than `CANCELLED` that an instruction is going to set. -/
def plans : Instr → List State
  | .setState value => if value = .cancelled then [] else [value]
  | .setRunning _ => []
  | .fireEvent _ => []

/-- The states other than `CANCELLED` that are going to be set, in their order. -/
def planned (t : Task) : List State :=
  t.instrs.flatMap plans ++ t.queue.flatMap fun r => r.run.flatMap plans

/-- What has been posted at the end of `call()`. -/
def Called (posted : List State) : Prop :=
  posted = [.scheduled, .running] ∨
    ∃ s, (s = .succeeded ∨ s = .failed) ∧ posted = [.scheduled, .running, s]

/-- What the background thread has posted so far. -/
def Posted : Background → List State → Prop
  | .idle, posted => posted = []
  | .finishing, posted => Called posted
  | .finished, posted => posted = [] ∨ Called posted
  | _, posted => posted = [.scheduled, .running]

/-- The states come in the order in which they have been posted. -/
def Ordered (t : Task) : Prop :=
  ∃ posted k, Posted t.background posted ∧ k ≤ posted.length ∧ t.planned = posted.drop k ∧
    (t.state = .cancelled ∨ (State.ready :: posted)[k]? = some t.state)

/-- The calls of `setState(CANCELLED)` that are still to come. -/
def cancellations (t : Task) : ℕ :=
  t.instrs.count (.setState .cancelled) + t.queue.count .cancel + if t.canceller then 1 else 0

/-- A successful `cancel()` leads to one `setState(CANCELLED)`, and nothing else does. -/
inductive Accounted (t : Task) : Prop where
  | not (future : t.future ≠ .cancelled) (cancellations : t.cancellations = 0)
      (state : t.state ≠ .cancelled)
  | pending (future : t.future = .cancelled) (cancellations : t.cancellations = 1)
      (state : t.state ≠ .cancelled)
  | set (future : t.future = .cancelled) (cancellations : t.cancellations = 0)
      (state : t.state = .cancelled)

/-- How the calls of `setState` under way, the state and the log belong together. -/
structure Frames (state : State) (instrs : List Instr) (log : List Event) : Prop where
  frames : ∀ v, .setRunning v ∈ instrs ∨ .fireEvent v ∈ instrs → state = v ∨ state = .cancelled
  below : instrs.Pairwise fun i j => plans i ≠ [] → ∃ w, j = .setState w
  logged : state ≠ .ready → .entered state ∈ log
  terminal : ∀ s, s.isTerminal = true → .entered s ∈ log → state = s
  unfired : ∀ v, v.isTerminal = true → .fireEvent v ∈ instrs →
    instrs.count (.fireEvent v) = 1 ∧ ∃ before, log = before ++ [.entered v]
  told : state = .cancelled → (∃ before, log = before ++ [.fired .cancelled]) ∨
    ∃ rest, instrs = .setRunning .cancelled :: .fireEvent .cancelled :: rest ∨
      instrs = .fireEvent .cancelled :: rest

structure Inv (t : Task) : Prop where
  ordered : t.Ordered
  accounted : t.Accounted
  frames : Frames t.state t.instrs t.log

theorem inv_init : Inv {} := by
  refine ⟨⟨[], 0, rfl, le_refl _, rfl, .inr rfl⟩, .not (by decide) rfl (by decide), ?_⟩
  refine ⟨?_, List.Pairwise.nil, fun h => absurd rfl h, ?_, ?_, fun h => nomatch h⟩
  · rintro v (h | h)
    · exact nomatch h
    · exact nomatch h
  · exact fun s _ h => nomatch h
  · exact fun v _ h => nomatch h

theorem protocol_init : Protocol {} := by
  refine ⟨?_, ?_, fun h => nomatch h⟩
  · intro before s after h _
    exact absurd h (by simp)
  · intro before after h
    exact absurd h (by simp)

/-! ### The background thread and the canceller -/

/-- One more runnable. -/
theorem planned_runLater (t : Task) (r : Runnable) :
    (t.runLater r).planned = t.planned ++ r.run.flatMap plans := by
  simp only [planned, runLater, List.flatMap_append, List.flatMap_singleton, List.append_assoc]

theorem Ordered.posts {t t' : Task} (h : t.Ordered) (new : List State)
    (hposted : ∀ posted, Posted t.background posted → Posted t'.background (posted ++ new))
    (hplanned : t'.planned = t.planned ++ new) (hstate : t'.state = t.state) : t'.Ordered := by
  obtain ⟨posted, k, hp, hk, hdrop, hnow⟩ := h
  refine ⟨posted ++ new, k, hposted posted hp, ?_, ?_, ?_⟩
  · rw [List.length_append]
    omega
  · rw [hplanned, hdrop, List.drop_append_of_le_length hk]
  · rw [hstate]
    rcases hnow with hnow | hnow
    · exact .inl hnow
    · refine .inr ?_
      rw [← List.cons_append, List.getElem?_append_left]
      · exact hnow
      · rw [List.length_cons]
        omega

theorem Ordered.moves {t t' : Task} (h : t.Ordered)
    (hposted : ∀ posted, Posted t.background posted → Posted t'.background posted)
    (hplanned : t'.planned = t.planned) (hstate : t'.state = t.state) : t'.Ordered := by
  refine h.posts [] (fun posted hp => ?_) ?_ hstate
  · rw [List.append_nil]
    exact hposted posted hp
  · rw [List.append_nil, hplanned]

/-- Who counts on what, where neither the future nor the state changes. -/
theorem Accounted.same {t t' : Task} (h : t.Accounted) (hfuture : t'.future = t.future)
    (hcount : t'.cancellations = t.cancellations) (hstate : t'.state = t.state) :
    t'.Accounted := by
  cases h with
  | not f c s => exact .not (hfuture ▸ f) (hcount ▸ c) (hstate ▸ s)
  | pending f c s => exact .pending (hfuture ▸ f) (hcount ▸ c) (hstate ▸ s)
  | set f c s => exact .set (hfuture ▸ f) (hcount ▸ c) (hstate ▸ s)

theorem Inv.protocol {t : Task} (h : t.Inv) (hsettled : Settled t.log)
    (hfirst : ScheduledFirst t.log) : t.Protocol := by
  refine ⟨hsettled, hfirst, fun hfuture hquiet => ?_⟩
  have hnone : t.cancellations = 0 := by
    rw [cancellations, hquiet.instrs, hquiet.queue, hquiet.canceller]
    rfl
  cases h.accounted with
  | not f c s => exact absurd hfuture f
  | pending f c s => omega
  | set f c s => exact s

/-- A step that is not one of `setState`. -/
theorem Inv.aside {t t' : Task} (h : t.Inv) (hp : t.Protocol) (hordered : t'.Ordered)
    (haccounted : t'.Accounted) (hstate : t'.state = t.state) (hinstrs : t'.instrs = t.instrs)
    (hlog : t'.log = t.log) : t'.Inv ∧ t'.Protocol := by
  have hinv : t'.Inv := by
    refine ⟨hordered, haccounted, ?_⟩
    rw [hstate, hinstrs, hlog]
    exact h.frames
  refine ⟨hinv, hinv.protocol ?_ ?_⟩
  · rw [hlog]
    exact hp.settled
  · rw [hlog]
    exact hp.scheduledFirst

theorem Inv.run {t : Task} (h : t.Inv) (hp : t.Protocol) :
    (t.step .run).Inv ∧ (t.step .run).Protocol := by
  rw [step]
  split
  · next hidle =>
      split
      · refine h.aside hp (h.ordered.posts [.scheduled, .running] ?_ ?_ rfl) ?_ rfl rfl rfl
        · intro posted hposted
          rw [hidle] at hposted
          rw [show posted = [] from hposted]
          rfl
        · exact planned_runLater _ _
        · refine h.accounted.same rfl ?_ rfl
          simp only [cancellations, runLater, List.count_append, List.count_singleton]
          rfl
      · refine h.aside hp (h.ordered.moves ?_ rfl rfl) (h.accounted.same rfl rfl rfl) rfl rfl rfl
        intro posted hposted
        rw [hidle] at hposted
        exact .inl hposted
  · exact ⟨h, hp⟩

/-- The background thread goes on without posting anything. -/
theorem Inv.goesOn {t : Task} (h : t.Inv) (hp : t.Protocol) {b : Background}
    (hposted : ∀ posted, Posted t.background posted → Posted b posted) :
    Inv { t with background := b } ∧ Protocol { t with background := b } :=
  h.aside hp (h.ordered.moves hposted rfl rfl) (h.accounted.same rfl rfl rfl) rfl rfl rfl

theorem Inv.callReturns {t : Task} (h : t.Inv) (hp : t.Protocol) :
    (t.step .callReturns).Inv ∧ (t.step .callReturns).Protocol := by
  rw [step]
  split
  · next hcalling =>
      refine h.goesOn hp fun posted hposted => ?_
      rw [hcalling] at hposted
      exact hposted
  · exact ⟨h, hp⟩

theorem Inv.callThrows {t : Task} (h : t.Inv) (hp : t.Protocol) :
    (t.step .callThrows).Inv ∧ (t.step .callThrows).Protocol := by
  rw [step]
  split
  · next hcalling =>
      refine h.goesOn hp fun posted hposted => ?_
      rw [hcalling] at hposted
      exact hposted
  · exact ⟨h, hp⟩

theorem Inv.isCancelled {t : Task} (h : t.Inv) (hp : t.Protocol) :
    (t.step .isCancelled).Inv ∧ (t.step .isCancelled).Protocol := by
  rw [step]
  split
  · next hreturned =>
      split
      · refine h.goesOn hp fun posted hposted => ?_
        rw [hreturned] at hposted
        exact hposted
      · split
        · refine h.goesOn hp fun posted hposted => ?_
          rw [hreturned] at hposted
          exact hposted
        · refine h.goesOn hp fun posted hposted => ?_
          rw [hreturned] at hposted
          exact .inl hposted
  · exact ⟨h, hp⟩

/-- The background thread posts its last runnable. -/
theorem Inv.posts {t : Task} (h : t.Inv) (hp : t.Protocol) {r : Runnable} {s : State}
    (hback : Posted t.background = Posted .calling) (hrun : r.run = [.setState s])
    (hs : s = .succeeded ∨ s = .failed) :
    ({ t with background := .finishing }.runLater r).Inv ∧
      ({ t with background := .finishing }.runLater r).Protocol := by
  refine h.aside hp (h.ordered.posts [s] ?_ ?_ rfl) ?_ rfl rfl rfl
  · intro posted hposted
    rw [hback] at hposted
    rw [show posted = [.scheduled, .running] from hposted]
    exact .inr ⟨s, hs, rfl⟩
  · rw [planned_runLater, hrun]
    rcases hs with rfl | rfl
    · rfl
    · rfl
  · have hr : r ≠ .cancel := by
      rintro rfl
      cases hrun
      rcases hs with hs | hs
      · cases hs
      · cases hs
    refine h.accounted.same rfl ?_ rfl
    simp only [cancellations, runLater, List.count_append, List.count_singleton, beq_iff_eq, hr,
      if_false, Nat.add_zero]
    rfl

theorem Inv.backgroundRunLater {t : Task} (h : t.Inv) (hp : t.Protocol) :
    (t.step .backgroundRunLater).Inv ∧ (t.step .backgroundRunLater).Protocol := by
  rw [step]
  split
  · next hback => exact h.posts hp (by rw [hback]; rfl) rfl (.inl rfl)
  · next hback => exact h.posts hp (by rw [hback]; rfl) rfl (.inr rfl)
  · exact ⟨h, hp⟩

theorem Inv.finish {t : Task} (h : t.Inv) (hp : t.Protocol) :
    (t.step .finish).Inv ∧ (t.step .finish).Protocol := by
  rw [step]
  split
  · next hfinishing =>
      refine h.aside hp (h.ordered.moves ?_ rfl rfl) ?_ rfl rfl rfl
      · intro posted hposted
        rw [hfinishing] at hposted
        exact .inr hposted
      · cases h.accounted with
        | not f c s =>
            refine .not ?_ c s
            simp only
            split
            · exact fun hdone => nomatch hdone
            · exact f
        | pending f c s => exact .pending (by simp only [f, reduceCtorEq, if_false]) c s
        | set f c s => exact .set (by simp only [f, reduceCtorEq, if_false]) c s
  · exact ⟨h, hp⟩

/-- Before a successful `cancel()` nobody is going to set the state. -/
theorem Accounted.of_cancels {t : Task} (h : t.Accounted) (hcancels : t.cancels = true) :
    t.cancellations = 0 ∧ t.state ≠ .cancelled := by
  have hnew : t.future = .new := of_decide_eq_true hcancels
  cases h with
  | not f c s => exact ⟨c, s⟩
  | pending f c s => rw [hnew] at f; cases f
  | set f c s => rw [hnew] at f; cases f

theorem Inv.cancelOnFxThread {t : Task} (h : t.Inv) (hp : t.Protocol) :
    (t.step .cancelOnFxThread).Inv ∧ (t.step .cancelOnFxThread).Protocol := by
  rw [step]
  split
  · next hcancels =>
      obtain ⟨hnone, hstate⟩ := h.accounted.of_cancels hcancels
      obtain ⟨hframes, hbelow, hlogged, hterminal, hunfired, -⟩ := h.frames
      have hinv : Inv { t with future := .cancelled, instrs := .setState .cancelled :: t.instrs } := by
        refine ⟨h.ordered.moves (fun _ hposted => hposted) rfl rfl, .pending rfl ?_ hstate, ?_⟩
        · rw [cancellations] at hnone
          show (Instr.setState .cancelled :: t.instrs).count (.setState .cancelled) +
            t.queue.count .cancel + (if t.canceller then 1 else 0) = 1
          rw [List.count_cons_self]
          omega
        · refine ⟨?_, List.Pairwise.cons (fun _ _ hplans => absurd rfl hplans) hbelow, hlogged,
            hterminal, ?_, fun hset => absurd hset hstate⟩
          · rintro v (hv | hv)
            · exact hframes v (.inl ((List.mem_cons.mp hv).resolve_left (fun h => nomatch h)))
            · exact hframes v (.inr ((List.mem_cons.mp hv).resolve_left (fun h => nomatch h)))
          · intro v hv hmem
            rw [List.count_cons_of_ne (by simp)]
            exact hunfired v hv ((List.mem_cons.mp hmem).resolve_left (fun h => nomatch h))
      exact ⟨hinv, hinv.protocol hp.settled hp.scheduledFirst⟩
  · exact ⟨h, hp⟩

theorem Inv.cancelElsewhere {t : Task} (h : t.Inv) (hp : t.Protocol) :
    (t.step .cancelElsewhere).Inv ∧ (t.step .cancelElsewhere).Protocol := by
  rw [step]
  split
  · next hcancels =>
      obtain ⟨hnone, hstate⟩ := h.accounted.of_cancels hcancels
      refine h.aside hp (h.ordered.moves (fun _ hposted => hposted) rfl rfl)
        (.pending rfl ?_ hstate) rfl rfl rfl
      rw [cancellations] at hnone ⊢
      simp only [if_true]
      omega
  · exact ⟨h, hp⟩

theorem Inv.cancellerRunLater {t : Task} (h : t.Inv) (hp : t.Protocol) :
    (t.step .cancellerRunLater).Inv ∧ (t.step .cancellerRunLater).Protocol := by
  rw [step]
  split
  · next hcanceller =>
      refine h.aside hp (h.ordered.moves (fun _ hposted => hposted) ?_ rfl)
        (h.accounted.same rfl ?_ rfl) rfl rfl rfl
      · rw [planned_runLater]
        exact List.append_nil _
      · simp only [cancellations, runLater, List.count_append, List.count_singleton, hcanceller,
          Bool.false_eq_true, if_false, if_true, beq_self_eq_true]
        omega
  · exact ⟨h, hp⟩

/-! ### The FX thread -/

theorem Inv.runNext {t : Task} (h : t.Inv) (hp : t.Protocol) :
    (t.step .runNext).Inv ∧ (t.step .runNext).Protocol := by
  rw [step]
  split
  · next r queue hinstrs hqueue =>
      obtain ⟨-, -, hlogged, hterminal, -, htold⟩ := h.frames
      have hsets : ∀ i ∈ r.run, ∃ w, i = .setState w := by
        intro i hi
        cases r with
        | start =>
            rcases List.mem_cons.mp hi with rfl | hi
            · exact ⟨_, rfl⟩
            · exact ⟨_, List.mem_singleton.mp hi⟩
        | succeed => exact ⟨_, List.mem_singleton.mp hi⟩
        | fail => exact ⟨_, List.mem_singleton.mp hi⟩
        | cancel => exact ⟨_, List.mem_singleton.mp hi⟩
      have hinv : Inv { t with queue := queue, instrs := r.run } := by
        refine ⟨h.ordered.moves (fun _ hposted => hposted) ?_ rfl, h.accounted.same rfl ?_ rfl, ?_⟩
        · rw [planned, planned, hinstrs, hqueue]
          rfl
        · have hcount : r.run.count (.setState .cancelled) = if r = .cancel then 1 else 0 := by
            cases r with
            | start => rfl
            | succeed => rfl
            | fail => rfl
            | cancel => rfl
          rw [cancellations, cancellations, hinstrs, hqueue, List.count_cons, hcount]
          simp only [List.count_nil, beq_iff_eq]
          omega
        · refine ⟨?_, ?_, hlogged, hterminal, ?_, ?_⟩
          · rintro v (hv | hv)
            · obtain ⟨w, hw⟩ := hsets _ hv
              cases hw
            · obtain ⟨w, hw⟩ := hsets _ hv
              cases hw
          · exact List.pairwise_of_forall_mem_list fun i _ j hj _ => hsets j hj
          · intro v _ hv
            obtain ⟨w, hw⟩ := hsets _ hv
            cases hw
          · intro hset
            rw [hinstrs] at htold
            rcases htold hset with hlog | ⟨rest, hrest | hrest⟩
            · exact .inl hlog
            · cases hrest
            · cases hrest
      exact ⟨hinv, hinv.protocol hp.settled hp.scheduledFirst⟩
  · exact ⟨h, hp⟩

/-- What has been posted starts in the same way whatever comes of the call. -/
theorem Posted.starts {b : Background} {posted : List State} (h : Posted b posted) :
    ∃ s, (s = .succeeded ∨ s = .failed) ∧ posted <+: [.scheduled, .running, s] := by
  have hcalled : Called posted ∨ posted = [] := by
    cases b with
    | idle => exact .inr h
    | finishing => exact .inl h
    | finished => exact h.symm
    | calling => exact .inl (.inl h)
    | returned => exact .inl (.inl h)
    | succeeding => exact .inl (.inl h)
    | failing => exact .inl (.inl h)
  rcases hcalled with (rfl | ⟨s, hs, rfl⟩) | rfl
  · exact ⟨.succeeded, .inl rfl, [.succeeded], rfl⟩
  · exact ⟨s, hs, List.prefix_rfl⟩
  · exact ⟨.succeeded, .inl rfl, List.nil_prefix⟩

/-- The next state in the order, for a task that is not cancelled. -/
theorem Ordered.next {t : Task} (h : t.Ordered) {v : State} {rest : List State}
    (hplanned : t.planned = v :: rest) (hstate : t.state ≠ .cancelled) :
    t.state.isTerminal = false ∧ (v = .running → t.state = .scheduled) := by
  obtain ⟨posted, k, hposted, -, hdrop, hnow⟩ := h
  have hnow := hnow.resolve_left hstate
  rw [hplanned] at hdrop
  have hv : posted[k]? = some v := by
    have hhead := congrArg List.head? hdrop
    rw [List.head?_drop] at hhead
    exact hhead.symm
  obtain ⟨x, hx, more, hmore⟩ := hposted.starts
  have hnext : [State.scheduled, .running, x][k]? = some v := by
    rw [← hmore, List.getElem?_append_left (List.getElem?_eq_some_iff.mp hv).1]
    exact hv
  have hbefore : [State.ready, .scheduled, .running, x][k]? = some t.state := by
    rw [← hmore, ← List.cons_append, List.getElem?_append_left]
    · exact hnow
    · have hlt := (List.getElem?_eq_some_iff.mp hv).1
      rw [List.length_cons]
      omega
  match k, hnext, hbefore with
  | 0, hnext, hbefore =>
      rw [← Option.some.inj hbefore]
      cases hnext
      exact ⟨rfl, fun h => nomatch h⟩
  | 1, _, hbefore =>
      rw [← Option.some.inj hbefore]
      exact ⟨rfl, fun _ => rfl⟩
  | 2, hnext, hbefore =>
      rw [← Option.some.inj hbefore]
      refine ⟨rfl, ?_⟩
      rintro rfl
      have hx' := Option.some.inj hnext
      subst hx'
      rcases hx with hx | hx
      · cases hx
      · cases hx

/-- The order after its next state has been set, or passed over. -/
theorem Ordered.advance {t t' : Task} (h : t.Ordered) {v : State}
    (hplanned : t.planned = v :: t'.planned) (hback : t'.background = t.background)
    (hstate : t'.state = .cancelled ∨ t'.state = v) : t'.Ordered := by
  obtain ⟨posted, k, hposted, hk, hdrop, -⟩ := h
  rw [hplanned] at hdrop
  have hlt : k < posted.length := by
    by_contra hge
    rw [List.drop_eq_nil_of_le (not_lt.mp hge)] at hdrop
    cases hdrop
  refine ⟨posted, k + 1, hback ▸ hposted, hlt, ?_, ?_⟩
  · rw [List.drop_eq_getElem_cons hlt] at hdrop
    exact (List.cons.inj hdrop).2
  · rcases hstate with hstate | hstate
    · exact .inl hstate
    · refine .inr ?_
      rw [List.drop_eq_getElem_cons hlt] at hdrop
      rw [hstate, (List.cons.inj hdrop).1, List.getElem?_cons_succ, List.getElem?_eq_getElem hlt]

/-- Taking an instruction off the stack. -/
theorem planned_cons (t : Task) {i : Instr} {instrs : List Instr} (h : t.instrs = i :: instrs) :
    t.planned = plans i ++ { t with instrs := instrs }.planned := by
  rw [planned, h, List.flatMap_cons, List.append_assoc]
  rfl

theorem cancellations_cons (t : Task) {i : Instr} {instrs : List Instr}
    (h : t.instrs = i :: instrs) : t.cancellations =
      { t with instrs := instrs }.cancellations + if i = .setState .cancelled then 1 else 0 := by
  have hcount : t.instrs.count (.setState .cancelled) = instrs.count (.setState .cancelled) +
      if i = .setState .cancelled then 1 else 0 := by
    rw [h, List.count_cons]
    simp only [beq_iff_eq]
  show t.instrs.count (.setState .cancelled) + t.queue.count .cancel +
      (if t.canceller then 1 else 0) = instrs.count (.setState .cancelled) +
        t.queue.count .cancel + (if t.canceller then 1 else 0) + _
  omega

/-- `setState` under way: the state is set, its event still to come. -/
theorem Frames.enter {state v : State} {i : Instr} {instrs : List Instr} {log : List Event}
    (h : Frames state (i :: instrs) log) (hi : i = .setState v) (hstate : state ≠ .cancelled)
    (hopen : state.isTerminal = false) :
    Frames v (.setRunning v :: .fireEvent v :: instrs) (log ++ [.entered v]) := by
  have hfresh : ∀ s, s.isTerminal = true → .entered s ∉ log := by
    intro s hs hlog
    rw [← h.terminal s hs hlog, hopen] at hs
    cases hs
  have hold : ∀ w, .setRunning w ∈ instrs ∨ .fireEvent w ∈ instrs → v = .cancelled ∧ state = w := by
    intro w hw
    have hstill : state = w := by
      refine (h.frames w ?_).resolve_right hstate
      rcases hw with hw | hw
      · exact .inl (List.mem_cons_of_mem _ hw)
      · exact .inr (List.mem_cons_of_mem _ hw)
    refine ⟨?_, hstill⟩
    by_contra hv
    have hsets := (List.pairwise_cons.mp h.below).1
    have hplans : plans i ≠ [] := by
      rw [hi, plans, if_neg hv]
      exact List.cons_ne_nil _ _
    rcases hw with hw | hw
    · obtain ⟨_, h⟩ := hsets _ hw hplans
      cases h
    · obtain ⟨_, h⟩ := hsets _ hw hplans
      cases h
  refine ⟨?_, ?_, fun _ => List.mem_append_right _ (List.mem_singleton_self _), ?_, ?_, ?_⟩
  · intro w hw
    simp only [List.mem_cons, Instr.setRunning.injEq, Instr.fireEvent.injEq, reduceCtorEq,
      false_or] at hw
    rcases hw with (rfl | hw) | (rfl | hw)
    · exact .inl rfl
    · exact .inr (hold w (.inl hw)).1
    · exact .inl rfl
    · exact .inr (hold w (.inr hw)).1
  · refine List.Pairwise.cons (fun _ _ hplans => absurd rfl hplans) ?_
    exact List.Pairwise.cons (fun _ _ hplans => absurd rfl hplans) (List.pairwise_cons.mp h.below).2
  · intro s hs hmem
    rcases List.mem_append.mp hmem with hmem | hmem
    · exact absurd hmem (hfresh s hs)
    · exact (Event.entered.inj (List.mem_singleton.mp hmem)).symm
  · intro w hw hmem
    have hnot : .fireEvent w ∉ instrs := by
      intro hmem
      rw [← (hold w (.inr hmem)).2, hopen] at hw
      cases hw
    obtain rfl : w = v := by
      simp only [List.mem_cons, Instr.fireEvent.injEq, reduceCtorEq, false_or] at hmem
      exact hmem.resolve_right hnot
    refine ⟨?_, log, rfl⟩
    rw [List.count_cons_of_ne (by simp), List.count_cons_self, List.count_eq_zero.mpr hnot]
  · rintro rfl
    exact .inr ⟨instrs, .inl rfl⟩

/-- Nothing but the stack changes. -/
theorem Frames.pop {state : State} {i : Instr} {instrs : List Instr} {log : List Event}
    (h : Frames state (i :: instrs) log) (hi : ∀ v, v.isTerminal = true → i ≠ .fireEvent v) :
    Frames state instrs log := by
  obtain ⟨hframes, hbelow, hlogged, hterminal, hunfired, htold⟩ := h
  refine ⟨?_, (List.pairwise_cons.mp hbelow).2, hlogged, hterminal, ?_, ?_⟩
  · rintro v (hv | hv)
    · exact hframes v (.inl (List.mem_cons_of_mem _ hv))
    · exact hframes v (.inr (List.mem_cons_of_mem _ hv))
  · intro v hv hmem
    have hold := hunfired v hv (List.mem_cons_of_mem _ hmem)
    rw [List.count_cons_of_ne (hi v hv)] at hold
    exact hold
  · intro hset
    rcases htold hset with hlog | ⟨rest, hrest | hrest⟩
    · exact .inl hlog
    · exact .inr ⟨rest, .inr (List.cons.inj hrest).2⟩
    · exact absurd (List.cons.inj hrest).1 (hi .cancelled rfl)

/-- The event of the state has been fired. -/
theorem Frames.fire {state : State} {instrs : List Instr} {log : List Event}
    (h : Frames state (.fireEvent state :: instrs) log) :
    Frames state instrs (log ++ [.fired state]) := by
  obtain ⟨hframes, hbelow, hlogged, hterminal, hunfired, -⟩ := h
  refine ⟨?_, (List.pairwise_cons.mp hbelow).2, fun hready => ?_, ?_, ?_, ?_⟩
  · rintro v (hv | hv)
    · exact hframes v (.inl (List.mem_cons_of_mem _ hv))
    · exact hframes v (.inr (List.mem_cons_of_mem _ hv))
  · exact List.mem_append_left _ (hlogged hready)
  · intro s hs hmem
    refine hterminal s hs ((List.mem_append.mp hmem).resolve_right fun hmem => ?_)
    exact nomatch List.mem_singleton.mp hmem
  · intro v hv hmem
    obtain ⟨hcount, before, hlog⟩ := hunfired v hv (List.mem_cons_of_mem _ hmem)
    have hstate : state = v := hterminal v hv (by rw [hlog]; simp)
    subst hstate
    rw [List.count_cons_self] at hcount
    exact absurd hmem (List.count_eq_zero.mp (by omega))
  · rintro rfl
    exact .inl ⟨log, rfl⟩

theorem fireEvent_ready {t : Task} (h : t.state = .ready) : t.fireEvent = t := by
  rw [fireEvent, h]

theorem fireEvent_eq {t : Task} (h : t.state ≠ .ready) :
    t.fireEvent = { t with log := t.log ++ [.fired t.state] } := by
  rw [fireEvent]
  split
  · next hready => exact absurd hready h
  · rfl

/-- The next instruction, for a task that is not disturbed. -/
theorem Inv.execute_fireEvent {t : Task} {instrs : List Instr} (h : t.Inv) (hp : t.Protocol)
    (hinstrs : t.instrs = .fireEvent t.state :: instrs) :
    (execute (.fireEvent t.state) { t with instrs := instrs }).Inv ∧
      (execute (.fireEvent t.state) { t with instrs := instrs }).Protocol := by
  have hframes := h.frames
  rw [hinstrs] at hframes
  have hordered : Ordered { t with instrs := instrs } :=
    h.ordered.moves (fun _ hposted => hposted) (planned_cons t hinstrs).symm rfl
  have haccounted : Accounted { t with instrs := instrs } :=
    h.accounted.same rfl (cancellations_cons t hinstrs).symm rfl
  rw [execute]
  by_cases hready : t.state = .ready
  · have hinv : Inv { t with instrs := instrs } := by
      refine ⟨hordered, haccounted, hframes.pop fun v hv heq => ?_⟩
      rw [hready] at heq
      cases heq
      cases hv
    rw [fireEvent_ready (t := { t with instrs := instrs }) hready]
    exact ⟨hinv, hinv.protocol hp.settled hp.scheduledFirst⟩
  · rw [fireEvent_eq (t := { t with instrs := instrs }) hready]
    have hinv : Inv { t with instrs := instrs, log := t.log ++ [.fired t.state] } :=
      ⟨hordered, haccounted.same rfl rfl rfl, hframes.fire⟩
    refine ⟨hinv, hinv.protocol ?_ (ScheduledFirst.append hp.scheduledFirst fun h => nomatch h)⟩
    by_cases hterminal : t.state.isTerminal = true
    · obtain ⟨-, before, hlog⟩ := hframes.unfired _ hterminal (List.mem_cons_self ..)
      have hsettled : Settled t.log := hp.settled
      show Settled (t.log ++ _)
      rw [hlog] at hsettled ⊢
      exact settled_fired hsettled
    · refine settled_append fun s hs hmem => hterminal ?_
      rw [hframes.terminal s hs hmem]
      exact hs

theorem Inv.execute_setState {t : Task} {v : State} {instrs : List Instr} (h : t.Inv)
    (hp : t.Protocol) (hinstrs : t.instrs = .setState v :: instrs)
    (hundisturbed : v = .cancelled → t.state ≠ .succeeded ∧ t.state ≠ .failed) :
    (execute (.setState v) { t with instrs := instrs }).Inv ∧
      (execute (.setState v) { t with instrs := instrs }).Protocol := by
  have hframes := h.frames
  rw [hinstrs] at hframes
  have hplanned := planned_cons t hinstrs
  have hcount := cancellations_cons t hinstrs
  rw [execute, setState]
  by_cases hstate : t.state = .cancelled
  · -- guarded
    rw [if_neg (not_not_intro hstate)]
    have hv : v ≠ .cancelled := by
      rintro rfl
      rw [if_pos rfl] at hcount
      cases h.accounted with
      | not f c s => exact s hstate
      | pending f c s => exact s hstate
      | set f c s => omega
    rw [plans, if_neg hv] at hplanned
    rw [if_neg (by simp [hv])] at hcount
    have hinv : Inv { t with instrs := instrs } :=
      ⟨h.ordered.advance hplanned rfl (.inl hstate), h.accounted.same rfl hcount.symm rfl,
        hframes.pop fun _ _ h => nomatch h⟩
    exact ⟨hinv, hinv.protocol hp.settled hp.scheduledFirst⟩
  · rw [if_pos hstate]
    have hopen : t.state.isTerminal = false ∧ (v = .running → t.state = .scheduled) := by
      by_cases hv : v = .cancelled
      · subst hv
        obtain ⟨hsucceeded, hfailed⟩ := hundisturbed rfl
        refine ⟨?_, fun h => nomatch h⟩
        cases hs : t.state with
        | ready => rfl
        | scheduled => rfl
        | running => rfl
        | succeeded => exact absurd hs hsucceeded
        | cancelled => exact absurd hs hstate
        | failed => exact absurd hs hfailed
      · rw [plans, if_neg hv] at hplanned
        exact h.ordered.next hplanned hstate
    have hinv : Inv { t with
        state := v
        instrs := .setRunning v :: .fireEvent v :: instrs
        log := t.log ++ [.entered v] } := by
      refine ⟨?_, ?_, hframes.enter rfl hstate hopen.1⟩
      · by_cases hv : v = .cancelled
        · obtain ⟨posted, k, hposted, hk, hdrop, -⟩ := h.ordered
          rw [plans, if_pos hv, List.nil_append] at hplanned
          exact ⟨posted, k, hposted, hk, hplanned ▸ hdrop, .inl hv⟩
        · rw [plans, if_neg hv] at hplanned
          exact h.ordered.advance hplanned rfl (.inr rfl)
      · have hsame : cancellations { t with
            state := v
            instrs := .setRunning v :: .fireEvent v :: instrs
            log := t.log ++ [.entered v] } = cancellations { t with instrs := instrs } := rfl
        by_cases hv : v = .cancelled
        · rw [if_pos (by rw [hv])] at hcount
          cases h.accounted with
          | not f c s => omega
          | pending f c s => exact .set f (by omega) hv
          | set f c s => exact absurd s hstate
        · rw [if_neg (by simp [hv])] at hcount
          cases h.accounted with
          | not f c s => exact .not f (by omega) hv
          | pending f c s => exact .pending f (by omega) hv
          | set f c s => exact absurd s hstate
    refine ⟨hinv, hinv.protocol ?_ (ScheduledFirst.append hp.scheduledFirst fun hrunning => ?_)⟩
    · refine settled_append fun s hs hmem => ?_
      rw [← hframes.terminal s hs hmem, hopen.1] at hs
      cases hs
    · have hscheduled := hopen.2 (Event.entered.inj hrunning)
      rw [← hscheduled]
      exact hframes.logged (by rw [hscheduled]; exact fun h => nomatch h)

theorem Inv.continue_ {t : Task} (h : t.Inv) (hp : t.Protocol)
    (hundisturbed : t.Undisturbed .continue_) :
    (t.step .continue_).Inv ∧ (t.step .continue_).Protocol := by
  rw [step]
  rw [Undisturbed] at hundisturbed
  cases hinstrs : t.instrs with
  | nil => exact ⟨h, hp⟩
  | cons i instrs =>
      rw [hinstrs] at hundisturbed
      cases i with
      | setRunning v =>
          have hframes := h.frames
          rw [hinstrs] at hframes
          have hinv : Inv (execute (.setRunning v) { t with instrs := instrs }) :=
            ⟨h.ordered.moves (fun _ hposted => hposted) (planned_cons t hinstrs).symm rfl,
              h.accounted.same rfl (cancellations_cons t hinstrs).symm rfl,
              hframes.pop fun _ _ h => nomatch h⟩
          exact ⟨hinv, hinv.protocol hp.settled hp.scheduledFirst⟩
      | fireEvent v =>
          have hv : t.state = v := hundisturbed
          subst hv
          exact h.execute_fireEvent hp hinstrs
      | setState v =>
          refine h.execute_setState hp hinstrs ?_
          rintro rfl
          exact hundisturbed

/-! ### Disturbed -/

/-- A step that is disturbed breaks the protocol. -/
theorem not_protocol {t : Task} {a : Action} (h : t.Inv) (ha : ¬ t.Undisturbed a) :
    ¬ (t.step a).Protocol := by
  cases a with
  | continue_ =>
      rw [Undisturbed] at ha
      rw [step]
      intro hp
      cases hinstrs : t.instrs with
      | nil =>
          rw [hinstrs] at ha
          exact ha trivial
      | cons i instrs =>
          have hframes := h.frames
          rw [hinstrs] at ha hp hframes
          cases i with
          | setRunning v => exact ha trivial
          | fireEvent v =>
              have hv : t.state ≠ v := ha
              have hcancelled : t.state = .cancelled :=
                (hframes.frames v (.inr (List.mem_cons_self ..))).resolve_left hv
              -- the event of the cancellation is fired a second time
              have hfired : ∃ before, t.log = before ++ [.fired .cancelled] := by
                rcases hframes.told hcancelled with hlog | ⟨rest, hrest | hrest⟩
                · exact hlog
                · cases hrest
                · exact absurd (hcancelled.trans (Instr.fireEvent.inj (List.cons.inj hrest).1).symm) hv
              obtain ⟨before, hbefore⟩ := hfired
              have hentered := hframes.logged (by rw [hcancelled]; exact fun h => nomatch h)
              rw [hcancelled] at hentered
              obtain ⟨l, l', hl⟩ := List.append_of_mem hentered
              have hlog : (execute (.fireEvent v) { t with instrs := instrs }).log =
                  l ++ .entered .cancelled :: (l' ++ [.fired .cancelled]) := by
                rw [execute, fireEvent_eq (by rw [hcancelled]; exact fun h => nomatch h)]
                show t.log ++ [.fired t.state] = _
                rw [hcancelled, hl, List.append_assoc, List.cons_append]
              rcases hp.settled l .cancelled _ hlog rfl with hnil | hone
              · exact absurd hnil (by simp)
              · obtain ⟨rfl, -⟩ := List.append_inj' (show l' ++ [_] = [] ++ [_] from hone) rfl
                rw [hbefore] at hl
                obtain ⟨-, hlast⟩ := List.append_inj' hl rfl
                cases hlast
          | setState v =>
              have hv : v = .cancelled := by
                by_contra hv
                cases v with
                | cancelled => exact hv rfl
                | ready => exact ha trivial
                | scheduled => exact ha trivial
                | running => exact ha trivial
                | succeeded => exact ha trivial
                | failed => exact ha trivial
              subst hv
              have hresult : t.state = .succeeded ∨ t.state = .failed := by
                by_contra hno
                rw [not_or] at hno
                exact ha hno
              have hterminal : t.state.isTerminal = true := by
                rcases hresult with hs | hs
                · rw [hs]
                  rfl
                · rw [hs]
                  rfl
              have hstate : t.state ≠ .cancelled := by
                rcases hresult with hs | hs
                · rw [hs]
                  exact fun h => nomatch h
                · rw [hs]
                  exact fun h => nomatch h
              have hentered := hframes.logged (fun hready => by rw [hready] at hterminal; cases hterminal)
              obtain ⟨l, l', hl⟩ := List.append_of_mem hentered
              have hlog : (execute (.setState .cancelled) { t with instrs := instrs }).log =
                  l ++ .entered t.state :: (l' ++ [.entered .cancelled]) := by
                rw [execute, setState, if_pos hstate]
                show t.log ++ [.entered .cancelled] = _
                rw [hl, List.append_assoc, List.cons_append]
              rcases hp.settled l t.state _ hlog hterminal with hnil | hone
              · exact absurd hnil (by simp)
              · obtain ⟨-, hlast⟩ := List.append_inj' (show l' ++ [_] = [] ++ [_] from hone) rfl
                cases hlast
  | run => exact absurd trivial ha
  | callReturns => exact absurd trivial ha
  | callThrows => exact absurd trivial ha
  | isCancelled => exact absurd trivial ha
  | backgroundRunLater => exact absurd trivial ha
  | finish => exact absurd trivial ha
  | cancelOnFxThread => exact absurd trivial ha
  | cancelElsewhere => exact absurd trivial ha
  | cancellerRunLater => exact absurd trivial ha
  | runNext => exact absurd trivial ha

theorem Inv.step {t : Task} {a : Action} (h : t.Inv) (hp : t.Protocol) (ha : t.Undisturbed a) :
    (t.step a).Inv ∧ (t.step a).Protocol := by
  cases a with
  | run => exact h.run hp
  | callReturns => exact h.callReturns hp
  | callThrows => exact h.callThrows hp
  | isCancelled => exact h.isCancelled hp
  | backgroundRunLater => exact h.backgroundRunLater hp
  | finish => exact h.finish hp
  | cancelOnFxThread => exact h.cancelOnFxThread hp
  | cancelElsewhere => exact h.cancelElsewhere hp
  | cancellerRunLater => exact h.cancellerRunLater hp
  | runNext => exact h.runNext hp
  | continue_ => exact h.continue_ hp ha

/-- **Which interleavings keep the protocol:** the protocol holds after every step of an
interleaving if and only if no step of it is disturbed. -/
theorem protocol_iff (actions : List Action) :
    (∀ n, Protocol ((actions.take n).foldl Task.step {})) ↔
      ∀ n a, actions[n]? = some a → Undisturbed ((actions.take n).foldl Task.step {}) a :=
  takes_iff (G := Protocol) (D := Undisturbed) (fun _ _ h hp ha => Inv.step h hp ha)
    (fun _ _ h _ ha => not_protocol h ha) inv_init protocol_init actions

/-- The task succeeds on the FX thread while the background thread has yet to leave `call()`, and
is cancelled then. -/
theorem cancelled_after_success :
    ([.run, .callReturns, .isCancelled, .backgroundRunLater, .runNext, .continue_, .continue_,
      .continue_, .continue_, .continue_, .continue_, .runNext, .continue_, .continue_,
      .continue_, .cancelOnFxThread, .continue_] : List Action).foldl Task.step {} =
      { state := .cancelled, running := false, started := true, future := .cancelled,
        background := .finishing, instrs := [.setRunning .cancelled, .fireEvent .cancelled],
        log := [.entered .scheduled, .fired .scheduled, .entered .running, .fired .running,
          .entered .succeeded, .fired .succeeded, .entered .cancelled] } ∧
    ¬ Protocol (([.run, .callReturns, .isCancelled, .backgroundRunLater, .runNext, .continue_,
      .continue_, .continue_, .continue_, .continue_, .continue_, .runNext, .continue_,
      .continue_, .continue_, .cancelOnFxThread, .continue_] : List Action).foldl Task.step {}) := by
  refine ⟨rfl, fun hp => ?_⟩
  have hsettled := hp.settled [.entered .scheduled, .fired .scheduled, .entered .running,
    .fired .running] .succeeded [.fired .succeeded, .entered .cancelled] rfl rfl
  rcases hsettled with h | h
  · cases h
  · cases h

end Task

end JavaFx.Concurrent
