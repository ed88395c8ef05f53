import JavaFx.Java

/-!
# Methods of an object with state

A method returns or throws, and either way the object is left in some state. Keeping that
state on both sides is what makes "a rejected call changes nothing" a statement about the
method and not about the model.
-/

namespace JavaFx

/-- A method of an object whose fields are `σ`. -/
structure Method (σ β : Type) where
  run : σ → Except Exn β × σ

namespace Method

variable {σ β γ : Type}

instance : Monad (Method σ) where
  pure b := ⟨fun s => (.ok b, s)⟩
  bind m f := ⟨fun s =>
    match m.run s with
    | (.ok b, s') => (f b).run s'
    | (.error e, s') => (.error e, s')⟩

instance : MonadStateOf σ (Method σ) where
  get := ⟨fun s => (.ok s, s)⟩
  set s := ⟨fun _ => (.ok (), s)⟩
  modifyGet f := ⟨fun s => (.ok (f s).1, (f s).2)⟩

instance : MonadExceptOf Exn (Method σ) where
  throw e := ⟨fun s => (.error e, s)⟩
  tryCatch m h := ⟨fun s =>
    match m.run s with
    | (.ok b, s') => (.ok b, s')
    | (.error e, s') => (h e).run s'⟩

instance : MonadLift (Except Exn) (Method σ) where
  monadLift x := ⟨fun s => (x, s)⟩

/-- The fields of the object. -/
def this : Method σ σ := get

/-! ## Running a method -/

@[simp] theorem run_pure (b : β) (s : σ) : (pure b : Method σ β).run s = (.ok b, s) := rfl

theorem run_bind (m : Method σ β) (f : β → Method σ γ) (s : σ) :
    (m >>= f).run s =
      match m.run s with
      | (.ok b, s') => (f b).run s'
      | (.error e, s') => (.error e, s') := rfl

@[simp] theorem run_this (s : σ) : (this : Method σ σ).run s = (.ok s, s) := rfl

@[simp] theorem run_set (s t : σ) : (set t : Method σ Unit).run s = (.ok (), t) := rfl

@[simp] theorem run_modify (f : σ → σ) (s : σ) :
    (modify f : Method σ Unit).run s = (.ok (), f s) := rfl

@[simp] theorem run_throw (e : Exn) (s : σ) :
    (throw e : Method σ β).run s = (.error e, s) := rfl

@[simp] theorem run_lift (x : Except Exn β) (s : σ) :
    (liftM x : Method σ β).run s = (x, s) := rfl

theorem run_bind_ok {m : Method σ β} {f : β → Method σ γ} {s s' : σ} {b : β}
    (h : m.run s = (.ok b, s')) : (m >>= f).run s = (f b).run s' := by
  rw [run_bind, h]

theorem run_bind_error {m : Method σ β} {f : β → Method σ γ} {s s' : σ} {e : Exn}
    (h : m.run s = (.error e, s')) : (m >>= f).run s = (.error e, s') := by
  rw [run_bind, h]

@[simp] theorem run_this_bind (f : σ → Method σ γ) (s : σ) :
    (this >>= f : Method σ γ).run s = (f s).run s := rfl

@[simp] theorem run_pure_bind (b : β) (f : β → Method σ γ) (s : σ) :
    (pure b >>= f : Method σ γ).run s = (f b).run s := rfl

@[simp] theorem run_set_bind (t : σ) (f : PUnit → Method σ γ) (s : σ) :
    (set t >>= f : Method σ γ).run s = (f ()).run t := rfl

@[simp] theorem run_modify_bind (g : σ → σ) (f : PUnit → Method σ γ) (s : σ) :
    (modify g >>= f : Method σ γ).run s = (f ()).run (g s) := rfl

@[simp] theorem run_throw_bind (e : Exn) (f : β → Method σ γ) (s : σ) :
    ((throw e : Method σ β) >>= f : Method σ γ).run s = (.error e, s) := rfl

@[simp] theorem run_lift_ok_bind (b : β) (f : β → Method σ γ) (s : σ) :
    ((liftM (.ok b : Except Exn β) : Method σ β) >>= f : Method σ γ).run s = (f b).run s := rfl

@[simp] theorem run_lift_error_bind (e : Exn) (f : β → Method σ γ) (s : σ) :
    ((liftM (.error e : Except Exn β) : Method σ β) >>= f : Method σ γ).run s = (.error e, s) :=
  rfl

/-! ## Invariants of methods -/

/-- Whether it returns or throws, the method keeps `I`. -/
def Keeps (I : σ → Prop) (m : Method σ β) : Prop := ∀ s, I s → I (m.run s).2

theorem Keeps.pure {I : σ → Prop} (b : β) : Keeps I (Pure.pure b : Method σ β) := fun _ h => h

theorem Keeps.throw {I : σ → Prop} (e : Exn) : Keeps I (MonadExcept.throw e : Method σ β) :=
  fun _ h => h

theorem Keeps.lift {I : σ → Prop} (x : Except Exn β) : Keeps I (liftM x : Method σ β) :=
  fun _ h => h

theorem Keeps.this {I : σ → Prop} : Keeps I (Method.this : Method σ σ) := fun _ h => h

theorem Keeps.bind {I : σ → Prop} {m : Method σ β} {f : β → Method σ γ} (hm : Keeps I m)
    (hf : ∀ b, Keeps I (f b)) : Keeps I (m >>= f) := by
  intro s hs
  have hmid := hm s hs
  rw [run_bind]
  rcases hrun : m.run s with ⟨r, s'⟩
  rw [hrun] at hmid
  cases r with
  | ok b => exact hf b s' hmid
  | error e => exact hmid

theorem Keeps.ite {I : σ → Prop} {c : Prop} [Decidable c] {m m' : Method σ β}
    (h : Keeps I m) (h' : Keeps I m') : Keeps I (if c then m else m') := by
  split
  · exact h
  · exact h'

end Method

end JavaFx
