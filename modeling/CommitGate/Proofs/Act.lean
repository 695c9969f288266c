import CommitGate.Act

/-!
# Running acts

The record of an act is enough to know the world it leaves behind: only questions and commands
change it, and each of them is in the record. So what happened at some point of a run is said by the
events before that point.

Results:

* `run_bind_of_ok`, `run_bind_of_error`: two acts, one after the other.
* `Recorded.bind`: when the records of two acts tell the world, so does that of both.
* `calledAfterAsking_append`: what happened before any question does not count as done on an answer.
-/

namespace CommitGate

namespace Surroundings

variable {σ : Type}

/-- The world after some events. -/
def after (s : Surroundings σ) : σ → List Event → σ
  | w, [] => w
  | w, .said _ :: es => s.after w es
  | w, .asked :: es => s.after (s.answer w).2 es
  | w, .called c d :: es => s.after (s.command c d w).2 es

theorem after_append (s : Surroundings σ) (w : σ) (es es' : List Event) :
    s.after w (es ++ es') = s.after (s.after w es) es' := by
  induction es generalizing w with
  | nil => rfl
  | cons e es ih => cases e <;> exact ih _

/-- What is said leaves the world as it is. -/
theorem after_said {α : Type} (s : Surroundings σ) (w : σ) (f : α → Emission) (xs : List α) :
    s.after w (xs.map fun x => .said (f x)) = w := by
  induction xs with
  | nil => rfl
  | cons x xs ih => exact ih

/-- One of the events is a call of the command in the directory that ended with the result. -/
def Called (s : Surroundings σ) (command : String) (directory : Path) (r : CommandResult) (w : σ)
    (es : List Event) : Prop :=
  ∃ before later, es = before ++ .called command directory :: later ∧
    (s.command command directory (s.after w before)).1 = .ok r

/-- The same for the events after a question. -/
def CalledAfterAsking (s : Surroundings σ) (command : String) (directory : Path) (r : CommandResult)
    (w : σ) (es : List Event) : Prop :=
  ∃ before later, es = before ++ .asked :: later ∧
    s.Called command directory r (s.after w (before ++ [.asked])) later

variable {s : Surroundings σ} {command : String} {directory : Path} {r : CommandResult} {w : σ}

@[simp] theorem not_called_nil : ¬ s.Called command directory r w [] := by
  rintro ⟨before, later, h, -⟩
  simp at h

theorem called_cons {e : Event} {es : List Event} :
    s.Called command directory r w (e :: es) ↔
      (e = .called command directory ∧ (s.command command directory w).1 = .ok r) ∨
        s.Called command directory r (s.after w [e]) es := by
  constructor
  · rintro ⟨before, later, h, hr⟩
    cases before with
    | nil =>
      obtain ⟨rfl, rfl⟩ := List.cons.inj h
      exact .inl ⟨rfl, hr⟩
    | cons e' before =>
      obtain ⟨rfl, rfl⟩ := List.cons.inj h
      rw [← List.singleton_append, after_append] at hr
      exact .inr ⟨before, later, rfl, hr⟩
  · rintro (⟨rfl, hr⟩ | ⟨before, later, rfl, hr⟩)
    · exact ⟨[], es, rfl, hr⟩
    · refine ⟨e :: before, later, rfl, ?_⟩
      rw [← List.singleton_append, after_append]
      exact hr

/-- A call is not among events that do not have it. -/
theorem called_append_left {es es' : List Event} (h : .called command directory ∉ es') :
    s.Called command directory r w (es ++ es') ↔ s.Called command directory r w es := by
  induction es generalizing w with
  | nil =>
    constructor
    · rintro ⟨before, later, rfl, -⟩
      simp at h
    · intro hr
      exact absurd hr not_called_nil
  | cons e es ih => rw [List.cons_append, called_cons, called_cons, ih]

@[simp] theorem not_calledAfterAsking_nil : ¬ s.CalledAfterAsking command directory r w [] := by
  rintro ⟨before, later, h, -⟩
  simp at h

theorem calledAfterAsking_cons {e : Event} {es : List Event} :
    s.CalledAfterAsking command directory r w (e :: es) ↔
      (e = .asked ∧ s.Called command directory r (s.after w [e]) es) ∨
        s.CalledAfterAsking command directory r (s.after w [e]) es := by
  constructor
  · rintro ⟨before, later, h, hr⟩
    cases before with
    | nil =>
      obtain ⟨rfl, rfl⟩ := List.cons.inj h
      exact .inl ⟨rfl, hr⟩
    | cons e' before =>
      obtain ⟨rfl, rfl⟩ := List.cons.inj h
      rw [List.cons_append, ← List.singleton_append, after_append] at hr
      exact .inr ⟨before, later, rfl, hr⟩
  · rintro (⟨rfl, hr⟩ | ⟨before, later, rfl, hr⟩)
    · exact ⟨[], es, rfl, hr⟩
    · refine ⟨e :: before, later, rfl, ?_⟩
      rw [List.cons_append, ← List.singleton_append, after_append]
      exact hr

/-- Nothing that comes before the first question counts. -/
theorem calledAfterAsking_append {es es' : List Event} (h : .asked ∉ es) :
    s.CalledAfterAsking command directory r w (es ++ es') ↔
      s.CalledAfterAsking command directory r (s.after w es) es' := by
  induction es generalizing w with
  | nil => rfl
  | cons e es ih =>
    rw [List.mem_cons, not_or] at h
    have he : e ≠ .asked := fun he => h.1 he.symm
    have hes : s.after w (e :: es) = s.after (s.after w [e]) es := after_append s w [e] es
    rw [List.cons_append, calledAfterAsking_cons, ih h.2, hes]
    simp only [he, false_and, false_or]

theorem not_calledAfterAsking {es : List Event} (h : .asked ∉ es) :
    ¬ s.CalledAfterAsking command directory r w es := by
  rintro ⟨before, later, rfl, -⟩
  simp at h

/-- Events with neither a question nor the call can follow. -/
theorem calledAfterAsking_append_left {es es' : List Event} (asked : .asked ∉ es')
    (called : .called command directory ∉ es') :
    s.CalledAfterAsking command directory r w (es ++ es') ↔
      s.CalledAfterAsking command directory r w es := by
  induction es generalizing w with
  | nil => simp [not_calledAfterAsking asked]
  | cons e es ih =>
    rw [List.cons_append, calledAfterAsking_cons, calledAfterAsking_cons, called_append_left called,
      ih]

end Surroundings

namespace Act

variable {σ α β : Type} {a : Act σ α} {f : α → Act σ β} {s : Surroundings σ} {w : σ}

/-! ## One act after the other -/

theorem run_bind_of_ok {x : α} (h : (a.run s w).result = .ok x) :
    (a >>= f).run s w =
      ⟨(a.run s w).events ++ ((f x).run s (a.run s w).world).events,
        ((f x).run s (a.run s w).world).world,
        ((f x).run s (a.run s w).world).result⟩ := by
  show (andThen a f).run s w = _
  simp only [andThen, h]

theorem run_bind_of_error {e : Failure} (h : (a.run s w).result = .error e) :
    (a >>= f).run s w = ⟨(a.run s w).events, (a.run s w).world, .error e⟩ := by
  show (andThen a f).run s w = _
  simp only [andThen, h]

theorem exists_of_run_bind {y : β} (h : ((a >>= f).run s w).result = .ok y) :
    ∃ x, (a.run s w).result = .ok x ∧ ((f x).run s (a.run s w).world).result = .ok y := by
  cases hx : (a.run s w).result with
  | error e => rw [run_bind_of_error hx] at h; cases h
  | ok x => rw [run_bind_of_ok hx] at h; exact ⟨x, rfl, h⟩

/-! ## Single acts -/

@[simp] theorem run_pure (x : α) : (pure x : Act σ α).run s w = ⟨[], w, .ok x⟩ := rfl

@[simp] theorem run_lift (x : Except Failure α) : (lift x : Act σ α).run s w = ⟨[], w, x⟩ := rfl

@[simp] theorem run_call? (c : String) (d : Path) :
    (call? c d : Act σ (Option CommandResult)).run s w =
      ⟨[.called c d], (s.command c d w).2, .ok (s.command c d w).1.toOption⟩ := rfl

theorem run_host_bind (f : Host → Act σ β) : (host >>= f).run s w = (f (s.host w)).run s w := by
  rw [run_bind_of_ok (x := s.host w) rfl]
  rfl

theorem run_say_bind (e : Emission) (f : Unit → Act σ β) :
    (say e >>= f).run s w =
      ⟨.said e :: ((f ()).run s w).events, ((f ()).run s w).world, ((f ()).run s w).result⟩ := by
  rw [run_bind_of_ok (x := ()) rfl]
  rfl

/-- Saying something for each element of a list. -/
theorem run_forM_say (g : α → Emission) (xs : List α) :
    (xs.forM fun x => (say (g x) : Act σ Unit)).run s w =
      ⟨xs.map fun x => .said (g x), w, .ok ()⟩ := by
  induction xs with
  | nil => rfl
  | cons x xs ih =>
    show (say (g x) >>= fun _ => xs.forM fun x => say (g x)).run s w = _
    rw [run_say_bind, ih]
    rfl

/-! ## What the record tells -/

/-- The record of the act tells the world it leaves behind. -/
def Recorded (a : Act σ α) : Prop :=
  ∀ s w, (a.run s w).world = s.after w (a.run s w).events

theorem Recorded.bind (ha : a.Recorded) (hf : ∀ x, (f x).Recorded) : (a >>= f).Recorded := by
  intro s w
  cases hx : (a.run s w).result with
  | error e => rw [run_bind_of_error hx]; exact ha s w
  | ok x =>
    rw [run_bind_of_ok hx, Surroundings.after_append, ← ha s w]
    exact hf x s _

theorem recorded_pure (x : α) : (pure x : Act σ α).Recorded := fun _ _ => rfl

theorem recorded_host : (host : Act σ Host).Recorded := fun _ _ => rfl

theorem recorded_fail (e : Failure) : (fail e : Act σ α).Recorded := fun _ _ => rfl

theorem recorded_lift (x : Except Failure α) : (lift x : Act σ α).Recorded := fun _ _ => rfl

theorem recorded_say (e : Emission) : (say e : Act σ Unit).Recorded := fun _ _ => rfl

theorem recorded_ask : (ask : Act σ (Except String String)).Recorded := fun _ _ => rfl

theorem recorded_call (c : String) (d : Path) :
    (call c d : Act σ CommandResult).Recorded := fun _ _ => rfl

theorem recorded_call? (c : String) (d : Path) :
    (call? c d : Act σ (Option CommandResult)).Recorded := fun _ _ => rfl

theorem recorded_forM_say (g : α → Emission) (xs : List α) :
    (xs.forM fun x => (say (g x) : Act σ Unit)).Recorded := by
  intro s w
  rw [run_forM_say]
  exact (s.after_said w g xs).symm

end Act

end CommitGate
