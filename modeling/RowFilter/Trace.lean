import RowFilter.Fault

/-!
# Traces

A compile asks policies that the host supplies, and reports to a log. A traced result is a
result together with the questions and reports on the way to it, in order. What happened before
a fault stays in the trace.
-/

namespace RowFilter

/-! ## Results -/

section Chains
variable {ε ε' α β : Type}

theorem ok_of_bind {x : Except ε α} {f : α → Except ε β} {b : β} (h : x >>= f = .ok b) :
    ∃ a, x = .ok a ∧ f a = .ok b := by
  cases x with
  | error e => cases h
  | ok a => exact ⟨a, rfl, h⟩

theorem error_of_bind {x : Except ε α} {f : α → Except ε β} {e : ε} (h : x >>= f = .error e) :
    x = .error e ∨ ∃ a, x = .ok a ∧ f a = .error e := by
  cases x with
  | error e' => exact .inl (congrArg _ (Except.error.inj h))
  | ok a => exact .inr ⟨a, rfl, h⟩

theorem error_of_mapError {x : Except ε α} {f : ε → ε'} {e' : ε'} (h : x.mapError f = .error e') :
    ∃ e, x = .error e ∧ f e = e' := by
  cases x with
  | error e => exact ⟨e, rfl, Except.error.inj h⟩
  | ok a => cases h

theorem ok_of_mapError {x : Except ε α} {f : ε → ε'} {a : α} (h : x.mapError f = .ok a) :
    x = .ok a := by
  cases x with
  | error e => cases h
  | ok a' => exact congrArg _ (Except.ok.inj h)

theorem exists_return_eq_ok_iff {x : Except ε α} {f : α → β} :
    (∃ b, (do return f (← x)) = Except.ok b) ↔ ∃ a, x = .ok a := by
  cases x with
  | error e => exact iff_of_false (fun ⟨_, h⟩ => nomatch h) (fun ⟨_, h⟩ => nomatch h)
  | ok a => exact iff_of_true ⟨f a, rfl⟩ ⟨a, rfl⟩

theorem error_of_return {x : Except ε α} {f : α → β} {e : ε}
    (h : (do return f (← x)) = Except.error e) : x = .error e := by
  cases x with
  | error e' => exact congrArg _ (Except.error.inj h)
  | ok a => cases h

theorem mapError_map_except (f : α → β) (g : ε → ε') (x : Except ε α) :
    (x.map f).mapError g = (x.mapError g).map f := by
  cases x <;> rfl

theorem mapError_mapError_except {ε'' : Type} (g : ε → ε') (g' : ε' → ε'') (x : Except ε α) :
    (x.mapError g).mapError g' = x.mapError (g' ∘ g) := by
  cases x <;> rfl

theorem exists_of_map_eq_ok {x : Except ε α} {f : α → β} {b : β} (h : x.map f = .ok b) :
    ∃ a, x = .ok a ∧ b = f a := by
  cases x with
  | error e => cases h
  | ok a => exact ⟨a, rfl, (Except.ok.inj h).symm⟩

theorem map_map_except {γ : Type} (f : α → β) (g : β → γ) (x : Except ε α) :
    (x.map f).map g = x.map (g ∘ f) := by
  cases x <;> rfl

variable {f : α → Except ε β} {xs : List α}

/-- What a list of checks gives is what the first gives and what the others give. -/
theorem mapM_cons_eq_ok_iff {x : α} {ys : List β} :
    (x :: xs).mapM f = .ok ys ↔ ∃ b bs, f x = .ok b ∧ xs.mapM f = .ok bs ∧ ys = b :: bs := by
  rw [List.mapM_cons]
  constructor
  · intro h
    obtain ⟨b, hb, h⟩ := ok_of_bind h
    obtain ⟨bs, hbs, h⟩ := ok_of_bind h
    exact ⟨b, bs, hb, hbs, (Except.ok.inj h).symm⟩
  · rintro ⟨b, bs, hb, hbs, rfl⟩
    rw [hb, hbs]
    rfl

theorem length_of_mapM_ok {ys : List β} (h : xs.mapM f = .ok ys) : ys.length = xs.length := by
  induction xs generalizing ys with
  | nil =>
    cases h
    rfl
  | cons x xs ih =>
    obtain ⟨b, bs, _, hbs, rfl⟩ := mapM_cons_eq_ok_iff.mp h
    rw [List.length_cons, List.length_cons, ih hbs]

/-- What a list of checks gives comes from one of them each. -/
theorem mem_iff_of_mapM_ok {ys : List β} (h : xs.mapM f = .ok ys) (y : β) :
    y ∈ ys ↔ ∃ x ∈ xs, f x = .ok y := by
  induction xs generalizing ys with
  | nil =>
    cases h
    simp
  | cons x xs ih =>
    obtain ⟨b, bs, hb, hbs, rfl⟩ := mapM_cons_eq_ok_iff.mp h
    simp only [List.mem_cons, ih hbs, exists_eq_or_imp, hb, Except.ok.injEq, @eq_comm _ b y]

/-- A list of checks fails in the way that one of them does. -/
theorem exists_mem_of_mapM_error {e : ε} (h : xs.mapM f = .error e) : ∃ x ∈ xs, f x = .error e := by
  induction xs with
  | nil =>
    rw [List.mapM_nil] at h
    cases h
  | cons x xs ih =>
    rw [List.mapM_cons] at h
    obtain hx | ⟨b, _, h⟩ := error_of_bind h
    · exact ⟨x, List.mem_cons_self, hx⟩
    · obtain hxs | ⟨bs, _, h⟩ := error_of_bind h
      · obtain ⟨x', hx', hf⟩ := ih hxs
        exact ⟨x', List.mem_cons_of_mem x hx', hf⟩
      · cases h

/-- A list of checks succeeds if each of them does. -/
theorem exists_mapM_ok_iff : (∃ ys, xs.mapM f = .ok ys) ↔ ∀ x ∈ xs, ∃ y, f x = .ok y := by
  induction xs with
  | nil => simp [pure, Except.pure]
  | cons x xs ih =>
    rw [List.forall_mem_cons, ← ih]
    constructor
    · rintro ⟨ys, h⟩
      obtain ⟨b, bs, hb, hbs, _⟩ := mapM_cons_eq_ok_iff.mp h
      exact ⟨⟨b, hb⟩, bs, hbs⟩
    · rintro ⟨⟨b, hb⟩, bs, hbs⟩
      exact ⟨b :: bs, mapM_cons_eq_ok_iff.mpr ⟨b, bs, hb, hbs, rfl⟩⟩

/-- If a list of checks succeeds, each of them has its result among the results. -/
theorem exists_mem_of_mapM_ok {ys : List β} (h : xs.mapM f = .ok ys) {x : α} (hx : x ∈ xs) :
    ∃ y ∈ ys, f x = .ok y := by
  obtain ⟨y, hy⟩ := exists_mapM_ok_iff.mp ⟨ys, h⟩ x hx
  exact ⟨y, (mem_iff_of_mapM_ok h y).mpr ⟨x, hx, hy⟩, hy⟩

end Chains

/-! ## Results with a trace -/

/-- The policies that may be functions of the host. -/
inductive Policy where
  | whitelist
  | keyTranslator
  | nestedConditions
deriving DecidableEq

def Policy.label : Policy → String
  | .whitelist => "whitelist"
  | .keyTranslator => "keyTranslator"
  | .nestedConditions => "nestedConditions"

inductive Event where
  | asked (policy : Policy) (path : Path)
  | logged (message : String) (data : Entries Value)

structure Traced (α : Type) where
  events : List Event
  result : Except Fault α

namespace Traced
variable {α β : Type}

protected def pure (a : α) : Traced α := ⟨[], .ok a⟩

protected def bind (x : Traced α) (f : α → Traced β) : Traced β :=
  match x.result with
  | .ok a => ⟨x.events ++ (f a).events, (f a).result⟩
  | .error fault => ⟨x.events, .error fault⟩

instance : Monad Traced where
  pure := Traced.pure
  bind := Traced.bind

/-- A result without a trace. -/
def ofExcept (r : Except Fault α) : Traced α := ⟨[], r⟩

def fail (fault : Fault) : Traced α := ⟨[], .error fault⟩

def refuse (cause : Cause) (dataKey : Path) (filter : Value) (op : Option String) : Traced α :=
  fail (.refused ⟨cause, dataKey, filter, op⟩)

def log (message : String) (data : Entries Value) : Traced Unit :=
  ⟨[.logged message data], .ok ()⟩

/-- The answer of a function of the host, and the question on record. -/
def ask (policy : Policy) (path : Path) (answer : Except String α) : Traced α :=
  ⟨[.asked policy path], answer.mapError .policyFailed⟩

theorem bind_of_ok {x : Traced α} {a : α} (f : α → Traced β) (h : x.result = .ok a) :
    Traced.bind x f = ⟨x.events ++ (f a).events, (f a).result⟩ := by
  simp [Traced.bind, h]

theorem bind_eq (x : Traced α) (f : α → Traced β) : x >>= f = Traced.bind x f := rfl

theorem pure_eq (a : α) : (pure a : Traced α) = Traced.pure a := rfl

instance : LawfulMonad Traced := LawfulMonad.mk' Traced
  (by
    intro α x
    obtain ⟨events, r | a⟩ := x
    · rfl
    · show Traced.mk (events ++ []) _ = _
      simp [Traced.pure])
  (by
    intro α β a f
    rfl)
  (by
    intro α β γ x f g
    obtain ⟨events, r | a⟩ := x
    · rfl
    · simp only [bind_eq, Traced.bind]
      cases h : (f a).result <;> simp)

/-- A chain succeeds if both its parts do. -/
theorem bind_result_eq_ok_iff {x : Traced α} {f : α → Traced β} {b : β} :
    (x >>= f).result = .ok b ↔ ∃ a, x.result = .ok a ∧ (f a).result = .ok b := by
  obtain ⟨events, fault | a⟩ := x <;> simp [bind_eq, Traced.bind]

/-- A chain fails if its first part does, or its second part after that. -/
theorem bind_result_eq_error_iff {x : Traced α} {f : α → Traced β} {fault : Fault} :
    (x >>= f).result = .error fault ↔
      x.result = .error fault ∨ ∃ a, x.result = .ok a ∧ (f a).result = .error fault := by
  obtain ⟨events, fault | a⟩ := x <;> simp [bind_eq, Traced.bind]

theorem bind_result_of_ok {x : Traced α} {f : α → Traced β} {a : α} (h : x.result = .ok a) :
    (x >>= f).result = (f a).result := by
  rw [bind_eq, bind_of_ok f h]

theorem bind_result_of_error {x : Traced α} {f : α → Traced β} {fault : Fault}
    (h : x.result = .error fault) : (x >>= f).result = .error fault :=
  bind_result_eq_error_iff.mpr (.inl h)

theorem return_result (x : Traced α) (g : α → β) :
    (do return g (← x)).result = x.result.map g := by
  cases h : x.result with
  | error fault => exact bind_result_of_error h
  | ok a => exact bind_result_of_ok h

/-- The result of a list of readings is that of the list of their results. -/
theorem mapM_result (f : α → Traced β) (xs : List α) :
    (xs.mapM f).result = xs.mapM fun x => (f x).result := by
  induction xs with
  | nil => rfl
  | cons x xs ih =>
    rw [List.mapM_cons, List.mapM_cons, ← ih]
    cases hx : (f x).result with
    | error fault => exact bind_result_of_error hx
    | ok y => exact (bind_result_of_ok hx).trans (return_result _ _)

/-- The events of a chain are those of its first part, and of its second part after that. -/
theorem mem_events_of_mem_bind {x : Traced α} {f : α → Traced β} {e : Event}
    (h : e ∈ (x >>= f).events) : e ∈ x.events ∨ ∃ a, x.result = .ok a ∧ e ∈ (f a).events := by
  obtain ⟨events, fault | a⟩ := x
  · exact .inl h
  · obtain h | h := List.mem_append.mp h
    · exact .inl h
    · exact .inr ⟨a, rfl, h⟩

theorem pure_result (a : α) : (pure a : Traced α).result = .ok a := rfl

theorem ofExcept_result (r : Except Fault α) : (ofExcept r).result = r := rfl

theorem refuse_result_ne_ok (cause : Cause) (dataKey : Path) (filter : Value) (op : Option String)
    (a : α) : (refuse cause dataKey filter op : Traced α).result ≠ .ok a := by
  simp [refuse, fail]

/-- Nothing follows a refusal. -/
theorem refuse_bind (cause : Cause) (dataKey : Path) (filter : Value) (op : Option String)
    (f : α → Traced β) :
    (refuse cause dataKey filter op : Traced α) >>= f = refuse cause dataKey filter op := rfl

/-- What follows a result needs to agree on that result only. -/
theorem bind_congr_of_ok {x : Traced α} {f g : α → Traced β}
    (h : ∀ a, x.result = .ok a → f a = g a) : x >>= f = x >>= g := by
  obtain ⟨events, fault | a⟩ := x
  · rfl
  · simp only [bind_eq, Traced.bind, h a rfl]

/-- Chains have the same result, as far as `g` tells faults apart, if their parts have. -/
theorem mapError_bind_congr {ε : Type} {g : Fault → ε} {x y : Traced α} {k l : α → Traced β}
    (hx : x.result.mapError g = y.result.mapError g)
    (h : ∀ a, x.result = .ok a → (k a).result.mapError g = (l a).result.mapError g) :
    (x >>= k).result.mapError g = (y >>= l).result.mapError g := by
  cases hxr : x.result with
  | ok a =>
    have hyr : y.result = .ok a := ok_of_mapError (hx.symm.trans (congrArg _ hxr))
    rw [bind_result_of_ok hxr, bind_result_of_ok hyr]
    exact h a hxr
  | error fault =>
    obtain ⟨fault', hyr, hsame⟩ := error_of_mapError (hx.symm.trans (congrArg _ hxr))
    rw [bind_result_of_error hxr, bind_result_of_error hyr]
    exact congrArg Except.error hsame.symm

end Traced
end RowFilter
