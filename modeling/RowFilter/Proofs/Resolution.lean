import RowFilter.Schema.Definition
import RowFilter.Schema.Resolve
import RowFilter.Trace

/-!
# Resolution by parts

A path that resolves does so part by part: a beginning of it resolves to the same steps, and
behind a relation the rest is looked up on the related model. A part that crosses no relation
before its last segment names one field, with nothing around it but list indices.
-/

namespace RowFilter

/-! ## Crossings -/

theorem Step.crosses_iff {step : Step} :
    step.crosses = true ↔ ∃ r, step.field = some (.relation r) := by
  obtain ⟨name, _ | ⟨field | r⟩, model⟩ := step <;> simp [crosses, Field.isRelation]

theorem mem_crossings {steps : List Step} {n : Nat} :
    n ∈ crossings steps ↔ ∃ step, steps[n]? = some step ∧ step.crosses = true := by
  simp [crossings, List.mem_zipIdx_iff_getElem?]

theorem mem_crossings_cons {step : Step} {steps : List Step} {n : Nat} :
    n + 1 ∈ crossings (step :: steps) ↔ n ∈ crossings steps := by
  rw [mem_crossings, mem_crossings, List.getElem?_cons_succ]

theorem crossings_cons (step : Step) (steps : List Step) :
    crossings (step :: steps) =
      (if step.crosses then [0] else []) ++ (crossings steps).map (· + 1) := by
  unfold crossings
  rw [List.zipIdx_cons, List.zipIdx_succ, List.filter_cons, List.filter_map]
  split <;> simp [Function.comp_def]

/-- One step further on, the next crossing from one place further on is the same. -/
theorem find?_crossings_cons (step : Step) (steps : List Step) (depth : Nat) :
    (crossings (step :: steps)).find? (depth + 1 ≤ ·) =
      ((crossings steps).find? (depth ≤ ·)).map (· + 1) := by
  have hfirst : (if step.crosses then [0] else []).find? (depth + 1 ≤ ·) = none := by
    split <;> simp
  have hshift : ((depth + 1 ≤ ·) ∘ (· + 1) : Nat → Bool) = (depth ≤ ·) := by
    funext n
    exact decide_eq_decide.mpr Nat.add_le_add_iff_right
  rw [crossings_cons, List.find?_append, hfirst, Option.none_or, List.find?_map, hshift]

/-- From a step on that crosses into a related model, that is the first to do so. -/
theorem find?_crossings_append {step : Step} (hcrosses : step.crosses = true)
    (before tail : List Step) :
    (crossings (before ++ step :: tail)).find? (before.length ≤ ·) = some before.length := by
  induction before with
  | nil => simp [crossings_cons, hcrosses]
  | cons first before ih =>
    rw [List.cons_append, List.length_cons, find?_crossings_cons, ih]
    rfl

theorem find?_crossings_cons_zero {step : Step} (h : step.crosses = false) (steps : List Step) :
    (crossings (step :: steps)).find? (0 ≤ ·) =
      ((crossings steps).find? (0 ≤ ·)).map (· + 1) := by
  have hany : ((0 ≤ ·) ∘ (· + 1) : Nat → Bool) = (0 ≤ ·) := by
    funext n
    simp
  rw [crossings_cons, h, if_neg Bool.false_ne_true, List.nil_append, List.find?_map, hany]

/-- Without the steps that find nothing, the next crossing is the same, and comes as many steps
earlier as were left out before it. -/
theorem find?_crossings_filter (steps : List Step) (depth : Nat) :
    (crossings (steps.filter (·.field.isSome))).find?
        (((steps.take depth).filter (·.field.isSome)).length ≤ ·) =
      ((crossings steps).find? (depth ≤ ·)).map fun n =>
        ((steps.take n).filter (·.field.isSome)).length := by
  induction steps generalizing depth with
  | nil => rfl
  | cons step steps ih =>
    have hfilter (rest : List Step) : (step :: rest).filter (·.field.isSome) =
        if step.field.isSome then step :: rest.filter (·.field.isSome)
        else rest.filter (·.field.isSome) := List.filter_cons
    have hcount (n : Nat) : (((step :: steps).take (n + 1)).filter (·.field.isSome)).length =
        ((steps.take n).filter (·.field.isSome)).length + if step.field.isSome then 1 else 0 := by
      rw [List.take_succ_cons, hfilter]
      split <;> rfl
    have hshift (next : Option Nat) :
        ((next.map (· + 1)).map fun n =>
            (((step :: steps).take n).filter (·.field.isSome)).length) =
          next.map fun n => ((steps.take n).filter (·.field.isSome)).length +
            if step.field.isSome then 1 else 0 := by
      rw [Option.map_map]
      exact congrArg (next.map ·) (funext hcount)
    cases depth with
    | succ depth =>
      rw [find?_crossings_cons, hshift, hcount, hfilter]
      split
      · rw [find?_crossings_cons, ih, Option.map_map]
        rfl
      · exact ih depth
    | zero =>
      have hzero := ih 0
      rw [List.take_zero, List.filter_nil, List.length_nil] at hzero ⊢
      by_cases hcrosses : step.crosses = true
      · have hfirst (rest : List Step) : (crossings (step :: rest)).find? (0 ≤ ·) = some 0 :=
          find?_crossings_append hcrosses [] rest
        obtain ⟨r, hfound⟩ := Step.crosses_iff.mp hcrosses
        rw [hfilter, if_pos (by rw [hfound]; rfl), hfirst, hfirst]
        rfl
      · have hcrosses : step.crosses = false := by simpa using hcrosses
        rw [find?_crossings_cons_zero hcrosses, hshift, hfilter]
        split
        · rw [find?_crossings_cons_zero hcrosses, hzero, Option.map_map]
          rfl
        · exact hzero

theorem crossings_pairwise (steps : List Step) : (crossings steps).Pairwise (· < ·) := by
  unfold crossings
  rw [List.pairwise_map]
  refine List.Pairwise.filter _ ?_
  rw [← List.pairwise_map (f := Prod.snd) (R := (· < ·)), List.zipIdx_map_snd]
  exact List.pairwise_lt_range'

/-- The first crossing from a depth on comes before all others from there on. -/
theorem le_of_find?_crossings {steps : List Step} {depth next n : Nat}
    (h : (crossings steps).find? (depth ≤ ·) = some next) (hn : n ∈ crossings steps)
    (hle : depth ≤ n) : next ≤ n := by
  obtain ⟨_, before, after, heq, hbefore⟩ := List.find?_eq_some_iff_append.mp h
  have hsorted := crossings_pairwise steps
  rw [heq, List.pairwise_append, List.pairwise_cons] at hsorted
  rw [heq] at hn
  rcases List.mem_append.mp hn with hn | hn
  · have := hbefore n hn
    simp [hle] at this
  · rcases List.mem_cons.mp hn with rfl | hn
    · exact Nat.le_refl n
    · exact Nat.le_of_lt (hsorted.2.1.1 n hn)

namespace Schema

variable {s : Schema} {model root : String} {current : Option Field} {p q : Path}
  {steps : List Step}

/-- The model on which the next segment is looked up. Nothing is looked up behind a scalar
field. -/
def owner? (model : String) : Option Field → Option String
  | none => some model
  | some (.relation r) => some r.target
  | some (.scalar _) => none

/-- Behind a field it does not matter from which model a walk set out. -/
theorem owner?_behind (f : Field) (model' : String) :
    owner? model (some f) = owner? model' (some f) := by
  cases f <;> rfl

theorem walk_behind (r : RelationField) (model' : String) :
    s.walk model (some (.relation r)) p = s.walk model' (some (.relation r)) p := by
  cases p <;> rfl

/-- A walk goes on with what stands on the model reached: behind a field a list index keeps the
place, and everything else is looked up. -/
theorem walk_cons {owner : String} (howner : owner? model current = some owner) (name : String) :
    s.walk model current (name :: p) =
      if current.isSome && Path.isIndex name then
        (s.walk owner current p).map (⟨name, none, owner⟩ :: ·)
      else match s.field? owner name with
        | some field => (s.walk owner (some field) p).map (⟨name, some field, owner⟩ :: ·)
        | none => .error (.unknown name owner) := by
  have hreturn (step : Step) (rest : Except Unresolved (List Step)) :
      (do return step :: (← rest)) = rest.map (step :: ·) := by
    cases rest <;> rfl
  have hstep : (do
      let step ← s.stepAt owner name
      return step :: (← s.walk owner step.field p) : Except Unresolved (List Step)) =
      match s.field? owner name with
        | some field => (s.walk owner (some field) p).map (⟨name, some field, owner⟩ :: ·)
        | none => .error (.unknown name owner) := by
    unfold stepAt
    cases s.field? owner name with
    | none => rfl
    | some field => exact hreturn _ _
  rcases current with _ | ⟨_ | r⟩ <;> cases howner
  · exact hstep
  · rw [← hstep, ← hreturn]
    rfl

/-- One segment of a walk: a list index behind a field, or else the name of a field. -/
theorem walk_cons_eq_ok_iff {name : String} :
    s.walk model current (name :: p) = .ok steps ↔
      ∃ tail owner, owner? model current = some owner ∧
        ((Path.isIndex name = true ∧ current.isSome ∧ steps = ⟨name, none, owner⟩ :: tail ∧
            s.walk owner current p = .ok tail) ∨
          ∃ field, (current.isSome → Path.isIndex name = false) ∧
            s.field? owner name = some field ∧ steps = ⟨name, some field, owner⟩ :: tail ∧
            s.walk owner (some field) p = .ok tail) := by
  constructor
  · intro h
    cases howner : owner? model current with
    | none =>
      rcases current with _ | ⟨_ | r⟩ <;> cases howner
      cases h
    | some owner =>
      rw [walk_cons howner] at h
      split at h
      · next hindex =>
        rw [Bool.and_eq_true] at hindex
        obtain ⟨tail, htail, rfl⟩ := exists_of_map_eq_ok h
        exact ⟨tail, owner, rfl, .inl ⟨hindex.2, hindex.1, rfl, htail⟩⟩
      · next hindex =>
        split at h
        · next field hfield =>
          obtain ⟨tail, htail, rfl⟩ := exists_of_map_eq_ok h
          refine ⟨tail, owner, rfl, .inr ⟨field, ?_, hfield, rfl, htail⟩⟩
          intro hcurrent
          simpa [hcurrent] using hindex
        · cases h
  · rintro ⟨tail, owner, howner, ⟨hindex, hcurrent, rfl, htail⟩ |
      ⟨field, hindex, hfield, rfl, htail⟩⟩
    · rw [walk_cons howner, hindex, hcurrent, htail]
      rfl
    · have hname : (current.isSome && Path.isIndex name) = false := by
        cases hcurrent : current.isSome with
        | false => rfl
        | true => rw [hindex hcurrent, Bool.and_false]
      rw [walk_cons howner, hname, if_neg Bool.false_ne_true, hfield]
      exact congrArg (Except.map _) htail

/-- A walk takes one step for each segment, under the name of the segment. -/
theorem names_of_walk (h : s.walk model current p = .ok steps) : steps.map (·.name) = p := by
  induction p generalizing model current steps with
  | nil =>
    cases h
    rfl
  | cons name p ih =>
    obtain ⟨tail, owner, _, ⟨_, _, rfl, htail⟩ | ⟨field, _, _, rfl, htail⟩⟩ :=
      walk_cons_eq_ok_iff.mp h
    · rw [List.map_cons, ih htail]
    · rw [List.map_cons, ih htail]

theorem length_of_walk (h : s.walk model current p = .ok steps) : steps.length = p.length := by
  rw [← names_of_walk h, List.length_map]

theorem ne_nil_of_walk (h : s.walk model current p = .ok steps) (hp : p ≠ []) : steps ≠ [] := by
  rintro rfl
  exact hp (names_of_walk h).symm

/-- The beginning of a path takes the same steps. -/
theorem walk_take (h : s.walk model current p = .ok steps) (n : Nat) :
    s.walk model current (p.take n) = .ok (steps.take n) := by
  induction p generalizing model current steps n with
  | nil =>
    cases h
    simp [walk]
  | cons name p ih =>
    cases n with
    | zero => rfl
    | succ n =>
      rw [List.take_succ_cons]
      obtain ⟨tail, owner, howner, hstep⟩ := walk_cons_eq_ok_iff.mp h
      refine walk_cons_eq_ok_iff.mpr ⟨tail.take n, owner, howner, ?_⟩
      obtain ⟨hindex, hcurrent, rfl, htail⟩ | ⟨field, hindex, hfield, rfl, htail⟩ := hstep
      · exact .inl ⟨hindex, hcurrent, rfl, ih htail n⟩
      · exact .inr ⟨field, hindex, hfield, rfl, ih htail n⟩

theorem leaf?_cons (step : Step) {steps : List Step} (h : steps ≠ []) :
    leaf? (step :: steps) = leaf? steps := by
  obtain ⟨next, rest, rfl⟩ := List.exists_cons_of_ne_nil h
  unfold leaf?
  rw [List.getLast?_cons_cons]

theorem leaf?_append {f : Field} (before : List Step) (h : leaf? steps = some f) :
    leaf? (before ++ steps) = some f := by
  obtain ⟨step, hlast, hfield⟩ := Option.bind_eq_some_iff.mp h
  rw [leaf?, List.getLast?_append, hlast, Option.some_or, Option.bind_some, hfield]

/-- Behind a relation the walk goes on from there. -/
theorem walk_of_append {r : RelationField} (h : s.walk model current (p ++ q) = .ok steps)
    (hleaf : leaf? (steps.take p.length) = some (.relation r)) :
    ∃ model, s.walk model (some (.relation r)) q = .ok (steps.drop p.length) := by
  induction p generalizing model current steps with
  | nil => simp [leaf?] at hleaf
  | cons name p ih =>
    have hbehind {step : Step} {tail : List Step} {owner : String} {field : Option Field}
        (hp : p ≠ []) (htail : s.walk owner field (p ++ q) = .ok tail)
        (hleaf : leaf? ((step :: tail).take (name :: p).length) = some (.relation r)) :
        leaf? (tail.take p.length) = some (.relation r) := by
      have hbegin := walk_take htail p.length
      rw [List.take_left] at hbegin
      rw [List.length_cons, List.take_succ_cons, leaf?_cons _ (ne_nil_of_walk hbegin hp)] at hleaf
      exact hleaf
    obtain ⟨tail, owner, _, ⟨_, _, rfl, htail⟩ | ⟨field, _, _, rfl, htail⟩⟩ :=
      walk_cons_eq_ok_iff.mp h
    · by_cases hp : p = []
      · subst hp
        simp [leaf?] at hleaf
      · exact ih htail (hbehind hp htail hleaf)
    · by_cases hp : p = []
      · subst hp
        have hfield : field = .relation r := by simpa [leaf?] using hleaf
        exact ⟨owner, hfield ▸ htail⟩
      · exact ih htail (hbehind hp htail hleaf)

/-- No field has a name that looks like a list index. -/
def NamesNoIndex (s : Schema) : Prop :=
  ∀ model name, (s.field? model name).isSome → Path.isIndex name = false

/-- A walk that crosses no relation before its last segment finds one field of the model where it
starts. -/
theorem exists_name_of_walk {f : Field} {owner : String} (hnames : s.NamesNoIndex)
    (h : s.walk model current p = .ok steps) (howner : owner? model current = some owner)
    (hleaf : leaf? steps = some f) (hstays : ∀ n ∈ crossings steps, p.length ≤ n + 1) :
    ∃ name, p.strip = [name] ∧ s.field? owner name = some f := by
  induction p generalizing model current steps with
  | nil =>
    cases h
    cases hleaf
  | cons name p ih =>
    obtain ⟨tail, owner', howner', hcase⟩ := walk_cons_eq_ok_iff.mp h
    cases howner'.symm.trans howner
    have hstays' {step : Step} (hsteps : steps = step :: tail) (n : Nat)
        (hn : n ∈ crossings tail) : p.length ≤ n + 1 :=
      Nat.le_of_succ_le_succ (hstays (n + 1) (hsteps ▸ mem_crossings_cons.mpr hn))
    obtain ⟨hindex, hcurrent, rfl, htail⟩ | ⟨field, _, hfield, rfl, htail⟩ := hcase
    · -- an index keeps the place, and a field is still to come
      have hne : tail ≠ [] := by
        rintro rfl
        cases hleaf
      rw [leaf?_cons _ hne] at hleaf
      obtain ⟨behind, rfl⟩ := Option.isSome_iff_exists.mp hcurrent
      obtain ⟨found, hstrip, hfound⟩ :=
        ih htail ((owner?_behind behind _).trans howner) hleaf (hstays' rfl)
      refine ⟨found, ?_, hfound⟩
      rw [Path.strip, List.filter_cons_of_neg (by simpa using hindex)]
      exact hstrip
    · rcases p with _ | ⟨next, rest⟩
      · cases htail
        have hf : field = f := by simpa [leaf?] using hleaf
        refine ⟨name, ?_, hf ▸ hfield⟩
        have hindex := hnames owner name (by rw [hfield]; rfl)
        simp [Path.strip, hindex]
      · -- nothing follows a scalar field, and a relation is not crossed before the end
        cases field with
        | scalar field =>
          obtain ⟨_, _, hscalar, _⟩ := walk_cons_eq_ok_iff.mp htail
          cases hscalar
        | relation r =>
          have := hstays 0 (mem_crossings.mpr ⟨_, rfl, rfl⟩)
          simp at this

/-! ## Resolved paths -/

theorem leaf?_eq_some {f : Field} (h : leaf? steps = some f) :
    ∃ before step, steps = before ++ [step] ∧ step.field = some f := by
  obtain ⟨step, hlast, hfield⟩ := Option.bind_eq_some_iff.mp h
  obtain ⟨before, rfl⟩ := List.getLast?_eq_some_iff.mp hlast
  exact ⟨before, step, rfl, hfield⟩

theorem resolve_of_isRoot (hroot : p.isRoot = true) : s.resolve root p = .ok [] := by
  rw [resolve, if_pos hroot]

/-- A path away from the root resolves if its segments may be looked up and it leads to a field. -/
theorem resolve_eq_ok_iff (hroot : p.isRoot = false) :
    s.resolve root p = .ok steps ↔ (∀ name ∈ p, Path.IsSafe name) ∧
      s.walk root none p = .ok steps ∧ ∃ f, leaf? steps = some f := by
  rw [resolve, hroot, if_neg Bool.false_ne_true, ← Path.problem?_eq_none_iff]
  cases p.problem? with
  | some problem => simp
  | none =>
    cases hwalk : s.walk root none p with
    | error u => simp [bind, Except.bind]
    | ok steps' =>
      have hne : steps' ≠ [] := by
        refine ne_nil_of_walk hwalk ?_
        rintro rfl
        cases hroot
      obtain ⟨before, ⟨name, field, owner⟩, rfl⟩ : ∃ before last, steps' = before ++ [last] :=
        ⟨steps'.dropLast, steps'.getLast hne, (List.dropLast_concat_getLast hne).symm⟩
      simp only [bind, Except.bind, List.getLast?_concat]
      cases field with
      | none =>
        constructor
        · intro h
          cases h
        · rintro ⟨_, h, f, hleaf⟩
          cases h
          simp [leaf?] at hleaf
      | some f =>
        constructor
        · intro h
          cases h
          exact ⟨trivial, rfl, f, by simp [leaf?]⟩
        · rintro ⟨_, h, _⟩
          exact h

theorem walk_of_resolve (h : s.resolve root p = .ok steps) (hroot : p.isRoot = false) :
    s.walk root none p = .ok steps :=
  ((resolve_eq_ok_iff hroot).mp h).2.1

theorem isSafe_of_resolve (h : s.resolve root p = .ok steps) (hroot : p.isRoot = false) :
    ∀ name ∈ p, Path.IsSafe name :=
  ((resolve_eq_ok_iff hroot).mp h).1

/-- A path that resolves stops at a field, unless it is that of the root. -/
theorem exists_leaf_of_resolve (h : s.resolve root p = .ok steps) (hroot : p.isRoot = false) :
    ∃ f, leaf? steps = some f :=
  ((resolve_eq_ok_iff hroot).mp h).2.2

theorem resolve_of_walk {f : Field} (hsafe : ∀ name ∈ p, Path.IsSafe name)
    (h : s.walk root none p = .ok steps) (hleaf : leaf? steps = some f) :
    s.resolve root p = .ok steps := by
  have hne : p ≠ [] := by
    rintro rfl
    cases h
    cases hleaf
  exact (resolve_eq_ok_iff (Path.isRoot_eq_false hne hsafe)).mpr ⟨hsafe, h, f, hleaf⟩

/-- The root itself takes no step. -/
theorem isRoot_of_ne_nil (h : s.resolve root p = .ok steps) (hne : steps ≠ []) :
    p.isRoot = false := by
  cases hroot : p.isRoot with
  | false => rfl
  | true =>
    rw [resolve_of_isRoot hroot] at h
    exact absurd (Except.ok.inj h).symm hne

theorem isRoot_of_leaf? {f : Field} (h : s.resolve root p = .ok steps)
    (hleaf : leaf? steps = some f) : p.isRoot = false := by
  refine isRoot_of_ne_nil h ?_
  rintro rfl
  cases hleaf

theorem isRoot_take (n : Nat) (h : p.isRoot = true) : Path.isRoot (p.take n) = true := by
  unfold Path.isRoot at h
  split at h
  · simp [Path.isRoot]
  · cases n <;> simp [Path.isRoot]
  · cases h

theorem isRoot_eq_false_of_take {n : Nat} (h : Path.isRoot (p.take n) = false) :
    p.isRoot = false := by
  cases hroot : p.isRoot with
  | false => rfl
  | true =>
    rw [isRoot_take n hroot] at h
    cases h

/-! ## Without list indices -/

/-- A field of the model reached takes one step, and the walk goes on behind it. -/
theorem walk_cons_eq_map {name owner : String} {field : Field}
    (howner : owner? model current = some owner) (hindex : Path.isIndex name = false)
    (hfield : s.field? owner name = some field) :
    s.walk model current (name :: p) =
      (s.walk owner (some field) p).map (⟨name, some field, owner⟩ :: ·) := by
  rw [walk_cons howner, hindex, Bool.and_false, if_neg Bool.false_ne_true, hfield]

theorem walk_cons_of_field {name owner : String} {field : Field}
    (howner : owner? model current = some owner) (hindex : Path.isIndex name = false)
    (hfield : s.field? owner name = some field) (h : s.walk owner (some field) p = .ok steps) :
    s.walk model current (name :: p) = .ok (⟨name, some field, owner⟩ :: steps) := by
  rw [walk_cons_eq_map howner hindex hfield, h]
  rfl

/-- A path that crosses into a related model stops there at the relation, if it is cut off behind
it. -/
theorem exists_relation_of_mem_crossings (h : s.resolve root p = .ok steps) {n : Nat}
    (hn : n ∈ crossings steps) :
    ∃ r, s.resolve root (p.take (n + 1)) = .ok (steps.take (n + 1)) ∧
      leaf? (steps.take (n + 1)) = some (.relation r) := by
  obtain ⟨step, hstep, hcrosses⟩ := mem_crossings.mp hn
  obtain ⟨r, hr⟩ := Step.crosses_iff.mp hcrosses
  have hroot : p.isRoot = false := by
    refine isRoot_of_ne_nil h ?_
    rintro rfl
    cases hstep
  have hleaf : leaf? (steps.take (n + 1)) = some (.relation r) := by
    rw [List.take_add_one, hstep, leaf?, Option.toList_some, List.getLast?_append]
    simp [hr]
  have hsafe : ∀ name ∈ p.take (n + 1), Path.IsSafe name := fun name hname =>
    isSafe_of_resolve h hroot name (List.mem_of_mem_take hname)
  exact ⟨r, resolve_of_walk hsafe (walk_take (walk_of_resolve h hroot) (n + 1)) hleaf, hleaf⟩

/-- A path without its list indices takes the steps that find a field, unless it begins with a
name that looks like one. -/
theorem walk_strip (hhead : current = none → ∀ name ∈ p.head?, Path.isIndex name = false)
    (h : s.walk model current p = .ok steps) :
    s.walk model current p.strip = .ok (steps.filter (·.field.isSome)) := by
  induction p generalizing model current steps with
  | nil =>
    cases h
    rfl
  | cons name p ih =>
    obtain ⟨tail, owner, howner, ⟨hindex, hcurrent, rfl, htail⟩ |
      ⟨field, hindex, hfield, rfl, htail⟩⟩ := walk_cons_eq_ok_iff.mp h
    · rw [Path.strip, List.filter_cons_of_neg (by simpa using hindex),
        List.filter_cons_of_neg (by simp)]
      rcases current with _ | ⟨_ | r⟩
      · cases hcurrent
      · cases howner
      · rw [walk_behind r owner]
        refine ih ?_ htail
        intro hnone
        cases hnone
    · have hindex : Path.isIndex name = false := by
        cases hcurrent : current with
        | none => exact hhead hcurrent name rfl
        | some f => exact hindex (by rw [hcurrent]; rfl)
      rw [Path.strip, List.filter_cons_of_pos (by rw [hindex]; rfl),
        List.filter_cons_of_pos (by rfl)]
      refine walk_cons_of_field howner hindex hfield (ih ?_ htail)
      intro hnone
      cases hnone

/-- Leaving out the steps that find nothing leaves the field at the end. -/
theorem leaf?_filter {f : Field} (h : leaf? steps = some f) :
    leaf? (steps.filter (·.field.isSome)) = some f := by
  obtain ⟨before, last, rfl, hlast⟩ := leaf?_eq_some h
  rw [List.filter_append, List.filter_cons_of_pos (by rw [hlast]; rfl), List.filter_nil]
  simp [leaf?, hlast]

/-- A path that resolves does so without its list indices, to the steps that find a field, unless
it begins with a name that looks like a list index. -/
theorem resolve_strip (hhead : ∀ name ∈ p.head?, Path.isIndex name = false)
    (h : s.resolve root p = .ok steps) :
    s.resolve root p.strip = .ok (steps.filter (·.field.isSome)) := by
  cases hroot : p.isRoot with
  | true =>
    rw [resolve_of_isRoot hroot] at h
    cases h
    exact resolve_of_isRoot (Path.isRoot_strip hroot)
  | false =>
    obtain ⟨f, hleaf⟩ := exists_leaf_of_resolve h hroot
    have hsafe : ∀ name ∈ p.strip, Path.IsSafe name := fun name hname =>
      isSafe_of_resolve h hroot name (List.mem_filter.mp hname).1
    exact resolve_of_walk hsafe (walk_strip (fun _ => hhead) (walk_of_resolve h hroot))
      (leaf?_filter hleaf)

/-- The first name of a path that resolves is a field of the root model. -/
theorem isSome_field?_of_resolve {name : String} (hroot : p.isRoot = false)
    (h : s.resolve root p = .ok steps) (hname : name ∈ p.head?) : (s.field? root name).isSome := by
  obtain ⟨rest, rfl⟩ := List.head?_eq_some_iff.mp hname
  obtain ⟨_, _, howner, ⟨_, hcurrent, _⟩ | ⟨field, _, hfield, _⟩⟩ :=
    walk_cons_eq_ok_iff.mp (walk_of_resolve h hroot)
  · cases hcurrent
  · cases howner
    rw [hfield]
    rfl

/-- A path that stops at a field does so without its list indices too. -/
theorem exists_resolve_strip {f : Field} (hnames : s.NamesNoIndex)
    (h : s.resolve root p = .ok steps) (hleaf : leaf? steps = some f) :
    ∃ steps, s.resolve root p.strip = .ok steps ∧ leaf? steps = some f :=
  ⟨_, resolve_strip (fun name hname => hnames root name
    (isSome_field?_of_resolve (isRoot_of_leaf? h hleaf) h hname)) h, leaf?_filter hleaf⟩

/-- Behind a relation a path takes the steps that it takes from the related model. -/
theorem resolve_behind {r : String} {relation : RelationField} (hnames : s.NamesNoIndex)
    (hr : Path.IsSafe r) (hfield : s.field? root r = some (.relation relation))
    (h : s.resolve relation.target p = .ok steps) (hroot : p.isRoot = false) :
    s.resolve root (r :: p) = .ok (⟨r, some (.relation relation), root⟩ :: steps) := by
  have hwalk := walk_of_resolve h hroot
  obtain ⟨f, hleaf⟩ := exists_leaf_of_resolve h hroot
  have hbehind : s.walk root (some (.relation relation)) p = .ok steps := by
    cases p with
    | nil => cases hroot
    | cons name p =>
      obtain ⟨tail, owner, howner, ⟨_, hcurrent, _⟩ | ⟨field, _, hfound, rfl, htail⟩⟩ :=
        walk_cons_eq_ok_iff.mp hwalk
      · cases hcurrent
      · cases howner
        have hindex := hnames relation.target name (by rw [hfound]; rfl)
        exact walk_cons_of_field rfl hindex hfound htail
  have hindex : Path.isIndex r = false := hnames root r (by rw [hfield]; rfl)
  have hwhole : s.walk root none (r :: p) =
      .ok (⟨r, some (.relation relation), root⟩ :: steps) :=
    walk_cons_of_field rfl hindex hfield hbehind
  have hsafe : ∀ name ∈ r :: p, Path.IsSafe name :=
    List.forall_mem_cons.mpr ⟨hr, isSafe_of_resolve h hroot⟩
  exact resolve_of_walk hsafe hwhole (leaf?_append [_] hleaf)

/-- Where the fields of a model come next: at the root, or behind a relation to it. -/
inductive Reaches (s : Schema) (root : String) : Path → String → Prop
  | root : Reaches s root [] root
  | relation {p : Path} {steps : List Step} {r : RelationField} : s.resolve root p = .ok steps →
      leaf? steps = some (.relation r) → Reaches s root p r.target

/-- From a place on that reaches a model, the part of a path that crosses no relation before its
last segment names a field of the model. -/
theorem Reaches.exists_name {owner : String} {width : Nat} {steps' : List Step} {f : Field}
    (hnames : s.NamesNoIndex) (h : s.Reaches root p owner)
    (hwhole : s.resolve root (p ++ q) = .ok steps)
    (hpart : s.resolve root (p ++ q.take width) = .ok steps') (hleaf : leaf? steps' = some f)
    (hne : q.take width ≠ [])
    (hstays : ∀ n ∈ crossings steps, p.length ≤ n → p.length + width ≤ n + 1) :
    ∃ name, Path.strip (q.take width) = [name] ∧ s.field? owner name = some f := by
  have hroot := isRoot_of_leaf? hpart hleaf
  have hwalk := walk_of_resolve hpart hroot
  have htake : steps' = steps.take (p.length + width) := by
    rw [← List.take_length_add_append] at hroot
    have hroot' := isRoot_eq_false_of_take hroot
    have hsame := walk_take (walk_of_resolve hwhole hroot') (p.length + width)
    rw [List.take_length_add_append, hwalk] at hsame
    exact Except.ok.inj hsame
  have hlength := length_of_walk hwalk
  rw [List.length_append] at hlength
  have hpos := List.length_pos_iff.mpr hne
  have hleaf' : leaf? (steps'.drop p.length) = some f := by
    unfold leaf? at hleaf ⊢
    rw [List.getLast?_drop, if_neg (by omega)]
    exact hleaf
  have hstays' (n : Nat) (hn : n ∈ crossings (steps'.drop p.length)) :
      (q.take width).length ≤ n + 1 := by
    obtain ⟨step, hstep, hcrosses⟩ := mem_crossings.mp hn
    rw [List.getElem?_drop, htake, List.getElem?_take] at hstep
    split at hstep
    · have := hstays (p.length + n) (mem_crossings.mpr ⟨step, hstep, hcrosses⟩) (by omega)
      rw [List.length_take]
      omega
    · cases hstep
  cases h with
  | root => exact exists_name_of_walk hnames hwalk rfl hleaf' hstays'
  | @relation _ stepsP r hbefore hrelation =>
    have hbegin := walk_take hwalk p.length
    rw [List.take_left, walk_of_resolve hbefore (isRoot_of_leaf? hbefore hrelation)] at hbegin
    obtain ⟨model, hbehind⟩ := walk_of_append hwalk (Except.ok.inj hbegin ▸ hrelation)
    exact exists_name_of_walk hnames hbehind rfl hleaf' hstays'

end Schema
end RowFilter
