import RowFilter.Proofs.Layout

/-!
# Peaks of pending work

A limit is compared with the pending work before every task, and with nothing else. So what a
document comes to under a limit depends on one number: the largest count of pending tasks at any
check of the traversal that has no limit. Up to that peak every limit ends the traversal, and
from there on none is noticed.
-/

namespace RowFilter

theorem Setup.unlimited_of_limit {setup : Setup} (h : setup.policies.limit = none) :
    setup.unlimited = setup := by
  obtain ⟨schema, root, policies⟩ := setup
  cases policies
  cases h
  rfl

namespace Traversal
open TraversalState Traced

variable {setup : Setup} {document : Fragment} {s t : TraversalState} {limit : Nat}

/-! ## The peak of a traversal -/

/-- The largest count of pending tasks at any check from a state on, within so many steps. -/
def peakFrom (setup : Setup) : (fuel : Nat) → TraversalState → Nat
  | 0, _ => 0
  | fuel + 1, s =>
    match s.work with
    | [] => 0
    | task :: rest =>
      match (step setup s task rest).result with
      | .ok t => max s.work.length (peakFrom setup fuel t)
      | .error _ => s.work.length

def peak (setup : Setup) (document : Fragment) : Nat :=
  peakFrom setup document.totalLoad (.start document)

theorem peakFrom_of_done {fuel : Nat} (h : s.work = []) : peakFrom setup fuel s = 0 := by
  cases fuel with
  | zero => rfl
  | succ fuel => rw [peakFrom, h]

theorem peakFrom_of_ok {fuel : Nat} {task : Task} {rest : List Task}
    (hwork : s.work = task :: rest) (hstep : (step setup s task rest).result = .ok t) :
    peakFrom setup (fuel + 1) s = max s.work.length (peakFrom setup fuel t) := by
  rw [peakFrom]
  simp only [hwork, hstep]

theorem peakFrom_of_error {fuel : Nat} {task : Task} {rest : List Task} {fault : Fault}
    (hwork : s.work = task :: rest) (hstep : (step setup s task rest).result = .error fault) :
    peakFrom setup (fuel + 1) s = s.work.length := by
  rw [peakFrom]
  simp only [hwork, hstep]

theorem length_le_peakFrom {fuel : Nat} (h : s.load ≤ fuel) :
    s.work.length ≤ peakFrom setup fuel s := by
  cases hwork : s.work with
  | nil => exact Nat.zero_le _
  | cons task rest =>
    have hpos : 0 < s.load := by
      rw [Nat.pos_iff_ne_zero, Ne, load_eq_zero_iff, hwork]
      exact List.cons_ne_nil _ _
    obtain ⟨fuel, rfl⟩ := Nat.exists_eq_add_one.mpr (Nat.lt_of_lt_of_le hpos h)
    cases hstep : (step setup s task rest).result with
    | ok t =>
      rw [peakFrom_of_ok hwork hstep, hwork]
      exact Nat.le_max_left _ _
    | error fault => exact Nat.le_of_eq (hwork ▸ peakFrom_of_error hwork hstep).symm

/-- From a later state on the peak is no larger. -/
theorem Reachable.exists_peakFrom_le (h : Reachable setup document s) :
    ∃ fuel, s.load ≤ fuel ∧ peakFrom setup fuel s ≤ peak setup document := by
  induction h with
  | start =>
    refine ⟨document.totalLoad, Nat.le_of_eq ?_, Nat.le_refl _⟩
    simp [TraversalState.load, TraversalState.start, Task.load]
  | @step s t task rest _ hwork hstep ih =>
    obtain ⟨fuel, hfuel, hpeak⟩ := ih
    have hlt := load_step hwork hstep
    obtain ⟨fuel, rfl⟩ := Nat.exists_eq_add_one.mpr (Nat.lt_of_le_of_lt (Nat.zero_le _)
      (Nat.lt_of_lt_of_le hlt hfuel))
    rw [peakFrom_of_ok hwork hstep] at hpeak
    exact ⟨fuel, by omega, Nat.le_trans (Nat.le_max_right _ _) hpeak⟩

/-- The peak is met at a check of the traversal. -/
theorem exists_length_eq_peakFrom (fuel : Nat) {task : Task} {rest : List Task}
    (h : Reachable setup document s) (hwork : s.work = task :: rest) :
    ∃ t task rest, Reachable setup document t ∧ t.work = task :: rest ∧
      t.work.length = peakFrom setup (fuel + 1) s := by
  induction fuel generalizing s task rest with
  | zero =>
    refine ⟨s, task, rest, h, hwork, ?_⟩
    cases hstep : (Traversal.step setup s task rest).result with
    | ok t => rw [peakFrom_of_ok hwork hstep]; exact (Nat.max_eq_left (Nat.zero_le _)).symm
    | error fault => rw [peakFrom_of_error hwork hstep]
  | succ fuel ih =>
    cases hstep : (Traversal.step setup s task rest).result with
    | error fault => exact ⟨s, task, rest, h, hwork, (peakFrom_of_error hwork hstep).symm⟩
    | ok t =>
      rw [peakFrom_of_ok hwork hstep]
      obtain hlt | hle := Nat.lt_or_ge s.work.length (peakFrom setup (fuel + 1) t)
      · rw [Nat.max_eq_right (Nat.le_of_lt hlt)]
        cases hnext : t.work with
        | nil =>
          rw [peakFrom_of_done hnext] at hlt
          omega
        | cons task' rest' => exact ih (h.step hwork hstep) hnext
      · exact ⟨s, task, rest, h, hwork, (Nat.max_eq_left hle).symm⟩

/-- The largest count of pending tasks at any check of a traversal, up to its result or its
fault. -/
structure IsPeak (setup : Setup) (document : Fragment) (n : Nat) : Prop where
  attained : ∃ s task rest, Reachable setup document s ∧ s.work = task :: rest ∧ s.work.length = n
  bound : ∀ s, Reachable setup document s → s.work.length ≤ n

theorem IsPeak.unique {m n : Nat} (hm : IsPeak setup document m) (hn : IsPeak setup document n) :
    m = n := by
  obtain ⟨s, _, _, hs, _, rfl⟩ := hm.attained
  obtain ⟨t, _, _, ht, _, rfl⟩ := hn.attained
  exact Nat.le_antisymm (hn.bound s hs) (hm.bound t ht)

theorem isPeak_peak (setup : Setup) (document : Fragment) :
    IsPeak setup document (peak setup document) where
  attained := by
    obtain ⟨fuel, hfuel⟩ := Nat.exists_eq_add_one.mpr document.totalLoad_pos
    rw [peak, hfuel]
    exact exists_length_eq_peakFrom fuel .start rfl
  bound := by
    intro s hs
    obtain ⟨fuel, hfuel, hpeak⟩ := hs.exists_peakFrom_le
    exact Nat.le_trans (length_le_peakFrom hfuel) hpeak

/-! ## Traversals under a limit -/

theorem step_of_length_le (hlimit : setup.policies.limit = some limit)
    (hle : s.work.length ≤ limit) (task : Task) (rest : List Task) :
    step setup s task rest = step setup.unlimited s task rest := by
  have hwithin : withinLimit setup s = withinLimit setup.unlimited s := by
    simp [withinLimit, hlimit, Setup.unlimited, Nat.not_lt.mpr hle]
  rw [step, step, hwithin, perform_unlimited]

theorem step_of_lt_length (hlimit : setup.policies.limit = some limit)
    (hlt : limit < s.work.length) (task : Task) (rest : List Task) :
    step setup s task rest = fail (.tooComplex limit) := by
  have hwithin : withinLimit setup s = .error (.tooComplex limit) := by
    simp [withinLimit, hlimit, hlt]
  rw [step, hwithin]
  rfl

/-- A limit that the work never exceeds is never noticed. -/
theorem run_of_peak_le (hlimit : setup.policies.limit = some limit)
    (hle : peak setup.unlimited document ≤ limit) :
    run setup document = run setup.unlimited document := by
  refine (run_congr_of_step fun s task rest hs _ => ?_).symm
  have hlength : s.work.length ≤ limit :=
    Nat.le_trans ((isPeak_peak setup.unlimited document).bound s hs) hle
  exact (step_of_length_le hlimit hlength task rest).symm

/-- A traversal under a limit comes as far as it comes without, if the limit does not end it. -/
theorem Reachable.limited_or (hlimit : setup.policies.limit = some limit)
    (h : Reachable setup.unlimited document s) :
    Reachable setup document s ∨ (run setup document).result = .error (.tooComplex limit) := by
  induction h with
  | start => exact .inl .start
  | @step s t task rest _ hwork hstep ih =>
    obtain hs | hended := ih
    · obtain hlt | hle := Nat.lt_or_ge limit s.work.length
      · refine .inr (hs.run_of_error hwork ?_)
        rw [step_of_lt_length hlimit hlt]
        rfl
      · rw [← step_of_length_le hlimit hle] at hstep
        exact .inl (hs.step hwork hstep)
    · exact .inr hended

/-- A limit that the work exceeds at some check ends the traversal there, or at a check before
it. Nothing else can, since the traversal without a limit comes so far. -/
theorem run_of_lt_peak (hlimit : setup.policies.limit = some limit)
    (hlt : limit < peak setup.unlimited document) :
    (run setup document).result = .error (.tooComplex limit) := by
  obtain ⟨s, task, rest, hs, hwork, hlength⟩ := (isPeak_peak setup.unlimited document).attained
  obtain hs | hended := hs.limited_or hlimit
  · refine hs.run_of_error hwork ?_
    rw [step_of_lt_length hlimit (hlength ▸ hlt)]
    rfl
  · exact hended

end Traversal

/-! ## Compiling under a limit -/

namespace Setup

variable {setup : Setup} {document : Value} {limit : Nat}

/-- The peak of a document. What is no mapping is not traversed and has no pending work. -/
def peak (setup : Setup) (document : Value) : Nat :=
  match document.mapping? with
  | some f => Traversal.peak setup f
  | none => 0

theorem peak_of_mapping? {f : Fragment} (hf : document.mapping? = some f) :
    setup.peak document = Traversal.peak setup f := by
  rw [peak, hf]

theorem compile_of_peak_le (hlimit : setup.policies.limit = some limit)
    (hle : setup.unlimited.peak document ≤ limit) :
    setup.compile document = setup.unlimited.compile document := by
  have hmapping : setup.compileMapping document = setup.unlimited.compileMapping document := by
    unfold compileMapping
    cases hf : document.mapping? with
    | none => rfl
    | some f =>
      rw [peak_of_mapping? hf] at hle
      dsimp only
      rw [Traversal.run_of_peak_le hlimit hle]
      rfl
  unfold compile
  rw [hmapping]
  rfl

theorem compile_of_lt_peak (hlimit : setup.policies.limit = some limit)
    (hlt : limit < setup.unlimited.peak document) :
    (setup.compile document).result = .error (.tooComplex limit) := by
  cases hf : document.mapping? with
  | none =>
    rw [peak, hf] at hlt
    exact absurd hlt (Nat.not_lt_zero _)
  | some f =>
    rw [peak_of_mapping? hf] at hlt
    exact compile_of_run_error hf (Traversal.run_of_lt_peak hlimit hlt)

end Setup

section Compiled
variable {schema : Schema} {root : String} {document : Value} {o : Options}
  {options : OptionsArgument}

/-- Without its limit, a setup that had none before is the same again. -/
theorem Setup.unlimited_limited {policies : Policies} (h : policies.limit = none) (limit : Nat) :
    Setup.unlimited ⟨schema, root, policies.limited limit⟩ = ⟨schema, root, policies⟩ := by
  show Setup.unlimited ⟨schema, root, policies⟩ = _
  exact Setup.unlimited_of_limit h

theorem compile_limitedTo_of_peak_le (hoptions : options.check = .ok o)
    (hunlimited : (Policies.ofOptions o).limit = none) {n : Number} {limit : Nat}
    (hn : n.toInt? = some (limit : Int)) (hpos : 1 ≤ limit)
    (hle : Setup.peak ⟨schema, root, .ofOptions o⟩ document ≤ limit) :
    compile schema root document (.settings (o.limitedTo n)) =
      compile schema root document options := by
  let limited : Setup := ⟨schema, root, (Policies.ofOptions o).limited limit⟩
  have hsetup : limited.unlimited = ⟨schema, root, .ofOptions o⟩ :=
    Setup.unlimited_limited hunlimited limit
  have hlimited : limited.compile document = limited.unlimited.compile document :=
    Setup.compile_of_peak_le rfl (hsetup ▸ hle)
  rw [compile_of_resolve (Policies.resolve_limitedTo hoptions hn hpos),
    compile_of_resolve (resolve_of_check hoptions), hlimited, hsetup]
  rfl

theorem compile_limitedTo_of_lt_peak (hoptions : options.check = .ok o)
    (hunlimited : (Policies.ofOptions o).limit = none) {n : Number} {limit : Nat}
    (hn : n.toInt? = some (limit : Int)) (hpos : 1 ≤ limit)
    (hlt : limit < Setup.peak ⟨schema, root, .ofOptions o⟩ document) :
    (compile schema root document (.settings (o.limitedTo n))).result =
      .error (.of (Policies.ofOptions o).formatter (.tooComplex limit)) := by
  let limited : Setup := ⟨schema, root, (Policies.ofOptions o).limited limit⟩
  have hsetup : limited.unlimited = ⟨schema, root, .ofOptions o⟩ :=
    Setup.unlimited_limited hunlimited limit
  have hfault : (limited.compile document).result = .error (.tooComplex limit) :=
    Setup.compile_of_lt_peak rfl (hsetup ▸ hlt)
  rw [compile_of_resolve (Policies.resolve_limitedTo hoptions hn hpos)]
  show (limited.compile document).result.mapError _ = _
  rw [hfault]
  rfl

/-- A limit below the peak of a document refuses it, and any other limit changes nothing of what
the document comes to without one. In particular a document that is accepted under a limit is
accepted with the same predicate under every larger limit and under none. -/
theorem compile_limited_iff_peak (hoptions : options.check = .ok o)
    (hunlimited : (Policies.ofOptions o).limit = none) (schema : Schema) (root : String)
    (document : Value) :
    ∃ peak, (∀ f, document.mapping? = some f →
        Traversal.IsPeak ⟨schema, root, .ofOptions o⟩ f peak) ∧
      (document.mapping? = none → peak = 0) ∧
      ∀ (n : Number) (limit : Nat), n.toInt? = some (limit : Int) → 1 ≤ limit →
        (peak ≤ limit → compile schema root document (.settings (o.limitedTo n)) =
          compile schema root document options) ∧
        (limit < peak → (compile schema root document (.settings (o.limitedTo n))).result =
          .error (.of (Policies.ofOptions o).formatter (.tooComplex limit))) ∧
        ∀ p, (compile schema root document (.settings (o.limitedTo n))).result = .ok p →
          (compile schema root document options).result = .ok p ∧
          ∀ (m : Number) (larger : Nat), m.toInt? = some (larger : Int) → limit ≤ larger →
            (compile schema root document (.settings (o.limitedTo m))).result = .ok p := by
  refine ⟨Setup.peak ⟨schema, root, .ofOptions o⟩ document, ?_, ?_, ?_⟩
  · intro f hf
    rw [Setup.peak_of_mapping? hf]
    exact Traversal.isPeak_peak _ _
  · intro hnone
    rw [Setup.peak, hnone]
  · intro n limit hn hpos
    refine ⟨compile_limitedTo_of_peak_le hoptions hunlimited hn hpos,
      compile_limitedTo_of_lt_peak hoptions hunlimited hn hpos, fun p hp => ?_⟩
    have hle : Setup.peak ⟨schema, root, .ofOptions o⟩ document ≤ limit := by
      refine Nat.not_lt.mp fun hlt => ?_
      rw [compile_limitedTo_of_lt_peak hoptions hunlimited hn hpos hlt] at hp
      cases hp
    rw [compile_limitedTo_of_peak_le hoptions hunlimited hn hpos hle] at hp
    refine ⟨hp, fun m larger hm hlarger => ?_⟩
    rw [compile_limitedTo_of_peak_le hoptions hunlimited hm (Nat.le_trans hpos hlarger)
      (Nat.le_trans hle hlarger)]
    exact hp

end Compiled

namespace Sample

/-- At most six tasks are pending, when the name in the scope of the second document comes up. -/
def busyFragment : Fragment :=
  [("$or", .list [.ofEntries [("title", .text "x")], .ofEntries [("tracks.name", .text "y")]])]

def busySetup : Setup := ⟨catalog.schema, "Album", .ofOptions .empty⟩

theorem isPeak_busyFragment : Traversal.IsPeak busySetup busyFragment 6 := by
  have hpeak : Traversal.peak busySetup busyFragment = 6 := by decide +kernel
  exact hpeak ▸ Traversal.isPeak_peak busySetup busyFragment

theorem compile_limited_iff_peak_busy :
    (OptionsArgument.settings .empty).check = .ok .empty ∧
      (Policies.ofOptions .empty).limit = none ∧
      compile catalog.schema "Album" (.ofEntries busyFragment)
          (.settings (Options.empty.limitedTo (.ofNat 6))) =
        compile catalog.schema "Album" (.ofEntries busyFragment) (.settings .empty) ∧
      (compile catalog.schema "Album" (.ofEntries busyFragment)
          (.settings (Options.empty.limitedTo (.ofNat 5)))).result =
        .error (.of .plain (.tooComplex 5)) := by
  have hfive : (Number.ofNat 5).toInt? = some ((5 : Nat) : Int) := by decide +kernel
  have hsix : (Number.ofNat 6).toInt? = some ((6 : Nat) : Int) := by decide +kernel
  have hoptions : (OptionsArgument.settings .empty).check = .ok .empty := rfl
  obtain ⟨peak, hpeak, _, hlimits⟩ := compile_limited_iff_peak hoptions rfl catalog.schema "Album"
    (.ofEntries busyFragment)
  obtain rfl : peak = 6 := (hpeak busyFragment rfl).unique isPeak_busyFragment
  exact ⟨hoptions, rfl, (hlimits _ 6 hsix (by decide)).1 (Nat.le_refl 6),
    (hlimits _ 5 hfive (by decide)).2.1 (by decide)⟩

end Sample
end RowFilter
