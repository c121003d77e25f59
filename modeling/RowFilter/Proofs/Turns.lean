import RowFilter.Proofs.Simulation

/-!
# Turns of a traversal

How often the traversal turns to a pending task before it ends. A traversal rewrites documents,
sometimes into larger ones, but what it makes of a document is never more than some multiple of
what was written: of the mappings, the segments of their keys, and the items of the lists. So
the weight of a document bounds the number of turns. Neither the schema, nor a policy, nor what
the translator makes of a key comes into it.
-/

namespace RowFilter

/-! ## The weight of a document -/

namespace Value

mutual

/-- The mappings in a value, the segments of their keys, and the items of the lists in it. What a
record of a class holds is out of reach. -/
def weight : Value → Nat
  | .record .ofClass _ => 0
  | .record _ entries => 1 + entriesWeight entries
  | .list items => itemsWeight items
  | _ => 0

def entriesWeight : List (String × Value) → Nat
  | [] => 0
  | (key, v) :: rest => (Path.ofText key).length + weight v + entriesWeight rest

def itemsWeight : List Value → Nat
  | [] => 0
  | v :: rest => 1 + weight v + itemsWeight rest

end

end Value

namespace Fragment

/-- The weight of a document as a whole. -/
def weight (f : Fragment) : Nat := (Value.ofEntries f).weight

/-! ## Load and weight -/

/-- A value loads no more in either way than so many times its weight. -/
def Bounded (v : Value) : Prop := load v ≤ 12 * v.weight ∧ spread v ≤ 12 * v.weight

theorem keyLoad_le (key : String) {whole spread bound : Nat} (hwhole : whole ≤ bound)
    (hspread : spread ≤ bound) :
    keyLoad key whole spread + 3 ≤ 12 * (Path.ofText key).length + bound := by
  have hpos : 0 < (Path.ofText key).length := List.length_pos_iff.mpr (Path.ofText_ne_nil key)
  unfold keyLoad
  cases hkey : DocumentKey.ofText key with
  | field text =>
    cases DocumentKey.eq_of_ofText_field hkey
    dsimp only
    omega
  | _ =>
    dsimp only
    omega

theorem joined_le (loads : List Nat) : joined loads ≤ 2 + sum loads := by
  rcases loads with _ | ⟨n, _ | ⟨m, rest⟩⟩
  · exact Nat.le_refl 2
  · show n ≤ 2 + (n + 0)
    omega
  · exact Nat.le_refl _

theorem bounded_of_entries {entries : List (String × Value)}
    (h : sum (entryLoads entries) + 3 * entries.length ≤ 12 * Value.entriesWeight entries) :
    Bounded (.ofEntries entries) := by
  have hload : load (.ofEntries entries) = joined (entryLoads entries) := rfl
  have hspread : spread (.ofEntries entries) =
      3 * (entryLoads entries).length + sum (entryLoads entries) := rfl
  have hweight : (Value.ofEntries entries).weight = 1 + Value.entriesWeight entries := rfl
  have hjoined := joined_le (entryLoads entries)
  rw [entryLoads_eq, List.length_map, ← entryLoads_eq] at hspread
  unfold Bounded
  omega

mutual

theorem bounded : (v : Value) → Bounded v
  | .record .ofClass _ => ⟨Nat.le_refl 0, Nat.le_refl 0⟩
  | .record .plain entries | .record .bare entries => bounded_of_entries (entryLoads_le entries)
  | .list items => ⟨weighAll_le items, Nat.zero_le _⟩
  | .null | .absent | .bool _ | .number _ | .integer _ | .text _ | .date _ | .table | .function =>
    ⟨Nat.le_refl 0, Nat.le_refl 0⟩

theorem entryLoads_le : (entries : List (String × Value)) →
    sum (entryLoads entries) + 3 * entries.length ≤ 12 * Value.entriesWeight entries
  | [] => Nat.le_refl 0
  | (key, v) :: rest => by
    have hkey := keyLoad_le key (bounded v).1 (bounded v).2
    have hrest := entryLoads_le rest
    have hload : entryLoad (key, v) = keyLoad key (load v) (spread v) := entryLoad_eq key v
    simp only [entryLoads, sum_cons, List.length_cons, Value.entriesWeight, hload]
    omega

theorem weighAll_le : (items : List Value) → sum (weighAll items) ≤ 12 * Value.itemsWeight items
  | [] => Nat.le_refl 0
  | v :: rest => by
    have hitem : (weigh v).1 ≤ 12 * v.weight := (bounded v).1
    have hrest := weighAll_le rest
    simp only [weighAll, sum_cons, Value.itemsWeight]
    omega

end

theorem totalLoad_le_weight (f : Fragment) : f.totalLoad ≤ 12 * f.weight :=
  (bounded (.ofEntries f)).1

end Fragment

/-! ## Turns -/

namespace Traversal
open TraversalState Traced

/-- A traversal goes on from a state for so many turns until it ends, and then comes to this. Every
turn takes the next task up, and a turn that fails is the last one. -/
inductive Turns (setup : Setup) : TraversalState → Nat → Traced Predicate → Prop
  | done {s : TraversalState} : s.work = [] → Turns setup s 0 (Traced.ofExcept s.result)
  | fault {s : TraversalState} {task : Task} {rest : List Task} {events : List Event}
      {fault : Fault} : s.work = task :: rest →
      step setup s task rest = ⟨events, .error fault⟩ → Turns setup s 1 ⟨events, .error fault⟩
  | turn {s t : TraversalState} {task : Task} {rest : List Task} {events : List Event} {n : Nat}
      {outcome : Traced Predicate} : s.work = task :: rest →
      step setup s task rest = ⟨events, .ok t⟩ → Turns setup t n outcome →
      Turns setup s (n + 1) ⟨events ++ outcome.events, outcome.result⟩

variable {setup : Setup} {s : TraversalState} {n m : Nat} {outcome outcome' : Traced Predicate}

/-- What a traversal comes to does not depend on a bound, and neither does the number of turns. -/
theorem Turns.unique (h : Turns setup s n outcome) (h' : Turns setup s m outcome') :
    n = m ∧ outcome = outcome' := by
  induction h generalizing m outcome' with
  | done hwork =>
    cases h' with
    | done => exact ⟨rfl, rfl⟩
    | fault hwork' => simp [hwork] at hwork'
    | turn hwork' => simp [hwork] at hwork'
  | fault hwork hstep =>
    cases h' with
    | done hwork' => simp [hwork] at hwork'
    | fault hwork' hstep' =>
      cases hwork.symm.trans hwork'
      cases hstep.symm.trans hstep'
      exact ⟨rfl, rfl⟩
    | turn hwork' hstep' =>
      cases hwork.symm.trans hwork'
      cases hstep.symm.trans hstep'
  | turn hwork hstep _ ih =>
    cases h' with
    | done hwork' => simp [hwork] at hwork'
    | fault hwork' hstep' =>
      cases hwork.symm.trans hwork'
      cases hstep.symm.trans hstep'
    | turn hwork' hstep' hrest =>
      cases hwork.symm.trans hwork'
      cases hstep.symm.trans hstep'
      obtain ⟨rfl, rfl⟩ := ih hrest
      exact ⟨rfl, rfl⟩

/-- From every state a traversal ends, after at most as many turns as its work loads. -/
theorem exists_turns (setup : Setup) (s : TraversalState) :
    ∃ n ≤ s.load, Turns setup s n (runFrom setup s) := by
  induction hload : s.load using Nat.strongRecOn generalizing s with
  | ind load ih =>
    subst hload
    cases hwork : s.work with
    | nil =>
      rw [runFrom_of_done hwork]
      exact ⟨0, Nat.zero_le _, .done hwork⟩
    | cons task rest =>
      have hpos : 0 < s.load := by
        rw [Nat.pos_iff_ne_zero, Ne, load_eq_zero_iff, hwork]
        exact List.cons_ne_nil task rest
      rw [runFrom_of_work hwork]
      cases hstep : step setup s task rest with
      | mk events result =>
        cases result with
        | error fault => exact ⟨1, hpos, .fault hwork hstep⟩
        | ok t =>
          have hlt : t.load < s.load := load_step hwork (by rw [hstep])
          obtain ⟨n, hn, hturns⟩ := ih t.load hlt t rfl
          exact ⟨n + 1, Nat.succ_le_of_lt (Nat.lt_of_le_of_lt hn hlt), .turn hwork hstep hturns⟩

/-- Every traversal ends, whatever the schema and the policies: with a predicate or a fault, and
after a number of turns that is at most linear in the weight of the document alone. -/
theorem run_ends_within_weight (setup : Setup) (document : Fragment) :
    ∃ n ≤ 12 * document.weight, Turns setup (.start document) n (run setup document) ∧
      ∀ m outcome, Turns setup (.start document) m outcome →
        m = n ∧ outcome = run setup document := by
  obtain ⟨n, hn, hturns⟩ := exists_turns setup (.start document)
  rw [← run_eq_runFrom] at hturns
  refine ⟨n, ?_, hturns, fun m outcome h => h.unique hturns⟩
  calc n ≤ (TraversalState.start document).load := hn
    _ = document.totalLoad := rfl
    _ ≤ 12 * document.weight := Fragment.totalLoad_le_weight document

end Traversal
end RowFilter
