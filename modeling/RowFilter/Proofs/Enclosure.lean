import Mathlib.Data.List.Infix
import RowFilter.Proofs.Operators
import RowFilter.Proofs.Rows

/-!
# Enclosure

Where the comparisons of a predicate stand. A comparison asks about a field of the row at hand,
and which row that is depends on the related nodes around it. In a compiled predicate the path of
every comparison leads to its field, and the related nodes around it open that path relation by
relation: their paths are the beginnings of the path of the comparison, shortest first. Only the
comparisons of conditions are the host's own affair, and those stand where the condition does.
-/

namespace RowFilter

namespace Path

/-- The beginnings of a path, itself included, shortest first. The root is not one of them. -/
def beginnings (p : Path) : List Path := p.inits.tail

theorem beginnings_concat (p : Path) (name : String) :
    beginnings (p ++ [name]) = beginnings p ++ [p ++ [name]] := by
  have hne : p.inits ≠ [] := by cases p <;> exact List.cons_ne_nil _ _
  unfold beginnings
  rw [List.inits_append]
  exact List.tail_append_of_ne_nil hne

/-- The beginnings that lead to the last segment of a path. -/
def enclosing (p : Path) : List Path := p.beginnings.dropLast

theorem enclosing_concat (p : Path) (name : String) : enclosing (p ++ [name]) = beginnings p := by
  rw [enclosing, beginnings_concat, List.dropLast_concat]

example : enclosing ["tracks", "playlists", "name"] = [["tracks"], ["tracks", "playlists"]] := rfl

end Path

/-- A comparison, and the paths of the related nodes around it, outermost first. -/
structure Occurrence where
  around : List Path
  field : ScalarField
  path : Path
  comparison : Comparison

namespace Predicate

mutual

/-- The comparisons of a predicate from left to right, under some related nodes. -/
def occurrences (around : List Path) : Predicate → List Occurrence
  | .all children => occurrencesOfAll around children
  | .any children => occurrencesOfAll around children
  | .not child => occurrences around child
  | .related _ path inner => occurrences (around ++ [path]) inner
  | .test field path comparison => [⟨around, field, path, comparison⟩]

def occurrencesOfAll (around : List Path) : List Predicate → List Occurrence
  | [] => []
  | p :: rest => occurrences around p ++ occurrencesOfAll around rest

end

variable {around : List Path}

theorem occurrencesOfAll_eq (ps : List Predicate) :
    occurrencesOfAll around ps = ps.flatMap (occurrences around) := by
  induction ps with
  | nil => rfl
  | cons p ps ih => rw [occurrencesOfAll, ih, List.flatMap_cons]

theorem occurrences_conjunction (ps : List Predicate) :
    (conjunction ps).occurrences around = ps.flatMap (occurrences around) := by
  unfold conjunction
  split
  · simp
  · rw [occurrences, occurrencesOfAll_eq]

theorem occurrences_disjunction (ps : List Predicate) :
    (disjunction ps).occurrences around = ps.flatMap (occurrences around) := by
  unfold disjunction
  split
  · rfl
  · simp
  · rw [occurrences, occurrencesOfAll_eq]

end Predicate

/-- Who asks for a comparison. -/
inductive Contributor where
  | document
  | host
deriving DecidableEq

namespace Outline

mutual

/-- The comparisons of an outline with their contributors, from left to right. Conditions are the
host's. -/
def occurrences (around : List Path) : Outline → List (Contributor × Occurrence)
  | .nothing => []
  | .all children => occurrencesOfAll around children
  | .any children => occurrencesOfAll around children
  | .not child => occurrences around child
  | .scope _ path conditions body =>
    (conditions.flatMap (·.occurrences (around ++ [path]))).map (.host, ·) ++
      occurrences (around ++ [path]) body
  | .operator _ p => (p.occurrences around).map (.document, ·)
  | .field _ inside => occurrences around inside

def occurrencesOfAll (around : List Path) : List Outline → List (Contributor × Occurrence)
  | [] => []
  | o :: rest => occurrences around o ++ occurrencesOfAll around rest

end

variable {around : List Path}

theorem occurrencesOfAll_eq (os : List Outline) :
    occurrencesOfAll around os = os.flatMap (occurrences around) := by
  induction os with
  | nil => rfl
  | cons o os ih => rw [occurrencesOfAll, ih, List.flatMap_cons]

/-- The node of an outline has its comparisons. -/
theorem occurrences_node? (o : Outline) : ∀ around,
    o.node?.toList.flatMap (·.occurrences around) = (o.occurrences around).map (·.2) := by
  have hnodes {os : List Outline} {around : List Path}
      (ih : ∀ o ∈ os, o.node?.toList.flatMap (·.occurrences around) =
        (o.occurrences around).map (·.2)) :
      (nodes os).flatMap (·.occurrences around) =
        (os.flatMap (occurrences around)).map (·.2) := by
    rw [nodes_eq_flatMap, List.flatMap_assoc, List.map_flatMap]
    exact List.flatMap_congr ih
  induction o using induction with
  | nothing => exact fun _ => rfl
  | all os ih =>
    intro around
    simp only [node?, Option.toList_some, List.flatMap_singleton]
    rw [Predicate.occurrences_conjunction, occurrences, occurrencesOfAll_eq]
    exact hnodes fun o ho => ih o ho around
  | any os ih =>
    intro around
    simp only [node?, Option.toList_some, List.flatMap_singleton]
    rw [Predicate.occurrences_disjunction, occurrences, occurrencesOfAll_eq]
    exact hnodes fun o ho => ih o ho around
  | not o ih =>
    intro around
    simp only [node?, Option.toList_some, List.flatMap_singleton]
    rw [occurrences, ← ih around, Predicate.occurrences]
    cases o.node? <;> simp [Predicate.true, Predicate.occurrences, Predicate.occurrencesOfAll]
  | scope relation path conditions body ih =>
    intro around
    simp only [node?, Option.toList_some, List.flatMap_singleton]
    rw [occurrences, Predicate.occurrences, Predicate.occurrences_conjunction, List.flatMap_append,
      ih (around ++ [path])]
    simp [Function.comp_def]
  | operator place p =>
    intro around
    simp [node?, occurrences, Function.comp_def]
  | field path inside ih => exact ih

theorem occurrences_predicate (o : Outline) :
    o.predicate.occurrences around = (o.occurrences around).map (·.2) := by
  rw [← occurrences_node?, predicate]
  cases o.node? with
  | none => rfl
  | some p => simp

/-! ## Comparisons of a document -/

variable {setup : Setup} {o : Outline} {model : String} {path : Path}

/-- The path of a comparison leads to its field, and the related nodes around it open that path
relation by relation. -/
structure Enclosed (setup : Setup) (c : Occurrence) : Prop where
  resolves : ∃ steps, setup.schema.resolve setup.root c.path = .ok steps ∧
    leaf? steps = some (.scalar c.field)
  around : c.around = c.path.enclosing

/-- A comparison of a condition that the host puts on the rows behind a path. -/
structure Hosted (setup : Setup) (c : Occurrence) : Prop where
  exists_condition : ∃ path conditions,
    (setup.policies.conditionsFor path).result = .ok conditions ∧
      ∃ condition ∈ conditions, c ∈ condition.occurrences path.beginnings

/-- What is known of a comparison, by its contributor. -/
def Accounted (setup : Setup) : Contributor × Occurrence → Prop
  | (.document, c) => Enclosed setup c
  | (.host, c) => Hosted setup c

/-- An operator contributes comparisons only with the field that it was applied to, at the path
where it was applied. -/
theorem exists_of_mem_occurrences {target : Field} {token : String} {value : Value}
    {dataKey : Path} {p : Predicate} {c : Occurrence}
    (hp : target.evaluate token value dataKey path = .ok p) (hc : c ∈ p.occurrences around) :
    c.around = around ∧ target = .scalar c.field ∧ c.path = path := by
  rcases Field.evaluate_eq_ok hp with ⟨field, comparison, rfl, _, rfl | rfl⟩ |
    ⟨relation, _, rfl | rfl⟩
  · rw [List.mem_singleton.mp hc]
    exact ⟨rfl, rfl, rfl⟩
  · rw [List.mem_singleton.mp hc]
    exact ⟨rfl, rfl, rfl⟩
  · cases hc
  · cases hc

theorem Names.enclosed {place : Place} {name : String} {target : Field} {c : Occurrence}
    (hnames : setup.schema.NamesNoIndex) (h : Names setup place model path name target)
    (haround : c.around = path.beginnings) (htarget : target = .scalar c.field)
    (hpath : c.path = place.path) : Enclosed setup c := by
  refine ⟨?_, ?_⟩
  · rw [hpath, ← htarget]
    exact h.exists_resolve hnames
  · rw [haround, hpath, h.path, Path.enclosing_concat]

theorem About.accounted (hnames : setup.schema.NamesNoIndex) (h : About setup model path o) :
    ∀ e ∈ o.occurrences path.beginnings, Accounted setup e := by
  induction h with
  | nothing =>
    intro e he
    cases he
  | all _ ih =>
    intro e he
    rw [occurrences, occurrencesOfAll_eq] at he
    obtain ⟨o, ho, he⟩ := List.mem_flatMap.mp he
    exact ih o ho e he
  | any _ ih =>
    intro e he
    rw [occurrences, occurrencesOfAll_eq] at he
    obtain ⟨o, ho, he⟩ := List.mem_flatMap.mp he
    exact ih o ho e he
  | not _ ih => exact ih
  | scope hnamed hread _ ih =>
    intro e he
    rw [occurrences, hnamed.path, ← Path.beginnings_concat, ← hnamed.path] at he
    obtain he | he := List.mem_append.mp he
    · obtain ⟨c, hc, rfl⟩ := List.mem_map.mp he
      obtain ⟨condition, hcondition, hc⟩ := List.mem_flatMap.mp hc
      exact ⟨_, _, hread, condition, hcondition, hc⟩
    · exact ih e he
  | operator hnamed hp =>
    intro e he
    obtain ⟨c, hc, rfl⟩ := List.mem_map.mp he
    obtain ⟨haround, htarget, hpath⟩ := exists_of_mem_occurrences hp hc
    exact hnamed.enclosed hnames haround htarget hpath
  | lone _ _ hp =>
    intro e he
    obtain ⟨c, hc, _⟩ := List.mem_map.mp he
    obtain ⟨_, htarget, _⟩ := exists_of_mem_occurrences hp hc
    cases htarget
  | field _ ih => exact ih

end Outline

section Compiled
variable {definition : Value} {catalog : Catalog} {root : String} {document : Value}
  {options : OptionsArgument} {policies : Policies} {p : Predicate}

/-- Every comparison that the document itself contributes to a compiled predicate has a path that
leads to its field, inside related nodes that open this path one relation after the other. Every
other comparison belongs to a condition on the rows at hand. -/
theorem compiled_comparisons_enclosed (hdefine : Definition.define definition = .ok catalog)
    (hpolicies : Policies.resolve options = .ok policies)
    (h : (compile catalog.schema root document options).result = .ok (some p)) :
    ∃ f o, document.mapping? = some f ∧
      (Outline.ofDocument ⟨catalog.schema, root, policies⟩ f).result = .ok o ∧ o.predicate = p ∧
      p.occurrences [] = (o.occurrences []).map (·.2) ∧
      (∀ c, (.document, c) ∈ o.occurrences [] →
        Outline.Enclosed ⟨catalog.schema, root, policies⟩ c) ∧
      ∀ c, (.host, c) ∈ o.occurrences [] →
        Outline.Hosted ⟨catalog.schema, root, policies⟩ c := by
  obtain ⟨f, o, hf, ho, rfl, habout⟩ := exists_about_of_compile hdefine hpolicies h
  have haccounted := habout.accounted (Definition.namesNoIndex_of_define hdefine)
  refine ⟨f, o, hf, ho, rfl, o.occurrences_predicate, ?_, ?_⟩
  · intro c hc
    exact haccounted (.document, c) hc
  · intro c hc
    exact haccounted (.host, c) hc

end Compiled

namespace Sample

def hiddenDocument : Value := .ofEntries
  [("title", .text "x"), ("tracks.0.playlists.name", .ofEntries [("$ne", .text "y")])]

def hiddenPredicate : Predicate := .all
  [.test ⟨"title", "Album", .scalar .text⟩ ["title"] (.compare .eq (.text "x")),
    .related tracks ["tracks"] (.all [shortTracks, .related playlists ["tracks", "playlists"]
      (.test ⟨"name", "Playlist", .scalar .text⟩ ["tracks", "playlists", "name"]
        (.compare .ne (.text "y")))])]

theorem compile_hiddenDocument :
    (compile catalog.schema "Album" hiddenDocument (.settings hidingOptions)).result =
      .ok (some hiddenPredicate) := by
  rfl

theorem compiled_comparisons_enclosed_hidden :
    Definition.define definition = .ok catalog ∧
      Policies.resolve (.settings hidingOptions) = .ok (.ofOptions hidingOptions) ∧
      (compile catalog.schema "Album" hiddenDocument (.settings hidingOptions)).result =
        .ok (some hiddenPredicate) ∧
      ∃ f o, hiddenDocument.mapping? = some f ∧
        (Outline.ofDocument ⟨catalog.schema, "Album", .ofOptions hidingOptions⟩ f).result =
          .ok o ∧ o.predicate = hiddenPredicate ∧
        hiddenPredicate.occurrences [] = (o.occurrences []).map (·.2) ∧
        (∀ c, (.document, c) ∈ o.occurrences [] →
          Outline.Enclosed ⟨catalog.schema, "Album", .ofOptions hidingOptions⟩ c) ∧
        ∀ c, (.host, c) ∈ o.occurrences [] →
          Outline.Hosted ⟨catalog.schema, "Album", .ofOptions hidingOptions⟩ c :=
  ⟨define_definition, rfl, compile_hiddenDocument,
    compiled_comparisons_enclosed define_definition rfl compile_hiddenDocument⟩

end Sample
end RowFilter
