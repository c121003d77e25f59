import RowFilter.Schema

/-!
# Resolving paths

A path resolves segment by segment: every segment is looked up on the model reached so far,
and a relation leads to the next model. A list index may stand behind a relation, any number of
times, and keeps the place. Nothing stands behind a scalar field, and a path stops at a field.
-/

namespace RowFilter

/-- A resolved segment (`ResolvedSegment`). -/
structure Step where
  name : String
  /-- No field stands behind a list index. -/
  field : Option Field
  /-- The model on which the segment was looked up. -/
  model : String
deriving DecidableEq

namespace Step

/-- Does the path lead into a related model here? -/
def crosses (step : Step) : Bool :=
  match step.field with
  | some field => field.isRelation
  | none => false

end Step

/-- Why a path does not resolve: the results of `walkPath` that are not ok. -/
inductive Unresolved where
  | malformed (problem : Path.Problem)
  | unknown (segment model : String)
deriving DecidableEq

namespace Schema

/-- Looks one segment up on a model and goes on with the field found. -/
def stepAt (s : Schema) (model name : String) : Except Unresolved Step :=
  match s.field? model name with
  | some field => .ok ⟨name, some field, model⟩
  | none => .error (.unknown name model)

/-- The loop of `walkPath`: walks on from a model, behind the field `current` if there is one. -/
def walk (s : Schema) (model : String) (current : Option Field) :
    Path → Except Unresolved (List Step)
  | [] => .ok []
  | name :: rest =>
    match current with
    | some (.scalar _) => .error (.unknown name model)
    | some (.relation r) =>
      if Path.isIndex name then do
        return ⟨name, none, r.target⟩ :: (← walk s r.target current rest)
      else do
        let step ← s.stepAt r.target name
        return step :: (← walk s r.target step.field rest)
    | none => do
      let step ← s.stepAt model name
      return step :: (← walk s model step.field rest)

/-- Resolves a path from a root model (`walkPath`). The path of the root itself has no steps. -/
def resolve (s : Schema) (root : String) (p : Path) : Except Unresolved (List Step) :=
  if p.isRoot then .ok []
  else match p.problem? with
    | some problem => .error (.malformed problem)
    | none => do
      let steps ← s.walk root none p
      match steps.getLast? with
      | some ⟨_, none, _⟩ => throw (.malformed .atIndex)
      | _ => return steps

/-- Does a path resolve (`tryResolvePath`)? -/
def resolves (s : Schema) (root : String) (p : Path) : Bool :=
  match s.resolve root p with
  | .ok _ => true
  | .error _ => false

end Schema

/-- The places at which a path crosses into a related model (`relationCrossings`). -/
def crossings (steps : List Step) : List Nat :=
  (steps.zipIdx.filter (·.1.crosses)).map (·.2)

/-- The field a path stops at (`leafField`). -/
def leaf? (steps : List Step) : Option Field := steps.getLast?.bind (·.field)

end RowFilter
