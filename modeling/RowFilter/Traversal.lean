import RowFilter.Policies
import RowFilter.Schema.Locate
import RowFilter.Traversal.State

/-!
# Traversing a document

A document is traversed in document order by a work list, one task at a time, so that neither
its depth nor its width can exhaust anything but the limit on pending work. The limit is checked
before every task.

A key that crosses relations is opened up to the next of them, and what is left of it becomes a
document of its own in a scope on that relation. Two keys of one document never share a scope
that one of them opens. The entries of a mapping under a key that stops at a relation have a scope
on that relation each, all of them in one scope on every relation before it.

The first fault ends the traversal.

The functions named beside definitions, here and elsewhere, are those of the compiler that they
model.
-/

namespace RowFilter

/-- What a traversal is about: the schema, the name of the root model, and the policies. -/
structure Setup where
  schema : Schema
  root : String
  policies : Policies

namespace Traversal
open TraversalState

variable (setup : Setup) (s : TraversalState)

/-- Resolves an inner path (`resolvePath`). -/
def resolve (path dataKey : Path) : Traced (List Step) :=
  Traced.ofExcept (setup.schema.locate setup.root path dataKey)

/-- The field that the open keys lead to (`leafField` of what they resolve to). -/
def openField? : Traced (Option Field) := do
  let steps ← resolve setup s.openKey.internal s.openKey.external
  return leaf? steps

/-! ## Logic and scopes -/

/-- A frame around the documents of a list (`processLogicalList`). -/
def combine (combinator : Combinator) (op : String) (value : Value) : Traced TraversalState :=
  match value.fragments? with
  | some fragments => return s.openFrame ⟨combinator, []⟩ (fragments.map .fragment)
  | none => Traced.refuse .logicalList s.openKey.external value (some op)

/-- None of the documents of a list (`processNor`): the denial of their disjunction. -/
def combineNone (value : Value) : Traced TraversalState :=
  match value.fragments? with
  | some _ => return s.openFrame ⟨.not, []⟩ [.fragment (.anyOf value)]
  | none => Traced.refuse .logicalList s.openKey.external value (some "$nor")

/-- The denial of a document (`processNot`). -/
def negate (value : Value) : Traced TraversalState :=
  match value.mapping? with
  | some fragment => return s.openFrame ⟨.not, []⟩ [.fragment fragment]
  | none => Traced.refuse .logicalObject s.openKey.external value (some "$not")

/-- Opens a scope on the relation that the open keys lead to (`processElemMatch`). The conditions of
its rows come before whatever the document asks of them. -/
def matchElement (value : Value) : Traced TraversalState :=
  let misplaced := Traced.refuse .misplacedMatch s.openKey.external value (some "$elemMatch")
  match s.hasOpenField, value.mapping? with
  | true, some fragment => do
    match ← openField? setup s with
    | some (.relation relation) => do
      let path := s.openKey.internal.strip
      let conditions ← setup.policies.conditionsFor path
      Traced.log "Opened relation scope"
        [("path", .text path.text), ("cardinality", .text relation.cardinality.label),
          ("nestedConditions", .number (.ofNat conditions.length))]
      return s.openScope.openFrame ⟨.related relation path, conditions.reverse⟩
        [.fragment fragment]
    | _ => misplaced
  | _, _ => misplaced

/-! ## Operators -/

/-- Applies an operator to the field that the open keys lead to (`processOperator`). -/
def operate (token : String) (value : Value) : Traced TraversalState :=
  let dataKey := s.openKey.external
  match FieldOperator.ofToken? token with
  | none => Traced.refuse .invalidOperator dataKey value (some token)
  | some _ => do
    match ← openField? setup s with
    | some field => do
      let p ← Traced.ofExcept
        (field.evaluate token value dataKey s.openKey.internal.strip)
      Traced.ofExcept (s.gather p)
    | none => Traced.refuse .relationComparison dataKey value (some token)

/-! ## Field keys

What `processField` does with a key, in three parts: its name inside, its checks, and the way into
its value.
-/

/-- The last `n` segments of an answer, if it is a text and has as many. -/
def lastSegments (n : Nat) : Option String → Path
  | some text => (Path.ofText text).drop ((Path.ofText text).length - n)
  | none => []

/-- The inner name of a key: as many segments as the key has, from the end of what the whole
path is called inside. -/
def innerKey (key dataKey : Path) (value : Value) : Traced Path := do
  let answer ← setup.policies.translate dataKey
  let segments := lastSegments key.length answer
  if segments.length = key.length then return segments
  else Traced.refuse (.untranslated answer) dataKey value none

/-- Goes into the value of a key, the last part of `processField`. `crossed` holds the places at
which the whole inner path crosses a relation. A rest without text means that the last of them is
reached. -/
def enter (key : OpenKey) (value : Value) (crossed : List Nat) : Traced TraversalState :=
  let dataKey := s.openKey.external ++ key.external
  let depth := s.openKey.internal.length
  match crossed.find? (depth ≤ ·) with
  | none => return s.openPath key [.fragment (.ofValue value)]
  | some next =>
    let width := next - depth + 1
    let upToNext : OpenKey := ⟨key.external.take width, key.internal.take width⟩
    let rest := Path.text (key.external.drop width)
    if rest = "" then
      match value.mapping? with
      | none => Traced.refuse .relationPrimitive dataKey value none
      | some [] => Traced.refuse .emptyObject dataKey value none
      | some entries =>
        let inside := entries.map fun e => .fragment (.onRelation e)
        return (s.openPath upToNext []).openFrame ⟨.all, []⟩ inside
    else return s.openPath upToNext [.fragment (.scope rest value)]

/-- Opens a field key (`processField`): checks it, translates it, asks whether it may be used, and
resolves it. -/
def descend (text : String) (value : Value) : Traced TraversalState := do
  let key := Path.ofText text
  let dataKey := s.openKey.external ++ key
  Traced.ofExcept (key.check dataKey)
  let inner ← innerKey setup key dataKey value
  let path := s.openKey.internal ++ inner
  let allowed ← setup.policies.isWhitelisted setup.schema setup.root path.strip
  if !allowed then Traced.refuse .forbidden dataKey value none
  else if s.hasOpenField then
    Traced.refuse .attributeObject s.openKey.external (.ofEntries [(text, value)]) (some "$eq")
  else do
    let steps ← resolve setup path dataKey
    enter s ⟨key, inner⟩ value (crossings steps)

/-! ## Steps -/

/-- Reads a document of one entry, by its key (`processFragment`). -/
def readEntry (key : String) (value : Value) : Traced TraversalState :=
  match DocumentKey.ofText key with
  | .all => combine s .all key value
  | .any => combine s .any key value
  | .none => combineNone s value
  | .not => negate s value
  | .elemMatch => matchElement setup s value
  | .operator token => operate setup s token value
  | .field text => descend setup s text value

/-- Reads a document (`processFragment`). Several entries stand for their conjunction, and none at
all for nothing. -/
def read (f : Fragment) : Traced TraversalState :=
  match f with
  | [] => return s
  | [(key, value)] => readEntry setup s key value
  | entries => return s.openFrame ⟨.all, []⟩ (entries.map fun e => .fragment [e])

/-- Carries a task out that is no longer pending. -/
def perform (task : Task) : Traced TraversalState :=
  match task with
  | .fragment f => read setup s f
  | .closePath => return { s with paths := s.paths.tail }
  | .closeScope => return { s with scopes := s.scopes.tail }
  | .closeFrame => Traced.ofExcept s.closeFrame

/-- Does the pending work fit the limit (`checkComplexity`)? -/
def withinLimit : Except Fault Unit :=
  match setup.policies.limit with
  | some limit => if limit < s.work.length then .error (.tooComplex limit) else .ok ()
  | none => .ok ()

/-- One turn of `run`: checks the limit and carries out the next task. -/
def step (task : Task) (rest : List Task) : Traced TraversalState := do
  Traced.ofExcept (withinLimit setup s)
  perform setup { s with work := rest } task

/-- The turns of `run`, until no task is pending. The events so far come last first. -/
def loop (setup : Setup) : (fuel : Nat) → (past : List Event) → TraversalState → Traced Predicate
  | 0, past, s => ⟨past.reverse, s.result⟩
  | fuel + 1, past, s =>
    match s.work with
    | [] => ⟨past.reverse, s.result⟩
    | task :: rest =>
      match step setup s task rest with
      | ⟨events, .ok s'⟩ => loop setup fuel (events.reverse ++ past) s'
      | ⟨events, .error fault⟩ => ⟨past.reverse ++ events, .error fault⟩

/-- Traverses a document (`run`). Its load bounds the number of steps. -/
def run (document : Fragment) : Traced Predicate :=
  loop setup document.totalLoad [] (.start document)

end Traversal
end RowFilter
