import RowFilter.Document
import RowFilter.Trace

/-!
# The state of a traversal

Pending tasks, the field keys that are open, the scopes that are open, and the compound
predicates under construction. All four are stacks, innermost first.

Whatever a task opens is closed by a task of its own, so that the stacks and the pending closing
tasks always correspond. Below every frame lies the root frame, which nothing closes.
-/

namespace RowFilter

/-- The segments of an open key, as the document writes them and as they are called inside
(`PathEntry`). -/
structure OpenKey where
  external : Path
  internal : Path
deriving DecidableEq

namespace OpenKey

/-- One key for a chain of keys, outermost first (`mergeEntries`). -/
def join (keys : List OpenKey) : OpenKey :=
  ⟨keys.flatMap (·.external), keys.flatMap (·.internal)⟩

theorem join_singleton (key : OpenKey) : join [key] = key := by
  simp [join]

end OpenKey

/-- How a frame combines what it gathers. -/
inductive Combinator where
  | all
  | any
  | not
  | related (relation : RelationField) (path : Path)
deriving DecidableEq

/-- A compound predicate under construction (`ScopeFrame`). -/
structure Frame where
  combinator : Combinator
  /-- The last predicate comes first. -/
  gathered : List Predicate

namespace Frame

/-- The predicate of a frame that is complete (`closeFrame`). -/
def predicate (f : Frame) : Predicate :=
  let children := f.gathered.reverse
  match f.combinator with
  | .all => .conjunction children
  | .any => .disjunction children
  | .not => .not (children.head?.getD .true)
  | .related relation path => .related relation path (.conjunction children)

end Frame

/-- A document to read, or the end of something that is open (`WorkItem`). -/
inductive Task where
  | fragment (f : Fragment)
  | closePath
  | closeScope
  | closeFrame

namespace Task

/-- A bound on the steps that a task leads to. -/
def load : Task → Nat
  | .fragment f => f.totalLoad
  | _ => 1

end Task

/-- The stacks of a `BoundaryManager`. Those of keys and of scopes are without the root entry that
both begin with: it has no segments, and only their heights are compared. -/
structure TraversalState where
  work : List Task
  paths : List OpenKey
  scopes : List OpenKey
  frames : List Frame

namespace TraversalState

/-- A document to read, and the root frame: where `run` begins. -/
def start (document : Fragment) : TraversalState :=
  ⟨[.fragment document], [], [], [⟨.all, []⟩]⟩

/-- A bound on the steps still to come. -/
def load (s : TraversalState) : Nat := Fragment.sum (s.work.map Task.load)

/-- The open keys as one (`openExternal` and `openInternal`). -/
def openKey (s : TraversalState) : OpenKey := .join s.paths.reverse

/-- Is a key open that no scope contains? -/
def hasOpenField (s : TraversalState) : Bool := s.scopes.length < s.paths.length

/-- Opens a key around some tasks. -/
def openPath (s : TraversalState) (key : OpenKey) (inside : List Task) : TraversalState :=
  { s with work := inside ++ .closePath :: s.work, paths := key :: s.paths }

/-- Opens a frame around some tasks (`openFrame`, then `pushFragments`). -/
def openFrame (s : TraversalState) (frame : Frame) (inside : List Task) : TraversalState :=
  { s with work := inside ++ .closeFrame :: s.work, frames := frame :: s.frames }

/-- Opens a scope at the open keys that no scope contains yet. -/
def openScope (s : TraversalState) : TraversalState :=
  let fresh := s.paths.take (s.paths.length - s.scopes.length)
  { s with work := .closeScope :: s.work, scopes := .join fresh.reverse :: s.scopes }

/-- Adds a predicate to the innermost frame (`currentFrame`). -/
def gather (s : TraversalState) (p : Predicate) : Except Fault TraversalState :=
  match s.frames with
  | [] => .error .noOpenFrame
  | frame :: outer =>
    .ok { s with frames := { frame with gathered := p :: frame.gathered } :: outer }

theorem gather_eq_ok_iff {s t : TraversalState} {p : Predicate} :
    s.gather p = .ok t ↔ ∃ frame outer, s.frames = frame :: outer ∧
      t = { s with frames := { frame with gathered := p :: frame.gathered } :: outer } := by
  unfold gather
  constructor
  · intro h
    split at h
    · cases h
    · next frame outer hframes =>
      cases h
      exact ⟨frame, outer, hframes, rfl⟩
  · rintro ⟨frame, outer, hframes, rfl⟩
    rw [hframes]

/-- Completes the innermost frame (`closeCurrentFrame`). -/
def closeFrame (s : TraversalState) : Except Fault TraversalState :=
  match s.frames with
  | [] => .error .noOpenFrame
  | frame :: outer => { s with frames := outer }.gather frame.predicate

theorem closeFrame_eq_ok_iff {s t : TraversalState} :
    s.closeFrame = .ok t ↔ ∃ frame outer, s.frames = frame :: outer ∧
      { s with frames := outer }.gather frame.predicate = .ok t := by
  unfold closeFrame
  constructor
  · intro h
    split at h
    · cases h
    · next frame outer hframes => exact ⟨frame, outer, hframes, h⟩
  · rintro ⟨frame, outer, hframes, h⟩
    rw [hframes]
    exact h

/-- What the innermost frame has gathered, as one predicate: the answer of `run`. -/
def result (s : TraversalState) : Except Fault Predicate :=
  match s.frames with
  | [] => .error .noOpenFrame
  | frame :: _ => .ok (.conjunction frame.gathered.reverse)

end TraversalState
end RowFilter
