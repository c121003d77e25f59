import RowFilter.Predicate.Render
import RowFilter.Traversal

/-!
# Compiling filters

A filter document becomes a predicate under the options of the call. An absent document has no
predicate; anything else that is no mapping is refused.

A compile reports what it does. The predicate is rendered only for a log that goes somewhere. A
refused document is reported before the fault goes on to the caller; other faults are not the
document's and go on in silence.
-/

namespace RowFilter

/-- What a report on a rejected document says. -/
def Fault.rejection? : Fault → Option (Entries Value)
  | .refused r => some [("code", .text r.code.label), ("dataKey", .text r.dataKey.text)]
  | .tooComplex limit =>
    some [("code", .text Message.tooComplex.key), ("limit", .number (.ofNat limit))]
  | _ => none

namespace Traced
variable {α : Type}

/-- Reports the rejection of a document at the end of the trace, as the last thing that
`compileFilter` does with it. -/
def reportingRejection (t : Traced α) : Traced α :=
  match t.result with
  | .ok _ => t
  | .error fault =>
    match fault.rejection? with
    | some data => ⟨t.events ++ [.logged "Rejected filter" data], .error fault⟩
    | none => t

theorem reportingRejection_result (t : Traced α) : t.reportingRejection.result = t.result := by
  obtain ⟨events, fault | a⟩ := t
  · simp only [reportingRejection]
    split <;> rfl
  · rfl

end Traced

namespace Setup

/-- Traverses a document, and renders its predicate for a live log: what `compileFilter` does with
a document that is there. -/
def compileMapping (setup : Setup) (document : Value) : Traced Predicate :=
  match document.mapping? with
  | none => Traced.refuse .notADocument [] document none
  | some fragment => do
    let p ← Traversal.run setup fragment
    if setup.policies.sink.isLive then do
      let text ← Traced.ofExcept p.render
      Traced.log "Compiled filter" [("model", .text setup.root), ("predicate", .text text)]
    return p

/-- Compiles a document under policies in force (`compileFilter`). -/
def compile (setup : Setup) (document : Value) : Traced (Option Predicate) := do
  if document.isMissing then
    Traced.log "No filter document supplied" [("model", .text setup.root)]
    return none
  else
    Traced.log "Compiling filter" [("model", .text setup.root)]
    return some (← (setup.compileMapping document).reportingRejection)

end Setup

/-- What a call comes to: its trace, where its reports go, and its result or failure. -/
structure Outcome (α : Type) where
  events : List Event
  sink : Sink
  result : Except Failure α

namespace Outcome
variable {α β : Type}

/-- A fault before any policy is in force. -/
def failed (fault : Fault) : Outcome α := ⟨[], .silent, .error (.of .plain fault)⟩

def ofTraced (policies : Policies) (t : Traced α) : Outcome α :=
  ⟨t.events, policies.sink, t.result.mapError (.of policies.formatter)⟩

def map (f : α → β) (o : Outcome α) : Outcome β := ⟨o.events, o.sink, o.result.map f⟩

/-- Goes on from a result, with faults that the formatter has no words for. -/
def andThen (o : Outcome α) (f : α → Except Fault β) : Outcome β :=
  ⟨o.events, o.sink, o.result.bind fun a => (f a).mapError (.of .plain)⟩

end Outcome

/-- Compiles a document for rows of the root model (`compileFilter`). -/
def compile (schema : Schema) (root : String) (document : Value) (options : OptionsArgument) :
    Outcome (Option Predicate) :=
  match Policies.resolve options with
  | .error fault => .failed fault
  | .ok policies => .ofTraced policies (Setup.compile ⟨schema, root, policies⟩ document)

/-! ## Joining a base predicate -/

/-- The predicate that a setting constrains a query with already. A value that counts as no
constrains nothing. -/
def baseOf : Option Setting → Except Fault (Option Predicate)
  | none => return none
  | some (.predicate p) => return some p
  | some (.value v) => if v.isFalsy then return none else some <$> (Condition.value v).read
  | some _ => throw .noPredicate

/-- The conjunction of a base and a compiled predicate, of which none, either or both are there.
A base that is true adds nothing. -/
def joinBase (base compiled : Option Predicate) : Predicate :=
  match base.filter (!·.isTrue), compiled with
  | none, compiled => compiled.getD .true
  | some b, none => b
  | some b, some p => .conjunction [b, p]

def baseName : String := "base"

/-- Compiles a document and joins the base predicate that comes with the options (`applyFilter`). A
fault of the compile comes before one of the base. -/
def apply (schema : Schema) (root : String) (document : Value) (options : OptionsArgument) :
    Outcome Predicate :=
  match options.entries with
  | .error fault => .failed fault
  | .ok entries =>
    (compile schema root document (.settings (.ofEntries (entries.remove baseName)))).andThen
      fun compiled => return joinBase (← baseOf (entries.get? baseName)) compiled

end RowFilter
