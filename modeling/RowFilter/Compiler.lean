import RowFilter.Compile

/-!
# Bound compilers

A compiler is bound to a root model and to default options, which are checked when it is made.
The options of a call go over the defaults, name by name.
-/

namespace RowFilter

/-- A compiler with a model and defaults of its own (`FilterCompiler`). -/
structure Compiler where
  schema : Schema
  model : String
  defaults : Entries Setting

namespace Compiler

def modelName : String := "model"

/-- Binds a compiler to a model (`createFilterCompiler`). A model among the defaults is not one of
them. -/
def make (schema : Schema) (model : String) (config : OptionsArgument) : Except Fault Compiler := do
  let entries : Entries Setting ← match config with
    | .value .null => pure []
    | config => config.entries
  let defaults := entries.remove modelName
  let _ ← Policies.resolve (.settings (.ofEntries defaults))
  return ⟨schema, model, defaults⟩

/-- The options of a call. -/
def optionsFor (c : Compiler) (overrides : OptionsArgument) : Except Fault Options :=
  return .merge c.defaults (← overrides.entries)

def compile (c : Compiler) (document : Value) (overrides : OptionsArgument) :
    Outcome (Option Predicate) :=
  match c.optionsFor overrides with
  | .error fault => .failed fault
  | .ok options => RowFilter.compile c.schema c.model document (.settings options)

/-- Compiles and joins a base. The options are copied on the way, with the base among them. -/
def apply (c : Compiler) (document : Value) (base : Setting) (overrides : OptionsArgument) :
    Outcome Predicate :=
  match c.optionsFor overrides with
  | .error fault => .failed fault
  | .ok options =>
    RowFilter.apply c.schema c.model document
      (.settings (.ofEntries (options.own.put baseName base)))

end Compiler
end RowFilter
