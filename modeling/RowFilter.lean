import RowFilter.Text.Blank
import RowFilter.Text.Digits
import RowFilter.Text.Quoted
import RowFilter.Text.Spelling
import RowFilter.Text.Units
import RowFilter.Number
import RowFilter.Number.Numeral
import RowFilter.Number.Shortest
import RowFilter.Number.Whole
import RowFilter.Text.Form
import RowFilter.Calendar
import RowFilter.Entries
import RowFilter.Value
import RowFilter.Path
import RowFilter.Schema
import RowFilter.Schema.Resolve
import RowFilter.Message
import RowFilter.Fault
import RowFilter.Schema.Locate
import RowFilter.Trace
import RowFilter.Coercion
import RowFilter.Predicate
import RowFilter.Predicate.Written
import RowFilter.Predicate.Typing
import RowFilter.Predicate.Render
import RowFilter.Predicate.Meaning
import RowFilter.Predicate.RowTree
import RowFilter.Operator
import RowFilter.Options
import RowFilter.Issue
import RowFilter.Options.Check
import RowFilter.Log
import RowFilter.Policies
import RowFilter.Document
import RowFilter.Traversal.State
import RowFilter.Traversal
import RowFilter.Compile
import RowFilter.Compiler
import RowFilter.Schema.Catalog
import RowFilter.Schema.Definition
import RowFilter.Traversal.Performed
import RowFilter.Traversal.Bound
import RowFilter.Proofs.Outline
import RowFilter.Proofs.Simulation
import RowFilter.Proofs.Layout
import RowFilter.Proofs.Limit
import RowFilter.Proofs.Standing
import RowFilter.Proofs.Operators
import RowFilter.Proofs.Access
import RowFilter.Proofs.Compiled
import RowFilter.Proofs.Resolution
import RowFilter.Proofs.Definitions
import RowFilter.Proofs.OpenKeys
import RowFilter.Proofs.Rows
import RowFilter.Proofs.Nesting
import RowFilter.Proofs.Enclosure
import RowFilter.Proofs.Rendering
import RowFilter.Proofs.Blame
import RowFilter.Proofs.Agreement
import RowFilter.Proofs.Alternatives
import RowFilter.Proofs.Disclosure
import RowFilter.Proofs.Visibility
import RowFilter.Proofs.Extent
import RowFilter.Proofs.Peak
import RowFilter.Proofs.Translation
import RowFilter.Proofs.Prefixed
import RowFilter.Proofs.Rebase
import RowFilter.Proofs.Lookups
import RowFilter.Proofs.Typed
import RowFilter.Proofs.Turns
import RowFilter.Proofs.Layering
import RowFilter.Proofs.Matching
import RowFilter.Proofs.Shuffling
import RowFilter.Proofs.Crossing
import RowFilter.Proofs.Siblings
import RowFilter.Proofs.Unconditional
import RowFilter.Proofs.Scopes
import RowFilter.Proofs.Placeholders
import RowFilter.Proofs.Addresses
import RowFilter.Proofs.Resumption
import RowFilter.Proofs.Stripped
import RowFilter.Proofs.Retracing
import RowFilter.Proofs.Positions
import RowFilter.Proofs.FixedForms
import RowFilter.Proofs.Gregorian
import RowFilter.Proofs.Instants
import RowFilter.Proofs.Decimals
import RowFilter.Proofs.Lexemes
import RowFilter.Proofs.Wording
import RowFilter.Proofs.Unambiguous
import RowFilter.Proofs.WholeNumerals
import RowFilter.Proofs.Settled
import RowFilter.Proofs.Debugging
import RowFilter.Proofs.BareValues
import RowFilter.Proofs.Closings
