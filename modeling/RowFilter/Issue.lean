import RowFilter.Path

/-!
# Issues

What a check of options or of a definition finds: a complaint at a path. A check goes through
the whole record and lists every issue in order.
-/

namespace RowFilter

structure Issue where
  path : Path
  message : String
deriving DecidableEq

namespace Issue

def text (issue : Issue) : String :=
  (if issue.path.text = "" then "(root)" else issue.path.text) ++ ": " ++ issue.message

/-- A record was wanted, and the kind of what is there is another. -/
def notARecord (path : Path) (kind : String) : Issue :=
  ⟨path, if kind = "undefined" then "Required" else "Expected object, received " ++ kind⟩

/-- All names that a record should not have make one issue. -/
def unrecognized (path : Path) (names : List String) : List Issue :=
  if names = [] then []
  else
    let quoted := names.map fun name => "'" ++ name ++ "'"
    [⟨path, "Unrecognized key(s) in object: " ++ ", ".intercalate quoted⟩]

example : (notARecord [] "array").text = "(root): Expected object, received array" := by
  decide +kernel
example : (unrecognized ["Album"] ["b", "a"]).map text =
    ["Album: Unrecognized key(s) in object: 'b', 'a'"] := by decide +kernel

end Issue
end RowFilter
