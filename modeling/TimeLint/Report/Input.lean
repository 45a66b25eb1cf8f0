import TimeLint.Data.Issue
import TimeLint.Report.Record

/-!
Reports read from plain values. Rows that a report does not know are passed over.
-/

namespace TimeLint

open Data

def SourceRange.ofValue (v : Value) : Checked SourceRange := do
  let rows ← v.asTable "SourceRange"
  let number (name : String) := required rows name Value.asInt
  (Checked.both (number "start") (.both (number "end") (.both (number "start_line")
    (.both (number "start_col") (.both (number "end_line") (number "end_col")))))).map
    fun (start, stop, startLine, startColumn, endLine, endColumn) =>
      { start, stop, startLine, startColumn, endLine, endColumn }

def Offense.Kind.ofValue : Value → Checked Kind :=
  Value.asOneOf (.member (Kind.all.map code)) (Kind.all.map fun k => (k.code, k))

def Diagnostic.ofValue (v : Value) : Checked Diagnostic := do
  let rows ← v.asTable "Diagnostic"
  (Checked.both (required rows "range" SourceRange.ofValue)
    (.both (required rows "message" Value.asString)
      (.both (required rows "kind" Offense.Kind.ofValue)
        (.both (optional rows "rule" Offense.rule Value.asString)
          (optional rows "correctable" false Value.asBool))))).map
    fun (range, message, kind, rule, correctable) => { range, message, kind, rule, correctable }

def FileReport.ofValue (v : Value) : Checked FileReport := do
  let rows ← v.asTable "FileReport"
  (Checked.both (required rows "path" Value.asString)
    (.both (optional rows "diagnostics" [] (Value.asList Diagnostic.ofValue))
      (optional rows "corrected" 0 Value.asInt))).map
    fun (path, diagnostics, corrected) => { path, diagnostics, corrected }

end TimeLint
