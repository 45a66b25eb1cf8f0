import TimeLint.Offense.Kind
import TimeLint.Text.Quoted

/-!
The names that consumers of reports may rely on, with their values.
-/

namespace TimeLint.Offense

/-- The version of the report records. -/
def schemaVersion : Nat := 1

/-- What a public name stands for. -/
inductive Term where
  | text (s : String)
  | number (n : Nat)
  | table (rows : List (String × String))
  | record (fields : List String)
deriving Repr, DecidableEq, Inhabited

def rangeFields : List String := ["start", "end", "start_line", "start_col", "end_line", "end_col"]

def diagnosticFields : List String := ["range", "message", "kind", "rule", "correctable"]

def editFields : List String := ["start", "end", "replacement"]

def vocabulary : List (String × Term) :=
  [("FREEZE_TIME", .text freezeTime),
   ("MESSAGES", .table (Kind.all.map fun k => (k.code, k.message))),
   ("REPLACEMENTS", .table (Correction.all.filterMap fun r => r.replacement?.map fun t => (r.code, t))),
   ("REPORT_SCHEMA_VERSION", .number schemaVersion),
   ("RULE_NAME", .text rule),
   ("TARGET_CONSTANT", .text target),
   ("TRAVEL_BACK", .text travelBack),
   ("Diagnostic", .record diagnosticFields),
   ("DiagnosticKind", .table (Kind.all.map fun k => (k.code.toUpper, k.code))),
   ("RewriteKind", .table (Correction.all.map fun r => (r.code.toUpper, r.code))),
   ("SourceRange", .record rangeFields),
   ("TextEdit", .record editFields)]

/-- Why a name or code has no meaning. -/
inductive Unknown where
  | name (s : String)
  | kind (s : String)
  | correction (s : String)
deriving Repr, DecidableEq, Inhabited

def Unknown.message : Unknown → String
  | name s => "module 'contract' has no attribute " ++ Text.quoted s
  | kind s => Text.quoted s ++ " is not a valid DiagnosticKind"
  | correction s => Text.quoted s ++ " is not a valid RewriteKind"

def term (name : String) : Except Unknown Term :=
  match vocabulary.lookup name with
  | some t => .ok t
  | none => .error (.name name)

def messageOf (code : String) : Except Unknown String :=
  match Kind.ofCode? code with
  | some k => .ok k.message
  | none => .error (.kind code)

def replacementOf (code : String) : Except Unknown (Option String) :=
  match Correction.ofCode? code with
  | some r => .ok r.replacement?
  | none => .error (.correction code)

end TimeLint.Offense
