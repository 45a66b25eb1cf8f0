import TimeLint.Text.Bytes

/-!
Batches of edits. An edit replaces the bytes from `start` up to `stop`. A batch is applied as a whole
or refused: every edit has to lie in the source, and no two may share a byte. Edits at the same place
keep the order they were given in.
-/

namespace TimeLint

structure Edit where
  start : Int
  stop : Int
  replacement : String
deriving Repr, DecidableEq, Inhabited

namespace Edit

inductive Refusal where
  | outside (edit : Edit)
  | overlap (first second : Edit)
deriving Repr, DecidableEq, Inhabited

def range (e : Edit) : String := s!"[{e.start}, {e.stop})"

def Refusal.message : Refusal → String
  | outside e => "Edit " ++ e.range ++ " is outside the source"
  | overlap a b => "Edit " ++ b.range ++ " overlaps edit " ++ a.range

/-- Order by start, then by end. -/
def le (a b : Edit) : Bool := a.start < b.start || (a.start == b.start && a.stop ≤ b.stop)

def fits (size : Nat) (e : Edit) : Bool := 0 ≤ e.start && e.stop ≤ size && e.start ≤ e.stop

/-- The first neighbours that share a byte. -/
def overlap? : List Edit → Option (Edit × Edit)
  | a :: b :: rest => if b.start < a.stop then some (a, b) else overlap? (b :: rest)
  | _ => none

def sorted (edits : List Edit) : List Edit := edits.mergeSort le

/-- The batch in order, or why it is refused. -/
def arrange (size : Nat) (edits : List Edit) : Except Refusal (List Edit) :=
  let ordered := sorted edits
  match ordered.find? fun e => !e.fits size with
  | some e => .error (.outside e)
  | none =>
    match overlap? ordered with
    | some (a, b) => .error (.overlap a b)
    | none => .ok ordered

def splice (e : Edit) (source : Bytes) : Bytes :=
  source.take e.start.toNat ++ Bytes.ofString e.replacement ++ source.drop e.stop.toNat

/-- Splices from the last edit to the first, so that earlier offsets stay right. -/
def apply (source : Bytes) (edits : List Edit) : Except Refusal Bytes :=
  match arrange source.length edits with
  | .error r => .error r
  | .ok ordered => .ok (ordered.foldr splice source)

/-- Why a text has no edited form: the batch is refused, or the bytes that it leaves are no text. -/
inductive TextFault where
  | refused (refusal : Refusal)
  | undecodable
deriving Repr, DecidableEq, Inhabited

/-- Applies edits to a text. Offsets count the bytes of its encoding. -/
def applyText (source : String) (edits : List Edit) : Except TextFault String :=
  match apply (Bytes.ofString source) edits with
  | .error r => .error (.refused r)
  | .ok bytes =>
    match bytes.decode with
    | some text => .ok text
    | none => .error .undecodable

end Edit

end TimeLint
