import Strand.Decimal.FloatText
import Strand.Heap

/-!
# The structure of a value as text

A second text of a value, for diagnostics: it shows the constructors, the identities of declarations
and the contents of objects. Unlike `render` it does not look for objects that reach themselves; it
stops at a nesting that only those exceed.
-/

set_option autoImplicit false

namespace Strand

def HostKind.describe : HostKind → String
  | value => "Variable"
  | function => "Function"
  | type => "Type"

def Decl.describe : Decl → String
  | node id => "Node(" ++ id.describe ++ ")"
  | host h =>
    "Synthetic(Synthetic \x7b name: " ++ h.name.describe ++ ", kind: " ++ h.kind.describe ++ " \x7d)"

/-- Describes a value whose objects nest at most `depth` deep. -/
def Value.describeTo (h : Heap) : Nat → Value → String
  | _, int n => "Int(" ++ toString n ++ ")"
  | _, float x => "Float(" ++ Decimal.floatText x ++ ")"
  | _, bool b => "Bool(" ++ (if b then "true" else "false") ++ ")"
  | _, str s => "Str(\"" ++ s ++ "\")"
  | _, null => "Null"
  | _, void => "Void"
  | _, function d => "Function(" ++ d.describe ++ ")"
  | _, type d => "Type(" ++ d.describe ++ ")"
  | _, constructor n => "Constructor(" ++ n.describe ++ ")"
  | 0, array _ => "Array(..)"
  | 0, struct _ => "Struct(..)"
  | depth + 1, array a =>
    "Array([" ++ ", ".intercalate ((h.elements a).toList.map (describeTo h depth)) ++ "])"
  | depth + 1, struct r =>
    let fields := (h.record r).fields.map fun (name, v) =>
      "(" ++ name.describe ++ ", " ++ describeTo h depth v ++ ")"
    "Struct(StructRef \x7b decl: " ++ (h.record r).decl.describe ++ ", fields: [" ++
      ", ".intercalate fields ++ "] \x7d)"

/-- The structure of a value. -/
def Value.describe (h : Heap) (v : Value) : String := describeTo h (h.arrays.size + h.records.size) v

end Strand
