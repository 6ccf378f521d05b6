import Strand.Decimal.FloatText
import Strand.Heap
import Strand.Program

/-!
# The text of a value

What `print` writes and `+` concatenates. Scalars are written by their rules, both `null` and the
absent value as `null`, a declaration as its name, a constructor with a dollar sign before it. An
array is `[e₁, e₂, …]` and an instance is `\x7bf₁=v₁, f₂=v₂, …\x7d`.

An object may reach itself. The writer carries the objects that it is inside of, its path, and
writes an object that is on the path as `[...]` or `\x7b...\x7d`. An object that is merely shared is
written in full wherever it occurs. Every nested object makes the path longer by one that was not on
it, so the number of objects bounds the depth.
-/

set_option autoImplicit false

namespace Strand

/-- The identity of an object of either kind. -/
inductive Address where
  | array (a : ArrayId)
  | record (r : RecordId)
deriving DecidableEq, Inhabited, Repr

/-- The text so far, and the objects whose text is not finished, innermost first. -/
structure Writer where
  text : String
  path : List Address
deriving Inhabited

/-- A step of writing. It stops at a declaration that the arena does not have. -/
abbrev WriteM := StateT Writer (Except OutOfRange)

namespace Writer

def put (s : String) : WriteM Unit :=
  modify fun w => { w with text := w.text ++ s }

/-- Writes an object between two brackets, or its ellipsis if the writer is inside of it. -/
def enclosed (object : Address) (left right : String) (body : WriteM Unit) : WriteM Unit := do
  if (← get).path.contains object then
    put (left ++ "..." ++ right)
  else
    modify fun w => { w with path := object :: w.path }
    put left
    body
    modify fun w => { w with path := w.path.tail }
    put right

/-- Writes items with commas between them. -/
def separated {α : Type} (write : α → WriteM Unit) : List α → WriteM Unit
  | [] => pure ()
  | [x] => write x
  | x :: rest => do
    write x
    put ", "
    separated write rest

/-- Writes a value whose objects nest at most `depth` deep, those on the path aside. -/
def value (p : Program) (h : Heap) : Nat → Value → WriteM Unit
  | _, .int n => put (toString n)
  | _, .float x => put (Decimal.floatText x)
  | _, .bool b => put (if b then "true" else "false")
  | _, .str s => put s
  | _, .null | _, .void => put "null"
  | _, .function d | _, .type d => do put (← p.declName d)
  | _, .constructor n => do put ("$" ++ (← p.declName (.node n)))
  | 0, .array a => enclosed (.array a) "[" "]" (pure ())
  | 0, .struct r => enclosed (.record r) "\x7b" "\x7d" (pure ())
  | depth + 1, .array a =>
    enclosed (.array a) "[" "]" (separated (value p h depth) (h.elements a).toList)
  | depth + 1, .struct r =>
    enclosed (.record r) "\x7b" "\x7d" <|
      separated (fun (name, v) => do put (p.text name ++ "="); value p h depth v) (h.record r).fields

end Writer

/-- The number of objects. -/
def Heap.size (h : Heap) : Nat := h.arrays.size + h.records.size

/-- The text of a value. -/
def render (p : Program) (h : Heap) (v : Value) : Except OutOfRange String := do
  let (_, w) ← (Writer.value p h h.size v).run ⟨"", []⟩
  return w.text

end Strand
