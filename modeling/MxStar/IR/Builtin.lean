/-!
The routines of the runtime that generated code calls.
-/
namespace MxStar.IR

inductive Builtin where
  | malloc | print | println | printInt | printlnInt | getString | getInt | toString
  | stringConcat | stringCompare | stringSubstring | stringParseInt | stringOrd
  deriving DecidableEq, Repr, Inhabited

namespace Builtin

def symbol : Builtin → String
  | .malloc => "malloc"
  | .print => "__builtin_print"
  | .println => "__builtin_println"
  | .printInt => "__builtin_printInt"
  | .printlnInt => "__builtin_printlnInt"
  | .getString => "__builtin_getString"
  | .getInt => "__builtin_getInt"
  | .toString => "__builtin_toString"
  | .stringConcat => "__builtin_string_concat"
  | .stringCompare => "__builtin_string_compare"
  | .stringSubstring => "__builtin_string_substring"
  | .stringParseInt => "__builtin_string_parseInt"
  | .stringOrd => "__builtin_string_ord"

def all : List Builtin :=
  [.getInt, .getString, .print, .printInt, .println, .printlnInt, .stringCompare, .stringConcat,
    .stringOrd, .stringParseInt, .stringSubstring, .toString, .malloc]

def ofSymbol? (s : String) : Option Builtin := all.find? fun b => b.symbol = s

/-- The routine behind a method of strings. The length of a string is not among them: it is read
from memory directly. -/
def stringMethod? (name : String) : Option Builtin :=
  if name = "substring" then some .stringSubstring
  else if name = "parseInt" then some .stringParseInt
  else if name = "ord" then some .stringOrd
  else none

end Builtin

end MxStar.IR
