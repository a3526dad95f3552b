import MxStar.IR.Program
import MxStar.SortedSet

/-!
The call graph of a program.

Functions that call each other in a cycle form a component. The components are found by one
depth-first search in which every function is numbered as it is entered: a function starts a
component if nothing below it leads back to one entered earlier. Components are listed so that those
that are called come before those that call them.
-/
namespace MxStar.Pass

open IR

def callees (f : Func) : SortedSet FuncId :=
  .ofList (f.instrs.filterMap fun
    | .call _ (.func id) _ _ => some id
    | _ => none)

structure CallGraph where
  edges : Array (SortedSet FuncId)
  deriving DecidableEq, Repr, Inhabited

structure Search where
  /-- The number that each function got when it was entered. -/
  index : Array (Option Nat)
  /-- For each function, the lowest number that is known to be reached from it. -/
  low : Array Nat
  /-- The functions entered whose component is not complete, the last one first. -/
  stack : List FuncId
  next : Nat
  /-- The complete components, the last one first. -/
  done : List (List FuncId)
  deriving DecidableEq, Repr, Inhabited

namespace Search

def start (n : Nat) : Search :=
  { index := Array.replicate n none, low := Array.replicate n 0
    stack := [], next := 0, done := [] }

def indexOf (s : Search) (v : FuncId) : Option Nat := (s.index[v]?).join

def lowOf (s : Search) (v : FuncId) : Nat := s.low[v]?.getD 0

def enter (s : Search) (v : FuncId) : Search :=
  { s with
    index := s.index.setIfInBounds v (some s.next)
    low := s.low.setIfInBounds v s.next
    stack := v :: s.stack
    next := s.next + 1 }

def reach (s : Search) (v : FuncId) (n : Nat) : Search := { s with low := s.low.modify v (min · n) }

/-- Leaves a function. If nothing below it leads further back, it and all functions entered after it
that are still on the stack are a component. -/
def leave (s : Search) (v : FuncId) : Search :=
  if some (s.lowOf v) = s.indexOf v then
    let (above, rest) := s.stack.span (· ≠ v)
    { s with stack := rest.tail, done := (above ++ rest.take 1) :: s.done }
  else s

end Search

namespace CallGraph

def ofProgram (p : Program) : CallGraph := ⟨p.functions.map callees⟩

def calls (g : CallGraph) (f : FuncId) : List FuncId := (g.edges[f]?.getD ∅).toList

/-- Searches from a function. Calls nest no deeper than there are functions, which bounds the
depth. -/
def visit (g : CallGraph) : Nat → Search → FuncId → Search
  | 0, s, _ => s
  | depth + 1, s, v =>
    let step (s : Search) (w : FuncId) : Search :=
      match s.indexOf w with
      | none =>
        let s := visit g depth s w
        s.reach v (s.lowOf w)
      | some n => if s.stack.contains w then s.reach v n else s
    ((g.calls v).foldl step (s.enter v)).leave v

def components (g : CallGraph) : List (List FuncId) :=
  let n := g.edges.size
  let s := (List.range n).foldl
    (fun s v => if (s.indexOf v).isSome then s else g.visit n s v) (Search.start n)
  s.done.reverse

/-- Whether the functions of a component call each other in a cycle. -/
def isCycle (g : CallGraph) : List FuncId → Bool
  | [] => false
  | [f] => (g.calls f).contains f
  | _ => true

/-- The functions that can reach themselves through calls. -/
def recursive (g : CallGraph) : SortedSet FuncId :=
  .ofList (g.components.filter g.isCycle).flatten

end CallGraph

end MxStar.Pass
