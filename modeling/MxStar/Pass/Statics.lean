import MxStar.Pass.GlobalCache
import MxStar.Text.Symbol

/-!
The layout of the statics.

Functions that call nothing keep global variables in registers. Then string literals with the same
text are made one, statics that nothing refers to are dropped, and each of the others gets its
symbol, which has its number in it and is therefore unlike every other.
-/
namespace MxStar.Pass

open IR

/-- Keeps global variables in registers where nothing is called. -/
def cacheInLeaves (p : Program) : Program :=
  p.mapFunctions fun f => if f.hasCalls then f else cacheGlobals p.statics f

/-- The static that stands for a static: the first string literal with the same text, or the static
itself if it is a global variable. -/
def canonical (statics : Array Static) (s : StaticId) : StaticId :=
  match statics[s]? with
  | some ⟨_, .text t, _⟩ => (statics.findIdx? fun d => d.init = .text t).getD s
  | _ => s

def renameStatics (p : Program) (g : StaticId → StaticId) : Program :=
  p.mapFunctions (·.mapInstrs (·.mapStatics g))

def coalesce (p : Program) : Program := renameStatics p (canonical p.statics)

def referenced (p : Program) : SortedSet StaticId :=
  .ofList (p.functions.toList.flatMap fun f => f.allInstrs.flatMap Instr.statics)

/-- Drops the statics that nothing refers to and closes the gaps. -/
def dropUnreferenced (p : Program) : Program :=
  let kept := (referenced p).toList
  let p := renameStatics p fun s => (kept.idxOf? s).getD s
  { p with statics := (kept.filterMap (p.statics[·]?)).toArray }

def staticLabel (s : Static) (i : StaticId) : String :=
  match s.init with
  | .word => "__static_var_" ++ i.repr ++ "_" ++ Text.symbol s.name
  | .text _ => "__static_str_" ++ i.repr

def assignLabels (p : Program) : Program :=
  { p with statics := p.statics.mapIdx fun i s => { s with label := staticLabel s i } }

def layoutStatics (p : Program) : Program :=
  assignLabels (dropUnreferenced (coalesce (cacheInLeaves p)))

end MxStar.Pass
