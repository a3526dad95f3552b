import MxStar.Lowering.Draft
import MxStar.Text.Decimal

/-!
Objects and arrays.

An object is one word for each field. An array is a word with its length and one word for each
element, so that element `k` is `8 * k + 8` bytes from the start. An array with more than one
dimension holds arrays, which a loop fills in.
-/
namespace MxStar.Lowering

open MxStar.Tree IR

/-- The number of bytes of an array of `n` elements, which is also the offset of element `n`, if it
fits a word. -/
def span? (n : Word) : Option Word := do
  let bytes ← Text.Decimal.fit? (n.toInt * 8)
  Text.Decimal.fit? (bytes.toInt + 8)

def fieldOffset (env : Env) (ty : Ty) (field : String) (loc : Location) : Build Word :=
  match ty with
  | .object cls =>
    match (env.scope.class? cls).bind (·.fieldOffset? field) with
    | some offset => pure offset
    | none => throw (.unresolved .field (cls ++ "." ++ field) loc)
  | ty => throw (.violation (.memberOf ty field loc))

def memberPlace (env : Env) (ty : Ty) (object : Build Operand) (field : String) (loc : Location) :
    Build Place := do
  let offset ← fieldOffset env ty field loc
  let base ← toVReg (← object) "obj"
  return .mem (.base (.vreg base) offset)

def elementPlace (array position : OperandCode) (loc : Location) : Build Place := do
  let (array, position) ← evalBoth array position
  let base ← toVReg array "arr"
  match position with
  | .imm k =>
    match span? k with
    | some offset => return .mem (.base (.vreg base) offset)
    | none => throw (.violation (.indexRange k loc))
  | position =>
    let scaled ← fresh "off"
    emit (.binary (.vreg scaled) .shl position (.imm 3))
    let addr ← fresh "elem"
    emit (.binary (.vreg addr) .add (.vreg base) (.vreg scaled))
    return .mem (.base (.vreg addr) 8)

/-- The number of bytes of an array with a given length. -/
def arrayBytes (len : Operand) (loc : Location) : Build Operand :=
  match len with
  | .imm n =>
    match span? n with
    | some bytes => pure (.imm bytes)
    | none => throw (.violation (.lengthRange n loc))
  | len => do
    let scaled ← fresh "bytes"
    emit (.binary (.vreg scaled) .shl len (.imm 3))
    let total ← fresh "bytes"
    emit (.binary (.vreg total) .add (.vreg scaled) (.imm 8))
    return .vreg total

def allocArray (len : Operand) (loc : Location) : Build VReg := do
  let bytes ← arrayBytes len loc
  let array ← fresh "array"
  emitCall (some array) (.builtin .malloc) [bytes]
  emit (.store (.base (.vreg array) 0) len)
  return array

/-- Fills an array with values that are computed anew for each element. -/
def fillArray (array : VReg) (len : Operand) (element : Build VReg) : Build Unit := do
  let i ← fresh "i"
  emit (.move (.vreg i) (.imm 0))
  let condBlock ← newBlock "new_cond"
  let bodyBlock ← newBlock "new_body"
  let endBlock ← newBlock "new_end"
  jump condBlock
  switchTo condBlock
  emit (.branch .lt (.vreg i) len bodyBlock endBlock)
  switchTo bodyBlock
  let v ← element
  let offset ← fresh "off"
  emit (.binary (.vreg offset) .shl (.vreg i) (.imm 3))
  let addr ← fresh "elem"
  emit (.binary (.vreg addr) .add (.vreg array) (.vreg offset))
  emit (.store (.base (.vreg addr) 8) (.vreg v))
  emit (.binary (.vreg i) .add (.vreg i) (.imm 1))
  jump condBlock
  switchTo endBlock

/-- Allocates an array of arrays, given the length of each dimension. -/
def newArray (loc : Location) : Operand → List Operand → Build VReg
  | len, [] => allocArray len loc
  | len, inner :: rest => do
    let array ← allocArray len loc
    fillArray array len (newArray loc inner rest)
    return array

def newObject (env : Env) (info : Info) : Build Operand :=
  match info.ty with
  | .object name => do
    let some cls := env.scope.class? name | throw (.unresolved .cls name info.loc)
    let obj ← fresh "obj"
    emitCall (some obj) (.builtin .malloc) [.imm cls.size]
    if cls.constructor?.isSome then
      let id ← funcId env (name ++ "." ++ name) info.loc
      emitCall none (.func id) [.vreg obj]
    return .vreg obj
  | ty => throw (.violation (.noDimensions ty info.loc))

/-- Allocates what `new` with the given dimensions creates. -/
def createValue (env : Env) (info : Info) (dims : List OperandCode) : Build Operand :=
  match dims with
  | [] => newObject env info
  | dims => do
    match ← evalOperands dims with
    | [] => newObject env info
    | len :: rest => return .vreg (← newArray info.loc len rest)

end MxStar.Lowering
