import MxStar.Tree.Typed

/-!
The program that is compiled when none is given: it prints the sum of the numbers from one to ten.
-/
namespace MxStar.Tree

/-- A function that adds the numbers from one to its argument, and a `main` that prints the sum of
the first ten. -/
def Program.sample : Program :=
  let n := Expr.named "n" .int
  let s := Expr.named "s" .int
  let i := Expr.named "i" .int
  let sum : FuncDecl := {
    name := "sum", ret := .int, params := [⟨"n", .int⟩]
    body := [
      .varDecl { name := "s", ty := .int, init := some (.ofInt 0) },
      .forLoop (some (.decls [{ name := "i", ty := .int, init := some (.ofInt 1) }]))
        (some (.ofBinary .le i n)) (some (.ofUnary .preInc i))
        (.expr (.ofAssign s (.ofBinary .add s i))),
      .giveBack (some s) {}] }
  let main : FuncDecl := {
    name := "main", ret := .int, params := []
    body := [
      .expr (.ofCall "printlnInt" [.ofCall "sum" [.ofInt 10] .int] .void),
      .giveBack (some (.ofInt 0)) {}] }
  { decls := [.func sum, .func main] }

end MxStar.Tree
