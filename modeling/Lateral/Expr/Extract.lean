import Lateral.Expr.Dialect

/-!
# Extraction of calls

Taking the calls that a predicate selects out of expressions. Each selected call,
together with everything below it, is replaced by a reference, and the calls are
collected in the order in which they are met. Where the reference points is
decided by the position of its call among all extracted ones.
-/

namespace Lateral

/-- Which calls are extracted, and the index that the reference to the call at a position of the
extracted list gets. -/
structure Extraction where
  selects : Expr → Bool
  place : Nat → Nat

namespace Extraction

/-- Extraction of the calls of a dialect into fields behind those of a row of the given width. -/
def behind (width : Nat) (dialect : Dialect) : Extraction where
  selects := Expr.isCallOf dialect
  place position := width + position

/-- Extraction of the calls of a dialect with 64-bit indices counted from an offset, which start
again at zero behind the largest one. -/
def fromOffset (offset : UInt64) (dialect : Dialect) : Extraction where
  selects := Expr.isCallOf dialect
  place position := (offset + UInt64.ofNat position).toNat

mutual

/-- What is left of an expression, and the extracted calls with those taken out of it added. -/
def extract (extraction : Extraction) (taken : List Expr) : Expr → Expr × List Expr
  | .ref index type => (.ref index type, taken)
  | .const value type => (.const value type, taken)
  | .call function operands type =>
    if extraction.selects (.call function operands type) then
      (.ref (extraction.place taken.length) type, taken ++ [.call function operands type])
    else
      let rest := extractAll extraction taken operands
      (.call function rest.1 type, rest.2)

/-- Extracts from each expression of a list, from left to right. -/
def extractAll (extraction : Extraction) (taken : List Expr) :
    List Expr → List Expr × List Expr
  | [] => ([], taken)
  | expression :: rest =>
    let first := extract extraction taken expression
    let others := extractAll extraction first.2 rest
    (first.1 :: others.1, others.2)

end

/-- What is left of each expression of a list, with the calls extracted up to and including it. -/
def steps (extraction : Extraction) (taken : List Expr) :
    List Expr → List (Expr × List Expr)
  | [] => []
  | expression :: rest =>
    let step := extraction.extract taken expression
    step :: steps extraction step.2 rest

end Extraction

end Lateral
