import Statewise.Operator

/-!
# Expressions

An expression is a tree over the states of a model. References carry their declared type; a formula
carries its definition once it has been expanded. Recursion goes through three functions side by side,
one for trees, one for lists of trees and one for optional trees.
-/

namespace Statewise

inductive Expr where
  | ite (condition thenBranch elseBranch : Expr)
  | binary (op : BinaryOp) (left right : Expr)
  | unary (op : UnaryOp) (operand : Expr)
  | call (function : Function) (args : List Expr)
  | literal (value : Value)
  /-- A named constant, whose value is known when checking. -/
  | constant (name : String) (type : ValueType)
  /-- A name that was never resolved. -/
  | ident (name : String) (type : ValueType)
  | formula (name : String) (definition : Option Expr) (type : ValueType)
  /-- The variable at that place of the valuations. -/
  | var (name : String) (index : UInt64) (type : ValueType)
  | observable (name : String) (type : ValueType)
  | label (name : String)
  /-- A reference to another named property. -/
  | property (name : String) (type : ValueType)
  /-- A reduction of the operand over the states that satisfy the selector, all states without one. A
  filter is invisible if it was inserted, and explained if its result may carry an explanation. -/
  | filter (op : FilterOp) (operand : Expr) (selector : Option Expr) (invisible explained : Bool)
  /-- A quantity that a solver computes; the operand is a path formula or a state formula. -/
  | quant (measure : Measure) (query : Query) (operand : Expr)
  /-- A path formula, which has a meaning only inside a quantity. -/
  | path (op : PathOp) (operands : List Expr) (bound : Option UInt64)
deriving Inhabited

namespace Expr

/-- The label of the initial states, unless a model or a definition gives the name another meaning. -/
def initName : String := "init"

/-- The label of the states without a successor, with the same exception. -/
def deadlockName : String := "deadlock"

def truth : Expr := literal (.bool true)

def falsity : Expr := literal (.bool false)

/-- A filter inserted by the checker. -/
def invisibleFilter (op : FilterOp) (operand : Expr) (selector : Option Expr) : Expr :=
  filter op operand selector true true

/-- The direct subexpressions, in the order in which they are visited. -/
def children : Expr → List Expr
  | ite c t e => [c, t, e]
  | binary _ l r => [l, r]
  | unary _ e => [e]
  | call _ args => args
  | formula _ d _ => d.toList
  | filter _ e s _ _ => e :: s.toList
  | quant _ _ e => [e]
  | path _ es _ => es
  | literal _ | constant .. | ident .. | var .. | observable .. | label _ | property .. => []

/-- What kind of expression this is, in words. -/
def kindName : Expr → String
  | ite .. => "conditional"
  | binary .. => "binary operator"
  | unary .. => "unary operator"
  | call .. => "function"
  | literal _ => "literal"
  | constant .. => "constant"
  | ident .. => "identifier"
  | formula .. => "formula"
  | var .. => "variable"
  | observable .. => "observable"
  | label _ => "label"
  | property .. => "property reference"
  | filter .. => "filter"
  | quant .. => "quantitative operator"
  | path .. => "path formula"

def isTrue : Expr → Bool
  | literal (.bool b) => b
  | _ => false

def isFalse : Expr → Bool
  | literal (.bool b) => !b
  | _ => false

def isInitLabel : Expr → Bool
  | label name => name == initName
  | _ => false

def isDeadlockLabel : Expr → Bool
  | label name => name == deadlockName
  | _ => false

def isFilter (op : FilterOp) : Expr → Bool
  | filter op' .. => op' == op
  | _ => false

/-- Whether a selector is literally true, or absent. -/
def selectsAll (selector : Option Expr) : Bool := selector.all isTrue

/-- Whether a selector is the label of the initial states. -/
def selectsInit (selector : Option Expr) : Bool := selector.any isInitLabel

/-! ## Types -/

mutual

/-- The static type. -/
def type : Expr → ValueType
  | ite _ t e => t.type.choice e.type
  | binary op l r => op.resultType l.type r.type
  | unary op e => op.resultType e.type
  | call f args => f.resultType (types args)
  | literal v => v.type
  | constant _ t | ident _ t | var _ _ t | observable _ t | property _ t => t
  | formula _ d t => typeD d t
  | label _ | path .. => .bool
  | filter op e _ _ _ => op.resultType e.type
  | quant _ q _ => q.resultType

def types : List Expr → List ValueType
  | [] => []
  | e :: es => e.type :: types es

/-- The type of the definition if there is one, else the declared type. -/
def typeD : Option Expr → ValueType → ValueType
  | none, t => t
  | some d, _ => d.type

end

/-! ## Classes of expressions -/

mutual

/-- The number of nodes. -/
def size : Expr → Nat
  | ite c t e => 1 + c.size + t.size + e.size
  | binary _ l r => 1 + l.size + r.size
  | unary _ e | quant _ _ e => 1 + e.size
  | call _ es | path _ es _ => 1 + sizes es
  | formula _ d _ => 1 + sizeD d
  | filter _ e s _ _ => 1 + e.size + sizeD s
  | literal _ | constant .. | ident .. | var .. | observable .. | label _ | property .. => 1

def sizes : List Expr → Nat
  | [] => 0
  | e :: es => e.size + sizes es

def sizeD : Option Expr → Nat
  | none => 0
  | some e => e.size

end

mutual

/-- A proposition depends on the current state alone: no quantity, path formula, filter, query for several
objectives or reference to a property occurs in it. -/
def isProposition : Expr → Bool
  | ite c t e => c.isProposition && t.isProposition && e.isProposition
  | binary _ l r => l.isProposition && r.isProposition
  | unary _ e => e.isProposition
  | call f args => f != .multi && arePropositions args
  | formula _ d _ => isPropositionD d
  | literal _ | constant .. | ident .. | var .. | observable .. | label _ => true
  | property .. | filter .. | quant .. | path .. => false

def arePropositions : List Expr → Bool
  | [] => true
  | e :: es => e.isProposition && arePropositions es

def isPropositionD : Option Expr → Bool
  | none => true
  | some e => e.isProposition

end

mutual

/-- Whether the expression is an answer by itself, so that no filter has to be put around it. -/
def isSingleValued : Expr → Bool
  | literal _ | constant .. => true
  | filter op _ _ _ _ => op.isSingleValued
  | ite c t e => c.isSingleValued && t.isSingleValued && e.isSingleValued
  | binary _ l r => l.isSingleValued && r.isSingleValued
  | unary _ e => e.isSingleValued
  | call f args => f != .multi && areSingleValued args
  | formula _ d _ => isSingleValuedD d
  | ident .. | var .. | observable .. | label _ | property .. | quant .. | path .. => false

def areSingleValued : List Expr → Bool
  | [] => true
  | e :: es => e.isSingleValued && areSingleValued es

/-- A formula that was not expanded is no answer. -/
def isSingleValuedD : Option Expr → Bool
  | none => false
  | some e => e.isSingleValued

end

mutual

/-- Whether every filter in the expression may carry an explanation. -/
def isExplained : Expr → Bool
  | ite c t e => c.isExplained && t.isExplained && e.isExplained
  | binary _ l r => l.isExplained && r.isExplained
  | unary _ e | quant _ _ e => e.isExplained
  | call _ es | path _ es _ => areExplained es
  | formula _ d _ => isExplainedD d
  | filter _ e s _ explained => explained && e.isExplained && isExplainedD s
  | literal _ | constant .. | ident .. | var .. | observable .. | label _ | property .. => true

def areExplained : List Expr → Bool
  | [] => true
  | e :: es => e.isExplained && areExplained es

def isExplainedD : Option Expr → Bool
  | none => true
  | some e => e.isExplained

end

/-- The name under which a quantity is reported. -/
def quantName (measure : Measure) (query : Query) : String :=
  let (capital, base) := match measure with
    | .reward _ => ("Expected reward", "expected reward")
    | .probability | .steadyState => ("Probability", "probability")
  match query with
  | .value => capital
  | .min => "Minimum " ++ base
  | .max => "Maximum " ++ base
  | .bound .. => "Result"

/-- The name under which the value of the expression is reported. -/
def resultName : Expr → String
  | quant m q _ => quantName m q
  | filter op e _ invisible _ =>
    if invisible then e.resultName
    else match op with
      | .count => "Count"
      | .sum => "Sum"
      | .avg => "Average"
      | .min => "Minimum value"
      | .max => "Maximum value"
      | .forAll | .thereIs => "Result"
      | _ => e.resultName
  | unary .parenth e => e.resultName
  | _ => "Result"

/-! ## Renaming labels -/

mutual

/-- The expression with every label renamed by `f`. -/
def renameLabels (f : String → String) : Expr → Expr
  | label name => label (f name)
  | ite c t e => ite (c.renameLabels f) (t.renameLabels f) (e.renameLabels f)
  | binary op l r => binary op (l.renameLabels f) (r.renameLabels f)
  | unary op e => unary op (e.renameLabels f)
  | call g args => call g (renameLabelsL f args)
  | formula name d t => formula name (renameLabelsD f d) t
  | filter op e s i x => filter op (e.renameLabels f) (renameLabelsD f s) i x
  | quant m q e => quant m q (e.renameLabels f)
  | path op es b => path op (renameLabelsL f es) b
  | e => e

def renameLabelsL (f : String → String) : List Expr → List Expr
  | [] => []
  | e :: es => e.renameLabels f :: renameLabelsL f es

def renameLabelsD (f : String → String) : Option Expr → Option Expr
  | none => none
  | some e => some (e.renameLabels f)

end

/-! ## Equality -/

mutual

/-- Structural equality; doubles are equal if their bits are. -/
def beq : Expr → Expr → Bool
  | ite c t e, ite c' t' e' => c.beq c' && t.beq t' && e.beq e'
  | binary op l r, binary op' l' r' => op == op' && l.beq l' && r.beq r'
  | unary op e, unary op' e' => op == op' && e.beq e'
  | call f es, call f' es' => f == f' && beqL es es'
  | literal v, literal v' => v == v'
  | constant n t, constant n' t' => n == n' && t == t'
  | ident n t, ident n' t' => n == n' && t == t'
  | formula n d t, formula n' d' t' => n == n' && beqD d d' && t == t'
  | var n i t, var n' i' t' => n == n' && i == i' && t == t'
  | observable n t, observable n' t' => n == n' && t == t'
  | label n, label n' => n == n'
  | property n t, property n' t' => n == n' && t == t'
  | filter op e s i x, filter op' e' s' i' x' => op == op' && e.beq e' && beqD s s' && i == i' && x == x'
  | quant m q e, quant m' q' e' => m == m' && q == q' && e.beq e'
  | path op es b, path op' es' b' => op == op' && beqL es es' && b == b'
  | _, _ => false

def beqL : List Expr → List Expr → Bool
  | [], [] => true
  | e :: es, e' :: es' => e.beq e' && beqL es es'
  | _, _ => false

def beqD : Option Expr → Option Expr → Bool
  | none, none => true
  | some e, some e' => e.beq e'
  | _, _ => false

end

instance : BEq Expr := ⟨beq⟩

end Expr

end Statewise
