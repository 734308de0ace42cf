import Statewise.Check.Evaluate

/-!
# Checking properties

What a user asks of a checker: the outcome of a property, the vector of an expression over some states,
the states of labels, and a property with its state formulas replaced by labels.
-/

namespace Statewise

namespace Checker

/-- The vector of an expression over a domain. -/
def eval (c : Checker) (m : Model) (entered : Entered) (e : Expr) (domain : Option StateSet) :
    Check StateVector :=
  c.evalWith .whereOpen m entered e domain

/-- The expression with its maximal state formulas replaced by labels, and these labels. -/
def extract (c : Checker) (m : Model) (e : Expr) : Check (Expr × Found) := do
  Check.restart none
  c.extractFrom .whereOpen m .none [] e

/-- The vector of an expression over a domain, from a fresh start. -/
def checkExpression (c : Checker) (m : Model) (e : Expr) (domain : Option StateSet) : Check StateVector := do
  Check.restart c.definitions.parameters
  c.eval m .none e domain

/-- The states of each label. -/
def checkLabels (c : Checker) (m : Model) (names : List String) : Check (List StateSet) := do
  Check.restart none
  names.mapM fun name => do Check.ofEval (← c.eval m .none (.label name) none).satisfaction

/-- The expression under a filter that gives one answer, unless it is one by itself: over the initial
states a truth value has to hold in all of them, the value is asked for in the only one, and of several
the range of values is asked for. -/
def withDefaultFilter (m : Model) (e : Expr) : Expr :=
  if e.isSingleValued then e
  else
    let op : FilterOp :=
      if e.type = .bool then .forAll else if m.numInitial = 1 then .state else .range
    .invisibleFilter op e (some (.label Expr.initName))

/-- The model and the expression that are checked in place of the given ones, after minimisation if it is
wanted and there is a minimiser. It keeps the state formulas of the expression apart. -/
def minimised (c : Checker) (m : Model) (e : Expr) : Check (Model × Expr) :=
  if !c.settings.minimise then return (m, e)
  else
    match c.minimiser with
    | none => do
      Check.message "no minimiser configured, checking the unminimised model"
      return (m, e)
    | some minimiser => do
      let (e, labels) ← c.extract m e
      discard <| Check.ask (.minimise labels)
      let m ← Check.ofExcept (minimiser m labels)
      Check.message ("Modified property: " ++ e.text)
      return (m, e)

/-- The expression that is checked for a property: with the filters that are put around it. -/
def prepared (c : Checker) (m : Model) (e : Expr) : Expr :=
  withDefaultFilter m (if c.settings.storeVector then .invisibleFilter .store e none else e)

/-- Check a property and report its result. -/
def check (c : Checker) (m : Model) (e : Expr) : Check Outcome := do
  let (m, e) ← c.minimised m (c.prepared m e)
  Check.restart c.definitions.parameters
  let values ← c.eval m .none e none
  let run ← get
  Check.message (run.answer.line e.resultName)
  return ⟨values, run.answer, run.hint⟩

/-- Attach a label for each set, under a name that is free; the names are paired with the old ones. -/
def attachLabels (m : Model) (defined : List String) : Found → Except ModelError (List (String × String) × Model)
  | [] => .ok ([], m)
  | (placeholder, states) :: rest => do
    let (name, m) ← m.addUniqueLabel "phi" states defined
    let (renames, m) ← attachLabels m defined rest
    return ((placeholder, name) :: renames, m)

/-- The expression with its maximal state formulas replaced by labels of the model, and the model with
these labels. -/
def registerFormulas (c : Checker) (m : Model) (e : Expr) : Check (Expr × Model) := do
  let (e, found) ← c.extract m e
  let (renames, m) ← Check.ofModel (attachLabels m c.definitions.labelNames found)
  return (e.renameLabels fun name => (renames.lookup name).getD name, m)

end Checker

end Statewise
