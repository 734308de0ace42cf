import Statewise.Model.Basic

/-!
# Submodels

`Model.restrict` keeps some of the states and numbers them anew in their order. Transitions lead to
kept states only, and labels, initial states and observations move along.
-/

namespace Statewise

namespace Model

/-- The states that a restriction keeps, in their order. -/
def kept (m : Model) (keep : StateSet) : List Nat := keep.toList.filter (· < m.numStates)

/-- The new number of a state, if it is among those kept. -/
def renumber? (kept : List Nat) (s : Nat) : Option Nat := kept.idxOf? s

/-- The kept members of a set under their new numbers. -/
def renumberSet (kept : List Nat) (a : StateSet) : StateSet := .ofList (a.toList.filterMap (renumber? kept))

def restrict (m : Model) (keep : StateSet) : Model :=
  let old := m.kept keep
  { kind := m.kind
    variableNames := m.variableNames
    states := (old.filterMap fun s => m.states[s]?.map fun d =>
      { d with successors := d.successors.filterMap (renumber? old) }).toArray
    initial := renumberSet old m.initial
    labels := m.labels.map (renumberSet old)
    observations := if m.observations.isEmpty then #[]
      else (old.map fun s => m.observations[s]?.getD []).toArray }

end Model

end Statewise
