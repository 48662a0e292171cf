/-
# The dependency graph of a store

The nodes are the predicates that the store defines, by name and arity. A rule
leads from the predicate of its head to each predicate of its body, whether or
not the store defines that one. Nodes and edges are listed once each, by first
appearance.
-/

import Resolvent.Store

namespace Resolvent

/-- A predicate of the graph. -/
structure DependencyGraph.Node where
  name : String
  arity : Nat
  /-- Whether the store has a fact of this predicate. -/
  hasFacts : Bool
  deriving DecidableEq

/-- The predicates of a store and which of them lead to which. -/
structure DependencyGraph where
  nodes : List DependencyGraph.Node
  edges : List ((String × Nat) × (String × Nat))
  deriving DecidableEq

namespace Store

/-- The dependency graph. -/
def dependencyGraph (store : Store) : DependencyGraph where
  nodes := store.predicates.map fun (name, arity) =>
    ⟨name, arity, store.facts.any fun a => signature a = (name, arity)⟩
  edges :=
    (store.rules.flatMap fun r => r.body.map fun a => (signature r.head, signature a)).foldl
      including []

end Store

end Resolvent
