/-
# The dependency graph as a DOT file

Nodes are boxes, filled in one colour if the predicate has facts and in another
if it has only rules. A quotation mark in the name of a node is escaped; the
ends of an edge are written as they are.
-/

import Resolvent.Graph.Dependency

namespace Resolvent

namespace DependencyGraph

/-- A predicate by its name and arity. -/
def label (name : String) (arity : Nat) : String :=
  s!"{name}/{arity}"

/-- A text with a backslash in front of each quotation mark. -/
def escapeMarks (text : String) : String :=
  String.ofList (text.toList.flatMap fun c => if c = '"' then ['\\', '"'] else [c])

/-- A text between quotation marks, without any escaping. -/
def enclose (text : String) : String :=
  "\"" ++ text ++ "\""

/-- The line of a node. -/
def Node.line (node : Node) : String :=
  let color := if node.hasFacts then "lightblue" else "lightgray"
  "  " ++ enclose (escapeMarks (label node.name node.arity)) ++
    " [fillcolor=" ++ color ++ ", style=filled];"

/-- The line of an edge. -/
def edgeLine (edge : (String × Nat) × (String × Nat)) : String :=
  let ((source, sourceArity), (target, targetArity)) := edge
  "  " ++ enclose (label source sourceArity) ++ " -> " ++
    enclose (label target targetArity) ++ ";"

/-- The whole file. -/
def dot (graph : DependencyGraph) : String :=
  Text.lines (
    ["digraph hornlog \x7b", "  rankdir=LR;", "  node [shape=box, style=rounded];"] ++
    graph.nodes.map Node.line ++ graph.edges.map edgeLine ++ ["\x7d"])

end DependencyGraph

end Resolvent
