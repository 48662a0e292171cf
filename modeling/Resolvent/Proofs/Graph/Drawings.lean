/-
# What the file of a graph says

The file of a store is read back here, and what it says is compared with the
store. The nodes come out as they are: a quotation mark in a name has a
backslash in front of it. In front of one at an end of an edge there is none,
so the text between the marks is over too soon.

That such a file does not say what it should is not seen by following the
reader through it. What comes of an edge with a stray mark depends on what
stands around it. But an edge should then lead to or from a name with a mark in
it, and there is none to be had in a text without backslashes. Since the nodes
are read to their end before the first edge begins, only the edges have to be
such a text.
-/

import Resolvent.Proofs.Clauses.FirstAppearance
import Resolvent.Proofs.Graph.Reader
import Resolvent.Proofs.Text.Numerals

namespace Resolvent

open DependencyGraph

/-! ### Labels -/

namespace DependencyGraph

/-- A label is a name and, behind a slash, a numeral. -/
theorem toList_label (name : String) (arity : Nat) :
    (label name arity).toList = name.toList ++ '/' :: Nat.toDigits 10 arity := by
  have written : label name arity = name ++ "/" ++ String.ofList (Nat.toDigits 10 arity) := by
    rw [← Nat.toString_eq_ofList_toDigits]
    rfl
  rw [written]
  simp

/-- What is neither the slash nor a digit is in a label when it is in the
name. -/
theorem mem_label {c : Char} (no_slash : c ≠ '/') (no_digit : ¬ c.isDigit) {name : String}
    {arity : Nat} : c ∈ (label name arity).toList ↔ c ∈ name.toList := by
  have absent : c ∉ Nat.toDigits 10 arity := fun digit =>
    no_digit (Text.isDigit_of_mem_numeral digit)
  rw [toList_label]
  simp [no_slash, absent]

/-- A label has a backslash only if the name has one, since numerals have
none. -/
theorem backslash_mem_label {name : String} {arity : Nat} :
    '\\' ∈ (label name arity).toList ↔ '\\' ∈ name.toList :=
  mem_label (by decide) (by decide)

theorem mark_mem_label {name : String} {arity : Nat} :
    '"' ∈ (label name arity).toList ↔ '"' ∈ name.toList :=
  mem_label (by decide) (by decide)

/-- A label says which predicate it is: the arity is what stands behind the
last slash. -/
theorem label_inj {name name' : String} {arity arity' : Nat} :
    label name arity = label name' arity' ↔ name = name' ∧ arity = arity' := by
  refine ⟨fun same => ?_, fun ⟨hn, ha⟩ => by rw [hn, ha]⟩
  have behind (name : String) (arity : Nat) :
      (label name arity).toList.reverse.takeWhile (· ≠ '/') = (Nat.toDigits 10 arity).reverse := by
    have noSlash : ∀ c ∈ (Nat.toDigits 10 arity).reverse, decide (c ≠ '/') := by
      rintro c digit
      have isDigit := Text.isDigit_of_mem_numeral (List.mem_reverse.mp digit)
      rw [decide_eq_true_eq]
      rintro rfl
      exact absurd isDigit (by decide)
    rw [toList_label, List.reverse_append, List.reverse_cons, List.append_assoc,
      List.takeWhile_append_of_pos noSlash]
    simp
  have digits : Nat.toDigits 10 arity = Nat.toDigits 10 arity' := by
    have reversed := behind name arity
    rw [same, behind name' arity'] at reversed
    exact List.reverse_injective reversed.symm
  have names : name.toList = name'.toList := by
    have texts := congrArg String.toList same
    rw [toList_label, toList_label, digits] at texts
    exact List.append_cancel_right texts
  have arities : arity = arity' := by
    simpa using congrArg (Nat.ofDigitChars 10 · 0) digits
  exact ⟨String.toList_inj.mp names, arities⟩

/-- Where there is no quotation mark there is nothing to escape. -/
theorem escapeMarks_eq_self {text : String} (no_mark : '"' ∉ text.toList) :
    escapeMarks text = text := by
  have each : ∀ c ∈ text.toList, (if c = '"' then ['\\', '"'] else [c]) = [c] := by
    intro c among
    have other : c ≠ '"' := fun same => no_mark (same ▸ among)
    rw [if_neg other]
  rw [escapeMarks, List.flatMap_congr each, List.flatMap_singleton', String.ofList_toList]

/-! ### The text of the file -/

/-- Each line is ended by a line feed, the last one too. -/
theorem toList_lines (texts : List String) :
    (Text.lines texts).toList = texts.flatMap fun text => text.toList ++ ['\n'] := by
  have general (above : String) :
      (texts.foldl (fun above line => above ++ line ++ "\n") above).toList =
        above.toList ++ texts.flatMap fun text => text.toList ++ ['\n'] := by
    induction texts generalizing above with
    | nil => simp
    | cons text texts ih => simp [ih]
  exact general ""

/-- The lines in front of the nodes. -/
def heading : List Char :=
  "digraph hornlog \x7b\n  rankdir=LR;\n  node [shape=box, style=rounded];\n".toList

/-- A graph is written as a heading, the nodes, the edges and a closing
brace. -/
theorem toList_dot (graph : DependencyGraph) :
    graph.dot.toList = heading ++
      ((graph.nodes.flatMap fun node => node.line.toList ++ ['\n']) ++
        ((graph.edges.flatMap fun edge => (edgeLine edge).toList ++ ['\n']) ++
          ['\x7d', '\n'])) := by
  have front : (["digraph hornlog \x7b", "  rankdir=LR;",
      "  node [shape=box, style=rounded];"].flatMap fun text => text.toList ++ ['\n']) =
      heading := by decide
  have back : (["\x7d"].flatMap fun text => text.toList ++ ['\n']) = ['\x7d', '\n'] := by decide
  rw [dot, toList_lines, List.flatMap_append, List.flatMap_append, List.flatMap_append, front, back,
    List.flatMap_map, List.flatMap_map, List.append_assoc, List.append_assoc]

/-! ### The tokens of the file -/

open Dot

/-- The tokens of a node. -/
def Node.statement (node : Node) : List Dot.Token :=
  [.quoted (label node.name node.arity), .mark '[', .word "fillcolor", .mark '=',
    .word (if node.hasFacts then "lightblue" else "lightgray"), .mark ',', .word "style", .mark '=',
    .word "filled", .mark ']']

/-- The tokens of an edge. -/
def edgeStatement (edge : (String × Nat) × (String × Nat)) : List Dot.Token :=
  [.quoted (label edge.1.1 edge.1.2), .mark '-', .mark '>', .quoted (label edge.2.1 edge.2.2)]

/-- The line of a node is read as one statement, whatever quotation marks its
name has. -/
theorem run_node {node : Node} (no_backslash : '\\' ∉ node.name.toList) :
    run .between (node.line.toList ++ ['\n']) =
      some (node.statement ++ [.mark ';'], .between) := by
  obtain ⟨name, arity, hasFacts⟩ := node
  have inLabel : '\\' ∉ (label name arity).toList := backslash_mem_label.not.mpr no_backslash
  let color := if hasFacts then "lightblue" else "lightgray"
  have written : (Node.line ⟨name, arity, hasFacts⟩).toList ++ ['\n'] = [' ', ' '] ++
      ((enclose (escapeMarks (label name arity))).toList ++
        (" [fillcolor=" ++ color ++ ", style=filled];\n").toList) := by
    simp [Node.line, color]
  have attributes : run .between (" [fillcolor=" ++ color ++ ", style=filled];\n").toList =
      some ([.mark '[', .word "fillcolor", .mark '=', .word color, .mark ',', .word "style",
        .mark '=', .word "filled", .mark ']', .mark ';'], .between) := by
    cases hasFacts <;> decide
  have indent : run .between [' ', ' '] = some ([], .between) := by decide
  rw [written, run_append_eq_some indent (run_append_eq_some (run_enclosed inLabel) attributes)]
  rfl

/-- The line of an edge is read as one statement if neither end has a quotation
mark. -/
theorem run_edge {edge : (String × Nat) × (String × Nat)}
    (source : '\\' ∉ edge.1.1.toList ∧ '"' ∉ edge.1.1.toList)
    (target : '\\' ∉ edge.2.1.toList ∧ '"' ∉ edge.2.1.toList) :
    run .between ((edgeLine edge).toList ++ ['\n']) =
      some (edgeStatement edge ++ [.mark ';'], .between) := by
  have readEnd (name : String) (arity : Nat) (plain : '\\' ∉ name.toList ∧ '"' ∉ name.toList) :
      run .between (enclose (label name arity)).toList =
        some ([.quoted (label name arity)], .between) := by
    have inLabel : '\\' ∉ (label name arity).toList := backslash_mem_label.not.mpr plain.1
    have enclosed := run_enclosed inLabel
    rwa [escapeMarks_eq_self (mark_mem_label.not.mpr plain.2)] at enclosed
  have written : (edgeLine edge).toList ++ ['\n'] = [' ', ' '] ++
      ((enclose (label edge.1.1 edge.1.2)).toList ++ (" -> ".toList ++
        ((enclose (label edge.2.1 edge.2.2)).toList ++ [';', '\n']))) := by
    simp [edgeLine]
  have indent : run .between [' ', ' '] = some ([], .between) := by decide
  have arrow : run .between " -> ".toList = some ([.mark '-', .mark '>'], .between) := by decide
  have stop : run .between [';', '\n'] = some ([.mark ';'], .between) := by decide
  have all := run_append_eq_some indent (run_append_eq_some (readEnd _ edge.1.2 source)
    (run_append_eq_some arrow (run_append_eq_some (readEnd _ edge.2.2 target) stop)))
  rw [written, all]
  rfl

/-! ### The drawing -/

/-- A node as it is drawn. -/
def Node.drawn (node : Node) : String × List (String × String) :=
  (label node.name node.arity,
    [("fillcolor", if node.hasFacts then "lightblue" else "lightgray"), ("style", "filled")])

/-- An edge as it is drawn. -/
def drawnEdge (edge : (String × Nat) × (String × Nat)) : String × String :=
  (label edge.1.1 edge.1.2, label edge.2.1 edge.2.2)

/-- The drawing of a graph. -/
def drawing (graph : DependencyGraph) : Drawing where
  nodes := graph.nodes.map Node.drawn
  edges := graph.edges.map drawnEdge

variable {graph : DependencyGraph}

/-- The file up to its last node is read whatever is behind it. -/
theorem read?_dot (no_backslash : ∀ node ∈ graph.nodes, '\\' ∉ node.name.toList) :
    read? graph.dot =
      (lex ((graph.edges.flatMap fun edge => (edgeLine edge).toList ++ ['\n']) ++
        ['\x7d', '\n'])).bind fun tokens =>
          (parse [] tokens).map (Drawing.mk (graph.nodes.map Node.drawn) [] ++ ·) := by
  let settings : List (List Dot.Token) := [[.word "rankdir", .mark '=', .word "LR"],
    [.word "node", .mark '[', .word "shape", .mark '=', .word "box", .mark ',', .word "style",
      .mark '=', .word "rounded", .mark ']']]
  have headed : run .between heading = some ([.word "digraph", .word "hornlog", .mark '\x7b'] ++
      settings.flatMap (· ++ [.mark ';']), .between) := by decide
  have listed := run_flatMap fun node among => run_node (no_backslash node among)
  rw [read?, toList_dot, lex_append headed, lex_append listed]
  cases lex ((graph.edges.flatMap fun edge => (edgeLine edge).toList ++ ['\n']) ++
    ['\x7d', '\n']) with
  | none => rfl
  | some tokens =>
      have configured (rest : List Dot.Token) :
          parse [] (settings.flatMap (· ++ [.mark ';']) ++ rest) =
            (parse [] rest).map (Drawing.mk [] [] ++ ·) :=
        @parse_flatMap (List Dot.Token) settings id (fun _ => {}) (by decide) (by decide) rest
      have drawn : parse [] ((graph.nodes.flatMap fun node => node.statement ++ [.mark ';']) ++
          tokens) = (parse [] tokens).map (Drawing.mk (graph.nodes.map Node.drawn) [] ++ ·) :=
        parse_nodes (by simp [Node.statement, Dot.Token.isInner]) (fun _ _ => rfl) tokens
      show parse [] (settings.flatMap (· ++ [.mark ';']) ++
        ((graph.nodes.flatMap fun node => node.statement ++ [.mark ';']) ++ tokens)) = _
      rw [configured, drawn, Option.map_map]
      rfl

/-- A file in which no edge has a quotation mark at its ends says what is
drawn. -/
theorem read?_dot_of_no_marks (nodes : ∀ node ∈ graph.nodes, '\\' ∉ node.name.toList)
    (edges : ∀ edge ∈ graph.edges, '\\' ∉ edge.1.1.toList ∧ '\\' ∉ edge.2.1.toList)
    (no_marks : ∀ edge ∈ graph.edges, '"' ∉ edge.1.1.toList ∧ '"' ∉ edge.2.1.toList) :
    read? graph.dot = some graph.drawing := by
  have each : ∀ edge ∈ graph.edges, run .between ((edgeLine edge).toList ++ ['\n']) =
      some (edgeStatement edge ++ [.mark ';'], .between) := fun edge among =>
    run_edge ⟨(edges edge among).1, (no_marks edge among).1⟩
      ⟨(edges edge among).2, (no_marks edge among).2⟩
  have ended : lex ['\x7d', '\n'] = some [.mark '\x7d'] := by decide
  have drawn : parse [] ((graph.edges.flatMap fun edge => edgeStatement edge ++ [.mark ';']) ++
      [.mark '\x7d']) = some (Drawing.mk [] (graph.edges.map drawnEdge) ++ {}) :=
    parse_edges (by simp [edgeStatement, Dot.Token.isInner]) (fun _ _ => rfl) [.mark '\x7d']
  rw [read?_dot nodes, lex_append (run_flatMap each), ended, Option.map_some, Option.bind_some,
    drawn]
  exact congrArg some (Drawing.ext (by simp [drawing]) (by simp [drawing]))

/-- An edge has no backslash in its line but those of its ends. -/
theorem not_mem_edgeLine {edge : (String × Nat) × (String × Nat)}
    (source : '\\' ∉ edge.1.1.toList) (target : '\\' ∉ edge.2.1.toList) :
    '\\' ∉ (edgeLine edge).toList := by
  simp [edgeLine, enclose, backslash_mem_label, source, target]

/-- A file that says what is drawn has no quotation mark at the end of an
edge. -/
theorem no_marks_of_read?_dot (nodes : ∀ node ∈ graph.nodes, '\\' ∉ node.name.toList)
    (edges : ∀ edge ∈ graph.edges, '\\' ∉ edge.1.1.toList ∧ '\\' ∉ edge.2.1.toList)
    (faithful : read? graph.dot = some graph.drawing) :
    ∀ edge ∈ graph.edges, '"' ∉ edge.1.1.toList ∧ '"' ∉ edge.2.1.toList := by
  rw [read?_dot nodes] at faithful
  obtain ⟨tokens, lexed, parsed⟩ := Option.bind_eq_some_iff.mp faithful
  obtain ⟨rest, parsed, whole⟩ := Option.map_eq_some_iff.mp parsed
  have no_backslash : '\\' ∉ (graph.edges.flatMap fun edge => (edgeLine edge).toList ++ ['\n']) ++
      ['\x7d', '\n'] := by
    simp only [List.mem_append, List.mem_flatMap, not_or, not_exists, not_and]
    refine ⟨fun edge among => ⟨?_, by decide⟩, by decide⟩
    exact not_mem_edgeLine (edges edge among).1 (edges edge among).2
  have named : ∀ t ∈ [] ++ tokens, ∀ name, t.id? = some name → '"' ∉ name.toList :=
    unmarked_lex no_backslash lexed
  have unmarked := of_mem_parse_edges (P := fun name => '"' ∉ name.toList) named parsed
  have same : rest.edges = graph.edges.map drawnEdge := congrArg Drawing.edges whole
  intro edge among
  have ends := unmarked (drawnEdge edge) (same ▸ List.mem_map_of_mem among)
  rwa [drawnEdge, mark_mem_label, mark_mem_label] at ends

end DependencyGraph

/-! ### The file of a store -/

namespace Store

/-- The predicates of each rule with those of its body, rule by rule, as often
as they occur. -/
def dependencies (store : Store) : List ((String × Nat) × (String × Nat)) :=
  store.rules.flatMap fun r => r.body.map fun a => (signature r.head, signature a)

/-- What the file of a store should say: its predicates, in their order and
filled according to whether there are facts, and an edge for each dependency
where it is first met. -/
def drawing (store : Store) : Dot.Drawing where
  nodes := store.predicates.map fun s => (label s.1 s.2,
    [("fillcolor", if ∃ a ∈ store.facts, signature a = s then "lightblue" else "lightgray"),
      ("style", "filled")])
  edges := store.dependencies.eraseDups.map fun e => (label e.1.1 e.1.2, label e.2.1 e.2.2)

variable {store : Store}

/-- The edges are listed once each, by first appearance. -/
theorem edges_dependencyGraph (store : Store) :
    store.dependencyGraph.edges = store.dependencies.eraseDups :=
  foldl_including_nil _

/-- A predicate depends on another one if that stands in the body of one of its
rules. -/
theorem mem_dependencies {e : (String × Nat) × (String × Nat)} :
    e ∈ store.dependencies ↔
      ∃ r ∈ store.rules, ∃ a ∈ r.body, (signature r.head, signature a) = e := by
  simp only [dependencies, List.mem_flatMap, List.mem_map]

/-- What is to be drawn of a store is the drawing of its dependency graph. -/
theorem drawing_dependencyGraph (store : Store) :
    store.dependencyGraph.drawing = store.drawing := by
  refine Dot.Drawing.ext ?_ ?_
  · simp only [DependencyGraph.drawing, dependencyGraph, drawing, List.map_map]
    refine List.map_congr_left fun s _ => ?_
    simp [Node.drawn]
  · rw [DependencyGraph.drawing, edges_dependencyGraph]
    rfl

/-- Different predicates have different labels. -/
theorem label_injective : Function.Injective fun s : String × Nat => label s.1 s.2 :=
  fun _ _ same => Prod.ext_iff.mpr (label_inj.mp same)

/-- No node and no edge is to be drawn twice. -/
theorem nodup_drawing (store : Store) :
    (store.drawing.nodes.map Prod.fst).Nodup ∧ store.drawing.edges.Nodup := by
  constructor
  · rw [drawing, List.map_map]
    exact store.nodup_predicates.map label_injective
  · have once : store.dependencies.eraseDups.Nodup := by
      rw [← foldl_including_nil]
      exact nodup_foldl_including List.nodup_nil _
    refine once.map fun e e' same => ?_
    obtain ⟨source, target⟩ := Prod.ext_iff.mp same
    exact Prod.ext (label_injective source) (label_injective target)

/-- The file of a store says what it should exactly when no rule leads from a
predicate to another one with a quotation mark in either name. -/
theorem dot_faithful_iff
    (no_backslash : ∀ c ∈ store.clauses, ∀ a ∈ c.head :: c.body, '\\' ∉ a.predicate.name.toList) :
    (Dot.read? store.dependencyGraph.dot = some store.drawing ↔
      ∀ r ∈ store.rules, ∀ a ∈ r.body,
        '"' ∉ r.head.predicate.name.toList ∧ '"' ∉ a.predicate.name.toList) ∧
      (store.drawing.nodes.map Prod.fst).Nodup ∧ store.drawing.edges.Nodup ∧
      ∀ s s' : String × Nat, label s.1 s.2 = label s'.1 s'.2 ↔ s = s' := by
  have inRule {r : Rule} (stored : r ∈ store.rules) : Clause.rule r ∈ store.clauses :=
    List.mem_append_right _ (List.mem_map_of_mem stored)
  have edge {P : (String × Nat) × (String × Nat) → Prop} :
      (∀ e ∈ store.dependencyGraph.edges, P e) ↔
        ∀ r ∈ store.rules, ∀ a ∈ r.body, P (signature r.head, signature a) := by
    rw [edges_dependencyGraph]
    simp only [List.mem_eraseDups, mem_dependencies]
    constructor
    · intro each r stored a among
      exact each _ ⟨r, stored, a, among, rfl⟩
    · rintro each _ ⟨r, stored, a, among, rfl⟩
      exact each r stored a among
  have nodes : ∀ node ∈ store.dependencyGraph.nodes, '\\' ∉ node.name.toList := by
    intro node among
    obtain ⟨s, defined, rfl⟩ := List.mem_map.mp among
    obtain ⟨c, stored, rfl⟩ := mem_predicates.mp defined
    exact no_backslash c stored c.head List.mem_cons_self
  have edges : ∀ e ∈ store.dependencyGraph.edges,
      '\\' ∉ e.1.1.toList ∧ '\\' ∉ e.2.1.toList := by
    refine edge.mpr fun r stored a among => ⟨?_, ?_⟩
    · exact no_backslash _ (inRule stored) r.head List.mem_cons_self
    · exact no_backslash _ (inRule stored) a (List.mem_cons_of_mem _ among)
  refine ⟨?_, store.nodup_drawing.1, store.nodup_drawing.2, fun s s' => label_injective.eq_iff⟩
  rw [← drawing_dependencyGraph]
  constructor
  · intro faithful
    exact edge.mp (no_marks_of_read?_dot nodes edges faithful)
  · intro no_marks
    exact read?_dot_of_no_marks nodes edges (edge.mpr no_marks)

/-- Quotation marks do no harm in a name that is at no end of an edge. -/
theorem dot_faithful_iff_quoted :
    let p : Predicate := ⟨0, "p"⟩
    let q : Predicate := ⟨1, "say \"q\""⟩
    let store : Store := { facts := [⟨q, []⟩, ⟨p, []⟩], rules := [⟨⟨p, []⟩, [⟨p, []⟩, ⟨p, []⟩]⟩] }
    (∀ c ∈ store.clauses, ∀ a ∈ c.head :: c.body, '\\' ∉ a.predicate.name.toList) ∧
      Dot.read? store.dependencyGraph.dot = some
        { nodes := [("say \"q\"/0", [("fillcolor", "lightblue"), ("style", "filled")]),
            ("p/0", [("fillcolor", "lightblue"), ("style", "filled")])],
          edges := [("p/0", "p/0")] } := by
  intro p q store
  have plain : ∀ c ∈ store.clauses, ∀ a ∈ c.head :: c.body,
      '\\' ∉ a.predicate.name.toList := by decide
  have faithful := (dot_faithful_iff plain).1.mpr (by decide)
  exact ⟨plain, faithful.trans (by decide)⟩

/-- With a quotation mark in the name of its head, a rule makes a file that
cannot be read. -/
theorem unreadable_edge :
    let p : Predicate := ⟨0, "a\"b"⟩
    let q : Predicate := ⟨1, "c"⟩
    let store : Store := { rules := [⟨⟨p, []⟩, [⟨q, []⟩]⟩] }
    (∀ c ∈ store.clauses, ∀ a ∈ c.head :: c.body, '\\' ∉ a.predicate.name.toList) ∧
      store.drawing.edges = [("a\"b/0", "c/0")] ∧ Dot.read? store.dependencyGraph.dot = none :=
  ⟨by decide, by decide, by decide +kernel⟩

end Store

end Resolvent
