/-
# Reading the graph language

What a written graph says is told by a reader that knows nothing of how it was
written. It reads that part of the language in which graphs are listed
statement by statement: identifiers, which are words or stand between quotation
marks, nodes with attributes, edges from one node to the next. Not read are
comments, subgraphs and ports.

The characters are read one at a time, by a machine whose modes say how far a
token has come. So one text is read behind another from the mode in which the
first one leaves the machine, and whatever is put together from texts is read
piece by piece. Statements are read in the same way, up to the semicolon behind
each.

Between quotation marks a backslash in front of a mark makes the mark a part of
the text. There is no other way to get one into an identifier, so what is read
from a text without backslashes has no quotation marks in it.
-/

import Mathlib.Data.List.Basic
import Resolvent.Graph.Dot

namespace Resolvent.Dot

/-! ### Tokens -/

/-- The tokens of a file. -/
inductive Token
  | word (text : String)
  | quoted (text : String)
  | mark (c : Char)
  deriving DecidableEq

/-- What a token names, if it is an identifier. Whether it stands between
quotation marks makes no difference to that. -/
def Token.id? : Token → Option String
  | .word text => some text
  | .quoted text => some text
  | .mark _ => none

/-- How far the token has come that is being read. What has been read of it is
kept with the last character first. -/
inductive Mode
  | between
  | word (read : List Char)
  | quoted (read : List Char)
  /-- Behind a backslash between quotation marks. -/
  | escaping (read : List Char)
  deriving DecidableEq

/-- Whether a character may stand in a word. -/
def isWordCharacter (c : Char) : Bool :=
  c.isAlphanum || c = '_' || 0x80 ≤ c.toNat

/-- Whether a character is a token of its own. -/
def isMark (c : Char) : Bool :=
  c ∈ ['\x7b', '\x7d', '[', ']', '=', ';', ',', '-', '>']

/-- Read the first character of a token, or a blank. -/
def first (c : Char) : Option (List Token × Mode) :=
  if c = '"' then some ([], .quoted [])
  else if c.isWhitespace then some ([], .between)
  else if isWordCharacter c then some ([], .word [c])
  else if isMark c then some ([.mark c], .between)
  else none

/-- Read one character. A backslash between quotation marks stands for itself,
except in front of a mark and at the end of a line. -/
def step : Mode → Char → Option (List Token × Mode)
  | .between, c => first c
  | .word read, c =>
    if isWordCharacter c then some ([], .word (c :: read))
    else (first c).map fun (tokens, mode) =>
      (.word (String.ofList read.reverse) :: tokens, mode)
  | .quoted read, c =>
    if c = '"' then some ([.quoted (String.ofList read.reverse)], .between)
    else if c = '\\' then some ([], .escaping read)
    else some ([], .quoted (c :: read))
  | .escaping read, c =>
    if c = '"' then some ([], .quoted ('"' :: read))
    else if c = '\n' then some ([], .quoted read)
    else some ([], .quoted (c :: '\\' :: read))

/-- Read characters from the first one on. -/
def run : Mode → List Char → Option (List Token × Mode)
  | mode, [] => some ([], mode)
  | mode, c :: rest => (step mode c).bind fun begun =>
    (run begun.2 rest).map fun others => (begun.1 ++ others.1, others.2)

/-- What the end of a file makes of the token that is being read. -/
def finish : Mode → Option (List Token)
  | .between => some []
  | .word read => some [.word (String.ofList read.reverse)]
  | .quoted _ | .escaping _ => none

/-- The tokens of a text. -/
def lex (text : List Char) : Option (List Token) :=
  (run .between text).bind fun out => (finish out.2).map (out.1 ++ ·)

/-! ### Statements -/

/-- What a file lists: nodes with their attributes, and edges. -/
@[ext]
structure Drawing where
  nodes : List (String × List (String × String)) := []
  edges : List (String × String) := []
  deriving DecidableEq

instance : Append Drawing where
  append d e := ⟨d.nodes ++ e.nodes, d.edges ++ e.edges⟩

/-- Attributes up to the bracket behind them. -/
def attributes? : List Token → Option (List (String × String))
  | [key, .mark '=', value, .mark ']'] => do
    return [(← key.id?, ← value.id?)]
  | key :: .mark '=' :: value :: .mark ',' :: rest => do
    return (← key.id?, ← value.id?) :: (← attributes? rest)
  | _ => none

/-- The nodes to which arrows lead. -/
def targets? : List Token → Option (List String)
  | [] => some []
  | .mark '-' :: .mark '>' :: node :: rest => do
    return (← node.id?) :: (← targets? rest)
  | _ => none

/-- What a statement adds to the drawing. A setting adds nothing, nor do the
attributes that nodes or edges have unless they have others. -/
def statement? : List Token → Option Drawing
  | [] => some {}
  | [key, .mark '=', value] => do
    let _ ← key.id?
    let _ ← value.id?
    return {}
  | node :: .mark '[' :: rest => do
    let name ← node.id?
    let attributes ← attributes? rest
    if node ∈ [.word "node", .word "edge", .word "graph"] then return {}
    return { nodes := [(name, attributes)] }
  | node :: rest => do
    let name ← node.id?
    let targets ← targets? rest
    if targets = [] then return { nodes := [(name, [])] }
    return { edges := (name :: targets).zip targets }

/-- Read statements up to the end of the file. What has been read of the
current one is kept with the last token first. -/
def parse : List Token → List Token → Option Drawing
  | _, [] => none
  | read, t :: rest =>
    if t = .mark ';' then do
      let statement ← statement? read.reverse
      let others ← parse [] rest
      return statement ++ others
    else if t = .mark '\x7d' then if rest = [] then statement? read.reverse else none
    else parse (t :: read) rest

/-- The drawing in a file. -/
def read? (text : String) : Option Drawing := do
  match ← lex text.toList with
  | .word "digraph" :: name :: .mark '\x7b' :: body =>
    let _ ← name.id?
    parse [] body
  | _ => none

/-! ### Texts read one behind another -/

variable {mode mode' : Mode} {text rest : List Char} {tokens more : List Token}

/-- Reading can be interrupted at any place and taken up in the mode that has
been reached. -/
theorem run_append (read : run mode text = some (tokens, mode')) (rest : List Char) :
    run mode (text ++ rest) = (run mode' rest).map fun out => (tokens ++ out.1, out.2) := by
  induction text generalizing mode tokens with
  | nil =>
      obtain ⟨rfl, rfl⟩ := Prod.mk.inj (Option.some.inj read)
      simp
  | cons c text ih =>
      obtain ⟨begun, stepped, going⟩ := Option.bind_eq_some_iff.mp read
      obtain ⟨others, done, out⟩ := Option.map_eq_some_iff.mp going
      obtain ⟨rfl, rfl⟩ := Prod.mk.inj out
      rw [List.cons_append, run, stepped, Option.bind_some, ih done, Option.map_map]
      simp [Function.comp_def]

/-- What is read in two parts is read as a whole. -/
theorem run_append_eq_some {mode'' : Mode} (read : run mode text = some (tokens, mode'))
    (read' : run mode' rest = some (more, mode'')) :
    run mode (text ++ rest) = some (tokens ++ more, mode'') := by
  rw [run_append read, read']
  rfl

/-- Texts that are read from token to token are read one behind another. -/
theorem run_flatMap {α : Type} {items : List α} {text : α → List Char} {tokens : α → List Token}
    (each : ∀ a ∈ items, run .between (text a) = some (tokens a, .between)) :
    run .between (items.flatMap text) = some (items.flatMap tokens, .between) := by
  induction items with
  | nil => rfl
  | cons a items ih =>
      rw [List.forall_mem_cons] at each
      rw [List.flatMap_cons, List.flatMap_cons]
      exact run_append_eq_some each.1 (ih each.2)

/-- Tokens that are complete can be cut off at the front. -/
theorem lex_append (read : run .between text = some (tokens, .between)) (rest : List Char) :
    lex (text ++ rest) = (lex rest).map (tokens ++ ·) := by
  rw [lex, run_append read, lex]
  cases run .between rest with
  | none => rfl
  | some out => cases h : finish out.2 <;> simp [h]

/-- Between quotation marks an escaped text is read back character by
character. -/
theorem run_quoted (read : List Char) (no_backslash : '\\' ∉ text) :
    run (.quoted read) (text.flatMap fun c => if c = '"' then ['\\', '"'] else [c]) =
      some ([], .quoted (text.reverse ++ read)) := by
  induction text generalizing read with
  | nil => rfl
  | cons c text ih =>
      rw [List.mem_cons, not_or] at no_backslash
      have front : run (.quoted read) (if c = '"' then ['\\', '"'] else [c]) =
          some ([], .quoted (c :: read)) := by
        by_cases mark : c = '"'
        · subst mark
          rfl
        · simp [run, step, mark, Ne.symm no_backslash.1]
      rw [List.flatMap_cons, List.reverse_cons, List.append_assoc]
      exact run_append_eq_some front (ih (c :: read) no_backslash.2)

/-- An escaped text between quotation marks is read as it was. -/
theorem run_enclosed {text : String} (no_backslash : '\\' ∉ text.toList) :
    run .between (DependencyGraph.enclose (DependencyGraph.escapeMarks text)).toList =
      some ([.quoted text], .between) := by
  have written : (DependencyGraph.enclose (DependencyGraph.escapeMarks text)).toList =
      ['"'] ++ ((text.toList.flatMap fun c => if c = '"' then ['\\', '"'] else [c]) ++ ['"']) := by
    simp [DependencyGraph.enclose, DependencyGraph.escapeMarks]
  have opened : run .between ['"'] = some ([], .quoted []) := rfl
  have closed : run (.quoted (text.toList.reverse ++ [])) ['"'] =
      some ([.quoted text], .between) := by
    simp [run, step]
  rw [written]
  exact run_append_eq_some opened (run_append_eq_some (run_quoted [] no_backslash) closed)

example : run .between "\"a\\\"b\"".toList = some ([.quoted "a\"b"], .between) := by
  decide +kernel

/-! ### Texts without backslashes -/

/-- What a token names has no quotation mark in it. -/
def Token.Unmarked (t : Token) : Prop :=
  ∀ name, t.id? = some name → '"' ∉ name.toList

/-- What has been read of a token has no quotation mark in it, nor will the
next character make one a part of it. -/
def Mode.Unmarked : Mode → Prop
  | .between => True
  | .word read | .quoted read => '"' ∉ read
  | .escaping _ => False

/-- A token that is named by what has been read has no quotation mark in it
either. -/
theorem unmarked_of_id? {t : Token} {read : List Char} (unmarked : '"' ∉ read)
    (named : t.id? = some (String.ofList read.reverse)) : t.Unmarked := by
  intro name id
  obtain rfl := Option.some.inj (named.symm.trans id)
  simpa using unmarked

/-- A character that begins a token does not bring in a quotation mark. -/
theorem unmarked_first {c : Char} (read : first c = some (tokens, mode)) :
    (∀ t ∈ tokens, t.Unmarked) ∧ mode.Unmarked := by
  have blank : ∀ t ∈ ([] : List Token), t.Unmarked := by simp
  unfold first at read
  split at read
  · cases read
    exact ⟨blank, List.not_mem_nil⟩
  · next no_mark =>
    split at read
    · cases read
      exact ⟨blank, trivial⟩
    · split at read
      · cases read
        exact ⟨blank, by simpa [Mode.Unmarked] using Ne.symm no_mark⟩
      · split at read
        · cases read
          refine ⟨?_, trivial⟩
          rintro t ⟨⟩
          · nofun
          · contradiction
        · cases read

/-- Without backslashes no character brings a quotation mark into a token. -/
theorem unmarked_step {c : Char} (h : mode.Unmarked) (no_backslash : c ≠ '\\')
    (read : step mode c = some (tokens, mode')) :
    (∀ t ∈ tokens, t.Unmarked) ∧ mode'.Unmarked := by
  cases mode with
  | between => exact unmarked_first read
  | word begun =>
      rw [step] at read
      split at read
      · next inWord =>
        cases read
        have no_mark : c ≠ '"' := by
          rintro rfl
          exact absurd inWord (by decide)
        refine ⟨by simp, ?_⟩
        rw [Mode.Unmarked, List.mem_cons, not_or]
        exact ⟨no_mark.symm, h⟩
      · obtain ⟨⟨more, last⟩, begins, out⟩ := Option.map_eq_some_iff.mp read
        obtain ⟨rfl, rfl⟩ := Prod.mk.inj out
        obtain ⟨others, unmarked⟩ := unmarked_first begins
        exact ⟨List.forall_mem_cons.mpr ⟨unmarked_of_id? h rfl, others⟩, unmarked⟩
  | quoted begun =>
      rw [step, if_neg no_backslash] at read
      split at read
      · cases read
        exact ⟨List.forall_mem_singleton.mpr (unmarked_of_id? h rfl), trivial⟩
      · next no_mark =>
        cases read
        refine ⟨by simp, ?_⟩
        rw [Mode.Unmarked, List.mem_cons, not_or]
        exact ⟨Ne.symm no_mark, h⟩
  | escaping begun => exact h.elim

/-- Without backslashes no text brings a quotation mark into a token. -/
theorem unmarked_run (h : mode.Unmarked) (no_backslash : '\\' ∉ text)
    (read : run mode text = some (tokens, mode')) :
    (∀ t ∈ tokens, t.Unmarked) ∧ mode'.Unmarked := by
  induction text generalizing mode tokens with
  | nil =>
      obtain ⟨rfl, rfl⟩ := Prod.mk.inj (Option.some.inj read)
      exact ⟨by simp, h⟩
  | cons c text ih =>
      rw [List.mem_cons, not_or] at no_backslash
      obtain ⟨begun, stepped, going⟩ := Option.bind_eq_some_iff.mp read
      obtain ⟨others, done, out⟩ := Option.map_eq_some_iff.mp going
      obtain ⟨rfl, rfl⟩ := Prod.mk.inj out
      obtain ⟨before, middle⟩ := unmarked_step h (Ne.symm no_backslash.1) stepped
      obtain ⟨behind, last⟩ := ih middle no_backslash.2 done
      exact ⟨List.forall_mem_append.mpr ⟨before, behind⟩, last⟩

/-- Without a backslash there is no quotation mark in an identifier. -/
theorem unmarked_lex (no_backslash : '\\' ∉ text) (read : lex text = some tokens) :
    ∀ t ∈ tokens, t.Unmarked := by
  obtain ⟨⟨begun, last⟩, run, ending⟩ := Option.bind_eq_some_iff.mp read
  obtain ⟨more, finished, rfl⟩ := Option.map_eq_some_iff.mp ending
  obtain ⟨before, unmarked⟩ :=
    unmarked_run (show Mode.between.Unmarked from trivial) no_backslash run
  refine List.forall_mem_append.mpr ⟨before, ?_⟩
  cases last with
  | between =>
      cases finished
      simp
  | word read =>
      cases finished
      exact List.forall_mem_singleton.mpr (unmarked_of_id? unmarked rfl)
  | quoted read => cases finished
  | escaping read => cases finished

/-! ### Statements one behind another -/

@[simp] theorem append_nodes (d e : Drawing) : (d ++ e).nodes = d.nodes ++ e.nodes := rfl

@[simp] theorem append_edges (d e : Drawing) : (d ++ e).edges = d.edges ++ e.edges := rfl

/-- Whether a token can stand within a statement. -/
def Token.isInner (t : Token) : Bool :=
  t ≠ .mark ';' && t ≠ .mark '\x7d'

variable {statement rest read : List Token}

/-- A statement is read up to the semicolon behind it. -/
theorem parse_append (inner : ∀ t ∈ statement, t.isInner) (read rest : List Token) :
    parse read (statement ++ .mark ';' :: rest) =
      (statement? (read.reverse ++ statement)).bind fun d => (parse [] rest).map (d ++ ·) := by
  induction statement generalizing read with
  | nil =>
      rw [List.nil_append, parse, if_pos rfl, List.append_nil]
      cases statement? read.reverse <;> cases parse [] rest <;> rfl
  | cons t statement ih =>
      rw [List.forall_mem_cons, Token.isInner, Bool.and_eq_true, decide_eq_true_eq,
        decide_eq_true_eq] at inner
      rw [List.cons_append, parse, if_neg inner.1.1, if_neg inner.1.2, ih inner.2,
        List.reverse_cons, List.append_assoc, List.singleton_append]

/-- Statements that are read one by one are read one behind another. -/
theorem parse_flatMap {α : Type} {items : List α} {statement : α → List Token}
    {drawn : α → Drawing} (inner : ∀ a ∈ items, ∀ t ∈ statement a, t.isInner)
    (each : ∀ a ∈ items, statement? (statement a) = some (drawn a)) (rest : List Token) :
    parse [] ((items.flatMap fun a => statement a ++ [.mark ';']) ++ rest) =
      (parse [] rest).map (Drawing.mk (items.flatMap fun a => (drawn a).nodes)
        (items.flatMap fun a => (drawn a).edges) ++ ·) := by
  induction items with
  | nil =>
      rw [List.flatMap_nil, List.nil_append]
      cases parse [] rest <;> rfl
  | cons a items ih =>
      rw [List.forall_mem_cons] at inner each
      rw [List.flatMap_cons, List.append_assoc, List.append_assoc, List.singleton_append,
        parse_append inner.1, List.reverse_nil, List.nil_append, each.1, Option.bind_some,
        ih inner.2 each.2, Option.map_map]
      refine congrArg (Option.map · _) (funext fun d => ?_)
      exact Drawing.ext (by simp) (by simp)

/-- Statements for nodes are read as these nodes, in their order. -/
theorem parse_nodes {α : Type} {items : List α} {statement : α → List Token}
    {drawn : α → String × List (String × String)}
    (inner : ∀ a ∈ items, ∀ t ∈ statement a, t.isInner)
    (each : ∀ a ∈ items, statement? (statement a) = some { nodes := [drawn a] })
    (rest : List Token) :
    parse [] ((items.flatMap fun a => statement a ++ [.mark ';']) ++ rest) =
      (parse [] rest).map (Drawing.mk (items.map drawn) [] ++ ·) := by
  have noEdges : (items.flatMap fun _ => ([] : List (String × String))) = [] :=
    List.flatMap_eq_nil_iff.mpr fun _ _ => rfl
  rw [parse_flatMap inner each, List.map_eq_flatMap, noEdges]

/-- Statements for edges are read as these edges, in their order. -/
theorem parse_edges {α : Type} {items : List α} {statement : α → List Token}
    {drawn : α → String × String} (inner : ∀ a ∈ items, ∀ t ∈ statement a, t.isInner)
    (each : ∀ a ∈ items, statement? (statement a) = some { edges := [drawn a] })
    (rest : List Token) :
    parse [] ((items.flatMap fun a => statement a ++ [.mark ';']) ++ rest) =
      (parse [] rest).map (Drawing.mk [] (items.map drawn) ++ ·) := by
  have noNodes : (items.flatMap fun _ => ([] : List (String × List (String × String)))) = [] :=
    List.flatMap_eq_nil_iff.mpr fun _ _ => rfl
  rw [parse_flatMap inner each, List.map_eq_flatMap, noNodes]

/-! ### Edges lead between what is named -/

section

variable {P : String → Prop} {d : Drawing}

/-- The ends of an edge are named by its tokens. -/
theorem of_mem_targets? {names : List String}
    (named : ∀ t ∈ statement, ∀ name, t.id? = some name → P name)
    (read : targets? statement = some names) : ∀ name ∈ names, P name := by
  induction statement using targets?.induct generalizing names with
  | case1 =>
      obtain rfl := Option.some.inj read
      simp
  | case2 node rest ih =>
      obtain ⟨name, id, others⟩ := Option.bind_eq_some_iff.mp read
      obtain ⟨more, led, out⟩ := Option.bind_eq_some_iff.mp others
      cases out
      refine List.forall_mem_cons.mpr ⟨named node (by simp) name id, ih ?_ led⟩
      exact fun t among => named t (by simp [among])
  | case3 ts empty arrow =>
      rw [targets?] at read
      · cases read
      · exact empty
      · exact arrow

/-- The edges of a statement end where its tokens say. -/
theorem of_mem_statement?_edges (named : ∀ t ∈ statement, ∀ name, t.id? = some name → P name)
    (read : statement? statement = some d) : ∀ e ∈ d.edges, P e.1 ∧ P e.2 := by
  unfold statement? at read
  split at read
  · cases read
    simp
  · next key value =>
    obtain ⟨_, _, read⟩ := Option.bind_eq_some_iff.mp read
    obtain ⟨_, _, read⟩ := Option.bind_eq_some_iff.mp read
    cases read
    simp
  · next node rest _ =>
    obtain ⟨name, id, read⟩ := Option.bind_eq_some_iff.mp read
    obtain ⟨attributes, _, read⟩ := Option.bind_eq_some_iff.mp read
    split at read <;> cases read <;> simp
  · next node rest _ _ =>
    obtain ⟨name, id, read⟩ := Option.bind_eq_some_iff.mp read
    obtain ⟨names, led, read⟩ := Option.bind_eq_some_iff.mp read
    split at read
    · cases read
      simp
    · cases read
      have targets : ∀ name ∈ names, P name :=
        of_mem_targets? (fun t among => named t (List.mem_cons_of_mem _ among)) led
      have sources : ∀ source ∈ name :: names, P source :=
        List.forall_mem_cons.mpr ⟨named node List.mem_cons_self name id, targets⟩
      intro e among
      obtain ⟨source, target⟩ := List.of_mem_zip among
      exact ⟨sources _ source, targets _ target⟩

/-- The edges of a text end where its tokens say. -/
theorem of_mem_parse_edges {tokens : List Token}
    (named : ∀ t ∈ read ++ tokens, ∀ name, t.id? = some name → P name)
    (parsed : parse read tokens = some d) : ∀ e ∈ d.edges, P e.1 ∧ P e.2 := by
  induction tokens generalizing read d with
  | nil => cases parsed
  | cons t rest ih =>
      have namedRead : ∀ t ∈ read.reverse, ∀ name, t.id? = some name → P name :=
        fun t among => named t (List.mem_append_left _ (List.mem_reverse.mp among))
      rw [parse] at parsed
      split at parsed
      · obtain ⟨drawn, stated, following⟩ := Option.bind_eq_some_iff.mp parsed
        obtain ⟨others, behind, out⟩ := Option.bind_eq_some_iff.mp following
        cases out
        have namedRest : ∀ t ∈ [] ++ rest, ∀ name, t.id? = some name → P name :=
          fun t among => named t (List.mem_append_right _ (List.mem_cons_of_mem _ among))
        rw [append_edges, List.forall_mem_append]
        exact ⟨of_mem_statement?_edges namedRead stated, ih namedRest behind⟩
      · split at parsed
        · split at parsed
          · exact of_mem_statement?_edges namedRead parsed
          · cases parsed
        · refine ih (fun t' among => named t' ?_) parsed
          rw [List.mem_append, List.mem_cons] at among
          rw [List.mem_append, List.mem_cons]
          rcases among with (rfl | inRead) | inRest
          · exact .inr (.inl rfl)
          · exact .inl inRead
          · exact .inr (.inr inRest)

end

end Resolvent.Dot
