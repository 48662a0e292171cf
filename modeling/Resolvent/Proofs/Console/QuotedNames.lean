/-
# Files named in quotation marks

To consult files one types their names between brackets, or in a call of
`consult`, and quotation marks around a name look as if anything could stand
between them. That is so for brackets, parentheses, full stops and blanks,
because what encloses the names is looked for at the two ends of the line and
nowhere else. It is not so for commas. The names are divided at the commas
before the quotation marks are looked at, so a name with commas in it is taken
for several names, and each of them loses the blanks at its ends.

What is consulted is said here for all names, with commas or without. How many
paths there are decides when they are the names: every comma in a name makes
one more path than there are names.
-/

import Resolvent.Proofs.Console.Sessions
import Resolvent.Proofs.Text.Parts

namespace Resolvent

namespace Command

/-- Whether a character is a quotation mark. -/
def isQuotationMark (c : Char) : Bool :=
  c = '\'' || c = '"'

/-- A name without quotation marks, on a single line, and without blanks at its
ends. -/
structure Quotable (name : String) : Prop where
  unmarked : ∀ c ∈ name.toList, ¬ isQuotationMark c
  oneLine : '\n' ∉ name.toList
  stripped : Text.strip name.toList = name.toList

/-- A name between quotation marks. -/
def inQuotes (name : String) : String :=
  "'" ++ name ++ "'"

/-- The line that asks for files by their names between brackets. -/
def bracketed (names : List String) : String :=
  "[" ++ Text.listed (names.map inQuotes) ++ "]."

/-- The line that asks for files by a call of `consult`. -/
def called (names : List String) : String :=
  "consult(" ++ Text.listed (names.map inQuotes) ++ ")."

/-- The parts of a name between its commas, without the blanks at their
ends. -/
def pieces (name : String) : List String :=
  (Text.parts ',' name.toList).map fun part => String.ofList (Text.strip part)

/-! ### One name -/

section Ends

variable {P : Char → Prop} {front back text : List Char}

private theorem head?_append_of (hf : ∀ c ∈ front.head?, P c) (hb : ∀ c ∈ back.head?, P c) :
    ∀ c ∈ (front ++ back).head?, P c := by
  cases front with
  | nil => exact hb
  | cons c front => exact hf

private theorem getLast?_append_of (hf : ∀ c ∈ front.getLast?, P c)
    (hb : ∀ c ∈ back.getLast?, P c) : ∀ c ∈ (front ++ back).getLast?, P c := by
  intro c last
  rw [List.getLast?_append] at last
  cases ending : back.getLast? with
  | none => exact hf c (by simpa [ending] using last)
  | some d => exact hb c (by simpa [ending] using last)

end Ends

/-- A quotation mark is no blank, so a quoted name keeps its blanks. -/
theorem not_isBlank_of_isQuotationMark {c : Char} (h : isQuotationMark c) : ¬ Text.isBlank c := by
  rw [isQuotationMark, Bool.or_eq_true, decide_eq_true_eq, decide_eq_true_eq] at h
  rcases h with rfl | rfl <;> decide

variable {front back text : List Char}

/-- Of a name and quotation marks at its ends the name is left, without the
blanks at its ends. It does not have blanks there if there is a mark. -/
theorem fileName_eq (opening : ∀ c ∈ front, isQuotationMark c)
    (closing : ∀ c ∈ back, isQuotationMark c) (unmarked : ∀ c ∈ text, ¬ isQuotationMark c)
    (begins : front = [] ∨ ∀ c ∈ text.head?, ¬ Text.isBlank c)
    (ends : back = [] ∨ ∀ c ∈ text.getLast?, ¬ Text.isBlank c) :
    fileName (front ++ (text ++ back)) = String.ofList (Text.strip text) := by
  have first := Text.not_of_mem_head?_trimmed Text.isBlank text
  have last := Text.not_of_mem_getLast?_trimmed Text.isBlank text
  obtain ⟨left, right, before, behind, whole⟩ := Text.exists_trimmed Text.isBlank text
  rw [Text.strip]
  generalize Text.trimmed Text.isBlank text = name at first last whole
  subst whole
  -- Marks and blanks do not meet: at each end there are none of the ones or
  -- none of the others.
  have apart : front ++ ((left ++ (name ++ right)) ++ back) =
      left ++ ((front ++ (name ++ back)) ++ right) := by
    have inFront : front = [] ∨ left = [] := begins.imp_right (Text.eq_nil_of_head? before)
    have inBack : back = [] ∨ right = [] := ends.imp_right fun ends => by
      rw [← List.append_assoc] at ends
      exact Text.eq_nil_of_getLast? behind ends
    rcases inFront with rfl | rfl <;> rcases inBack with rfl | rfl <;> simp
  have kept : Text.strip (front ++ (name ++ back)) = front ++ (name ++ back) := by
    have mark {c : Char} : isQuotationMark c → ¬ Text.isBlank c := not_isBlank_of_isQuotationMark
    refine Text.trimmed_eq_self ?_ ?_
    · exact head?_append_of (fun c hc => mark (opening c (List.mem_of_head? hc)))
        (head?_append_of first fun c hc => mark (closing c (List.mem_of_head? hc)))
    · exact getLast?_append_of (fun c hc => mark (opening c (List.mem_of_getLast? hc)))
        (getLast?_append_of last fun c hc => mark (closing c (List.mem_of_getLast? hc)))
  have bare : ∀ c ∈ name, ¬ isQuotationMark c := fun c hc => unmarked c (by simp [hc])
  have unquoted : Text.trimmed isQuotationMark (front ++ (name ++ back)) = name := by
    rw [Text.trimmed_append opening closing]
    exact Text.trimmed_eq_self (fun c hc => bare c (List.mem_of_head? hc))
      fun c hc => bare c (List.mem_of_getLast? hc)
  rw [fileName, apart, Text.strip, Text.trimmed_append before behind, ← Text.strip, kept]
  exact congrArg String.ofList unquoted

/-- Blanks in front of a name do not count. -/
theorem fileName_cons {c : Char} (blank : Text.isBlank c) (text : List Char) :
    fileName (c :: text) = fileName text := by
  have dropped : Text.trimmed Text.isBlank ([c] ++ (text ++ [])) = Text.trimmed Text.isBlank text :=
    Text.trimmed_append (by simpa using blank) (by simp)
  rw [List.append_nil] at dropped
  rw [fileName, fileName, Text.strip, Text.strip, ← dropped]
  rfl

/-! ### Lists of names -/

/-- A name in quotation marks is divided where it is divided without them. -/
theorem map_fileName_parts (front : List Char) (opening : ∀ c ∈ front, isQuotationMark c)
    (unmarked : ∀ c ∈ text, ¬ isQuotationMark c)
    (begins : front = [] ∨ ∀ c ∈ text.head?, ¬ Text.isBlank c)
    (ends : ∀ c ∈ text.getLast?, ¬ Text.isBlank c) :
    (Text.parts ',' (front ++ (text ++ ['\'']))).map fileName =
      (Text.parts ',' text).map fun part => String.ofList (Text.strip part) := by
  have noComma {marks : List Char} (h : ∀ c ∈ marks, isQuotationMark c) : ',' ∉ marks :=
    fun comma => absurd (h ',' comma) (by decide)
  have closing : ∀ c ∈ ['\''], isQuotationMark c := by simp [isQuotationMark]
  induction text using Text.induction_at ',' generalizing front with
  | last text whole =>
      have undivided : ',' ∉ front ++ (text ++ ['\'']) := by
        simp [whole, noComma opening]
      rw [Text.parts_eq_singleton undivided, Text.parts_eq_singleton whole, List.map_singleton,
        List.map_singleton, fileName_eq opening closing unmarked begins (.inr ends)]
  | next text rest whole ih =>
      have undivided : ',' ∉ front ++ text := by
        simp [whole, noComma opening]
      have cut : front ++ ((text ++ ',' :: rest) ++ ['\'']) =
          (front ++ text) ++ ',' :: ([] ++ (rest ++ ['\''])) := by simp
      have inText : ∀ c ∈ text, ¬ isQuotationMark c := fun c hc => unmarked c (by simp [hc])
      have inRest : ∀ c ∈ rest, ¬ isQuotationMark c := fun c hc => unmarked c (by simp [hc])
      have name : fileName (front ++ (text ++ [])) = String.ofList (Text.strip text) := by
        refine fileName_eq opening (by simp) inText (begins.imp_right fun begins c hc => ?_)
          (.inl rfl)
        exact begins c (by rw [List.head?_append, hc]; rfl)
      have others := ih [] (by simp) inRest (.inl rfl) fun c hc => ends c (by
        rw [List.getLast?_append, List.getLast?_cons, hc]; rfl)
      rw [cut, Text.parts_append_cons, Text.parts_append_cons, Text.parts_eq_singleton undivided,
        Text.parts_eq_singleton whole, List.map_append, List.map_append, others, List.map_singleton,
        List.map_singleton, ← name, List.append_nil]

/-- A name in quotation marks is cut where it has a comma. -/
theorem map_fileName_parts_inQuotes {name : String} (quotable : Quotable name) :
    (Text.parts ',' (inQuotes name).toList).map fileName = pieces name := by
  have begins := Text.not_of_mem_head?_trimmed Text.isBlank name.toList
  have ends := Text.not_of_mem_getLast?_trimmed Text.isBlank name.toList
  rw [← Text.strip, quotable.stripped] at begins ends
  have quoted : (inQuotes name).toList = ['\''] ++ (name.toList ++ ['\'']) := by
    simp [inQuotes]
  rw [quoted, pieces]
  exact map_fileName_parts _ (by simp [isQuotationMark]) quotable.unmarked (.inr begins) ends

/-- Blanks in front of a list do not count. -/
theorem map_fileName_parts_cons {c : Char} (blank : Text.isBlank c) (text : List Char) :
    (Text.parts ',' (c :: text)).map fileName = (Text.parts ',' text).map fileName := by
  have noComma : c ≠ ',' := by
    rintro rfl
    exact absurd blank (by decide)
  induction text using Text.induction_at ',' with
  | last text whole =>
      have undivided : ',' ∉ c :: text := by simp [whole, noComma.symm]
      rw [Text.parts_eq_singleton undivided, Text.parts_eq_singleton whole, List.map_singleton,
        List.map_singleton, fileName_cons blank]
  | next text rest whole _ =>
      have undivided : ',' ∉ c :: text := by simp [whole, noComma.symm]
      rw [← List.cons_append, Text.parts_append_cons, Text.parts_append_cons,
        Text.parts_eq_singleton undivided, Text.parts_eq_singleton whole, List.map_append,
        List.map_append, List.map_singleton, List.map_singleton, fileName_cons blank]

/-- The paths that are read from a list of names in quotation marks. -/
theorem map_fileName_parts_listed {names : List String} (some : names ≠ [])
    (quotable : ∀ name ∈ names, Quotable name) :
    (Text.parts ',' (Text.listed (names.map inQuotes)).toList).map fileName =
      names.flatMap pieces := by
  induction names with
  | nil => exact absurd rfl some
  | cons name names ih =>
      rw [List.forall_mem_cons] at quotable
      rw [List.flatMap_cons, ← map_fileName_parts_inQuotes quotable.1]
      cases names with
      | nil => simp [Text.listed, Text.separated]
      | cons next names =>
          have listed : (Text.listed ((name :: next :: names).map inQuotes)).toList =
              (inQuotes name).toList ++
                ',' :: ' ' :: (Text.listed ((next :: names).map inQuotes)).toList := by
            simp [Text.listed, Text.separated]
          rw [listed, Text.parts_append_cons, List.map_append,
            map_fileName_parts_cons (by decide), ih (List.cons_ne_nil _ _) quotable.2]

/-- Every comma in a name makes one more path than there are names. -/
theorem length_flatMap_pieces (names : List String) :
    (names.flatMap pieces).length =
      names.length + (names.map fun name => name.toList.count ',').sum := by
  induction names with
  | nil => rfl
  | cons name names ih =>
      rw [List.flatMap_cons, List.length_append, ih, pieces, List.length_map, Text.length_parts,
        List.map_cons, List.sum_cons, List.length_cons]
      omega

/-- The paths are the names exactly when there are no commas in them. -/
theorem flatMap_pieces_eq_self_iff {names : List String}
    (quotable : ∀ name ∈ names, Quotable name) :
    names.flatMap pieces = names ↔ ∀ name ∈ names, ',' ∉ name.toList := by
  constructor
  · intro same name among comma
    have length := length_flatMap_pieces names
    rw [same] at length
    have counted : name.toList.count ',' ≤ (names.map fun name => name.toList.count ',').sum :=
      List.le_sum_of_mem (List.mem_map_of_mem among)
    have one := List.count_pos_iff.mpr comma
    omega
  · intro whole
    have each : ∀ name ∈ names, pieces name = [name] := by
      intro name among
      rw [pieces, Text.parts_eq_singleton (whole name among), List.map_singleton,
        (quotable name among).stripped, String.ofList_toList]
    rw [List.flatMap_congr each, List.flatMap_singleton']

/-! ### Lines -/

/-- What can enclose the names of files. -/
inductive Encloses : List Char → Char → Prop
  | brackets : Encloses ['['] ']'
  | call : Encloses "consult(".toList ')'

variable {opening inner : List Char} {closing : Char}

/-- What stands between brackets is found there, if it is a line and not
empty. -/
theorem enclosed?_append (nonempty : inner ≠ []) (oneLine : '\n' ∉ inner) (opening : List Char)
    (closing : Char) :
    enclosed? opening closing (opening ++ (inner ++ [closing])) = some inner := by
  simp [enclosed?, nonempty, oneLine]

/-- What is enclosed is consulted. -/
theorem Encloses.consulted? (encloses : Encloses opening closing) (nonempty : inner ≠ [])
    (oneLine : '\n' ∉ inner) : consulted? (opening ++ (inner ++ [closing])) = some inner := by
  have found := enclosed?_append nonempty oneLine opening closing
  cases encloses with
  | brackets => rw [Command.consulted?, found]; rfl
  | call =>
      have other : enclosed? ['['] ']' ("consult(".toList ++ (inner ++ [')'])) = none := by
        simp [enclosed?]
      rw [Command.consulted?, found, other]
      rfl

/-- A line is its text and a full stop, if there are no blanks at the ends of
the text. -/
theorem body_concat_stop (begins : ∀ c ∈ text.head?, ¬ Text.isBlank c)
    (ends : ∀ c ∈ text.getLast?, ¬ Text.isBlank c) : body (text ++ ['.']) = text := by
  have line : Text.strip (text ++ ['.']) = text ++ ['.'] := by
    refine Text.trimmed_eq_self (head?_append_of begins ?_) (getLast?_append_of ends ?_) <;>
      simp <;> decide
  have kept : Text.strip text = text := Text.trimmed_eq_self begins ends
  rw [body, line, List.getLast?_concat, if_pos rfl, List.dropLast_concat, kept]

/-- What is enclosed in a line of its own is consulted, whatever it is. -/
theorem Encloses.ofLine (encloses : Encloses opening closing) (nonempty : inner ≠ [])
    (oneLine : '\n' ∉ inner) :
    ofLine (String.ofList (opening ++ (inner ++ [closing]) ++ ['.'])) =
      .consult ((Text.parts ',' inner).map fileName) := by
  have last : (opening ++ (inner ++ [closing])).getLast? = some closing := by
    rw [← List.append_assoc, List.getLast?_concat]
  have body : body (opening ++ (inner ++ [closing]) ++ ['.']) =
      opening ++ (inner ++ [closing]) := by
    refine body_concat_stop ?_ fun c ending => ?_
    · cases encloses <;> simp <;> decide
    · obtain rfl := Option.some.inj (last.symm.trans ending)
      cases encloses <;> decide
  have noWord (word : String) (other : word.toList.getLast? ≠ some closing) :
      String.ofList (opening ++ (inner ++ [closing])) ≠ word := by
    rintro rfl
    exact other (by rw [String.toList_ofList, last])
  have consulted := encloses.consulted? nonempty oneLine
  have notHalt := noWord "halt" (by cases encloses <;> decide)
  have notQuit := noWord "quit" (by cases encloses <;> decide)
  have notExit := noWord "exit" (by cases encloses <;> decide)
  have notListing := noWord "listing" (by cases encloses <;> decide)
  unfold Command.ofLine
  dsimp only
  rw [String.toList_ofList, body, if_neg (by simp),
    if_neg (not_or.mpr ⟨notHalt, not_or.mpr ⟨notQuit, notExit⟩⟩), if_neg notListing, consulted]

/-- A list has no characters but those of its items, commas and blanks. -/
theorem mem_listed {c : Char} {items : List String} (h : c ∈ (Text.listed items).toList) :
    c = ',' ∨ c = ' ' ∨ ∃ item ∈ items, c ∈ item.toList := by
  induction items with
  | nil => cases h
  | cons item items ih =>
      cases items with
      | nil => exact .inr (.inr ⟨item, List.mem_cons_self, h⟩)
      | cons next items =>
          simp only [Text.listed, Text.separated, String.toList_append, List.mem_append] at h
          rcases h with (inItem | inSeparator) | inOthers
          · exact .inr (.inr ⟨item, List.mem_cons_self, inItem⟩)
          · have both : c = ',' ∨ c = ' ' := by simpa using inSeparator
            exact both.imp_right .inl
          · refine (ih inOthers).imp_right (.imp_right ?_)
            exact fun ⟨item', among, occurs⟩ => ⟨item', List.mem_cons_of_mem _ among, occurs⟩

/-- A list of names in quotation marks asks for the pieces of the names, in
order. -/
theorem ofLine_of_quotable {names : List String} {line : String} (some : names ≠ [])
    (quotable : ∀ name ∈ names, Quotable name)
    (typed : line = bracketed names ∨ line = called names) :
    ofLine line = .consult (names.flatMap pieces) := by
  have nonempty : (Text.listed (names.map inQuotes)).toList ≠ [] := by
    cases names with
    | nil => exact absurd rfl some
    | cons name names => cases names <;> simp [Text.listed, Text.separated, inQuotes]
  have oneLine : '\n' ∉ (Text.listed (names.map inQuotes)).toList := by
    intro broken
    rcases mem_listed broken with comma | blank | ⟨item, among, occurs⟩
    · cases comma
    · cases blank
    · obtain ⟨name, inNames, rfl⟩ := List.mem_map.mp among
      have inName : '\n' ∈ name.toList := by simpa [inQuotes] using occurs
      exact (quotable name inNames).oneLine inName
  have read (opening : List Char) (closing : Char) (encloses : Encloses opening closing) :
      ofLine (String.ofList opening ++ Text.listed (names.map inQuotes) ++
        String.ofList [closing, '.']) = .consult (names.flatMap pieces) := by
    rw [← map_fileName_parts_listed some quotable, ← encloses.ofLine nonempty oneLine]
    congr 1
    apply String.ext
    simp
  rcases typed with rfl | rfl
  · exact read _ _ .brackets
  · exact read _ _ .call

end Command

namespace Dialogue

open Command

variable {names : List String} {line : String} {d : Dialogue}

/-- On a list of names in quotation marks a session consults the pieces of the
names, one after the other in their order, as long as no file breaks it. These
are the names themselves exactly when there are no commas in them. -/
theorem consults_pieces (openFile : OpenFile) (effort : Effort) (some : names ≠ [])
    (quotable : ∀ name ∈ names, Quotable name)
    (typed : line = bracketed names ∨ line = called names) (ready : d.mode = .ready) :
    d.receive openFile effort (.line line) = d.consultAll openFile (names.flatMap pieces) ∧
      d.consults openFile (.line line) = openFile.tried (names.flatMap pieces) ∧
      (names.flatMap pieces = names ↔ ∀ name ∈ names, ',' ∉ name.toList) := by
  have command := ofLine_of_quotable some quotable typed
  refine ⟨?_, ?_, flatMap_pieces_eq_self_iff quotable⟩
  · simp only [receive, ready, command, obey]
  · simp only [consults, ready, command]

/-- A name with brackets and blanks in it, and one with a comma. -/
theorem consults_pieces_comma :
    let names := ["a [1].pl", "b, c.pl"]
    (∀ name ∈ names, Quotable name) ∧ bracketed names = "['a [1].pl', 'b, c.pl']." ∧
      names.flatMap pieces = ["a [1].pl", "b", "c.pl"] ∧
      ∀ (openFile : OpenFile) (effort : Effort),
        Dialogue.receive openFile effort { base := {} } (.line (bracketed names)) =
          Dialogue.consultAll openFile { base := {} } ["a [1].pl", "b", "c.pl"] := by
  intro names
  have quotable : ∀ name ∈ names, Quotable name := by
    intro name among
    rcases List.mem_pair.mp among with rfl | rfl <;> exact ⟨by simp [isQuotationMark], by simp, rfl⟩
  refine ⟨quotable, by decide, by decide, fun openFile effort => ?_⟩
  exact (consults_pieces openFile effort (by decide) quotable (.inl rfl) rfl).1

/-- A comma in the only name makes two paths of it, neither of which is the
name. -/
theorem comma_divides :
    Quotable "a,b.pl" ∧ bracketed ["a,b.pl"] = "['a,b.pl']." ∧
      called ["a,b.pl"] = "consult('a,b.pl')." ∧
      Command.ofLine "['a,b.pl']." = .consult ["a", "b.pl"] ∧
      Command.ofLine "consult('a,b.pl')." = .consult ["a", "b.pl"] :=
  ⟨⟨by simp [isQuotationMark], by simp, rfl⟩, by decide, by decide, by decide, by decide⟩

end Dialogue

end Resolvent
