import Resolvent.Binding
import Resolvent.Clause
import Resolvent.CommandLine.Inquiry
import Resolvent.CommandLine.Options
import Resolvent.CommandLine.PositiveInteger
import Resolvent.CommandLine.Run
import Resolvent.CommandLine.Setting
import Resolvent.CommandLine.World
import Resolvent.Console.Command
import Resolvent.Console.Dialogue
import Resolvent.Files.FileError
import Resolvent.Files.Path
import Resolvent.Files.Tree
import Resolvent.Graph.Dependency
import Resolvent.Graph.Dot
import Resolvent.KnowledgeBase
import Resolvent.Language.ParseError
import Resolvent.Language.Reading
import Resolvent.Language.Token
import Resolvent.Language.Vocabulary
import Resolvent.Listing
import Resolvent.Main
import Resolvent.Programs.Catalogue
import Resolvent.Programs.Family
import Resolvent.Programs.Lists
import Resolvent.Programs.Peano
import Resolvent.Programs.Sample
import Resolvent.Proofs.Clauses.Copies
import Resolvent.Proofs.Clauses.FirstAppearance
import Resolvent.Proofs.Clauses.Standardized
import Resolvent.Proofs.Clauses.Variants
import Resolvent.Proofs.Console.Consulting
import Resolvent.Proofs.Console.Endings
import Resolvent.Proofs.Console.QuotedNames
import Resolvent.Proofs.Console.SameAnswers
import Resolvent.Proofs.Console.Sessions
import Resolvent.Proofs.Graph.Drawings
import Resolvent.Proofs.Graph.Reader
import Resolvent.Proofs.Language.Acceptance
import Resolvent.Proofs.Language.Completion
import Resolvent.Proofs.Language.Concatenation
import Resolvent.Proofs.Language.Freshness
import Resolvent.Proofs.Language.Grammar
import Resolvent.Proofs.Language.Growth
import Resolvent.Proofs.Language.Histories
import Resolvent.Proofs.Language.Legibility
import Resolvent.Proofs.Language.LegibleTexts
import Resolvent.Proofs.Language.Lexemes
import Resolvent.Proofs.Language.Namesakes
import Resolvent.Proofs.Language.Phrases
import Resolvent.Proofs.Language.Pieces
import Resolvent.Proofs.Language.Places
import Resolvent.Proofs.Language.Recognition
import Resolvent.Proofs.Language.Relabelling
import Resolvent.Proofs.Language.Rereading
import Resolvent.Proofs.Language.RoundTrip
import Resolvent.Proofs.Language.Spelling
import Resolvent.Proofs.Language.Trimming
import Resolvent.Proofs.Programs.Chains
import Resolvent.Proofs.Programs.Family
import Resolvent.Proofs.Programs.Lines
import Resolvent.Proofs.Programs.Lists
import Resolvent.Proofs.Programs.Naturals
import Resolvent.Proofs.Programs.Peano
import Resolvent.Proofs.Search.Accounts
import Resolvent.Proofs.Search.Attempts
import Resolvent.Proofs.Search.Budget
import Resolvent.Proofs.Search.Completeness
import Resolvent.Proofs.Search.Correspondence
import Resolvent.Proofs.Search.Course
import Resolvent.Proofs.Search.Dereference
import Resolvent.Proofs.Search.Descent
import Resolvent.Proofs.Search.Eager
import Resolvent.Proofs.Search.Enumeration
import Resolvent.Proofs.Search.FunctionFree
import Resolvent.Proofs.Search.GoalOrder
import Resolvent.Proofs.Search.Independence
import Resolvent.Proofs.Search.LevelOrder
import Resolvent.Proofs.Search.LinearHeads
import Resolvent.Proofs.Search.Lockstep
import Resolvent.Proofs.Search.Modes
import Resolvent.Proofs.Search.MoreClauses
import Resolvent.Proofs.Search.ProofTrees
import Resolvent.Proofs.Search.Prospects
import Resolvent.Proofs.Search.Requests
import Resolvent.Proofs.Search.Resumption
import Resolvent.Proofs.Search.Run
import Resolvent.Proofs.Search.Schedules
import Resolvent.Proofs.Search.Selection
import Resolvent.Proofs.Search.Settling
import Resolvent.Proofs.Search.Soundness
import Resolvent.Proofs.Search.Telling
import Resolvent.Proofs.Search.Tree
import Resolvent.Proofs.Search.Unfoldings
import Resolvent.Proofs.Terms.Identity
import Resolvent.Proofs.Terms.Objects
import Resolvent.Proofs.Terms.Substitution
import Resolvent.Proofs.Terms.Variables
import Resolvent.Proofs.Text.Joined
import Resolvent.Proofs.Text.Numerals
import Resolvent.Proofs.Text.Parts
import Resolvent.Proofs.Unification.Derivation
import Resolvent.Proofs.Unification.Linear
import Resolvent.Proofs.Unification.Matching
import Resolvent.Proofs.Unification.MostGeneral
import Resolvent.Proofs.Unification.Occurrences
import Resolvent.Proofs.Unification.Renaming
import Resolvent.Proofs.Unification.Sharing
import Resolvent.Proofs.Unification.SolvedForm
import Resolvent.Proofs.Unification.Spines
import Resolvent.Proofs.Unification.Termination
import Resolvent.Proofs.Unification.Turning
import Resolvent.Proofs.Unification.Unifiers
import Resolvent.Proofs.Unification.Worklist
import Resolvent.Search.Answer
import Resolvent.Search.Pull
import Resolvent.Search.Query
import Resolvent.Search.Queue
import Resolvent.Search.Trace
import Resolvent.Store
import Resolvent.Symbol
import Resolvent.Term
import Resolvent.Text.Blank
import Resolvent.Text.Digit
import Resolvent.Text.Integer
import Resolvent.Text.Layout
import Resolvent.Text.Line
import Resolvent.Text.Printable
import Resolvent.Text.Quoted
import Resolvent.Text.Ranges
import Resolvent.Text.Uppercase
import Resolvent.Text.Utf8
import Resolvent.Unification
