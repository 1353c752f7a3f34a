import LoxLang.Main
import LoxLang.Program.Uses
import LoxLang.Proofs.Scoping.Occurrence
import LoxLang.Proofs.Scoping.Ties
import LoxLang.Proofs.Grammar.Reader
import LoxLang.Proofs.Grammar.Sites
import LoxLang.Proofs.Grammar.Signs
import LoxLang.Proofs.Token.Piece
import LoxLang.Proofs.Token.Bytes
import LoxLang.Proofs.Token.Scanner
import LoxLang.Proofs.Token.Scan
import LoxLang.Proofs.Token.Longest
import LoxLang.Proofs.Machine.Chain
import LoxLang.Proofs.Machine.Fits
import LoxLang.Proofs.Machine.Preservation
import LoxLang.Proofs.Machine.Safety
import LoxLang.Proofs.Machine.Table
import LoxLang.Proofs.Session.Safety
import LoxLang.Proofs.Lexical.Machine
import LoxLang.Proofs.Lexical.World
import LoxLang.Proofs.Lexical.Relation
import LoxLang.Proofs.Lexical.Operations
import LoxLang.Proofs.Lexical.Simulation
import LoxLang.Proofs.Session.Lexical
import LoxLang.Proofs.Machine.Renaming
import LoxLang.Proofs.Scoping.Renaming
import LoxLang.Proofs.Grammar.Passage
import LoxLang.Proofs.Grammar.Tracking
import LoxLang.Proofs.Session.Numbering
import LoxLang.Proofs.Session.Rejection
import LoxLang.Proofs.Machine.Sequencing
import LoxLang.Proofs.Session.Split
import LoxLang.Proofs.Grammar.Phrase
import LoxLang.Proofs.Grammar.Progress
import LoxLang.Proofs.Grammar.Sentence
import LoxLang.Proofs.Grammar.Soundness.Expression
import LoxLang.Proofs.Grammar.Soundness.Statement
import LoxLang.Proofs.Grammar.Completeness.Expression
import LoxLang.Proofs.Grammar.Completeness.Statement
import LoxLang.Proofs.Grammar.Acceptance
import LoxLang.Proofs.Machine.Restoration
import LoxLang.Proofs.Session.Restoration
import LoxLang.Proofs.Machine.Routines
import LoxLang.Proofs.Machine.Termination
import LoxLang.Proofs.Session.Termination
import LoxLang.Proofs.Scoping.Outline
import LoxLang.Proofs.Scoping.Addressing
import LoxLang.Proofs.Scoping.Rules
import LoxLang.Proofs.Session.Sites
import LoxLang.Proofs.Machine.Effects
import LoxLang.Proofs.Machine.Holdings
import LoxLang.Proofs.Machine.Extent
import LoxLang.Proofs.Machine.Activation
import LoxLang.Proofs.Session.Course
import LoxLang.Proofs.Session.Initializers
import LoxLang.Proofs.Session.Dispatch
import LoxLang.Proofs.Machine.Seclusion
import LoxLang.Proofs.Session.Privacy
import LoxLang.Proofs.Program.Padding
import LoxLang.Proofs.Scoping.Padding
import LoxLang.Proofs.Grammar.Lowering
import LoxLang.Proofs.Machine.Likeness
import LoxLang.Proofs.Padding.World
import LoxLang.Proofs.Padding.Relation
import LoxLang.Proofs.Padding.Operations
import LoxLang.Proofs.Padding.Simulation
import LoxLang.Proofs.Padding.Start
import LoxLang.Proofs.Session.Lowering
import LoxLang.Proofs.Scoping.Returns
import LoxLang.Proofs.Machine.Returns
import LoxLang.Proofs.Machine.Devices
import LoxLang.Proofs.Machine.Output
import LoxLang.Proofs.Grammar.Printing
import LoxLang.Proofs.Session.Assignment
import LoxLang.Proofs.Session.Output
import LoxLang.Proofs.Session.Stretches
import LoxLang.Proofs.Session.Evaluation
import LoxLang.Proofs.Token.Joined
import LoxLang.Proofs.Grammar.Production
import LoxLang.Proofs.Grammar.FaultOrder
import LoxLang.Proofs.Grammar.Advance
import LoxLang.Proofs.Token.Lines
import LoxLang.Proofs.Store.Walk
import LoxLang.Proofs.Store.Search
import LoxLang.Proofs.Session.Links
import LoxLang.Proofs.Number.Places
import LoxLang.Proofs.Number.Double
import LoxLang.Proofs.Number.Shortest
import LoxLang.Proofs.Number.Layout
import LoxLang.Proofs.Number.Literals
import LoxLang.Proofs.Number.Numeral
import LoxLang.Proofs.Number.Printed
