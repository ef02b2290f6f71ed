import LoxSyntax.Main
import LoxSyntax.Session
import LoxSyntax.Proofs.Grammar.Clause
import LoxSyntax.Proofs.Grammar.NearestElse
import LoxSyntax.Proofs.Reading.Progress
import LoxSyntax.Proofs.Reading.Expressions
import LoxSyntax.Proofs.Reading.Statements
import LoxSyntax.Proofs.Reading.Recognition
import LoxSyntax.Proofs.Reading.Soundness
import LoxSyntax.Proofs.Acceptance
import LoxSyntax.Proofs.Reading.LocalReaders
import LoxSyntax.Proofs.CorrectPrefix
import LoxSyntax.Proofs.Grammar.SimpleStatement
import LoxSyntax.Proofs.PanicRecovery
import LoxSyntax.Proofs.Lexical.NumberLexeme
import LoxSyntax.Proofs.Lexical.Listing
import LoxSyntax.Proofs.Lexical.Reading
import LoxSyntax.Proofs.Lexical.Scanning
import LoxSyntax.Proofs.LexicalGrammar
import LoxSyntax.Proofs.TokenPlaces
import LoxSyntax.Proofs.Reading.SeveredReaders
import LoxSyntax.Proofs.Spans
import LoxSyntax.Proofs.SessionSafety
import LoxSyntax.Proofs.Lexical.Lexeme
import LoxSyntax.Proofs.WrittenLexemes
import LoxSyntax.Proofs.Grammar.Shape
import LoxSyntax.Proofs.Grammar.Written
import LoxSyntax.Proofs.RoundTrip
import LoxSyntax.Proofs.Tree.Renaming
import LoxSyntax.Proofs.Reading.Pairing
import LoxSyntax.Proofs.Reading.PairedReaders
import LoxSyntax.Proofs.SoftErrors
import LoxSyntax.Proofs.RenamedTokens
import LoxSyntax.Proofs.Nesting
import LoxSyntax.Proofs.Prompt.Answers
import LoxSyntax.Proofs.Drivers
import LoxSyntax.Proofs.Conversations
import LoxSyntax.Proofs.JsonOutput
import LoxSyntax.Proofs.Reading.Salvage
import LoxSyntax.Proofs.Tree.Tokens
import LoxSyntax.Proofs.ReturnedTrees
import LoxSyntax.Proofs.Concatenation
import LoxSyntax.Proofs.Grammar.ForLoop
import LoxSyntax.Proofs.ForLoops
import LoxSyntax.Proofs.ScannedLines
import LoxSyntax.Proofs.Reading.Course
import LoxSyntax.Proofs.Reading.OrderlyReaders
import LoxSyntax.Proofs.ErrorOrder
import LoxSyntax.Proofs.ExtendedSources
import LoxSyntax.Proofs.Lexical.Kinds
import LoxSyntax.Proofs.Lexical.Braces
import LoxSyntax.Proofs.Grammar.Blocks
import LoxSyntax.Proofs.Tree.Values
import LoxSyntax.Proofs.AcceptedSources
import LoxSyntax.Proofs.BlocksAtPrompt
import LoxSyntax.Proofs.Printing.Form
import LoxSyntax.Proofs.Printing.Spelling
import LoxSyntax.Proofs.Printing.TreeForm
import LoxSyntax.Proofs.Tree.Data
import LoxSyntax.Proofs.Printing.Reading
import LoxSyntax.Proofs.Printing.ReadBack
import LoxSyntax.Proofs.PrintedForm
import LoxSyntax.Proofs.Tree.Twins
import LoxSyntax.Proofs.EqualTrees
import LoxSyntax.Proofs.PrintedLines
import LoxSyntax.Proofs.Number.Order
import LoxSyntax.Proofs.Printing.NumberForms
import LoxSyntax.Proofs.PrintedNumbers
import LoxSyntax.Proofs.Tree.Decoding
import LoxSyntax.Proofs.SerializedTrees
import LoxSyntax.Proofs.Reporting.Operations
import LoxSyntax.Proofs.SharedReporter
import LoxSyntax.Proofs.CursorCalls
import LoxSyntax.Proofs.EntryReadings
import LoxSyntax.Proofs.Resumption
import LoxSyntax.Proofs.Lexical.Recording
import LoxSyntax.Proofs.ScanSafety
