import EmberClasses.Main
import EmberClasses.Proofs.FileConversion
import EmberClasses.Proofs.Arguments
import EmberClasses.Proofs.SuperRewriting
import EmberClasses.Proofs.TemplateLines
import EmberClasses.Proofs.DefinitionCoverage
import EmberClasses.Proofs.MemberKeys
import EmberClasses.Proofs.LastArgument
import EmberClasses.Proofs.ImportAvailability
import EmberClasses.Proofs.ClassLines
import EmberClasses.Proofs.ClassOpening
import EmberClasses.Proofs.SecondRun
import EmberClasses.Proofs.CutSpans
import EmberClasses.Proofs.Reindentation
import EmberClasses.Proofs.CopiedParts
import EmberClasses.Proofs.StringTokens
import EmberClasses.Proofs.StringLiterals
import EmberClasses.Proofs.DecoratorBindings
import EmberClasses.Proofs.ImportRevision
import EmberClasses.Proofs.ImportNames
import EmberClasses.Proofs.TokenTexts
import EmberClasses.Proofs.ParserRuns
import EmberClasses.Proofs.ImportGrammar
import EmberClasses.Proofs.ImportContent
import EmberClasses.Proofs.ImportText
import EmberClasses.Proofs.ImportReadBack
import EmberClasses.Proofs.ImportRoundTrip
import EmberClasses.Proofs.KeptImports
import EmberClasses.Proofs.DiskItems
import EmberClasses.Proofs.BatchRuns
import EmberClasses.Proofs.BatchFiles
import EmberClasses.Proofs.BatchLog
import EmberClasses.Proofs.ThisBinders
import EmberClasses.Proofs.ClassNames
import EmberClasses.Proofs.References
import EmberClasses.Proofs.SplicedText
import EmberClasses.Proofs.GapComments
import EmberClasses.Proofs.BodyRewriting
import EmberClasses.Proofs.ClassComments
import EmberClasses.Proofs.SettledImports
import EmberClasses.Proofs.ClassOutline
import EmberClasses.Proofs.OptionLimits
import EmberClasses.Proofs.ImportNeeds
import EmberClasses.Proofs.AccessorForms
import EmberClasses.Proofs.ClassExpressions
import EmberClasses.Proofs.DoubleRounding
import EmberClasses.Proofs.NumberTexts
import EmberClasses.Proofs.LiteralReading
import EmberClasses.Proofs.ReaderValues
import EmberClasses.Proofs.PrintedLines
import EmberClasses.Proofs.VerbatimLines
import EmberClasses.Proofs.SteadyBodies
import EmberClasses.Proofs.PathComponents
import EmberClasses.Proofs.GlobSearch
import EmberClasses.Proofs.FoundFiles
import EmberClasses.Proofs.PatternTexts
import EmberClasses.Proofs.DiskWalks
import EmberClasses.Proofs.DirectorySearch
import EmberClasses.Proofs.MissedDirectories
import EmberClasses.Proofs.ParsedTrees
