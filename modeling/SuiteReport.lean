import SuiteReport.Text.Position
import SuiteReport.Text.Word
import SuiteReport.Text.Blank
import SuiteReport.Text.Lines
import SuiteReport.Text.Truncation
import SuiteReport.Suite.Outline
import SuiteReport.Markup.Event
import SuiteReport.Results.JUnit
import SuiteReport.Report.CommentText
import SuiteReport.Go.StringLiteral
import SuiteReport.Go.Token.Scan
import SuiteReport.Go.Source
import SuiteReport.Go.TestFile
import SuiteReport.Settings.Document
import SuiteReport.Report.Markdown
import SuiteReport.Report.Response
import SuiteReport.Files.System
import SuiteReport.Command.Run
import SuiteReport.Main
import SuiteReport.Proofs.Subtest.Choice
import SuiteReport.Proofs.Documentation
import SuiteReport.Proofs.Subtest.MachineName
import SuiteReport.Proofs.Subtest.LoopScope
import SuiteReport.Proofs.Report.Table
import SuiteReport.Proofs.Results.Join
import SuiteReport.Proofs.StringLiteral
import SuiteReport.Proofs.CommentGap
import SuiteReport.Proofs.Discovery.Locality
import SuiteReport.Proofs.Report.Agreement
import SuiteReport.Proofs.Results.Unfinished
import SuiteReport.Proofs.Subtest.Identity
import SuiteReport.Proofs.Markup.Writing
import SuiteReport.Proofs.Results.Writing
import SuiteReport.Proofs.Files.Writing
import SuiteReport.Proofs.Files.Stability
import SuiteReport.Proofs.Discovery.Independence
import SuiteReport.Proofs.Command.Reporting
import SuiteReport.Proofs.Subtest.Comments
import SuiteReport.Proofs.CommentRun
import SuiteReport.Proofs.LineEnds.Suite
import SuiteReport.Proofs.Subtest.LoopUnits
import SuiteReport.Proofs.CommentPartition
import SuiteReport.Proofs.Report.CommentLines
import SuiteReport.Proofs.Discovery.Package
import SuiteReport.Proofs.Suite.Traversal
import SuiteReport.Proofs.Results.Message
import SuiteReport.Proofs.Discovery.Directive
import SuiteReport.Proofs.Text.Truncation
import SuiteReport.Proofs.Report.Reading
