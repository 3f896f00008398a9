import SuiteRunner.Main
import SuiteRunner.Settings.Json
import SuiteRunner.Proofs.Text.Utf8
import SuiteRunner.Proofs.Marker.Scan
import SuiteRunner.Proofs.Marker.Source
import SuiteRunner.Proofs.Path
import SuiteRunner.Proofs.Suite
import SuiteRunner.Proofs.Session.Turn
import SuiteRunner.Proofs.Tally
import SuiteRunner.Proofs.Session.Passes
import SuiteRunner.Proofs.Session.Run
import SuiteRunner.Proofs.Session.Completed
import SuiteRunner.Proofs.Session.Handed
import SuiteRunner.Proofs.Session.Aborted
import SuiteRunner.Proofs.Supervision.Turn
import SuiteRunner.Proofs.Supervision.Verdict
import SuiteRunner.Proofs.Supervision.Children
import SuiteRunner.Proofs.Lookup
import SuiteRunner.Proofs.Discovery
import SuiteRunner.Proofs.Settings
import SuiteRunner.Proofs.CommandLine.Agreement
import SuiteRunner.Proofs.Text.Digits
import SuiteRunner.Proofs.Path.Parent
import SuiteRunner.Proofs.Lookup.Relocation
import SuiteRunner.Proofs.Toml.Text
import SuiteRunner.Proofs.Toml.Number
import SuiteRunner.Proofs.Toml.Document
import SuiteRunner.Proofs.Json.Grammar
import SuiteRunner.Proofs.Json.Token
import SuiteRunner.Proofs.Json.Reader
import SuiteRunner.Proofs.Settings.Members
import SuiteRunner.Proofs.Settings.Json
import SuiteRunner.Proofs.Settings.Load
import SuiteRunner.Proofs.Settings.Relocation
import SuiteRunner.Proofs.Settings.File
import SuiteRunner.Proofs.Tally.Summary
import SuiteRunner.Proofs.Toml.Table
import SuiteRunner.Proofs.Settings.Origin
import SuiteRunner.Proofs.CommandLine.Arguments
import SuiteRunner.Proofs.CommandLine.Effective
import SuiteRunner.Proofs.Session.Isolation
import SuiteRunner.Proofs.CommandLine.Output
import SuiteRunner.Proofs.Text.Partial
import SuiteRunner.Proofs.Marker.Faults
import SuiteRunner.Proofs.Marker.Refill
import SuiteRunner.Proofs.Path.Bare
import SuiteRunner.Proofs.Path.Normal
import SuiteRunner.Proofs.TestFile
import SuiteRunner.Proofs.Settings.Executable
import SuiteRunner.Proofs.Supervision.Warnings
import SuiteRunner.Proofs.Supervision.Accounts
