import BareImports.Arguments.Command
import BareImports.Build.Output
import BareImports.Build.Resolution
import BareImports.Build.Rewriting
import BareImports.Build.Run
import BareImports.Cdn.Registry
import BareImports.CommandLine
import BareImports.Json.Writer
import BareImports.Log.Message
import BareImports.Main
import BareImports.Merge.Script
import BareImports.Proofs.Build.Account
import BareImports.Proofs.Build.Containment
import BareImports.Proofs.Build.Links
import BareImports.Proofs.Build.Process
import BareImports.Proofs.Cdn.Failing
import BareImports.Proofs.Cdn.Transparency
import BareImports.Proofs.Cdn.Waiting
import BareImports.Proofs.Merge.Script
import BareImports.Proofs.Placement.Contents
import BareImports.Proofs.Placement.Depth
import BareImports.Proofs.Placement.Hiding
import BareImports.Proofs.Placement.Layout
import BareImports.Proofs.Placement.Potential
import BareImports.Proofs.Placement.Resolution
import BareImports.Proofs.Url.Relative
import BareImports.Proofs.Placement.Copies
import BareImports.Proofs.Typings.Files
import BareImports.Proofs.Cdn.Fixpoint
import BareImports.Proofs.Cdn.Histories
import BareImports.Proofs.Console.Copies
import BareImports.Proofs.Typings.Entries
import BareImports.Proofs.Typings.Fallback
import BareImports.Proofs.Build.Refinement
import BareImports.Proofs.Build.Keeping
import BareImports.Proofs.Build.Reports
import BareImports.Proofs.Typings.Kept
import BareImports.Proofs.Typings.Relatives
import BareImports.Proofs.Build.Assets
import BareImports.Proofs.Cdn.Finite
import BareImports.Proofs.Typings.Beside
import BareImports.Proofs.Typings.Contained
import BareImports.Proofs.Typings.Once
import BareImports.Proofs.Typings.Progress
import BareImports.Proofs.Typings.Ends
import BareImports.Proofs.Location.Grammar
import BareImports.Proofs.Http.Policy
import BareImports.Proofs.ImportMap
import BareImports.Proofs.Files.Output
import BareImports.Proofs.Url.Redact
import BareImports.Proofs.Script.Directives
import BareImports.Proofs.Settings
