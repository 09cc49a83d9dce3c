import Disentangle.Main
import Disentangle.Proofs.Claims
import Disentangle.Proofs.Dependency.Agreement
import Disentangle.Proofs.Dependency.Bindings
import Disentangle.Proofs.Dependency.Components
import Disentangle.Proofs.Dependency.External
import Disentangle.Proofs.Dependency.Resorting
import Disentangle.Proofs.Dependency.Search
import Disentangle.Proofs.Dependency.Sorting
import Disentangle.Proofs.Dependency.Tangles
import Disentangle.Proofs.Entry
import Disentangle.Proofs.Extraction
import Disentangle.Proofs.Files.Contents
import Disentangle.Proofs.Files.Leading
import Disentangle.Proofs.Files.Matching
import Disentangle.Proofs.Files.Overwriting
import Disentangle.Proofs.Files.Pruning
import Disentangle.Proofs.Files.Removal
import Disentangle.Proofs.Files.Search
import Disentangle.Proofs.Files.Writing
import Disentangle.Proofs.Import.Agreement
import Disentangle.Proofs.Import.Default
import Disentangle.Proofs.Import.External
import Disentangle.Proofs.Import.Gathering
import Disentangle.Proofs.Import.Introduced
import Disentangle.Proofs.Import.Kept
import Disentangle.Proofs.Import.Layout
import Disentangle.Proofs.Import.Ranges
import Disentangle.Proofs.Import.ReadBack
import Disentangle.Proofs.Import.Redirected
import Disentangle.Proofs.Import.Redirection
import Disentangle.Proofs.Import.Retargeted
import Disentangle.Proofs.Import.Routes
import Disentangle.Proofs.Import.Simultaneous
import Disentangle.Proofs.Index.Aliases
import Disentangle.Proofs.Index.Bindings
import Disentangle.Proofs.Index.Entries
import Disentangle.Proofs.Index.Provision
import Disentangle.Proofs.Lists
import Disentangle.Proofs.Path.Canonical
import Disentangle.Proofs.Path.Direct
import Disentangle.Proofs.Path.Keys
import Disentangle.Proofs.Path.Relative
import Disentangle.Proofs.Path.Resolving
import Disentangle.Proofs.Project.Carrying
import Disentangle.Proofs.Project.Collecting
import Disentangle.Proofs.Project.Faults
import Disentangle.Proofs.Project.Following
import Disentangle.Proofs.Project.Frame
import Disentangle.Proofs.Project.Hoisting
import Disentangle.Proofs.Project.Leaving
import Disentangle.Proofs.Project.LoadOrder
import Disentangle.Proofs.Project.Moving
import Disentangle.Proofs.Project.Ownership
import Disentangle.Proofs.Project.Places
import Disentangle.Proofs.Project.Reading
import Disentangle.Proofs.Project.Reporting
import Disentangle.Proofs.Project.RunFaults
import Disentangle.Proofs.Project.Sound
import Disentangle.Proofs.Project.Stops
import Disentangle.Proofs.Project.Success
import Disentangle.Proofs.Project.Updates
import Disentangle.Proofs.Project.Writing
import Disentangle.Proofs.Record.Bases
import Disentangle.Proofs.Record.History
import Disentangle.Proofs.Record.Needs
import Disentangle.Proofs.Section.Canonical
import Disentangle.Proofs.Section.Closed
import Disentangle.Proofs.Section.Cover
import Disentangle.Proofs.Section.Gathered
import Disentangle.Proofs.Section.Hoisted
import Disentangle.Proofs.Section.Joints
import Disentangle.Proofs.Section.Leading
import Disentangle.Proofs.Section.Scan
import Disentangle.Proofs.Settings
import Disentangle.Proofs.SymbolTable.History
import Disentangle.Proofs.TypeScript.Attributes
import Disentangle.Proofs.TypeScript.Binding
import Disentangle.Proofs.TypeScript.Exchange
import Disentangle.Proofs.TypeScript.Import
import Disentangle.Proofs.TypeScript.Located
import Disentangle.Proofs.TypeScript.Parser
import Disentangle.Proofs.TypeScript.Reads
import Disentangle.Proofs.TypeScript.Source
import Disentangle.Proofs.TypeScript.Spelling
import Disentangle.Proofs.TypeScript.Statement
import Disentangle.Proofs.TypeScript.Token
import Disentangle.Proofs.TypeScript.Tree
import Disentangle.Proofs.TypeScript.Trivia
import Disentangle.Proofs.Utf8
