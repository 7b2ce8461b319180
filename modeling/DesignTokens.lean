import DesignTokens.Alias.Resolution
import DesignTokens.Command.Outcome
import DesignTokens.Conversion
import DesignTokens.Format.Basic
import DesignTokens.Glob.Sources
import DesignTokens.Main
import DesignTokens.Settings.Configuration
import DesignTokens.Tree.Equality
import DesignTokens.Tree.Load
import DesignTokens.Proofs.Alias.Marker
import DesignTokens.Proofs.Alias.Anchor
import DesignTokens.Proofs.Alias.Trace
import DesignTokens.Proofs.Alias.Resolution
import DesignTokens.Proofs.Alias.Plain
import DesignTokens.Proofs.Tree.Nodes
import DesignTokens.Proofs.Stylesheet.MapLiteral
import DesignTokens.Proofs.Stylesheet.Sheet
import DesignTokens.Proofs.Stylesheet.Evaluation
import DesignTokens.Proofs.Decimal.Digits
import DesignTokens.Proofs.Decimal.Shortest
import DesignTokens.Proofs.Json.Decode
import DesignTokens.Proofs.Json.Number
import DesignTokens.Proofs.Json.Quote
import DesignTokens.Proofs.Json.RoundTrip
import DesignTokens.Proofs.Table
import DesignTokens.Proofs.Json.Leaves
import DesignTokens.Proofs.Format.Agreement
import DesignTokens.Proofs.Text.Occurrence
import DesignTokens.Proofs.Alias.Report
import DesignTokens.Proofs.Alias.Seam
import DesignTokens.Proofs.Alias.Idempotence
import DesignTokens.Proofs.FileSystem.Node
import DesignTokens.Proofs.FileSystem.Walk
import DesignTokens.Proofs.FileSystem.Write
import DesignTokens.Proofs.Conversion.Outputs
import DesignTokens.Proofs.Alias.Agreement
import DesignTokens.Proofs.Alias.Passes
import DesignTokens.Proofs.Alias.Order
import DesignTokens.Proofs.Alias.Concatenation
import DesignTokens.Proofs.Alias.Leftover
import DesignTokens.Proofs.Path.Names
import DesignTokens.Proofs.FileSystem.LinkFree
import DesignTokens.Proofs.FileSystem.Directories
import DesignTokens.Proofs.FileSystem.Same
import DesignTokens.Proofs.Conversion.Formats
import DesignTokens.Proofs.Conversion.Account
import DesignTokens.Proofs.Conversion.Rebuild
import DesignTokens.Proofs.Conversion.Order
import DesignTokens.Proofs.Alias.Cycle
import DesignTokens.Proofs.Toml.Keys
import DesignTokens.Proofs.Command.Build
import DesignTokens.Proofs.Settings.Precedence
import DesignTokens.Proofs.Tree.Lookup
import DesignTokens.Proofs.Tree.Inventory
import DesignTokens.Proofs.Glob.Expansion
import DesignTokens.Proofs.Tree.Loading
import DesignTokens.Proofs.Tree.Equality
import DesignTokens.Proofs.Alias.Settled
import DesignTokens.Proofs.Stylesheet.Skeleton
import DesignTokens.Proofs.Stylesheet.Sections
import DesignTokens.Proofs.Stylesheet.Identifiers
import DesignTokens.Proofs.FileSystem.Files
import DesignTokens.Proofs.Glob.Base
import DesignTokens.Proofs.Path.Order
import DesignTokens.Proofs.Tree.Insertion
import DesignTokens.Proofs.Tree.Reachable
