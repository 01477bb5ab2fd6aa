import CaseFiles.Format.Scanner
import CaseFiles.Main
import CaseFiles.Proofs.Format.Filling
import CaseFiles.Proofs.Format.Injectivity
import CaseFiles.Proofs.Regex.Fragment
import CaseFiles.Proofs.Regex.Lexing
import CaseFiles.Proofs.Format.Source
import CaseFiles.Proofs.Format.Expression
import CaseFiles.Proofs.Format.Conformance
import CaseFiles.Proofs.Recognition
import CaseFiles.Proofs.FileTree.LinkFree
import CaseFiles.Proofs.FileTree.Making
import CaseFiles.Proofs.Glob.Finding
import CaseFiles.Proofs.Filing
import CaseFiles.Proofs.Format.Globbing
import CaseFiles.Proofs.Saving
import CaseFiles.Proofs.FileTree.Settling
import CaseFiles.Proofs.Placing
import CaseFiles.Proofs.Pairing
import CaseFiles.Proofs.Regex.Brackets
import CaseFiles.Proofs.Regex.Keeping
import CaseFiles.Proofs.Regex.Nesting
import CaseFiles.Proofs.Format.RoundTrip
import CaseFiles.Requests
import CaseFiles.Proofs.Respelling
import CaseFiles.Proofs.Duplicates
import CaseFiles.Proofs.Reordering
import CaseFiles.Proofs.Serving
import CaseFiles.Proofs.Format.Agreement
import CaseFiles.Proofs.Format.Direct
import CaseFiles.Proofs.Detours
import CaseFiles.Proofs.Glob.Staying
import CaseFiles.Proofs.Discovery
import CaseFiles.Proofs.Reporting
import CaseFiles.Proofs.Format.Descent
import CaseFiles.Proofs.Glob.Searching
import CaseFiles.Proofs.Presence
import CaseFiles.Proofs.Ordering
import CaseFiles.Proofs.Glob.Respelling
import CaseFiles.Proofs.Rediscovery
import CaseFiles.Proofs.Format.Scanning
import CaseFiles.Proofs.Format.Turns
import CaseFiles.Proofs.Format.Quoting
import CaseFiles.Proofs.Format.Grammar
import CaseFiles.Proofs.Resolving
import CaseFiles.Proofs.Format.Declaring
import CaseFiles.Proofs.Regex.Nameless
import CaseFiles.Proofs.Regex.Renaming
import CaseFiles.Proofs.Regex.Alike
import CaseFiles.Proofs.Regex.Regrouping
import CaseFiles.Proofs.Format.Rekeying
import CaseFiles.Proofs.Format.Standalone
import CaseFiles.Proofs.Regex.Locality
import CaseFiles.Proofs.Format.Concatenation
import CaseFiles.Proofs.Path.Stems
import CaseFiles.Proofs.Printing
