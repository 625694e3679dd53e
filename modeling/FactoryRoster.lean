import FactoryRoster.Disk.Edit
import FactoryRoster.Entry.Document
import FactoryRoster.Scan
import FactoryRoster.Settings.Document
import FactoryRoster.Proofs.Disk.Contents
import FactoryRoster.Proofs.Scan.Isolation
import FactoryRoster.Scan.Pool
import FactoryRoster.Proofs.Scan.Turns
import FactoryRoster.Proofs.Source.Reading
import FactoryRoster.Proofs.Source.Commands
import FactoryRoster.Proofs.Source.Declarations
import FactoryRoster.Proofs.Source.Registrations
import FactoryRoster.Proofs.Scan.RoundTrip
import FactoryRoster.Proofs.Disk.Resolution
import FactoryRoster.Proofs.Disk.Entries
import FactoryRoster.Proofs.Disk.Walks
import FactoryRoster.Proofs.Disk.Refusals
import FactoryRoster.Proofs.Glob.Escaped
import FactoryRoster.Proofs.Disk.Bases
import FactoryRoster.Proofs.Scan.Files
import FactoryRoster.Proofs.Path.Below
import FactoryRoster.Proofs.Path.Entries
import FactoryRoster.Proofs.Disk.Labels
import FactoryRoster.Proofs.Scan.Order
import FactoryRoster.Proofs.Scan.Ranks
import FactoryRoster.Proofs.Scan.Found
import FactoryRoster.Proofs.Json.Strings
import FactoryRoster.Proofs.Json.Values
import FactoryRoster.Proofs.Scan.Documents
import FactoryRoster.Proofs.Disk.Texts
import FactoryRoster.Proofs.Scan.Written
import FactoryRoster.Proofs.Tree.Outline
import FactoryRoster.Proofs.Scan.Enumeration
import FactoryRoster.Proofs.Disk.Frames
import FactoryRoster.Proofs.Scan.Projects
import FactoryRoster.Proofs.Scan.Accounts
import FactoryRoster.Proofs.Scan.Parts
import FactoryRoster.Proofs.Source.Unclosed
import FactoryRoster.Proofs.Scan.Truncated
import FactoryRoster.Proofs.Tree.Places
import FactoryRoster.Proofs.Tree.Renaming
import FactoryRoster.Proofs.Source.Shape
import FactoryRoster.Proofs.Json.Grammar
import FactoryRoster.Proofs.Json.Layouts
import FactoryRoster.Proofs.Settings.Overrides
import FactoryRoster.Proofs.Tree.Outcomes
import FactoryRoster.Proofs.Source.CodePoints
import FactoryRoster.Proofs.Source.Spelled
import FactoryRoster.Proofs.Source.Delimited
import FactoryRoster.Proofs.Source.Pieces
import FactoryRoster.Proofs.Source.ByteEscapes
import FactoryRoster.Proofs.Gemfile
import FactoryRoster.Proofs.Json.Items
import FactoryRoster.Proofs.Entry.Layouts
import FactoryRoster.Proofs.Entry.Writing
import FactoryRoster.Proofs.Scan.Collected
import FactoryRoster.Proofs.Settings.Documents
import FactoryRoster.Proofs.Source.Names
import FactoryRoster.Proofs.Scan.Spellings
import FactoryRoster.Proofs.Path.Remainders
import FactoryRoster.Proofs.Disk.Within
import FactoryRoster.Proofs.Disk.Routes
