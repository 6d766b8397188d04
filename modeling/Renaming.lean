import Renaming.Main
import Renaming.Proofs.Assembly.Place
import Renaming.Proofs.Assembly.Shape
import Renaming.Proofs.Table.Target
import Renaming.Proofs.Assembly.Substitution
import Renaming.Proofs.Table.Chain
import Renaming.Proofs.Table.Sequence
import Renaming.Proofs.Assembly.Scan
import Renaming.Proofs.Assembly.Seat
import Renaming.Proofs.Assembly.Retype
import Renaming.Proofs.Assembly.Relink
import Renaming.Proofs.Assembly.Definition
import Renaming.Proofs.Assembly.Uniform
import Renaming.Proofs.OrderedMap
import Renaming.Proofs.Table.Associate
import Renaming.Proofs.Table.Reverse
import Renaming.Proofs.Table.Undo
import Renaming.Proofs.Mapping.Middle
import Renaming.Proofs.Assembly.OneName
import Renaming.Proofs.Assembly.State
import Renaming.Proofs.Assembly.Intact
import Renaming.Proofs.Assembly.Filed
import Renaming.Proofs.FileTree.Completed
import Renaming.Proofs.FileTree.Failed
import Renaming.Proofs.FileTree.Inside
import Renaming.Proofs.Table.Cancel
import Renaming.Proofs.Mapping.InStep
import Renaming.Proofs.Table.Follow
import Renaming.Proofs.Mapping.Follow
import Renaming.Proofs.Mapping.Paired
import Renaming.Proofs.Mapping.Tiered
import Renaming.Proofs.Ending
import Renaming.Proofs.Mapping.Rectangular
import Renaming.Proofs.Mapping.Deep
import Renaming.Proofs.Mapping.Owner
import Renaming.Proofs.Symbol.Display
import Renaming.Proofs.Text.Span
import Renaming.Proofs.Mapping.Report
import Renaming.Proofs.Mapping.Alike
import Renaming.Proofs.Mapping.Effect
import Renaming.Proofs.Mapping.Blocks
import Renaming.Proofs.Mapping.RowEffect
import Renaming.Proofs.Mapping.BlockEffect
import Renaming.Proofs.Mapping.Shuffled
import Renaming.Proofs.FileTree.Writable
import Renaming.Proofs.Document.Typed
import Renaming.Proofs.FileTree.Explained
import Renaming.Proofs.Mapping.Loaded
import Renaming.Proofs.CommandLine.Exit
import Renaming.Proofs.FileTree.Undone
import Renaming.Proofs.Document.Declared
import Renaming.Proofs.Document.Consistent
import Renaming.Proofs.Document.Repeated
import Renaming.Proofs.Mapping.Written
import Renaming.Proofs.Mapping.Noted
import Renaming.Proofs.Assembly.Changed
import Renaming.Proofs.Assembly.Spared
import Renaming.Proofs.Table.Priority
import Renaming.Proofs.Mapping.Compact
import Renaming.Proofs.CommandLine.Sources
import Renaming.Proofs.Assembly.Scanned
import Renaming.Proofs.Symbol.Descriptor
import Renaming.Proofs.Symbol.Key
import Renaming.Proofs.Table.Prefix
