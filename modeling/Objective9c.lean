import Objective9c.Compiler.Assignable
import Objective9c.Compiler.CallErrors
import Objective9c.Compiler.DeferPaths
import Objective9c.Compiler.Expressions
import Objective9c.Compiler.ImportClosure
import Objective9c.Compiler.Layout
import Objective9c.Compiler.Mangling
import Objective9c.Compiler.Monomorph
import Objective9c.Compiler.RawText
import Objective9c.Compiler.Registrations
import Objective9c.Compiler.SourceComments
import Objective9c.Compiler.SubtreePaths
import Objective9c.Facade.Conversations
import Objective9c.Facade.Imports
import Objective9c.Facade.SlotReferences
import Objective9c.Facade.ViewPaths
import Objective9c.Filetree.References
import Objective9c.Filetree.Revoked
import Objective9c.Grid.Drain
import Objective9c.Grid.Journal
import Objective9c.Grid.JournalText
import Objective9c.Grid.ManifestRows
import Objective9c.Grid.MergeReports
import Objective9c.Grid.ReplayOrder
import Objective9c.Grid.TaskClaims
import Objective9c.Grid.TaskRetries
import Objective9c.Runtime.Dag
import Objective9c.Runtime.DataStack
import Objective9c.Runtime.DictMap
import Objective9c.Runtime.DispatchCache
import Objective9c.Runtime.Framing
import Objective9c.Runtime.MountBuilders
import Objective9c.Runtime.ObjectMap
import Objective9c.Runtime.OwnershipRuns
import Objective9c.Runtime.PendingRuns
import Objective9c.Runtime.Registry
import Objective9c.Runtime.Rings
import Objective9c.Runtime.RouterServed
import Objective9c.Runtime.Sync
import Objective9c.Runtime.Transfer
import Objective9c.Runtime.Vault
import Objective9c.Stdlib.Dictionary
import Objective9c.Stdlib.Remotes
import Objective9c.Stdlib.RingAgreement
import Objective9c.Stdlib.Runes
import Objective9c.Stdlib.Streams
import Objective9c.Stdlib.TextLines
