import Simmis.Access.Defaults
import Simmis.Access.Forks
import Simmis.Benchmarks.Preparation
import Simmis.Books.Periods
import Simmis.Books.Statements
import Simmis.Chat.Evidence
import Simmis.Chat.ToolRuns
import Simmis.Chat.Transcripts
import Simmis.Desktop.Aggregate
import Simmis.Desktop.BlockSync
import Simmis.Desktop.MemoryEditor
import Simmis.Desktop.Observation
import Simmis.Desktop.OptimisticWrite
import Simmis.Desktop.QueryDeltas
import Simmis.Desktop.RunForest
import Simmis.Desktop.SlotAnswers
import Simmis.Desktop.TabHeal
import Simmis.Desktop.ToolActivity
import Simmis.Documents.Additions
import Simmis.Documents.Freshness
import Simmis.Documents.Preservation
import Simmis.Documents.SourceLinks
import Simmis.Files.Ownership
import Simmis.Git.History
import Simmis.Git.Intents
import Simmis.Git.Policies
import Simmis.Knowledge.Coverage
import Simmis.Knowledge.Identity
import Simmis.Knowledge.Retention
import Simmis.KnowledgeChanges.Between
import Simmis.KnowledgeInputs.Frozen
import Simmis.Lifetimes.Joins
import Simmis.Models.Listings
import Simmis.Models.Refreshes
import Simmis.Models.Selection
import Simmis.Order.Insertions
import Simmis.Proposals.Digests
import Simmis.Proposals.Outcomes
import Simmis.Reviews.Decisions
import Simmis.RichDocuments.Rewrites
import Simmis.RichText.CodeSpans
import Simmis.Schedules.Wedge
import Simmis.Screen.Locating
import Simmis.Screen.Owners
import Simmis.Screen.Sampling
import Simmis.Screen.Stages
import Simmis.Screen.Windows
import Simmis.Sheets.Rooms
import Simmis.Summaries.Deliveries
import Simmis.Wiki.Backfill
import Simmis.Wiki.Edits
import Simmis.Wiki.Merge
import Simmis.Wiki.Prose
import Simmis.Wiki.Renames
import Simmis.Wiki.Tokens
import Simmis.Work.Admission
import Simmis.Workers.InputAgreement
import Simmis.Workers.JournalReports
import Simmis.Workers.Ownership
import Simmis.Workers.Pipe
import Simmis.Workers.Sessions
import Simmis.Workers.Wait
import Simmis.Workers.Wire
