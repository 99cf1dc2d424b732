import WinIndex.Theorems.Refinement
import WinIndex.Theorems.Keyed
import WinIndex.Theorems.LoadSafety
import WinIndex.Theorems.Persistence
import WinIndex.Theorems.IncrementalUpdate
import WinIndex.Theorems.Exclusions
import WinIndex.Theorems.Rebuild
import WinIndex.Theorems.Monitoring
import WinIndex.Theorems.Search
import WinIndex.Theorems.Finders
import WinIndex.Theorems.Restart
import WinIndex.Theorems.Checksum
import WinIndex.Theorems.Corruption
import WinIndex.Theorems.Offsets
import WinIndex.Theorems.ScannersAgree
import WinIndex.WatchThread
import WinIndex.Theorems.ModifiedEvents
import WinIndex.Session
import WinIndex.Theorems.RootRemoval
import WinIndex.Theorems.WatchedRoots
import WinIndex.Theorems.SettingsChanges
import WinIndex.Lemmas.Worker
import WinIndex.Lib.Runs
import WinIndex.Theorems.TokenSets
import WinIndex.Lemmas.Match
import WinIndex.Theorems.WholeWord
import WinIndex.Theorems.MatchPath
import WinIndex.Theorems.RegexWholeWord
import WinIndex.Settings
import WinIndex.SettingsDialog
import WinIndex.IndexAge
import WinIndex.Theorems.SettingsFile
import WinIndex.MainWindow
import WinIndex.Theorems.SearchBar
import WinIndex.Lib.Chain
import WinIndex.MftTable
import WinIndex.Theorems.PathResolution
import WinIndex.DirectoryTree
import WinIndex.Lib.Worklist
import WinIndex.Theorems.DirectoryWalk
import WinIndex.Theorems.ReindexInterval
import WinIndex.Theorems.Resave
import WinIndex.Theorems.Subtree
import WinIndex.Theorems.RenameEvents
import WinIndex.Lib.Cursor
import WinIndex.UsnJournalMonitor
import WinIndex.Theorems.JournalReplay
import WinIndex.JournalHistory
import WinIndex.Theorems.JournalEvents
import WinIndex.Lib.Gate
import WinIndex.IndexerThreads
import WinIndex.Theorems.WorkerExclusion
import WinIndex.Theorems.OneWorker
import WinIndex.Lib.SharedMutex
import WinIndex.StoreAccess
import WinIndex.Theorems.Snapshots
import WinIndex.ResultList
import WinIndex.Theorems.ResultRows
import WinIndex.Theorems.SelectedFiles
import WinIndex.Lib.RecordWalk
import WinIndex.UsnBuffer
import WinIndex.Theorems.UsnBuffers
import WinIndex.Theorems.Enumeration
import WinIndex.NotifyBuffer
import WinIndex.Theorems.NotifyBuffers
import WinIndex.Theorems.Closing
import WinIndex.ScanThreads
import WinIndex.Theorems.CancelledScan
import WinIndex.FirstRunDialog
import WinIndex.SettingsRuns
import WinIndex.Theorems.KeptSettings
import WinIndex.Lib.Codec
import WinIndex.Logger
import WinIndex.Theorems.LogFile
import WinIndex.Lib.Mailbox
import WinIndex.StatusMessages
import WinIndex.Theorems.StatusOrder
import WinIndex.Theorems.FoundFiles
import WinIndex.IndexFile
import WinIndex.Theorems.KeptIndex
