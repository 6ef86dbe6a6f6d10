import AriannaLinux.Lib.Arena
import AriannaLinux.Lib.GuardedRun
import AriannaLinux.Lib.BoundedBuffer
import AriannaLinux.Lib.Fuel
import AriannaLinux.Lib.Recognizer
import AriannaLinux.Lib.Python.Str
import AriannaLinux.Lib.Python.Escape
import AriannaLinux.Lib.Python.Words
import AriannaLinux.Lib.Python.Dict
import AriannaLinux.LetsGo.Settings
import AriannaLinux.LetsGo.Terminal
import AriannaLinux.LetsGo.Survival
import AriannaLinux.Bridge.Session
import AriannaLinux.Bridge.Process
import AriannaLinux.Bridge.Cleanup
import AriannaLinux.Bridge.Clients
import AriannaLinux.Apk.Blob
import AriannaLinux.Apk.BlobText
import AriannaLinux.Apk.BlobRoundTrip
import AriannaLinux.Apk.BlobChecks
import AriannaLinux.Apk.Hash
import AriannaLinux.Apk.Version
import AriannaLinux.Apk.VersionOrder
import AriannaLinux.Apk.VersionSuffix
import AriannaLinux.Apk.VersionNumeric
import AriannaLinux.Apk.VersionGrammar
import AriannaLinux.Apk.PackageName
import AriannaLinux.Apk.Database
import AriannaLinux.Apk.Rdepends
import AriannaLinux.Apk.Deps
import AriannaLinux.Apk.World
import AriannaLinux.Apk.WorldEdit
import AriannaLinux.Apk.CacheClean
import AriannaLinux.Apk.IndexWrite
import AriannaLinux.Apk.ConfigWrite
import AriannaLinux.Apk.Directory
import AriannaLinux.Apk.Solver.State
import AriannaLinux.Apk.Solver.Invariant
import AriannaLinux.Apk.Solver.Soundness
import AriannaLinux.Apk.Solver.Plan
import AriannaLinux.Apk.Solver.Removal
import AriannaLinux.Apk.Solver.Autoclean
import AriannaLinux.Apk.Solver.Termination
import AriannaLinux.Apk.Solver.Candidate
import AriannaLinux.Apk.Solver.Progress
import AriannaLinux.Apk.Solver.Order
import AriannaLinux.Apk.Io.Istream
import AriannaLinux.Apk.Io.FullReads
import AriannaLinux.Apk.Io.LineReader
import AriannaLinux.Apk.Io.Root
import AriannaLinux.Apk.Io.Ostream
import AriannaLinux.Apk.Io.AtomicReplace
import AriannaLinux.Apk.Io.Pieces
import AriannaLinux.Apk.Io.Gunzip
import AriannaLinux.Apk.Io.GunzipHash
import AriannaLinux.Apk.Io.PlainGunzip
import AriannaLinux.Apk.Archive
import AriannaLinux.Apk.TarFraming
import AriannaLinux.Apk.TarTruncated
import AriannaLinux.Apk.TarWrite
import AriannaLinux.Apk.TarNumbers
import AriannaLinux.Apk.ScriptDb
import AriannaLinux.Apk.Sign
import AriannaLinux.Apk.Verify
import AriannaLinux.Apk.Identity
import AriannaLinux.Apk.PackageRead
import AriannaLinux.Apk.ReadErrors
import AriannaLinux.Apk.Install.Files
import AriannaLinux.Apk.Install.Entry
import AriannaLinux.Apk.Install.Package
import AriannaLinux.Apk.Install.Keeps
import AriannaLinux.Apk.Install.FailedUnpack
import AriannaLinux.Apk.Install.Index
import AriannaLinux.Apk.Install.DirTable
import AriannaLinux.Apk.Install.Coherence
import AriannaLinux.Apk.Install.Permission
import AriannaLinux.Apk.IndexRead
import AriannaLinux.Apk.IndexCsum
import AriannaLinux.Apk.IndexSafety
import AriannaLinux.Apk.IndexSections
import AriannaLinux.Apk.Install.Triggers
import AriannaLinux.Apk.Install.Instances
import AriannaLinux.Apk.BlobSegments
import AriannaLinux.Apk.BlobWriter
import AriannaLinux.Apk.Hlist
import AriannaLinux.Apk.HashChains
import AriannaLinux.Lib.Python.PosixPath
import AriannaLinux.Bridge.Upload
import AriannaLinux.Spirits.Johny
import AriannaLinux.LetsGo.RunCommand
import AriannaLinux.Apk.Fdb.RoundTrip
import AriannaLinux.Apk.Install.RunTriggers
import AriannaLinux.Apk.Applets
import AriannaLinux.Apk.Info
import AriannaLinux.Apk.Audit
import AriannaLinux.Apk.RepositoryCache
import AriannaLinux.Apk.TriggersFile
import AriannaLinux.Apk.Reopen
