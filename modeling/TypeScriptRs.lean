import TypeScriptRs.SourceMap.RoundTrip
import TypeScriptRs.SourceMap.DataUrl
import TypeScriptRs.Dirty.Handles
import TypeScriptRs.Build.Reporting
import TypeScriptRs.Incremental.Orders
import TypeScriptRs.Wire.BaseProtocol
import TypeScriptRs.Semver.RangePrinting
import TypeScriptRs.Vfsmatch.Soundness
import TypeScriptRs.Project.OwnerRuns
import TypeScriptRs.Project.RefCountUse
import TypeScriptRs.Printer.GeneratedNames
import TypeScriptRs.Project.CheckerRuns
import TypeScriptRs.Lsconv.UriRoundTrip
import TypeScriptRs.Resolver.Caches
import TypeScriptRs.Globs.Language
import TypeScriptRs.FileNames.Priority
import TypeScriptRs.Config.Cycles
import TypeScriptRs.Config.DeclaredValues
import TypeScriptRs.Config.InheritedSpecs
import TypeScriptRs.Incremental.ReferenceMap
import TypeScriptRs.Incremental.FileDelete
import TypeScriptRs.Wire.RequestIds
import TypeScriptRs.Resolver.InputFiles
import TypeScriptRs.Resolver.Targets
import TypeScriptRs.Symlinks.DirectoryPairs
import TypeScriptRs.SourceMap.PositionLookups
import TypeScriptRs.Incremental.RootReading
import TypeScriptRs.Incremental.CancelledEmit
import TypeScriptRs.Core.MatchedText
import TypeScriptRs.Lsconv.Clamping
import TypeScriptRs.Project.DiskText
import TypeScriptRs.Vfsmatch.WildcardNames
import TypeScriptRs.Vfsmatch.VisitedOnce
import TypeScriptRs.Core.ShortestPaths
import TypeScriptRs.Project.RealpathAliases
import TypeScriptRs.Project.WatchUri
import TypeScriptRs.Project.DeletedFiles
import TypeScriptRs.Project.WatchGlobs
import TypeScriptRs.Format.Trimming
import TypeScriptRs.Syntax.ScannedStrings
import TypeScriptRs.Jsnum.BigInt
import TypeScriptRs.Stringutil.CaseInsensitive
import TypeScriptRs.Printer.LineCharacterCache
import TypeScriptRs.Autoimport.PackageRealpath
import TypeScriptRs.Api.StringTable
import TypeScriptRs.Lsconv.SemanticTokens
import TypeScriptRs.Autoimport.Index
import TypeScriptRs.Config.WildcardDirectories
