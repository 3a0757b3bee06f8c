import TypeScriptRs.Lib.HashMap
import TypeScriptRs.Lib.Machine

/-! The state of an incremental program. -/
namespace TypeScriptRs.Incremental
open Machine

abbrev Path := String

abbrev FileEmitKind := BitVec 32

def fileEmitKindNone : FileEmitKind := 0
def fileEmitKindJs : FileEmitKind := 1#32 <<< 0
def fileEmitKindJsMap : FileEmitKind := 1#32 <<< 1
def fileEmitKindJsInlineMap : FileEmitKind := 1#32 <<< 2
def fileEmitKindDtsErrors : FileEmitKind := 1#32 <<< 3
def fileEmitKindDtsEmit : FileEmitKind := 1#32 <<< 4
def fileEmitKindDtsMap : FileEmitKind := 1#32 <<< 5

def fileEmitKindDts : FileEmitKind := fileEmitKindDtsErrors ||| fileEmitKindDtsEmit
def fileEmitKindAllJs : FileEmitKind := fileEmitKindJs ||| fileEmitKindJsMap ||| fileEmitKindJsInlineMap
def fileEmitKindAllDtsEmit : FileEmitKind := fileEmitKindDtsEmit ||| fileEmitKindDtsMap
def fileEmitKindAllDts : FileEmitKind := fileEmitKindDts ||| fileEmitKindDtsMap

/-- The compiler options that the incremental state reads, each as "is set to true". -/
structure CompilerOptions where
  incremental : Bool := false
  composite : Bool := false
  build : Bool := false
  sourceMap : Bool := false
  inlineSourceMap : Bool := false
  declaration : Bool := false
  declarationMap : Bool := false
  emitDeclarationOnly : Bool := false
  isolatedModules : Bool := false
  assumeChangesOnlyAffectDirectDependencies : Bool := false
  skipLibCheck : Bool := false
  skipDefaultLibCheck : Bool := false
  noCheck : Bool := false
  noEmit : Bool := false
  noEmitOnError : Bool := false
  listFilesOnly : Bool := false
  deriving DecidableEq

namespace CompilerOptions

def isIncremental (o : CompilerOptions) : Bool := o.incremental || o.composite

def getEmitDeclarations (o : CompilerOptions) : Bool := o.declaration || o.composite

end CompilerOptions

def getFileEmitKind (o : CompilerOptions) : FileEmitKind :=
  let result := fileEmitKindJs
  let result := if o.sourceMap then result ||| fileEmitKindJsMap else result
  let result := if o.inlineSourceMap then result ||| fileEmitKindJsInlineMap else result
  let result := if o.getEmitDeclarations then result ||| fileEmitKindDts else result
  let result := if o.declarationMap then result ||| fileEmitKindDtsMap else result
  if o.emitDeclarationOnly then result &&& fileEmitKindAllDts else result

def getPendingEmitKind (emitKind oldEmitKind : FileEmitKind) : FileEmitKind :=
  if oldEmitKind = emitKind then fileEmitKindNone
  else if oldEmitKind = 0 ∨ emitKind = 0 then emitKind
  else
    let diff := oldEmitKind ^^^ emitKind
    let result := fileEmitKindNone
    let result := if diff &&& fileEmitKindAllJs ≠ 0 then result ||| (emitKind &&& fileEmitKindAllJs) else result
    let result :=
      if diff &&& fileEmitKindDtsErrors ≠ 0 then result ||| (emitKind &&& fileEmitKindAllDts) else result
    if diff &&& fileEmitKindAllDtsEmit ≠ 0 then result ||| (emitKind &&& fileEmitKindAllDtsEmit) else result

def getPendingEmitKindWithOptions (options oldOptions : CompilerOptions) : FileEmitKind :=
  getPendingEmitKind (getFileEmitKind options) (getFileEmitKind oldOptions)

inductive ResolutionMode where
  | none
  | commonJS
  | esm
  deriving DecidableEq

structure FileInfo where
  version : String
  signature : String
  affectsGlobalScope : Bool
  impliedNodeFormat : ResolutionMode
  deriving DecidableEq

structure EmitSignature where
  signature : String
  signatureWithDifferentOptions : List String
  deriving DecidableEq

def EmitSignature.getNewEmitSignature (e : EmitSignature) (oldOptions newOptions : CompilerOptions) :
    EmitSignature :=
  if oldOptions.declarationMap = newOptions.declarationMap then e
  else
    match e.signatureWithDifferentOptions with
    | [] => ⟨"", [e.signature]⟩
    | first :: _ => ⟨first, []⟩

/-- A diagnostic, by the file it is in and the diagnostics it consists of. -/
inductive Diagnostic where
  | mk (file : Option Path) (messageChain relatedInformation : List Diagnostic)

/-- A diagnostic read from a build info file. Its file is empty when it is the file that
the diagnostic is stored for. -/
inductive BuildInfoDiagnosticWithFileName where
  | mk (file : Path) (noFile : Bool) (messageChain relatedInformation : List BuildInfoDiagnosticWithFileName)

structure DiagnosticsOrBuildInfoDiagnosticsWithFileName where
  diagnostics : List Diagnostic
  buildInfoDiagnostics : List BuildInfoDiagnosticWithFileName

abbrev CachedDiagnostics := DiagnosticsOrBuildInfoDiagnosticsWithFileName

inductive Tristate where
  | unknown
  | false
  | true
  deriving DecidableEq

structure Snapshot where
  fileInfos : HashMap Path FileInfo := ∅
  options : CompilerOptions := {}
  /-- The files that a file refers to. -/
  referencedMap : HashMap Path (Finset Path) := ∅
  semanticDiagnosticsPerFile : HashMap Path CachedDiagnostics := ∅
  emitDiagnosticsPerFile : HashMap Path CachedDiagnostics := ∅
  changedFilesSet : Finset Path := ∅
  affectedFilesPendingEmit : HashMap Path FileEmitKind := ∅
  latestChangedDtsFile : String := ""
  emitSignatures : HashMap Path EmitSignature := ∅
  hasErrors : Tristate := .unknown
  hasSemanticErrors : Bool := false
  checkPending : Bool := false
  buildInfoEmitPending : Bool := false
  hasErrorsFromOldState : Tristate := .unknown
  hasSemanticErrorsFromOldState : Bool := false
  hasChangedDtsFile : Bool := false
  hasEmitDiagnostics : Bool := false
  /-- The cached list, once it has been asked for. -/
  allFilesExcludingDefaultLibraryFile : Option (List Path) := none

/-- A program of the compiler: its source files, each named by its path, and what the
compiler answers about them. -/
structure CompilerProgram where
  options : CompilerOptions
  getSourceFiles : List Path
  filesByPath : HashMap Path Path
  isSourceFileDefaultLibrary : Path → Bool
  skipTypeChecking : Path → Bool
  isDeclarationFile : Path → Bool
  isJsonSourceFile : Path → Bool
  sourceFileMayBeEmitted : Path → Bool
  /-- The hash of the text. -/
  version : Path → String
  affectsGlobalScope : Path → Bool
  impliedNodeFormat : Path → ResolutionMode
  getReferencedFiles : Path → Option (Finset Path)
  /-- The hash of the declaration file, empty when none is emitted. -/
  computeDtsSignature : Path → String
  /-- Whether the file exports a const enum of its own. -/
  exportsConstEnum : Path → Bool
  distinct : getSourceFiles.Nodup
  own : ∀ f ∈ getSourceFiles, filesByPath.lookup f = some f
  /-- A path may be redirected, but always to a source file. -/
  target : ∀ p f, filesByPath.lookup p = some f → f ∈ getSourceFiles

namespace CompilerProgram

variable (program : CompilerProgram)

def getSourceFileByPath (path : Path) : Option Path := program.filesByPath.lookup path

/-- The source files that `get_all_files_excluding_default_library_file` lists. -/
def ownFiles : List Path := program.getSourceFiles.filter fun f => !program.isSourceFileDefaultLibrary f

/-- The library files whose diagnostics are removed with a change of the global scope. -/
def checkedLibraryFiles : List Path :=
  program.getSourceFiles.filter fun f => program.isSourceFileDefaultLibrary f && !program.skipTypeChecking f

end CompilerProgram

namespace Snapshot

def addFileToChangeSet (s : Snapshot) (path : Path) : Snapshot :=
  { s with changedFilesSet := insert path s.changedFilesSet, buildInfoEmitPending := true }

def addFileToAffectedFilesPendingEmit (s : Snapshot) (path : Path) (emitKind : FileEmitKind) : Snapshot :=
  { s with
    affectedFilesPendingEmit := s.affectedFilesPendingEmit.insert path
      ((s.affectedFilesPendingEmit.lookup path).getD 0 ||| emitKind)
    emitDiagnosticsPerFile :=
      if emitKind &&& fileEmitKindDtsErrors ≠ 0 then s.emitDiagnosticsPerFile.erase path
      else s.emitDiagnosticsPerFile
    buildInfoEmitPending := true }

/-- All files but those of the default library, with the given one first. The list is
made once for a program. -/
def getAllFilesExcludingDefaultLibraryFile (s : Snapshot) (program : CompilerProgram)
    (firstSourceFile : Option Path) : List Path × Snapshot :=
  match s.allFilesExcludingDefaultLibraryFile with
  | some files => (files, s)
  | none =>
    let files := (firstSourceFile.toList ++ program.getSourceFiles.filter fun f => firstSourceFile ≠ some f).filter
      fun f => !program.isSourceFileDefaultLibrary f
    (files, { s with allFilesExcludingDefaultLibraryFile := some files })

def canUseIncrementalState (s : Snapshot) : Bool := !(!s.options.isIncremental && s.options.build)

def referencedBy (s : Snapshot) (path : Path) : Finset Path :=
  s.referencedMap.keys.filter fun q => path ∈ (s.referencedMap.lookup q).getD ∅

end Snapshot

end TypeScriptRs.Incremental
