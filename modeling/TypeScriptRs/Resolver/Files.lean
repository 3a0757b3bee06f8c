import TypeScriptRs.Resolver.State

/-! The files that are tried for a name. -/
namespace TypeScriptRs.Resolver
open Utf8 Paths

variable (host : Host) (state : ResolutionState)

def tryFile (fileName : Text) : Option Text :=
  if state.compilerOptions.moduleSuffixes = [] then
    if host.fileExists fileName then some fileName else none
  else
    let extension := tryGetExtensionFromPath fileName
    let withoutExtension := removeExtension fileName extension
    (state.compilerOptions.moduleSuffixes.map (withoutExtension ++ · ++ extension)).find? host.fileExists

def tryExtension (extension extensionless : Text) (resolvedUsingTsExtension : Bool) : Option Resolved :=
  (tryFile host state (extensionless ++ extension)).map fun path =>
    { path, extension, resolvedUsingTsExtension := !state.candidateEndingIsFromConfig && resolvedUsingTsExtension }

/-- An entry says whether its kind of file is looked for, the extension, and whether the name had a TypeScript one. -/
def tryExtensionGroup (extensionless : Text) (entries : List (Bool × Text × Bool)) : Option Resolved :=
  entries.findSome? fun (allowed, extension, resolvedUsingTsExtension) =>
    if allowed then tryExtension host state extension extensionless resolvedUsingTsExtension else none

section
variable (extensions : Extensions) (usesTs : Bool)

def mtsGroup : List (Bool × Text × Bool) :=
  [(extensions.typescript, extensionMts, usesTs), (extensions.declaration, extensionDmts, usesTs),
    (extensions.javascript, extensionMjs, false)]

def ctsGroup : List (Bool × Text × Bool) :=
  [(extensions.typescript, extensionCts, usesTs), (extensions.declaration, extensionDcts, usesTs),
    (extensions.javascript, extensionCjs, false)]

def tsxGroup : List (Bool × Text × Bool) :=
  [(extensions.typescript, extensionTsx, usesTs), (extensions.typescript, extensionTs, usesTs),
    (extensions.declaration, extensionDts, usesTs), (extensions.javascript, extensionJsx, false),
    (extensions.javascript, extensionJs, false)]

def tsGroup : List (Bool × Text × Bool) :=
  [(extensions.typescript, extensionTs, usesTs), (extensions.typescript, extensionTsx, usesTs),
    (extensions.declaration, extensionDts, usesTs), (extensions.javascript, extensionJs, false),
    (extensions.javascript, extensionJsx, false)]
end

def tryAddingExtensions (extensionless : Text) (extensions : Extensions) (originalExtension : Text) : Option Resolved :=
  let directory := getDirectoryPath extensionless
  if directory ≠ [] ∧ !directoryExistsOrRoot host directory then none
  else if originalExtension ∈ [extensionMjs, extensionMts, extensionDmts] then
    tryExtensionGroup host state extensionless (mtsGroup extensions (originalExtension ∈ [extensionMts, extensionDmts]))
  else if originalExtension ∈ [extensionCjs, extensionCts, extensionDcts] then
    tryExtensionGroup host state extensionless (ctsGroup extensions (originalExtension ∈ [extensionCts, extensionDcts]))
  else if originalExtension = extensionJson then
    (if extensions.declaration then tryExtension host state ".d.json.ts".toList extensionless false else none).or
      (if extensions.json then tryExtension host state extensionJson extensionless false else none)
  else if originalExtension ∈ [extensionTsx, extensionJsx] then
    tryExtensionGroup host state extensionless (tsxGroup extensions (originalExtension = extensionTsx))
  else if originalExtension ∈ [extensionTs, extensionDts, extensionJs, []] then
    (tryExtensionGroup host state extensionless (tsGroup extensions (originalExtension ∈ [extensionTs, extensionDts]))).or
      (if state.isConfigLookup then tryExtension host state extensionJson extensionless false else none)
  else if extensions.declaration ∧ !isDeclarationFileName (extensionless ++ originalExtension) then
    tryExtension host state (".d".toList ++ originalExtension ++ ".ts".toList) extensionless false
  else none

def loadModuleFromFileNoImplicitExtensions (extensions : Extensions) (candidate : Text) : Option Resolved :=
  if '.' ∉ getBaseFileName candidate then none
  else
    let withoutTable := removeFileExtension candidate
    let extensionless := if withoutTable = candidate then ((cutAtLast ['.'] candidate).map (·.1)).getD candidate else withoutTable
    tryAddingExtensions host state extensionless extensions (candidate.drop extensionless.length)

def loadModuleFromFile (extensions : Extensions) (candidate : Text) : Option Resolved :=
  (loadModuleFromFileNoImplicitExtensions host state extensions candidate).or
    (if !state.esmMode then tryAddingExtensions host state candidate extensions [] else none)

def loadFileNameFromPackageJsonField (extensions : Extensions) (candidate packageJsonValue : Text) : Option Resolved :=
  if (extensions.typescript && hasImplementationTsFileExtension candidate) ||
      (extensions.declaration && isDeclarationFileName candidate) then
    (tryFile host state candidate).map fun path =>
      { path, extension := tryExtractTsExtension path
        resolvedUsingTsExtension := packageJsonValue.getLast? = some '*' && tryExtractTsExtension path ≠ [] }
  else if state.isConfigLookup && extensions.json && fileExtensionIs candidate extensionJson then
    (tryFile host state candidate).map fun path => { path, extension := extensionJson }
  else loadModuleFromFileNoImplicitExtensions host state extensions candidate

/-- What is tried for the index file of a directory, where no package.json is considered. -/
def loadIndexFile (extensions : Extensions) (candidate : Text) : Option Resolved :=
  let indexPath := combinePaths candidate [if state.isConfigLookup then "tsconfig".toList else "index".toList]
  if state.esmMode || !host.directoryExists candidate then none else loadModuleFromFile host state extensions indexPath

end TypeScriptRs.Resolver
