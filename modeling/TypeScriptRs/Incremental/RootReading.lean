import TypeScriptRs.Incremental.RootRanges

/-! The root files that are read are those that were written. -/
namespace TypeScriptRs.Incremental
open Machine Utf8 SortedGroups List Outcome

section
variable {paths : List Text} {fileId : BuildInfoFileId} {path : Text} {a : Nat}

/-- The paths whose names are listed, and the id of one of them. -/
def Called (paths : List Text) (fileId : BuildInfoFileId) (path : Text) : Prop :=
  ∃ i, paths[i]? = some path ∧ fileId = Int32.ofNat (i + 1)

theorem Called.extend {more : List Text} (extended : paths <+: more)
    (called : Called paths fileId path) : Called more fileId path := by
  obtain ⟨rest, rfl⟩ := extended
  obtain ⟨i, here, same⟩ := called
  have inside := (List.getElem?_eq_some_iff.mp here).1
  exact ⟨i, by rw [List.getElem?_append_left inside, here], same⟩

theorem ofNat_eq_iff {b : Nat} (ha : a < 2 ^ 31) (hb : b < 2 ^ 31) : Int32.ofNat a = Int32.ofNat b ↔ a = b := by
  rw [← Int32.toInt_inj, Int32.toInt_ofNat_of_lt ha, Int32.toInt_ofNat_of_lt hb]
  omega

theorem ofNat_eq_zero_iff (ha : a < 2 ^ 31) : Int32.ofNat a = 0 ↔ a = 0 :=
  ofNat_eq_iff ha (by norm_num)

theorem ofNat_pred {n : Nat} (positive : 1 ≤ n) : Int32.ofNat n - 1 = Int32.ofNat (n - 1) :=
  (Int32.ofNat_sub n 1 positive).symm

theorem fileIndex_ofNat {i : Nat} (fits : i + 1 < 2 ^ 31) : fileIndex (Int32.ofNat (i + 1)) = i := by
  have small : i < 2 ^ 31 := Nat.lt_of_succ_lt fits
  rw [fileIndex, ofNat_pred (Nat.succ_pos i), Nat.succ_sub_one, Int32.toInt_ofNat_of_lt small]
  omega

theorem called_iff (distinct : paths.Nodup)
    (member : path ∈ paths) : Called paths fileId path ↔ fileId = Int32.ofNat (paths.idxOf path + 1) := by
  have inside := idxOf_lt_length_of_mem member
  have here : paths[paths.idxOf path]? = some path := by
    rw [List.getElem?_eq_getElem inside, getElem_idxOf inside]
  constructor
  · rintro ⟨i, there, rfl⟩
    obtain ⟨within, at_⟩ := List.getElem?_eq_some_iff.mp there
    rw [← at_, List.Nodup.idxOf_getElem distinct i within]
  · rintro rfl
    exact ⟨_, here, rfl⟩
end

section
variable {naming : Naming} {to_ next : ToBuildInfo} {path : Text} {fileId : BuildInfoFileId}

structure Numbered (naming : Naming) (to_ : ToBuildInfo) (paths : List Text) : Prop where
  distinct : paths.Nodup
  names : List.Forall₂ (fun path name => fileNameOf naming path = .ok name) paths to_.buildInfo.fileNames
  known : ∀ path fileId, to_.fileNameToFileId.lookup path = some fileId → Called paths fileId path
  unknown : ∀ path, to_.fileNameToFileId.lookup path = none → path ∉ paths

def ToBuildInfo.Fits (to_ : ToBuildInfo) : Prop := to_.buildInfo.fileNames.length < 2 ^ 31

structure Asked (to_ next : ToBuildInfo) : Prop where
  names : to_.buildInfo.fileNames <+: next.buildInfo.fileNames
  rest : next.buildInfo = { to_.buildInfo with fileNames := next.buildInfo.fileNames }

theorem Asked.trans {later : ToBuildInfo} (first : Asked to_ next) (second : Asked next later) : Asked to_ later :=
  ⟨first.names.trans second.names, by rw [second.rest, first.rest]⟩

theorem Asked.fits (asked : Asked to_ next) (fits : next.Fits) : to_.Fits :=
  Nat.lt_of_le_of_lt asked.names.length_le fits

theorem toFileId_asked (given : toFileId naming to_ path = .ok (fileId, next)) : Asked to_ next := by
  unfold toFileId at given
  split at given
  · obtain ⟨name, -, whole⟩ := bind_eq_ok given
    cases whole
    exact ⟨prefix_append _ _, rfl⟩
  · cases given
    exact ⟨prefix_rfl, rfl⟩

theorem toFileId_numbered {paths : List Text}
    (numbered : Numbered naming to_ paths) (given : toFileId naming to_ path = .ok (fileId, next)) (fits : next.Fits) :
    Called (if path ∈ paths then paths else paths ++ [path]) fileId path ∧
      Numbered naming next (if path ∈ paths then paths else paths ++ [path]) := by
  have before : to_.Fits := (toFileId_asked given).fits fits
  have length := numbered.names.length_eq
  unfold toFileId at given
  cases found : to_.fileNameToFileId.lookup path with
  | some id =>
    obtain ⟨i, here, rfl⟩ := numbered.known path id found
    have inside := (List.getElem?_eq_some_iff.mp here).1
    have some_ : Int32.ofNat (i + 1) ≠ 0 := by
      rw [ne_eq, ofNat_eq_zero_iff (Nat.lt_of_le_of_lt inside (length ▸ before))]
      exact Nat.succ_ne_zero i
    rw [found, Option.getD_some, if_neg some_] at given
    cases given
    rw [if_pos (mem_of_getElem? here)]
    exact ⟨⟨i, here, rfl⟩, numbered⟩
  | none =>
    have fresh := numbered.unknown path found
    rw [found, Option.getD_none, if_pos rfl] at given
    obtain ⟨name, named, whole⟩ := bind_eq_ok given
    cases whole
    have last : Called (paths ++ [path]) (Int32.ofNat (to_.buildInfo.fileNames.length + 1)) path :=
      ⟨paths.length, by simp, by rw [length]⟩
    rw [if_neg fresh]
    refine ⟨last, ?_, ?_, ?_, ?_⟩
    · exact nodup_append.mpr ⟨numbered.distinct, nodup_singleton path, by
        rintro a member b single rfl
        exact fresh (mem_singleton.mp single ▸ member)⟩
    · exact rel_append numbered.names (.cons named .nil)
    · intro path' fileId' found'
      rw [Entries.lookup_insert] at found'
      split at found'
      · rename_i same
        cases found'
        rw [same]
        exact last
      · exact (numbered.known path' fileId' found').extend (prefix_append _ _)
    · intro path' absent
      rw [Entries.lookup_insert] at absent
      split at absent
      · cases absent
      · rename_i other
        rw [mem_append, mem_singleton]
        exact fun either => either.elim (numbered.unknown path' absent) other
end

section
variable {root : BuildInfoRoot} {first last n : Nat}

structure Span (root : BuildInfoRoot) (first last : Nat) : Prop where
  positive : 1 ≤ first
  ordered : first ≤ last
  fits : last < 2 ^ 31
  start : root.start = Int32.ofNat first
  end_ : root.end_ = if first = last then 0 else Int32.ofNat last

theorem Span.fileIds (span : Span root first last) : root.fileIds = (List.range' first (last + 1 - first)).map Int32.ofNat := by
  have ordered := span.ordered
  have fits := span.fits
  unfold BuildInfoRoot.fileIds
  rw [span.start, span.end_]
  by_cases single : first = last
  · subst single
    rw [if_pos rfl, if_pos rfl, Nat.add_sub_cancel_left]
    rfl
  have some_ : Int32.ofNat last ≠ 0 := by
    rw [ne_eq, ofNat_eq_zero_iff fits]
    omega
  have count : ((Int32.ofNat last).toInt + 1 - (Int32.ofNat first).toInt).toNat = last + 1 - first := by
    rw [Int32.toInt_ofNat_of_lt fits, Int32.toInt_ofNat_of_lt (by omega)]
    omega
  rw [if_neg single, if_neg some_, count, List.range'_eq_map_range, map_map]
  refine map_congr_left fun k _ => ?_
  exact (Int32.ofNat_add first k).symm

/-- The roots stand for the numbers, and the last of them ends with the last number. -/
structure Ranges (roots : List BuildInfoRoot) (numbers : List Nat) : Prop where
  fileIds : roots.flatMap BuildInfoRoot.fileIds = numbers.map Int32.ofNat
  named : ∀ root ∈ roots, root.nonIncremental = ""
  last : ∀ root ∈ roots.getLast?, ∃ first n, Span root first n ∧ n ∈ numbers

theorem ranges_nil : Ranges [] [] := ⟨rfl, by rintro _ ⟨⟩, by rintro _ ⟨⟩⟩

theorem Span.join_iff (span : Span root first last) (later : last < n)
    (fits : n < 2 ^ 31) : (root.end_ = Int32.ofNat n - 1 ∨ (root.end_ = 0 ∧ root.start = Int32.ofNat n - 1)) ↔
      n = last + 1 := by
  have ordered := span.ordered
  rw [ofNat_pred (by omega), span.start, span.end_, ofNat_eq_iff (by omega) (by omega)]
  by_cases single : first = last
  · have zero : (0 : Int32) = Int32.ofNat (n - 1) ↔ n - 1 = 0 := eq_comm.trans (ofNat_eq_zero_iff (by omega))
    rw [if_pos single, zero, eq_self_iff_true, true_and]
    omega
  · rw [if_neg single, ofNat_eq_iff (by omega) (by omega), ofNat_eq_zero_iff (by omega)]
    omega

theorem addRoot_ranges {roots : List BuildInfoRoot} {numbers : List Nat} (ranges : Ranges roots numbers)
    (positive : 1 ≤ n) (fits : n < 2 ^ 31) (later : ∀ m ∈ numbers, m < n) :
    Ranges (addRoot roots (Int32.ofNat n)) (numbers ++ [n]) := by
  have single : Span { start := Int32.ofNat n } n n := ⟨positive, le_refl n, fits, rfl, (if_pos rfl).symm⟩
  have alone : Ranges (roots ++ [{ start := Int32.ofNat n }]) (numbers ++ [n]) := by
    refine ⟨?_, ?_, ?_⟩
    · rw [flatMap_append, ranges.fileIds, map_append]
      rfl
    · intro root member
      rcases mem_append.mp member with before | here
      · exact ranges.named root before
      · rw [mem_singleton.mp here]
    · intro root last
      rw [List.getLast?_concat] at last
      cases last
      exact ⟨n, n, single, by simp⟩
  unfold addRoot
  cases ends : roots.getLast? with
  | none =>
    rw [List.getLast?_eq_none_iff.mp ends] at alone
    exact alone
  | some last =>
    obtain ⟨first, m, span, member⟩ := ranges.last last ends
    have below := later m member
    obtain ⟨front, rfl⟩ := List.getLast?_eq_some_iff.mp ends
    dsimp only
    rw [if_congr (span.join_iff below fits) rfl rfl]
    split
    · have ordered := span.ordered
      have joined : Span { last with end_ := Int32.ofNat n } first n :=
        ⟨span.positive, by omega, fits, span.start, (if_neg (by omega)).symm⟩
      have fileIds := ranges.fileIds
      rw [dropLast_concat]
      refine ⟨?_, ?_, ?_⟩
      · rw [flatMap_append, flatMap_singleton] at fileIds ⊢
        rw [map_append, ← fileIds, joined.fileIds, span.fileIds, append_assoc, ← map_append]
        have count : n + 1 - first = m + 1 - first + 1 := by omega
        have top : first + (m + 1 - first) = n := by omega
        rw [count, List.range'_concat, Nat.one_mul, top]
      · intro root there
        rcases mem_append.mp there with before | here
        · exact ranges.named root (mem_append_left _ before)
        · rw [mem_singleton.mp here]
          exact ranges.named last (mem_append_right _ (mem_singleton_self last))
      · intro root last
        rw [List.getLast?_concat] at last
        cases last
        exact ⟨first, n, joined, by simp⟩
    · exact alone
end

/-- The source files of a program, and a table from some of them to the files that were asked for. -/
structure RootFiles where
  sourceFiles : List Text
  roots : List (Text × Text)
  distinct : sourceFiles.Nodup
  keys : (roots.map (·.1)).Nodup
  listed : ∀ root ∈ roots, root.1 ∈ sourceFiles

namespace RootFiles

variable (files : RootFiles)

def number (root : Text × Text) : Nat := files.sourceFiles.idxOf root.1 + 1

def ordered : List (Text × Text) := sortByKey files.number files.roots

theorem ordered_perm : files.ordered.Perm files.roots := perm_insertionSort _ files.roots

theorem mem_ordered {root : Text × Text} : root ∈ files.ordered ↔ root ∈ files.roots := files.ordered_perm.mem_iff

theorem number_inj {a b : Text × Text} (ha : a ∈ files.roots) (hb : b ∈ files.roots)
    (same : files.number a = files.number b) : a = b := by
  have files_ : a.1 = b.1 := (idxOf_inj (files.listed a ha)).mp (Nat.succ.inj same)
  exact inj_on_of_nodup_map files.keys ha hb files_

theorem ordered_nodup : files.ordered.Nodup :=
  files.ordered_perm.nodup_iff.mpr (List.Nodup.of_map _ files.keys)

theorem ordered_increasing : files.ordered.Pairwise fun a b => files.number a < files.number b := by
  have sorted : files.ordered.Pairwise fun a b => files.number a ≤ files.number b :=
    pairwise_insertionSort _ files.roots
  refine (sorted.and files.ordered_nodup).imp_of_mem fun {a b} ha hb both => ?_
  refine lt_of_le_of_ne both.1 fun same => both.2 ?_
  exact files.number_inj (files.mem_ordered.mp ha) (files.mem_ordered.mp hb) same

variable {getParseFileRedirect : Text → Text} {getSourceFile : Text → Option Text} {originalPath : Text → Text}

theorem collectRootFiles_keys (fileNames : List Text) :
    ((collectRootFiles getParseFileRedirect getSourceFile originalPath fileNames).map (·.1)).Nodup ∧
      ∀ root ∈ collectRootFiles getParseFileRedirect getSourceFile originalPath fileNames,
        ∃ name, getSourceFile name = some root.1 := by
  induction fileNames using List.reverseRecOn with
  | nil => exact ⟨nodup_nil, by rintro _ ⟨⟩⟩
  | append_singleton fileNames fileName ih =>
    unfold collectRootFiles at ih ⊢
    rw [foldl_concat]
    dsimp only
    split
    · rename_i file found
      refine ⟨Entries.nodup_insert ih.1 _ _, fun root member => ?_⟩
      rcases Entries.mem_insert member with rfl | old
      · split at found
        · exact ⟨_, found⟩
        · exact ⟨_, found⟩
      · exact ih.2 root old
    · exact ih

/-- The root files of a command line, with source files that the program has. -/
def collected (sourceFiles : List Text) (distinct : sourceFiles.Nodup)
    (has : ∀ name file, getSourceFile name = some file → file ∈ sourceFiles)
    (getParseFileRedirect : Text → Text) (originalPath : Text → Text) (fileNames : List Text) : RootFiles where
  sourceFiles := sourceFiles
  roots := collectRootFiles getParseFileRedirect getSourceFile originalPath fileNames
  distinct := distinct
  keys := (collectRootFiles_keys fileNames).1
  listed := fun root member => ((collectRootFiles_keys fileNames).2 root member).elim fun name => has name root.1

end RootFiles

section
variable {naming : Naming} {fileInfos : Text → Option FileInfo} {files : RootFiles}
variable {to_ next : ToBuildInfo} {paths : List Text} {file : Text × Text}

def writtenRoots (naming : Naming) (fileInfos : Text → Option FileInfo) (files : RootFiles) : Outcome ToBuildInfo := do
  let to_ ← setFileInfo naming fileInfos files.sourceFiles {}
  setRootOfIncrementalProgram naming files.roots to_

theorem addFileInfo_asks {file : Text} (added : addFileInfo naming fileInfos to_ file = .ok next) : ∃ fileId mid fileInfo,
      toFileId naming to_ file = .ok (fileId, mid) ∧ next = { mid with
        buildInfo := { mid.buildInfo with fileInfos := mid.buildInfo.fileInfos ++ [fileInfo] } } := by
  unfold addFileInfo at added
  split at added
  · cases added
  · obtain ⟨⟨fileId, mid⟩, asked, later⟩ := bind_eq_ok added
    obtain ⟨-, -, whole⟩ := bind_eq_ok later
    cases whole
    exact ⟨fileId, mid, _, asked, rfl⟩

/-- The source files are numbered, with an info each and no roots. -/
structure Listed (naming : Naming) (paths : List Text) (to_ : ToBuildInfo) : Prop where
  numbered : Numbered naming to_ paths
  fileInfos : to_.buildInfo.fileInfos.length = paths.length
  root : to_.buildInfo.root = []
  resolvedRoot : to_.buildInfo.resolvedRoot = []

theorem setFileInfo_listed (ran : setFileInfo naming fileInfos files.sourceFiles {} = .ok next) (fits : next.Fits) :
    Listed naming files.sourceFiles next := by
  refine (@foldlM_ran _ _ _ ToBuildInfo.Fits (Listed naming) _ ?_ ?_ _ _ ran fits ?_).1
  · intro to_ file next added fits
    obtain ⟨fileId, mid, fileInfo, asked, rfl⟩ := addFileInfo_asks added
    exact (toFileId_asked asked).fits fits
  · intro done file rest parts to_ next added fits listed
    obtain ⟨fileId, mid, fileInfo, asked, rfl⟩ := addFileInfo_asks added
    have distinct := files.distinct
    rw [parts] at distinct
    have fresh : file ∉ done := fun member =>
      (nodup_append.mp distinct).2.2 file member file mem_cons_self rfl
    obtain ⟨-, numbered⟩ := toFileId_numbered listed.numbered asked fits
    rw [if_neg fresh] at numbered
    have kept := (toFileId_asked asked).rest
    refine ⟨⟨numbered.distinct, numbered.names, numbered.known, numbered.unknown⟩, ?_, ?_, ?_⟩
    · rw [length_append, length_append, kept]
      exact congrArg (· + 1) listed.fileInfos
    · rw [kept]
      exact listed.root
    · rw [kept]
      exact listed.resolvedRoot
  · exact ⟨⟨nodup_nil, .nil, by rintro _ _ ⟨⟩, by rintro _ _ ⟨⟩⟩, rfl, rfl, rfl⟩

theorem toFileId_known (numbered : Numbered naming to_ paths) (fits : to_.Fits) {path : Text} (member : path ∈ paths) :
    toFileId naming to_ path = .ok (Int32.ofNat (paths.idxOf path + 1), to_) := by
  have inside := idxOf_lt_length_of_mem member
  rw [numbered.names.length_eq] at inside
  have some_ : Int32.ofNat (paths.idxOf path + 1) ≠ 0 := by
    rw [ne_eq, ofNat_eq_zero_iff (Nat.lt_of_le_of_lt inside fits)]
    exact Nat.succ_ne_zero _
  cases found : to_.fileNameToFileId.lookup path with
  | none => exact absurd member (numbered.unknown path found)
  | some fileId =>
    have same := (called_iff numbered.distinct member).mp (numbered.known path fileId found)
    rw [toFileId, found, Option.getD_some, same, if_neg some_]
    rfl

theorem withFileIds (numbered : Numbered naming to_ files.sourceFiles) (fits : to_.Fits) :
    files.roots.foldlM (withFileId naming) ([], to_) =
      .ok (files.roots.map fun root => (Int32.ofNat (files.number root), root), to_) := by
  suffices run : ∀ (roots : List (Text × Text)) (before : List (BuildInfoFileId × Text × Text)),
      (∀ root ∈ roots, root.1 ∈ files.sourceFiles) → roots.foldlM (withFileId naming) (before, to_) =
        .ok (before ++ roots.map fun root => (Int32.ofNat (files.number root), root), to_) from
    run files.roots [] files.listed
  intro roots
  induction roots with
  | nil =>
    intro before _
    rw [map_nil, append_nil]
    rfl
  | cons root rest ih =>
    intro before listed
    have step : withFileId naming (before, to_) root =
        .ok (before ++ [(Int32.ofNat (files.number root), root)], to_) := by
      rw [withFileId, toFileId_known numbered fits (listed root mem_cons_self)]
      rfl
    rw [foldlM_cons, step, monad_bind, bind_ok,
      ih _ fun other member => listed other (mem_cons_of_mem _ member), append_assoc]
    rfl

structure Rooted (naming : Naming) (files : RootFiles) (infos : List BuildInfoFileInfo) (done : List (Text × Text))
    (to_ : ToBuildInfo) : Prop where
  fileInfos : to_.buildInfo.fileInfos = infos
  ranges : Ranges to_.buildInfo.root (done.map files.number)
  paths : ∃ paths, files.sourceFiles <+: paths ∧ Numbered naming to_ paths ∧
    List.Forall₂ (fun entry root => Called paths entry.resolved root.1 ∧ Called paths entry.root root.2)
      to_.buildInfo.resolvedRoot (done.filter fun root => root.1 ≠ root.2)

theorem rooted_start (listed : Listed naming files.sourceFiles to_) : Rooted naming files to_.buildInfo.fileInfos [] to_ := by
  refine ⟨rfl, ?_, files.sourceFiles, prefix_rfl, listed.numbered, ?_⟩
  · rw [listed.root]
    exact ranges_nil
  · rw [listed.resolvedRoot]
    exact .nil

theorem addResolvedRoot_asks (added : addResolvedRoot naming to_ file = .ok next) : ∃ root mid resolved last,
      toFileId naming to_ file.2 = .ok (root, mid) ∧ toFileId naming mid file.1 = .ok (resolved, last) ∧
        next = { last with
          buildInfo := { last.buildInfo with
            root := addRoot last.buildInfo.root resolved
            resolvedRoot := if root ≠ resolved then last.buildInfo.resolvedRoot ++ [⟨resolved, root⟩]
              else last.buildInfo.resolvedRoot } } := by
  obtain ⟨⟨root, mid⟩, first, later⟩ := bind_eq_ok added
  obtain ⟨⟨resolved, last⟩, second, whole⟩ := bind_eq_ok later
  cases whole
  exact ⟨root, mid, resolved, last, first, second, rfl⟩

theorem addResolvedRoot_fits (added : addResolvedRoot naming to_ file = .ok next) (fits : next.Fits) : to_.Fits := by
  obtain ⟨root, mid, resolved, last, first, second, rfl⟩ := addResolvedRoot_asks added
  exact ((toFileId_asked first).trans (toFileId_asked second)).fits fits

theorem Called.ne_iff (distinct : paths.Nodup) (fits : paths.length < 2 ^ 31)
    {a b : BuildInfoFileId} {p q : Text} (first : Called paths a p) (second : Called paths b q) : a ≠ b ↔ q ≠ p := by
  obtain ⟨i, here, rfl⟩ := first
  obtain ⟨k, there, rfl⟩ := second
  have inside := (List.getElem?_eq_some_iff.mp here).1
  have inside' := (List.getElem?_eq_some_iff.mp there).1
  rw [ne_eq, ofNat_eq_iff (by omega) (by omega), Nat.succ_inj, not_iff_not]
  constructor
  · rintro rfl
    exact Option.some.inj (there.symm.trans here)
  · rintro rfl
    exact (List.getElem?_inj inside distinct).mp (here.trans there.symm)

theorem addResolvedRoot_rooted {infos : List BuildInfoFileInfo} {done rest : List (Text × Text)}
    (parts : files.ordered = done ++ file :: rest)
    (added : addResolvedRoot naming to_ file = .ok next) (fits : next.Fits) (rooted : Rooted naming files infos done to_) :
    Rooted naming files infos (done ++ [file]) next := by
  obtain ⟨root, mid, resolved, last, first, second, rfl⟩ := addResolvedRoot_asks added
  obtain ⟨kept, ranges, paths, extended, numbered, entries⟩ := rooted
  have midFits : mid.Fits := (toFileId_asked second).fits fits
  obtain ⟨called, numbered₁⟩ := toFileId_numbered numbered first midFits
  have grown : paths <+: if file.2 ∈ paths then paths else paths ++ [file.2] := by
    split
    · exact prefix_rfl
    · exact prefix_append _ _
  generalize (if file.2 ∈ paths then paths else paths ++ [file.2]) = paths₁ at called numbered₁ grown
  have source : file.1 ∈ files.sourceFiles := by
    refine files.listed file (files.mem_ordered.mp ?_)
    rw [parts]
    exact mem_append_right _ mem_cons_self
  have whole := extended.trans grown
  have member : file.1 ∈ paths₁ := whole.subset source
  have number : paths₁.idxOf file.1 + 1 = files.number file := by
    obtain ⟨rest, rfl⟩ := whole
    rw [idxOf_append_of_mem source, RootFiles.number]
  have length : paths₁.length < 2 ^ 31 := numbered₁.names.length_eq ▸ midFits
  have bound : files.number file < 2 ^ 31 := by
    rw [← number]
    exact Nat.lt_of_le_of_lt (idxOf_lt_length_of_mem member) length
  have calledSource : Called paths₁ (Int32.ofNat (files.number file)) file.1 := by
    rw [← number]
    exact (called_iff numbered₁.distinct member).mpr rfl
  rw [toFileId_known numbered₁ midFits member, number] at second
  cases second
  have rest := (toFileId_asked first).rest
  refine ⟨?_, ?_, paths₁, whole, ⟨numbered₁.distinct, numbered₁.names, numbered₁.known, numbered₁.unknown⟩, ?_⟩
  · rw [rest]
    exact kept
  · rw [rest, map_append]
    refine addRoot_ranges ranges (Nat.succ_pos _) bound fun m member => ?_
    obtain ⟨before, there, rfl⟩ := mem_map.mp member
    have increasing := files.ordered_increasing
    rw [parts] at increasing
    exact (pairwise_append.mp increasing).2.2 before there file mem_cons_self
  have older : List.Forall₂ (fun entry root => Called paths₁ entry.resolved root.1 ∧ Called paths₁ entry.root root.2)
      to_.buildInfo.resolvedRoot (done.filter fun root => root.1 ≠ root.2) :=
    entries.imp fun _ _ both => ⟨both.1.extend grown, both.2.extend grown⟩
  have differs := called.ne_iff numbered₁.distinct length calledSource
  rw [rest, filter_append, if_congr differs rfl rfl]
  split
  · rename_i other
    rw [filter_cons_of_pos (by simpa using other), filter_nil]
    exact rel_append older (.cons ⟨calledSource, called⟩ .nil)
  · rename_i same
    rw [filter_cons_of_neg (by simpa using same), filter_nil, append_nil]
    exact older

theorem setRoot_loops (ran : setRootOfIncrementalProgram naming files.roots to_ = .ok next)
    (fits : next.Fits) : ∃ keys mid, files.roots.foldlM (withFileId naming) ([], to_) = .ok (keys, mid) ∧
      (sortByKey (fun key : BuildInfoFileId × Text × Text => key.1.toInt) keys).foldlM
        (fun to_ key => addResolvedRoot naming to_ key.2) mid = .ok next ∧ to_.Fits := by
  obtain ⟨⟨keys, mid⟩, first, second⟩ := bind_eq_ok ran
  have midFits : mid.Fits := (@foldlM_ran _ _ _ ToBuildInfo.Fits (fun _ _ => True) _
    (fun _ _ _ added => addResolvedRoot_fits added) (fun _ _ _ _ _ _ _ _ _ => trivial) _ _ second fits trivial).2
  refine ⟨keys, mid, first, second, ?_⟩
  refine (@foldlM_ran _ (List (BuildInfoFileId × Text × Text) × ToBuildInfo) _ (fun state => state.2.Fits)
    (fun _ _ => True) _ ?_ (fun _ _ _ _ _ _ _ _ _ => trivial) _ _ first midFits trivial).2
  rintro state root state' given fits
  obtain ⟨⟨fileId, last⟩, asked, whole⟩ := bind_eq_ok given
  cases whole
  exact (toFileId_asked asked).fits fits

theorem setRoot_rooted (listed : Listed naming files.sourceFiles to_)
    (ran : setRootOfIncrementalProgram naming files.roots to_ = .ok next) (fits : next.Fits) :
    Rooted naming files to_.buildInfo.fileInfos files.ordered next := by
  obtain ⟨keys, mid, first, ran, start⟩ := setRoot_loops ran fits
  rw [withFileIds listed.numbered start] at first
  cases first
  have bound : ∀ root ∈ files.roots, files.number root < 2 ^ 31 := fun root member =>
    Nat.lt_of_le_of_lt (idxOf_lt_length_of_mem (files.listed root member))
      (listed.numbered.names.length_eq ▸ start)
  have sorted : sortByKey (fun key : BuildInfoFileId × Text × Text => key.1.toInt)
      (files.roots.map fun root => (Int32.ofNat (files.number root), root)) =
      files.ordered.map fun root => (Int32.ofNat (files.number root), root) := by
    refine sortByKey_map _ fun a ha b hb => ?_
    rw [Int32.toInt_ofNat_of_lt (bound a ha), Int32.toInt_ofNat_of_lt (bound b hb)]
    exact Nat.cast_le.symm
  rw [sorted, foldlM_map] at ran
  exact (@foldlM_ran _ _ _ ToBuildInfo.Fits (Rooted naming files to_.buildInfo.fileInfos) _
    (fun _ _ _ added => addResolvedRoot_fits added)
    (fun _ _ _ parts _ _ added fits rooted => addResolvedRoot_rooted parts added fits rooted)
    _ _ ran fits (rooted_start listed)).1
end

section
def readBack (naming : Naming) (path : Text) : Text :=
  match fileNameOf naming path with
  | .ok name => toPath naming name
  | _ => []

variable {naming : Naming} {files : RootFiles} {info : BuildInfo} {paths : List Text}

structure Names (naming : Naming) (info : BuildInfo) (paths : List Text) : Prop where
  bound : paths.length < 2 ^ 31
  named : ∀ (i : Nat) (path : Text), paths[i]? = some path →
    ∃ name, info.fileNames[i]? = some name ∧ fileNameOf naming path = .ok name

theorem Names.fileName (names : Names naming info paths) {fileId : BuildInfoFileId} {path : Text}
    (called : Called paths fileId path) :
    ∃ name, info.fileName fileId = .ok name ∧ toPath naming name = readBack naming path := by
  obtain ⟨i, here, rfl⟩ := called
  obtain ⟨name, listed, named⟩ := names.named i path here
  have inside := (List.getElem?_eq_some_iff.mp here).1
  have bound := names.bound
  refine ⟨name, ?_, ?_⟩
  · rw [BuildInfo.fileName, fileIndex_ofNat (by omega), listed]
    rfl
  · rw [readBack, named]

theorem numbered_names {to_ : ToBuildInfo} (numbered : Numbered naming to_ paths) (fits : to_.Fits) (later : List String) :
    Names naming { to_.buildInfo with fileNames := to_.buildInfo.fileNames ++ later } paths := by
  refine ⟨numbered.names.length_eq ▸ fits, fun i path here => ?_⟩
  obtain ⟨inside, rfl⟩ := List.getElem?_eq_some_iff.mp here
  have inside' := inside
  rw [numbered.names.length_eq] at inside'
  refine ⟨to_.buildInfo.fileNames[i], ?_, numbered.names.get inside inside'⟩
  rw [List.getElem?_append_left inside', List.getElem?_eq_getElem inside']

theorem resolvedToRoot_eq (names : Names naming info paths) {entries : List BuildInfoResolvedRoot} {roots : List (Text × Text)}
    (called : List.Forall₂ (fun entry root => Called paths entry.resolved root.1 ∧ Called paths entry.root root.2)
      entries roots) : ∀ table : List (Text × Text),
    entries.foldlM (fun table entry => do
      let resolved ← info.fileName entry.resolved
      let root ← info.fileName entry.root
      pure (Entries.insert table (toPath naming resolved) (toPath naming root))) table =
    .ok (roots.foldl (fun table root => Entries.insert table (readBack naming root.1) (readBack naming root.2)) table) := by
  induction called with
  | nil =>
    intro table
    rfl
  | cons both _ ih =>
    intro table
    obtain ⟨resolved, first, back⟩ := names.fileName both.1
    obtain ⟨root, second, back'⟩ := names.fileName both.2
    rw [foldlM_cons, first, second, foldl_cons, ← ih]
    simp only [monad_bind, bind_ok, monad_pure, back, back']

theorem readRanges_eq {roots : List BuildInfoRoot} (incremental : ∀ root ∈ roots, root.nonIncremental = "")
    (table : List (Text × Text)) : ∀ reader : BuildInfoRootInfoReader, roots.foldlM (readRange naming info table) reader =
      (roots.flatMap BuildInfoRoot.fileIds).foldlM (readFileId naming info table) reader := by
  induction roots with
  | nil =>
    intro reader
    rfl
  | cons root rest ih =>
    intro reader
    have here : readRange naming info table reader root =
        root.fileIds.foldlM (readFileId naming info table) reader := by
      rw [readRange, incremental root mem_cons_self]
      exact if_neg (not_not_intro rfl)
    rw [foldlM_cons, flatMap_cons, foldlM_append, here]
    refine congrArg _ (funext fun next => ?_)
    exact ih (fun other member => incremental other (mem_cons_of_mem _ member)) next

def entryOf (naming : Naming) (table : List (Text × Text)) (root : Text × Text) : Text × Text :=
  ((table.lookup (readBack naming root.1)).getD (readBack naming root.1), readBack naming root.1)

theorem readFileIds_eq (names : Names naming info paths) (infos : info.fileInfos.length = files.sourceFiles.length)
    (extended : files.sourceFiles <+: paths) (table : List (Text × Text)) {roots : List (Text × Text)}
    (listed : ∀ root ∈ roots, root.1 ∈ files.sourceFiles) : ∀ reader : BuildInfoRootInfoReader,
    ∃ next, (roots.map fun root => Int32.ofNat (files.number root)).foldlM (readFileId naming info table) reader =
      .ok next ∧ next.rootToResolved =
        (roots.map (entryOf naming table)).foldl (fun kept e => Entries.insert kept e.1 e.2) reader.rootToResolved := by
  induction roots with
  | nil =>
    intro reader
    exact ⟨reader, rfl, rfl⟩
  | cons root rest ih =>
    intro reader
    have source := listed root mem_cons_self
    have inside := idxOf_lt_length_of_mem source
    have inside' : files.sourceFiles.idxOf root.1 < info.fileInfos.length := infos ▸ inside
    have called : Called paths (Int32.ofNat (files.number root)) root.1 :=
      Called.extend extended ⟨_, by rw [List.getElem?_eq_getElem inside, getElem_idxOf inside], rfl⟩
    obtain ⟨name, found, back⟩ := names.fileName called
    have bound := Nat.lt_of_le_of_lt extended.length_le names.bound
    obtain ⟨fileInfo, known⟩ : ∃ fileInfo, info.fileInfo (Int32.ofNat (files.number root)) = .ok fileInfo := by
      refine ⟨info.fileInfos[files.sourceFiles.idxOf root.1], ?_⟩
      rw [BuildInfo.fileInfo, RootFiles.number, fileIndex_ofNat (by omega), List.getElem?_eq_getElem]
      rfl
    obtain ⟨next, ran, table'⟩ := ih (fun other member => listed other (mem_cons_of_mem _ member))
      (readRoot naming table reader name (some fileInfo))
    refine ⟨next, ?_, ?_⟩
    · rw [map_cons, foldlM_cons, readFileId, found, known]
      exact ran
    · rw [table', map_cons, foldl_cons, readRoot, back]
      rfl
end

section
variable (naming : Naming) (files : RootFiles) {infos : List BuildInfoFileInfo} {to_ : ToBuildInfo}

/-- The reader finds each root once, with the source file that it resolves to, whatever names come after those
that were written. -/
def RootsLossless (to_ : ToBuildInfo) : Prop :=
  ∀ later : List String, ∃ reader,
    getBuildInfoRootInfoReader naming { to_.buildInfo with fileNames := to_.buildInfo.fileNames ++ later } = .ok reader ∧
      reader.rootToResolved = files.ordered.map fun root => (root.2, root.1)

def ReadsBack (path : Text) : Prop := ∃ name, fileNameOf naming path = .ok name ∧ toPath naming name = path

/-- The names of the roots and of the files that were asked for are read back, and no two roots were asked for by
one path. -/
structure RootsNamed : Prop where
  readBack : ∀ root ∈ files.roots, ReadsBack naming root.1 ∧ ReadsBack naming root.2
  originals : (files.roots.map (·.2)).Nodup

/-- The table from resolved roots to the files that were asked for, as it is read. -/
def readTable : List (Text × Text) :=
  (files.ordered.filter fun root => root.1 ≠ root.2).foldl
    (fun table root => Entries.insert table (readBack naming root.1) (readBack naming root.2)) []

variable {naming files}

theorem rootReadsBack_iff {path : Text} {name : String} (named : fileNameOf naming path = .ok name) :
    ReadsBack naming path ↔ readBack naming path = path := by
  rw [readBack, named]
  exact ⟨fun ⟨name', named', back⟩ => by rw [named] at named'; cases named'; exact back, fun back => ⟨name, named, back⟩⟩

theorem entryOf_eq (back : ∀ root ∈ files.ordered, readBack naming root.1 = root.1) {root : Text × Text}
    (member : root ∈ files.ordered) :
    entryOf naming (readTable naming files) root = (if root.1 ≠ root.2 then readBack naming root.2 else root.1, root.1) := by
  let others := files.ordered.filter fun root => root.1 ≠ root.2
  have keys : ((others.map fun root => (root.1, readBack naming root.2)).map (·.1)).Nodup := by
    have all : (files.ordered.map (·.1)).Nodup :=
      (files.ordered_perm.map (·.1)).nodup_iff.mpr files.keys
    rw [map_map]
    exact all.sublist (filter_sublist.map _)
  have table : readTable naming files = others.map fun root => (root.1, readBack naming root.2) := by
    have read := Entries.foldl_insert_distinct _ [] (by rwa [nil_append])
    rw [nil_append, foldl_map] at read
    rw [← read]
    refine foldl_ext _ _ _ fun table other there => ?_
    rw [back other (mem_filter.mp there).1]
  rw [entryOf, back root member, table]
  by_cases other : root.1 ≠ root.2
  · have there : root ∈ others := mem_filter.mpr ⟨member, decide_eq_true other⟩
    have coherent := Entries.distinct_coherent (others.map fun root => (root.1, readBack naming root.2))
    rw [Entries.distinct_of_nodup keys] at coherent
    rw [coherent _ (mem_map_of_mem there), if_pos other, Option.getD_some]
  have absent : root.1 ∉ (others.map fun root => (root.1, readBack naming root.2)).map (·.1) := by
    intro there
    rw [map_map] at there
    obtain ⟨root', listed, same⟩ := mem_map.mp there
    obtain ⟨inside, differs⟩ := mem_filter.mp listed
    have equal : root' = root :=
      inj_on_of_nodup_map files.keys (files.mem_ordered.mp inside) (files.mem_ordered.mp member) same
    rw [equal] at differs
    exact other (of_decide_eq_true differs)
  rw [Entries.lookup_eq_none_of_keys absent, if_neg other, Option.getD_none]

theorem entries_iff : (files.ordered.map (entryOf naming (readTable naming files)) =
      files.ordered.map fun root => (root.2, root.1)) ↔
    ∀ root ∈ files.roots, readBack naming root.1 = root.1 ∧ readBack naming root.2 = root.2 := by
  rw [map_inj_left]
  constructor
  · intro entries root member
    have back : ∀ root ∈ files.ordered, readBack naming root.1 = root.1 := fun root there =>
      congrArg Prod.snd (entries root there)
    have there := files.mem_ordered.mpr member
    have original := congrArg Prod.fst ((entryOf_eq back there).symm.trans (entries root there))
    refine ⟨back root there, ?_⟩
    by_cases other : root.1 ≠ root.2
    · rwa [if_pos other] at original
    · rw [← not_not.mp other]
      exact back root there
  · intro back root member
    rw [entryOf_eq (fun other there => (back other (files.mem_ordered.mp there)).1) member,
      (back root (files.mem_ordered.mp member)).2]
    split
    · rfl
    · rename_i same
      rw [not_not.mp same]

theorem nodup_inserted (entries : List (Text × Text)) : ∀ kept : List (Text × Text), (kept.map (·.1)).Nodup →
    ((entries.foldl (fun kept e => Entries.insert kept e.1 e.2) kept).map (·.1)).Nodup := by
  induction entries with
  | nil =>
    intro kept distinct
    exact distinct
  | cons e entries ih =>
    intro kept distinct
    exact ih _ (Entries.nodup_insert distinct e.1 e.2)

theorem inserted_iff {entries expected : List (Text × Text)} (count : entries.length = expected.length) :
    entries.foldl (fun kept e => Entries.insert kept e.1 e.2) [] = expected ↔
      entries = expected ∧ (expected.map (·.1)).Nodup := by
  constructor
  · intro read
    have same := (Entries.foldl_insert_of_length entries).2 (by rw [read, count])
    exact ⟨same.symm.trans read, read ▸ nodup_inserted entries [] nodup_nil⟩
  · rintro ⟨rfl, distinct⟩
    exact Entries.foldl_insert_distinct entries [] (by rwa [nil_append])

theorem Rooted.named (rooted : Rooted naming files infos files.ordered to_) : ∀ root ∈ files.roots,
    (∃ name, fileNameOf naming root.1 = .ok name) ∧ ∃ name, fileNameOf naming root.2 = .ok name := by
  obtain ⟨-, -, paths, extended, numbered, entries⟩ := rooted
  have named : ∀ path ∈ paths, ∃ name, fileNameOf naming path = .ok name := by
    intro path member
    obtain ⟨i, inside, rfl⟩ := getElem_of_mem member
    have inside' := inside
    rw [numbered.names.length_eq] at inside'
    exact ⟨_, numbered.names.get inside inside'⟩
  have asked : ∀ root ∈ files.ordered.filter (fun root => root.1 ≠ root.2), root.2 ∈ paths := by
    intro root member
    obtain ⟨i, inside, rfl⟩ := getElem_of_mem member
    have inside' := inside
    rw [← entries.length_eq] at inside'
    obtain ⟨k, there, -⟩ := (entries.get inside' inside).2
    exact mem_of_getElem? there
  intro root member
  have source := named root.1 (extended.subset (files.listed root member))
  refine ⟨source, ?_⟩
  by_cases other : root.1 ≠ root.2
  · exact named _ (asked root (mem_filter.mpr ⟨files.mem_ordered.mpr member, decide_eq_true other⟩))
  · rwa [← not_not.mp other]

theorem Rooted.read (rooted : Rooted naming files infos files.ordered to_) (count : infos.length = files.sourceFiles.length)
    (fits : to_.Fits) (later : List String) : ∃ reader,
    getBuildInfoRootInfoReader naming { to_.buildInfo with fileNames := to_.buildInfo.fileNames ++ later } = .ok reader ∧
      reader.rootToResolved = (files.ordered.map (entryOf naming (readTable naming files))).foldl
        (fun kept e => Entries.insert kept e.1 e.2) [] := by
  obtain ⟨kept, ranges, paths, extended, numbered, entries⟩ := rooted
  have names := numbered_names numbered fits later
  have fileIds := ranges.fileIds
  rw [map_map] at fileIds
  have listed : ∀ root ∈ files.ordered, root.1 ∈ files.sourceFiles := fun root member =>
    files.listed root (files.mem_ordered.mp member)
  obtain ⟨reader, ran, read⟩ :=
    readFileIds_eq names (by rw [← count, ← kept]) extended (readTable naming files) listed {}
  refine ⟨reader, ?_, read⟩
  have table : resolvedToRoot naming { to_.buildInfo with fileNames := to_.buildInfo.fileNames ++ later } =
      .ok (readTable naming files) := resolvedToRoot_eq names entries []
  rw [getBuildInfoRootInfoReader, table, monad_bind, bind_ok, readRanges_eq ranges.named, fileIds]
  exact ran

end

/-- Files below `/p`, and a default library elsewhere. -/
def libraryNaming : Naming where
  getDefaultLibFile path := if path = "/lib/lib.d.ts".toList then some ⟨"lib.d.ts", false⟩ else none
  buildInfoDirectory := "/p".toList
  comparePathsOptions := ⟨true, "/p".toList⟩
  toLowercase c := [c]

def unversioned : Text → Option FileInfo := fun _ => some ⟨"", "", false, .none⟩

def singleRoot (path : Text) : RootFiles where
  sourceFiles := [path]
  roots := [(path, path)]
  distinct := nodup_singleton path
  keys := nodup_singleton path
  listed := fun _ member => mem_singleton.mp member ▸ mem_singleton_self path

def writtenRoot (path : Text) (name : String) : ToBuildInfo where
  buildInfo := {
    fileNames := [name]
    fileInfos := [newBuildInfoFileInfo ⟨"", "", false, .none⟩]
    fileInfosPresent := true
    root := [{ start := 1 }] }
  fileNameToFileId := [(path, 1)]

theorem writtenRoot_fits (path : Text) (name : String) : (writtenRoot path name).Fits := Nat.one_lt_two_pow (by decide)

end TypeScriptRs.Incremental
