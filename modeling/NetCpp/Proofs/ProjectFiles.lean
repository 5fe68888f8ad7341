import NetCpp.ProjContent
import NetCpp.Proofs.Args

namespace NetCpp.Proofs
open Library SettingFile Proj

/-- A text that can stand in a sentence. -/
abbrev PlainBytes := { s : Bytes // PlainText s }

/-- A block of a project: descriptions or maps with the directory that they are in, directories of
sources, or the directory of the libraries. -/
inductive Part where
  | cpt (path : PlainBytes) (names : List PlainBytes)
  | map (path : PlainBytes) (names : List PlainBytes)
  | srcDir (paths : List PlainBytes)
  | libDir (path : PlainBytes)

theorem plainText_tags : PlainText pathTag ∧ PlainText nameTag := by decide

def pathSentence (path : PlainBytes) : PlainBytes :=
  ⟨pathTag ++ path.1, plainText_append plainText_tags.1 path.2⟩

def nameSentence (name : PlainBytes) : PlainBytes :=
  ⟨nameTag ++ name.1, plainText_append plainText_tags.2 name.2⟩

namespace Part

def key : Part → Bytes
  | .cpt _ _ => cptKey
  | .map _ _ => mapKey
  | .srcDir _ => srcDirKey
  | .libDir _ => libDirKey

theorem key_known (p : Part) : p.key ∈ Proj.blockKeys := by
  cases p with
  | cpt => exact (by decide : cptKey ∈ Proj.blockKeys)
  | map => exact (by decide : mapKey ∈ Proj.blockKeys)
  | srcDir => exact (by decide : srcDirKey ∈ Proj.blockKeys)
  | libDir => exact (by decide : libDirKey ∈ Proj.blockKeys)

def sentences : Part → List PlainBytes
  | .cpt path names | .map path names => pathSentence path :: names.map nameSentence
  | .srcDir paths => paths.map pathSentence
  | .libDir path => [pathSentence path]

/-- No name is taken for a path. -/
def Clear : Part → Prop
  | .cpt _ names | .map _ names => ∀ name ∈ names, ¬pathTag <:+: nameTag ++ name.1
  | .srcDir _ | .libDir _ => True

instance Clear.decide : (p : Part) → Decidable p.Clear
  | .cpt _ names => inferInstanceAs (Decidable (∀ name ∈ names, ¬pathTag <:+: nameTag ++ name.1))
  | .map _ names => inferInstanceAs (Decidable (∀ name ∈ names, ¬pathTag <:+: nameTag ++ name.1))
  | .srcDir _ => isTrue trivial
  | .libDir _ => isTrue trivial

end Part

def fileOf (ext : Bytes) (path name : PlainBytes) : Bytes :=
  path.1 ++ ascii ['/'] ++ (name.1 ++ ascii ['.'] ++ ext)

def cptFiles : Part → List Bytes
  | .cpt path names => names.map (fileOf cptKey path)
  | _ => []

def mapFiles : Part → List Bytes
  | .map path names => names.map (fileOf mapKey path)
  | _ => []

def srcDirs : Part → List Bytes
  | .srcDir paths => paths.map Subtype.val
  | _ => []

def libDirs : Part → List Bytes
  | .libDir path => [path.1]
  | _ => []

/-- The directory of the libraries, where no other is named behind it. -/
def lastLib : Bytes → List Bytes → Option Bytes
  | lib, [] => some lib
  | lib, next :: libs => if lib = [] then lastLib next libs else none

def sentenceDocument (sentences : List PlainBytes) : Document Proj.blockKeys :=
  sentences.foldr (fun s next => .sentence s.1 s.2 next) .nil

def partDocument (parts : List Part) : Document Proj.blockKeys :=
  parts.foldr
    (fun p next => .block p.key [] p.key_known rfl (sentenceDocument p.sentences) next) .nil

structure ProjectFile where
  name : Bytes
  named : name ≠ []
  legal : ifNameIllegal name = true
  parts : List Part

def projKey : Bytes := ascii ['p', 'r', 'o', 'j']

/-- Something may stand behind the project. -/
def ProjectFile.document (f : ProjectFile) (rest : Document Proj.blockKeys) :
    Document Proj.blockKeys :=
  .block projKey f.name (by decide) f.legal (partDocument f.parts) rest

theorem built_sentenceDocument (sentences : List PlainBytes) :
    (sentenceDocument sentences).built =
      sentences.map (fun s => { sentence := s.1, ifBlk := false }) :=
  built_foldr (fun _ _ => rfl) sentences

theorem built_partDocument (parts : List Part) : (partDocument parts).built = parts.map (fun p =>
    { key := p.key, name := [], ifBlk := true, childs := (sentenceDocument p.sentences).built }) :=
  built_foldr (fun _ _ => rfl) parts

/-- The sentence as it is read. -/
def sentenceRead (s : PlainBytes) : SettingFileRead := { sentence := s.1, ifBlk := false }

theorem readTag_path (path : PlainBytes) :
    readTag (sentenceRead (pathSentence path)) = .ok { key := pathTag, value := path.1 } := by
  have hfound : readStn (pathTag ++ path.1) [pathTag, nameTag] =
      .ok (0, { key := pathTag, value := path.1 }) := by
    have h := Param.readStn_found (by decide) (List.prefix_append pathTag path.1).isInfix [nameTag]
    rwa [List.drop_left] at h
  rw [readTag, sentenceRead, pathSentence]
  simp only [hfound, bind, Except.bind]
  rfl

theorem readTag_name {name : PlainBytes} (h : ¬pathTag <:+: nameTag ++ name.1) :
    readTag (sentenceRead (nameSentence name)) = .ok { key := nameTag, value := name.1 } := by
  have hfound : readStn (nameTag ++ name.1) [pathTag, nameTag] =
      .ok (0, { key := nameTag, value := name.1 }) := by
    have h' := Param.readStn_found (by decide) (List.prefix_append nameTag name.1).isInfix []
    rw [readStn, if_neg h]
    rwa [List.drop_left] at h'
  rw [readTag, sentenceRead, nameSentence]
  simp only [hfound, bind, Except.bind]
  rfl

theorem run_names {ext : Bytes} {twice : String} {path : PlainBytes} {names : List PlainBytes}
    (hclear : ∀ name ∈ names, ¬pathTag <:+: nameTag ++ name.1) (paths : List Bytes) :
    run (dealPart ext twice) (path.1, paths) ((names.map nameSentence).map sentenceRead) =
      .ok (path.1, paths ++ names.map (fileOf ext path)) := by
  induction names generalizing paths with
  | nil => simp
  | cons name names ih =>
    obtain ⟨hname, hrest⟩ := List.forall_mem_cons.mp hclear
    have hdeal : dealPart ext twice (path.1, paths) (sentenceRead (nameSentence name)) =
        .ok (path.1, paths ++ [fileOf ext path name]) := by
      rw [dealPart, if_neg (by simp [sentenceRead])]
      simp only [readTag_name hname, bind, Except.bind]
      rfl
    rw [List.map_cons, List.map_cons, run_cons_ok hdeal, ih hrest]
    simp

theorem run_dealPart {ext : Bytes} {twice : String} (path : PlainBytes) {names : List PlainBytes}
    (hclear : ∀ name ∈ names, ¬pathTag <:+: nameTag ++ name.1) (paths : List Bytes) :
    run (dealPart ext twice) ([], paths)
    ((pathSentence path :: names.map nameSentence).map sentenceRead) =
      .ok (path.1, paths ++ names.map (fileOf ext path)) := by
  have hdeal : dealPart ext twice ([], paths) (sentenceRead (pathSentence path)) =
      .ok (path.1, paths) := by
    rw [dealPart, if_neg (by simp [sentenceRead])]
    simp only [readTag_path, bind, Except.bind]
    rfl
  rw [List.map_cons, run_cons_ok hdeal, run_names hclear]

theorem run_dealSrcDir (paths : List PlainBytes) (srcPaths : List Bytes) :
    run dealSrcDir srcPaths ((paths.map pathSentence).map sentenceRead) =
      .ok (srcPaths ++ paths.map Subtype.val) := by
  induction paths generalizing srcPaths with
  | nil => simp
  | cons path paths ih =>
    have hdeal : dealSrcDir srcPaths (sentenceRead (pathSentence path)) =
        .ok (srcPaths ++ [path.1]) := by
      rw [dealSrcDir, if_neg (by simp [sentenceRead])]
      simp only [readTag_path, bind, Except.bind]
      rfl
    rw [List.map_cons, List.map_cons, run_cons_ok hdeal, ih]
    simp

theorem run_dealLibDir (path : PlainBytes) :
    run dealLibDir [] ([pathSentence path].map sentenceRead) = .ok path.1 := by
  have hdeal : dealLibDir [] (sentenceRead (pathSentence path)) = .ok path.1 := by
    rw [dealLibDir, if_neg (by simp [sentenceRead])]
    simp only [readTag_path, bind, Except.bind]
    rfl
  rw [List.map_singleton, run_singleton, hdeal]

/-- The project with what a block adds, but for the directory of the libraries. -/
def withPart (proj : Proj) (p : Part) : Proj :=
  { proj with
    cptPaths := proj.cptPaths ++ cptFiles p
    mapPaths := proj.mapPaths ++ mapFiles p
    srcPaths := proj.srcPaths ++ srcDirs p }

/-- A block of a project as it is read. -/
def partRead (p : Part) : SettingFileRead :=
  { key := p.key, name := [], ifBlk := true, childs := p.sentences.map sentenceRead }

theorem dealBlock_part (proj : Proj) {p : Part} (hclear : p.Clear) : proj.dealBlock (partRead p) =
    match lastLib proj.libPath (libDirs p) with
    | none => .error (.message "only can a 'proj' block have one 'lib_dir' block")
    | some libPath => .ok { withPart proj p with libPath } := by
  cases p with
  | cpt path names =>
    have hkey : (partRead (.cpt path names)).key = cptKey := rfl
    rw [dealBlock, hkey, if_pos rfl]
    simp only [partRead, Part.sentences, run_dealPart path hclear, bind, Except.bind, libDirs,
      lastLib, withPart, cptFiles, mapFiles, srcDirs, List.append_nil]
    rfl
  | map path names =>
    have hkey : (partRead (.map path names)).key = mapKey := rfl
    rw [dealBlock, hkey, if_neg (by decide), if_pos rfl]
    simp only [partRead, Part.sentences, run_dealPart path hclear, bind, Except.bind, libDirs,
      lastLib, withPart, cptFiles, mapFiles, srcDirs, List.append_nil]
    rfl
  | srcDir paths =>
    have hkey : (partRead (.srcDir paths)).key = srcDirKey := rfl
    rw [dealBlock, hkey, if_neg (by decide), if_neg (by decide), if_pos rfl]
    simp only [partRead, Part.sentences, run_dealSrcDir, bind, Except.bind, libDirs, lastLib,
      withPart, cptFiles, mapFiles, srcDirs, List.append_nil]
    rfl
  | libDir path =>
    have hkey : (partRead (.libDir path)).key = libDirKey := rfl
    rw [dealBlock, hkey, if_neg (by decide), if_neg (by decide), if_neg (by decide), if_pos rfl]
    by_cases hlib : proj.libPath = []
    · simp only [partRead, Part.sentences, hlib, run_dealLibDir, bind, Except.bind, libDirs,
        lastLib, withPart, cptFiles, mapFiles, srcDirs, List.append_nil]
      rfl
    · simp only [libDirs, lastLib, if_neg hlib]
      exact if_pos hlib

theorem lastLib_append (lib : Bytes) (libs libs' : List Bytes) :
    lastLib lib (libs ++ libs') = (lastLib lib libs).bind (lastLib · libs') := by
  induction libs generalizing lib with
  | nil => rfl
  | cons next libs ih =>
    rw [List.cons_append, lastLib, lastLib]
    split
    · exact ih next
    · rfl

theorem run_dealBlock (proj : Proj) {parts : List Part} (hclear : ∀ p ∈ parts, p.Clear) :
    run dealBlock proj (parts.map partRead) =
      match lastLib proj.libPath (parts.flatMap libDirs) with
      | none => .error (.message "only can a 'proj' block have one 'lib_dir' block")
      | some libPath => .ok { parts.foldl withPart proj with libPath } := by
  induction parts generalizing proj with
  | nil => rfl
  | cons p parts ih =>
    obtain ⟨hp, hrest⟩ := List.forall_mem_cons.mp hclear
    have hdeal := dealBlock_part proj hp
    rw [List.map_cons, List.flatMap_cons, lastLib_append]
    cases hlib : lastLib proj.libPath (libDirs p) with
    | none =>
      rw [hlib] at hdeal
      rw [run_cons_error hdeal]
      rfl
    | some lib =>
      rw [hlib] at hdeal
      have hfold (q : Proj) (ps : List Part) (libPath : Bytes) :
          { ps.foldl withPart { q with libPath := lib } with libPath } =
            { ps.foldl withPart q with libPath } := by
        induction ps generalizing q with
        | nil => rfl
        | cons r ps ih => exact ih (withPart q r)
      rw [run_cons_ok hdeal, ih _ hrest, Option.bind_some]
      simp only [hfold, List.foldl_cons]

theorem foldl_withPart (proj : Proj) (parts : List Part) : parts.foldl withPart proj =
    { proj with
      cptPaths := proj.cptPaths ++ parts.flatMap cptFiles
      mapPaths := proj.mapPaths ++ parts.flatMap mapFiles
      srcPaths := proj.srcPaths ++ parts.flatMap srcDirs } := by
  induction parts generalizing proj with
  | nil => simp
  | cons p parts ih => simp [ih, withPart]

/-- A project file in which no key and no tag is mistaken is read as it was written, whatever stands
behind the project; it is refused just if a directory of the libraries is named behind another. -/
theorem dealContent_document (f : ProjectFile) {rest : Document Proj.blockKeys}
    (hdoc : (f.document rest).Unmistaken) (hclear : ∀ p ∈ f.parts, p.Clear) :
    Proj.dealContent (f.document rest).print =
      match lastLib [] (f.parts.flatMap libDirs) with
      | none => .error (.message "only can a 'proj' block have one 'lib_dir' block")
      | some libPath => .ok
        { name := f.name
          cptPaths := f.parts.flatMap cptFiles
          mapPaths := f.parts.flatMap mapFiles
          srcPaths := f.parts.flatMap srcDirs
          libPath } := by
  have hread : readBlocks (f.document rest).print Proj.blockKeys = .ok (f.document rest).built :=
    (readLoop_iff (by decide) (f.document rest) _ (Nat.le_refl _)).mpr hdoc
  have hchilds : (partDocument f.parts).built = f.parts.map partRead := by
    simp only [built_partDocument, built_sentenceDocument]
    rfl
  have hbuilt : (f.document rest).built =
      { key := projKey, name := f.name, ifBlk := true, childs := f.parts.map partRead } ::
        rest.built := by
    rw [← hchilds]
    rfl
  rw [Proj.dealContent, hread, hbuilt]
  simp only [bind, Except.bind]
  have hproj : projKey = ascii ['p', 'r', 'o', 'j'] ∧ True := ⟨rfl, trivial⟩
  rw [if_pos hproj, if_neg f.named, run_dealBlock _ hclear, foldl_withPart]
  rfl

/-- `cpt{path/c;namea;nameb;};src_dir{paths;pathx;};lib_dir{pathl;};` in a project. -/
def sampleProjectFile : ProjectFile where
  name := ascii ['p', '1']
  named := by decide
  legal := by decide
  parts := [
    .cpt ⟨ascii ['/', 'c'], by decide⟩ [⟨ascii ['a'], by decide⟩, ⟨ascii ['b'], by decide⟩],
    .srcDir [⟨ascii ['s'], by decide⟩, ⟨ascii ['x'], by decide⟩],
    .libDir ⟨ascii ['l'], by decide⟩]

theorem dealContent_document_sample : Proj.dealContent (sampleProjectFile.document .nil).print =
    match lastLib [] (sampleProjectFile.parts.flatMap libDirs) with
    | none => .error (.message "only can a 'proj' block have one 'lib_dir' block")
    | some libPath => .ok
      { name := sampleProjectFile.name
        cptPaths := sampleProjectFile.parts.flatMap cptFiles
        mapPaths := sampleProjectFile.parts.flatMap mapFiles
        srcPaths := sampleProjectFile.parts.flatMap srcDirs
        libPath } :=
  dealContent_document sampleProjectFile (by decide) (by decide)

end NetCpp.Proofs
