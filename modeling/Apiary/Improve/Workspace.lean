import Apiary.Improve.Blanking

/-!
# The files the advisor is given

`discover` collects the main configuration, the workflow files it uses, soul files and
skills.  The configuration goes through the redactor, every other file is passed on as
it is on disk.
-/

namespace Apiary.Improve

open List

/-! ## Discovery -/

inductive FileKind where
  | config
  | workflow
  | soul
  | skill
  deriving DecidableEq

/-- The path functions of the host, the search for a skill's file and the test that
keeps a path out of the workspace. -/
structure Paths where
  abs : String → String
  dir : String → String
  base : String → String
  isAbs : String → Bool
  join : String → String → String
  clean : String → String
  rel : String → String → String
  resolveSkill : String → String → String
  excluded : String → String → Bool

structure UsedFiles where
  id : String
  uses : List String

structure AgentFiles where
  id : String
  soulFile : String := ""
  skills : List String := []

/-- The parts of the loaded configuration that name files. -/
structure AdvisorConfig where
  workflows : List UsedFiles
  agents : List AgentFiles := []

structure FileRef where
  path : String
  kind : FileKind
  owner : String := ""

section Discover

variable (paths : Paths) (cfg : AdvisorConfig) (configFile : String)

def workspaceRoot : String :=
  let root := paths.dir (paths.abs configFile)
  if paths.base root = ".apiary" then paths.dir root else root

/-- The files in the order in which discovery asks for them. -/
def references : List FileRef :=
  let root := workspaceRoot paths configFile
  { path := paths.abs configFile, kind := .config } ::
    (cfg.workflows.flatMap fun wf => (wf.uses.filter (· ≠ "")).map fun file =>
      { path := paths.join (paths.dir (paths.abs configFile)) file, kind := .workflow,
        owner := wf.id }) ++
    cfg.agents.flatMap fun agent =>
      { path := agent.soulFile, kind := .soul, owner := agent.id } ::
        ((agent.skills.map (paths.resolveSkill root)).filter (· ≠ "")).map fun file =>
          { path := file, kind := .skill, owner := agent.id }

/-- A file that discovery took up: its full path, how it was asked for, what was read. -/
structure Entry (α : Type) where
  full : String
  ref : FileRef
  data : α

def fullPath (path : String) : String :=
  paths.clean (if paths.isAbs path then path else paths.join (workspaceRoot paths configFile) path)

/-- Takes up a file unless it has no name, was seen, is excluded or cannot be read. -/
def add {α : Type} (read : String → Option α) (entries : List (Entry α)) (ref : FileRef) :
    List (Entry α) :=
  let full := fullPath paths configFile ref.path
  if ref.path = "" ∨ (entries.any fun entry => entry.full = full) = true ∨
      paths.excluded full (workspaceRoot paths configFile) = true then entries
  else
    match read full with
    | none => entries
    | some data => entries ++ [{ full := full, ref := ref, data := data }]

def collect {α : Type} (read : String → Option α) : List (Entry α) :=
  (references paths cfg configFile).foldl (add paths configFile read) []

structure WorkspaceFile where
  path : String
  kind : FileKind
  owner : String
  content : Text
  bytes : ℕ

def fileContent (kind : FileKind) (raw : Text) : Text :=
  if kind = .config then redactConfig raw else raw

def workspaceFile (entry : Entry Text) : WorkspaceFile where
  path := paths.rel (workspaceRoot paths configFile) entry.full
  kind := entry.ref.kind
  owner := entry.ref.owner
  content := fileContent entry.ref.kind entry.data
  bytes := (entry.data.map Char.utf8Size).sum

def discover (read : String → Option Text) : List WorkspaceFile :=
  (collect paths cfg configFile read).map (workspaceFile paths configFile)

def Entry.map {α β : Type} (f : α → β) (entry : Entry α) : Entry β :=
  { full := entry.full, ref := entry.ref, data := f entry.data }

/-- What is in the files plays no part in which of them are taken up. -/
theorem collect_map {α β : Type} (f : α → β) (read : String → Option α) :
    collect paths cfg configFile (fun path => (read path).map f) =
      (collect paths cfg configFile read).map (Entry.map f) := by
  have hadd : ∀ (entries : List (Entry α)) (ref : FileRef),
      add paths configFile (fun path => (read path).map f) (entries.map (Entry.map f)) ref =
        (add paths configFile read entries ref).map (Entry.map f) := by
    intro entries ref
    have hseen : ((entries.map (Entry.map f)).any fun entry =>
        entry.full = fullPath paths configFile ref.path) =
          entries.any fun entry => entry.full = fullPath paths configFile ref.path := by
      rw [List.any_map]
      rfl
    simp only [add, hseen]
    split
    · rfl
    · cases read (fullPath paths configFile ref.path) with
      | none => rfl
      | some => simp [Entry.map]
  exact @foldl_hom _ _ _ (List.map (Entry.map f)) _ _ _ [] hadd

end Discover

/-! ## Lines of a text -/

theorem newline_notMem_splitOn (raw : Text) : ∀ line ∈ raw.splitOn '\n', '\n' ∉ line := by
  induction raw with
  | nil => simp
  | cons c raw ih =>
    rw [splitOn_cons_eq_if_modifyHead]
    split
    · intro line hline
      rcases mem_cons.mp hline with rfl | hline
      · exact not_mem_nil
      · exact ih line hline
    · rename_i hc
      obtain ⟨first, rest, hlines⟩ := exists_cons_of_ne_nil (splitOn_ne_nil '\n' raw)
      rw [hlines] at ih ⊢
      intro line hline
      rcases mem_cons.mp hline with rfl | hline
      · rw [mem_cons, not_or]
        exact ⟨fun h => hc (beq_iff_eq.mpr h.symm), ih first mem_cons_self⟩
      · exact ih line (mem_cons_of_mem _ hline)

theorem newline_notMem_redactedFor {t : Text} (ht : '\n' ∉ t) : '\n' ∉ redactedFor t := by
  rw [redactedFor]
  split
  · intro hmem
    exact ht ((trimSpace_infix_self t).subset hmem)
  · decide +kernel

theorem newline_notMem_redactLine (s : Scan) {line : Text} (hline : '\n' ∉ line) :
    '\n' ∉ redactLine s line := by
  rw [redactLine_eq]
  cases hcut : cut s line with
  | none => exact hline
  | some split =>
    have hjoin := cut_split hcut
    intro hmem
    rcases mem_append.mp hmem with hmem | hmem
    · exact hline (hjoin ▸ mem_append_left _ hmem)
    · exact newline_notMem_redactedFor (fun h => hline (hjoin ▸ mem_append_right _ h)) hmem

theorem newline_notMem_redactLines (s : Scan) {lines : List Text}
    (hlines : ∀ line ∈ lines, '\n' ∉ line) : ∀ line ∈ redactLines s lines, '\n' ∉ line := by
  induction lines generalizing s with
  | nil => simp [redactLines]
  | cons line lines ih =>
    intro out hout
    rcases mem_cons.mp hout with rfl | hout
    · exact newline_notMem_redactLine s (hlines line mem_cons_self)
    · exact ih _ (fun l hl => hlines l (mem_cons_of_mem _ hl)) out hout

theorem splitOn_redactConfig (raw : Text) :
    (redactConfig raw).splitOn '\n' = redactLines {} (raw.splitOn '\n') := by
  refine splitOn_intercalate '\n' (newline_notMem_redactLines _ (newline_notMem_splitOn raw)) ?_
  rw [ne_eq, ← length_eq_zero_iff, length_redactLines, length_eq_zero_iff]
  exact splitOn_ne_nil '\n' raw

/-- The redactor makes two configurations equal exactly when their lines look the same. -/
theorem redactConfig_eq_iff {raw raw' : Text} :
    redactConfig raw = redactConfig raw' ↔ Alike (raw.splitOn '\n') (raw'.splitOn '\n') := by
  rw [← redactLines_eq_iff]
  constructor
  · intro hsame
    rw [← splitOn_redactConfig, hsame, splitOn_redactConfig]
  · intro hsame
    rw [redactConfig, hsame, redactConfig]

/-! ## Workspaces with their values left open -/

/-- A stretch of a file: fixed text, or the place of a secret value. -/
inductive Piece where
  | text (t : Text)
  | secret (slot : ℕ)

/-- A file in which slots stand for the values of env entries and secret-named keys, in
whatever form they are written. -/
abbrev FileLayout := List Piece

/-- The secret values, each any text at all. -/
abbrev Filling := ℕ → Text

def Piece.fill (v : Filling) : Piece → Text
  | .text t => t
  | .secret slot => v slot

def FileLayout.text (v : Filling) (file : FileLayout) : Text := file.flatMap (Piece.fill v)

/-- A workspace on disk, by full path. -/
abbrev Disk := String → Option FileLayout

/-- The contents the advisor gets for a workspace under a filling. -/
def advisorContents (paths : Paths) (cfg : AdvisorConfig) (configFile : String) (disk : Disk)
    (v : Filling) : List Text :=
  (discover paths cfg configFile fun path => (disk path).map (FileLayout.text v)).map
    WorkspaceFile.content

/-- Two fillings of a file look the same: line by line in the main configuration, and to the
letter in every other file. -/
def Entry.SameView (entry : Entry FileLayout) (v w : Filling) : Prop :=
  if entry.ref.kind = .config then
    Alike ((entry.data.text v).splitOn '\n') ((entry.data.text w).splitOn '\n')
  else entry.data.text v = entry.data.text w

theorem advisorContents_eq (paths : Paths) (cfg : AdvisorConfig) (configFile : String)
    (disk : Disk) (v : Filling) :
    advisorContents paths cfg configFile disk v =
      (collect paths cfg configFile disk).map fun entry =>
        fileContent entry.ref.kind (entry.data.text v) := by
  rw [advisorContents, discover, collect_map, List.map_map, List.map_map]
  rfl

theorem Entry.content_eq_iff (entry : Entry FileLayout) (v w : Filling) :
    fileContent entry.ref.kind (entry.data.text v) =
      fileContent entry.ref.kind (entry.data.text w) ↔ entry.SameView v w := by
  rw [fileContent, fileContent, Entry.SameView]
  split
  · exact redactConfig_eq_iff
  · exact Iff.rfl

/-- Two workspaces that differ in secret values only give the advisor the same contents
exactly when every file but the main configuration is the same in both, and on every line of
the main configuration both values are blanked behind the same lead, or the same is shown. -/
theorem secrets_hidden_iff (paths : Paths) (cfg : AdvisorConfig) (configFile : String)
    (disk : Disk) (v w : Filling) :
    advisorContents paths cfg configFile disk v = advisorContents paths cfg configFile disk w ↔
      ∀ entry ∈ collect paths cfg configFile disk, entry.SameView v w := by
  rw [advisorContents_eq, advisorContents_eq, map_inj_left]
  exact forall₂_congr fun entry _ => entry.content_eq_iff v w

/-- Paths that are absolute already. -/
def plainPaths : Paths where
  abs := id
  dir _ := "/repo"
  base _ := "repo"
  isAbs _ := true
  join dir file := dir ++ "/" ++ file
  clean := id
  rel _ path := path
  resolveSkill _ _ := ""
  excluded _ _ := false

/-- What the advisor reads of a workspace of one file with one secret value. -/
def soleContents (before : String) (secret : Text) (after : String) : List Text :=
  advisorContents plainPaths { workflows := [] } "/repo/apiary.yaml"
    (fun _ => some [.text before.toList, .secret 0, .text after.toList]) fun _ => secret

example : soleContents "env:\n  DB_URL: " "postgres://u:p@h".toList "\n" =
    ["env:\n  DB_URL: <redacted>\n".toList] := by
  decide +kernel

/-- An environment that is a flow mapping on the line of its key: the advisor reads the
password. -/
theorem flowEnv_password_shown :
    soleContents "agents:\n  - id: qa\n    env: \x7bDB_PASSWORD: " "hunter2".toList "\x7d" =
        ["agents:\n  - id: qa\n    env: \x7bDB_PASSWORD: hunter2\x7d".toList] ∧
      soleContents "agents:\n  - id: qa\n    env: \x7bDB_PASSWORD: " "hunter2".toList "\x7d" ≠
        soleContents "agents:\n  - id: qa\n    env: \x7bDB_PASSWORD: " "swordfish".toList "\x7d" := by
  decide +kernel

end Apiary.Improve
