import Apiary.Runner.Prompt
import Mathlib.Data.Nat.Find

/-!
# What a step recalls

The recall section of a prompt has the index of long-term memory and the notes of the task and
its ancestors.  The index gets half of the budget for its lines, but its header and the count
of the entries it leaves out are written without a check, and so is the line break before the
notes, which get all that is left.
-/

namespace Apiary.Runner

open List

structure EntryMeta where
  name : Text
  description : Text

/-- The notes of a task of the lineage, which are not empty. -/
structure NoteBlock where
  id : Text
  notes : Text

section Index

def indexHeader : Text :=
  '[' :: "Long-term Memory]\n".toList ++
    "Persistent memory lives at $APIARY_MEMORY_DIR. The index is below; read the full\n".toList ++
    "entry from $APIARY_MEMORY_DIR/global/<name>.md when one looks relevant. To save a\n".toList ++
    "durable fact for future tasks, emit an APIARY_MEMORIZE block (scope \"global\",\n".toList ++
    "kebab-case name, one-line description, markdown content). Never memorize secrets.\n".toList

def indexLine (m : EntryMeta) : Text :=
  "- ".toList ++ m.name ++ " — ".toList ++ m.description ++ ['\n']

def moreEntries (n : ℕ) : Text :=
  ("(… " ++ toString n ++ " more entries — read MEMORY.md)\n").toList

/-- The lines up to the first that does not fit. -/
def fitLines (budget : ℕ) (text : Text) : List EntryMeta → List Text
  | [] => []
  | m :: metas =>
    if budget < byteLength text + byteLength (indexLine m) then []
    else indexLine m :: fitLines budget (text ++ indexLine m) metas

def renderGlobalIndex (metas : List EntryMeta) (budget : ℕ) : Text :=
  let shown := fitLines budget indexHeader metas
  if metas = [] then []
  else indexHeader ++ shown.flatten ++
    if shown.length < metas.length then moreEntries (metas.length - shown.length) else []

end Index

section Notes

/-- The notes of the task come first; those of a parent are under a line that names it. -/
def renderBlock (block : NoteBlock) (i : ℕ) : Text :=
  (if 0 < i then "(from parent task ".toList ++ block.id ++ ")\n".toList else []) ++
    block.notes ++ ['\n']

def renderBlocks (blocks : List NoteBlock) : Text :=
  "[Task Memory]\n".toList ++ (blocks.zipIdx.map fun entry => renderBlock entry.1 entry.2).flatten

/-- Leaves out the ancestors, the most distant first. -/
def fitBlocks (blocks : List NoteBlock) (budget : ℕ) : ℕ → Option Text
  | 0 => none
  | keep + 1 =>
    if byteLength (renderBlocks (blocks.take (keep + 1))) ≤ budget then
      some (renderBlocks (blocks.take (keep + 1)))
    else fitBlocks blocks budget keep

/-- Leaves out the oldest lines of the task's own notes. -/
def fitOwn (id : Text) (budget : ℕ) : List Text → Text
  | [] => []
  | _ :: lines =>
    let out := renderBlocks [⟨id, ['\n'].intercalate lines⟩]
    if lines = [] then [] else if byteLength out ≤ budget then out else fitOwn id budget lines

def renderTaskNotes (blocks : List NoteBlock) (budget : ℕ) : Text :=
  match blocks with
  | [] => []
  | self :: _ =>
    (fitBlocks blocks budget blocks.length).getD (fitOwn self.id budget (self.notes.splitOn '\n'))

end Notes

def recallBudget (budget : ℕ) : ℕ := if budget = 0 then 4000 else budget

def joinSections (global task : Text) : Text :=
  if global = [] then task else if task = [] then global else global ++ '\n' :: task

/-- `wantTask` and `wantGlobal` are the tiers that the step asks for. -/
def renderRecall (metas : List EntryMeta) (blocks : List NoteBlock) (wantTask wantGlobal : Bool)
    (budget : ℕ) : Text :=
  let global := if wantGlobal then renderGlobalIndex metas (recallBudget budget / 2) else []
  let remaining := recallBudget budget - byteLength global
  joinSections global (if wantTask && 0 < remaining then renderTaskNotes blocks remaining else [])

/-! ## The size of the index -/

section Index

theorem byteLength_joinSections {global : Text} (hglobal : global ≠ []) (task : Text) :
    byteLength (joinSections global task) =
      byteLength global + if task = [] then 0 else byteLength task + 1 := by
  rw [joinSections, if_neg hglobal]
  split
  · rfl
  · have hbreak : '\n'.utf8Size = 1 := by decide
    rw [byteLength_append, byteLength_cons, hbreak]
    omega

def entriesBytes (metas : List EntryMeta) : ℕ := (metas.map fun m => byteLength (indexLine m)).sum

/-- The loop shows the longest run of entries that fits. -/
theorem fitLines_longest (budget : ℕ) (text : Text) (metas : List EntryMeta) :
    ∃ shown ≤ metas.length, fitLines budget text metas = (metas.take shown).map indexLine ∧
      (shown ≠ 0 → byteLength text + entriesBytes (metas.take shown) ≤ budget) ∧
      ∀ n, shown < n → n ≤ metas.length →
        budget < byteLength text + entriesBytes (metas.take n) := by
  induction metas generalizing text with
  | nil => exact ⟨0, le_rfl, rfl, by omega, fun n hn hle => by simp at hle; omega⟩
  | cons m metas ih =>
    have hcons : ∀ n, entriesBytes ((m :: metas).take (n + 1)) =
        byteLength (indexLine m) + entriesBytes (metas.take n) := by
      intro n
      rw [take_succ_cons, entriesBytes, map_cons, sum_cons, entriesBytes]
    rw [fitLines]
    split
    case isTrue hover =>
      refine ⟨0, Nat.zero_le _, rfl, by omega, fun n hn _ => ?_⟩
      obtain ⟨n, rfl⟩ := Nat.exists_eq_succ_of_ne_zero (Nat.ne_of_gt hn)
      rw [hcons]
      omega
    case isFalse hfits =>
      obtain ⟨shown, hle, heq, hin, hout⟩ := ih (text ++ indexLine m)
      rw [byteLength_append] at hin hout
      refine ⟨shown + 1, Nat.succ_le_succ hle, by rw [heq]; rfl, fun _ => ?_, fun n hn hall => ?_⟩
      · rw [hcons]
        rcases Nat.eq_zero_or_pos shown with rfl | hpos
        · simp only [take_zero, entriesBytes, map_nil, sum_nil]
          omega
        · have hin := hin (Nat.ne_of_gt hpos)
          omega
      · have hpos := Nat.lt_of_le_of_lt (Nat.zero_le _) hn
        obtain ⟨n, rfl⟩ := Nat.exists_eq_succ_of_ne_zero (Nat.ne_of_gt hpos)
        rw [hcons]
        have hout := hout n (by omega) (by simpa using hall)
        omega

/-- How many entries the index shows: those that fit half the budget together with the header. -/
def shownEntries (metas : List EntryMeta) (half : ℕ) : ℕ :=
  Nat.findGreatest
    (fun n => byteLength indexHeader + entriesBytes (metas.take n) ≤ half) metas.length

theorem fitLines_shown (metas : List EntryMeta) (half : ℕ) :
    fitLines half indexHeader metas = (metas.take (shownEntries metas half)).map indexLine := by
  obtain ⟨shown, hle, heq, hin, hout⟩ := fitLines_longest half indexHeader metas
  have hshown : shownEntries metas half = shown :=
    Nat.findGreatest_eq_iff.mpr ⟨hle, hin, fun n hn hall => not_le.mpr (hout n hn hall)⟩
  rw [heq, hshown]

/-- The bytes of the header, of the entries shown and of the count of the others. -/
def indexBytes (metas : List EntryMeta) (half : ℕ) : ℕ :=
  let shown := shownEntries metas half
  byteLength indexHeader + entriesBytes (metas.take shown) +
    if shown < metas.length then byteLength (moreEntries (metas.length - shown)) else 0

theorem byteLength_renderGlobalIndex {metas : List EntryMeta} (hmetas : metas ≠ []) (half : ℕ) :
    byteLength (renderGlobalIndex metas half) = indexBytes metas half := by
  have hlength : (fitLines half indexHeader metas).length = shownEntries metas half := by
    rw [fitLines_shown, length_map, length_take]
    exact Nat.min_eq_left (Nat.findGreatest_le _)
  have hlines : byteLength (fitLines half indexHeader metas).flatten =
      entriesBytes (metas.take (shownEntries metas half)) := by
    rw [fitLines_shown, byteLength_flatten, map_map]
    rfl
  rw [renderGlobalIndex, if_neg hmetas, byteLength_append, byteLength_append, hlines, hlength,
    indexBytes]
  split <;> rfl

theorem byteLength_digits (n : ℕ) :
    byteLength (toString n).toList = (Nat.toDigits 10 n).length := by
  have hone : ∀ c ∈ Nat.toDigits 10 n, c.utf8Size = 1 := by
    intro c hc
    have hdigit := Nat.isDigit_of_mem_toDigits (by decide) (by decide) hc
    simp only [Char.isDigit, Bool.and_eq_true, decide_eq_true_eq] at hdigit
    exact Char.utf8Size_eq_one_iff.mpr (UInt32.le_trans hdigit.2 (by decide))
  rw [Nat.toString_eq_ofList_toDigits, String.toList_ofList, byteLength,
    map_congr_left (g := fun _ => 1) hone]
  simp

theorem byteLength_moreEntries_mono {n m : ℕ} (h : n ≤ m) :
    byteLength (moreEntries n) ≤ byteLength (moreEntries m) := by
  have hdigits : (Nat.toDigits 10 n).length ≤ (Nat.toDigits 10 m).length := by
    apply (Nat.length_toDigits_le_iff (by decide) Nat.length_toDigits_pos).mpr
    exact h.trans_lt ((Nat.length_toDigits_le_iff (by decide) Nat.length_toDigits_pos).mp le_rfl)
  simp only [moreEntries, String.toList_append, byteLength_append, byteLength_digits]
  omega

/-- The header is written whatever the budget; when it takes more than its half, no entry fits
below it, and the count of all of them follows. -/
theorem indexBytes_le_iff {metas : List EntryMeta} (hmetas : metas ≠ []) {budget : ℕ}
    (hcount : byteLength (moreEntries metas.length) ≤ byteLength indexHeader) :
    indexBytes metas (budget / 2) ≤ budget ↔ byteLength indexHeader ≤ budget / 2 ∨
      byteLength indexHeader + byteLength (moreEntries metas.length) ≤ budget := by
  have hpos : 0 < metas.length := length_pos_of_ne_nil hmetas
  have hmarker := byteLength_moreEntries_mono
    (Nat.sub_le metas.length (shownEntries metas (budget / 2)))
  have hempty : entriesBytes (metas.take 0) = 0 := rfl
  have hshown : byteLength indexHeader ≤ budget / 2 → byteLength indexHeader +
      entriesBytes (metas.take (shownEntries metas (budget / 2))) ≤ budget / 2 := by
    intro hhalf
    apply Nat.findGreatest_spec (P := fun n =>
      byteLength indexHeader + entriesBytes (metas.take n) ≤ budget / 2) (Nat.zero_le _)
    rwa [hempty, Nat.add_zero]
  have hnone : ¬ byteLength indexHeader ≤ budget / 2 → shownEntries metas (budget / 2) = 0 := by
    intro hhalf
    apply Nat.findGreatest_eq_zero_iff.mpr
    exact fun n _ _ hfits => hhalf ((Nat.le_add_right _ _).trans hfits)
  rw [indexBytes]
  generalize byteLength indexHeader = header at *
  by_cases hhalf : header ≤ budget / 2
  · refine iff_of_true ?_ (.inl hhalf)
    have hshown := hshown hhalf
    split <;> omega
  · rw [hnone hhalf, hempty, if_pos hpos, Nat.sub_zero, Nat.add_zero, or_iff_right hhalf]

end Index

/-! ## The size of the notes -/

section Notes

def ownBytes (notes : Text) : ℕ := byteLength "[Task Memory]\n".toList + (byteLength notes + 1)

/-- The bytes of a parent's notes with the line that names the parent. -/
def parentBytes (block : NoteBlock) : ℕ :=
  byteLength "(from parent task )\n".toList + byteLength block.id + (byteLength block.notes + 1)

def notesBytes : List NoteBlock → ℕ
  | [] => byteLength "[Task Memory]\n".toList
  | self :: parents => ownBytes self.notes + (parents.map parentBytes).sum

theorem byteLength_renderBlock (block : NoteBlock) (i : ℕ) : byteLength (renderBlock block i) =
    if 0 < i then parentBytes block else byteLength block.notes + 1 := by
  have hbreak : byteLength ['\n'] = 1 := by decide
  have hline : byteLength "(from parent task )\n".toList =
    byteLength "(from parent task ".toList + byteLength ")\n".toList := by decide +kernel
  rw [renderBlock, byteLength_append, byteLength_append, hbreak, parentBytes, hline]
  split
  · rw [byteLength_append, byteLength_append]
    omega
  · rw [byteLength_nil, Nat.zero_add]

theorem byteLength_renderBlocks (blocks : List NoteBlock) :
    byteLength (renderBlocks blocks) = notesBytes blocks := by
  have hparents : ∀ (parents : List NoteBlock) (k : ℕ), byteLength ((parents.zipIdx (k + 1)).map
      fun entry => renderBlock entry.1 entry.2).flatten = (parents.map parentBytes).sum := by
    intro parents
    induction parents with
    | nil => exact fun _ => rfl
    | cons block parents ih =>
      intro k
      rw [zipIdx_cons, map_cons, flatten_cons, byteLength_append, ih (k + 1), map_cons, sum_cons,
        byteLength_renderBlock, if_pos (Nat.succ_pos k)]
  unfold renderBlocks
  rw [byteLength_append]
  cases blocks with
  | nil => exact Nat.add_zero _
  | cons self parents =>
    rw [zipIdx_cons, map_cons, flatten_cons, byteLength_append, hparents parents 0, notesBytes,
      ownBytes, byteLength_renderBlock, if_neg (Nat.lt_irrefl 0)]
    exact (Nat.add_assoc _ _ _).symm

theorem notesBytes_take_mono (blocks : List NoteBlock) {n m : ℕ} (hn : 0 < n) (h : n ≤ m) :
    notesBytes (blocks.take n) ≤ notesBytes (blocks.take m) := by
  obtain ⟨n, rfl⟩ := Nat.exists_eq_succ_of_ne_zero (Nat.ne_of_gt hn)
  obtain ⟨k, rfl⟩ := Nat.exists_eq_add_of_le h
  cases blocks with
  | nil => rw [take_nil, take_nil]
  | cons self parents =>
    rw [Nat.succ_add, take_succ_cons, take_succ_cons, notesBytes, notesBytes, take_add, map_append,
      sum_append_nat]
    omega

/-- The notes can be cut so that they take exactly `room` bytes: to the task and its nearest
ancestors, or to what follows a line break of the task's own notes. -/
def Fills (blocks : List NoteBlock) (room : ℕ) : Prop :=
  (∃ keep, 0 < keep ∧ keep ≤ blocks.length ∧ notesBytes (blocks.take keep) = room) ∨
    ∃ self parents older newer, blocks = self :: parents ∧ self.notes = older ++ '\n' :: newer ∧
      ownBytes newer = room

theorem fitBlocks_cases (blocks : List NoteBlock) (room keep : ℕ) :
    (fitBlocks blocks room keep = none ∧
      ∀ n, 0 < n → n ≤ keep → room < notesBytes (blocks.take n)) ∨
    ∃ kept, 0 < kept ∧ kept ≤ keep ∧
      fitBlocks blocks room keep = some (renderBlocks (blocks.take kept)) ∧
      notesBytes (blocks.take kept) ≤ room ∧
      ∀ n, kept < n → n ≤ keep → room < notesBytes (blocks.take n) := by
  induction keep with
  | zero => exact .inl ⟨rfl, by omega⟩
  | succ keep ih =>
    rw [fitBlocks, byteLength_renderBlocks]
    split
    case isTrue hfits => exact .inr ⟨keep + 1, by omega, le_rfl, rfl, hfits, by omega⟩
    case isFalse hover =>
      -- the run of all blocks is over the room, the shorter ones are as before
      have hlast : ∀ n, n ≤ keep + 1 → n ≤ keep ∨ room < notesBytes (blocks.take n) := by
        intro n hn
        rcases Nat.le_succ_iff.mp hn with hle | rfl
        · exact .inl hle
        · exact .inr (not_le.mp hover)
      rcases ih with ⟨hnone, hall⟩ | ⟨kept, hpos, hle, hsome, hfits, hmore⟩
      · exact .inl ⟨hnone, fun n hn hle => (hlast n hle).elim (hall n hn) id⟩
      · exact .inr ⟨kept, hpos, by omega, hsome, hfits,
          fun n hn hle => (hlast n hle).elim (hmore n hn) id⟩

theorem byteLength_lines_le (older newer : List Text) :
    byteLength (['\n'].intercalate newer) ≤ byteLength (['\n'].intercalate (older ++ newer)) := by
  induction older with
  | nil => exact le_rfl
  | cons line older ih =>
    rw [cons_append]
    cases hrest : older ++ newer with
    | nil =>
      rw [(append_eq_nil_iff.mp hrest).2]
      exact Nat.zero_le _
    | cons =>
      rw [intercalate_cons_cons, ← hrest, byteLength_append]
      exact ih.trans (Nat.le_add_left _ _)

theorem byteLength_fitOwn_eq_iff (id : Text) {room : ℕ} (hroom : 0 < room) (lines : List Text) :
    byteLength (fitOwn id room lines) = room ↔ ∃ older newer, older ≠ [] ∧ newer ≠ [] ∧
      lines = older ++ newer ∧ ownBytes (['\n'].intercalate newer) = room := by
  induction lines with
  | nil =>
    refine iff_of_false (Nat.ne_of_lt hroom) ?_
    rintro ⟨older, newer, holder, -, heq, -⟩
    exact holder (append_eq_nil_iff.mp heq.symm).1
  | cons line lines ih =>
    have hown : byteLength (renderBlocks [⟨id, ['\n'].intercalate lines⟩]) =
        ownBytes (['\n'].intercalate lines) := byteLength_renderBlocks _
    rw [fitOwn, hown]
    split
    case isTrue hlines =>
      refine iff_of_false (Nat.ne_of_lt hroom) ?_
      rintro ⟨older, newer, holder, hnewer, heq, -⟩
      rw [hlines] at heq
      rcases append_eq_singleton_iff.mp heq.symm with ⟨h, -⟩ | ⟨-, h⟩
      · exact holder h
      · exact hnewer h
    case isFalse hlines =>
      split
      case isTrue hfits =>
        rw [hown]
        constructor
        · exact fun heq => ⟨[line], lines, cons_ne_nil _ _, hlines, rfl, heq⟩
        · rintro ⟨older, newer, holder, -, heq, hexact⟩
          obtain ⟨older, rfl⟩ : ∃ older', older = line :: older' := by
            cases older with
            | nil => exact absurd rfl holder
            | cons first older => exact ⟨older, by rw [(List.cons.inj heq).1]⟩
          have hlines : lines = older ++ newer := (List.cons.inj heq).2
          have hle := byteLength_lines_le older newer
          rw [← hlines] at hle
          simp only [ownBytes] at hfits hexact ⊢
          omega
      case isFalse hover =>
        rw [ih]
        constructor
        · rintro ⟨older, newer, -, hnewer, rfl, hexact⟩
          exact ⟨line :: older, newer, cons_ne_nil _ _, hnewer, rfl, hexact⟩
        · rintro ⟨older, newer, holder, hnewer, heq, hexact⟩
          cases older with
          | nil => exact absurd rfl holder
          | cons first older =>
            obtain ⟨rfl, rfl⟩ := List.cons.inj heq
            refine ⟨older, newer, ?_, hnewer, rfl, hexact⟩
            rintro rfl
            exact hover (Nat.le_of_eq hexact)

theorem intercalate_append {older newer : List Text} (holder : older ≠ []) (hnewer : newer ≠ []) :
    ['\n'].intercalate (older ++ newer) =
      ['\n'].intercalate older ++ '\n' :: ['\n'].intercalate newer := by
  induction older with
  | nil => exact absurd rfl holder
  | cons line older ih =>
    cases older with
    | nil =>
      obtain ⟨first, newer, rfl⟩ := exists_cons_of_ne_nil hnewer
      rw [singleton_append, intercalate_cons_cons, intercalate_singleton, append_assoc]
      rfl
    | cons next older =>
      rw [cons_append, cons_append, intercalate_cons_cons, ← cons_append, ih (cons_ne_nil _ _),
        intercalate_cons_cons, append_assoc (line ++ _)]

/-- A run of last lines is what follows a line break. -/
theorem splitOn_newer_iff (notes : Text) (P : Text → Prop) :
    (∃ older newer, older ≠ [] ∧ newer ≠ [] ∧ notes.splitOn '\n' = older ++ newer ∧
      P (['\n'].intercalate newer)) ↔ ∃ older newer, notes = older ++ '\n' :: newer ∧ P newer := by
  constructor
  · rintro ⟨older, newer, holder, hnewer, heq, hP⟩
    refine ⟨['\n'].intercalate older, ['\n'].intercalate newer, ?_, hP⟩
    rw [← intercalate_append holder hnewer, ← heq, intercalate_splitOn]
  · rintro ⟨older, newer, rfl, hP⟩
    refine ⟨older.splitOn '\n', newer.splitOn '\n', splitOn_ne_nil _ _, splitOn_ne_nil _ _,
      splitOn_append_cons_self _ _, ?_⟩
    rwa [intercalate_splitOn]

theorem byteLength_fitOwn_le (id : Text) (room : ℕ) (lines : List Text) :
    byteLength (fitOwn id room lines) ≤ room := by
  induction lines with
  | nil => exact Nat.zero_le room
  | cons line lines ih =>
    rw [fitOwn]
    split
    · exact Nat.zero_le room
    · split
      · assumption
      · exact ih

theorem renderTaskNotes_le (blocks : List NoteBlock) (room : ℕ) :
    byteLength (renderTaskNotes blocks room) ≤ room := by
  rw [renderTaskNotes.eq_def]
  split
  · exact Nat.zero_le room
  · rename_i self parents
    rcases fitBlocks_cases (self :: parents) room (self :: parents).length with
      ⟨hnone, -⟩ | ⟨kept, -, -, hsome, hfits, -⟩
    · rw [hnone]
      exact byteLength_fitOwn_le _ _ _
    · rw [hsome]
      exact (byteLength_renderBlocks _).trans_le hfits

theorem fills_cons_iff {self : NoteBlock} {parents : List NoteBlock} {room : ℕ} :
    Fills (self :: parents) room ↔
      (∃ keep, 0 < keep ∧ keep ≤ (self :: parents).length ∧
        notesBytes ((self :: parents).take keep) = room) ∨
      ∃ older newer, self.notes = older ++ '\n' :: newer ∧ ownBytes newer = room := by
  refine or_congr_right ⟨?_, ?_⟩
  · rintro ⟨_, _, older, newer, heq, hnotes, hexact⟩
    obtain ⟨rfl, rfl⟩ := List.cons.inj heq
    exact ⟨older, newer, hnotes, hexact⟩
  · rintro ⟨older, newer, hnotes, hexact⟩
    exact ⟨self, parents, older, newer, rfl, hnotes, hexact⟩

/-- The notes drop blocks and lines until they fit, so they fill the room exactly when some
cut of them does. -/
theorem renderTaskNotes_fills (blocks : List NoteBlock) {room : ℕ} (hroom : 0 < room) :
    byteLength (renderTaskNotes blocks room) = room ↔ Fills blocks room := by
  cases blocks with
  | nil =>
    refine iff_of_false (Nat.ne_of_lt hroom) ?_
    rintro (⟨keep, hpos, hle, -⟩ | ⟨_, _, _, _, hnil, -⟩)
    · exact absurd (hpos.trans_le hle) (Nat.lt_irrefl 0)
    · cases hnil
  | cons self parents =>
    rw [renderTaskNotes, fills_cons_iff]
    rcases fitBlocks_cases (self :: parents) room (self :: parents).length with
      ⟨hnone, hall⟩ | ⟨kept, hpos, hle, hsome, hfits, hmore⟩
    · rw [hnone, Option.getD_none, byteLength_fitOwn_eq_iff _ hroom,
        splitOn_newer_iff self.notes fun newer => ownBytes newer = room]
      refine ⟨.inr, ?_⟩
      rintro (⟨keep, hkeep, hle, hexact⟩ | hown)
      · exact absurd hexact (Nat.ne_of_gt (hall keep hkeep hle))
      · exact hown
    · rw [hsome, Option.getD_some, byteLength_renderBlocks]
      refine ⟨fun hexact => .inl ⟨kept, hpos, hle, hexact⟩, ?_⟩
      rintro (⟨keep, hkeep, hkle, hexact⟩ | ⟨older, newer, hnotes, hexact⟩)
      · rcases Nat.lt_or_ge kept keep with hlt | hge
        · exact absurd hexact (Nat.ne_of_gt (hmore keep hlt hkle))
        · have hmono := notesBytes_take_mono (self :: parents) hkeep hge
          omega
      · -- the task's own notes are longer than what follows one of their line breaks
        have hmono := notesBytes_take_mono (self :: parents) Nat.one_pos hpos
        have hself : notesBytes ((self :: parents).take 1) = ownBytes self.notes := Nat.add_zero _
        have hlonger : ownBytes newer ≤ ownBytes self.notes := by
          simp only [hnotes, ownBytes, byteLength_append, byteLength_cons]
          omega
        omega

end Notes

/-! ## The bound -/

/-- The header fits half the budget, or the header and the count of all entries fit the budget;
and the notes cannot be cut to fill what the index leaves to the last byte. -/
def Roomy (metas : List EntryMeta) (blocks : List NoteBlock) (wantTask : Bool) (budget : ℕ) :
    Prop :=
  (byteLength indexHeader ≤ budget / 2 ∨
    byteLength indexHeader + byteLength (moreEntries metas.length) ≤ budget) ∧
  (wantTask = true → ¬ Fills blocks (budget - indexBytes metas (budget / 2)))

theorem not_fills_zero (blocks : List NoteBlock) : ¬ Fills blocks 0 := by
  have hself : ∀ (blocks : List NoteBlock) keep, 0 < keep → keep ≤ blocks.length →
      notesBytes (blocks.take keep) ≠ 0 := by
    intro blocks keep hpos hle
    obtain ⟨keep, rfl⟩ := Nat.exists_eq_succ_of_ne_zero (Nat.ne_of_gt hpos)
    cases blocks with
    | nil => exact absurd hle (Nat.not_succ_le_zero keep)
    | cons self parents =>
      simp only [take_succ_cons, notesBytes, ownBytes]
      omega
  rintro (⟨keep, hpos, hle, hexact⟩ | ⟨_, _, _, newer, -, -, hexact⟩)
  · exact hself blocks keep hpos hle hexact
  · simp only [ownBytes] at hexact
    omega

theorem byteLength_indexHeader : byteLength indexHeader = 342 := by decide +kernel

theorem renderGlobalIndex_ne_nil {metas : List EntryMeta} (hmetas : metas ≠ []) (budget : ℕ) :
    renderGlobalIndex metas budget ≠ [] := by
  have hheader : indexHeader ≠ [] := by
    intro hnil
    have hbytes := byteLength_indexHeader
    rw [hnil] at hbytes
    cases hbytes
  rw [renderGlobalIndex, if_neg hmetas]
  exact append_ne_nil_of_left_ne_nil (append_ne_nil_of_left_ne_nil hheader _) _

/-- The recall section is within its budget exactly when the index, if there is one, leaves
room for what is written without a check: the header, the count of the entries it leaves out
and the line break before the notes. -/
theorem renderRecall_within_iff (metas : List EntryMeta) (blocks : List NoteBlock)
    (wantTask wantGlobal : Bool) (budget : ℕ)
    (hcount : byteLength (moreEntries metas.length) ≤ byteLength indexHeader) :
    byteLength (renderRecall metas blocks wantTask wantGlobal budget) ≤ recallBudget budget ↔
      (wantGlobal = true → metas ≠ [] → Roomy metas blocks wantTask (recallBudget budget)) := by
  rw [renderRecall]
  generalize recallBudget budget = limit
  by_cases hshown : wantGlobal = true ∧ metas ≠ []
  · obtain ⟨rfl, hmetas⟩ := hshown
    have hne := renderGlobalIndex_ne_nil hmetas (limit / 2)
    have hbytes := byteLength_renderGlobalIndex hmetas (limit / 2)
    have hindex : indexBytes metas (limit / 2) ≤ limit ↔ _ := indexBytes_le_iff hmetas hcount
    simp only [if_true, Roomy, hmetas, ne_eq, not_false_eq_true, forall_const]
    rw [← hindex, byteLength_joinSections hne, hbytes]
    generalize indexBytes metas (limit / 2) = index
    by_cases hleft : wantTask = true ∧ index < limit
    · have hroom : 0 < limit - index := Nat.sub_pos_of_lt hleft.2
      have hfills := renderTaskNotes_fills blocks hroom
      have hle := renderTaskNotes_le blocks (limit - index)
      rw [hleft.1, decide_eq_true hroom, Bool.and_self, if_pos rfl, ← hfills]
      generalize renderTaskNotes blocks (limit - index) = notes at hle
      simp only [forall_const]
      split
      case isTrue hnil =>
        rw [hnil, byteLength_nil]
        omega
      case isFalse => omega
    · have hnone : (wantTask && decide (0 < limit - index)) = false := by
        cases wantTask <;> simp at hleft ⊢; omega
      rw [hnone, if_neg Bool.false_ne_true, if_pos rfl, Nat.add_zero]
      refine ⟨fun hle => ⟨hle, fun htask => ?_⟩, And.left⟩
      have hfull : limit - index = 0 := Nat.sub_eq_zero_of_le (not_lt.mp fun hlt => hleft ⟨htask, hlt⟩)
      rw [hfull]
      exact not_fills_zero blocks
  · have hnone : (if wantGlobal then renderGlobalIndex metas (limit / 2) else []) = [] := by
      cases wantGlobal
      · rfl
      · rw [if_pos rfl, renderGlobalIndex, if_pos (by simpa using hshown)]
    simp only [hnone]
    refine iff_of_true ?_ fun hglobal hmetas => absurd ⟨hglobal, hmetas⟩ hshown
    rw [joinSections, if_pos rfl]
    split
    · exact (renderTaskNotes_le blocks _).trans (Nat.sub_le _ _)
    · exact Nat.zero_le limit

def deploys : EntryMeta := ⟨"deploys".toList, "run on fridays".toList⟩

/-- One entry and one note within a budget of a thousand bytes. -/
theorem deploys_within_budget :
    byteLength (renderRecall [deploys] [⟨"T-1".toList, "try again".toList⟩] true true 1000) ≤
      recallBudget 1000 := by
  have hcount : byteLength (moreEntries [deploys].length) ≤ byteLength indexHeader := by
    rw [byteLength_indexHeader]
    decide +kernel
  refine (renderRecall_within_iff [deploys] _ true true 1000 hcount).mpr fun _ _ => ⟨?_, fun _ => ?_⟩
  · rw [byteLength_indexHeader]
    exact .inl (by decide)
  · rintro (⟨keep, hpos, hle, hexact⟩ | ⟨self, parents, older, newer, heq, hnotes, -⟩)
    · obtain rfl : keep = 1 := Nat.le_antisymm hle hpos
      simp only [indexBytes, shownEntries, byteLength_indexHeader] at hexact
      exact absurd hexact (by decide +kernel)
    · obtain ⟨rfl, -⟩ := List.cons.inj heq
      have hbreak : '\n' ∈ older ++ '\n' :: newer := mem_append_cons_self
      rw [← hnotes] at hbreak
      exact absurd hbreak (by decide +kernel)

/-- The header alone is larger than a budget of three hundred bytes. -/
theorem header_over_budget :
    ¬ byteLength (renderRecall [deploys] [] true true 300) ≤ recallBudget 300 := by
  decide +kernel

end Apiary.Runner
