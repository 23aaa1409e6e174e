import Apiary.Improve.Entries

/-!
# Lines that the redactor blanks

What becomes of a line depends on the lines above it through the env block that is open
there.  Two configurations look the same to the advisor exactly when, line by line, both
values are blanked behind the same lead or the same text is shown.
-/

namespace Apiary.Improve

open List Option

variable {above above' : List Text} {line line' lead value t : Text} {n : ℕ}

/-! ## What is covered -/

/-- An env header of the given indentation, and below it only blank lines and lines that are
indented deeper, none of them a header. -/
def OpenBlock (above : List Text) (indent : ℕ) : Prop :=
  ∃ before header inside, above = before ++ header :: inside ∧ isEnvHeader header = true ∧
    indentOf header = indent ∧
    ∀ l ∈ inside, isEnvHeader l = false ∧ (trimSpace l = [] ∨ indent < indentOf l)

/-- The line belongs to an env block that is open above it. -/
def InEnvBlock (above : List Text) (line : Text) : Prop :=
  ∃ indent, OpenBlock above indent ∧ indent < indentOf line

/-- The line `lead ++ value` is an entry of an env block, or has a secret-named key. -/
inductive Covered (above : List Text) (lead value : Text) : Prop where
  | env (hheader : isEnvHeader (lead ++ value) = false)
      (hblock : InEnvBlock above (lead ++ value)) (hentry : EnvEntry lead value)
  | secret (hheader : isEnvHeader (lead ++ value) = false)
      (hother : InEnvBlock above (lead ++ value) →
        ∀ l v, lead ++ value = l ++ v → ¬ EnvEntry l v)
      (hentry : SecretEntry lead value)

/-- The value behind the lead is blanked. -/
def Blanked (above : List Text) (line lead : Text) : Prop :=
  ∃ value, line = lead ++ value ∧ Covered above lead value ∧ isReference (trimSpace value) = false

/-- What is shown of a line whose value is not blanked: all of it, but for the white space
around a reference. -/
inductive Shown (above : List Text) (line : Text) : Text → Prop where
  | plain (hplain : ∀ lead value, line = lead ++ value → ¬ Covered above lead value) :
      Shown above line line
  | reference (lead value : Text) (hline : line = lead ++ value) (hcovered : Covered above lead value)
      (href : isReference (trimSpace value) = true) : Shown above line (lead ++ trimSpace value)

/-- Two lines that look the same: both values are blanked behind one lead, or one text is
shown, or one line shows literally what the other is blanked to. -/
def SameView (above : List Text) (line : Text) (above' : List Text) (line' : Text) : Prop :=
  (∃ lead, Blanked above line lead ∧ Blanked above' line' lead) ∨
    (∃ t, Shown above line t ∧ Shown above' line' t) ∨
    (∃ lead, Blanked above line lead ∧ Shown above' line' (lead ++ redacted)) ∨
    ∃ lead, Shown above line (lead ++ redacted) ∧ Blanked above' line' lead

/-- Two configurations that look the same, line by line. -/
def Alike (lines lines' : List Text) : Prop :=
  lines.length = lines'.length ∧ ∀ (i : ℕ) (line line' : Text),
    lines[i]? = some line → lines'[i]? = some line' →
      SameView (lines.take i) line (lines'.take i) line'

/-! ## The scan -/

/-- Where the scan is below some lines. -/
def scanOf (above : List Text) : Scan := above.foldl scanLine {}

/-- A line opens a block, keeps the one above open or closes it. -/
theorem openBlock_concat : OpenBlock (above ++ [line]) n ↔
    (isEnvHeader line = true ∧ indentOf line = n) ∨
      (isEnvHeader line = false ∧ OpenBlock above n ∧ (trimSpace line = [] ∨ n < indentOf line)) := by
  constructor
  · rintro ⟨before, header, inside, hsplit, hheader, hindent, hinside⟩
    rcases eq_nil_or_concat' inside with rfl | ⟨inside, last, rfl⟩
    · obtain ⟨-, hlast⟩ := append_inj' hsplit rfl
      obtain rfl : line = header := by simpa using hlast
      exact .inl ⟨hheader, hindent⟩
    · rw [← cons_append, ← append_assoc] at hsplit
      obtain ⟨rfl, hlast⟩ := append_inj' hsplit rfl
      obtain rfl : line = last := by simpa using hlast
      obtain ⟨hplain, hdeep⟩ := hinside line (by simp)
      refine .inr ⟨hplain, ⟨before, header, inside, rfl, hheader, hindent, ?_⟩, hdeep⟩
      exact fun l hl => hinside l (mem_append_left _ hl)
  · rintro (⟨hheader, hindent⟩ |
      ⟨hplain, ⟨before, header, inside, rfl, hheader, hindent, hinside⟩, hdeep⟩)
    · exact ⟨above, line, [], rfl, hheader, hindent, by simp⟩
    · refine ⟨before, header, inside ++ [line], by simp, hheader, hindent, ?_⟩
      intro l hl
      rcases mem_append.mp hl with hl | hl
      · exact hinside l hl
      · exact (mem_singleton.mp hl) ▸ ⟨hplain, hdeep⟩

/-- The scan is in a block exactly below an open header. -/
theorem openBlock_iff :
    OpenBlock above n ↔ (scanOf above).inEnvBlock = true ∧ (scanOf above).envIndent = n := by
  induction above using reverseRecOn with
  | nil => simp [OpenBlock, scanOf]
  | append_singleton above line ih =>
    have hscan : scanOf (above ++ [line]) = scanLine (scanOf above) line :=
      foldl_concat _ _ _ _
    rw [openBlock_concat, ih, hscan, scanLine]
    split
    · simp_all
    · split
      · split
        · simp_all
        · split
          · simp_all
            omega
          · simp_all
            omega
      · simp_all

/-- The scan of the lines above knows whether a line is in an `env` block. -/
theorem inEnvBlock_iff : InEnvBlock above line ↔
    (scanOf above).inEnvBlock = true ∧ (scanOf above).envIndent < indentOf line := by
  simp only [InEnvBlock, openBlock_iff]
  constructor
  · rintro ⟨indent, ⟨hopen, rfl⟩, hdeep⟩
    exact ⟨hopen, hdeep⟩
  · rintro ⟨hopen, hdeep⟩
    exact ⟨_, ⟨hopen, rfl⟩, hdeep⟩

/-! ## One line -/

/-- The lead and the value of a line that is covered. -/
def cut (s : Scan) (line : Text) : Option (Text × Text) :=
  if isEnvHeader line then none
  else if s.inEnvBlock && s.envIndent < indentOf line then
    (envValueLine line).or (secretKeys line)
  else secretKeys line

/-- A line is cut exactly where a matcher covers it. -/
theorem cut_eq_some_iff : cut (scanOf above) line = some (lead, value) ↔
    line = lead ++ value ∧ Covered above lead value := by
  rw [cut]
  split
  · rename_i hheader
    simp only [reduceCtorEq, false_iff, not_and]
    rintro rfl hcovered
    cases hcovered <;> simp_all
  · rename_i hheader
    rw [Bool.not_eq_true] at hheader
    split
    · rename_i hblock
      have hblock : InEnvBlock above line := inEnvBlock_iff.mpr (by simpa using hblock)
      rw [Option.or_eq_some_iff, envValueLine_eq_some_iff, secretKeys_eq_some_iff]
      constructor
      · rintro (⟨rfl, hentry⟩ | ⟨hnone, rfl, hentry⟩)
        · exact ⟨rfl, .env hheader hblock hentry⟩
        · refine ⟨rfl, .secret hheader (fun _ l v hsplit henv => ?_) hentry⟩
          rw [envValueLine_eq_some_iff.mpr ⟨hsplit, henv⟩] at hnone
          cases hnone
      · rintro ⟨rfl, hcovered⟩
        cases hcovered with
        | env _ _ hentry => exact .inl ⟨rfl, hentry⟩
        | secret _ hother hentry =>
          refine .inr ⟨Option.eq_none_iff_forall_ne_some.mpr ?_, rfl, hentry⟩
          rintro ⟨l, v⟩ hout
          obtain ⟨hsplit, henv⟩ := envValueLine_eq_some_iff.mp hout
          exact hother hblock l v hsplit henv
    · rename_i hblock
      have hblock : ¬ InEnvBlock above line := fun h => hblock (by simpa using inEnvBlock_iff.mp h)
      rw [secretKeys_eq_some_iff]
      refine and_congr_right fun hline => ?_
      rw [hline] at hheader hblock
      refine ⟨.secret hheader fun h => absurd h hblock, fun hcovered => ?_⟩
      cases hcovered with
      | env _ h => exact absurd h hblock
      | secret _ _ hentry => exact hentry

/-- A cut takes the line apart, whatever the scan has seen. -/
theorem cut_split {s : Scan} {split : Text × Text} (hout : cut s line = some split) :
    line = split.1 ++ split.2 := by
  rw [cut] at hout
  split_ifs at hout
  · rcases Option.or_eq_some_iff.mp hout with henv | ⟨-, hsecret⟩
    · exact (envValueLine_eq_some_iff.mp henv).1
    · exact (secretKeys_eq_some_iff.mp hsecret).1
  · exact (secretKeys_eq_some_iff.mp hout).1

theorem Separated.colon_mem {sep : Text} (hsep : Separated sep value) : ':' ∈ sep := by
  obtain ⟨-, before, after, rfl, -, -⟩ := hsep
  simp

theorem SecretEntry.colon_mem (hentry : SecretEntry lead value) : ':' ∈ lead := by
  have hkeyed : ∀ key own, Keyed key own value → ':' ∈ own := by
    rintro key own ⟨name, sep, rfl, -, hsep⟩
    exact mem_append_right _ hsep.colon_mem
  have hlast : ∀ key own, LastKeyed key own value → ':' ∈ own := by
    rintro key own ⟨before, rest, rfl, hrest, -⟩
    exact mem_append_right _ (hkeyed key rest hrest)
  obtain ⟨before, own, rfl, -, hnamed⟩ := hentry
  refine mem_append_right _ ?_
  cases hnamed with
  | named name _ h => exact hkeyed name own h
  | token _ h => exact hlast _ own h
  | key _ _ h => exact hlast _ own h

theorem isSpace_of_trimSpace_eq_nil (hblank : trimSpace line = []) :
    ∀ c ∈ line, isSpace c = true := by
  have hall : ∀ c ∈ line.dropWhile isSpace, isSpace c = true := rdropWhile_eq_nil_iff.mp hblank
  refine dropWhile_eq_nil_iff.mp ?_
  cases hdrop : line.dropWhile isSpace with
  | nil => rfl
  | cons c rest =>
    have hc : isSpace c = false := head_dropWhile (by rw [hdrop]; rfl)
    rw [hall c (by rw [hdrop]; exact mem_cons_self)] at hc
    cases hc

theorem secretKeys_eq_none_of_blank (hblank : trimSpace line = []) : secretKeys line = none := by
  refine Option.eq_none_iff_forall_ne_some.mpr ?_
  rintro ⟨lead, value⟩ hout
  obtain ⟨rfl, hentry⟩ := secretKeys_eq_some_iff.mp hout
  have hspace := isSpace_of_trimSpace_eq_nil hblank ':' (mem_append_left _ hentry.colon_mem)
  cases hspace

theorem envValueLine_eq_none_of_blank (hblank : trimSpace line = []) : envValueLine line = none := by
  refine Option.eq_none_iff_forall_ne_some.mpr ?_
  rintro ⟨lead, value⟩ hout
  obtain ⟨rfl, indent, name, sep, rfl, -, -, -, -, hsep⟩ := envValueLine_eq_some_iff.mp hout
  have hspace := isSpace_of_trimSpace_eq_nil hblank ':' (by simp [hsep.colon_mem])
  cases hspace

theorem redactSecret_eq (line : Text) : redactSecret line =
    ((secretKeys line).map fun split => split.1 ++ redactedFor split.2).getD line := by
  rw [redactSecret]
  cases secretKeys line <;> rfl

theorem redactLine_eq (s : Scan) (line : Text) : redactLine s line =
    ((cut s line).map fun split => split.1 ++ redactedFor split.2).getD line := by
  rw [redactLine, cut]
  split
  · rfl
  · cases hopen : s.inEnvBlock with
    | false => simp [redactSecret_eq]
    | true =>
      by_cases hblank : trimSpace line = []
      · simp [hblank, secretKeys_eq_none_of_blank hblank, envValueLine_eq_none_of_blank hblank]
      · by_cases hdeep : indentOf line ≤ s.envIndent
        · simp [hblank, hdeep, Nat.not_lt.mpr hdeep, redactSecret_eq]
        · have hdeep' : s.envIndent < indentOf line := Nat.not_le.mp hdeep
          simp only [if_true, hblank, if_false, hdeep, hdeep', Bool.true_and, decide_true]
          cases henv : envValueLine line with
          | none => simp [redactSecret_eq]
          | some split => rfl

theorem redactLine_of_blanked (hblanked : Blanked above line lead) :
    redactLine (scanOf above) line = lead ++ redacted := by
  obtain ⟨value, hline, hcovered, href⟩ := hblanked
  rw [redactLine_eq, cut_eq_some_iff.mpr ⟨hline, hcovered⟩]
  simp [redactedFor, href]

theorem redactLine_of_shown (hshown : Shown above line t) :
    redactLine (scanOf above) line = t := by
  rw [redactLine_eq]
  cases hshown with
  | plain hplain =>
    have hnone : cut (scanOf above) line = none := by
      refine Option.eq_none_iff_forall_ne_some.mpr ?_
      rintro ⟨lead, value⟩ hout
      obtain ⟨hline, hcovered⟩ := cut_eq_some_iff.mp hout
      exact hplain lead value hline hcovered
    rw [hnone]
    rfl
  | reference lead value hline hcovered href =>
    rw [cut_eq_some_iff.mpr ⟨hline, hcovered⟩]
    simp [redactedFor, href]

/-- Every line is blanked or shown. -/
theorem blanked_or_shown (above : List Text) (line : Text) :
    (∃ lead, Blanked above line lead) ∨ ∃ t, Shown above line t := by
  by_cases hcovered : ∃ lead value, line = lead ++ value ∧ Covered above lead value
  · obtain ⟨lead, value, hline, hcovered⟩ := hcovered
    cases href : isReference (trimSpace value) with
    | false => exact .inl ⟨lead, value, hline, hcovered, href⟩
    | true => exact .inr ⟨_, .reference lead value hline hcovered href⟩
  · refine .inr ⟨line, .plain fun lead value hline h => hcovered ⟨lead, value, hline, h⟩⟩

/-- Two lines are redacted to the same text exactly when they look the same. -/
theorem redactLine_eq_iff :
    redactLine (scanOf above) line = redactLine (scanOf above') line' ↔
      SameView above line above' line' := by
  constructor
  · intro hsame
    rcases blanked_or_shown above line with ⟨lead, hblanked⟩ | ⟨t, hshown⟩ <;>
      rcases blanked_or_shown above' line' with ⟨lead', hblanked'⟩ | ⟨t', hshown'⟩
    · rw [redactLine_of_blanked hblanked, redactLine_of_blanked hblanked'] at hsame
      exact .inl ⟨lead, hblanked, append_cancel_right hsame ▸ hblanked'⟩
    · rw [redactLine_of_blanked hblanked, redactLine_of_shown hshown'] at hsame
      exact .inr (.inr (.inl ⟨lead, hblanked, hsame ▸ hshown'⟩))
    · rw [redactLine_of_shown hshown, redactLine_of_blanked hblanked'] at hsame
      exact .inr (.inr (.inr ⟨lead', hsame ▸ hshown, hblanked'⟩))
    · rw [redactLine_of_shown hshown, redactLine_of_shown hshown'] at hsame
      exact .inr (.inl ⟨t, hshown, hsame ▸ hshown'⟩)
  · rintro (⟨lead, hblanked, hblanked'⟩ | ⟨t, hshown, hshown'⟩ | ⟨lead, hblanked, hshown'⟩ |
      ⟨lead, hshown, hblanked'⟩)
    · rw [redactLine_of_blanked hblanked, redactLine_of_blanked hblanked']
    · rw [redactLine_of_shown hshown, redactLine_of_shown hshown']
    · rw [redactLine_of_blanked hblanked, redactLine_of_shown hshown']
    · rw [redactLine_of_shown hshown, redactLine_of_blanked hblanked']

/-! ## All lines -/

theorem redactLines_getElem? (s : Scan) (lines : List Text) (i : ℕ) :
    (redactLines s lines)[i]? =
      lines[i]?.map (redactLine ((lines.take i).foldl scanLine s)) := by
  induction lines generalizing s i with
  | nil => rfl
  | cons line lines ih =>
    cases i with
    | zero => rfl
    | succ i => exact ih (scanLine s line) i

theorem length_redactLines (s : Scan) (lines : List Text) :
    (redactLines s lines).length = lines.length := by
  induction lines generalizing s with
  | nil => rfl
  | cons line lines ih => exact congrArg (· + 1) (ih (scanLine s line))

/-- Two files are redacted to the same text exactly when their lines look the same. -/
theorem redactLines_eq_iff {lines lines' : List Text} :
    redactLines {} lines = redactLines {} lines' ↔ Alike lines lines' := by
  have hat : ∀ (lines : List Text) (i : ℕ), (redactLines {} lines)[i]? =
      lines[i]?.map (redactLine (scanOf (lines.take i))) := redactLines_getElem? {}
  constructor
  · intro hsame
    constructor
    · rw [← length_redactLines {} lines, hsame, length_redactLines]
    · intro i line line' hline hline'
      have hi := congrArg (fun l : List Text => l[i]?) hsame
      simp only [hat, hline, hline', Option.map_some, Option.some.injEq] at hi
      exact redactLine_eq_iff.mp hi
  · rintro ⟨hlength, hview⟩
    apply ext_getElem?
    intro i
    rw [hat, hat]
    by_cases hi : i < lines.length
    · have hline := getElem?_eq_getElem hi
      have hline' := getElem?_eq_getElem (hlength ▸ hi)
      rw [hline, hline', Option.map_some, Option.map_some,
        redactLine_eq_iff.mpr (hview i _ _ hline hline')]
    · rw [getElem?_eq_none (Nat.not_lt.mp hi), getElem?_eq_none (hlength ▸ Nat.not_lt.mp hi)]
      rfl

end Apiary.Improve
