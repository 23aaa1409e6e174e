import Apiary.Core.Trim
import Apiary.Improve.Redact

/-!
# What the redactor covers

The two regular expressions as relations between the lead of a line, up to and with the
blanks behind its colon, and the value that follows.  A line is covered when it is an entry
of an env block that is open above it, or else has a secret-named key; the value of a
covered line is blanked unless it has the shape of a variable reference.
-/

namespace Apiary.Improve

open List Option

variable {key lead value t line sep : Text}

/-! ## The expressions -/

def Blanks (t : Text) : Prop := ∀ c ∈ t, isBlank c = true

/-- The group `(.+)$` behind `\s*`: no blank is left to it, unless it has nothing else. -/
def IsValue (value : Text) : Prop :=
  ∃ c rest, value = c :: rest ∧ (isBlank c = true → rest = [])

/-- The groups `(\s*:\s*)(.+)$`. -/
def Separated (sep value : Text) : Prop :=
  IsValue value ∧ ∃ before after, sep = before ++ ':' :: after ∧ Blanks before ∧ Blanks after

/-- The expression `envValueLine`: an indented identifier, its colon and its value. -/
def EnvEntry (lead value : Text) : Prop :=
  ∃ indent name sep, lead = indent ++ (name ++ sep) ∧ indent ≠ [] ∧ Blanks indent ∧
    name.head?.any isNameStart = true ∧ (∀ c ∈ name, isNameChar c = true) ∧ Separated sep value

/-- A key in any case, its colon and its value. -/
def Keyed (key lead value : Text) : Prop :=
  ∃ name sep, lead = name ++ sep ∧ name.map foldCase = key ∧ Separated sep value

/-- The key stands at a place of the text. -/
def KeyAt (key t : Text) (place : ℕ) : Prop :=
  ∃ lead value, t.drop place = lead ++ value ∧ Keyed key lead value

/-- The group `.*` and a key: what counts is the last place of the key. -/
def LastKeyed (key lead value : Text) : Prop :=
  ∃ before own, lead = before ++ own ∧ Keyed key own value ∧
    ∀ place, before.length < place → ¬ KeyAt key (lead ++ value) place

/-! ## Keys and their values -/

theorem blanks_takeWhile (t : Text) : Blanks (t.takeWhile isBlank) := fun _ hc =>
  mem_takeWhile_imp hc

theorem isBlank_colon : isBlank ':' = false := by decide

/-- Blanks up to a letter that is none. -/
theorem span_mark {blanks : Text} {c : Char} (hblanks : Blanks blanks) (hc : isBlank c = false)
    (rest : Text) : (blanks ++ c :: rest).takeWhile isBlank = blanks ∧
      (blanks ++ c :: rest).dropWhile isBlank = c :: rest := by
  apply span_append hblanks
  rintro d ⟨⟩
  exact hc

theorem colonLead_eq_some_iff : colonLead t = some (sep, value) ↔
    t = sep ++ value ∧ (∀ c, value.head? = some c → isBlank c = false) ∧
      ∃ before after, sep = before ++ ':' :: after ∧ Blanks before ∧ Blanks after := by
  constructor
  · intro hout
    rw [colonLead] at hout
    cases hrest : t.dropWhile isBlank with
    | nil =>
      rw [hrest] at hout
      cases hout
    | cons c rest =>
      rw [hrest] at hout
      by_cases hc : c = ':'
      · subst hc
        cases hout
        refine ⟨?_, fun c => head_dropWhile, _, _, rfl, blanks_takeWhile _, blanks_takeWhile _⟩
        rw [append_assoc, cons_append, takeWhile_append_dropWhile, ← hrest,
          takeWhile_append_dropWhile]
      · simp [hc] at hout
  · rintro ⟨rfl, hvalue, before, after, rfl, hbefore, hafter⟩
    obtain ⟨htake, hdrop⟩ := span_mark hbefore isBlank_colon (after ++ value)
    obtain ⟨htake', hdrop'⟩ := span_append hafter hvalue
    rw [append_assoc, cons_append, colonLead, hdrop, htake]
    simp only
    rw [htake', hdrop']

theorem getLast?_separator {before after : Text} (hafter : Blanks after) :
    (before ++ ':' :: after).getLast? = some ':' ↔ after = [] := by
  constructor
  · intro hlast
    by_contra hne
    obtain ⟨rest, c, rfl⟩ := (eq_nil_or_concat' after).resolve_left hne
    have hc : c = ':' := by
      rw [← cons_append, ← append_assoc, getLast?_concat] at hlast
      exact Option.some.inj hlast
    have hblank := hafter c (by simp)
    rw [hc, isBlank_colon] at hblank
    cases hblank
  · rintro rfl
    simp

/-- The blanks behind the colon are given back to no value but an empty one. -/
theorem colonValue_eq_some_iff : colonValue t = some (sep, value) ↔
    t = sep ++ value ∧ Separated sep value := by
  constructor
  · intro hout
    rw [colonValue] at hout
    split at hout
    · cases hout
    · rename_i lead rest hlead
      obtain ⟨rfl, hhead, before, after, rfl, hbefore, hafter⟩ := colonLead_eq_some_iff.mp hlead
      split_ifs at hout with hrest hlast
      · cases hout
        obtain ⟨c, value, rfl⟩ := exists_cons_of_ne_nil hrest
        refine ⟨rfl, ⟨c, value, rfl, fun hc => ?_⟩, before, after, rfl, hbefore, hafter⟩
        simp [hhead c rfl] at hc
      · rw [not_not] at hrest
        rw [getLast?_separator hafter] at hlast
        obtain ⟨after, c, rfl⟩ := (eq_nil_or_concat' after).resolve_left hlast
        have hsep : before ++ ':' :: (after ++ [c]) = (before ++ ':' :: after) ++ [c] := by simp
        rw [hsep, dropLast_concat, Option.some.injEq, Prod.mk.injEq] at hout
        obtain ⟨rfl, hvalue⟩ := hout
        have hvalue : value = [c] := by rw [← hvalue]; simp
        rw [hvalue]
        refine ⟨by rw [hrest, hsep, append_nil], ⟨c, [], rfl, fun _ => rfl⟩, before, after, rfl,
          hbefore, ?_⟩
        exact fun d hd => hafter d (mem_append_left _ hd)
  · rintro ⟨rfl, ⟨c, rest, rfl, hrest⟩, before, after, rfl, hbefore, hafter⟩
    by_cases hc : isBlank c = true
    · have hvalue := hrest hc
      subst hvalue
      have hlead : colonLead ((before ++ ':' :: after) ++ [c]) =
          some (before ++ ':' :: (after ++ [c]), []) := by
        refine colonLead_eq_some_iff.mpr ⟨by simp, by simp, before, _, rfl, hbefore, ?_⟩
        intro d hd
        rcases mem_append.mp hd with hd | hd
        · exact hafter d hd
        · exact (mem_singleton.mp hd) ▸ hc
      have hsep : before ++ ':' :: (after ++ [c]) = (before ++ ':' :: after) ++ [c] := by simp
      have hlast : ((before ++ ':' :: after) ++ [c]).getLast? ≠ some ':' := by
        rw [getLast?_concat, ne_eq, Option.some.injEq]
        rintro rfl
        cases hc
      rw [colonValue, hlead, hsep]
      simp only [ne_eq, not_true_eq_false, if_false, if_neg hlast, dropLast_concat]
      simp
    · have hlead : colonLead ((before ++ ':' :: after) ++ c :: rest) =
          some (before ++ ':' :: after, c :: rest) := by
        refine colonLead_eq_some_iff.mpr ⟨rfl, ?_, before, after, rfl, hbefore, hafter⟩
        intro d hd
        simpa [← show c = d by simpa using hd] using hc
      rw [colonValue, hlead]
      simp

/-- What follows a key starts with a blank or with the colon. -/
theorem Separated.head (hsep : Separated sep value) :
    ∃ c rest, sep ++ value = c :: rest ∧ (isBlank c = true ∨ c = ':') := by
  obtain ⟨-, before, after, rfl, hbefore, -⟩ := hsep
  cases before with
  | nil => exact ⟨':', after ++ value, rfl, .inr rfl⟩
  | cons c before => exact ⟨c, _, rfl, .inl (hbefore c mem_cons_self)⟩

theorem not_isNameChar_of_stop {c : Char} (hc : isBlank c = true ∨ c = ':') :
    isNameChar c = false := by
  rcases hc with hc | rfl
  · simp only [isBlank, decide_eq_true_eq, mem_cons, not_mem_nil, or_false] at hc
    rcases hc with rfl | rfl | rfl | rfl | rfl <;> decide
  · decide

theorem not_isBlank_of_isNameStart {c : Char} (hc : isNameStart c = true) : isBlank c = false := by
  by_contra hblank
  have hchar := not_isNameChar_of_stop (.inl (by simpa using hblank))
  simp [isNameChar, hc] at hchar

/-- The expression `envValueLine` matches the indented entries and splits them before the value. -/
theorem envValueLine_eq_some_iff : envValueLine line = some (lead, value) ↔
    line = lead ++ value ∧ EnvEntry lead value := by
  constructor
  · intro hout
    simp only [envValueLine] at hout
    split_ifs at hout with hline
    obtain ⟨⟨sep, rest⟩, hcolon, hsplit⟩ := map_eq_some_iff.mp hout
    cases hsplit
    obtain ⟨hrest, hsep⟩ := colonValue_eq_some_iff.mp hcolon
    refine ⟨?_, _, _, sep, rfl, hline.1, blanks_takeWhile line, ?_, fun c => mem_takeWhile_imp, hsep⟩
    · rw [append_assoc, append_assoc, ← hrest, takeWhile_append_dropWhile,
        takeWhile_append_dropWhile]
    · cases hbody : line.dropWhile isBlank with
      | nil => simp [hbody] at hline
      | cons c body =>
        have hstart : isNameStart c = true := by simpa [hbody] using hline.2
        rw [takeWhile_cons_of_pos (by simp [isNameChar, hstart])]
        simpa using hstart
  · rintro ⟨rfl, indent, name, sep, rfl, hindent, hblanks, hstart, hname, hsep⟩
    obtain ⟨c, rest, hcons, hstop⟩ := hsep.head
    obtain ⟨d, name', rfl⟩ : ∃ d name', name = d :: name' := by
      cases name with
      | nil => cases hstart
      | cons d name' => exact ⟨d, name', rfl⟩
    have hd : isBlank d = false := not_isBlank_of_isNameStart (by simpa using hstart)
    have hjoin : indent ++ (d :: name' ++ sep) ++ value = indent ++ d :: (name' ++ c :: rest) := by
      simp [← hcons]
    obtain ⟨htake, hdrop⟩ := @span_append _ _ (d :: name') (c :: rest) hname
      (by simp [not_isNameChar_of_stop hstop])
    obtain ⟨hmargin, hbody⟩ := span_mark hblanks hd (name' ++ c :: rest)
    have hcolon : colonValue (c :: rest) = some (sep, value) :=
      colonValue_eq_some_iff.mpr ⟨hcons.symm, hsep⟩
    rw [cons_append] at htake hdrop
    simp only [envValueLine, hjoin, hbody, hmargin, htake, hdrop, hcolon]
    rw [if_pos ⟨hindent, by simpa using hstart⟩]
    rfl

theorem keyed_eq_some_iff : keyed key t = some (lead, value) ↔
    t = lead ++ value ∧ Keyed key lead value := by
  constructor
  · intro hout
    rw [keyed] at hout
    split_ifs at hout with hname
    obtain ⟨⟨sep, rest⟩, hcolon, hsplit⟩ := map_eq_some_iff.mp hout
    cases hsplit
    obtain ⟨hrest, hsep⟩ := colonValue_eq_some_iff.mp hcolon
    refine ⟨?_, _, sep, rfl, hname, hsep⟩
    rw [append_assoc, ← hrest, take_append_drop]
  · rintro ⟨rfl, name, sep, rfl, rfl, hsep⟩
    have hcolon : colonValue (sep ++ value) = some (sep, value) :=
      colonValue_eq_some_iff.mpr ⟨rfl, hsep⟩
    rw [keyed, length_map, append_assoc, take_left, drop_left, if_pos rfl, hcolon]
    rfl

theorem keyed_eq_none_iff (place : ℕ) : keyed key (t.drop place) = none ↔ ¬ KeyAt key t place := by
  rw [← Option.not_isSome_iff_eq_none, not_iff_not, Option.isSome_iff_exists]
  constructor
  · rintro ⟨⟨lead, value⟩, hout⟩
    exact ⟨lead, value, keyed_eq_some_iff.mp hout⟩
  · rintro ⟨lead, value, hkeyed⟩
    exact ⟨(lead, value), keyed_eq_some_iff.mpr hkeyed⟩

theorem not_keyAt_nil (key : Text) (place : ℕ) : ¬ KeyAt key [] place := by
  rintro ⟨lead, value, hdrop, name, sep, rfl, -, hsep⟩
  obtain ⟨c, rest, hcons, -⟩ := hsep.head
  rw [drop_nil, append_assoc, hcons] at hdrop
  simp at hdrop

theorem suffixKeyed_cons (key : Text) (c : Char) (t : Text) : suffixKeyed key (c :: t) =
    match suffixKeyed key t with
    | some split => some (c :: split.1, split.2)
    | none => keyed key (c :: t) :=
  rfl

theorem suffixKeyed_eq_none_iff : suffixKeyed key t = none ↔ ∀ place, ¬ KeyAt key t place := by
  induction t with
  | nil => exact iff_of_true rfl (not_keyAt_nil key)
  | cons c t ih =>
    rw [suffixKeyed_cons]
    cases hrest : suffixKeyed key t with
    | some split =>
      simp only [reduceCtorEq, false_iff, not_forall, not_not]
      rw [hrest, eq_comm] at ih
      simp only [reduceCtorEq, false_iff, not_forall, not_not] at ih
      obtain ⟨place, hkey⟩ := ih
      exact ⟨place + 1, hkey⟩
    | none =>
      have hnone := ih.mp hrest
      rw [← drop_zero (l := c :: t), keyed_eq_none_iff, drop_zero]
      constructor
      · intro hzero place
        cases place with
        | zero => exact hzero
        | succ place => exact hnone place
      · intro hall
        exact hall 0

theorem Keyed.unique {lead' value' : Text} (hkeyed : Keyed key lead value)
    (hkeyed' : Keyed key lead' value') (hsame : lead ++ value = lead' ++ value') :
    lead = lead' ∧ value = value' := by
  have hout : keyed key (lead ++ value) = some (lead, value) :=
    keyed_eq_some_iff.mpr ⟨rfl, hkeyed⟩
  have hout' : keyed key (lead ++ value) = some (lead', value') :=
    keyed_eq_some_iff.mpr ⟨hsame, hkeyed'⟩
  simpa using hout.symm.trans hout'

/-- A text has one last place of a key. -/
theorem LastKeyed.unique {lead' value' : Text} (hlast : LastKeyed key lead value)
    (hlast' : LastKeyed key lead' value') (hsame : lead ++ value = lead' ++ value') :
    lead = lead' ∧ value = value' := by
  obtain ⟨before, own, rfl, hkeyed, hlast⟩ := hlast
  obtain ⟨before', own', rfl, hkeyed', hlast'⟩ := hlast'
  have hle := hlast before'.length
  have hge := hlast' before.length
  have hat : KeyAt key (before ++ own ++ value) before.length :=
    ⟨own, value, by rw [append_assoc, drop_left], hkeyed⟩
  have hat' : KeyAt key (before' ++ own' ++ value') before'.length :=
    ⟨own', value', by rw [append_assoc, drop_left], hkeyed'⟩
  have hlength : before.length = before'.length := by
    rw [hsame] at hle hat
    rcases Nat.lt_trichotomy before.length before'.length with hlt | heq | hgt
    · exact absurd hat' (hle hlt)
    · exact heq
    · exact absurd hat (hge hgt)
  rw [append_assoc, append_assoc] at hsame
  obtain ⟨rfl, hrest⟩ := append_inj hsame hlength
  obtain ⟨rfl, rfl⟩ := hkeyed.unique hkeyed' hrest
  exact ⟨rfl, rfl⟩

theorem suffixKeyed_last (hout : suffixKeyed key t = some (lead, value)) :
    t = lead ++ value ∧ LastKeyed key lead value := by
  induction t generalizing lead with
  | nil => cases hout
  | cons c t ih =>
    rw [suffixKeyed_cons] at hout
    cases hrest : suffixKeyed key t with
    | some split =>
      rw [hrest, Option.some.injEq, Prod.mk.injEq] at hout
      obtain ⟨rfl, rfl⟩ := hout
      obtain ⟨hjoin, before, own, hlead, hkeyed, hlast⟩ := ih hrest
      refine ⟨by rw [hjoin, cons_append], c :: before, own, by rw [hlead, cons_append], hkeyed, ?_⟩
      intro place hplace
      cases place with
      | zero => cases hplace
      | succ place => exact hlast place (Nat.lt_of_succ_lt_succ hplace)
    | none =>
      rw [hrest] at hout
      obtain ⟨hjoin, hkeyed⟩ := keyed_eq_some_iff.mp hout
      refine ⟨hjoin, [], lead, rfl, hkeyed, ?_⟩
      intro place hplace
      cases place with
      | zero => cases hplace
      | succ place => exact hjoin ▸ suffixKeyed_eq_none_iff.mp hrest place

/-- The greedy match takes the last place of the key that a value follows. -/
theorem suffixKeyed_eq_some_iff : suffixKeyed key t = some (lead, value) ↔
    t = lead ++ value ∧ LastKeyed key lead value := by
  refine ⟨suffixKeyed_last, ?_⟩
  rintro ⟨rfl, hlast⟩
  cases hout : suffixKeyed key (lead ++ value) with
  | none =>
    obtain ⟨before, own, rfl, hkeyed, -⟩ := hlast
    refine absurd ?_ (suffixKeyed_eq_none_iff.mp hout before.length)
    exact ⟨own, value, by rw [append_assoc, drop_left], hkeyed⟩
  | some split =>
    obtain ⟨hjoin, hlast'⟩ := suffixKeyed_last hout
    obtain ⟨rfl, rfl⟩ := hlast.unique hlast' hjoin
    rfl

/-! ## Secret-named keys -/

/-- A secret-named key: one of the six names at the front, else anything that ends in
`_token`, else anything that ends in `_key`. -/
inductive SecretNamed (lead value : Text) : Prop where
  | named (name : Text) (hname : name ∈ secretNames) (hkeyed : Keyed name lead value)
  | token (hnamed : ∀ name ∈ secretNames, ¬ KeyAt name (lead ++ value) 0)
      (hlast : LastKeyed "_token".toList lead value)
  | key (hnamed : ∀ name ∈ secretNames, ¬ KeyAt name (lead ++ value) 0)
      (htoken : ∀ place, ¬ KeyAt "_token".toList (lead ++ value) place)
      (hlast : LastKeyed "_key".toList lead value)

theorem foldCase_of_stop {c : Char} (hc : isBlank c = true ∨ c = ':') :
    foldCase c = c := by
  rcases hc with hc | rfl
  · simp only [isBlank, decide_eq_true_eq, mem_cons, not_mem_nil, or_false] at hc
    rcases hc with rfl | rfl | rfl | rfl | rfl <;> decide
  · decide

/-- A key of letters and underscores is all that stands before the first blank or colon. -/
theorem Keyed.name_eq (hplain : ∀ c ∈ key, ¬ (isBlank c = true ∨ c = ':'))
    (hkeyed : Keyed key lead value) :
    ((lead ++ value).takeWhile fun c => ¬ (isBlank c = true ∨ c = ':')).map foldCase = key := by
  obtain ⟨name, sep, rfl, rfl, hsep⟩ := hkeyed
  obtain ⟨c, rest, hcons, hstop⟩ := hsep.head
  have hname : ∀ d ∈ name, decide (¬ (isBlank d = true ∨ d = ':')) = true := by
    intro d hd
    rw [decide_eq_true_eq]
    intro hstop
    have hfold := foldCase_of_stop hstop
    exact hplain (foldCase d) (mem_map_of_mem hd) (by rw [hfold]; exact hstop)
  rw [append_assoc, hcons, takeWhile_append_of_pos hname, takeWhile_cons_of_neg (by simp [hstop]),
    append_nil]

theorem secretNames_plain : ∀ name ∈ secretNames, ∀ c ∈ name, ¬ (isBlank c = true ∨ c = ':') := by
  have hall : (secretNames.all fun name => name.all fun c => !(isBlank c || c = ':')) = true := by
    decide
  intro name hname c hc hstop
  have hplain := all_eq_true.mp (all_eq_true.mp hall name hname) c hc
  rcases hstop with hstop | rfl
  · simp [hstop] at hplain
  · simp at hplain

theorem findSome?_secretNames_eq_some_iff :
    (secretNames.findSome? fun name => keyed name t) = some (lead, value) ↔
      t = lead ++ value ∧ ∃ name ∈ secretNames, Keyed name lead value := by
  constructor
  · intro hout
    obtain ⟨name, hname, hkeyed⟩ := exists_of_findSome?_eq_some hout
    obtain ⟨hjoin, hkeyed⟩ := keyed_eq_some_iff.mp hkeyed
    exact ⟨hjoin, name, hname, hkeyed⟩
  · rintro ⟨rfl, name, hname, hkeyed⟩
    have hat : keyed name (lead ++ value) = some (lead, value) :=
      keyed_eq_some_iff.mpr ⟨rfl, hkeyed⟩
    cases hout : secretNames.findSome? fun name => keyed name (lead ++ value) with
    | none =>
      rw [findSome?_eq_none_iff.mp hout name hname] at hat
      cases hat
    | some split =>
      obtain ⟨name', hname', hkeyed'⟩ := exists_of_findSome?_eq_some hout
      obtain ⟨hjoin, hother⟩ := keyed_eq_some_iff.mp hkeyed'
      have hsame : name' = name := by
        rw [← hother.name_eq (secretNames_plain name' hname'), ← hjoin,
          hkeyed.name_eq (secretNames_plain name hname)]
      rw [hsame] at hkeyed'
      exact hkeyed'.symm.trans hat

theorem findSome?_secretNames_eq_none_iff :
    (secretNames.findSome? fun name => keyed name t) = none ↔
      ∀ name ∈ secretNames, ¬ KeyAt name t 0 := by
  rw [findSome?_eq_none_iff]
  refine forall₂_congr fun name _ => ?_
  exact keyed_eq_none_iff 0

/-- The names of `secretKeys` behind the margin, in their order. -/
theorem secretNamed_eq_some_iff : secretNamed t = some (lead, value) ↔
    t = lead ++ value ∧ SecretNamed lead value := by
  unfold secretNamed
  cases hnamed : secretNames.findSome? fun name => keyed name t with
  | some split =>
    obtain ⟨hsplit, name, hname, hkeyed⟩ := findSome?_secretNames_eq_some_iff.mp hnamed
    have hat : KeyAt name t 0 := ⟨split.1, split.2, hsplit, hkeyed⟩
    constructor
    · intro hout
      cases hout
      exact ⟨hsplit, .named name hname hkeyed⟩
    · rintro ⟨rfl, hsecret⟩
      cases hsecret with
      | named other hother hkeyed =>
        exact hnamed.symm.trans (findSome?_secretNames_eq_some_iff.mpr ⟨rfl, other, hother, hkeyed⟩)
      | token hnone => exact absurd hat (hnone name hname)
      | key hnone => exact absurd hat (hnone name hname)
  | none =>
    have hnone := findSome?_secretNames_eq_none_iff.mp hnamed
    have hother : ∀ name ∈ secretNames, ∀ lead value, t = lead ++ value → ¬ Keyed name lead value :=
      fun name hname lead value hjoin hkeyed => hnone name hname ⟨lead, value, hjoin, hkeyed⟩
    cases htoken : suffixKeyed "_token".toList t with
    | some split =>
      obtain ⟨hsplit, hlast⟩ := suffixKeyed_eq_some_iff.mp htoken
      constructor
      · intro hout
        cases hout
        exact ⟨hsplit, .token (hsplit ▸ hnone) hlast⟩
      · rintro ⟨rfl, hsecret⟩
        cases hsecret with
        | named name hname hkeyed => exact absurd hkeyed (hother name hname _ _ rfl)
        | token _ hlast => exact htoken.symm.trans (suffixKeyed_eq_some_iff.mpr ⟨rfl, hlast⟩)
        | key _ hnever =>
          rw [suffixKeyed_eq_none_iff.mpr hnever] at htoken
          cases htoken
    | none =>
      have hnever := suffixKeyed_eq_none_iff.mp htoken
      change suffixKeyed "_key".toList t = _ ↔ _
      rw [suffixKeyed_eq_some_iff]
      refine and_congr_right fun hsplit => ?_
      rw [hsplit] at hnone hnever
      refine ⟨.key hnone hnever, fun hsecret => ?_⟩
      cases hsecret with
      | named name hname hkeyed => exact absurd hkeyed (hother name hname _ _ hsplit)
      | token _ hlast =>
        rw [suffixKeyed_eq_some_iff.mpr ⟨hsplit, hlast⟩] at htoken
        cases htoken
      | key _ _ hlast => exact hlast

/-! ## Secret entries -/

/-- The group `(\s*(?:-\s*)?)`, which takes all that it can. -/
inductive Margin : Text → Text → Prop where
  | plain (blanks body : Text) (hblanks : Blanks blanks)
      (hbody : ∀ c, body.head? = some c → isBlank c = false ∧ c ≠ '-') : Margin blanks body
  | item (blanks after body : Text) (hblanks : Blanks blanks) (hafter : Blanks after)
      (hbody : ∀ c, body.head? = some c → isBlank c = false) :
      Margin (blanks ++ '-' :: after) body

/-- The expression `secretKeys`. -/
def SecretEntry (lead value : Text) : Prop :=
  ∃ before own, lead = before ++ own ∧ Margin before (own ++ value) ∧ SecretNamed own value

/-- Without a dash the margin is the blanks at the front. -/
theorem margin_plain (hdash : (line.dropWhile isBlank).head? ≠ some '-') :
    margin line = (line.takeWhile isBlank, line.dropWhile isBlank) := by
  rw [margin]
  cases hbody : line.dropWhile isBlank with
  | nil => rfl
  | cons c body =>
    have hc : c ≠ '-' := by
      rintro rfl
      exact hdash (by rw [hbody]; rfl)
    simp [hc]

theorem margin_eq_iff {before body : Text} : margin line = (before, body) ↔
    line = before ++ body ∧ Margin before body := by
  constructor
  · intro hout
    by_cases hdash : (line.dropWhile isBlank).head? = some '-'
    · obtain ⟨rest, hrest⟩ := head?_eq_some_iff.mp hdash
      rw [margin, hrest] at hout
      cases hout
      refine ⟨?_, .item _ _ _ (blanks_takeWhile _) (blanks_takeWhile _) fun c => head_dropWhile⟩
      rw [append_assoc, cons_append, takeWhile_append_dropWhile, ← hrest,
        takeWhile_append_dropWhile]
    · rw [margin_plain hdash] at hout
      cases hout
      refine ⟨takeWhile_append_dropWhile.symm, .plain _ _ (blanks_takeWhile _) fun c hc => ?_⟩
      refine ⟨head_dropWhile hc, ?_⟩
      rintro rfl
      exact hdash hc
  · rintro ⟨rfl, hmargin⟩
    cases hmargin with
    | plain _ _ hblanks hbody =>
      obtain ⟨htake, hdrop⟩ := span_append hblanks fun c hc => (hbody c hc).1
      have hdash : body.head? ≠ some '-' := fun hhead => (hbody '-' hhead).2 rfl
      rw [margin_plain (by rwa [hdrop]), hdrop, htake]
    | item blanks after _ hblanks hafter hbody =>
      have hdash : isBlank '-' = false := by decide
      obtain ⟨htake, hdrop⟩ := span_mark hblanks hdash (after ++ body)
      obtain ⟨htake', hdrop'⟩ := span_append hafter hbody
      rw [append_assoc, cons_append, margin, hdrop, htake]
      simp only
      rw [htake', hdrop']

/-- The expression `secretKeys` matches the secret entries and splits them before the value. -/
theorem secretKeys_eq_some_iff : secretKeys line = some (lead, value) ↔
    line = lead ++ value ∧ SecretEntry lead value := by
  constructor
  · intro hout
    obtain ⟨⟨own, rest⟩, hnamed, hsplit⟩ := map_eq_some_iff.mp hout
    cases hsplit
    obtain ⟨hrest, hnamed⟩ := secretNamed_eq_some_iff.mp hnamed
    obtain ⟨hline, hmargin⟩ :=
      margin_eq_iff.mp (show margin line = ((margin line).1, (margin line).2) from rfl)
    rw [hrest] at hline hmargin
    exact ⟨hline.trans (append_assoc _ _ _).symm, _, own, rfl, hmargin, hnamed⟩
  · rintro ⟨rfl, before, own, rfl, hmargin, hnamed⟩
    have hsplit : margin (before ++ own ++ value) = (before, own ++ value) :=
      margin_eq_iff.mpr ⟨append_assoc _ _ _, hmargin⟩
    have hout : secretNamed (own ++ value) = some (own, value) :=
      secretNamed_eq_some_iff.mpr ⟨rfl, hnamed⟩
    rw [secretKeys, hsplit, hout]
    rfl

end Apiary.Improve
