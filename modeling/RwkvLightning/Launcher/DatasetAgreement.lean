import RwkvLightning.Launcher.DatasetCheckComplete
import RwkvLightning.Training.DatasetExact

/-!
# The launcher and the trainer on one dataset

The launcher checks a dataset before a run, the trainer reads it during the run.  Both read
rows of one format; the launcher takes the white space of JSON only and does not ask what
the texts stand for, and it drops a carriage return at the end of a line.

**Results.**
* `linesLoop_eq_ok`, `countJsonlRows_eq_ok`: what each accepts of a file, and the count.
* `row_passes_iff`: a row passes the launcher exactly if the trainer reads it, unless it has
  a vertical tab, a form feed or a text with an unpaired surrogate.
* `validateDataset_mirrors`: the two on a whole file.
-/

namespace RwkvLightning
namespace Launcher

open JsonString (Bytes ascii)
open Dataset (Layout RowSpelling TextSegment JsonlTextReader countLoop parseRow getLines
  countJsonlRows)

section Lines

variable {line : Bytes}

theorem dropCR_cases (line : Bytes) :
    dropCR line = line ∨ line = dropCR line ++ [0x0D] := by
  rw [dropCR]
  split
  · rename_i hlast
    exact Or.inr (List.dropLast_append_getLast? _ hlast).symm
  · exact Or.inl rfl

/-- The carriage return that the launcher drops is white space. -/
theorem layout_dropCR {tokens : List Dataset.Token} :
    Layout isSpace tokens (dropCR line) ↔ Layout isSpace tokens line := by
  rcases dropCR_cases line with hsame | hreturn
  · rw [hsame]
  · constructor
    · intro h
      rw [hreturn]
      exact h.snoc rfl
    · intro h
      rw [hreturn] at h
      exact h.of_snoc rfl

theorem dropCR_eq_nil : dropCR line = [] ↔ line = [] ∨ line = [0x0D] := by
  constructor
  · intro h
    rcases dropCR_cases line with hsame | hreturn
    · exact Or.inl (hsame.symm.trans h)
    · rw [h] at hreturn
      exact Or.inr hreturn
  · rintro (rfl | rfl) <;> rfl

/-- The white space of JSON is white space of the C locale, and the rest of that is two
bytes. -/
theorem isSpace_iff (c : UInt8) :
    isSpace c = true ↔ Dataset.isSpace c = true ∧ c ≠ 0x0B ∧ c ≠ 0x0C := by
  have hle (c bound : UInt8) : c ≤ bound ↔ c.toNat ≤ bound.toNat := UInt8.le_iff_toNat_le
  have heq (c d : UInt8) : c = d ↔ c.toNat = d.toNat := UInt8.toNat_inj.symm
  simp only [isSpace, Dataset.isSpace, Bool.or_eq_true, Bool.and_eq_true, decide_eq_true_eq, ne_eq,
    hle, heq, UInt8.reduceToNat]
  omega

/-- What passes is a row with the white space of JSON. -/
theorem validate_eq_ok :
    validateDatasetRow line = .ok () ↔ ∃ row : RowSpelling, Layout isSpace row.tokens line :=
  ⟨exists_row_of_validate, fun ⟨_, h⟩ => validate_of_layout h⟩

/-- What the trainer reads is a row whose texts decode. -/
theorem parseRow_ok_iff : (∃ segments, parseRow line = .ok segments) ↔
    ∃ row : RowSpelling, row.decoded ≠ none ∧ Layout Dataset.isSpace row.tokens line := by
  constructor
  · rintro ⟨segments, hparse⟩
    obtain ⟨row, hdecoded, hlayout⟩ := Dataset.exists_row_of_parseRow hparse
    exact ⟨row, by rw [hdecoded]; exact Option.some_ne_none _, hlayout⟩
  · rintro ⟨row, hdecoded, hlayout⟩
    obtain ⟨segments, hsegments⟩ := Option.ne_none_iff_exists'.mp hdecoded
    exact ⟨segments, Dataset.parseRow_of_layout hsegments hlayout⟩

/-- A row passes the launcher exactly if the trainer reads it, unless it has a vertical tab,
a form feed or a text with an unpaired surrogate. -/
theorem row_passes_iff (htab : 0x0B ∉ line) (hfeed : 0x0C ∉ line)
    (hpaired : ∀ row : RowSpelling, Layout Dataset.isSpace row.tokens line → row.decoded ≠ none) :
    validateDatasetRow (dropCR line) = .ok () ↔ ∃ segments, parseRow line = .ok segments := by
  rw [validate_eq_ok, parseRow_ok_iff]
  constructor
  · rintro ⟨row, hlayout⟩
    have htrainer : Layout Dataset.isSpace row.tokens line :=
      (layout_dropCR.mp hlayout).mono fun c _ hc => ((isSpace_iff c).mp hc).1
    exact ⟨row, hpaired row htrainer, htrainer⟩
  · rintro ⟨row, -, hlayout⟩
    refine ⟨row, layout_dropCR.mpr (hlayout.mono fun c hmem hc => (isSpace_iff c).mpr ⟨hc, ?_, ?_⟩)⟩
    · rintro rfl
      exact htab hmem
    · rintro rfl
      exact hfeed hmem

end Lines

section Files

variable {lines : List Bytes}

/-- What the loop of `validateDataset` accepts, and what it counts. -/
theorem linesLoop_eq_ok {line count n : Nat} :
    linesLoop lines line count = .ok n ↔
      (∀ raw ∈ lines, raw.length < maxTokenSize ∧
        (dropCR raw = [] ∨ validateDatasetRow (dropCR raw) = .ok ())) ∧
      n = count + lines.countP fun raw => dropCR raw ≠ [] := by
  induction lines generalizing line count with
  | nil =>
      rw [linesLoop]
      constructor
      · intro h
        cases h
        exact ⟨fun raw hraw => absurd hraw List.not_mem_nil, rfl⟩
      · rintro ⟨-, rfl⟩
        rfl
  | cons raw lines ih =>
      rw [linesLoop, List.forall_mem_cons, List.countP_cons]
      by_cases hlong : maxTokenSize ≤ raw.length
      · rw [if_pos hlong]
        constructor
        · intro h
          cases h
        · rintro ⟨⟨⟨hshort, -⟩, -⟩, -⟩
          exact absurd hshort (Nat.not_lt.mpr hlong)
      · rw [if_neg hlong]
        have hshort : raw.length < maxTokenSize := Nat.not_le.mp hlong
        by_cases hblank : dropCR raw = []
        · rw [if_pos hblank, ih]
          simp [hblank, hshort]
        · rw [if_neg hblank]
          cases hrow : validateDatasetRow (dropCR raw) with
          | ok a =>
              dsimp only
              rw [ih]
              simp [hblank, hshort]
              omega
          | error message => simp [hblank]

/-- What `validateDataset` accepts, and what it counts. -/
theorem validateDataset_eq_ok {file : Bytes} {n : Nat} :
    validateDataset file = .ok n ↔
      (∀ raw ∈ getLines file, raw.length < maxTokenSize ∧
        (dropCR raw = [] ∨ validateDatasetRow (dropCR raw) = .ok ())) ∧
      n = ((getLines file).countP fun raw => dropCR raw ≠ []) ∧ 0 < n := by
  have hlines : rawLines file = getLines file := rfl
  rw [validateDataset, hlines]
  constructor
  · intro h
    split at h
    · rename_i count hloop
      obtain ⟨hrows, hcount⟩ := linesLoop_eq_ok.mp hloop
      rw [Nat.zero_add] at hcount
      split at h
      · cases h
      · rename_i hpos
        cases h
        exact ⟨hrows, hcount, Nat.pos_of_ne_zero hpos⟩
    · cases h
  · rintro ⟨hrows, hcount, hpos⟩
    have hloop : linesLoop (getLines file) 0 0 = .ok n :=
      linesLoop_eq_ok.mpr ⟨hrows, by rw [Nat.zero_add]; exact hcount⟩
    rw [hloop]
    exact if_neg hpos.ne'

theorem countLoop_blank (passes number rows : Nat) (lines : List Bytes) :
    countLoop (passes + 1) { lines := [] :: lines, lineNumber := number } rows =
      countLoop (passes + 1) { lines := lines, lineNumber := number + 1 } rows := by
  have hnext : JsonlTextReader.next ([] :: lines) number = JsonlTextReader.next lines (number + 1) := by
    rw [JsonlTextReader.next, if_pos rfl]
  rw [countLoop, countLoop]
  dsimp only
  rw [hnext]

/-- What the loop of `count_jsonl_rows` accepts, and what it counts. -/
theorem countLoop_eq_ok {passes number rows n : Nat} (hpasses : lines.length < passes) :
    countLoop passes { lines := lines, lineNumber := number } rows = .ok n ↔
      (∀ line ∈ lines, line = [] ∨ ∃ segments, parseRow line = .ok segments) ∧
      n = rows + lines.countP fun line => line ≠ [] := by
  induction lines generalizing passes number rows with
  | nil =>
      obtain ⟨passes, rfl⟩ : ∃ k, passes = k + 1 := ⟨passes - 1, by omega⟩
      rw [countLoop]
      constructor
      · intro h
        cases h
        exact ⟨fun line hline => absurd hline List.not_mem_nil, rfl⟩
      · rintro ⟨-, rfl⟩
        rfl
  | cons line lines ih =>
      rw [List.length_cons] at hpasses
      obtain ⟨passes, rfl⟩ : ∃ k, passes = k + 1 := ⟨passes - 1, by omega⟩
      rw [List.forall_mem_cons, List.countP_cons]
      by_cases hblank : line = []
      · rw [hblank, countLoop_blank, ih (by omega)]
        simp
      · rw [countLoop]
        dsimp only
        rw [JsonlTextReader.next, if_neg hblank]
        cases hrow : parseRow line with
        | ok segments =>
            dsimp only
            rw [ih (by omega)]
            simp [hblank]
            omega
        | error message => simp [hblank]

/-- What `count_jsonl_rows` accepts, and what it counts. -/
theorem countJsonlRows_eq_ok {file : Bytes} {n : Nat} :
    countJsonlRows file = .ok n ↔
      (∀ line ∈ getLines file, line = [] ∨ ∃ segments, parseRow line = .ok segments) ∧
      n = (getLines file).countP fun line => line ≠ [] := by
  rw [countJsonlRows, countLoop_eq_ok (Nat.lt_succ_self _), Nat.zero_add]

end Files

section Datasets

/-- A dataset without what only one of the two takes: a line with nothing but a carriage
return, a vertical tab or a form feed, a text with an unpaired surrogate. -/
structure Common (file : Bytes) : Prop where
  carriage : [0x0D] ∉ getLines file
  tab : ∀ line ∈ getLines file, 0x0B ∉ line
  feed : ∀ line ∈ getLines file, 0x0C ∉ line
  paired : ∀ line ∈ getLines file, ∀ row : RowSpelling,
    Layout Dataset.isSpace row.tokens line → row.decoded ≠ none

variable {file : Bytes}

/-- A carriage return alone is no row of the trainer. -/
theorem carriage_not_read {segments : List TextSegment} : parseRow [0x0D] ≠ .ok segments := by
  intro h
  cases h

/-- Where no line is a carriage return, the lines with a row are those that are not empty. -/
theorem countP_dropCR (h : [0x0D] ∉ getLines file) :
    (getLines file).countP (fun raw => dropCR raw ≠ []) =
      (getLines file).countP fun line => line ≠ [] := by
  refine List.countP_congr fun line hline => ?_
  rw [decide_eq_true_eq, decide_eq_true_eq, ne_eq, ne_eq, dropCR_eq_nil]
  have hother : line ≠ [0x0D] := by
    rintro rfl
    exact h hline
  simp [hother]

/-- Whenever both accept a file they count the same rows.  Of the files without what only one
of the two takes, the launcher accepts those that the trainer reads, that have a row and
whose lines are shorter than 16 MiB. -/
theorem validateDataset_mirrors :
    (∀ (file : Bytes) (n m : Nat), validateDataset file = .ok n → countJsonlRows file = .ok m →
      n = m) ∧
    ∀ file : Bytes, Common file → ∀ n, validateDataset file = .ok n ↔
      countJsonlRows file = .ok n ∧ 0 < n ∧ ∀ line ∈ getLines file, line.length < maxTokenSize := by
  constructor
  · intro file n m hlauncher htrainer
    obtain ⟨-, hn, -⟩ := validateDataset_eq_ok.mp hlauncher
    obtain ⟨hread, hm⟩ := countJsonlRows_eq_ok.mp htrainer
    have hcarriage : [0x0D] ∉ getLines file := by
      intro hmem
      rcases hread _ hmem with hnil | ⟨segments, hparse⟩
      · cases hnil
      · exact carriage_not_read hparse
    rw [hn, hm, countP_dropCR hcarriage]
  · intro file hcommon n
    have hrow : ∀ line ∈ getLines file, (dropCR line = [] ∨ validateDatasetRow (dropCR line) = .ok ()) ↔
        (line = [] ∨ ∃ segments, parseRow line = .ok segments) := by
      intro line hline
      have hother : line ≠ [0x0D] := by
        rintro rfl
        exact hcommon.carriage hline
      have hpasses := row_passes_iff (hcommon.tab line hline) (hcommon.feed line hline)
        (hcommon.paired line hline)
      rw [dropCR_eq_nil, hpasses]
      simp [hother]
    rw [validateDataset_eq_ok, countJsonlRows_eq_ok, countP_dropCR hcommon.carriage]
    constructor
    · rintro ⟨hrows, hn, hpos⟩
      exact ⟨⟨fun line hline => (hrow line hline).mp (hrows line hline).2, hn⟩, hpos,
        fun line hline => (hrows line hline).1⟩
    · rintro ⟨⟨hread, hn⟩, hpos, hshort⟩
      exact ⟨fun line hline => ⟨hshort line hline, (hrow line hline).mpr (hread line hline)⟩, hn, hpos⟩

-- An unpaired surrogate passes the launcher and stops the trainer.
example : validateDataset (ascii "\x7b\"text\":\"\\ud800\"\x7d") = .ok 1 ∧
    countJsonlRows (ascii "\x7b\"text\":\"\\ud800\"\x7d") =
      .error { lineNumber := 1, message := "missing low surrogate" } := by
  decide +kernel

/-- A file that the trainer reads without a row is refused by the launcher. -/
theorem empty_dataset_differs :
    ¬∀ file : Bytes, (∃ n, validateDataset file = .ok n) ↔ ∃ n, countJsonlRows file = .ok n := by
  intro h
  have htrainer : countJsonlRows [] = .ok 0 := by decide +kernel
  have hlauncher : validateDataset [] = .error .empty := by decide +kernel
  obtain ⟨n, hn⟩ := (h []).mpr ⟨0, htrainer⟩
  rw [hlauncher] at hn
  cases hn

theorem paired_of_read {line : Bytes} (h : ∃ segments, parseRow line = .ok segments)
    (row : RowSpelling) (hlayout : Layout Dataset.isSpace row.tokens line) :
    row.decoded ≠ none := by
  intro hnone
  obtain ⟨segments, hparse⟩ := h
  obtain ⟨message, herror⟩ := Dataset.parseRow_of_decoded_none hnone hlayout
  rw [hparse] at herror
  cases herror

/-- A text row, an empty line and a row of segments with a carriage return behind it. -/
def sampleFile : Bytes :=
  ascii "\x7b\"text\": \"a\\u0062\"\x7d\n\n" ++
    ascii "\x7b\"segments\":[\x7b\"train\":false,\"text\":\"c\"\x7d]\x7d\r\n"

theorem sampleFile_read : countJsonlRows sampleFile = .ok 2 := by decide +kernel

theorem sampleFile_common : Common sampleFile where
  carriage := by decide +kernel
  tab := by decide +kernel
  feed := by decide +kernel
  paired := by
    intro line hline row hlayout
    rcases (countJsonlRows_eq_ok.mp sampleFile_read).1 line hline with rfl | hread
    · have hle := hlayout.length_le
      cases row with
      | text => cases hle
      | segments => cases hle
    · exact paired_of_read hread row hlayout

theorem validateDataset_mirrors_sampleFile : validateDataset sampleFile = .ok 2 :=
  (validateDataset_mirrors.2 sampleFile sampleFile_common 2).mpr
    ⟨sampleFile_read, by decide, by decide +kernel⟩

end Datasets

end Launcher
end RwkvLightning
