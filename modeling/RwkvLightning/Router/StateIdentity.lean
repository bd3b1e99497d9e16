import RwkvLightning.Server.UploadedStateConflicts
import Mathlib

/-!
# The id of an uploaded state on both sides

The router registers an upload under the id that it expects the backends to return:
`uploadedStateID` of `state_identity.go`.  The backends derive theirs in
`UploadedStateStore::upload`.

**Platform.**  Both run where the slash is the only separator of the system.

**Results.**
* `base_eq_iff`: which component of a path `path.Base` returns.
* `name_eq_iff`: the same for the name that the router derives.
* `uploadedStateID_eq_iff`: for an upload that a backend accepts, the two ids are equal
  exactly when the name is `Mirrored`.
-/

namespace RwkvLightning
namespace StateIdentity

open Execution UploadedStateStore

section Definitions

/-- A part of a form: its `filename` parameter, if any, and its content. -/
structure Part where
  filename : Option Name
  data : Bytes

/-- What a multipart reader finds in a request. -/
structure Form where
  /-- The content type is `multipart/form-data`, with a boundary. -/
  multipart : Bool
  parts : List Part
  /-- The reader fails before it finds the end. -/
  truncated : Bool

/-- `path.Base`, and `filepath.Base` where the separator is the slash. -/
def base (path : Name) : Name :=
  if path = [] then ['.']
  else
    let last := (path.rdropWhile (· = '/')).rtakeWhile (· ≠ '/')
    if last = [] then ['/'] else last

/-- `strings.ReplaceAll(filename, "\\", "/")`. -/
def slashes (name : Name) : Name :=
  name.map (fun c => if c = '\\' then '/' else c)

/-- `Part.FileName`. -/
def Part.fileName (part : Part) : Name :=
  match part.filename with
  | none => []
  | some filename => if filename = [] then [] else base filename

/-- The loop over the parts, with `name` and `count`. -/
def readParts : List Part → Name → Nat → Name × Nat
  | [], name, count => (name, count)
  | part :: parts, name, count =>
      if part.fileName ≠ [] then readParts parts (base (slashes part.fileName)) (count + 1)
      else readParts parts name count

/-- `strings.LastIndexByte`. -/
def lastIndexByte (name : Name) (c : Char) : Int :=
  match name.reverse.findIdx? (· = c) with
  | none => -1
  | some i => (name.length : Int) - 1 - i

/-- What `uploadedStateID` makes of the name of a file. -/
def stateIDOfName (name uuid : Name) : Name :=
  let name := if name = [] ∨ name = ['.'] ∨ name = ['.', '.'] then "state.pth".toList else name
  let index := lastIndexByte name '.'
  let stem := if 0 < index then name.take index.toNat else name
  let stem := if stem = [] then "state".toList else stem
  stem ++ '-' :: uuid

/-- `uploadedStateID`. -/
def uploadedStateID (form : Form) (uuid : Name) : Except String Name :=
  if form.multipart = false then .error "invalid multipart/form-data request"
  else if form.truncated = true then .error "invalid multipart/form-data request"
  else
    let read := readParts form.parts [] 0
    if read.2 ≠ 1 then .error "request must contain exactly one state file"
    else .ok (stateIDOfName read.1 uuid)

variable {δ : Type} [DecidableEq δ]

/--
The handler of `/v1/state/upload` behind the check of the password, with the UUID of the
header; `u` carries the environment of the upload.
-/
def uploadRoute (p : Platform δ) (s : Store δ) (form : Form) (uuid : Name) (u : Upload) :
    Store δ × Except String UploadedStateInfo :=
  if form.multipart = false ∨ form.truncated = true then
    (s, .error "Invalid multipart/form-data request")
  else
    match form.parts.filter (fun part => part.filename.isSome) with
    | [file] =>
        s.upload p
          { u with
            filename := file.filename.getD []
            data := file.data
            uploadUuid := uuid }
    | _ => (s, .error "Request must contain exactly one state file")

end Definitions

section Mirror

def Separator (c : Char) : Prop := c = '/' ∨ c = '\\'

instance : DecidablePred Separator := fun c =>
  inferInstanceAs (Decidable (c = '/' ∨ c = '\\'))

/-- The names that have the stem `state`, or get it. -/
def Standard (name : Name) : Prop :=
  name = ['.'] ∨ name = ['.', '.'] ∨ name = "state".toList ∨
    ∃ extension, '.' ∉ extension ∧ name = "state.".toList ++ extension

/-- The component `name` of a path, with nothing but separators behind it. -/
structure LastComponent (raw name : Name) (backslashes slashes : Nat) (front : Name) : Prop where
  path : raw = front ++ name ++ List.replicate backslashes '\\' ++ List.replicate slashes '/'
  start : ∀ c ∈ front.getLast?, Separator c
  nonempty : name ≠ []
  clean : ∀ c ∈ name, ¬Separator c

/--
The names on which both sides agree.  A name that ends in separators becomes `state.pth` for
a backend, while the router looks at the component before them.
-/
def Mirrored (raw : Name) : Prop :=
  raw ≠ [] ∧
    ((∃ c ∈ raw.getLast?, Separator c) →
      ∃ name i j front, LastComponent raw name i j front ∧ Standard name)

end Mirror

section Paths

variable {path name front raw : Name}

theorem rtakeWhile_append_of_pos {p : Char → Bool} (front : Name) (h : ∀ c ∈ name, p c = true) :
    (front ++ name).rtakeWhile p = front.rtakeWhile p ++ name := by
  rw [List.rtakeWhile, List.rtakeWhile, List.reverse_append,
    List.takeWhile_append_of_pos (fun c hc => h c (List.mem_reverse.mp hc)),
    List.reverse_append, List.reverse_reverse]

theorem rdropWhile_append_of_pos {p : Char → Bool} (front : Name) (h : ∀ c ∈ name, p c = true) :
    (front ++ name).rdropWhile p = front.rdropWhile p := by
  rw [List.rdropWhile, List.rdropWhile, List.reverse_append,
    List.dropWhile_append_of_pos (fun c hc => h c (List.mem_reverse.mp hc))]

/-- `base` finds a component that has nothing but slashes behind it. -/
theorem base_of_eq {j : Nat} (hfront : ∀ c ∈ front.getLast?, c = '/') (hne : name ≠ [])
    (hclean : '/' ∉ name) : base (front ++ name ++ List.replicate j '/') = name := by
  have hdrop : (front ++ name).rdropWhile (· = '/') = front ++ name := by
    rw [List.rdropWhile_eq_self_iff]
    intro hne' hlast
    rw [List.getLast_append_of_ne_nil _ hne] at hlast
    exact hclean ((of_decide_eq_true hlast) ▸ List.getLast_mem hne)
  have htake : front.rtakeWhile (· ≠ '/') = [] := by
    rw [List.rtakeWhile_eq_nil_iff]
    intro hne' hlast
    refine of_decide_eq_true hlast (hfront _ ?_)
    exact List.getLast?_eq_some_getLast hne'
  have hname : ∀ c ∈ name, decide (c ≠ '/') = true := by
    intro c hc
    exact decide_eq_true fun h => hclean (h ▸ hc)
  rw [base, if_neg (by simp [hne]),
    rdropWhile_append_of_pos _ (fun c hc => decide_eq_true (List.eq_of_mem_replicate hc)), hdrop,
    rtakeWhile_append_of_pos _ hname, htake, List.nil_append]
  exact if_neg hne

theorem base_ne_nil (path : Name) : base path ≠ [] := by
  rw [base]
  by_cases hpath : path = []
  · rw [if_pos hpath]
    exact List.cons_ne_nil _ _
  rw [if_neg hpath]
  dsimp only
  split
  · exact List.cons_ne_nil _ _
  · assumption

/-- Which component of a path `base` returns. -/
theorem base_eq_iff (hpath : path ≠ []) (hname : name ≠ ['/']) :
    base path = name ↔
      name ≠ [] ∧ '/' ∉ name ∧ ∃ front j, path = front ++ name ++ List.replicate j '/' ∧
        ∀ c ∈ front.getLast?, c = '/' := by
  constructor
  · intro hbase
    rw [base, if_neg hpath] at hbase
    dsimp only at hbase
    split_ifs at hbase with hlast
    · exact absurd hbase.symm hname
    subst hbase
    have hclean : '/' ∉ (path.rdropWhile (· = '/')).rtakeWhile (· ≠ '/') := by
      intro hmem
      simpa using List.mem_rtakeWhile_imp hmem
    refine ⟨hlast, hclean, (path.rdropWhile (· = '/')).rdropWhile (· ≠ '/'),
      (path.rtakeWhile (· = '/')).length, ?_, ?_⟩
    · have hslashes : List.replicate (path.rtakeWhile (· = '/')).length '/' =
          path.rtakeWhile (· = '/') := by
        rw [eq_comm, List.eq_replicate_iff]
        exact ⟨rfl, fun c hc => by simpa using List.mem_rtakeWhile_imp hc⟩
      rw [hslashes, List.rdropWhile_append_rtakeWhile, List.rdropWhile_append_rtakeWhile]
    · intro c hc
      obtain ⟨hne, rfl⟩ := List.mem_getLast?_eq_getLast hc
      have hslash := List.rdropWhile_last_not _ _ hne
      simpa using hslash
  · rintro ⟨hne, hclean, front, j, rfl, hfront⟩
    exact base_of_eq hfront hne hclean

theorem slashes_append (front back : Name) :
    slashes (front ++ back) = slashes front ++ slashes back :=
  List.map_append

theorem slashes_of_clean (h : ∀ c ∈ name, ¬Separator c) : slashes name = name := by
  refine (List.map_congr_left fun c hc => ?_).trans (List.map_id name)
  exact if_neg fun hslash => h c hc (Or.inr hslash)

theorem slashes_replicate (i : Nat) :
    slashes (List.replicate i '\\') = List.replicate i '/' := by
  rw [slashes, List.map_replicate, if_pos rfl]

/-- What becomes a slash is a separator. -/
theorem slash_iff (c : Char) : (if c = '\\' then '/' else c) = '/' ↔ Separator c := by
  by_cases h : c = '\\'
  · simp [h, Separator]
  · simp [h, Separator]

theorem clean_of_slashes (h : '/' ∉ slashes name) : ∀ c ∈ name, ¬Separator c := by
  intro c hc hseparator
  have hmem : (if c = '\\' then '/' else c) ∈ slashes name := List.mem_map_of_mem hc
  rw [(slash_iff c).mpr hseparator] at hmem
  exact h hmem

theorem getLast?_slashes (hfront : ∀ c ∈ front.getLast?, Separator c) :
    ∀ c ∈ (slashes front).getLast?, c = '/' := by
  intro c hc
  rw [slashes, List.getLast?_map, Option.mem_map] at hc
  obtain ⟨d, hd, rfl⟩ := hc
  exact (slash_iff d).mpr (hfront d hd)

/-- A name without slashes that becomes slashes consists of backslashes. -/
theorem eq_replicate_of_slashes {j : Nat} (hclean : '/' ∉ name)
    (h : slashes name = List.replicate j '/') : name = List.replicate j '\\' := by
  have hlength : name.length = j := by
    have hmap : (slashes name).length = name.length := List.length_map _
    rw [← hmap, h, List.length_replicate]
  rw [List.eq_replicate_iff]
  refine ⟨hlength, fun c hc => ?_⟩
  have hmem : (if c = '\\' then '/' else c) ∈ slashes name := List.mem_map_of_mem hc
  rw [h] at hmem
  rcases (slash_iff c).mp (List.eq_of_mem_replicate hmem) with hslash | hslash
  · exact absurd (hslash ▸ hc) hclean
  · exact hslash

/-- The router finds the component that has nothing but separators behind it. -/
theorem name_of_lastComponent {i j : Nat} (h : LastComponent raw name i j front) :
    base (slashes (base raw)) = name := by
  obtain ⟨rfl, hfront, hne, hclean⟩ := h
  have hslash : '/' ∉ name := fun hmem => hclean _ hmem (Or.inl rfl)
  have hfirst : base (front ++ name ++ List.replicate i '\\' ++ List.replicate j '/') =
      front.rtakeWhile (· ≠ '/') ++ name ++ List.replicate i '\\' := by
    have hsplit : front ++ name ++ List.replicate i '\\' ++ List.replicate j '/' =
        front.rdropWhile (· ≠ '/') ++
          (front.rtakeWhile (· ≠ '/') ++ name ++ List.replicate i '\\') ++
            List.replicate j '/' := by
      rw [← List.append_assoc, ← List.append_assoc, List.rdropWhile_append_rtakeWhile]
    rw [hsplit]
    refine base_of_eq ?_ (by simp [hne]) ?_
    · intro c hc
      obtain ⟨hne', rfl⟩ := List.mem_getLast?_eq_getLast hc
      simpa using List.rdropWhile_last_not _ _ hne'
    · intro hmem
      rcases List.mem_append.mp hmem with hmem | hmem
      · rcases List.mem_append.mp hmem with hmem | hmem
        · simpa using List.mem_rtakeWhile_imp hmem
        · exact hslash hmem
      · exact absurd (List.eq_of_mem_replicate hmem) (by decide)
  rw [hfirst, slashes_append, slashes_append, slashes_of_clean hclean, slashes_replicate]
  refine base_of_eq (getLast?_slashes fun c hc => hfront c ?_) hne hslash
  -- the last character of a suffix
  obtain ⟨before, hbefore⟩ := List.rtakeWhile_suffix (fun c => decide (c ≠ '/')) front
  rw [← hbefore, List.getLast?_append, Option.mem_def.mp hc]
  rfl

/-- What the router derives, other than a slash, is the last component of the name. -/
theorem name_eq_iff (hraw : raw ≠ []) (hname : name ≠ ['/']) :
    base (slashes (base raw)) = name ↔ ∃ i j front, LastComponent raw name i j front := by
  constructor
  · intro hbase
    have hfirst : base raw ≠ ['/'] := by
      intro hroot
      rw [hroot] at hbase
      exact hname (hbase.symm.trans (by decide))
    obtain ⟨hne, hclean, front, j, hpath, hfront⟩ := (base_eq_iff hraw hfirst).mp rfl
    have hne' : slashes (base raw) ≠ [] := by
      rw [slashes, Ne, List.map_eq_nil_iff]
      exact hne
    obtain ⟨hne'', hclean'', front', i, hpath', hfront'⟩ := (base_eq_iff hne' hname).mp hbase
    -- the parts of the first component that become those of the second
    obtain ⟨before, behind, hbase', hbefore, hbehind⟩ := List.map_eq_append_iff.mp hpath'
    obtain ⟨start, middle, rfl, hstart, hmiddle⟩ := List.map_eq_append_iff.mp hbefore
    have hmiddleClean : ∀ c ∈ middle, ¬Separator c :=
      clean_of_slashes fun hmem => hclean'' (hmiddle ▸ hmem)
    have hname' : middle = name := (slashes_of_clean hmiddleClean).symm.trans hmiddle
    have hbehind' : behind = List.replicate i '\\' := by
      refine eq_replicate_of_slashes (fun hmem => hclean ?_) hbehind
      rw [hbase']
      exact List.mem_append_right _ hmem
    refine ⟨i, j, front ++ start, ?_, ?_, hne'', hname' ▸ hmiddleClean⟩
    · rw [hpath, hbase', hbehind', hname']
      simp only [List.append_assoc]
    · intro c hc
      rw [List.getLast?_append, Option.mem_def, Option.or_eq_some_iff] at hc
      rcases hc with hc | ⟨-, hc⟩
      · refine (slash_iff c).mp (hfront' _ ?_)
        rw [← hstart, List.getLast?_map, Option.mem_map]
        exact ⟨c, hc, rfl⟩
      · exact Or.inl (hfront c hc)
  · rintro ⟨i, j, front, h⟩
    exact name_of_lastComponent h

/-- A backend takes the last component too, unless a separator is behind it. -/
theorem pathFilename_of_lastComponent (h : LastComponent raw name 0 0 front) :
    pathFilename (slashes raw) = name := by
  obtain ⟨rfl, hfront, hne, hclean⟩ := h
  have htake : (slashes front).rtakeWhile (· ≠ '/') = [] := by
    rw [List.rtakeWhile_eq_nil_iff]
    intro hne' hlast
    refine of_decide_eq_true hlast (getLast?_slashes hfront _ ?_)
    exact List.getLast?_eq_some_getLast hne'
  have hname : ∀ c ∈ name, decide (c ≠ '/') = true := by
    intro c hc
    exact decide_eq_true fun h => hclean c hc (Or.inl h)
  rw [List.replicate_zero, List.append_nil, List.replicate_zero, List.append_nil,
    slashes_append, slashes_of_clean hclean]
  exact (rtakeWhile_append_of_pos _ hname).trans (by rw [htake, List.nil_append])

theorem pathFilename_of_separator (h : ∃ c ∈ raw.getLast?, Separator c) :
    pathFilename (slashes raw) = [] := by
  obtain ⟨c, hc, hseparator⟩ := h
  refine List.rtakeWhile_eq_nil_iff.mpr fun hne hlast => ?_
  refine of_decide_eq_true hlast (Option.mem_unique (List.getLast?_eq_some_getLast hne) ?_)
  rw [slashes, List.getLast?_map, Option.mem_map]
  exact ⟨c, hc, (slash_iff c).mpr hseparator⟩

/-- A name that does not end in a separator has a last component. -/
theorem exists_lastComponent (hraw : raw ≠ []) (h : ¬∃ c ∈ raw.getLast?, Separator c) :
    ∃ name front, LastComponent raw name 0 0 front := by
  refine ⟨raw.rtakeWhile (¬Separator ·), raw.rdropWhile (¬Separator ·), ?_, ?_, ?_, ?_⟩
  · simp
  · intro c hc
    obtain ⟨hne, rfl⟩ := List.mem_getLast?_eq_getLast hc
    simpa using List.rdropWhile_last_not _ _ hne
  · rw [Ne, List.rtakeWhile_eq_nil_iff]
    intro hall
    refine h ⟨raw.getLast hraw, List.getLast?_eq_some_getLast hraw, ?_⟩
    simpa using hall hraw
  · intro c hc
    simpa using List.mem_rtakeWhile_imp hc

end Paths

section Stems

variable {name raw : Name}

/-- The stem that an id begins with. -/
def stemOf (basename : Name) : Name :=
  if pathStem basename = [] then "state".toList else pathStem basename

/-- The replacement of the names that are no names of files. -/
def fileOf (name : Name) : Name :=
  if name = [] ∨ name = ['.'] ∨ name = ['.', '.'] then "state.pth".toList else name

theorem fileOf_ne (name : Name) : fileOf name ≠ [] ∧ fileOf name ≠ ['.', '.'] := by
  rw [fileOf]
  split_ifs with h
  · decide
  · exact ⟨fun hnil => h (Or.inl hnil), fun hdots => h (Or.inr (Or.inr hdots))⟩

/-- A name with a dot is cut in two at the last one. -/
theorem exists_lastDot (h : '.' ∈ name) :
    ∃ front extension, name = front ++ '.' :: extension ∧ '.' ∉ extension := by
  obtain ⟨first, second, heq, hclean⟩ :=
    List.eq_append_cons_of_mem (List.mem_reverse.mpr h)
  refine ⟨second.reverse, first.reverse, ?_, fun hmem => hclean (List.mem_reverse.mp hmem)⟩
  rw [← List.reverse_reverse name, heq]
  simp

theorem findIdx?_reverse_of_not_mem (h : '.' ∉ name) :
    name.reverse.findIdx? (· = '.') = none := by
  rw [List.findIdx?_eq_none_iff]
  intro c hc
  exact decide_eq_false fun hdot => h (List.mem_reverse.mp (hdot ▸ hc))

theorem lastIndexByte_of_not_mem (h : '.' ∉ name) : lastIndexByte name '.' = -1 := by
  rw [lastIndexByte, findIdx?_reverse_of_not_mem h]

theorem lastIndexByte_append {front extension : Name} (h : '.' ∉ extension) :
    lastIndexByte (front ++ '.' :: extension) '.' = front.length := by
  have hfind : (front ++ '.' :: extension).reverse.findIdx? (· = '.') =
      some extension.length := by
    have hreverse : (front ++ '.' :: extension).reverse =
        extension.reverse ++ '.' :: front.reverse := by simp
    rw [hreverse, List.findIdx?_append, findIdx?_reverse_of_not_mem h]
    simp [List.findIdx?_cons]
  have hlength : (front ++ '.' :: extension).length = front.length + (extension.length + 1) := by
    simp
  rw [lastIndexByte, hfind]
  dsimp only
  omega

theorem pathStem_of_not_mem (h : '.' ∉ name) : pathStem name = name := by
  have hdrop : name.reverse.dropWhile (· ≠ '.') = [] := by
    rw [List.dropWhile_eq_nil_iff]
    intro c hc
    exact decide_eq_true fun hdot => h (List.mem_reverse.mp (hdot ▸ hc))
  rw [pathStem, hdrop]
  exact if_pos (Or.inr rfl)

theorem pathStem_append {front extension : Name}
    (hdots : front ++ '.' :: extension ≠ ['.', '.']) (h : '.' ∉ extension) :
    pathStem (front ++ '.' :: extension) =
      if front = [] then front ++ '.' :: extension else front := by
  have hdrop : (front ++ '.' :: extension).reverse.dropWhile (· ≠ '.') =
      '.' :: front.reverse := by
    have hreverse : (front ++ '.' :: extension).reverse =
        extension.reverse ++ '.' :: front.reverse := by simp
    rw [hreverse, List.dropWhile_append_of_pos]
    · exact List.dropWhile_cons_of_neg (by simp)
    · intro c hc
      exact decide_eq_true fun hdot => h (List.mem_reverse.mp (hdot ▸ hc))
  rw [pathStem, hdrop]
  simp [hdots]

/-- Both sides cut a name at its last dot, unless it is the first character. -/
theorem stateIDOfName_eq (name uuid : Name) :
    stateIDOfName name uuid = stemOf (fileOf name) ++ '-' :: uuid := by
  have hdots := (fileOf_ne name).2
  have hstem : (if 0 < lastIndexByte (fileOf name) '.' then
      (fileOf name).take (lastIndexByte (fileOf name) '.').toNat else fileOf name) =
        pathStem (fileOf name) := by
    by_cases hmem : '.' ∈ fileOf name
    · obtain ⟨front, extension, heq, hclean⟩ := exists_lastDot hmem
      rw [heq] at hdots ⊢
      rw [lastIndexByte_append hclean, pathStem_append hdots hclean]
      by_cases hfront : front = []
      · subst hfront
        simp
      · simp [hfront, List.length_pos_iff]
    · rw [lastIndexByte_of_not_mem hmem, pathStem_of_not_mem hmem]
      rfl
  rw [stateIDOfName, ← fileOf, hstem]
  rfl

theorem not_standard_root : ¬Standard ['/'] := by
  rintro (h | h | h | ⟨extension, -, h⟩)
  · exact absurd h (by decide)
  · exact absurd h (by decide)
  · exact absurd h (by decide)
  · exact absurd (List.cons.inj h).1 (by decide)

/-- The split at the last dot is unique. -/
theorem eq_of_lastDot {front front' extension extension' : Name} (h : '.' ∉ extension)
    (h' : '.' ∉ extension')
    (heq : front ++ '.' :: extension = front' ++ '.' :: extension') : front = front' := by
  have hlength : lastIndexByte (front ++ '.' :: extension) '.' = front.length :=
    lastIndexByte_append h
  rw [heq, lastIndexByte_append h'] at hlength
  exact (List.append_inj heq (by omega)).1

/-- Which names get the stem `state`. -/
theorem stemOf_eq_state_iff (hne : name ≠ []) :
    stemOf (fileOf name) = "state".toList ↔ Standard name := by
  by_cases hspecial : name = ['.'] ∨ name = ['.', '.']
  · rw [fileOf, if_pos (Or.inr hspecial)]
    refine iff_of_true (by decide) ?_
    rcases hspecial with h | h
    · exact Or.inl h
    · exact Or.inr (Or.inl h)
  rw [fileOf, if_neg (not_or.mpr ⟨hne, hspecial⟩)]
  rw [not_or] at hspecial
  have hstandard : Standard name ↔ name = "state".toList ∨
      ∃ extension, '.' ∉ extension ∧ name = "state".toList ++ '.' :: extension := by
    rw [Standard, or_iff_right hspecial.1, or_iff_right hspecial.2]
    rfl
  rw [hstandard]
  by_cases hmem : '.' ∈ name
  · obtain ⟨front, extension, rfl, hclean⟩ := exists_lastDot hmem
    have hstate : front ++ '.' :: extension ≠ "state".toList := by
      intro h
      rw [h] at hmem
      exact absurd hmem (by decide)
    rw [or_iff_right hstate, stemOf, pathStem_append hspecial.2 hclean]
    by_cases hfront : front = []
    · subst hfront
      rw [if_pos rfl, if_neg hne]
      refine iff_of_false hstate ?_
      rintro ⟨extension', -, h⟩
      exact absurd (List.cons.inj h).1 (by decide)
    · rw [if_neg hfront, if_neg hfront]
      constructor
      · rintro rfl
        exact ⟨extension, hclean, rfl⟩
      · rintro ⟨extension', hclean', h⟩
        exact eq_of_lastDot hclean hclean' h
  · rw [stemOf, pathStem_of_not_mem hmem, if_neg hne]
    refine (or_iff_left ?_).symm
    rintro ⟨extension, -, rfl⟩
    exact hmem (List.mem_append_right _ List.mem_cons_self)

end Stems

section Forms

variable {parts : List Part} {raw : Name}

theorem readParts_of_none {name : Name} {count : Nat} (h : parts.filterMap Part.filename = []) :
    readParts parts name count = (name, count) := by
  induction parts with
  | nil => rfl
  | cons part parts ih =>
      cases hname : part.filename with
      | some filename => rw [List.filterMap_cons_some hname] at h; cases h
      | none =>
          rw [List.filterMap_cons_none hname] at h
          rw [readParts, if_neg (by simp [Part.fileName, hname])]
          exact ih h

/-- What the loop makes of a form with one file. -/
theorem readParts_of_file {name : Name} {count : Nat}
    (h : parts.filterMap Part.filename = [raw]) :
    readParts parts name count =
      if raw = [] then (name, count) else (base (slashes (base raw)), count + 1) := by
  induction parts with
  | nil => cases h
  | cons part parts ih =>
      cases hname : part.filename with
      | none =>
          rw [List.filterMap_cons_none hname] at h
          rw [readParts, if_neg (by simp [Part.fileName, hname])]
          exact ih h
      | some filename =>
          rw [List.filterMap_cons_some hname] at h
          obtain ⟨rfl, hrest⟩ := List.cons.inj h
          by_cases hempty : filename = []
          · rw [readParts, if_neg (by simp [Part.fileName, hname, hempty]), if_pos hempty]
            exact readParts_of_none hrest
          · have hfile : part.fileName = base filename := by
              rw [Part.fileName, hname]
              exact if_neg hempty
            rw [readParts, hfile, if_pos (base_ne_nil _), if_neg hempty]
            exact readParts_of_none hrest

/-- The id that the router expects for a form with one file. -/
theorem uploadedStateID_of_file {form : Form} {uuid : Name} (hmultipart : form.multipart = true)
    (hcomplete : form.truncated = false) (hfile : form.parts.filterMap Part.filename = [raw]) :
    uploadedStateID form uuid =
      if raw = [] then .error "request must contain exactly one state file"
      else .ok (stateIDOfName (base (slashes (base raw))) uuid) := by
  rw [uploadedStateID, if_neg (by simp [hmultipart]), if_neg (by simp [hcomplete]),
    readParts_of_file hfile]
  by_cases hraw : raw = []
  · rw [if_pos hraw, if_pos hraw]
    rfl
  · rw [if_neg hraw, if_neg hraw]
    rfl

/-- The two ids of a name. -/
theorem sameStem_iff (hraw : raw ≠ []) :
    stemOf (fileOf (base (slashes (base raw)))) = stemOf (basenameOf raw) ↔ Mirrored raw := by
  have hbackend : basenameOf raw = fileOf (pathFilename (slashes raw)) := rfl
  rw [hbackend, Mirrored, and_iff_right hraw]
  by_cases hend : ∃ c ∈ raw.getLast?, Separator c
  · have hstate : stemOf (fileOf (pathFilename (slashes raw))) = "state".toList := by
      rw [pathFilename_of_separator hend]
      decide
    rw [hstate, stemOf_eq_state_iff (base_ne_nil _), forall_prop_of_true hend]
    constructor
    · intro hstandard
      have hroot : base (slashes (base raw)) ≠ ['/'] := by
        intro hroot
        rw [hroot] at hstandard
        exact not_standard_root hstandard
      obtain ⟨i, j, front, h⟩ := (name_eq_iff hraw hroot).mp rfl
      exact ⟨_, i, j, front, h, hstandard⟩
    · rintro ⟨name, i, j, front, h, hstandard⟩
      rw [name_of_lastComponent h]
      exact hstandard
  · obtain ⟨name, front, h⟩ := exists_lastComponent hraw hend
    rw [name_of_lastComponent h, pathFilename_of_lastComponent h]
    exact iff_of_true rfl fun h => absurd h hend

end Forms

section Main

variable {δ : Type} [DecidableEq δ] {p : Platform δ} {s : Store δ}

/-- The files of a form and their names. -/
theorem filename_of_filter {parts : List Part} {file : Part}
    (h : parts.filter (fun part => part.filename.isSome) = [file]) :
    parts.filterMap Part.filename = [file.filename.getD []] := by
  have hfile : file.filename.isSome = true := by
    have hmem : file ∈ parts.filter (fun part => part.filename.isSome) :=
      h ▸ List.mem_singleton_self _
    exact (List.mem_filter.mp hmem).2
  obtain ⟨filename, hname⟩ := Option.isSome_iff_exists.mp hfile
  have hall : parts.filterMap Part.filename =
      (parts.filter (fun part => part.filename.isSome)).filterMap Part.filename := by
    rw [List.filterMap_filter]
    refine List.filterMap_congr fun part hpart => ?_
    cases part.filename with
    | none => rfl
    | some filename => rfl
  rw [hall, h, List.filterMap_cons_some hname, hname]
  rfl

/-- What a backend accepts is a form with one file, and the id is derived from its name. -/
theorem uploadRoute_ok (hs : Recorded p s) {form : Form} {uuid : Name} {u : Upload}
    {info : UploadedStateInfo} (huuid : uuid ≠ [])
    (hok : (uploadRoute p s form uuid u).2 = .ok info) :
    form.multipart = true ∧ form.truncated = false ∧
      ∃ raw, form.parts.filterMap Part.filename = [raw] ∧
        info.stateId = stemOf (basenameOf raw) ++ '-' :: uuid := by
  rw [uploadRoute] at hok
  split at hok
  · cases hok
  · rename_i hform
    rw [not_or, Bool.not_eq_false, Bool.not_eq_true] at hform
    split at hok
    · rename_i file hfile
      refine ⟨hform.1, hform.2, _, filename_of_filter hfile, ?_⟩
      refine (stateId_of_ends hs (upload_spec p s _) hok).trans ?_
      rw [Upload.stateId, Upload.uuid, if_neg huuid]
      rfl
    · cases hok

/--
For every upload that a backend accepts in a reachable state, the router expects the id that
the backend returns exactly when the name of the file is mirrored.
-/
theorem uploadedStateID_eq_iff (p : Platform δ) (events : List Event) (s : Store δ)
    (hrun : exec (step p) create events = some s) (form : Form) (uuid : Name)
    (huuid : uuid ≠ []) (u : Upload) (info : UploadedStateInfo)
    (hok : (uploadRoute p s form uuid u).2 = .ok info) :
    uploadedStateID form uuid = .ok info.stateId ↔
      ∀ raw ∈ form.parts.filterMap Part.filename, Mirrored raw := by
  have hs : Recorded p s :=
    exec_invariant_all (fun _ _ _ hs hstep => recorded_step hs hstep) recorded_create hrun
  obtain ⟨hmultipart, hcomplete, raw, hfile, hid⟩ := uploadRoute_ok hs huuid hok
  rw [uploadedStateID_of_file hmultipart hcomplete hfile, hid, hfile, List.forall_mem_singleton]
  by_cases hraw : raw = []
  · rw [if_pos hraw]
    exact iff_of_false (by simp) fun h => h.1 hraw
  · rw [if_neg hraw, ← sameStem_iff hraw, stateIDOfName_eq, Except.ok.injEq,
      List.append_left_inj]

section Example

/-- A form with one file, and nothing else. -/
def fileForm (filename : String) : Form where
  multipart := true
  parts := [{ filename := some filename.toList, data := [1] }]
  truncated := false

/-- What a new backend makes of the form. -/
def firstUpload (filename : String) : Except String UploadedStateInfo :=
  (uploadRoute lenient create (fileForm filename) (clientUpload [1]).uploadUuid
    (clientUpload [1])).2

theorem uploadedStateID_eq_iff_plain :
    ∃ info, firstUpload "a.pth" = .ok info ∧
      (uploadedStateID (fileForm "a.pth") (clientUpload [1]).uploadUuid = .ok info.stateId ↔
        ∀ raw ∈ (fileForm "a.pth").parts.filterMap Part.filename, Mirrored raw) := by
  have hok : (firstUpload "a.pth").isOk = true := by decide +kernel
  cases hinfo : firstUpload "a.pth" with
  | error e => rw [hinfo] at hok; cases hok
  | ok info =>
      exact ⟨info, rfl, uploadedStateID_eq_iff lenient [] create rfl (fileForm "a.pth") _
        (by decide) (clientUpload [1]) info hinfo⟩

/-- The name ends in a slash: a backend calls the state `state`, the router calls it `a`. -/
theorem trailingSlash_differs :
    ∃ info, firstUpload "a/" = .ok info ∧
      uploadedStateID (fileForm "a/") (clientUpload [1]).uploadUuid ≠ .ok info.stateId := by
  have hbackend : (firstUpload "a/").map UploadedStateInfo.stateId =
      .ok ("state-".toList ++ (clientUpload [1]).uploadUuid) := by decide +kernel
  have hrouter : uploadedStateID (fileForm "a/") (clientUpload [1]).uploadUuid =
      .ok ("a-".toList ++ (clientUpload [1]).uploadUuid) := by decide +kernel
  cases hinfo : firstUpload "a/" with
  | error e => rw [hinfo] at hbackend; cases hbackend
  | ok info =>
      refine ⟨info, rfl, fun hsame => ?_⟩
      rw [hinfo] at hbackend
      have hid : info.stateId = "state-".toList ++ (clientUpload [1]).uploadUuid :=
        Except.ok.inj hbackend
      rw [hrouter, hid] at hsame
      exact absurd (Except.ok.inj hsame) (by decide)

end Example

end Main

end StateIdentity
end RwkvLightning
