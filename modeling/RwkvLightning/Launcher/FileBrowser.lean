import RwkvLightning.Library.FileTree
import RwkvLightning.Library.JsonString
import Mathlib

/-!
# The file browser of the launcher

`handleNodeFS` of `fsbrowse.go` with `resolveFS` and `allFSRoots`, on any tree with symbolic
links.

**Resolution.**  `filepath.EvalSymlinks` follows 255 links at most, the system as many as it
likes; both are `walk`, and where both find a place it is where the path leads.

**Results.**
* `fsWithin_sound`: the comparison of paths compares places in the tree.
* `resolveFS_ok`: what is let through lies inside a root.
* `resolveFS_hidden`: what is outside or does not exist has one answer.
* `fileBrowser_contained`: what the handler shows.
-/

namespace RwkvLightning
namespace Launcher
namespace FileBrowser

open GoStrings (Bytes trimSpace)
open JsonString (ascii)
open FileTree

/-- The paths of the three saved configurations. -/
structure Configs where
  modelPath : Bytes
  enableDynamicLoading : Bool
  vocabPath : Bytes
  stateDBPath : Bytes
  tuneCache : Bytes
  tuneModel : Bytes
  tuneData : Bytes
  tuneOutput : Bytes
  tuneVocab : Bytes
  tuneState : Bytes
  tuneResume : Bytes
  inputPath : Bytes
  outputPath : Bytes
deriving DecidableEq, Repr

/-- The launcher and the machine it runs on. -/
structure Host where
  /-- the tree, with the working directory and the links that the system follows -/
  root : Node
  rootDir : root.isDir = true
  cwd : List Name
  cwdDir : ∃ node, root.find cwd = some node ∧ node.isDir = true
  linkLimit : ℕ
  /-- the directory of the executable, when the system knows it -/
  executable : Option (List Name)
  home : Option Bytes
  /-- the roots of earlier runs -/
  saved : List Place
  configs : Configs

section Roots

variable (host : Host)

/-- `appDir`. -/
def appDir : Place :=
  match host.executable with
  | some names => .rooted names
  | none => .relative 0 []

/-- A path, taken from `appDir` when it is relative. -/
def absolute (path : Bytes) : Bytes :=
  if isAbs path then path else (clean ((appDir host).text ++ slash :: path)).text

/-- `filepath.Dir`: up to the last slash. -/
def dirOf (text : Bytes) : Place := clean (text.reverse.dropWhile (· ≠ slash)).reverse

/-- `add` of `allFSRoots`. -/
def addRoot (path : Bytes) (dir : Bool) : List Place :=
  let path := trimSpace path
  if path = [] then []
  else
    let path := absolute host path
    if dir then [clean path] else [dirOf path]

/-- Names in the order of `sort.Strings`. -/
def textLe (a b : Bytes) : Prop := a ≤ b

instance : DecidableRel textLe := fun a b => inferInstanceAs (Decidable (a ≤ b))

/-- `allFSRoots`. -/
def allFSRoots : List Place :=
  let home := match host.home with
    | some home => addRoot host home true
    | none => []
  let c := host.configs
  let roots := host.saved ++ addRoot host (appDir host).text true ++ home ++
    addRoot host c.modelPath c.enableDynamicLoading ++ addRoot host c.vocabPath false ++
    addRoot host c.stateDBPath false ++ addRoot host c.tuneCache false ++
    addRoot host c.tuneModel false ++ addRoot host c.tuneData false ++
    addRoot host c.tuneOutput true ++ addRoot host c.tuneVocab false ++
    addRoot host c.tuneState false ++ addRoot host c.tuneResume true ++
    addRoot host c.inputPath false ++ addRoot host c.outputPath false
  roots.dedup.insertionSort fun a b => textLe a.text b.text

end Roots

section Resolution

variable (host : Host)

/-- Where a cleaned path starts. -/
def origin (place : Place) : Place := if place.isAbs then .rooted [] else .relative 0 []

/-- `filepath.EvalSymlinks` of a cleaned path. -/
def evalSymlinks (place : Place) : Option Place :=
  walk host.root host.cwd 255 (origin place) place.pending

/-- The system's look-up of a cleaned path. -/
def stat (place : Place) : Option Node :=
  (walk host.root host.cwd host.linkLimit (origin place) place.pending).bind fun found =>
    host.root.find (found.physical host.cwd)

/-- `fsWithin`; a relative path starts upwards when its first part does. -/
def fsWithin (root path : Place) : Bool :=
  match rel root path with
  | none => false
  | some parts => parts.head? ≠ some dotdot

inductive Refusal
  | required
  | outside
deriving DecidableEq, Repr

/-- The loop of `resolveFS`: whether a root is found, and whether the path is that root. -/
def findRoot (resolved : Place) : List Place → Option Bool
  | [] => none
  | root :: roots =>
      match evalSymlinks host root with
      | none => findRoot resolved roots
      | some rootResolved =>
          if fsWithin rootResolved resolved then some (resolved = rootResolved)
          else findRoot resolved roots

/-- `resolveFS`: the cleaned path and what is above it. -/
def resolveFS (path : Bytes) : Except Refusal (Place × Option Place) :=
  if trimSpace path = [] then .error .required
  else
    let cleaned := clean (absolute host path)
    match evalSymlinks host cleaned with
    | none => .error .outside
    | some resolved =>
        match findRoot host resolved (allFSRoots host) with
        | none => .error .outside
        | some true => .ok (cleaned, none)
        | some false => .ok (cleaned, some (dirOf cleaned.text))

end Resolution

section Handler

variable (host : Host)

/-- `fsEntry`. -/
structure Entry where
  name : Name
  isDir : Bool
  size : Option ℕ
deriving DecidableEq, Repr

inductive Answer
  | noAgent
  | badRequest
  | roots (roots : List Bytes) (default : Bytes)
  | forbidden
  | failed (message : String)
  | listing (path : Bytes) (parent : Option Bytes) (entries : List Entry)
deriving DecidableEq, Repr

/-- What the system says of the size. -/
def sizeOf : Node → ℕ
  | .file size => size
  | .link target => target.length
  | .dir _ _ _ => 0

/-- What a directory says of a name, without leave to search it. -/
def typeOf (entries : List (Name × Node)) (name : Name) : Option Node :=
  (entries.find? (fun entry => entry.1 = name)).map Prod.snd

/-- One pass of the loop over the entries of a directory. -/
def entryOf (cleaned : Place) (searchable : Bool) (entries : List (Name × Node)) (name : Name)
    (node : Node) : Entry :=
  let entry : Entry :=
    { name := name
      isDir := node.isDir
      size := if node.isDir then none
        else ((Node.dir true searchable entries).child name).map sizeOf }
  if node.isLink then
    let path := clean (cleaned.text ++ slash :: name.bytes)
    match resolveFS host path.text with
    | .error _ => { entry with isDir := false, size := none }
    | .ok _ =>
        match stat host path with
        | none => entry
        | some target =>
            { entry with
              isDir := target.isDir
              size := if target.isDir then none else some (sizeOf target) }
  else entry

/-- The order of the answer: directories first. -/
def entryLe (a b : Entry) : Prop :=
  if a.isDir ≠ b.isDir then a.isDir = true else textLe a.name.bytes b.name.bytes

instance : DecidableRel entryLe := fun a b => by
  unfold entryLe
  infer_instance

/-- `os.ReadDir` and what follows. -/
def readDir (cleaned : Place) (parent : Option Place) : Answer :=
  match stat host cleaned with
  | some (.dir true searchable entries) =>
      let out := (entries.map Prod.fst).filterMap fun name =>
        (typeOf entries name).map (entryOf host cleaned searchable entries name)
      .listing cleaned.text (parent.map Place.text) (out.insertionSort entryLe)
  | _ => .failed "directory is not readable"

/-- `defaultBrowseDir`. -/
def defaultBrowseDir : Bytes :=
  match stat host (appDir host) with
  | some (.dir _ _ _) => (appDir host).text
  | _ => host.home.getD []

/-- `handleNodeFS`; a body that does not decode is `none`. -/
def handleNodeFS (agent : Bool) (body : Option (Option Bytes)) : Answer :=
  if !agent then .noAgent
  else
    match body with
    | none => .badRequest
    | some path =>
        let path := path.getD []
        if path = [] then
          .roots (((allFSRoots host).filter fun root => (stat host root).isSome).map Place.text)
            (defaultBrowseDir host)
        else
          match resolveFS host path with
          | .error .outside => .forbidden
          | .error .required => .failed "path is required"
          | .ok (cleaned, parent) =>
              match stat host cleaned with
              | none => .failed "path is not a directory"
              | some node =>
                  if node.isDir then readDir host cleaned parent
                  else
                    -- a file shows the directory that it is in
                    match resolveFS host (dirOf cleaned.text).text with
                    | .error _ => .forbidden
                    | .ok (cleaned, parent) => readDir host cleaned parent

end Handler

section Meaning

variable (host : Host)

/-- Where a cleaned path leads in the tree. -/
def Resolves (place : Place) (result : List Name) : Prop :=
  Leads host.root ((origin place).physical host.cwd) place.pending result

/-- Nothing is left to be resolved. -/
def FullyResolved (names : List Name) : Prop :=
  ∃ node, host.root.find names = some node ∧ node.isLink = false

/-- A place inside a root. -/
def InRoot (names : List Name) : Prop :=
  ∃ root ∈ allFSRoots host, ∃ top, Resolves host root top ∧ FullyResolved host top ∧
    top <+: names

/-- A path that leads nowhere. -/
def Missing (place : Place) : Prop := ∀ result, ¬Resolves host place result

/-- A path that leads to no place inside a root. -/
def Outside (place : Place) : Prop := ∀ result, Resolves host place result → ¬InRoot host result

/-- The path that a request names. -/
def requested (path : Bytes) : Place := clean (absolute host path)

/-- What a listing may show. -/
def Contained (text : Bytes) (entries : List Entry) : Prop :=
  ∃ place dir searchable children,
    text = place.text ∧ Resolves host place dir ∧ InRoot host dir ∧
    host.root.find dir = some (.dir true searchable children) ∧
    (∀ entry ∈ entries, entry.name ∈ children.map Prod.fst) ∧
    ∀ entry ∈ entries, ∀ target, typeOf children entry.name = some (.link target) →
      Outside host (place.push entry.name) → entry.isDir = false ∧ entry.size = none

end Meaning

section Soundness

variable {host : Host}

theorem outside_of_missing {place : Place} (h : Missing host place) : Outside host place :=
  fun result hresult => absurd hresult (h result)

theorem fullyResolved_of_resolves {place : Place} {result : List Name}
    (h : Resolves host place result) : FullyResolved host result := by
  refine leads_resolved host.rootDir h ?_
  unfold origin
  split
  · exact ⟨host.root, rfl, host.rootDir⟩
  · have hcwd : (Place.relative 0 []).physical host.cwd = host.cwd := by simp [Place.physical]
    rw [hcwd]
    exact host.cwdDir

theorem resolves_of_evalSymlinks {place found : Place} (h : evalSymlinks host place = some found) :
    Resolves host place (found.physical host.cwd) := walk_sound h

theorem resolves_of_stat {place : Place} {node : Node} (h : stat host place = some node) :
    ∃ result, Resolves host place result ∧ host.root.find result = some node := by
  obtain ⟨found, hfound, hnode⟩ := Option.bind_eq_some_iff.mp h
  exact ⟨_, walk_sound hfound, hnode⟩

/-- The comparison of paths compares places in the tree. -/
theorem fsWithin_sound {root path : Place} (h : fsWithin root path = true) (cwd : List Name) :
    root.physical cwd <+: path.physical cwd := by
  unfold fsWithin at h
  split at h
  · cases h
  · next parts hparts => exact physical_prefix_of_rel hparts (of_decide_eq_true h) cwd

theorem findRoot_sound {resolved : Place} {roots : List Place} {top : Bool}
    (h : findRoot host resolved roots = some top) :
    ∃ root ∈ roots, ∃ found, evalSymlinks host root = some found ∧
      fsWithin found resolved = true := by
  induction roots with
  | nil => cases h
  | cons root roots ih =>
      rw [findRoot] at h
      split at h
      · obtain ⟨other, hmem, hother⟩ := ih h
        exact ⟨other, List.mem_cons_of_mem _ hmem, hother⟩
      · next found hfound =>
          by_cases hwithin : fsWithin found resolved = true
          · exact ⟨root, List.mem_cons_self, found, hfound, hwithin⟩
          · rw [if_neg hwithin] at h
            obtain ⟨other, hmem, hother⟩ := ih h
            exact ⟨other, List.mem_cons_of_mem _ hmem, hother⟩

/-- What is let through lies inside a root. -/
theorem resolveFS_ok {path : Bytes} {cleaned : Place} {parent : Option Place}
    (h : resolveFS host path = .ok (cleaned, parent)) :
    cleaned = requested host path ∧
      ∃ result, Resolves host cleaned result ∧ InRoot host result := by
  unfold resolveFS at h
  dsimp only at h
  split at h
  · cases h
  split at h
  · cases h
  next resolved hresolved =>
    have hinside : ∀ top, findRoot host resolved (allFSRoots host) = some top →
        ∃ result, Resolves host (requested host path) result ∧ InRoot host result := by
      intro top htop
      obtain ⟨root, hmem, found, hfound, hwithin⟩ := findRoot_sound htop
      have hroot := resolves_of_evalSymlinks hfound
      exact ⟨_, resolves_of_evalSymlinks hresolved, root, hmem, _, hroot,
        fullyResolved_of_resolves hroot, fsWithin_sound hwithin _⟩
    split at h
    · cases h
    · next htop =>
        obtain ⟨rfl, -⟩ := Prod.mk.inj (Except.ok.inj h)
        exact ⟨rfl, hinside _ htop⟩
    · next htop =>
        obtain ⟨rfl, -⟩ := Prod.mk.inj (Except.ok.inj h)
        exact ⟨rfl, hinside _ htop⟩

/-- What is outside or does not exist has one answer. -/
theorem resolveFS_hidden {path : Bytes} (hpath : trimSpace path ≠ [])
    (h : Outside host (requested host path)) : resolveFS host path = .error .outside := by
  cases hresolve : resolveFS host path with
  | ok found =>
      obtain ⟨cleaned, parent⟩ := found
      obtain ⟨rfl, result, hresult, hin⟩ := resolveFS_ok hresolve
      exact absurd hin (h result hresult)
  | error refusal =>
      cases refusal with
      | outside => rfl
      | required =>
          exfalso
          unfold resolveFS at hresolve
          rw [if_neg hpath] at hresolve
          dsimp only at hresolve
          split at hresolve
          · cases hresolve
          · split at hresolve <;> cases hresolve

/-- A path of the launcher is relative only when `appDir` is. -/
theorem isAbs_absolute (path : Bytes) (h : isAbs (absolute host path) = false) :
    host.executable = none := by
  unfold absolute at h
  split at h
  · next habs =>
      rw [habs] at h
      cases h
  · rw [isAbs_text, isAbs_clean] at h
    cases hexecutable : host.executable with
    | none => rfl
    | some names =>
        have hdir : appDir host = .rooted names := by rw [appDir, hexecutable]
        rw [hdir] at h
        cases h

/-- The text of a path of the launcher stands for the path. -/
theorem requested_text {place : Place} (h : place.isAbs = false → host.executable = none) :
    requested host place.text = place := by
  unfold requested absolute
  cases habs : isAbs place.text with
  | true =>
      rw [if_pos rfl]
      exact clean_text place
  | false =>
      have hplace : place.isAbs = false := by rwa [← isAbs_text]
      have hdir : appDir host = .relative 0 [] := by rw [appDir, h hplace]
      have hdot : clean (Place.relative 0 []).text = .relative 0 [] := clean_text _
      have horigin : Place.origin place.text = .relative 0 [] := by
        rw [Place.origin, habs]
        rfl
      have hfold : (components place.text).foldl Place.step (.relative 0 []) = place := by
        have hclean := clean_text place
        rwa [clean, horigin] at hclean
      rw [if_neg (by decide), clean_text, hdir, clean_append (text_ne_nil _), hdot, hfold]

/-- A name below a path of the launcher. -/
theorem isAbs_push (place : Place) (name : Name) : (place.push name).isAbs = place.isAbs := by
  cases place <;> rfl

end Soundness

section Listing

variable {host : Host}

@[simp] theorem entryOf_name (cleaned : Place) (searchable : Bool) (entries : List (Name × Node))
    (name : Name) (node : Node) : (entryOf host cleaned searchable entries name node).name = name := by
  unfold entryOf
  dsimp only
  split
  · split
    · rfl
    · split <;> rfl
  · rfl

/-- A link that leads out of the roots shows nothing of its target. -/
theorem entryOf_outside {cleaned : Place} (hplace : cleaned.isAbs = false → host.executable = none)
    {name : Name} (h : Outside host (cleaned.push name)) (searchable : Bool)
    (entries : List (Name × Node)) (target : Bytes) :
    (entryOf host cleaned searchable entries name (.link target)).isDir = false ∧
      (entryOf host cleaned searchable entries name (.link target)).size = none := by
  have hlink : (Node.link target).isLink = true := rfl
  unfold entryOf
  dsimp only
  rw [if_pos hlink, clean_join]
  cases hresolve : resolveFS host (cleaned.push name).text with
  | error refusal => exact ⟨rfl, rfl⟩
  | ok found =>
      exfalso
      obtain ⟨path, parent⟩ := found
      obtain ⟨rfl, result, hresult, hin⟩ := resolveFS_ok hresolve
      rw [requested_text (by rwa [isAbs_push])] at hresult
      exact h result hresult hin

/-- The listing of a path that was let through. -/
theorem readDir_contained {path : Bytes} {cleaned : Place} {parent above : Option Place}
    (hresolve : resolveFS host path = .ok (cleaned, parent)) {text : Bytes}
    {parentText : Option Bytes} {entries : List Entry}
    (h : readDir host cleaned above = .listing text parentText entries) :
    Contained host text entries := by
  obtain ⟨hcleaned, result, hresult, hin⟩ := resolveFS_ok hresolve
  have hplace : cleaned.isAbs = false → host.executable = none := by
    intro hrelative
    rw [hcleaned, requested, isAbs_clean] at hrelative
    exact isAbs_absolute path hrelative
  unfold readDir at h
  split at h
  · next searchable children hstat =>
      obtain ⟨htext, -, hentries⟩ := Answer.listing.inj h
      obtain ⟨place, hplaced, hnode⟩ := resolves_of_stat hstat
      -- the system finds the place that was compared with the roots
      obtain rfl := leads_unique hresult hplaced
      have hentry : ∀ entry ∈ entries, ∃ name ∈ children.map Prod.fst, ∃ node,
          typeOf children name = some node ∧
          entryOf host cleaned searchable children name node = entry := by
        intro entry hmem
        rw [← hentries, List.mem_insertionSort, List.mem_filterMap] at hmem
        obtain ⟨name, hname, hmap⟩ := hmem
        obtain ⟨node, htype, heq⟩ := Option.map_eq_some_iff.mp hmap
        exact ⟨name, hname, node, htype, heq⟩
      refine ⟨cleaned, result, searchable, children, htext.symm, hresult, hin, hnode, ?_, ?_⟩
      · intro entry hmem
        obtain ⟨name, hname, node, -, rfl⟩ := hentry entry hmem
        rwa [entryOf_name]
      · intro entry hmem target hlink houtside
        obtain ⟨name, -, node, htype, rfl⟩ := hentry entry hmem
        rw [entryOf_name] at hlink houtside
        rw [htype] at hlink
        rw [Option.some.inj hlink]
        exact entryOf_outside hplace houtside searchable children target
  · cases h

/-- Every listing of the handler is one of a path that was let through. -/
theorem handleNodeFS_listing {agent : Bool} {body : Option (Option Bytes)} {text : Bytes}
    {parent : Option Bytes} {entries : List Entry}
    (h : handleNodeFS host agent body = .listing text parent entries) :
    Contained host text entries := by
  unfold handleNodeFS at h
  split at h
  · cases h
  split at h
  · cases h
  next path =>
    dsimp only at h
    split at h
    · cases h
    split at h
    · cases h
    · cases h
    next cleaned above hresolve =>
      split at h
      · cases h
      split at h
      · exact readDir_contained hresolve h
      split at h
      · cases h
      · next hparent => exact readDir_contained hparent h

theorem handleNodeFS_hidden {path : Bytes} (hpath : trimSpace path ≠ [])
    (h : Outside host (requested host path)) :
    handleNodeFS host true (some (some path)) = .forbidden := by
  have hne : path ≠ [] := by
    rintro rfl
    exact hpath rfl
  unfold handleNodeFS
  dsimp only
  rw [if_neg (by decide), Option.getD_some, if_neg hne, resolveFS_hidden hpath h]

/-- A blank path is refused before anything is looked up. -/
theorem handleNodeFS_blank {path : Bytes} (hne : path ≠ []) (hpath : trimSpace path = []) :
    handleNodeFS host true (some (some path)) = .failed "path is required" := by
  unfold handleNodeFS resolveFS
  dsimp only
  rw [if_neg (by decide), Option.getD_some, if_neg hne, if_pos hpath]

/-- **Containment of the file browser.**  A directory is listed only if the place that its path
leads to lies inside the place of a root, and of a link that leads outside neither type nor size
is shown.  A path that is outside or does not exist is forbidden, and has the same answer on every
machine where it is one or the other. -/
theorem fileBrowser_contained (host : Host) (path : Bytes) :
    (∀ agent body text parent entries,
      handleNodeFS host agent body = .listing text parent entries → Contained host text entries) ∧
    (trimSpace path ≠ [] →
      Missing host (requested host path) ∨ Outside host (requested host path) →
        handleNodeFS host true (some (some path)) = .forbidden) ∧
    (∀ other : Host, path ≠ [] →
      Missing host (requested host path) ∨ Outside host (requested host path) →
      Missing other (requested other path) ∨ Outside other (requested other path) →
        handleNodeFS host true (some (some path)) = handleNodeFS other true (some (some path))) := by
  have hforbidden : ∀ host : Host, trimSpace path ≠ [] →
      Missing host (requested host path) ∨ Outside host (requested host path) →
        handleNodeFS host true (some (some path)) = .forbidden :=
    fun host hpath h => handleNodeFS_hidden hpath (h.elim outside_of_missing id)
  refine ⟨fun agent body text parent entries h => handleNodeFS_listing h, hforbidden host, ?_⟩
  intro other hne h hother
  by_cases hpath : trimSpace path = []
  · rw [handleNodeFS_blank hne hpath, handleNodeFS_blank hne hpath]
  · rw [hforbidden host hpath h, hforbidden other hpath hother]

section Example

def named (text : String) (h : ascii text ≠ [] ∧ ascii text ≠ dot ∧ ascii text ≠ dotdot ∧
    slash ∉ ascii text) : Name := ⟨ascii text, h⟩

def opt : Name := named "opt" (by decide)

def etc : Name := named "etc" (by decide)

def shadow : Name := named "shadow" (by decide)

/-- The launcher lives in `/opt`, with a link to `/etc` beside it. -/
def linkedHost : Host where
  root := .dir true true
    [(opt, .dir true true [(shadow, .link (ascii "/etc"))]), (etc, .dir true true [])]
  rootDir := rfl
  cwd := []
  cwdDir := ⟨_, rfl, rfl⟩
  linkLimit := 40
  executable := some [opt]
  home := none
  saved := []
  configs := ⟨[], false, [], [], [], [], [], [], [], [], [], [], []⟩

theorem allFSRoots_linkedHost : allFSRoots linkedHost = [.rooted [opt]] := by decide +kernel

theorem outside_of_etc {place : Place}
    (h : evalSymlinks linkedHost place = some (.rooted [etc])) : Outside linkedHost place := by
  rintro result hresult ⟨root, hroot, top, htop, -, hprefix⟩
  obtain rfl := leads_unique (resolves_of_evalSymlinks h) hresult
  rw [allFSRoots_linkedHost, List.mem_singleton] at hroot
  subst hroot
  have hfound : evalSymlinks linkedHost (.rooted [opt]) = some (.rooted [opt]) := by decide +kernel
  obtain rfl := leads_unique (resolves_of_evalSymlinks hfound) htop
  exact absurd hprefix (by decide +kernel)

/-- The directory is listed, its link shows nothing, and the target is forbidden. -/
theorem fileBrowser_contained_linkedHost :
    handleNodeFS linkedHost true (some (some (ascii "/etc"))) = .forbidden ∧
      ∃ entries, handleNodeFS linkedHost true (some (some (ascii "/opt"))) =
          .listing (ascii "/opt") none entries ∧
        Contained linkedHost (ascii "/opt") entries ∧
        entries = [{ name := shadow, isDir := false, size := none }] := by
  obtain ⟨hlisting, -, -⟩ := fileBrowser_contained linkedHost (ascii "/opt")
  obtain ⟨-, hforbidden, -⟩ := fileBrowser_contained linkedHost (ascii "/etc")
  have hopt : handleNodeFS linkedHost true (some (some (ascii "/opt"))) =
      .listing (ascii "/opt") none [{ name := shadow, isDir := false, size := none }] := by
    decide +kernel
  refine ⟨hforbidden (by decide +kernel) (Or.inr (outside_of_etc (by decide +kernel))), _, hopt,
    hlisting _ _ _ _ _ hopt, rfl⟩

end Example

end Listing

end FileBrowser
end Launcher
end RwkvLightning
