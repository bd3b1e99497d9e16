import RwkvLightning.Library.GoStrings
import Mathlib.Data.List.Infix
import Mathlib.Tactic

/-!
# Paths in a tree with symbolic links

A tree has directories, files and links; the target of a link is a text.  A path is a text
whose components are names, steps upwards, or nothing.

**Meaning.**  `Leads` says where a path leads, component by component, from a place in the tree.
`walk` computes it with a bound on the links that it follows, and keeps the place as a path may
spell it: from the root, or from a working directory.

**Results.**
* `walk_sound`: what `walk` finds is where the path leads.
* `leads_unique`: a path leads to one place.
* `leads_resolved`: the place exists and is no link.
* `clean_text`: cleaning the text of a cleaned path gives the path.
* `physical_prefix_of_rel`: where a relative path goes down, the place is inside.
-/

namespace RwkvLightning
namespace FileTree

open GoStrings (Bytes split)

def slash : UInt8 := 0x2F

def dot : Bytes := [0x2E]

def dotdot : Bytes := [0x2E, 0x2E]

/-- A name that a directory may hold. -/
structure Name where
  bytes : Bytes
  ordinary : bytes ≠ [] ∧ bytes ≠ dot ∧ bytes ≠ dotdot ∧ slash ∉ bytes
deriving DecidableEq, Repr

inductive Component
  | skip
  | up
  | name (name : Name)
deriving DecidableEq, Repr

/-- A part of a path between two slashes. -/
def component (bytes : Bytes) : Component :=
  if hskip : bytes = [] ∨ bytes = dot then .skip
  else if hup : bytes = dotdot then .up
  else if hslash : slash ∈ bytes then .skip
  else .name ⟨bytes, fun h => hskip (Or.inl h), fun h => hskip (Or.inr h), hup, hslash⟩

def components (text : Bytes) : List Component := (split text slash).map component

/-- Whether a path starts at the root. -/
def isAbs (text : Bytes) : Bool := text.head? = some slash

section Places

/-- A cleaned path. -/
inductive Place
  | rooted (names : List Name)
  | relative (ups : ℕ) (names : List Name)
deriving DecidableEq, Repr

namespace Place

def isAbs : Place → Bool
  | .rooted _ => true
  | .relative _ _ => false

/-- One more name. -/
def push (name : Name) : Place → Place
  | .rooted names => .rooted (names ++ [name])
  | .relative ups names => .relative ups (names ++ [name])

/-- One step upwards. -/
def up : Place → Place
  | .rooted names => .rooted names.dropLast
  | .relative ups [] => .relative (ups + 1) []
  | .relative ups (name :: names) => .relative ups (name :: names).dropLast

/-- The components of its text. -/
def parts : Place → List Bytes
  | .rooted names => names.map Name.bytes
  | .relative ups names => List.replicate ups dotdot ++ names.map Name.bytes

def text : Place → Bytes
  | .rooted names => slash :: List.intercalate [slash] (names.map Name.bytes)
  | .relative ups names =>
      if ups = 0 ∧ names = [] then dot
      else List.intercalate [slash] (Place.relative ups names).parts

/-- Where it is, seen from a working directory. -/
def physical (cwd : List Name) : Place → List Name
  | .rooted names => names
  | .relative ups names => cwd.take (cwd.length - ups) ++ names

/-- Where a text starts. -/
def origin (text : Bytes) : Place := if FileTree.isAbs text then .rooted [] else .relative 0 []

/-- Apply a component without looking at the tree. -/
def step (place : Place) : Component → Place
  | .skip => place
  | .up => place.up
  | .name name => place.push name

end Place

/-- Clean a path. -/
def clean (text : Bytes) : Place := (components text).foldl Place.step (Place.origin text)

end Places

section Trees

/-- What is in a tree. -/
inductive Node
  | file (size : ℕ)
  | link (target : Bytes)
  | dir (readable searchable : Bool) (entries : List (Name × Node))

namespace Node

def isDir : Node → Bool
  | .dir _ _ _ => true
  | _ => false

def isLink : Node → Bool
  | .link _ => true
  | _ => false

/-- What a directory that can be searched has under a name. -/
def child (name : Name) : Node → Option Node
  | .dir _ true entries => (entries.find? (fun entry => entry.1 = name)).map Prod.snd
  | _ => none

/-- Down the tree, without following links. -/
def find (node : Node) : List Name → Option Node
  | [] => some node
  | name :: names => (node.child name).bind fun next => next.find names

end Node

/-- Where the components of a path lead from a place. -/
inductive Leads (root : Node) : List Name → List Component → List Name → Prop
  | done (place : List Name) : Leads root place [] place
  | skip {place : List Name} {rest : List Component} {result : List Name} :
      Leads root place rest result → Leads root place (.skip :: rest) result
  | up {place : List Name} {rest : List Component} {result : List Name} :
      Leads root place.dropLast rest result → Leads root place (.up :: rest) result
  | enter {place : List Name} {name : Name} {rest : List Component} {result : List Name}
      {node : Node} : root.find (place ++ [name]) = some node → node.isDir = true →
      Leads root (place ++ [name]) rest result → Leads root place (.name name :: rest) result
  | file {place : List Name} {name : Name} {size : ℕ} :
      root.find (place ++ [name]) = some (.file size) →
      Leads root place [.name name] (place ++ [name])
  | follow {place : List Name} {name : Name} {rest : List Component} {result : List Name}
      {target : Bytes} : root.find (place ++ [name]) = some (.link target) →
      Leads root (if isAbs target then [] else place) (components target ++ rest) result →
      Leads root place (.name name :: rest) result

/-- The components of a path up to the next link, which is handed on. -/
def walkWith (root : Node) (cwd : List Name)
    (follow : Place → List Component → Option Place) : Place → List Component → Option Place
  | place, [] => some place
  | place, .skip :: rest => walkWith root cwd follow place rest
  | place, .up :: rest => walkWith root cwd follow place.up rest
  | place, .name name :: rest =>
      match root.find ((place.push name).physical cwd) with
      | none => none
      | some (.file _) => if rest = [] then some (place.push name) else none
      | some (.link target) =>
          follow (if isAbs target then .rooted [] else place) (components target ++ rest)
      | some (.dir _ _ _) => walkWith root cwd follow (place.push name) rest

/-- Resolve a path, following so many links at most. -/
def walk (root : Node) (cwd : List Name) : ℕ → Place → List Component → Option Place
  | 0 => walkWith root cwd fun _ _ => none
  | links + 1 => walkWith root cwd (walk root cwd links)

end Trees

section Facts

variable {root : Node} {cwd : List Name}

@[simp] theorem physical_push (place : Place) (name : Name) :
    (place.push name).physical cwd = place.physical cwd ++ [name] := by
  cases place with
  | rooted names => rfl
  | relative ups names => exact (List.append_assoc _ _ _).symm

@[simp] theorem physical_up (place : Place) :
    place.up.physical cwd = (place.physical cwd).dropLast := by
  cases place with
  | rooted names => rfl
  | relative ups names =>
      cases names with
      | nil =>
          rw [Place.up, Place.physical, Place.physical, List.append_nil, List.append_nil,
            List.dropLast_eq_take, List.take_take, List.length_take]
          congr 1
          omega
      | cons name names =>
          rw [Place.up, Place.physical, Place.physical,
            List.dropLast_append_of_ne_nil (List.cons_ne_nil _ _)]

/-- One pass is sound when what it hands on is. -/
theorem walkWith_sound {follow : Place → List Component → Option Place}
    (hfollow : ∀ place rest result, follow place rest = some result →
      Leads root (place.physical cwd) rest (result.physical cwd))
    {place result : Place} {rest : List Component}
    (h : walkWith root cwd follow place rest = some result) :
    Leads root (place.physical cwd) rest (result.physical cwd) := by
  induction rest generalizing place with
  | nil =>
      rw [walkWith] at h
      rw [← Option.some.inj h]
      exact .done _
  | cons next rest ih =>
      cases next with
      | skip =>
          rw [walkWith] at h
          exact .skip (ih h)
      | up =>
          rw [walkWith] at h
          have hup := ih h
          rw [physical_up] at hup
          exact .up hup
      | name name =>
          rw [walkWith] at h
          split at h
          · cases h
          · next size hat =>
              rw [physical_push] at hat
              split at h
              · next hnil =>
                  rw [← Option.some.inj h, physical_push, hnil]
                  exact .file hat
              · cases h
          · next target hat =>
              rw [physical_push] at hat
              refine .follow hat ?_
              have htarget := hfollow _ _ _ h
              split at htarget
              · next habs => rwa [if_pos habs]
              · next habs => rwa [if_neg habs]
          · next readable searchable entries hat =>
              rw [physical_push] at hat
              have hrest := ih h
              rw [physical_push] at hrest
              exact .enter hat rfl hrest

/-- What `walk` finds is where the path leads. -/
theorem walk_sound {links : ℕ} {place result : Place} {rest : List Component}
    (h : walk root cwd links place rest = some result) :
    Leads root (place.physical cwd) rest (result.physical cwd) := by
  induction links generalizing place rest result with
  | zero =>
      refine walkWith_sound (fun _ _ _ hnone => ?_) h
      cases hnone
  | succ links ih => exact walkWith_sound (fun _ _ _ hsome => ih hsome) h

/-- A path leads to one place. -/
theorem leads_unique {place result other : List Name} {rest : List Component}
    (h : Leads root place rest result) (h' : Leads root place rest other) : result = other := by
  induction h with
  | done place =>
      cases h'
      rfl
  | skip _ ih =>
      cases h' with
      | skip h' => exact ih h'
  | up _ ih =>
      cases h' with
      | up h' => exact ih h'
  | enter hat hdir _ ih =>
      cases h' with
      | enter _ _ h' => exact ih h'
      | file hfile =>
          rw [hat] at hfile
          rw [Option.some.inj hfile] at hdir
          cases hdir
      | follow hlink _ =>
          rw [hat] at hlink
          rw [Option.some.inj hlink] at hdir
          cases hdir
  | file hat =>
      cases h' with
      | enter hother hdir _ =>
          rw [hat] at hother
          rw [← Option.some.inj hother] at hdir
          cases hdir
      | file _ => rfl
      | follow hlink _ =>
          rw [hat] at hlink
          cases hlink
  | follow hat _ ih =>
      cases h' with
      | enter hother hdir _ =>
          rw [hat] at hother
          rw [← Option.some.inj hother] at hdir
          cases hdir
      | file hfile =>
          rw [hat] at hfile
          cases hfile
      | follow hlink h' =>
          rw [hat] at hlink
          obtain rfl := Node.link.inj (Option.some.inj hlink)
          exact ih h'

theorem find_append (node : Node) (names more : List Name) :
    node.find (names ++ more) = (node.find names).bind fun next => next.find more := by
  induction names generalizing node with
  | nil => rfl
  | cons name names ih =>
      rw [List.cons_append, Node.find, Node.find, Option.bind_assoc]
      congr 1
      funext next
      exact ih next

/-- What has something under it is a directory. -/
theorem isDir_of_child {node next : Node} {name : Name} (h : node.child name = some next) :
    node.isDir = true := by
  cases node with
  | file size => cases h
  | link target => cases h
  | dir readable searchable entries => rfl

theorem isDir_dropLast {place : List Name} {node : Node}
    (h : root.find place = some node) :
    ∃ above, root.find place.dropLast = some above ∧ (place = [] ∨ above.isDir = true) := by
  rcases List.eq_nil_or_concat' place with rfl | ⟨names, name, rfl⟩
  · exact ⟨node, h, Or.inl rfl⟩
  · rw [find_append, Option.bind_eq_some_iff] at h
    obtain ⟨above, habove, hnext⟩ := h
    rw [Node.find, Option.bind_eq_some_iff] at hnext
    obtain ⟨next, hchild, -⟩ := hnext
    rw [List.dropLast_concat]
    exact ⟨above, habove, Or.inr (isDir_of_child hchild)⟩

/-- A place that a path leads to exists and is no link. -/
theorem leads_resolved (hroot : root.isDir = true) {place result : List Name}
    {rest : List Component} (h : Leads root place rest result)
    (hplace : ∃ node, root.find place = some node ∧ node.isDir = true) :
    ∃ node, root.find result = some node ∧ node.isLink = false := by
  induction h with
  | done place =>
      obtain ⟨node, hnode, hdir⟩ := hplace
      refine ⟨node, hnode, ?_⟩
      cases node <;> first | rfl | cases hdir
  | skip _ ih => exact ih hplace
  | up _ ih =>
      obtain ⟨node, hnode, hdir⟩ := hplace
      obtain ⟨above, habove, hcases⟩ := isDir_dropLast hnode
      refine ih ⟨above, habove, ?_⟩
      rcases hcases with rfl | habovedir
      · rw [List.dropLast_nil, hnode] at habove
        rw [← Option.some.inj habove]
        exact hdir
      · exact habovedir
  | enter hat hdir _ ih => exact ih ⟨_, hat, hdir⟩
  | file hat => exact ⟨_, hat, rfl⟩
  | follow _ _ ih =>
      refine ih ?_
      split
      · exact ⟨root, rfl, hroot⟩
      · exact hplace

end Facts

section Texts

/-- The components of a cleaned path. -/
def Place.pending : Place → List Component
  | .rooted names => names.map .name
  | .relative ups names => List.replicate ups .up ++ names.map .name

theorem component_bytes (name : Name) : component name.bytes = .name name := by
  obtain ⟨bytes, hne, hdot, hdotdot, hslash⟩ := name
  rw [component, dif_neg (by rintro (h | h) <;> contradiction), dif_neg hdotdot, dif_neg hslash]

theorem component_dotdot : component dotdot = .up := by decide

/-- The parts of a text that was joined from parts. -/
theorem components_intercalate {parts : List Bytes} (hne : parts ≠ [])
    (h : ∀ part ∈ parts, slash ∉ part) :
    components (List.intercalate [slash] parts) = parts.map component := by
  rw [components, split, List.splitOn_intercalate slash h hne]

theorem slash_not_mem_parts (place : Place) : ∀ part ∈ place.parts, slash ∉ part := by
  have hname : ∀ names : List Name, ∀ part ∈ names.map Name.bytes, slash ∉ part := by
    intro names part hpart
    obtain ⟨name, -, rfl⟩ := List.mem_map.mp hpart
    exact name.ordinary.2.2.2
  cases place with
  | rooted names => exact hname names
  | relative ups names =>
      intro part hpart
      rcases List.mem_append.mp hpart with hup | hin
      · rw [List.eq_of_mem_replicate hup]
        decide
      · exact hname names part hin

theorem map_component_parts (place : Place) : place.parts.map component = place.pending := by
  have hnames : ∀ names : List Name, (names.map Name.bytes).map component = names.map .name := by
    intro names
    rw [List.map_map]
    exact List.map_congr_left fun name _ => component_bytes name
  cases place with
  | rooted names => exact hnames names
  | relative ups names =>
      rw [Place.parts, List.map_append, List.map_replicate, component_dotdot, hnames]
      rfl

theorem foldl_names (place : Place) (names : List Name) :
    (names.map Component.name).foldl Place.step place =
      match place with
      | .rooted front => .rooted (front ++ names)
      | .relative ups front => .relative ups (front ++ names) := by
  induction names generalizing place with
  | nil => cases place <;> simp
  | cons name names ih =>
      rw [List.map_cons, List.foldl_cons, ih]
      cases place <;> simp [Place.step, Place.push]

theorem foldl_ups (ups more : ℕ) :
    (List.replicate more Component.up).foldl Place.step (.relative ups []) =
      .relative (ups + more) [] := by
  induction more generalizing ups with
  | zero => rfl
  | succ more ih =>
      rw [List.replicate_succ, List.foldl_cons, Place.step, Place.up, ih]
      congr 1
      omega

/-- The components of a cleaned path lead to it. -/
theorem foldl_pending (place : Place) :
    place.pending.foldl Place.step (if place.isAbs then .rooted [] else .relative 0 []) =
      place := by
  cases place with
  | rooted names =>
      rw [Place.pending, Place.isAbs, if_pos rfl, foldl_names]
      rfl
  | relative ups names =>
      rw [Place.pending, Place.isAbs, if_neg (by decide), List.foldl_append, foldl_ups, foldl_names]
      simp

theorem isAbs_foldl (rest : List Component) (place : Place) :
    (rest.foldl Place.step place).isAbs = place.isAbs := by
  induction rest generalizing place with
  | nil => rfl
  | cons next rest ih =>
      rw [List.foldl_cons, ih]
      cases next with
      | skip => rfl
      | up =>
          cases place with
          | rooted names => rfl
          | relative ups names => cases names <;> rfl
      | name name => cases place <;> rfl

/-- Cleaning keeps a path relative or not. -/
theorem isAbs_clean (text : Bytes) : (clean text).isAbs = isAbs text := by
  rw [clean, isAbs_foldl, Place.origin]
  cases isAbs text <;> rfl

/-- A component that is skipped changes nothing. -/
theorem foldl_skip (place : Place) (rest : List Component) :
    (Component.skip :: rest).foldl Place.step place = rest.foldl Place.step place := rfl

theorem components_slash (text : Bytes) : components (slash :: text) = .skip :: components text := by
  rw [components, split, List.splitOn_cons_eq_if_modifyHead, if_pos (beq_self_eq_true _)]
  rfl

/-- Cleaning the text of a cleaned path gives the path. -/
theorem clean_text (place : Place) : clean place.text = place := by
  have hjoined : ∀ parts : List Bytes, parts ≠ [] → (∀ part ∈ parts, slash ∉ part) →
      components (List.intercalate [slash] parts) = parts.map component :=
    fun parts hne h => components_intercalate hne h
  cases place with
  | rooted names =>
      have habs : isAbs (Place.rooted names).text = true := rfl
      rw [clean, Place.origin, if_pos habs, Place.text, components_slash, foldl_skip]
      by_cases hnil : names = []
      · subst hnil
        rfl
      · have hne : names.map Name.bytes ≠ [] := by simpa using hnil
        have hparts := hjoined _ hne (slash_not_mem_parts (.rooted names))
        have hpending := map_component_parts (.rooted names)
        rw [Place.parts] at hpending
        rw [hparts, hpending]
        exact foldl_pending (.rooted names)
  | relative ups names =>
      by_cases hempty : ups = 0 ∧ names = []
      · obtain ⟨rfl, rfl⟩ := hempty
        rfl
      · have hne : (Place.relative ups names).parts ≠ [] := by
          intro hnil
          rw [Place.parts, List.append_eq_nil_iff, List.replicate_eq_nil_iff, List.map_eq_nil_iff]
            at hnil
          exact hempty hnil
        have habs : isAbs (Place.relative ups names).text = false := by
          obtain ⟨first, more, hparts⟩ := List.exists_cons_of_ne_nil hne
          have hslash := slash_not_mem_parts (.relative ups names) first
            (hparts ▸ List.mem_cons_self)
          have hfirst : first ≠ [] := by
            have hmem : first ∈ (Place.relative ups names).parts := hparts ▸ List.mem_cons_self
            rcases List.mem_append.mp hmem with hup | hin
            · rw [List.eq_of_mem_replicate hup]
              decide
            · obtain ⟨name, -, rfl⟩ := List.mem_map.mp hin
              exact name.ordinary.1
          obtain ⟨c, rest, rfl⟩ := List.exists_cons_of_ne_nil hfirst
          rw [Place.text, if_neg hempty, hparts, isAbs, decide_eq_false_iff_not]
          intro hhead
          have hc : c = slash := by
            cases more <;> simpa [List.intercalate] using hhead
          exact hslash (hc ▸ List.mem_cons_self)
        rw [clean, Place.origin, if_neg (by rw [habs]; decide), Place.text, if_neg hempty,
          hjoined _ hne (slash_not_mem_parts _), map_component_parts]
        exact foldl_pending (.relative ups names)

theorem isAbs_text (place : Place) : isAbs place.text = place.isAbs := by
  rw [← isAbs_clean, clean_text]

end Texts

section Relative

/-- Take off what two lists have in common in front. -/
def stripCommon : List Bytes → List Bytes → List Bytes × List Bytes
  | a :: as, b :: bs => if a = b then stripCommon as bs else (a :: as, b :: bs)
  | as, bs => (as, bs)

/-- The parts of a path from one cleaned path to another one. -/
def rel (base target : Place) : Option (List Bytes) :=
  if base = target then some [dot]
  else if base.isAbs ≠ target.isAbs then none
  else
    let (left, more) := stripCommon base.parts target.parts
    if left.head? = some dotdot ∧ more ≠ [] then none
    else some (List.replicate left.length dotdot ++ more)

theorem stripCommon_spec (as bs : List Bytes) :
    ∃ common, as = common ++ (stripCommon as bs).1 ∧ bs = common ++ (stripCommon as bs).2 := by
  induction as generalizing bs with
  | nil => exact ⟨[], by cases bs <;> exact ⟨rfl, rfl⟩⟩
  | cons a as ih =>
      cases bs with
      | nil => exact ⟨[], rfl, rfl⟩
      | cons b bs =>
          rw [stripCommon]
          by_cases heq : a = b
          · obtain ⟨common, has, hbs⟩ := ih bs
            rw [if_pos heq]
            refine ⟨a :: common, ?_, ?_⟩
            · rw [List.cons_append, ← has]
            · rw [List.cons_append, ← hbs, heq]
          · rw [if_neg heq]
            exact ⟨[], rfl, rfl⟩

/-- A path that does not start upwards goes down. -/
theorem parts_append_of_rel {base target : Place} {parts : List Bytes}
    (h : rel base target = some parts) (hdown : parts.head? ≠ some dotdot) :
    base = target ∨ (base.isAbs = target.isAbs ∧ ∃ more, target.parts = base.parts ++ more ∧
      more.head? ≠ some dotdot) := by
  unfold rel at h
  by_cases heq : base = target
  · exact Or.inl heq
  rw [if_neg heq] at h
  by_cases habs : base.isAbs = target.isAbs
  · right
    rw [if_neg (by simpa using habs)] at h
    obtain ⟨common, hbase, htarget⟩ := stripCommon_spec base.parts target.parts
    revert h hbase htarget
    generalize stripCommon base.parts target.parts = both
    obtain ⟨left, more⟩ := both
    dsimp only
    intro h hbase htarget
    split at h
    · cases h
    · have hparts := Option.some.inj h
      have hleft : left = [] := by
        refine List.length_eq_zero_iff.mp (Nat.eq_zero_of_not_pos fun hpos => hdown ?_)
        obtain ⟨n, hn⟩ : ∃ n, left.length = n + 1 := ⟨left.length - 1, by omega⟩
        rw [← hparts, hn, List.replicate_succ, List.cons_append, List.head?_cons]
      rw [hleft, List.append_nil] at hbase
      rw [hleft, List.length_nil, List.replicate_zero, List.nil_append] at hparts
      exact ⟨habs, more, by rw [htarget, hbase], hparts ▸ hdown⟩
  · rw [if_pos (by simpa using habs)] at h
    cases h

theorem bytes_injective : Function.Injective Name.bytes := by
  rintro ⟨bytes, hbytes⟩ ⟨other, hother⟩ heq
  obtain rfl : bytes = other := heq
  rfl

theorem prefix_of_map {names names' : List Name} {more : List Bytes}
    (h : names'.map Name.bytes = names.map Name.bytes ++ more) : names <+: names' :=
  (List.prefix_map_iff_of_injective bytes_injective).mp ⟨more, h.symm⟩

theorem head_ne_dotdot (names : List Name) : (names.map Name.bytes).head? ≠ some dotdot := by
  cases names with
  | nil =>
      intro h
      cases h
  | cons name names => exact fun h => name.ordinary.2.2.1 (Option.some.inj h)

/-- Below a path that leads upwards as often. -/
theorem prefix_of_ups {ups ups' : ℕ} {names names' : List Name} {more : List Bytes}
    (h : List.replicate ups' dotdot ++ names'.map Name.bytes =
      List.replicate ups dotdot ++ names.map Name.bytes ++ more)
    (hmore : more.head? ≠ some dotdot) : ups = ups' ∧ names <+: names' := by
  induction ups generalizing ups' with
  | zero =>
      rw [List.replicate_zero, List.nil_append] at h
      cases ups' with
      | zero => exact ⟨rfl, prefix_of_map h⟩
      | succ ups' =>
          rw [List.replicate_succ, List.cons_append] at h
          have hhead := congrArg List.head? h
          rw [List.head?_cons, List.head?_append] at hhead
          cases hnames : (names.map Name.bytes).head? with
          | none =>
              rw [hnames] at hhead
              exact absurd hhead.symm hmore
          | some first =>
              rw [hnames] at hhead
              exact absurd (hnames.trans hhead.symm) (head_ne_dotdot names)
  | succ ups ih =>
      cases ups' with
      | zero =>
          rw [List.replicate_zero, List.nil_append, List.replicate_succ] at h
          have hhead := congrArg List.head? h
          exact absurd hhead (head_ne_dotdot names')
      | succ ups' =>
          rw [List.replicate_succ, List.replicate_succ, List.cons_append, List.cons_append,
            List.cons_append] at h
          obtain ⟨rfl, hprefix⟩ := ih (List.cons.inj h).2
          exact ⟨rfl, hprefix⟩

/-- Where the relative path goes down, the place is inside. -/
theorem physical_prefix_of_rel {base target : Place} {parts : List Bytes}
    (h : rel base target = some parts) (hdown : parts.head? ≠ some dotdot) (cwd : List Name) :
    base.physical cwd <+: target.physical cwd := by
  rcases parts_append_of_rel h hdown with rfl | ⟨habs, more, heq, hmore⟩
  · exact List.prefix_rfl
  · cases base with
    | rooted names =>
        cases target with
        | rooted names' => exact prefix_of_map heq
        | relative ups' names' => cases habs
    | relative ups names =>
        cases target with
        | rooted names' => cases habs
        | relative ups' names' =>
            obtain ⟨rfl, hprefix⟩ := prefix_of_ups heq hmore
            exact (List.prefix_append_right_inj _).mpr hprefix

end Relative

section Joining

/-- A component more, for the text of a path. -/
theorem clean_append {text : Bytes} (hne : text ≠ []) (more : Bytes) :
    clean (text ++ slash :: more) = (components more).foldl Place.step (clean text) := by
  have habs : isAbs (text ++ slash :: more) = isAbs text := by
    obtain ⟨c, rest, rfl⟩ := List.exists_cons_of_ne_nil hne
    rfl
  rw [clean, clean, Place.origin, Place.origin, habs, components, components, components, split,
    List.splitOn_append_cons_self, List.map_append, List.foldl_append]
  rfl

theorem text_ne_nil (place : Place) : place.text ≠ [] := by
  intro hnil
  have hclean := clean_text place
  rw [hnil] at hclean
  have hempty : clean [] = .relative 0 [] := by decide
  rw [hempty] at hclean
  rw [← hclean] at hnil
  exact absurd hnil (by decide)

/-- A name more. -/
theorem clean_join (place : Place) (name : Name) :
    clean (place.text ++ slash :: name.bytes) = place.push name := by
  have hone : components name.bytes = [.name name] := by
    rw [components, split, List.splitOn_eq_singleton name.ordinary.2.2.2, List.map_singleton,
      component_bytes]
  rw [clean_append (text_ne_nil place), clean_text, hone]
  rfl

end Joining

end FileTree
end RwkvLightning
