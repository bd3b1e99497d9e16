import RwkvLightning.Launcher.BackendRegistryExact
import RwkvLightning.Library.Execution

/-!
# Durability of the backend registry

The requests to the registry of a launcher, with restarts between them.

**Requests.**  The texts of a request come out of a JSON body, so they are well-formed UTF-8.
The id of an update or a removal is a part of the path, and may be any bytes.

**History.**  `saved` is the list that the user was last told about, and `refused` says that
this launcher found a file that it could not load.

**Results.**
* `Sound.served`: what a request does to a registry that agrees with its file.
* `registry_durable`: while every load finds a file that it can read, or none, the list in
  memory and the list on disk stay together.
* `brokenRegistry_overwritten`: a file that cannot be parsed is overwritten.
* `reload_iff`: a list that was saved is loaded again exactly if its file is not too long.
-/

namespace RwkvLightning
namespace Launcher
namespace Backends

open GoStrings (Bytes trimSpace)
open JsonString (ascii)
open Utf8 (WellFormed)
open Execution

/-- A text of a request. -/
structure Text where
  bytes : Bytes
  wellFormed : WellFormed bytes

/-- The requests.  `look` stands for all that only look at the list. -/
inductive Request where
  | add (name baseURL token : Text)
  | update (id : Bytes) (name baseURL token : Option Text)
  | remove (id : Bytes)
  | look (id : Bytes)
  | probed (id : Bytes) (p : ProbeResult) (now : ℤ)

/-- A request, or the end of the launcher and the start of the next. -/
inductive Event where
  | request (r : Request) (calls : Calls)
  | restart

/-- The registry of the launcher that runs, its file, and their history. -/
structure System where
  file : Option Bytes
  registry : Registry
  saved : Option (List BackendEntry)
  refused : Bool
deriving DecidableEq, Repr

/-- The list that a file holds; no file stands for an empty list. -/
def onDisk : Option Bytes → Option (List BackendEntry)
  | none => some []
  | some data => (unmarshal data).map (List.filter usable)

/-- A launcher that has just started. -/
def initial (file : Option Bytes) : System where
  file := file
  registry := openRegistry
  saved := onDisk file
  refused := false

section Steps

/-- Whether a request asks for another list. -/
def Request.changes : Request → Bool
  | .add _ _ _ => true
  | .update _ _ _ _ => true
  | .remove _ => true
  | _ => false

/-- Whether a request gets as far as a look at the list. -/
def Request.looks (calls : Calls) : Request → Bool
  | .add _ baseURL _ => (validateBaseURL baseURL.bytes).isOk && calls.random.isOk
  | .update id _ _ _ => id ≠ ascii "local"
  | .remove _ => true
  | .look _ => true
  | .probed _ _ _ => false

/-- Whether there is no file, or one that can be loaded. -/
def loadable (file : Option Bytes) (calls : Calls) : Bool :=
  match file with
  | none => true
  | some data => calls.readable && data.length ≤ 2 ^ 20 && (unmarshal data).isSome

/-- An outcome without its value. -/
def Outcome.report {α : Type} (out : Outcome α) : Outcome Unit where
  result := out.result.map fun _ => ()
  registry := out.registry
  file := out.file

/-- The outcome of a request. -/
def perform (rg : Registry) (file : Option Bytes) (calls : Calls) : Request → Outcome Unit
  | .add name baseURL token => (add rg file calls name.bytes baseURL.bytes token.bytes).report
  | .update id name baseURL token =>
      (update rg file calls id (name.map Text.bytes) (baseURL.map Text.bytes)
        (token.map Text.bytes)).report
  | .remove id => remove rg file calls id
  | .look id => (lookup rg file calls id).report
  | .probed id p now => { result := .ok (), registry := setProbe rg id p now, file := file }

/-- What the system does. -/
def next (s : System) : Event → System
  | .restart => { s with registry := openRegistry, refused := false }
  | .request r calls =>
      let out := perform s.registry s.file calls r
      { file := out.file
        registry := out.registry
        saved := if r.changes && out.result.isOk then some out.registry.entries else s.saved
        refused :=
          s.refused || (!s.registry.loaded && r.looks calls && !loadable s.file calls) }

def step (s : System) (e : Event) : Option System := some (next s e)

/-- The condition on a step: a load finds no file, or one that it can load. -/
def Loads (s : System) : Event → Prop
  | .restart => True
  | .request r calls =>
      s.registry.loaded = false → r.looks calls = true → loadable s.file calls = true

instance (s : System) : (e : Event) → Decidable (Loads s e)
  | .restart => inferInstanceAs (Decidable True)
  | .request _ _ => inferInstanceAs (Decidable (_ → _ → _))

/-- What the user relies on at a request. -/
structure Durable (s : System) (r : Request) (calls : Calls) : Prop where
  /-- what went well is in memory and on disk -/
  success : r.changes = true → (perform s.registry s.file calls r).result.isOk = true →
    onDisk (next s (.request r calls)).file = some (next s (.request r calls)).registry.entries
  /-- what failed changed neither -/
  failure : (perform s.registry s.file calls r).result.isOk = false →
    (next s (.request r calls)).file = s.file ∧
      (s.registry.loaded = true → (next s (.request r calls)).registry = s.registry)
  /-- a launcher that has loaded its list has the saved one -/
  reload : ∀ list, (next s (.request r calls)).saved = some list →
    (next s (.request r calls)).registry.loaded = true →
      (next s (.request r calls)).registry.entries = list
  /-- a file that could not be loaded is left alone -/
  kept : (next s (.request r calls)).refused = true →
    (next s (.request r calls)).file = s.file

end Steps

section Entries

/-- An entry that a registry may hold. -/
structure Stored (e : BackendEntry) : Prop where
  usable : usable e = true
  wellFormed : WellFormedEntry e

theorem usable_iff {e : BackendEntry} :
    usable e = true ↔ e.id ≠ [] ∧ e.baseURL ≠ [] ∧ e.id ≠ ascii "local" := by
  simp only [usable, Bool.not_eq_true', Bool.or_eq_false_iff, decide_eq_false_iff_not, and_assoc]

theorem hexDigit_le (n : ℕ) (h : n < 16) : (hexDigit n).toNat ≤ 0x7F := by
  have hall : ∀ n < 16, (hexDigit n).toNat ≤ 0x7F := by decide
  exact hall n h

theorem wellFormed_encodeToString (bytes : Bytes) : WellFormed (encodeToString bytes) := by
  refine Utf8.wellFormed_ascii fun digit hdigit => ?_
  obtain ⟨byte, -, hmem⟩ := List.mem_flatMap.mp hdigit
  have hlt := byte.toNat_lt
  rcases List.mem_cons.mp hmem with rfl | hmem
  · exact hexDigit_le _ (by omega)
  · rw [List.mem_singleton.mp hmem]
    exact hexDigit_le _ (by omega)

theorem stored_newEntry {name baseURL token : Bytes} (hname : WellFormed name)
    (hbaseURL : WellFormed baseURL) (hne : baseURL ≠ []) (htoken : WellFormed token)
    (buf : UInt8 × UInt8 × UInt8) : Stored (newEntry name baseURL token buf) := by
  have hid := wellFormed_encodeToString [buf.1, buf.2.1, buf.2.2]
  have hlength : (newEntry name baseURL token buf).id.length = 6 := rfl
  constructor
  · refine usable_iff.mpr ⟨?_, hne, ?_⟩
    · intro hnil
      rw [hnil] at hlength
      cases hlength
    · intro hlocal
      rw [hlocal] at hlength
      exact absurd hlength (by decide)
  · refine ⟨hid, ?_, hbaseURL, GoStrings.wellFormed_trimSpace htoken⟩
    rw [newEntry]
    dsimp only
    split
    · have hfront : WellFormed (ascii "backend ") := Utf8.wellFormed_ascii (by decide +kernel)
      exact hfront.append hid
    · exact GoStrings.wellFormed_trimSpace hname

theorem stored_of_renamed {e after : BackendEntry} {name : Option Text} (he : Stored e)
    (h : renamed e (name.map Text.bytes) = .ok after) : Stored after := by
  cases name with
  | none =>
      cases h
      exact he
  | some name =>
      rw [Option.map_some, renamed] at h
      split at h
      · cases h
      · cases h
        have hname := GoStrings.wellFormed_trimSpace name.wellFormed
        exact ⟨he.usable, { he.wellFormed with name := hname }⟩

theorem stored_of_readdressed {e after : BackendEntry} {baseURL : Option Text} (he : Stored e)
    (h : readdressed e (baseURL.map Text.bytes) = .ok after) : Stored after := by
  cases baseURL with
  | none =>
      cases h
      exact he
  | some baseURL =>
      rw [Option.map_some, readdressed] at h
      cases hparsed : validateBaseURL baseURL.bytes with
      | error err =>
          rw [hparsed] at h
          cases h
      | ok parsed =>
          rw [hparsed] at h
          cases h
          obtain ⟨hid, -, hlocal⟩ := usable_iff.mp he.usable
          have hwf := wellFormed_of_validateBaseURL baseURL.wellFormed hparsed
          exact ⟨usable_iff.mpr ⟨hid, validateBaseURL_ne_nil hparsed, hlocal⟩,
            { he.wellFormed with baseURL := hwf }⟩

theorem stored_retokened {e : BackendEntry} {token : Option Text} (he : Stored e) :
    Stored (retokened e (token.map Text.bytes)) := by
  cases token with
  | none => exact he
  | some token =>
      rw [Option.map_some, retokened]
      split
      · exact he
      · have htoken := GoStrings.wellFormed_trimSpace token.wellFormed
        exact ⟨he.usable, { he.wellFormed with token := htoken }⟩

theorem stored_of_edited {e after : BackendEntry} {name baseURL token : Option Text}
    (he : Stored e) (h : edited e (name.map Text.bytes) (baseURL.map Text.bytes)
      (token.map Text.bytes) = .ok after) : Stored after := by
  rw [edited] at h
  cases hname : renamed e (name.map Text.bytes) with
  | error err =>
      rw [hname] at h
      cases h
  | ok first =>
      rw [hname] at h
      cases hbaseURL : readdressed first (baseURL.map Text.bytes) with
      | error err =>
          rw [Except.bind, hbaseURL] at h
          cases h
      | ok second =>
          rw [Except.bind, hbaseURL] at h
          cases h
          exact stored_retokened (stored_of_readdressed (stored_of_renamed he hname) hbaseURL)

theorem stored_of_onDisk {file : Option Bytes} {list : List BackendEntry}
    (h : onDisk file = some list) : ∀ e ∈ list, Stored e := by
  cases file with
  | none =>
      cases h
      exact List.forall_mem_nil _
  | some data =>
      obtain ⟨found, hfound, rfl⟩ := Option.map_eq_some_iff.mp h
      intro e he
      obtain ⟨hmem, husable⟩ := List.mem_filter.mp he
      exact ⟨husable, wellFormed_of_unmarshal hfound e hmem⟩

theorem onDisk_marshal {entries : List BackendEntry} (h : ∀ e ∈ entries, Stored e) :
    onDisk (some (marshal entries)) = some entries := by
  rw [onDisk, unmarshal_marshal fun e he => (h e he).wellFormed, Option.map_some,
    List.filter_eq_self.mpr fun e he => (h e he).usable]

end Entries

section Operations

/-- A registry that agrees with its file. -/
structure Sound (file : Option Bytes) (rg : Registry) : Prop where
  synced : rg.loaded = true → onDisk file = some rg.entries
  fresh : rg.loaded = false → rg.entries = []
  stored : ∀ e ∈ rg.entries, Stored e

variable {rg : Registry} {file : Option Bytes} {calls : Calls}

theorem ensureLoaded_loaded (rg : Registry) (read : Option Bytes) :
    (ensureLoaded rg read).loaded = true := by
  rw [ensureLoaded.eq_def]
  split
  · assumption
  · split
    · rfl
    · split
      · rfl
      · split <;> rfl

theorem ensureLoaded_of_loaded (h : rg.loaded = true) (read : Option Bytes) :
    ensureLoaded rg read = rg := if_pos h

/-- What a load takes from a file that it can load. -/
theorem ensureLoaded_entries (hrg : rg.loaded = false) (hentries : rg.entries = [])
    (hload : loadable file calls = true) :
    onDisk file = some (ensureLoaded rg (readFile file calls)).entries := by
  have hfresh : ¬rg.loaded = true := by
    rw [hrg]
    exact Bool.false_ne_true
  rw [ensureLoaded.eq_def, if_neg hfresh]
  cases file with
  | none =>
      have hread : readFile none calls = none := by
        rw [readFile]
        split <;> rfl
      rw [hread]
      exact congrArg some hentries.symm
  | some data =>
      rw [loadable, Bool.and_eq_true, Bool.and_eq_true, decide_eq_true_iff] at hload
      obtain ⟨⟨hreadable, hsize⟩, hparsed⟩ := hload
      obtain ⟨found, hfound⟩ := Option.isSome_iff_exists.mp hparsed
      rw [readFile, if_pos hreadable]
      dsimp only
      rw [if_neg (Nat.not_lt.mpr hsize), hfound, onDisk, hfound, hentries]
      rfl

/-- A load that finds no file or one that it can load agrees with the file. -/
theorem sound_ensureLoaded (h : Sound file rg)
    (hload : rg.loaded = false → loadable file calls = true) :
    Sound file (ensureLoaded rg (readFile file calls)) := by
  cases hloaded : rg.loaded with
  | true =>
      rw [ensureLoaded_of_loaded hloaded]
      exact h
  | false =>
      have hentries := ensureLoaded_entries hloaded (h.fresh hloaded) (hload hloaded)
      have hafter := ensureLoaded_loaded rg (readFile file calls)
      refine ⟨fun _ => hentries, fun hfalse => ?_, stored_of_onDisk hentries⟩
      rw [hafter] at hfalse
      cases hfalse

/-- What a request does to a registry that agrees with its file. -/
inductive Served {α : Type} (changes : Bool) (rg : Registry) (file : Option Bytes)
    (out : Outcome α) : Prop
  | failed (err : Bytes) : out.result = .error err → out.registry = rg → out.file = file →
      Served changes rg file out
  | saved (a : α) : changes = true → out.result = .ok a → out.registry.loaded = true →
      Sound out.file out.registry → Served changes rg file out
  | seen (a : α) : changes = false → out.result = .ok a → out.file = file →
      Sound file out.registry → Served changes rg file out

/-- `save` fails and leaves the file alone, or writes the list. -/
theorem save_cases (file : Option Bytes) (calls : Calls) (entries : List BackendEntry) :
    (∃ err, save file calls entries = (.error err, file)) ∨
      save file calls entries = (.ok (), some (marshal entries)) := by
  rw [save]
  dsimp only
  repeat' split
  all_goals first | exact Or.inl ⟨_, rfl⟩ | exact Or.inr rfl

theorem served_commit {α : Type} {entries : List BackendEntry} {after : Registry}
    (hafter : after.loaded = true) (hentries : ∀ e ∈ entries, Stored e) (a : α) :
    Served true rg file (commit rg file calls entries after a) := by
  rw [commit]
  rcases save_cases file calls entries with ⟨err, hsave⟩ | hsave
  · rw [hsave]
    exact .failed err rfl rfl rfl
  · rw [hsave]
    refine .saved a rfl rfl hafter ⟨fun _ => onDisk_marshal hentries, fun hfalse => ?_, hentries⟩
    dsimp only at hfalse
    rw [hafter] at hfalse
    cases hfalse

theorem Served.report {α : Type} {changes : Bool} {out : Outcome α}
    (h : Served changes rg file out) : Served changes rg file out.report := by
  cases h with
  | failed err hresult hrg hfile =>
      refine .failed err ?_ hrg hfile
      rw [Outcome.report, hresult]
      rfl
  | saved a hchanges hresult hloaded hsound =>
      refine .saved () hchanges ?_ hloaded hsound
      rw [Outcome.report, hresult]
      rfl
  | seen a hchanges hresult hfile hsound =>
      refine .seen () hchanges ?_ hfile hsound
      rw [Outcome.report, hresult]
      rfl

/-- The registry that a request works on: as it is, or loaded. -/
structure Before (rg : Registry) (file : Option Bytes) (before : Registry) : Prop where
  sound : Sound file before
  same : rg.loaded = true → before = rg

theorem before_self (h : Sound file rg) : Before rg file rg := ⟨h, fun _ => rfl⟩

theorem before_ensureLoaded (h : Sound file rg)
    (hload : rg.loaded = false → loadable file calls = true) :
    Before rg file (ensureLoaded rg (readFile file calls)) :=
  ⟨sound_ensureLoaded h hload, fun hloaded => ensureLoaded_of_loaded hloaded _⟩

theorem served_add (h : Sound file rg) (name baseURL token : Text)
    (hload : rg.loaded = false → (Request.add name baseURL token).looks calls = true →
      loadable file calls = true) :
    ∃ before, Before rg file before ∧
      Served true before file (add rg file calls name.bytes baseURL.bytes token.bytes) := by
  rw [add]
  rw [Request.looks] at hload
  cases hvalid : validateBaseURL baseURL.bytes with
  | error err => exact ⟨rg, before_self h, .failed err rfl rfl rfl⟩
  | ok parsed =>
      cases hrandom : calls.random with
      | error err => exact ⟨rg, before_self h, .failed err rfl rfl rfl⟩
      | ok buf =>
          rw [hvalid, hrandom] at hload
          have hbefore := before_ensureLoaded h fun hfresh => hload hfresh rfl
          have hwf := wellFormed_of_validateBaseURL baseURL.wellFormed hvalid
          have hnew := stored_newEntry name.wellFormed hwf (validateBaseURL_ne_nil hvalid)
            token.wellFormed buf
          refine ⟨_, hbefore, ?_⟩
          dsimp only
          split
          · exact .failed _ rfl rfl rfl
          · refine served_commit (ensureLoaded_loaded _ _) ?_ _
            exact List.forall_mem_append.mpr
              ⟨hbefore.sound.stored, List.forall_mem_singleton.mpr hnew⟩

theorem served_update (h : Sound file rg) (id : Bytes) (name baseURL token : Option Text)
    (hload : rg.loaded = false → (Request.update id name baseURL token).looks calls = true →
      loadable file calls = true) :
    ∃ before, Before rg file before ∧
      Served true before file (update rg file calls id (name.map Text.bytes)
        (baseURL.map Text.bytes) (token.map Text.bytes)) := by
  rw [update]
  split
  · exact ⟨rg, before_self h, .failed _ rfl rfl rfl⟩
  · next hid =>
      have hbefore := before_ensureLoaded h fun hfresh => hload hfresh (decide_eq_true hid)
      refine ⟨_, hbefore, ?_⟩
      dsimp only
      split
      · exact .failed _ rfl rfl rfl
      · next i hfind =>
          split
          · exact .failed _ rfl rfl rfl
          · next after hedited =>
              obtain ⟨hlt, -⟩ := List.findIdx?_eq_some_iff_getElem.mp hfind
              have hold : Stored ((ensureLoaded rg (readFile file calls)).entries.getD i zeroEntry) := by
                rw [List.getD_eq_getElem _ _ hlt]
                exact hbefore.sound.stored _ (List.getElem_mem hlt)
              refine served_commit (ensureLoaded_loaded _ _) (fun e he => ?_) _
              rcases List.mem_or_eq_of_mem_set he with hmem | rfl
              · exact hbefore.sound.stored e hmem
              · exact stored_of_edited hold hedited

theorem served_remove (h : Sound file rg)
    (hload : rg.loaded = false → loadable file calls = true) (id : Bytes) :
    ∃ before, Before rg file before ∧ Served true before file (remove rg file calls id) := by
  have hbefore := before_ensureLoaded h hload
  refine ⟨_, hbefore, ?_⟩
  rw [remove]
  split
  · refine served_commit ?_ (fun e he => ?_) ()
    · exact ensureLoaded_loaded rg (readFile file calls)
    · exact hbefore.sound.stored e (List.mem_of_mem_eraseIdx he)
  · exact .failed _ rfl rfl rfl

theorem served_lookup (h : Sound file rg)
    (hload : rg.loaded = false → loadable file calls = true) (id : Bytes) :
    ∃ before, Before rg file before ∧ Served false before file (lookup rg file calls id) :=
  have hbefore := before_ensureLoaded h hload
  ⟨_, hbefore, .seen _ rfl rfl rfl hbefore.sound⟩

theorem sound_setProbe (h : Sound file rg) (id : Bytes) (p : ProbeResult) (now : ℤ) :
    Sound file (setProbe rg id p now) := ⟨h.synced, h.fresh, h.stored⟩

/-- What a request does to a registry that agrees with its file. -/
theorem Sound.served (h : Sound file rg) (r : Request)
    (hload : rg.loaded = false → r.looks calls = true → loadable file calls = true) :
    ∃ before, Before rg file before ∧ Served r.changes before file (perform rg file calls r) := by
  cases r with
  | add name baseURL token =>
      obtain ⟨before, hbefore, hserved⟩ := served_add h name baseURL token hload
      exact ⟨before, hbefore, hserved.report⟩
  | update id name baseURL token =>
      obtain ⟨before, hbefore, hserved⟩ := served_update h id name baseURL token hload
      exact ⟨before, hbefore, hserved.report⟩
  | remove id => exact served_remove h (fun hfresh => hload hfresh rfl) id
  | look id =>
      obtain ⟨before, hbefore, hserved⟩ := served_lookup h (fun hfresh => hload hfresh rfl) id
      exact ⟨before, hbefore, hserved.report⟩
  | probed id p now =>
      exact ⟨rg, before_self h, .seen () rfl rfl rfl (sound_setProbe h id p now)⟩

end Operations

section Runs

/-- The registry agrees with its file, and the file holds what the user was told. -/
structure Agrees (s : System) : Prop where
  sound : Sound s.file s.registry
  saved : ∀ list, s.saved = some list → onDisk s.file = some list
  trusted : s.refused = false

variable {s : System} {r : Request} {calls : Calls}

theorem sound_openRegistry (file : Option Bytes) : Sound file openRegistry :=
  ⟨fun h => Bool.noConfusion h, fun _ => rfl, List.forall_mem_nil _⟩

theorem agrees_initial (file : Option Bytes) : Agrees (initial file) :=
  ⟨sound_openRegistry file, fun _ h => h, rfl⟩

theorem refused_next (h : Agrees s) (hloads : Loads s (.request r calls)) :
    (next s (.request r calls)).refused = false := by
  rw [next]
  dsimp only
  rw [h.trusted, Bool.false_or]
  cases hloaded : s.registry.loaded with
  | true => rfl
  | false =>
      cases hlooks : r.looks calls with
      | false => rfl
      | true =>
          rw [hloads hloaded hlooks]
          rfl

theorem isOk_of_error {α : Type} {result : Except Bytes α} {err : Bytes}
    (h : result = .error err) : result.isOk = false := by
  rw [h]
  rfl

theorem isOk_of_ok {α : Type} {result : Except Bytes α} {a : α} (h : result = .ok a) :
    result.isOk = true := by
  rw [h]
  rfl

/-- A request keeps the registry, its file and their history together. -/
theorem agrees_next (h : Agrees s) (hloads : Loads s (.request r calls)) :
    Agrees (next s (.request r calls)) := by
  obtain ⟨before, hbefore, hserved⟩ := h.sound.served r hloads
  refine ⟨?_, ?_, refused_next h hloads⟩
  · rw [next]
    dsimp only
    cases hserved with
    | failed err hresult hrg hfile =>
        rw [hrg, hfile]
        exact hbefore.sound
    | saved a hchanges hresult hloaded hsound => exact hsound
    | seen a hchanges hresult hfile hsound =>
        rw [hfile]
        exact hsound
  · intro list
    rw [next]
    dsimp only
    cases hserved with
    | failed err hresult hrg hfile =>
        rw [isOk_of_error hresult, Bool.and_false, if_neg Bool.false_ne_true, hfile]
        exact h.saved list
    | saved a hchanges hresult hloaded hsound =>
        rw [isOk_of_ok hresult, hchanges, Bool.and_true, if_pos rfl]
        exact fun hlist => hlist ▸ hsound.synced hloaded
    | seen a hchanges hresult hfile hsound =>
        rw [hchanges, Bool.false_and, if_neg Bool.false_ne_true, hfile]
        exact h.saved list

theorem agrees_restart (h : Agrees s) : Agrees (next s .restart) :=
  ⟨sound_openRegistry s.file, h.saved, rfl⟩

/-- A request to a registry that agrees with its file does what the user relies on. -/
theorem durable_of_agrees (h : Agrees s) (hloads : Loads s (.request r calls)) :
    Durable s r calls := by
  have hafter := agrees_next h hloads
  obtain ⟨before, hbefore, hserved⟩ := h.sound.served r hloads
  refine ⟨fun hchanges hok => ?_, fun hfails => ?_, fun list hlist hloaded => ?_, fun hrefused => ?_⟩
  · cases hserved with
    | failed err hresult hrg hfile =>
        rw [isOk_of_error hresult] at hok
        cases hok
    | saved a _ hresult hloaded hsound => exact hsound.synced hloaded
    | seen a hlook hresult hfile hsound =>
        rw [hchanges] at hlook
        cases hlook
  · cases hserved with
    | failed err hresult hrg hfile =>
        exact ⟨hfile, fun hloaded => hrg.trans (hbefore.same hloaded)⟩
    | saved a _ hresult hloaded hsound =>
        rw [isOk_of_ok hresult] at hfails
        cases hfails
    | seen a _ hresult hfile hsound =>
        rw [isOk_of_ok hresult] at hfails
        cases hfails
  · have hdisk := hafter.saved list hlist
    rw [hafter.sound.synced hloaded] at hdisk
    exact Option.some.inj hdisk
  · rw [hafter.trusted] at hrefused
    cases hrefused

theorem agrees_step (s : System) (e : Event) (t : System) (h : Agrees s) (hloads : Loads s e)
    (hstep : step s e = some t) : Agrees t := by
  cases hstep
  cases e with
  | request r calls => exact agrees_next h hloads
  | restart => exact agrees_restart h

/-- While every load finds a file that it can load, or none, the list in memory and the list
on disk stay together. -/
theorem registry_durable {file : Option Bytes} {run : List Event} {s : System} {r : Request}
    {calls : Calls} (hmeets : StepsMeet step Loads (initial file) run)
    (hrun : exec step (initial file) run = some s) (hloads : Loads s (.request r calls)) :
    Durable s r calls :=
  durable_of_agrees (exec_invariant agrees_step (agrees_initial file) hmeets hrun) hloads

/-- A list that was saved is loaded again exactly if its file has at most `2 ^ 20` bytes. -/
theorem reload_iff {entries : List BackendEntry} (h : ∀ e ∈ entries, Stored e) :
    (ensureLoaded openRegistry (some (marshal entries))).entries = entries ↔
      (marshal entries).length ≤ 2 ^ 20 := by
  have hfresh : ¬openRegistry.loaded = true := Bool.false_ne_true
  rw [ensureLoaded.eq_def, if_neg hfresh]
  dsimp only
  by_cases hsize : (marshal entries).length > 2 ^ 20
  · rw [if_pos hsize]
    refine iff_of_false (fun hnil => ?_) (Nat.not_le.mpr hsize)
    have hempty : ¬(marshal []).length > 2 ^ 20 := by decide +kernel
    rw [← hnil] at hsize
    exact hempty hsize
  · have hdisk := onDisk_marshal h
    rw [if_neg hsize, unmarshal_marshal fun e he => (h e he).wellFormed]
    refine iff_of_true ?_ (Nat.not_lt.mp hsize)
    exact List.filter_eq_self.mpr fun e he => (h e he).usable

/-- A node as the list has it. -/
def storedNode : BackendEntry where
  id := ascii "n1"
  name := ascii "node"
  baseURL := ascii "http://node"
  token := []

theorem reload_iff_node :
    (ensureLoaded openRegistry (some (marshal [storedNode]))).entries = [storedNode] := by
  refine (reload_iff fun e he => ?_).mpr (by decide +kernel)
  obtain rfl := List.mem_singleton.mp he
  exact ⟨by decide, ⟨Utf8.wellFormed_ascii (by decide +kernel), Utf8.wellFormed_ascii
    (by decide +kernel), Utf8.wellFormed_ascii (by decide +kernel), Utf8.wellFormed_nil⟩⟩

/-- Calls that all go well. -/
def Calls.fine : Calls where
  readable := true
  random := .ok (0x01, 0x02, 0x03)
  mkdirAll := none
  createTemp := none
  write := none
  sync := none
  close := none
  rename := none

/-- The addition of a node without a name and without a token. -/
def addNode : Request :=
  .add ⟨[], Utf8.wellFormed_nil⟩
    ⟨ascii "http://node/", Utf8.wellFormed_ascii (by decide +kernel)⟩ ⟨[], Utf8.wellFormed_nil⟩

/-- A node that was added is there after a restart. -/
theorem registry_durable_restart :
    Durable (next (next (initial none) (.request addNode .fine)) .restart) (.look []) .fine :=
  @registry_durable none [.request addNode .fine, .restart] _ (.look []) .fine (by decide +kernel)
    rfl (by decide +kernel)

/-- A file that cannot be parsed is overwritten after all. -/
theorem brokenRegistry_overwritten :
    ¬∀ (file : Option Bytes) (run : List Event) (s : System) (r : Request) (calls : Calls),
      exec step (initial file) run = some s → Durable s r calls := by
  intro hdurable
  have hkept := (hdurable (some (ascii "\x7b")) [.request (.look []) .fine] _ addNode .fine rfl).kept
    (by decide +kernel)
  exact absurd hkept (by decide +kernel)

end Runs

end Backends
end Launcher
end RwkvLightning
