import RwkvLightning.Library.Association
import RwkvLightning.Server.UploadedStateStore
import Mathlib

/-!
# The files behind uploaded states

A path is made from the id of a state only, and an `Entry` removes its path when
the last reference goes.  So an entry that was erased while a handle holds it
shares its file with a later upload of the same id.

**Results.**
* `step_intact_iff`: which steps keep every file that a listed state or a live
  handle stands for.
* `intact_run_iff`: all states of a run are intact exactly when all its steps
  are `Careful`.
* `reupload_loses`: a run that erases, uploads and releases.
-/

namespace RwkvLightning
namespace UploadedStateStore

open Association Execution

section Safety

variable {δ : Type}

/-- What a caller relies on: live handles and the list stand for their files. -/
structure Intact (s : Store δ) : Prop where
  held : ∀ x ∈ s.handles, s.files x.2.path = some x.2.bytes
  listed :
    ∀ info ∈ s.list, ∃ x ∈ s.states, x.2.info = info ∧ x.1 = info.stateId ∧
      s.files x.2.path = some x.2.bytes

/-- An upload gets as far as writing its file. -/
def Store.Writes (s : Store δ) (u : Upload) : Prop :=
  checkData u = .ok () ∧ s.checkName u = .ok () ∧ s.states.lookup u.stateId = none

/-- An upload that writes its file enters it into the map. -/
def Creates (p : Platform δ) (u : Upload) : Prop :=
  u.fault ≠ .save ∧ (p.validateStatePth u.data).isOk ∧ u.fault ≠ .construct

/-- The condition on a step. -/
def Careful (p : Platform δ) (s : Store δ) : Event → Prop
  | .upload u =>
      s.Writes u →
        (Creates p u → u.fault ≠ .returnInfo) ∧
        ∀ x ∈ s.handles, x.2.path = s.target u → Creates p u ∧ x.2.bytes = u.data
  | .destroy serial =>
      ∀ e ∈ s.dying.find? (fun e => e.serial = serial),
        (∀ x ∈ s.states, x.2.path ≠ e.path) ∧ ∀ x ∈ s.handles, x.2.path ≠ e.path
  | .erase stateId =>
      ∀ e ∈ s.states.lookup stateId,
        Store.referenced
          { s with states := s.states.filter (fun x => x.1 ≠ stateId) } e = false →
        ∀ x ∈ s.handles, x.2.path ≠ e.path
  | _ => True

/-- The invariant: the map files each entry under its id, in the directory. -/
structure Filed (s : Store δ) : Prop where
  keys : (s.states.map Prod.fst).Nodup
  entry :
    ∀ x ∈ s.states, s.directory = some x.2.path.1 ∧ x.2.path.2 = x.1 ∧
      x.2.info.stateId = x.1
  present : ∀ x ∈ s.states, s.files x.2.path = some x.2.bytes
  held : ∀ x ∈ s.handles, s.files x.2.path = some x.2.bytes

section Lookup

variable {s : Store δ}

theorem mem_list (info : UploadedStateInfo) :
    info ∈ s.list ↔ ∃ x ∈ s.states, x.2.info = info := by
  rw [Store.list, (List.mergeSort_perm _ _).mem_iff, List.mem_map]

end Lookup

theorem intact_of_filed {s : Store δ} (hs : Filed s) : Intact s where
  held := hs.held
  listed := by
    intro info hinfo
    obtain ⟨x, hx, rfl⟩ := (mem_list info).mp hinfo
    exact ⟨x, hx, rfl, (hs.entry x hx).2.2.symm, hs.present x hx⟩

theorem filed_create : Filed (create : Store δ) where
  keys := List.nodup_nil
  entry := by simp [create]
  present := by simp [create]
  held := by simp [create]

section Files

variable {s : Store δ}

theorem removeFile_files_ne {path q : Path} (hne : q ≠ path) :
    (s.removeFile path).files q = s.files q :=
  Function.update_of_ne hne _ _

theorem removeFile_files_self (path : Path) : (s.removeFile path).files path = none :=
  Function.update_self _ _ _

/-- A file that nobody relies on may go. -/
theorem filed_removeFile (hs : Filed s) {path : Path}
    (hstates : ∀ x ∈ s.states, x.2.path ≠ path)
    (hheld : ∀ x ∈ s.handles, x.2.path ≠ path) :
    Filed (s.removeFile path) where
  keys := hs.keys
  entry := hs.entry
  present := by
    intro x hx
    rw [removeFile_files_ne (hstates x hx)]
    exact hs.present x hx
  held := by
    intro x hx
    rw [removeFile_files_ne (hheld x hx)]
    exact hs.held x hx

theorem not_intact_of_held {x : Nat × Entry δ} (hx : x ∈ s.handles)
    (hfile : s.files x.2.path ≠ some x.2.bytes) : ¬Intact s :=
  fun h => hfile (h.held x hx)

theorem not_intact_of_listed (hkeys : (s.states.map Prod.fst).Nodup)
    {x : Name × Entry δ} (hx : x ∈ s.states) (hid : x.2.info.stateId = x.1)
    (hfile : s.files x.2.path ≠ some x.2.bytes) : ¬Intact s := by
  intro h
  obtain ⟨y, hy, -, hkey, hpresent⟩ :=
    h.listed x.2.info ((mem_list _).mpr ⟨x, hx, rfl⟩)
  have hxy : y = x := by
    refine List.inj_on_of_nodup_map hkeys hy hx ?_
    rw [hkey, hid]
  rw [hxy] at hpresent
  exact hfile hpresent

/-- Removing a file is harmless exactly when nobody relies on it. -/
theorem removeFile_intact_iff (hs : Filed s) (path : Path) :
    Intact (s.removeFile path) ↔
      (∀ x ∈ s.states, x.2.path ≠ path) ∧ ∀ x ∈ s.handles, x.2.path ≠ path := by
  constructor
  · intro h
    constructor
    · intro x hx hpath
      refine not_intact_of_listed (s := s.removeFile path) hs.keys hx
        (hs.entry x hx).2.2 ?_ h
      rw [hpath, removeFile_files_self]
      simp
    · intro x hx hpath
      refine not_intact_of_held (s := s.removeFile path) hx ?_ h
      rw [hpath, removeFile_files_self]
      simp
  · rintro ⟨hstates, hheld⟩
    exact intact_of_filed (filed_removeFile hs hstates hheld)

/-- Different ids of the map stand for different files. -/
theorem path_ne_of_key_ne (hs : Filed s) {x y : Name × Entry δ}
    (hx : x ∈ s.states) (hy : y ∈ s.states) (hne : x.1 ≠ y.1) :
    x.2.path ≠ y.2.path := by
  intro hpath
  apply hne
  rw [← (hs.entry x hx).2.1, ← (hs.entry y hy).2.1, hpath]

end Files

section Uploads

variable {p : Platform δ} {s : Store δ} {u : Upload}

/-- The store after `ensure_directory_locked`. -/
def Store.opened (s : Store δ) (u : Upload) : Store δ :=
  { s with directory := some (s.directoryAfter u) }

/-- The store after `emplace`. -/
def Store.stored (p : Platform δ) (s : Store δ) (u : Upload) (shape : Shape) : Store δ :=
  { s with
    states := (u.stateId, s.entryOf p u shape) :: s.states
    files := Function.update s.files (s.target u) (some u.data)
    nextSerial := s.nextSerial + 1 }

theorem filed_opened (hs : Filed s) : Filed (s.opened u) where
  keys := hs.keys
  entry := by
    intro x hx
    obtain ⟨hdir, hrest⟩ := hs.entry x hx
    refine ⟨?_, hrest⟩
    simp [Store.opened, Store.directoryAfter, hdir]
  present := hs.present
  held := hs.held

theorem save_cases (p : Platform δ) (s : Store δ) (u : Upload) :
    (¬Creates p u ∧ (s.save p u).1 = s.removeFile (s.target u)) ∨
    ∃ shape, Creates p u ∧
      ((u.fault ≠ .returnInfo ∧ (s.save p u).1 = s.stored p u shape) ∨
       (u.fault = .returnInfo ∧
        (s.save p u).1 = (s.stored p u shape).removeFile (s.target u))) := by
  unfold Store.save Creates
  by_cases hsave : u.fault = .save
  · exact Or.inl ⟨fun h => h.1 hsave, by rw [if_pos hsave]⟩
  cases hvalid : p.validateStatePth u.data with
  | error e =>
      refine Or.inl ⟨fun h => ?_, by rw [if_neg hsave]⟩
      exact absurd h.2.1 (by simp [Except.isOk, Except.toBool])
  | ok shape =>
      by_cases hcons : u.fault = .construct
      · exact Or.inl ⟨fun h => h.2.2 hcons, by rw [if_neg hsave]; simp [hcons]⟩
      refine Or.inr ⟨shape, ⟨hsave, rfl, hcons⟩, ?_⟩
      rw [if_neg hsave]
      by_cases hret : u.fault = .returnInfo
      · refine Or.inr ⟨hret, ?_⟩
        simp only [if_neg hcons, if_pos hret]
        rfl
      · refine Or.inl ⟨hret, ?_⟩
        simp only [if_neg hcons, if_neg hret]
        rfl

variable [DecidableEq δ]

theorem upload_cases (p : Platform δ) (s : Store δ) (u : Upload) :
    (¬s.Writes u ∧ ((s.upload p u).1 = s ∨ (s.upload p u).1 = s.opened u)) ∨
    (s.Writes u ∧ (s.upload p u).1 = ((s.opened u).save p u).1) := by
  unfold Store.upload Store.Writes
  cases hdata : checkData u with
  | error e => exact Or.inl ⟨by simp, Or.inl rfl⟩
  | ok a =>
      cases hname : s.checkName u with
      | error e => exact Or.inl ⟨by simp, Or.inr rfl⟩
      | ok b =>
          cases a
          cases b
          dsimp only
          cases hlookup : s.states.lookup u.stateId with
          | none => exact Or.inr ⟨⟨rfl, rfl, rfl⟩, rfl⟩
          | some e =>
              refine Or.inl ⟨by simp, Or.inr ?_⟩
              dsimp only
              split_ifs <;> rfl

end Uploads

section Stored

variable {p : Platform δ} {s : Store δ} {u : Upload} {shape : Shape}

/-- The new state and its file, where no live handle stands for other bytes. -/
theorem filed_stored (hs : Filed s) (hdir : s.directory = some (s.directoryAfter u))
    (hnew : ∀ x ∈ s.states, x.1 ≠ u.stateId)
    (hheld : ∀ x ∈ s.handles, x.2.path = s.target u → x.2.bytes = u.data) :
    Filed (s.stored p u shape) where
  keys := by
    refine List.nodup_cons.mpr ⟨?_, hs.keys⟩
    rintro hmem
    obtain ⟨x, hx, hkey⟩ := List.mem_map.mp hmem
    exact hnew x hx hkey
  entry := by
    intro x hx
    rcases List.mem_cons.mp hx with rfl | hx
    · exact ⟨hdir, rfl, rfl⟩
    · exact hs.entry x hx
  present := by
    intro x hx
    rcases List.mem_cons.mp hx with rfl | hx
    · exact Function.update_self _ _ _
    · have hne : x.2.path ≠ s.target u := by
        intro hpath
        apply hnew x hx
        rw [← (hs.entry x hx).2.1, hpath]
        rfl
      exact (Function.update_of_ne hne _ _).trans (hs.present x hx)
  held := by
    intro x hx
    by_cases hpath : x.2.path = s.target u
    · rw [hpath, hheld x hx hpath]
      exact Function.update_self _ _ _
    · exact (Function.update_of_ne hpath _ _).trans (hs.held x hx)

/-- A live handle on the written path must stand for the bytes written. -/
theorem bytes_of_intact_stored (hstored : Intact (s.stored p u shape)) :
    ∀ x ∈ s.handles, x.2.path = s.target u → x.2.bytes = u.data := by
  intro x hx hpath
  have hfile : Function.update s.files (s.target u) (some u.data) x.2.path =
      some x.2.bytes := hstored.held x hx
  rw [hpath, Function.update_self] at hfile
  exact (Option.some.inj hfile).symm

end Stored

section Steps

variable {p : Platform δ} {s t : Store δ}

/-- What is proved about each step: `Careful` is enough and needed. -/
def ExactStep (p : Platform δ) (s : Store δ) (e : Event) (t : Store δ) : Prop :=
  (Careful p s e → Filed t) ∧ (Intact t → Careful p s e)

theorem acquire_exact (hs : Filed s) (stateId : Name) (handle : Nat) :
    ExactStep p s (.acquire stateId handle) (s.acquire stateId handle) := by
  refine ⟨fun _ => ?_, fun _ => trivial⟩
  unfold Store.acquire
  cases hlookup : s.states.lookup stateId with
  | none => exact hs
  | some e =>
      refine { hs with held := ?_ }
      intro x hx
      rcases List.mem_cons.mp hx with rfl | hx
      · exact hs.present (stateId, e) (mem_of_lookup hlookup)
      · exact hs.held x hx

theorem mem_of_handle_lookup {handles : List (Nat × Entry δ)} {handle : Nat}
    {e : Entry δ} (h : handles.lookup handle = some e) : (handle, e) ∈ handles := by
  obtain ⟨front, back, heq, -⟩ := List.lookup_eq_some_iff.mp h
  rw [heq]
  simp

theorem copyHandle_exact (hs : Filed s) (handle copy : Nat) :
    ExactStep p s (.copyHandle handle copy) (s.copyHandle handle copy) := by
  refine ⟨fun _ => ?_, fun _ => trivial⟩
  refine { hs with held := ?_ }
  intro x hx
  rcases List.mem_append.mp hx with hx | hx
  · rw [Option.mem_toList, Option.map_eq_some_iff] at hx
    obtain ⟨e, hlookup, rfl⟩ := hx
    exact hs.held (handle, e) (mem_of_handle_lookup hlookup)
  · exact hs.held x hx

theorem release_exact (hs : Filed s) (handle : Nat) :
    ExactStep p s (.release handle) (s.release handle) := by
  refine ⟨fun _ => ?_, fun _ => trivial⟩
  exact { hs with held := fun x hx => hs.held x (List.mem_of_mem_filter hx) }

theorem destroy_exact (hs : Filed s) {serial : Nat} (hstep : s.destroy serial = some t) :
    ExactStep p s (.destroy serial) t := by
  unfold Store.destroy at hstep
  cases hfind : s.dying.find? (fun e => e.serial = serial) with
  | none => simp [hfind] at hstep
  | some e =>
      rw [hfind] at hstep
      obtain rfl := Option.some.inj hstep
      constructor
      · intro hcareful
        obtain ⟨hstates, hheld⟩ := hcareful e hfind
        have hfiled := filed_removeFile hs hstates hheld
        exact { hfiled with }
      · intro hintact e' he'
        obtain rfl : e = e' := Option.some.inj (hfind.symm.trans he')
        exact (removeFile_intact_iff hs e.path).mp { hintact with }

theorem erase_exact (hs : Filed s) (stateId : Name) :
    ExactStep p s (.erase stateId) (s.erase stateId).1 := by
  unfold Store.erase
  cases hlookup : s.states.lookup stateId with
  | none =>
      refine ⟨fun _ => hs, fun _ e he => ?_⟩
      rw [hlookup] at he
      exact absurd he (by simp)
  | some e =>
      have hmem := mem_of_lookup hlookup
      have hfiled : Filed
          { s with states := s.states.filter (fun x => x.1 ≠ stateId) } :=
        { keys := hs.keys.sublist (List.filter_sublist.map _)
          entry := fun x hx => hs.entry x (List.mem_of_mem_filter hx)
          present := fun x hx => hs.present x (List.mem_of_mem_filter hx)
          held := hs.held }
      have hfree : ∀ x ∈ s.states.filter (fun x => x.1 ≠ stateId),
          x.2.path ≠ e.path := by
        intro x hx
        have hkey : x.1 ≠ stateId := by simpa using List.of_mem_filter hx
        exact path_ne_of_key_ne hs (List.mem_of_mem_filter hx) hmem hkey
      dsimp only
      cases href : Store.referenced
          { s with states := s.states.filter (fun x => x.1 ≠ stateId) } e with
      | true =>
          refine ⟨fun _ => hfiled, fun _ e' he' href' => ?_⟩
          obtain rfl : e = e' := Option.some.inj (hlookup.symm.trans he')
          rw [href] at href'
          exact absurd href' (by simp)
      | false =>
          constructor
          · intro hcareful
            exact filed_removeFile hfiled hfree (hcareful e hlookup href)
          · intro hintact e' he' _
            obtain rfl : e = e' := Option.some.inj (hlookup.symm.trans he')
            exact ((removeFile_intact_iff hfiled e.path).mp hintact).2

theorem shutdown_exact (s : Store δ) :
    ExactStep p s .shutdown s.shutdown := by
  refine ⟨fun _ => ?_, fun _ => trivial⟩
  unfold Store.shutdown
  cases s.directory with
  | none => exact ⟨List.nodup_nil, by simp, by simp, by simp⟩
  | some directory => exact ⟨List.nodup_nil, by simp, by simp, by simp⟩

variable [DecidableEq δ]

theorem upload_exact (hs : Filed s) (u : Upload) :
    ExactStep p s (.upload u) (s.upload p u).1 := by
  rcases upload_cases p s u with ⟨hwrites, hsame⟩ | ⟨hwrites, hsave⟩
  · refine ⟨fun _ => ?_, fun _ h => absurd h hwrites⟩
    rcases hsame with heq | heq
    · rw [heq]
      exact hs
    · rw [heq]
      exact filed_opened hs
  have hopen := filed_opened (u := u) hs
  have hnew : ∀ x ∈ (s.opened u).states, x.1 ≠ u.stateId :=
    ne_of_lookup_none hwrites.2.2
  have hfree : ∀ x ∈ (s.opened u).states, x.2.path ≠ (s.opened u).target u := by
    intro x hx hpath
    apply hnew x hx
    rw [← (hopen.entry x hx).2.1, hpath]
    rfl
  rw [ExactStep, hsave]
  rcases save_cases p (s.opened u) u with ⟨hcreates, heq⟩ | ⟨shape, hcreates, h⟩
  · -- the handler removes the path
    rw [heq]
    constructor
    · intro hcareful
      refine filed_removeFile hopen hfree (fun x hx hpath => ?_)
      exact hcreates ((hcareful hwrites).2 x hx hpath).1
    · intro hintact _
      refine ⟨fun h => absurd h hcreates, fun x hx hpath => ?_⟩
      exact absurd hpath (((removeFile_intact_iff hopen _).mp hintact).2 x hx)
  rcases h with ⟨hret, heq⟩ | ⟨hret, heq⟩
  · rw [heq]
    constructor
    · intro hcareful
      exact filed_stored hopen rfl hnew
        (fun x hx hpath => ((hcareful hwrites).2 x hx hpath).2)
    · intro hintact _
      exact ⟨fun _ => hret, fun x hx hpath =>
        ⟨hcreates, bytes_of_intact_stored hintact x hx hpath⟩⟩
  · -- the entry stays in the map while the handler removes its file
    rw [heq]
    constructor
    · intro hcareful
      exact absurd hret ((hcareful hwrites).1 hcreates)
    · intro hintact
      exfalso
      have hkeys : ((s.opened u).stored p u shape).states.map Prod.fst |>.Nodup := by
        refine List.nodup_cons.mpr ⟨fun hmem => ?_, hopen.keys⟩
        obtain ⟨x, hx, hkey⟩ := List.mem_map.mp hmem
        exact hnew x hx hkey
      have hgone : (((s.opened u).stored p u shape).removeFile
          ((s.opened u).target u)).files ((s.opened u).entryOf p u shape).path = none :=
        removeFile_files_self _
      refine not_intact_of_listed
        (s := ((s.opened u).stored p u shape).removeFile ((s.opened u).target u))
        (x := (u.stateId, (s.opened u).entryOf p u shape))
        hkeys List.mem_cons_self rfl ?_ hintact
      rw [hgone]
      simp

/-- Every step keeps the files in place exactly when it is `Careful`. -/
theorem step_exact (hs : Filed s) {e : Event} (hstep : step p s e = some t) :
    ExactStep p s e t := by
  cases e with
  | upload u => exact Option.some.inj hstep ▸ upload_exact hs u
  | acquire stateId handle => exact Option.some.inj hstep ▸ acquire_exact hs stateId handle
  | copyHandle handle copy => exact Option.some.inj hstep ▸ copyHandle_exact hs handle copy
  | release handle => exact Option.some.inj hstep ▸ release_exact hs handle
  | destroy serial => exact destroy_exact hs hstep
  | erase stateId => exact Option.some.inj hstep ▸ erase_exact hs stateId
  | list => exact Option.some.inj hstep ▸ ⟨fun _ => hs, fun _ => trivial⟩
  | shutdown => exact Option.some.inj hstep ▸ shutdown_exact s

theorem careful_of_disabled {e : Event} (hstep : step p s e = none) : Careful p s e := by
  cases e with
  | destroy serial =>
      intro e he
      have hfind : s.dying.find? (fun e => e.serial = serial) = some e := he
      simp [step, Store.destroy, hfind] at hstep
  | _ => simp [step] at hstep

/-- All states of a run are intact exactly when all its steps are careful. -/
theorem intact_run_iff (p : Platform δ) (events : List Event) :
    (∀ before, before <+: events →
        ∀ s, exec (step p) create before = some s → Intact s) ↔
      StepsMeet (step p) (Careful p) create events := by
  refine forall_prefix_iff_stepsMeet (I := Filed) ?_ ?_ ?_ ?_ filed_create events
  · intro s e hdisabled
    exact careful_of_disabled hdisabled
  · intro s e t hs hstep
    have hexact := step_exact hs hstep
    exact ⟨hexact.2, fun hcareful => intact_of_filed (hexact.1 hcareful)⟩
  · intro s e t hs hcareful hstep
    exact (step_exact hs hstep).1 hcareful
  · intro s hs
    exact intact_of_filed hs

end Steps

end Safety

section Example

/-- A platform that accepts every file. -/
def lenient : Platform Bytes where
  sha256 data := data
  uploadedAt _ := []
  validateStatePth _ := .ok ⟨1, 1, 1⟩

/-- One client uploads these bytes under a UUID of its own. -/
def clientUpload (data : Bytes) : Upload where
  filename := "a.pth".toList
  data := data
  uploadUuid := "017f22e2-79b0-7cc3-98c4-dc0c0c07398f".toList
  directorySuffix := 0
  createdMs := 0
  randomBytes := []
  fault := .none

/-- Erase while a handle is held, upload the id again, release the handle. -/
def reuploadRun : List Event :=
  [.upload (clientUpload [1]), .acquire (clientUpload [1]).stateId 0,
    .erase (clientUpload [1]).stateId, .upload (clientUpload [2]), .release 0, .destroy 0]

/-- What the map and the files look like after a run. -/
def filesAfter (events : List Event) : Option (List (Nat × Option Bytes)) :=
  (exec (step lenient) create events).map (fun s =>
    s.states.map (fun x => (x.2.serial, s.files x.2.path)))

theorem reupload_loses :
    ∃ s, exec (step lenient) create reuploadRun = some s ∧ ¬Intact s := by
  have hfiles : filesAfter reuploadRun = some [(1, none)] := by decide +kernel
  rw [filesAfter, Option.map_eq_some_iff] at hfiles
  obtain ⟨s, hrun, hstates⟩ := hfiles
  refine ⟨s, hrun, fun hintact => ?_⟩
  have hmissing : ∀ x ∈ s.states, s.files x.2.path = none := by
    intro x hx
    have hmem : (x.2.serial, s.files x.2.path) ∈
        s.states.map (fun x => (x.2.serial, s.files x.2.path)) :=
      List.mem_map_of_mem hx
    rw [hstates, List.mem_singleton] at hmem
    exact (Prod.mk.inj hmem).2
  obtain ⟨x, hx, -⟩ := List.mem_map.mp (hstates ▸ List.mem_singleton_self _)
  obtain ⟨y, hy, -, -, hfile⟩ := hintact.listed x.2.info ((mem_list _).mpr ⟨x, hx, rfl⟩)
  rw [hmissing y hy] at hfile
  exact absurd hfile (by simp)

end Example

end UploadedStateStore
end RwkvLightning
