import RwkvLightning.Server.UploadedStateStoreSafety
import Mathlib

/-!
# Uploading an id again

An id that is live answers an identical upload with its record and refuses any other one.
An upload that fails removes the path of its id, which an erased entry may still hold.

**Results.**
* `upload_spec`: the ways in which an upload ends.
* `recorded_step`: what the map knows of its entries, after any step.
* `orderly_iff`: which uploads keep to the rules.
* `orderly_run_iff`: all steps of a run keep to them exactly when all its uploads are
  unobstructed.
-/

namespace RwkvLightning
namespace UploadedStateStore

open Association Execution

section Rules

variable {δ : Type} [DecidableEq δ]

/-- What a client relies on when it uploads. -/
structure OrderlyUpload (p : Platform δ) (s : Store δ) (u : Upload) : Prop where
  /-- A live record stays, and so does its file. -/
  kept : ∀ stateId e, s.states.lookup stateId = some e →
    (s.upload p u).1.states.lookup stateId = some e ∧
      (s.upload p u).1.files e.path = s.files e.path
  /-- What is returned is the live record of the id. -/
  entered : ∀ info, (s.upload p u).2 = .ok info →
    ∃ e, (s.upload p u).1.states.lookup u.stateId = some e ∧ e.info = info
  /-- The same name and the same bytes under a live id. -/
  repeated : ∀ e, s.states.lookup u.stateId = some e → u.fault = .none → u.uploadUuid ≠ [] →
    basenameOf u.filename = e.info.originalFilename → u.data = e.bytes →
      (s.upload p u).2 = .ok e.info
  /-- Another name or other bytes under a live id. -/
  refused : ∀ e, s.states.lookup u.stateId = some e →
    (basenameOf u.filename ≠ e.info.originalFilename ∨ u.data ≠ e.bytes) →
      (s.upload p u).2.isOk = false
  failed : (s.upload p u).2.isOk = false →
    (s.upload p u).1.list = s.list ∧ (s.upload p u).1.files = s.files

/-- A step keeps to the rules: only `erase` and `shutdown` end a record. -/
def Orderly (p : Platform δ) (s : Store δ) (event : Event) : Prop :=
  (∀ u, event = .upload u → OrderlyUpload p s u) ∧
    ∀ t, step p s event = some t → ∀ stateId e, s.states.lookup stateId = some e →
      event ≠ .erase stateId → event ≠ .shutdown → t.states.lookup stateId = some e

/-- Nothing stands in the way of an upload. -/
structure Unobstructed (p : Platform δ) (s : Store δ) (u : Upload) : Prop where
  /-- An upload that fails at its file finds no file at its path. -/
  free : s.Writes u → ¬Creates p u → s.files (s.target u) = none
  /-- The copy of the new record does not fail. -/
  returned : s.Writes u → Creates p u → u.fault ≠ .returnInfo
  /-- The hash tells the bytes of a live record from others of the same length. -/
  distinct : checkData u = .ok () → s.checkName u = .ok () →
    ∀ e, s.states.lookup u.stateId = some e → u.uploadUuid ≠ [] →
      e.info.originalFilename = basenameOf u.filename → e.info.sizeBytes = u.data.length →
        e.digest = p.sha256 u.data → u.data = e.bytes

/-- The condition on a step. -/
def Settled (p : Platform δ) (s : Store δ) : Event → Prop
  | .upload u => Unobstructed p s u
  | _ => True

end Rules

section Spec

variable {δ : Type} [DecidableEq δ] (p : Platform δ) (s : Store δ) (u : Upload)

/-- The record that an upload is compared with is the same upload. -/
def Upload.Matches (u : Upload) (e : Entry δ) : Prop :=
  u.uploadUuid ≠ [] ∧ e.info.originalFilename = basenameOf u.filename ∧
    e.info.sizeBytes = u.data.length ∧ e.digest = p.sha256 u.data

/-- The ways in which an upload ends. -/
inductive UploadEnds : Store δ → Except String UploadedStateInfo → Prop
  /-- A check before the map is looked at. -/
  | rejected {t : Store δ} {message : String} (ht : t = s ∨ t = s.opened u)
      (hcheck : ¬(checkData u = .ok () ∧ s.checkName u = .ok ())) : UploadEnds t (.error message)
  | repeated {e : Entry δ} (hdata : checkData u = .ok ()) (hname : s.checkName u = .ok ())
      (hlookup : s.states.lookup u.stateId = some e) (hmatches : u.Matches p e) :
      UploadEnds (s.opened u) (.ok e.info)
  | refused {e : Entry δ} {message : String} (hdata : checkData u = .ok ())
      (hname : s.checkName u = .ok ()) (hlookup : s.states.lookup u.stateId = some e)
      (hmatches : ¬u.Matches p e) : UploadEnds (s.opened u) (.error message)
  /-- The handler removes the path. -/
  | failed {message : String} (hwrites : s.Writes u) (hcreates : ¬Creates p u) :
      UploadEnds ((s.opened u).removeFile (s.target u)) (.error message)
  | stored {shape : Shape} (hwrites : s.Writes u) (hcreates : Creates p u)
      (hfault : u.fault ≠ .returnInfo) :
      UploadEnds ((s.opened u).stored p u shape) (.ok (s.entryOf p u shape).info)
  /-- The record stays in the map while the handler removes its file. -/
  | lost {shape : Shape} {message : String} (hwrites : s.Writes u) (hcreates : Creates p u)
      (hfault : u.fault = .returnInfo) :
      UploadEnds (((s.opened u).stored p u shape).removeFile (s.target u)) (.error message)

omit [DecidableEq δ] in
/-- The `try` block, where the map has no record of the id. -/
theorem save_spec (hwrites : s.Writes u) :
    UploadEnds p s u ((s.opened u).save p u).1 ((s.opened u).save p u).2 := by
  rw [Store.save]
  by_cases hsave : u.fault = .save
  · rw [if_pos hsave]
    exact .failed hwrites fun h => h.1 hsave
  rw [if_neg hsave]
  cases hvalid : p.validateStatePth u.data with
  | error e =>
      refine .failed hwrites fun h => ?_
      exact absurd h.2.1 (by simp [hvalid, Except.isOk, Except.toBool])
  | ok shape =>
      dsimp only
      by_cases hconstruct : u.fault = .construct
      · rw [if_pos hconstruct]
        exact .failed hwrites fun h => h.2.2 hconstruct
      have hcreates : Creates p u := ⟨hsave, by rw [hvalid]; rfl, hconstruct⟩
      rw [if_neg hconstruct]
      by_cases hreturn : u.fault = .returnInfo
      · rw [if_pos hreturn]
        exact .lost hwrites hcreates hreturn
      · rw [if_neg hreturn]
        exact .stored hwrites hcreates hreturn

theorem upload_spec : UploadEnds p s u (s.upload p u).1 (s.upload p u).2 := by
  rw [Store.upload]
  cases hdata : checkData u with
  | error e => exact .rejected (Or.inl rfl) fun h => by cases hdata.symm.trans h.1
  | ok a =>
      cases a
      cases hname : s.checkName u with
      | error e => exact .rejected (Or.inr rfl) fun h => by cases hname.symm.trans h.2
      | ok b =>
          cases b
          dsimp only
          cases hlookup : s.states.lookup u.stateId with
          | none => exact save_spec p s u ⟨hdata, hname, hlookup⟩
          | some e =>
              dsimp only
              by_cases hmatches : u.Matches p e
              · rw [Upload.Matches] at hmatches
                rw [if_pos hmatches]
                exact .repeated hdata hname hlookup hmatches
              · rw [Upload.Matches] at hmatches
                rw [if_neg hmatches]
                exact .refused hdata hname hlookup hmatches

end Spec

section Records

variable {δ : Type}

/-- What the map knows of its entries. -/
structure Recorded (p : Platform δ) (s : Store δ) : Prop where
  keys : (s.states.map Prod.fst).Nodup
  place : ∀ x ∈ s.states, s.directory = some x.2.path.1 ∧ x.2.path.2 = x.1
  stateId : ∀ x ∈ s.states, x.2.info.stateId = x.1
  content : ∀ x ∈ s.states, x.2.digest = p.sha256 x.2.bytes ∧
    x.2.info.sizeBytes = x.2.bytes.length ∧ x.2.bytes ≠ [] ∧
      x.2.bytes.length ≤ kMaxUploadedStateBytes
  name : ∀ x ∈ s.states, portable x.2.info.originalFilename = true ∧
    ∃ uuid, isUuidV7 uuid = true ∧ x.1 = stateIdOf x.2.info.originalFilename uuid

variable {p : Platform δ} {s t : Store δ} {u : Upload}

theorem recorded_create : Recorded p (create : Store δ) where
  keys := List.nodup_nil
  place := by simp [create]
  stateId := by simp [create]
  content := by simp [create]
  name := by simp [create]

/-- A step that only drops records. -/
theorem Recorded.sublist (h : Recorded p s) (hstates : t.states.Sublist s.states)
    (hdirectory : ∀ x ∈ t.states, t.directory = s.directory) : Recorded p t where
  keys := h.keys.sublist (hstates.map Prod.fst)
  place := by
    intro x hx
    rw [hdirectory x hx]
    exact h.place x (hstates.subset hx)
  stateId := fun x hx => h.stateId x (hstates.subset hx)
  content := fun x hx => h.content x (hstates.subset hx)
  name := fun x hx => h.name x (hstates.subset hx)

theorem recorded_opened (h : Recorded p s) : Recorded p (s.opened u) where
  keys := h.keys
  place := by
    intro x hx
    obtain ⟨hdirectory, hname⟩ := h.place x hx
    exact ⟨by simp [Store.opened, Store.directoryAfter, hdirectory], hname⟩
  stateId := h.stateId
  content := h.content
  name := h.name

/-- An upload that enters its record has passed the checks. -/
theorem recorded_stored (h : Recorded p s) (hwrites : s.Writes u) (shape : Shape) :
    Recorded p ((s.opened u).stored p u shape) := by
  obtain ⟨hdata, hname, hlookup⟩ := hwrites
  have hnew := ne_of_lookup_none hlookup
  have hopened : Recorded p (s.opened u) := recorded_opened h
  rw [checkData] at hdata
  split_ifs at hdata with hempty hlarge
  rw [Store.checkName] at hname
  split_ifs at hname with _ hportable _ huuid
  rw [Bool.not_eq_false] at hportable huuid
  refine { keys := ?_, place := ?_, stateId := ?_, content := ?_, name := ?_ }
  · refine List.nodup_cons.mpr ⟨fun hmem => ?_, h.keys⟩
    obtain ⟨x, hx, hkey⟩ := List.mem_map.mp hmem
    exact hnew x hx hkey
  · refine List.forall_mem_cons.mpr ⟨⟨rfl, rfl⟩, hopened.place⟩
  · exact List.forall_mem_cons.mpr ⟨rfl, h.stateId⟩
  · refine List.forall_mem_cons.mpr ⟨⟨rfl, rfl, hempty, not_lt.mp hlarge⟩, h.content⟩
  · exact List.forall_mem_cons.mpr ⟨⟨hportable, u.uuid, huuid, rfl⟩, h.name⟩

theorem recorded_removeFile (h : Recorded p s) (path : Path) : Recorded p (s.removeFile path) where
  keys := h.keys
  place := h.place
  stateId := h.stateId
  content := h.content
  name := h.name

theorem recorded_upload {r : Except String UploadedStateInfo} (h : Recorded p s)
    (hends : UploadEnds p s u t r) : Recorded p t := by
  have hopened : Recorded p (s.opened u) := recorded_opened h
  cases hends with
  | rejected ht hcheck =>
      rcases ht with rfl | rfl
      · exact h
      · exact hopened
  | repeated => exact hopened
  | refused => exact hopened
  | failed => exact recorded_removeFile hopened _
  | stored hwrites => exact recorded_stored h hwrites _
  | lost hwrites => exact recorded_removeFile (recorded_stored h hwrites _) _

variable [DecidableEq δ]

/-- Every step keeps the invariant. -/
theorem recorded_step (h : Recorded p s) {event : Event} (hstep : step p s event = some t) :
    Recorded p t := by
  cases event with
  | upload u =>
      obtain rfl := Option.some.inj hstep
      exact recorded_upload h (upload_spec p s u)
  | acquire stateId handle =>
      obtain rfl := Option.some.inj hstep
      rw [Store.acquire]
      split
      · exact h
      · exact h.sublist (List.Sublist.refl _) fun _ _ => rfl
  | copyHandle handle copy =>
      obtain rfl := Option.some.inj hstep
      exact h.sublist (List.Sublist.refl _) fun _ _ => rfl
  | release handle =>
      obtain rfl := Option.some.inj hstep
      exact h.sublist (List.Sublist.refl _) fun _ _ => rfl
  | destroy serial =>
      rw [step, Store.destroy] at hstep
      split at hstep
      · cases hstep
      · obtain rfl := Option.some.inj hstep
        exact h.sublist (List.Sublist.refl _) fun _ _ => rfl
  | erase stateId =>
      obtain rfl := Option.some.inj hstep
      rw [Store.erase]
      split
      · exact h
      · dsimp only
        split
        · exact h.sublist List.filter_sublist fun _ _ => rfl
        · exact h.sublist List.filter_sublist fun _ _ => rfl
  | list =>
      obtain rfl := Option.some.inj hstep
      exact h
  | shutdown =>
      obtain rfl := Option.some.inj hstep
      rw [Store.shutdown]
      split
      · exact h.sublist (List.nil_sublist _) (by simp)
      · exact h.sublist (List.nil_sublist _) (by simp)

end Records

section Exact

variable {δ : Type} {p : Platform δ} {s t : Store δ} {u : Upload}
  {r : Except String UploadedStateInfo}

/-- No upload writes or removes the file of a live record. -/
theorem file_kept (h : Recorded p s) (hlookup : s.states.lookup u.stateId = none)
    {stateId : Name} {e : Entry δ} (he : s.states.lookup stateId = some e) :
    e.path ≠ s.target u := by
  intro hpath
  have hmem := mem_of_lookup he
  have hname : e.path.2 = stateId := (h.place _ hmem).2
  refine ne_of_lookup_none hlookup _ hmem ?_
  exact hname.symm.trans (congrArg Prod.snd hpath)

/-- What an upload returns carries the id that it runs under. -/
theorem stateId_of_ends (h : Recorded p s) (hends : UploadEnds p s u t r)
    {info : UploadedStateInfo} (hr : r = .ok info) : info.stateId = u.stateId := by
  cases hends with
  | repeated hdata hname hlookup =>
      obtain rfl := Except.ok.inj hr
      exact h.stateId _ (mem_of_lookup hlookup)
  | stored hwrites hcreates hfault =>
      obtain rfl := Except.ok.inj hr
      rfl
  | rejected | refused | failed | lost => cases hr

/-- The live records and their files after an upload. -/
theorem kept_of_ends (h : Recorded p s) (hends : UploadEnds p s u t r) {stateId : Name}
    {e : Entry δ} (he : s.states.lookup stateId = some e) :
    t.states.lookup stateId = some e ∧ t.files e.path = s.files e.path := by
  have hstored : s.Writes u → ∀ shape,
      ((s.opened u).stored p u shape).states.lookup stateId = some e := by
    intro hwrites shape
    have hne : stateId ≠ u.stateId := by
      rintro rfl
      rw [hwrites.2.2] at he
      cases he
    rw [Store.stored, List.lookup_cons, beq_eq_false_iff_ne.mpr hne]
    exact he
  cases hends with
  | rejected ht hcheck =>
      rcases ht with rfl | rfl
      · exact ⟨he, rfl⟩
      · exact ⟨he, rfl⟩
  | repeated => exact ⟨he, rfl⟩
  | refused => exact ⟨he, rfl⟩
  | failed hwrites =>
      exact ⟨he, removeFile_files_ne (file_kept h hwrites.2.2 he)⟩
  | stored hwrites =>
      exact ⟨hstored hwrites _, Function.update_of_ne (file_kept h hwrites.2.2 he) _ _⟩
  | lost hwrites =>
      have hne := file_kept h hwrites.2.2 he
      refine ⟨hstored hwrites _, (removeFile_files_ne hne).trans ?_⟩
      exact Function.update_of_ne hne _ _

/-- An identical upload passes the checks that the record has passed. -/
theorem checks_of_same (h : Recorded p s) {e : Entry δ}
    (he : s.states.lookup u.stateId = some e) (hfault : u.fault = .none)
    (hname : basenameOf u.filename = e.info.originalFilename)
    (hdata : u.data = e.bytes) : checkData u = .ok () ∧ s.checkName u = .ok () := by
  have hmem := mem_of_lookup he
  obtain ⟨-, -, hempty, hlarge⟩ := h.content _ hmem
  obtain ⟨hportable, uuid, hvalid, hid⟩ := h.name _ hmem
  constructor
  · rw [checkData, hdata, if_neg hempty, if_neg (not_lt.mpr hlarge), if_neg (by simp [hfault])]
  · have hsame : u.uuid = uuid := by
      have happend : stateIdOf (basenameOf u.filename) u.uuid =
          stateIdOf (basenameOf u.filename) uuid := by
        rw [hname]
        rw [Upload.stateId, hname] at hid
        exact hid
      exact (List.cons.inj (List.append_cancel_left happend)).2
    rw [Store.checkName, if_neg (by simp [hfault]), hname, hportable, if_neg (by simp),
      if_neg (by simp [hfault]), hsame, hvalid, if_neg (by simp)]

/-- The list tells how many records there are. -/
theorem length_list (s : Store δ) : s.list.length = s.states.length := by
  rw [Store.list, List.length_mergeSort, List.length_map]

theorem entered_of_ends (hends : UploadEnds p s u t r) {info : UploadedStateInfo}
    (hr : r = .ok info) : ∃ e, t.states.lookup u.stateId = some e ∧ e.info = info := by
  cases hends with
  | repeated hdata hname hlookup => exact ⟨_, hlookup, Except.ok.inj hr⟩
  | stored hwrites hcreates hfault =>
      exact ⟨_, List.lookup_cons_self, Except.ok.inj hr⟩
  | rejected | refused | failed | lost => cases hr

/-- A live record answers the uploads that match it, and no others. -/
theorem live_of_ends (hends : UploadEnds p s u t r) (hdata : checkData u = .ok ())
    (hname : s.checkName u = .ok ()) {e : Entry δ} (he : s.states.lookup u.stateId = some e) :
    (u.Matches p e ∧ r = .ok e.info) ∨ (¬u.Matches p e ∧ r.isOk = false) := by
  cases hends with
  | rejected ht hcheck => exact absurd ⟨hdata, hname⟩ hcheck
  | repeated _ _ hlookup hmatches =>
      obtain rfl := Option.some.inj (hlookup.symm.trans he)
      exact Or.inl ⟨hmatches, rfl⟩
  | refused _ _ hlookup hmatches =>
      obtain rfl := Option.some.inj (hlookup.symm.trans he)
      exact Or.inr ⟨hmatches, rfl⟩
  | failed hwrites | stored hwrites | lost hwrites =>
      cases hwrites.2.2.symm.trans he

theorem rejected_of_ends (hends : UploadEnds p s u t r)
    (hchecks : ¬(checkData u = .ok () ∧ s.checkName u = .ok ())) : r.isOk = false := by
  cases hends with
  | rejected | refused | failed | lost => rfl
  | repeated hdata hname => exact absurd ⟨hdata, hname⟩ hchecks
  | stored hwrites => exact absurd ⟨hwrites.1, hwrites.2.1⟩ hchecks

/-- An upload that fails at its file removes it. -/
theorem removed_of_ends (hends : UploadEnds p s u t r) (hwrites : s.Writes u)
    (hcreates : ¬Creates p u) :
    t = (s.opened u).removeFile (s.target u) ∧ r.isOk = false := by
  cases hends with
  | rejected ht hcheck => exact absurd ⟨hwrites.1, hwrites.2.1⟩ hcheck
  | repeated _ _ hlookup | refused _ _ hlookup => cases hwrites.2.2.symm.trans hlookup
  | failed => exact ⟨rfl, rfl⟩
  | stored _ hcreates' | lost _ hcreates' => exact absurd hcreates' hcreates

/-- An upload that fails after `emplace` leaves its record in the map. -/
theorem listed_of_ends (hends : UploadEnds p s u t r) (hwrites : s.Writes u)
    (hcreates : Creates p u) (hfault : u.fault = .returnInfo) :
    t.states.length = s.states.length + 1 ∧ r.isOk = false := by
  cases hends with
  | rejected ht hcheck => exact absurd ⟨hwrites.1, hwrites.2.1⟩ hcheck
  | repeated _ _ hlookup | refused _ _ hlookup => cases hwrites.2.2.symm.trans hlookup
  | failed _ hcreates' => exact absurd hcreates hcreates'
  | stored _ _ hfault' => exact absurd hfault hfault'
  | lost => exact ⟨rfl, rfl⟩

theorem failed_of_ends (hends : UploadEnds p s u t r) (hclear : Unobstructed p s u)
    (hr : r.isOk = false) : t.list = s.list ∧ t.files = s.files := by
  cases hends with
  | rejected ht hcheck =>
      rcases ht with rfl | rfl
      · exact ⟨rfl, rfl⟩
      · exact ⟨rfl, rfl⟩
  | repeated | stored => cases hr
  | refused => exact ⟨rfl, rfl⟩
  | failed hwrites hcreates =>
      refine ⟨rfl, Function.update_eq_self_iff.mpr ?_⟩
      exact (hclear.free hwrites hcreates).symm
  | lost hwrites hcreates hfault => exact absurd hfault (hclear.returned hwrites hcreates)

variable [DecidableEq δ]

/-- An upload that is not obstructed keeps to the rules. -/
theorem orderly_of_unobstructed (h : Recorded p s) (hclear : Unobstructed p s u) :
    OrderlyUpload p s u := by
  have hends := upload_spec p s u
  refine
    { kept := fun stateId e he => kept_of_ends h hends he
      entered := fun info hinfo => entered_of_ends hends hinfo
      repeated := ?_
      refused := ?_
      failed := fun hfail => failed_of_ends hends hclear hfail }
  · intro e he hfault huuid hname hdata
    obtain ⟨hdata', hname'⟩ := checks_of_same h he hfault hname hdata
    obtain ⟨hdigest, hsize, -⟩ := h.content _ (mem_of_lookup he)
    rcases live_of_ends hends hdata' hname' he with ⟨-, hr⟩ | ⟨hmatches, -⟩
    · exact hr
    · refine absurd ⟨huuid, hname.symm, ?_, ?_⟩ hmatches
      · rw [hdata]
        exact hsize
      · rw [hdata]
        exact hdigest
  · intro e he hother
    by_cases hchecks : checkData u = .ok () ∧ s.checkName u = .ok ()
    · rcases live_of_ends hends hchecks.1 hchecks.2 he with ⟨hmatches, -⟩ | ⟨-, hr⟩
      · obtain ⟨huuid, hname, hsize, hdigest⟩ := hmatches
        have hsame := hclear.distinct hchecks.1 hchecks.2 e he huuid hname hsize hdigest
        rcases hother with hother | hother
        · exact absurd hname.symm hother
        · exact absurd hsame hother
      · exact hr
    · exact rejected_of_ends hends hchecks

/-- An upload that keeps to the rules is not obstructed. -/
theorem unobstructed_of_orderly (horderly : OrderlyUpload p s u) : Unobstructed p s u := by
  have hends := upload_spec p s u
  refine { free := ?_, returned := ?_, distinct := ?_ }
  · intro hwrites hcreates
    obtain ⟨ht, hr⟩ := removed_of_ends hends hwrites hcreates
    have hfiles := (horderly.failed hr).2
    rw [ht] at hfiles
    exact (congrFun hfiles (s.target u)).symm.trans (removeFile_files_self _)
  · intro hwrites hcreates hfault
    obtain ⟨hlength, hr⟩ := listed_of_ends hends hwrites hcreates hfault
    have hlist := congrArg List.length (horderly.failed hr).1
    rw [length_list, length_list] at hlist
    omega
  · intro hdata hname e he huuid horiginal hsize hdigest
    rcases live_of_ends hends hdata hname he with ⟨-, hr⟩ | ⟨hmatches, -⟩
    · by_contra hother
      have hrefused := horderly.refused e he (Or.inr hother)
      rw [hr] at hrefused
      cases hrefused
    · exact absurd ⟨huuid, horiginal, hsize, hdigest⟩ hmatches

/-- Steps other than uploads end a record only by `erase` and `shutdown`. -/
theorem lookup_kept (h : Recorded p s) {event : Event} (hstep : step p s event = some t)
    {stateId : Name} {e : Entry δ} (he : s.states.lookup stateId = some e)
    (herase : event ≠ .erase stateId) (hshutdown : event ≠ .shutdown) :
    t.states.lookup stateId = some e := by
  cases event with
  | upload u =>
      obtain rfl := Option.some.inj hstep
      exact (kept_of_ends h (upload_spec p s u) he).1
  | acquire id handle =>
      obtain rfl := Option.some.inj hstep
      rw [Store.acquire]
      split
      · exact he
      · exact he
  | destroy serial =>
      rw [step, Store.destroy] at hstep
      split at hstep
      · cases hstep
      · obtain rfl := Option.some.inj hstep
        exact he
  | erase id =>
      obtain rfl := Option.some.inj hstep
      have hne : stateId ≠ id := fun hid => herase (congrArg Event.erase hid.symm)
      rw [Store.erase]
      split
      · exact he
      · dsimp only
        split
        · exact (lookup_filter_of_ne _ hne).trans he
        · exact (lookup_filter_of_ne _ hne).trans he
  | shutdown => exact absurd rfl hshutdown
  | copyHandle | release | list =>
      obtain rfl := Option.some.inj hstep
      exact he

/-- Which steps keep to the rules. -/
theorem orderly_iff (h : Recorded p s) (event : Event) : Orderly p s event ↔ Settled p s event := by
  constructor
  · rintro ⟨hupload, -⟩
    cases event with
    | upload u => exact unobstructed_of_orderly (hupload u rfl)
    | _ => trivial
  · intro hsettled
    refine ⟨?_, fun t hstep stateId e he => lookup_kept h hstep he⟩
    rintro u rfl
    exact orderly_of_unobstructed h hsettled

end Exact

/--
All steps of a run keep to the rules exactly when all its uploads are unobstructed.
-/
theorem orderly_run_iff {δ : Type} [DecidableEq δ] (p : Platform δ) (events : List Event) :
    StepsMeet (step p) (Orderly p) create events ↔
      StepsMeet (step p) (Settled p) create events :=
  stepsMeet_congr (fun _ _ _ hs _ hstep => recorded_step hs hstep)
    (fun _ event hs => orderly_iff hs event) recorded_create events

section Example

/-- A platform that accepts the file of one byte 1. -/
def selective : Platform Bytes where
  sha256 data := data
  uploadedAt _ := []
  validateStatePth data := if data = [1] then .ok ⟨1, 1, 1⟩ else .error "invalid PTH"

/-- Erase while a handle is held. -/
def heldRun : List Event :=
  [.upload (clientUpload [1]), .acquire (clientUpload [1]).stateId 0,
    .erase (clientUpload [1]).stateId]

/-- The file of an upload before and after it, and whether it succeeds. -/
def fileAround (events : List Event) (u : Upload) : Option (Option Bytes × Bool × Option Bytes) :=
  (exec (step selective) create events).map (fun s =>
    (s.files (s.target u), (s.upload selective u).2.isOk,
      (s.upload selective u).1.files (s.target u)))

/-- An upload of other bytes fails, and removes the file of the handle. -/
theorem retry_removes_held :
    ¬StepsMeet (step selective) (Orderly selective) create
      (heldRun ++ [.upload (clientUpload [2])]) := by
  intro hmeet
  have hfile : fileAround heldRun (clientUpload [2]) = some (some [1], false, none) := by
    decide +kernel
  rw [fileAround, Option.map_eq_some_iff] at hfile
  obtain ⟨s, hrun, hs⟩ := hfile
  obtain ⟨hbefore, hafter⟩ := Prod.mk.inj hs
  obtain ⟨hfails, hgone⟩ := Prod.mk.inj hafter
  have hlast := stepsMeet_drop hrun hmeet
  have horderly : OrderlyUpload selective s (clientUpload [2]) :=
    (stepsMeet_cons rfl hlast).1.1 _ rfl
  have hsame := congrFun (horderly.failed hfails).2 (s.target (clientUpload [2]))
  rw [hbefore, hgone] at hsame
  cases hsame

end Example

end UploadedStateStore
end RwkvLightning
