import RwkvLightning.Library.GoStrings
import RwkvLightning.Library.JsonString
import Mathlib

/-!
# Device specifications

The functions of `devices.go`: how the launcher chooses the GPUs of a process that it starts,
when two choices may meet on one card, and how a process is pinned to its choice.

**Specifications.**  A specification is a text in the style of `CUDA_VISIBLE_DEVICES`.  Only a
list of numbers is known; identifiers of cards cannot be compared and count as unknown.

**Results.**
* `devicesOverlap_eq_false_iff`: two choices pass when both are explicit, known and disjoint.
* `validateDeviceRequest_iff`: what a launcher with a card accepts.
* `pinnedTo_applyVisibleDevices`: the environment of a pinned process.
-/

namespace RwkvLightning
namespace Launcher
namespace Devices

open GoStrings (Bytes trimSpace split atoi itoa)
open JsonString (ascii)

def comma : UInt8 := 0x2C

/-- The separator of a variable and its value. -/
def equals : UInt8 := 0x3D

/-- `resolvedDevices`. -/
structure ResolvedDevices where
  spec : Bytes
  explicit : Bool
  auto : Bool
deriving DecidableEq, Repr

def ResolvedDevices.none : ResolvedDevices := { spec := [], explicit := false, auto := false }

/-- `deviceEnvVars`. -/
def deviceEnvVars : List Bytes :=
  [ascii "CUDA_VISIBLE_DEVICES", ascii "HIP_VISIBLE_DEVICES", ascii "ROCR_VISIBLE_DEVICES"]

def knownDeviceVar (key : Bytes) : Bool := deviceEnvVars.contains key

section Sets

/-- One part of a specification. -/
def addDevice (out : Finset ℕ) (part : Bytes) : Option (Finset ℕ) :=
  let part := trimSpace part
  if part = [] then Option.none
  else
    match atoi part with
    | Option.none => Option.none
    | some n => if n < 0 then Option.none else some (insert n.toNat out)

/-- `parseDeviceSet`. -/
def parseDeviceSet (spec : Bytes) : Option (Finset ℕ) :=
  if spec = [] then Option.none else (split spec comma).foldlM addDevice ∅

/-- `sameDeviceSet`. -/
def sameDeviceSet (a b : Finset ℕ) : Bool := a.card = b.card ∧ ∀ d ∈ a, d ∈ b

/-- `devicesOverlap`. -/
def devicesOverlap (a b : ResolvedDevices) : Bool :=
  if !a.explicit || !b.explicit then true
  else
    match parseDeviceSet a.spec, parseDeviceSet b.spec with
    | some sa, some sb => ∃ d ∈ sa, d ∈ sb
    | _, _ => true

end Sets

section Choice

/-- What the sampler knows of a card. -/
structure GpuSample where
  index : ℕ
  memoryTotalBytes : ℕ
  memoryUsedBytes : ℕ
deriving DecidableEq, Repr

/-- One pass of `pickFreestDevice`; the best card so far with its free memory. -/
def freer (best : Option (ℕ × ℕ)) (gpu : GpuSample) : Option (ℕ × ℕ) :=
  let free := if gpu.memoryUsedBytes < gpu.memoryTotalBytes
    then gpu.memoryTotalBytes - gpu.memoryUsedBytes else 0
  match best with
  | Option.none => some (gpu.index, free)
  | some (index, bestFree) => if bestFree < free then some (gpu.index, free)
      else some (index, bestFree)

/-- `pickFreestDevice`. -/
def pickFreestDevice (gpus : List GpuSample) : Bytes :=
  match gpus.foldl freer Option.none with
  | Option.none => []
  | some (index, _) => itoa index

/-- One line of `freestFromSmiCSV`. -/
def freerLine (best : Option (ℤ × ℤ)) (line : Bytes) : Option (ℤ × ℤ) :=
  match split (trimSpace line) comma with
  | [first, second] =>
      match atoi (trimSpace first), atoi (trimSpace second) with
      | some index, some mib =>
          if index < 0 ∨ mib < 0 then best
          else
            match best with
            | Option.none => some (index, mib)
            | some (_, bestFree) => if bestFree < mib then some (index, mib) else best
      | _, _ => best
  | _ => best

/-- `freestFromSmiCSV`. -/
def freestFromSmiCSV (out : Bytes) : Bytes :=
  match (split out 0x0A).foldl freerLine Option.none with
  | Option.none => []
  | some (index, _) => itoa index.toNat

/-- `sampleFreestDevice`: the cards that are sampled, else the output of `nvidia-smi`. -/
def sampleFreestDevice (gpus : List GpuSample) (smi : Option Bytes) : Bytes :=
  if gpus ≠ [] then pickFreestDevice gpus
  else
    match smi with
    | Option.none => []
    | some out => freestFromSmiCSV out

/-- The variable that an entry of an environment sets. -/
def keyOf (entry : Bytes) : Bytes := entry.takeWhile (· ≠ equals)

/-- `os.Getenv`. -/
def getenv (environ : List Bytes) (name : Bytes) : Bytes :=
  match environ.find? (fun entry => (name ++ [equals]).isPrefixOf entry) with
  | Option.none => []
  | some entry => entry.drop (name.length + 1)

/-- `resolveVisibleDevices`; `sampled` is what auto placement would choose. -/
def resolveVisibleDevices (card : Bytes) (environ : List Bytes) (sampled : Bytes) :
    Option Bytes → ResolvedDevices
  | some visible =>
      if visible = [] then ResolvedDevices.none
      else { spec := trimSpace visible, explicit := true, auto := false }
  | Option.none =>
      if card ≠ [] then { spec := trimSpace card, explicit := true, auto := false }
      else if deviceEnvVars.any fun name => getenv environ name ≠ [] then ResolvedDevices.none
      else if sampled ≠ [] then { spec := sampled, explicit := true, auto := true }
      else ResolvedDevices.none

/-- `validateDeviceRequest`: whether the request is let through. -/
def validateDeviceRequest (card : Bytes) : Option Bytes → Bool
  | Option.none => true
  | some visible =>
      if card = [] then true
      else if trimSpace visible = trimSpace card then true
      else
        match parseDeviceSet (trimSpace card), parseDeviceSet (trimSpace visible) with
        | some cs, some rs => sameDeviceSet cs rs
        | _, _ => false

/-- `applyVisibleDevices`; the second argument says whether the cards are AMD's. -/
def applyVisibleDevices (env : List Bytes) (amd : Bool) (spec : Bytes) : List Bytes :=
  if spec = [] then env
  else
    let set := if amd then [ascii "HIP_VISIBLE_DEVICES", ascii "ROCR_VISIBLE_DEVICES"]
      else [ascii "CUDA_VISIBLE_DEVICES"]
    (env.filter fun entry => !knownDeviceVar (keyOf entry)) ++
      (deviceEnvVars.filter set.contains).map fun name => name ++ [equals] ++ spec

end Choice

section Facts

variable {a b : ResolvedDevices}

theorem sameDeviceSet_iff {s t : Finset ℕ} : sameDeviceSet s t = true ↔ s = t := by
  rw [sameDeviceSet, decide_eq_true_iff]
  constructor
  · rintro ⟨hcard, hsubset⟩
    exact Finset.eq_of_subset_of_card_le hsubset hcard.ge
  · rintro rfl
    exact ⟨rfl, fun _ hd => hd⟩

/-- A choice whose devices are known. -/
def ResolvedDevices.Known (devices : ResolvedDevices) (set : Finset ℕ) : Prop :=
  devices.explicit = true ∧ parseDeviceSet devices.spec = some set

/-- Two choices pass when both are known and disjoint. -/
theorem devicesOverlap_eq_false_iff :
    devicesOverlap a b = false ↔ ∃ s t, a.Known s ∧ b.Known t ∧ Disjoint s t := by
  unfold devicesOverlap ResolvedDevices.Known
  cases ha : a.explicit
  · simp
  cases hb : b.explicit
  · simp
  cases hs : parseDeviceSet a.spec with
  | none => simp
  | some s =>
      cases ht : parseDeviceSet b.spec with
      | none => simp
      | some t => simp [Finset.disjoint_left]

theorem devicesOverlap_symm (h : devicesOverlap a b = false) : devicesOverlap b a = false := by
  obtain ⟨s, t, hs, ht, hdisjoint⟩ := devicesOverlap_eq_false_iff.mp h
  exact devicesOverlap_eq_false_iff.mpr ⟨t, s, ht, hs, hdisjoint.symm⟩

/-- An empty specification is not known. -/
theorem spec_ne_nil {devices : ResolvedDevices} {set : Finset ℕ} (h : devices.Known set) :
    devices.spec ≠ [] := by
  intro hnil
  have hparse := h.2
  rw [parseDeviceSet, if_pos hnil] at hparse
  cases hparse

/-- A specification that names the card, in its own spelling or in another one. -/
def Inside (card spec : Bytes) : Prop :=
  spec = trimSpace card ∨
    ∃ set, parseDeviceSet (trimSpace card) = some set ∧ parseDeviceSet spec = some set

/-- With a card, what is accepted is the card. -/
theorem validateDeviceRequest_iff {card visible : Bytes} (hcard : card ≠ []) :
    validateDeviceRequest card (some visible) = true ↔ Inside card (trimSpace visible) := by
  unfold validateDeviceRequest Inside
  dsimp only
  rw [if_neg hcard]
  by_cases heq : trimSpace visible = trimSpace card
  · rw [if_pos heq]
    exact iff_of_true rfl (Or.inl heq)
  · rw [if_neg heq]
    cases hc : parseDeviceSet (trimSpace card) with
    | none => simp [heq]
    | some cs =>
        cases hr : parseDeviceSet (trimSpace visible) with
        | none => simp [heq]
        | some rs =>
            dsimp only
            rw [sameDeviceSet_iff]
            constructor
            · rintro rfl
              exact Or.inr ⟨cs, rfl, rfl⟩
            · rintro (hin | ⟨set, hcs, hrs⟩)
              · exact absurd hin heq
              · exact (Option.some.inj hcs).trans (Option.some.inj hrs).symm

/-- With a card, the choice is the card. -/
theorem inside_resolve {card sampled : Bytes} {environ : List Bytes} {visible : Option Bytes}
    (hcard : trimSpace card ≠ []) (h : validateDeviceRequest card visible = true) :
    Inside card (resolveVisibleDevices card environ sampled visible).spec := by
  have hne : card ≠ [] := by
    rintro rfl
    exact hcard rfl
  cases visible with
  | none =>
      rw [resolveVisibleDevices, if_pos hne]
      exact Or.inl rfl
  | some visible =>
      have hinside := (validateDeviceRequest_iff hne).mp h
      have hnonempty : visible ≠ [] := by
        rintro rfl
        rcases hinside with heq | ⟨set, -, hparse⟩
        · exact hcard heq.symm
        · rw [GoStrings.trimSpace_nil, parseDeviceSet, if_pos rfl] at hparse
          cases hparse
      rw [resolveVisibleDevices, if_neg hnonempty]
      exact hinside

theorem ne_nil_of_inside {card spec : Bytes} (hcard : trimSpace card ≠ [])
    (h : Inside card spec) : spec ≠ [] := by
  rintro rfl
  rcases h with heq | ⟨set, -, hparse⟩
  · exact hcard heq.symm
  · rw [parseDeviceSet, if_pos rfl] at hparse
    cases hparse

/-- An environment with the specification in a device variable and nothing else in any. -/
def PinnedTo (env : List Bytes) (spec : Bytes) : Prop :=
  (∃ entry ∈ env, knownDeviceVar (keyOf entry) = true) ∧
    ∀ entry ∈ env, knownDeviceVar (keyOf entry) = true → entry = keyOf entry ++ [equals] ++ spec

theorem keyOf_entry {name : Bytes} (h : name ∈ deviceEnvVars) (spec : Bytes) :
    keyOf (name ++ [equals] ++ spec) = name := by
  have hplain : ∀ name ∈ deviceEnvVars, equals ∉ name := by decide +kernel
  have hfront : ∀ byte ∈ name, decide (byte ≠ equals) = true := by
    intro byte hbyte
    refine decide_eq_true ?_
    rintro rfl
    exact hplain name h hbyte
  unfold keyOf
  rw [List.append_assoc, List.takeWhile_append_of_pos hfront]
  simp

/-- The environment of a pinned process. -/
theorem pinnedTo_applyVisibleDevices {spec : Bytes} (hspec : spec ≠ []) (env : List Bytes)
    (amd : Bool) : PinnedTo (applyVisibleDevices env amd spec) spec := by
  rw [applyVisibleDevices, if_neg hspec]
  dsimp only
  generalize hset : (if amd = true then [ascii "HIP_VISIBLE_DEVICES", ascii "ROCR_VISIBLE_DEVICES"]
    else [ascii "CUDA_VISIBLE_DEVICES"]) = set
  constructor
  · have hname : ∃ name ∈ deviceEnvVars, name ∈ set := by
      rw [← hset]
      cases amd <;> decide
    obtain ⟨name, hin, hmem⟩ := hname
    refine ⟨name ++ [equals] ++ spec, List.mem_append_right _ ?_, ?_⟩
    · refine List.mem_map_of_mem (List.mem_filter.mpr ⟨hin, ?_⟩)
      exact List.contains_iff_mem.mpr hmem
    · rw [keyOf_entry hin]
      exact List.contains_iff_mem.mpr hin
  · intro entry hentry hknown
    rcases List.mem_append.mp hentry with hold | hnew
    · have hdropped := (List.mem_filter.mp hold).2
      rw [hknown] at hdropped
      cases hdropped
    · obtain ⟨name, hname, rfl⟩ := List.mem_map.mp hnew
      rw [keyOf_entry (List.mem_of_mem_filter hname)]

end Facts

end Devices
end Launcher
end RwkvLightning
