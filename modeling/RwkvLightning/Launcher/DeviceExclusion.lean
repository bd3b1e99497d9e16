import RwkvLightning.Launcher.Devices
import RwkvLightning.Library.Execution
import Mathlib

/-!
# Exclusion on the GPUs

The requests that start and stop the runtime and the tuning: `start` and `runtimeLoad` of
`main.go`, `runtimeAction`, `handleTuningStart` and `jobStop` of `api.go`.

**Requests.**  The launcher's lock is held from the checks of a start to the record of its
devices, so a start is one step.  `runtimeLoad` takes the lock twice: it reads the
configuration first and switches later, with other requests in between.  Processes end when
they like.

**Results.**
* `launchRuntime_cases`, `launchTuning_cases`: what a start does.
* `Guarded.after`: every request keeps the invariant.
* `gpu_exclusion`: active processes are on disjoint cards, and a card set holds everything.
-/

namespace RwkvLightning
namespace Launcher
namespace Devices

open GoStrings (Bytes trimSpace)
open Execution

/-- The fields of `startRequest` that the requests look at. -/
structure StartRequest where
  modelPath : Bytes
  port : Bytes
  visibleDevices : Option Bytes
deriving DecidableEq, Repr

/-- A body of a start; a field may be absent. -/
structure StartBody where
  modelPath : Option Bytes
  port : Option Bytes
  visibleDevices : Option Bytes
deriving DecidableEq, Repr

/-- What a request finds outside of the launcher. -/
structure Surroundings where
  /-- whether this host has a runtime to manage -/
  agent : Bool
  /-- `os.Environ` and `backendProcessEnv` -/
  environ : List Bytes
  processEnv : List Bytes
  /-- what `sampleFreestDevice` reads -/
  gpus : List GpuSample
  smi : Option Bytes
  amd : Bool
  argsValid : Bool
  portFree : Bool
  starts : Bool
  /-- whether a process that is stopped ends within the time that is waited -/
  ends : Bool
deriving DecidableEq, Repr

/-- A process that was started. -/
structure Child where
  env : List Bytes
  devices : ResolvedDevices
deriving DecidableEq, Repr

/-- `launcher`: a process is active when it has an environment to run in.  `children` is
everything that was started. -/
structure State where
  card : Bytes
  config : StartRequest
  runtime : Option (List Bytes)
  tuning : Option (List Bytes)
  runtimeDevices : ResolvedDevices
  tuningDevices : ResolvedDevices
  loads : List StartRequest
  children : List Child
deriving DecidableEq, Repr

/-- A launcher that has just started. -/
def State.initial (card : Bytes) (config : StartRequest) : State where
  card := card
  config := config
  runtime := none
  tuning := none
  runtimeDevices := ResolvedDevices.none
  tuningDevices := ResolvedDevices.none
  loads := []
  children := []

section Steps

variable (s : State) (out : Surroundings)

def resolve (visible : Option Bytes) : ResolvedDevices :=
  resolveVisibleDevices s.card out.environ (sampleFreestDevice out.gpus out.smi) visible

/-- `launch`: the environment of the process, when it starts. -/
def launch (active : Option (List Bytes)) (spec : Bytes) : Option (List Bytes) :=
  if active.isSome then none
  else
    let env := if spec ≠ [] then applyVisibleDevices out.processEnv out.amd spec
      else out.processEnv
    if out.starts then some env else none

/-- `start`. -/
def start (req : StartRequest) : State :=
  if !validateDeviceRequest s.card req.visibleDevices then s
  else
    let devices := resolve s out req.visibleDevices
    if s.tuning.isSome && devicesOverlap devices s.tuningDevices then s
    else if s.runtime.isSome then s
    else if !out.argsValid then s
    else
      let req := if req.port = [] then { req with port := JsonString.ascii "8000" } else req
      if !out.portFree then s
      else
        match launch out s.runtime devices.spec with
        | none => s
        | some env =>
            { s with
              runtime := some env
              config := req
              runtimeDevices := devices
              children := s.children ++ [{ env := env, devices := devices }] }

/-- `stop` of a process, and whether it went well. -/
def stop (active : Option (List Bytes)) : Option (List Bytes) × Bool :=
  if active.isNone then (none, true)
  else if out.ends then (none, true) else (active, false)

/-- The runtime is stopped, and what follows is done when that went well. -/
def stopThen (next : State → State) : State :=
  let stopped := stop out s.runtime
  let s := { s with runtime := stopped.1 }
  if stopped.2 then next s else s

/-- `decode` over the saved configuration, without its devices. -/
def StartBody.over (body : StartBody) (config : StartRequest) : StartRequest where
  modelPath := body.modelPath.getD config.modelPath
  port := body.port.getD config.port
  visibleDevices := body.visibleDevices

/-- `runtimeAction("start")`; a body that does not decode is `none`. -/
def runtimeStart (body : Option StartBody) : State :=
  if !out.agent then s
  else
    match body with
    | none => s
    | some body => start s out (body.over s.config)

/-- `runtimeAction("stop")`. -/
def runtimeStop : State := stopThen s out id

/-- `runtimeAction("restart")`. -/
def runtimeRestart : State :=
  if !out.agent then s else stopThen s out fun s => start s out s.config

/-- `runtimeLoad` up to the check of its devices. -/
def loadRead (visible : Bytes) : State :=
  if !out.agent then s
  else
    let config := s.config
    if config.modelPath = [] then s
    else
      let spec := trimSpace visible
      let config := { config with visibleDevices := if spec ≠ [] then some spec else none }
      if !validateDeviceRequest s.card config.visibleDevices then s
      else { s with loads := s.loads ++ [config] }

/-- `runtimeLoad` from there on, for one of the requests under way. -/
def loadSwitch (place : ℕ) : State :=
  match s.loads[place]? with
  | none => s
  | some config =>
      let s := { s with loads := s.loads.eraseIdx place }
      if s.runtime.isSome then stopThen s out fun s => start s out config
      else start s out config

/-- `handleTuningStart`, by the devices of its body. -/
def tuningStart (body : Option (Option Bytes)) : State :=
  if !out.agent then s
  else
    match body with
    | none => s
    | some visible =>
        if !out.argsValid then s
        else if !validateDeviceRequest s.card visible then s
        else
          let devices := resolve s out visible
          if s.runtime.isSome && devicesOverlap devices s.runtimeDevices then s
          else
            match launch out s.tuning devices.spec with
            | none => s
            | some env =>
                { s with
                  tuning := some env
                  tuningDevices := devices
                  children := s.children ++ [{ env := env, devices := devices }] }

/-- `jobStop` of the tuning. -/
def tuningStop : State :=
  if !out.agent then s else { s with tuning := (stop out s.tuning).1 }

end Steps

inductive Event
  | runtimeStart (out : Surroundings) (body : Option StartBody)
  | runtimeStop (out : Surroundings)
  | runtimeRestart (out : Surroundings)
  | loadRead (out : Surroundings) (visible : Bytes)
  | loadSwitch (out : Surroundings) (place : ℕ)
  | tuningStart (out : Surroundings) (body : Option (Option Bytes))
  | tuningStop (out : Surroundings)
  | runtimeExit
  | tuningExit
deriving DecidableEq, Repr

/-- One request, or the end of a process. -/
def State.after (s : State) : Event → State
  | .runtimeStart out body => Devices.runtimeStart s out body
  | .runtimeStop out => Devices.runtimeStop s out
  | .runtimeRestart out => Devices.runtimeRestart s out
  | .loadRead out visible => Devices.loadRead s out visible
  | .loadSwitch out place => Devices.loadSwitch s out place
  | .tuningStart out body => Devices.tuningStart s out body
  | .tuningStop out => Devices.tuningStop s out
  | .runtimeExit => { s with runtime := none }
  | .tuningExit => { s with tuning := none }

def step (s : State) (event : Event) : Option State := some (s.after event)

section Cases

variable {s : State} {out : Surroundings}

/-- A process that is launched with a specification is pinned to it. -/
theorem pinnedTo_launch {active : Option (List Bytes)} {spec : Bytes} {env : List Bytes}
    (h : launch out active spec = some env) (hspec : spec ≠ []) : PinnedTo env spec := by
  unfold launch at h
  dsimp only at h
  rw [if_pos hspec] at h
  split at h
  · cases h
  · split at h
    · rw [← Option.some.inj h]
      exact pinnedTo_applyVisibleDevices hspec _ _
    · cases h

/-- A start of the runtime fails, or puts it on devices that are let through and do not meet
those of an active tuning. -/
theorem start_cases (s : State) (out : Surroundings) (req : StartRequest) :
    start s out req = s ∨ ∃ env config,
      let devices := resolve s out req.visibleDevices
      start s out req = { s with
          runtime := some env
          config := config
          runtimeDevices := devices
          children := s.children ++ [{ env := env, devices := devices }] } ∧
        validateDeviceRequest s.card req.visibleDevices = true ∧
        (s.tuning.isSome = true → devicesOverlap devices s.tuningDevices = false) ∧
        (devices.spec ≠ [] → PinnedTo env devices.spec) := by
  unfold start
  by_cases hvalid : validateDeviceRequest s.card req.visibleDevices = true
  · rw [hvalid, if_neg (by simp)]
    dsimp only
    by_cases hmeet : (s.tuning.isSome &&
        devicesOverlap (resolve s out req.visibleDevices) s.tuningDevices) = true
    · rw [if_pos hmeet]
      exact Or.inl rfl
    rw [if_neg hmeet]
    split
    · exact Or.inl rfl
    split
    · exact Or.inl rfl
    split
    · exact Or.inl rfl
    split
    · exact Or.inl rfl
    · next env hlaunch =>
        refine Or.inr ⟨env, _, rfl, rfl, fun hactive => ?_, pinnedTo_launch hlaunch⟩
        rw [hactive, Bool.true_and] at hmeet
        exact Bool.not_eq_true _ ▸ hmeet
  · rw [Bool.not_eq_true] at hvalid
    rw [hvalid]
    exact Or.inl rfl

/-- A start of the tuning, likewise. -/
theorem tuningStart_cases (s : State) (out : Surroundings) (body : Option (Option Bytes)) :
    tuningStart s out body = s ∨ ∃ env visible,
      let devices := resolve s out visible
      tuningStart s out body = { s with
          tuning := some env
          tuningDevices := devices
          children := s.children ++ [{ env := env, devices := devices }] } ∧
        validateDeviceRequest s.card visible = true ∧
        (s.runtime.isSome = true → devicesOverlap devices s.runtimeDevices = false) ∧
        (devices.spec ≠ [] → PinnedTo env devices.spec) := by
  unfold tuningStart
  split
  · exact Or.inl rfl
  cases body with
  | none => exact Or.inl rfl
  | some visible =>
      dsimp only
      split
      · exact Or.inl rfl
      by_cases hvalid : validateDeviceRequest s.card visible = true
      · rw [hvalid, if_neg (by simp)]
        by_cases hmeet : (s.runtime.isSome &&
            devicesOverlap (resolve s out visible) s.runtimeDevices) = true
        · rw [if_pos hmeet]
          exact Or.inl rfl
        rw [if_neg hmeet]
        split
        · exact Or.inl rfl
        · next env hlaunch =>
            refine Or.inr ⟨env, visible, rfl, hvalid, fun hactive => ?_, pinnedTo_launch hlaunch⟩
            rw [hactive, Bool.true_and] at hmeet
            exact Bool.not_eq_true _ ▸ hmeet
      · rw [Bool.not_eq_true] at hvalid
        rw [hvalid]
        exact Or.inl rfl

end Cases

section Invariant

/-- Active processes are pinned to the devices on record, and these do not meet. -/
structure Guarded (card : Bytes) (s : State) : Prop where
  same : s.card = card
  runtime : ∀ env, s.runtime = some env → s.runtimeDevices.spec ≠ [] →
    PinnedTo env s.runtimeDevices.spec
  tuning : ∀ env, s.tuning = some env → s.tuningDevices.spec ≠ [] →
    PinnedTo env s.tuningDevices.spec
  apart : s.runtime.isSome = true → s.tuning.isSome = true →
    devicesOverlap s.runtimeDevices s.tuningDevices = false
  inside : trimSpace card ≠ [] → ∀ child ∈ s.children,
    PinnedTo child.env child.devices.spec ∧ Inside card child.devices.spec

theorem guarded_initial (card : Bytes) (config : StartRequest) :
    Guarded card (State.initial card config) where
  same := rfl
  runtime := fun _ henv => nomatch henv
  tuning := fun _ henv => nomatch henv
  apart := fun hactive => nomatch hactive
  inside := fun _ _ hchild => absurd hchild List.not_mem_nil

variable {card : Bytes} {s : State}

/-- A process that was started joins the others. -/
theorem Guarded.children (h : Guarded card s) {out : Surroundings} {env : List Bytes} {visible : Option Bytes}
    (hvalid : validateDeviceRequest s.card visible = true)
    (hpinned : (resolve s out visible).spec ≠ [] → PinnedTo env (resolve s out visible).spec)
    (hcard : trimSpace card ≠ []) :
    ∀ child ∈ s.children ++ [{ env := env, devices := resolve s out visible }],
      PinnedTo child.env child.devices.spec ∧ Inside card child.devices.spec := by
  intro child hchild
  rcases List.mem_append.mp hchild with hold | hnew
  · exact h.inside hcard child hold
  · rw [List.mem_singleton.mp hnew]
    rw [h.same] at hvalid
    have hinside : Inside card (resolve s out visible).spec := by
      rw [resolve, h.same]
      exact inside_resolve hcard hvalid
    exact ⟨hpinned (ne_nil_of_inside hcard hinside), hinside⟩

theorem Guarded.start (h : Guarded card s) (out : Surroundings) (req : StartRequest) :
    Guarded card (start s out req) := by
  rcases start_cases s out req with heq | ⟨env, config, heq, hvalid, hmeet, hpinned⟩
  · rwa [heq]
  · rw [heq]
    refine ⟨h.same, ?_, h.tuning, fun _ => hmeet, h.children hvalid hpinned⟩
    intro env' henv
    rw [← Option.some.inj henv]
    exact hpinned

theorem Guarded.tuningStart (h : Guarded card s) (out : Surroundings)
    (body : Option (Option Bytes)) : Guarded card (tuningStart s out body) := by
  rcases tuningStart_cases s out body with heq | ⟨env, visible, heq, hvalid, hmeet, hpinned⟩
  · rwa [heq]
  · rw [heq]
    refine ⟨h.same, h.runtime, ?_, fun hactive _ => devicesOverlap_symm (hmeet hactive),
      h.children hvalid hpinned⟩
    intro env' henv
    rw [← Option.some.inj henv]
    exact hpinned

/-- Without one of the processes the rest stays guarded. -/
theorem Guarded.runtime_of (h : Guarded card s) {active : Option (List Bytes)}
    (hactive : active = none ∨ active = s.runtime) :
    Guarded card { s with runtime := active } := by
  rcases hactive with rfl | rfl
  · exact ⟨h.same, fun _ henv => (nomatch henv), h.tuning, fun hactive => (nomatch hactive),
      h.inside⟩
  · exact h

theorem Guarded.tuning_of (h : Guarded card s) {active : Option (List Bytes)}
    (hactive : active = none ∨ active = s.tuning) :
    Guarded card { s with tuning := active } := by
  rcases hactive with rfl | rfl
  · exact ⟨h.same, h.runtime, fun _ henv => (nomatch henv), fun _ hactive => (nomatch hactive),
      h.inside⟩
  · exact h

theorem stop_cases (out : Surroundings) (active : Option (List Bytes)) :
    (stop out active).1 = none ∨ (stop out active).1 = active := by
  unfold stop
  split
  · exact Or.inl rfl
  · split
    · exact Or.inl rfl
    · exact Or.inr rfl

theorem Guarded.stopThen (h : Guarded card s) (out : Surroundings) {next : State → State}
    (hnext : ∀ t, Guarded card t → Guarded card (next t)) :
    Guarded card (stopThen s out next) := by
  have hstopped := h.runtime_of (stop_cases out s.runtime)
  unfold Devices.stopThen
  dsimp only
  split
  · exact hnext _ hstopped
  · exact hstopped

/-- Only the requests under way change. -/
theorem Guarded.loads (h : Guarded card s) (loads : List StartRequest) :
    Guarded card { s with loads := loads } :=
  ⟨h.same, h.runtime, h.tuning, h.apart, h.inside⟩

theorem Guarded.loadRead (h : Guarded card s) (out : Surroundings) (visible : Bytes) :
    Guarded card (loadRead s out visible) := by
  unfold Devices.loadRead
  dsimp only
  by_cases hagent : out.agent = false
  · rwa [hagent]
  rw [Bool.not_eq_false] at hagent
  rw [hagent, if_neg (by simp)]
  by_cases hmodel : s.config.modelPath = []
  · rwa [if_pos hmodel]
  rw [if_neg hmodel]
  generalize (if trimSpace visible ≠ [] then some (trimSpace visible) else none) = devices
  split
  · exact h
  · exact h.loads _

theorem Guarded.loadSwitch (h : Guarded card s) (out : Surroundings) (place : ℕ) :
    Guarded card (loadSwitch s out place) := by
  unfold Devices.loadSwitch
  split
  · exact h
  · next config _ =>
      have hless := h.loads (s.loads.eraseIdx place)
      dsimp only
      split
      · exact hless.stopThen out fun t ht => ht.start out config
      · exact hless.start out config

theorem Guarded.runtimeStart (h : Guarded card s) (out : Surroundings)
    (body : Option StartBody) : Guarded card (runtimeStart s out body) := by
  unfold Devices.runtimeStart
  split
  · exact h
  · cases body with
    | none => exact h
    | some body => exact h.start out _

theorem Guarded.runtimeRestart (h : Guarded card s) (out : Surroundings) :
    Guarded card (runtimeRestart s out) := by
  unfold Devices.runtimeRestart
  split
  · exact h
  · exact h.stopThen out fun t ht => ht.start out t.config

theorem Guarded.tuningStop (h : Guarded card s) (out : Surroundings) :
    Guarded card (tuningStop s out) := by
  unfold Devices.tuningStop
  split
  · exact h
  · exact h.tuning_of (stop_cases out s.tuning)

/-- Every request keeps the invariant. -/
theorem Guarded.after (h : Guarded card s) (event : Event) : Guarded card (s.after event) := by
  cases event with
  | runtimeStart out body => exact h.runtimeStart out body
  | runtimeStop out => exact h.stopThen out fun _ ht => ht
  | runtimeRestart out => exact h.runtimeRestart out
  | loadRead out visible => exact h.loadRead out visible
  | loadSwitch out place => exact h.loadSwitch out place
  | tuningStart out body => exact h.tuningStart out body
  | tuningStop out => exact h.tuningStop out
  | runtimeExit => exact h.runtime_of (Or.inl rfl)
  | tuningExit => exact h.tuning_of (Or.inl rfl)

/-- The environment puts a process on a set of devices. -/
def OnDevices (env : List Bytes) (set : Finset ℕ) : Prop :=
  ∃ spec, PinnedTo env spec ∧ parseDeviceSet spec = some set

/-- **Exclusion on the GPUs.**  In every state that the requests reach, a runtime and a tuning
that are active together run on known and disjoint devices, and with a card set everything that
was started is pinned inside it. -/
theorem gpu_exclusion (card : Bytes) (config : StartRequest) (events : List Event) (s : State)
    (h : exec step (State.initial card config) events = some s) :
    (∀ env env', s.runtime = some env → s.tuning = some env' →
      ∃ set set', OnDevices env set ∧ OnDevices env' set' ∧ Disjoint set set') ∧
      (trimSpace card ≠ [] → ∀ child ∈ s.children,
        PinnedTo child.env child.devices.spec ∧ Inside card child.devices.spec) := by
  have hguarded : Guarded card s := by
    refine exec_invariant_all (fun t event u ht hstep => ?_) (guarded_initial card config) h
    rw [← Option.some.inj hstep]
    exact ht.after event
  refine ⟨fun env env' henv henv' => ?_, hguarded.inside⟩
  have hapart := hguarded.apart (by rw [henv]; rfl) (by rw [henv']; rfl)
  obtain ⟨set, set', hset, hset', hdisjoint⟩ := devicesOverlap_eq_false_iff.mp hapart
  exact ⟨set, set', ⟨_, hguarded.runtime env henv (spec_ne_nil hset), hset.2⟩,
    ⟨_, hguarded.tuning env' henv' (spec_ne_nil hset'), hset'.2⟩, hdisjoint⟩

/-- A runtime on one card, then a tuning on another one. -/
def twoCards : List Event :=
  let out : Surroundings :=
    { agent := true, environ := [], processEnv := [JsonString.ascii "CUDA_VISIBLE_DEVICES=0,1"],
      gpus := [], smi := none, amd := false, argsValid := true, portFree := true, starts := true,
      ends := true }
  let body : StartBody :=
    { modelPath := some (JsonString.ascii "model.pth"), port := none,
      visibleDevices := some (JsonString.ascii "0") }
  [.runtimeStart out (some body), .tuningStart out (some (some (JsonString.ascii " 1")))]

theorem gpu_exclusion_twoCards :
    ∃ s, exec step (State.initial [] { modelPath := [], port := [], visibleDevices := none })
        twoCards = some s ∧
      ∃ env env', s.runtime = some env ∧ s.tuning = some env' ∧
        ∃ set set', OnDevices env set ∧ OnDevices env' set' ∧ Disjoint set set' := by
  refine ⟨_, rfl, _, _, rfl, rfl, ?_⟩
  exact (gpu_exclusion [] _ twoCards _ rfl).1 _ _ rfl rfl

end Invariant

end Devices
end Launcher
end RwkvLightning
