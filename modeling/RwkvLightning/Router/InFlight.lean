import RwkvLightning.Router.Acknowledgment
import RwkvLightning.Router.System
import Mathlib

/-!
# Requests in flight

The scheduler counts, for each backend, the batch sizes of the requests that it serves and
the broadcasts that are going on.  A request without a session goes where the quotient of
the count and the weight is least.  The counts have 64 bits, and the quotients are doubles.

**Results.**
* `adds_step`: what each event adds to the counts.
* `choose_spec`: the loop finds the first backend with the least double.
* `accounted_iff`: which events keep the counts exact and pick a least loaded backend.
* `accounted_run_iff`: the same for runs.
* `representable_of_small`: default weights and counts up to `2 ^ 53` are enough.
-/

namespace RwkvLightning
namespace Router

open Execution

section BatchSize

/-- A value of a JSON object, as far as `batchSize` reads it. -/
inductive RawMessage where
  | array (length : Nat)
  | integer (value : Int)
  | string (value : String)
  | other
deriving DecidableEq, Repr

/-- `usesSessionAffinity`. -/
def usesSessionAffinity (path : String) : Bool :=
  "/state/".toList.isPrefixOf path.toList ||
    ["completion", "translate", "FIM", "big_batch"].any
      (fun part => decide (part.toList <:+: path.toList))

/-- The loop over the arrays: the length of the first one that is not empty. -/
def arraySize (payload : String → Option RawMessage) : Option Int :=
  ["contents", "text_list", "prompts", "inputs"].findSome? (fun key =>
    match payload key with
    | some (.array length) => if 0 < length then some length else none
    | _ => none)

/-- The loop over the numbers: the first one that is positive and has at most 64 bits. -/
def declaredSize (payload : String → Option RawMessage) : Option Int :=
  ["bsz", "batch_size"].findSome? (fun key =>
    match payload key with
    | some (.integer value) => if 0 < value ∧ value < 2 ^ 63 then some value else none
    | _ => none)

/-- `batchSize`, for a decoded body and the header `X-RWKV-Session-Id`. -/
def batchSize (path : String) (body : Option (String → Option RawMessage)) (header : String) :
    Int × String :=
  if usesSessionAffinity path = false then (1, "")
  else
    match body with
    | none => (1, "")
    | some payload =>
        let session :=
          match payload "session_id" with
          | some (.string value) => value
          | _ => ""
        let session := if session = "" then header.trimAscii.toString else session
        ((arraySize payload).getD ((declaredSize payload).getD 1), session)

end BatchSize

section Definitions

/-- A backend of the configuration: its name and its weight, which is 1 by default. -/
def configured (item : String × ℚ) : Backend where
  name := item.1
  weight := if item.2 = 0 then 1 else item.2
  inflight := 0
  unhealthy := 0

/-- The count of a backend. -/
def Scheduler.count (s : Scheduler) (b : Nat) : Option Int :=
  s.backends[b]?.map Backend.inflight

/-- The quotient of count and weight, as a rational number. -/
def Scheduler.quotient (s : Scheduler) (b : Nat) : ℚ :=
  match s.backends[b]? with
  | none => 0
  | some x => x.inflight / x.weight

/-- The backend of a session, if it is ready. -/
def Scheduler.affine (s : Scheduler) (now : Nat) (session stateId adapterId
    adapterVersion : String) : Option Nat :=
  if session = "" then none
  else (s.sessions session).filter (s.eligible now stateId adapterId adapterVersion)

/-- The other values of the starting index. -/
def System.rotated (s : System) (next : Nat) : System :=
  { s with scheduler := { s.scheduler with next := next } }

/-- The batch sizes of the requests that a backend serves, and the broadcasts. -/
def System.outstanding (s : System) (b : Nat) : Int :=
  ((s.requests.filter (fun q => q.backend = b)).map Request.bsz).sum +
    s.handlers.countP (fun h => h.phase = .sent)

/-- The counts are exact. -/
def Counted (s : System) : Prop :=
  ∀ b n, s.scheduler.count b = some n → n = s.outstanding b ∧ 0 ≤ n

/-- A request without an affine backend goes to an eligible one with the least quotient. -/
def PicksLeast (s : Scheduler) (now : Nat) (bsz : Int) (session stateId adapterId
    adapterVersion : String) : Prop :=
  s.affine now session stateId adapterId adapterVersion = none →
    (∃ c, s.eligible now stateId adapterId adapterVersion c = true) →
      ∃ b t, s.acquireWithAdapter now bsz session stateId adapterId adapterVersion = .ok (b, t) ∧
        s.eligible now stateId adapterId adapterVersion b = true ∧
          ∀ c, s.eligible now stateId adapterId adapterVersion c = true →
            s.quotient b ≤ s.quotient c

/-- What an event does, from every starting index. -/
def Accounted (s : System) (e : Event) : Prop :=
  ∀ next,
    (∀ now bsz session stateId adapterId adapterVersion,
      e = .acquire now bsz session stateId adapterId adapterVersion →
        PicksLeast (s.rotated next).scheduler now bsz session stateId adapterId adapterVersion) ∧
      ∀ t, (s.rotated next).step e = some t → Counted t

/-- The doubles tell the least quotient from the others, and the new count has 64 bits. -/
structure Told (s : System) (eligible : Nat → Bool) (amount : Int) : Prop where
  least : ∃ b, eligible b = true ∧ s.scheduler.load b < ⊤ ∧
    ∀ c, eligible c = true →
      s.scheduler.quotient b ≤ s.scheduler.quotient c ∧
        (s.scheduler.quotient b < s.scheduler.quotient c →
          s.scheduler.load b < s.scheduler.load c)
  fits : ∀ b, eligible b = true →
    (∀ c, eligible c = true → s.scheduler.load b ≤ s.scheduler.load c) →
      s.outstanding b + amount < 2 ^ 63

/-- The condition on an event. -/
def Representable (s : System) : Event → Prop
  | .acquire now bsz session stateId adapterId adapterVersion =>
      match s.scheduler.affine now session stateId adapterId adapterVersion with
      | some b => s.outstanding b + max bsz 1 < 2 ^ 63
      | none =>
          (∃ c, s.scheduler.eligible now stateId adapterId adapterVersion c = true) →
            Told s (s.scheduler.eligible now stateId adapterId adapterVersion) (max bsz 1)
  | .send k =>
      (∃ job, s.handlers[k]? = some ⟨job, .entered⟩) →
        ∀ b < s.scheduler.backends.length, s.outstanding b + 1 < 2 ^ 63
  | _ => True

end Definitions

section Sizes

/-- A declared batch size is positive; the clamp of `acquireWithAdapter` does not change it. -/
theorem one_le_batchSize (path : String) (body : Option (String → Option RawMessage))
    (header : String) : 1 ≤ (batchSize path body header).1 := by
  have harray : ∀ payload size, arraySize payload = some size → 1 ≤ size := by
    intro payload size h
    obtain ⟨key, -, hkey⟩ := List.exists_of_findSome?_eq_some h
    split at hkey
    · split_ifs at hkey with hlength
      obtain rfl := Option.some.inj hkey
      omega
    · cases hkey
  have hdeclared : ∀ payload size, declaredSize payload = some size → 1 ≤ size := by
    intro payload size h
    obtain ⟨key, -, hkey⟩ := List.exists_of_findSome?_eq_some h
    split at hkey
    · split_ifs at hkey with hvalue
      obtain rfl := Option.some.inj hkey
      omega
    · cases hkey
  unfold batchSize
  split_ifs
  · exact le_refl _
  · cases body with
    | none => exact le_refl _
    | some payload =>
        dsimp only
        cases ha : arraySize payload with
        | some size => exact harray payload size ha
        | none =>
            cases hd : declaredSize payload with
            | some size => exact hdeclared payload size hd
            | none => exact le_refl _

end Sizes

section Counts

variable {s t : Scheduler}

theorem count_of_backends (h : t.backends = s.backends) : t.count = s.count := by
  funext b
  rw [Scheduler.count, Scheduler.count, h]

theorem count_modifyBackend (s : Scheduler) (b : Nat) (f : Backend → Backend) (c : Nat) :
    (s.modifyBackend b f).count c =
      s.backends[c]?.map (fun x => if b = c then (f x).inflight else x.inflight) := by
  rw [Scheduler.count, Scheduler.modifyBackend, List.getElem?_modify]
  cases s.backends[c]? with
  | none => rfl
  | some x =>
      refine congrArg some ?_
      split_ifs <;> rfl

/-- A change of the time or of the flags leaves the counts. -/
theorem count_modifyBackend_same {f : Backend → Backend}
    (hf : ∀ x, (f x).inflight = x.inflight) (s : Scheduler) (b : Nat) :
    (s.modifyBackend b f).count = s.count := by
  funext c
  rw [count_modifyBackend]
  simp only [hf, ite_self]
  rfl

theorem count_failed (s : Scheduler) (b now : Nat) : (s.failed b now).count = s.count := by
  rw [Scheduler.failed]
  split_ifs
  · exact count_modifyBackend_same (f := fun x => { x with unhealthy := now + s.cooldown })
      (fun _ => rfl) s b
  · rfl

theorem count_confirmState (s : Scheduler) (b : Nat) (info : ListedState) :
    (s.confirmState b info).1.count = s.count := by
  rw [Scheduler.confirmState]
  split
  · rfl
  · split_ifs
    · rfl
    · rfl
    · exact count_modifyBackend_same (f := fun x => { x with unhealthy := 0 }) (fun _ => rfl) s b

theorem count_validateStateUpload (id : String) (s : Scheduler) (r : ResourceResponse) :
    (validateStateUpload id s r).1.count = s.count := by
  rw [validateStateUpload]
  split
  · rfl
  · split_ifs
    · rfl
    · exact count_confirmState s _ _

theorem count_validateAdapterUpload (m : AdapterMutation) (s : Scheduler) (canonical : String)
    (r : ResourceResponse) : (validateAdapterUpload m (s, canonical) r).1.1.count = s.count := by
  rw [validateAdapterUpload]
  split
  · rfl
  · split_ifs
    · rfl
    · rfl
    · exact count_modifyBackend_same (f := fun x => { x with unhealthy := 0 }) (fun _ => rfl) s _

theorem count_observeStateList (s : Scheduler) (b : Nat) (r : Response) (epoch : Nat) :
    (s.observeStateList b r epoch).count = s.count := by
  rw [Scheduler.observeStateList]
  split
  · split_ifs <;> rfl
  · rfl

theorem count_observeAdapterList (s : Scheduler) (b : Nat) (r : Response) (epoch : Nat) :
    (s.observeAdapterList b r epoch).count = s.count := by
  rw [Scheduler.observeAdapterList]
  split
  · dsimp only
    split_ifs <;> rfl
  · rfl

theorem count_read (job : Job) (s : Scheduler) (r : ResourceResponse) :
    (job.read s r).1.count = s.count := by
  cases job with
  | mutateState m deletes =>
      rw [Job.read]
      split_ifs
      · exact count_validateStateUpload _ _ _
      · rfl
  | mutateAdapter m deletes canonical =>
      rw [Job.read]
      split_ifs
      · exact count_validateAdapterUpload _ _ _ _
      · rfl
  | listStates epoch began => exact count_observeStateList _ _ _ _
  | listAdapters epoch began => exact count_observeAdapterList _ _ _ _

theorem count_complete (job : Job) (s : Scheduler) (rejected : Bool) :
    (job.complete s rejected).count = s.count := by
  cases job with
  | mutateState m deletes =>
      rw [Job.complete, Scheduler.finishStateMutation]
      split_ifs <;> rfl
  | mutateAdapter | listStates | listAdapters => rfl

theorem count_reserveAll (s : Scheduler) (amount : Int) (b : Nat) :
    (s.reserveAll amount).count b = (s.count b).map (fun n => Scheduler.int64 (n + amount)) := by
  rw [Scheduler.count, Scheduler.count, Scheduler.reserveAll, List.getElem?_map, Option.map_map,
    Option.map_map]
  rfl

/-- What `release` and the reservation of a request add to one count. -/
theorem count_added (s : Scheduler) (b : Nat) (amount : Int) (hs : ∀ c n, s.count c = some n →
      Scheduler.int64 n = n) (c : Nat) :
    (s.modifyBackend b (fun x =>
        { x with inflight := Scheduler.int64 (x.inflight + amount) })).count c =
      (s.count c).map (fun n => Scheduler.int64 (n + if b = c then amount else 0)) := by
  rw [count_modifyBackend]
  cases hx : s.backends[c]? with
  | none => rw [Scheduler.count, hx]; rfl
  | some x =>
      have hcount : s.count c = some x.inflight := by rw [Scheduler.count, hx]; rfl
      rw [hcount, Option.map_some, Option.map_some]
      split_ifs
      · rfl
      · rw [add_zero, hs c _ hcount]

end Counts

section Choice

variable {s : Scheduler} {now : Nat} {stateId adapterId adapterVersion : String}

/-- The loop keeps its choice where no double is less. -/
theorem choose_kept {bs : List Nat} {best : Binary64.Value} {chosen : Option Nat}
    (h : ∀ c ∈ bs, s.eligible now stateId adapterId adapterVersion c = true → best ≤ s.load c) :
    s.choose now stateId adapterId adapterVersion bs best chosen = chosen := by
  induction bs with
  | nil => rfl
  | cons x bs ih =>
      have hrest := ih fun c hc => h c (List.mem_cons_of_mem _ hc)
      rw [Scheduler.choose]
      split_ifs with hx hload
      · exact hrest
      · rw [Bool.not_eq_false] at hx
        exact absurd hload (not_lt.mpr (h x List.mem_cons_self hx))
      · exact hrest

variable (s now stateId adapterId adapterVersion) in
/-- The loop finds an eligible backend with the least double, if one is below `best`. -/
theorem choose_spec (bs : List Nat) (best : Binary64.Value) (chosen : Option Nat) :
    (s.choose now stateId adapterId adapterVersion bs best chosen = chosen ∧
      ∀ c ∈ bs, s.eligible now stateId adapterId adapterVersion c = true → best ≤ s.load c) ∨
    ∃ b, s.choose now stateId adapterId adapterVersion bs best chosen = some b ∧
      s.eligible now stateId adapterId adapterVersion b = true ∧ s.load b < best ∧
        ∀ c ∈ bs, s.eligible now stateId adapterId adapterVersion c = true →
          s.load b ≤ s.load c := by
  induction bs generalizing best chosen with
  | nil => exact Or.inl ⟨rfl, by simp⟩
  | cons x bs ih =>
      rw [Scheduler.choose]
      split_ifs with hx hload
      · refine (ih best chosen).imp (fun h => ⟨h.1, ?_⟩) ?_
        · refine List.forall_mem_cons.mpr ⟨fun h' => ?_, h.2⟩
          rw [hx] at h'
          cases h'
        · rintro ⟨b, hb, heligible, hless, hleast⟩
          refine ⟨b, hb, heligible, hless, List.forall_mem_cons.mpr ⟨fun h' => ?_, hleast⟩⟩
          rw [hx] at h'
          cases h'
      · rw [Bool.not_eq_false] at hx
        right
        rcases ih (s.load x) (some x) with ⟨hkept, hleast⟩ | ⟨b, hb, heligible, hless, hleast⟩
        · exact ⟨x, hkept, hx, hload, List.forall_mem_cons.mpr ⟨fun _ => le_refl _, hleast⟩⟩
        · exact ⟨b, hb, heligible, hless.trans hload,
            List.forall_mem_cons.mpr ⟨fun _ => hless.le, hleast⟩⟩
      · refine (ih best chosen).imp (fun h => ⟨h.1, ?_⟩) ?_
        · exact List.forall_mem_cons.mpr ⟨fun _ => not_lt.mp hload, h.2⟩
        · rintro ⟨b, hb, heligible, hless, hleast⟩
          refine ⟨b, hb, heligible, hless, List.forall_mem_cons.mpr ⟨fun _ => ?_, hleast⟩⟩
          exact hless.le.trans (not_lt.mp hload)

/-- The order in which the loop looks at the backends. -/
def Scheduler.rotation (s : Scheduler) : List Nat :=
  (List.range s.backends.length).map (fun offset => (s.next + offset) % s.backends.length)

theorem lt_of_eligible {b : Nat} (h : s.eligible now stateId adapterId adapterVersion b = true) :
    b < s.backends.length := by
  rw [Scheduler.eligible] at h
  cases hx : s.backends[b]? with
  | none => rw [hx] at h; cases h
  | some x => exact (List.getElem?_eq_some_iff.mp hx).1

/-- Every backend is looked at. -/
theorem mem_rotation {b : Nat} (hb : b < s.backends.length) : b ∈ s.rotation := by
  rw [Scheduler.rotation, List.mem_map]
  refine ⟨(b + (s.backends.length - s.next % s.backends.length)) % s.backends.length,
    List.mem_range.mpr (Nat.mod_lt _ (by omega)), ?_⟩
  have hmod : s.next % s.backends.length < s.backends.length := Nat.mod_lt _ (by omega)
  have hsplit := Nat.div_add_mod s.next s.backends.length
  rw [Nat.add_mod_mod]
  have hsum : s.next + (b + (s.backends.length - s.next % s.backends.length)) =
      b + s.backends.length * (s.next / s.backends.length + 1) := by
    rw [Nat.mul_add, Nat.mul_one]
    omega
  rw [hsum, Nat.add_mul_mod_self_left, Nat.mod_eq_of_lt hb]

/-- The backend at the starting index is the first one to be looked at. -/
theorem rotation_self (hnext : s.next < s.backends.length) :
    ∃ bs, s.rotation = s.next :: bs := by
  obtain ⟨n, hn⟩ : ∃ n, s.backends.length = n + 1 := ⟨s.backends.length - 1, by omega⟩
  refine ⟨((List.range n).map Nat.succ).map (fun offset => (s.next + offset) % (n + 1)), ?_⟩
  rw [Scheduler.rotation, hn, List.range_succ_eq_map, List.map_cons, Nat.add_zero,
    Nat.mod_eq_of_lt (hn ▸ hnext)]

end Choice

section Acquire

variable {s : Scheduler} {now : Nat} {bsz : Int}
  {session stateId adapterId adapterVersion : String}

/-- The reservation of a request. -/
def Scheduler.reserved (s : Scheduler) (b : Nat) (bsz : Int) : Scheduler :=
  s.modifyBackend b (fun x => { x with inflight := Scheduler.int64 (x.inflight + max bsz 1) })

theorem max_one (bsz : Int) : (if bsz < 1 then 1 else bsz) = max bsz 1 := by
  omega

theorem acquire_of_affine {b : Nat}
    (h : s.affine now session stateId adapterId adapterVersion = some b) :
    s.acquireWithAdapter now bsz session stateId adapterId adapterVersion =
      .ok (b, s.reserved b bsz) := by
  rw [Scheduler.affine] at h
  unfold Scheduler.acquireWithAdapter
  dsimp only
  rw [h, max_one]
  rfl

theorem acquire_of_choose
    (h : s.affine now session stateId adapterId adapterVersion = none) {b : Nat}
    (hchoose : s.choose now stateId adapterId adapterVersion s.rotation ⊤ none = some b) :
    ∃ t, s.acquireWithAdapter now bsz session stateId adapterId adapterVersion = .ok (b, t) ∧
      t.backends = (s.reserved b bsz).backends := by
  rw [Scheduler.affine] at h
  rw [Scheduler.rotation] at hchoose
  unfold Scheduler.acquireWithAdapter
  dsimp only
  rw [h]
  dsimp only
  rw [hchoose, max_one]
  refine ⟨_, rfl, ?_⟩
  split_ifs <;> rfl

theorem acquire_of_none
    (h : s.affine now session stateId adapterId adapterVersion = none)
    (hchoose : s.choose now stateId adapterId adapterVersion s.rotation ⊤ none = none) :
    (s.acquireWithAdapter now bsz session stateId adapterId adapterVersion).isOk = false := by
  rw [Scheduler.affine] at h
  rw [Scheduler.rotation] at hchoose
  unfold Scheduler.acquireWithAdapter
  dsimp only
  rw [h]
  dsimp only
  rw [hchoose]
  split_ifs <;> rfl

/-- Whatever backend is chosen, its count takes the batch size. -/
theorem acquire_backends {b : Nat} {t : Scheduler}
    (h : s.acquireWithAdapter now bsz session stateId adapterId adapterVersion = .ok (b, t)) :
    t.backends = (s.reserved b bsz).backends := by
  cases haffine : s.affine now session stateId adapterId adapterVersion with
  | some c =>
      rw [acquire_of_affine haffine] at h
      obtain ⟨rfl, rfl⟩ := Prod.mk.inj (Except.ok.inj h)
      rfl
  | none =>
      cases hchoose : s.choose now stateId adapterId adapterVersion s.rotation ⊤ none with
      | none =>
          have hfails : (s.acquireWithAdapter now bsz session stateId adapterId
              adapterVersion).isOk = false := acquire_of_none haffine hchoose
          rw [h] at hfails
          cases hfails
      | some c =>
          obtain ⟨u, hu, hbackends⟩ : ∃ u, s.acquireWithAdapter now bsz session stateId adapterId
              adapterVersion = .ok (c, u) ∧ u.backends = (s.reserved c bsz).backends :=
            acquire_of_choose haffine hchoose
          rw [hu] at h
          obtain ⟨rfl, rfl⟩ := Prod.mk.inj (Except.ok.inj h)
          exact hbackends

end Acquire

section Lists

variable {ι : Type} {l : List ι} {k : Nat} {x y : ι} {p : ι → Bool}

theorem countP_set (hx : l[k]? = some x) :
    (l.set k y).countP p + (if p x then 1 else 0) = l.countP p + (if p y then 1 else 0) := by
  induction l generalizing k with
  | nil => cases hx
  | cons a l ih =>
      cases k with
      | zero =>
          obtain rfl := Option.some.inj hx
          rw [List.set_cons_zero, List.countP_cons, List.countP_cons]
          omega
      | succ k =>
          have hrest := ih (k := k) hx
          rw [List.set_cons_succ, List.countP_cons, List.countP_cons]
          omega

theorem countP_eraseIdx (hx : l[k]? = some x) :
    (l.eraseIdx k).countP p + (if p x then 1 else 0) = l.countP p := by
  induction l generalizing k with
  | nil => cases hx
  | cons a l ih =>
      cases k with
      | zero =>
          obtain rfl := Option.some.inj hx
          rw [List.eraseIdx_cons_zero, List.countP_cons]
      | succ k =>
          have hrest := ih (k := k) hx
          rw [List.eraseIdx_cons_succ, List.countP_cons, List.countP_cons]
          omega

/-- What an entry contributes to a sum. -/
theorem sum_eraseIdx (f : ι → Int) (hx : l[k]? = some x) :
    (((l.eraseIdx k).filter p).map f).sum + (if p x then f x else 0) =
      ((l.filter p).map f).sum := by
  induction l generalizing k with
  | nil => cases hx
  | cons a l ih =>
      cases k with
      | zero =>
          obtain rfl := Option.some.inj hx
          rw [List.eraseIdx_cons_zero, List.filter_cons]
          split_ifs
          · rw [List.map_cons, List.sum_cons, add_comm]
          · rw [add_zero]
      | succ k =>
          have hrest := ih (k := k) hx
          rw [List.eraseIdx_cons_succ, List.filter_cons, List.filter_cons]
          split_ifs at hrest ⊢
          · rw [List.map_cons, List.sum_cons, List.map_cons, List.sum_cons, ← hrest, add_assoc]
          · rw [List.map_cons, List.sum_cons, List.map_cons, List.sum_cons, ← hrest, add_zero,
              add_zero]
          · exact hrest
          · exact hrest

end Lists

section Steps

variable {s t : System}

/-- The counts have 64 bits, and the requests positive sizes. -/
structure Reserved (s : System) : Prop where
  range : ∀ b n, s.scheduler.count b = some n → Scheduler.int64 n = n
  positive : ∀ q ∈ s.requests, 1 ≤ q.bsz

/-- What a step adds to the counts. -/
structure Adds (s t : System) (δ : Nat → Int) : Prop where
  count : ∀ b, t.scheduler.count b =
    (s.scheduler.count b).map (fun n => Scheduler.int64 (n + δ b))
  outstanding : ∀ b, t.outstanding b = s.outstanding b + δ b
  positive : ∀ q ∈ t.requests, 1 ≤ q.bsz

theorem int64_eq_iff (x : Int) : Scheduler.int64 x = x ↔ -2 ^ 63 ≤ x ∧ x < 2 ^ 63 := by
  rw [Scheduler.int64, Int.bmod_eq_iff (by decide)]
  constructor
  · rintro ⟨hlow, hhigh, -⟩
    norm_num at hlow hhigh
    exact ⟨by omega, by omega⟩
  · rintro ⟨hlow, hhigh⟩
    refine ⟨?_, ?_, by simp⟩
    · norm_num
      omega
    · norm_num
      omega

theorem int64_int64 (x : Int) : Scheduler.int64 (Scheduler.int64 x) = Scheduler.int64 x :=
  Int.bmod_bmod

theorem Adds.reserved {δ : Nat → Int} (h : Adds s t δ) : Reserved t where
  range := by
    intro b n hn
    rw [h.count, Option.map_eq_some_iff] at hn
    obtain ⟨m, -, rfl⟩ := hn
    exact int64_int64 _
  positive := h.positive

/-- When the counts are exact after a step. -/
theorem Adds.counted_iff {δ : Nat → Int} (h : Adds s t δ) (hs : Counted s) :
    Counted t ↔ ∀ b n, s.scheduler.count b = some n →
      0 ≤ s.outstanding b + δ b ∧ s.outstanding b + δ b < 2 ^ 63 := by
  constructor
  · intro ht b n hn
    have hcount := h.count b
    rw [hn, Option.map_some] at hcount
    obtain ⟨hexact, hpos⟩ := ht b _ hcount
    rw [h.outstanding, (hs b n hn).1] at hexact
    rw [(hs b n hn).1, hexact] at hpos
    exact ⟨hpos, ((int64_eq_iff _).mp hexact).2⟩
  · intro hall b m hm
    rw [h.count, Option.map_eq_some_iff] at hm
    obtain ⟨n, hn, rfl⟩ := hm
    obtain ⟨hpos, hless⟩ := hall b n hn
    have hexact : Scheduler.int64 (n + δ b) = s.outstanding b + δ b := by
      rw [(hs b n hn).1]
      exact (int64_eq_iff _).mpr ⟨by omega, hless⟩
    rw [hexact, h.outstanding]
    exact ⟨rfl, hpos⟩

/-- What an event adds to the counts. -/
def System.added (s : System) : Event → Nat → Int
  | .send _, _ => 1
  | .answer _ _, _ => -1
  | .respond k _, b =>
      match s.requests[k]? with
      | some q => if q.backend = b then -q.bsz else 0
      | none => 0
  | .acquire now bsz session stateId adapterId adapterVersion, c =>
      match s.scheduler.acquireWithAdapter now bsz session stateId adapterId adapterVersion with
      | .ok (b, _) => if b = c then max bsz 1 else 0
      | .error _ => 0
  | _, _ => 0

/-- A step that leaves the counts and the requests. -/
theorem adds_same (hs : Reserved s) (hcount : t.scheduler.count = s.scheduler.count)
    (hrequests : t.requests = s.requests)
    (hhandlers : t.handlers.countP (fun h => h.phase = .sent) =
      s.handlers.countP (fun h => h.phase = .sent)) : Adds s t (fun _ => 0) where
  count := by
    intro b
    rw [hcount]
    cases hn : s.scheduler.count b with
    | none => rfl
    | some n => rw [Option.map_some, add_zero, hs.range b n hn]
  outstanding := by
    intro b
    rw [System.outstanding, System.outstanding, hrequests, hhandlers, add_zero]
  positive := hrequests ▸ hs.positive

/-- A handler that is not waiting goes on with its work. -/
theorem countP_sent {k : Nat} {h h' : Handler} (hk : s.handlers[k]? = some h)
    (hphase : h.phase ≠ .sent) (hphase' : h'.phase ≠ .sent) :
    (s.handlers.set k h').countP (fun h => h.phase = .sent) =
      s.handlers.countP (fun h => h.phase = .sent) := by
  have hcount := countP_set (y := h') (p := fun h => decide (h.phase = .sent)) hk
  rw [decide_eq_false hphase, decide_eq_false hphase'] at hcount
  exact hcount

theorem count_settle (q : Request) (s : Scheduler) (reply : Reply) (hs : ∀ c n, s.count c = some n →
      Scheduler.int64 n = n) (b : Nat) :
    (q.settle s reply).count b =
      (s.count b).map (fun n => Scheduler.int64 (n + if q.backend = b then -q.bsz else 0)) := by
  have hsettled : ∀ u : Scheduler, u.count = s.count →
      (u.release q.backend q.bsz).count b =
        (s.count b).map (fun n => Scheduler.int64 (n + if q.backend = b then -q.bsz else 0)) := by
    intro u hu
    rw [← hu]
    exact count_added u q.backend (-q.bsz) (fun c n hn => hs c n (hu ▸ hn)) b
  unfold Request.settle
  refine hsettled _ ?_
  cases reply with
  | served => rfl
  | failed now => exact count_failed s q.backend now
  | refused stateGone adapterGone =>
      dsimp only
      split_ifs <;> rfl

/-- What an event adds to the counts, step by step. -/
theorem adds_act (hs : Reserved s) {e : Event} (hact : s.act e = some t) :
    Adds s t (s.added e) := by
  cases e with
  | beginState id deletes =>
      rw [System.act] at hact
      split at hact
      · cases hact
      · rename_i scheduler m hbegin
        obtain rfl := Option.some.inj hact
        obtain ⟨-, -, hbackends, -⟩ := beginStateMutation_cell hbegin
        exact adds_same hs (count_of_backends hbackends) rfl (by simp)
  | beginAdapter id deletes =>
      rw [System.act] at hact
      by_cases hid : id = ""
      · rw [if_pos hid] at hact
        cases hact
      rw [if_neg hid] at hact
      split at hact
      · cases hact
      · rename_i scheduler m hbegin
        obtain rfl := Option.some.inj hact
        obtain ⟨-, hbackends, -⟩ := beginAdapterMutation_cell hbegin
        refine adds_same hs (count_of_backends hbackends) rfl ?_
        cases deletes with
        | none => simp
        | some version => simp
  | enterDeletion k =>
      rw [System.act] at hact
      split at hact
      · rename_i m version canonical hk
        obtain rfl := Option.some.inj hact
        exact adds_same hs rfl rfl (countP_sent hk (by simp) (by simp))
      · cases hact
  | listStates =>
      obtain rfl := Option.some.inj hact
      exact adds_same hs rfl rfl (by simp)
  | listAdapters =>
      obtain rfl := Option.some.inj hact
      exact adds_same hs rfl rfl (by simp)
  | send k =>
      rw [System.act] at hact
      split at hact
      · rename_i job hk
        obtain rfl := Option.some.inj hact
        refine ⟨count_reserveAll s.scheduler 1, fun b => ?_, hs.positive⟩
        have hcount := countP_set (y := (⟨job, .sent⟩ : Handler))
          (p := fun h => decide (h.phase = .sent)) hk
        rw [decide_eq_false (by simp), decide_eq_true rfl] at hcount
        rw [System.outstanding, System.outstanding]
        dsimp only [System.added]
        simp only [if_true, Bool.false_eq_true, if_false, add_zero] at hcount
        omega
      · cases hact
  | answer k results =>
      rw [System.act] at hact
      split at hact
      · rename_i job hk
        split_ifs at hact
        obtain rfl := Option.some.inj hact
        refine ⟨count_reserveAll s.scheduler (-1), fun b => ?_, hs.positive⟩
        have hcount := countP_set (y := (⟨job, .answered
            (rejectedMutation (s.scheduler.responses results)) (s.scheduler.responses results)⟩ :
              Handler)) (p := fun h => decide (h.phase = .sent)) hk
        rw [decide_eq_true rfl, decide_eq_false (by simp)] at hcount
        rw [System.outstanding, System.outstanding]
        dsimp only [System.added]
        simp only [if_true, Bool.false_eq_true, if_false, add_zero] at hcount
        omega
      · cases hact
  | next k =>
      rw [System.act] at hact
      split at hact
      · rename_i job rejected r todo hk
        obtain rfl := Option.some.inj hact
        exact adds_same hs (count_read _ _ _) rfl (countP_sent hk (by simp) (by simp))
      · cases hact
  | finish k =>
      rw [System.act] at hact
      split at hact
      · rename_i job rejected hk
        obtain rfl := Option.some.inj hact
        refine adds_same hs (count_complete _ _ _) rfl ?_
        have hcount := countP_eraseIdx (p := fun h : Handler => decide (h.phase = .sent)) hk
        rw [decide_eq_false (by simp)] at hcount
        exact hcount
      · cases hact
  | acquire now bsz session stateId adapterId adapterVersion =>
      rw [System.act] at hact
      split at hact
      · cases hact
      · rename_i b scheduler hacquire
        obtain rfl := Option.some.inj hact
        refine ⟨fun c => ?_, fun c => ?_, ?_⟩
        · rw [count_of_backends (acquire_backends hacquire)]
          simp only [System.added, hacquire]
          exact count_added s.scheduler b (max bsz 1) hs.range c
        · simp only [System.added, hacquire]
          rw [System.outstanding, System.outstanding, List.filter_cons, max_one]
          by_cases hb : b = c
          · simp only [hb, decide_true, if_true, List.map_cons, List.sum_cons]
            omega
          · simp only [hb, decide_false, Bool.false_eq_true, if_false, add_zero]
        · refine List.forall_mem_cons.mpr ⟨?_, hs.positive⟩
          rw [max_one]
          exact le_max_right _ _
  | respond k reply =>
      rw [System.act] at hact
      split at hact
      · cases hact
      · rename_i q hk
        obtain rfl := Option.some.inj hact
        refine ⟨fun b => ?_, fun b => ?_, fun x hx => ?_⟩
        · simp only [System.added, hk]
          exact count_settle q s.scheduler reply hs.range b
        · simp only [System.added, hk]
          have hsum := sum_eraseIdx (p := fun x => decide (x.backend = b)) Request.bsz hk
          rw [System.outstanding, System.outstanding, ← hsum]
          by_cases hq : q.backend = b
          · simp only [hq, decide_true, if_true]
            omega
          · simp only [hq, decide_false, Bool.false_eq_true, if_false]
            omega
        · exact hs.positive x (List.mem_of_mem_eraseIdx hx)
  | fail b now =>
      rw [System.act] at hact
      split_ifs at hact
      obtain rfl := Option.some.inj hact
      exact adds_same hs (count_failed _ _ _) rfl rfl

end Steps

section Exact

variable {s t : System} {now : Nat} {bsz : Int}
  {session stateId adapterId adapterVersion : String}

theorem adds_step (hs : Reserved s) {e : Event} (hstep : s.step e = some t) :
    Adds s t (s.added e) := by
  obtain ⟨u, hact, rfl⟩ := step_act hstep
  obtain ⟨hcount, houtstanding, hpositive⟩ := adds_act hs hact
  exact ⟨hcount, houtstanding, hpositive⟩

/-- The starting index plays no role in the sums. -/
theorem adds_rotated (hs : Reserved s) {next : Nat} {e : Event}
    (hstep : (s.rotated next).step e = some t) : Adds s t ((s.rotated next).added e) := by
  have hrotated : Reserved (s.rotated next) := ⟨hs.range, hs.positive⟩
  obtain ⟨hcount, houtstanding, hpositive⟩ := adds_step hrotated hstep
  exact ⟨hcount, houtstanding, hpositive⟩

theorem count_lt (hs : Reserved s) (hcounted : Counted s) {b : Nat} {n : Int}
    (hn : s.scheduler.count b = some n) : 0 ≤ s.outstanding b ∧ s.outstanding b < 2 ^ 63 := by
  obtain ⟨hexact, hpos⟩ := hcounted b n hn
  have hrange := (int64_eq_iff n).mp (hs.range b n hn)
  rw [← hexact]
  exact ⟨hpos, hrange.2⟩

theorem sum_nonneg (hs : Reserved s) (p : Request → Bool) :
    0 ≤ ((s.requests.filter p).map Request.bsz).sum := by
  refine List.sum_nonneg fun n hn => ?_
  obtain ⟨q, hq, rfl⟩ := List.mem_map.mp hn
  exact (zero_le_one).trans (hs.positive q (List.mem_filter.mp hq).1)

/-- An event that reserves nothing keeps the counts exact. -/
theorem counted_of_released (hs : Reserved s) (hcounted : Counted s) {δ : Nat → Int}
    (h : Adds s t δ) (hδ : ∀ b, δ b ≤ 0) (hpos : ∀ b, 0 ≤ s.outstanding b + δ b) :
    Counted t := by
  refine (h.counted_iff hcounted).mpr fun b n hn => ⟨hpos b, ?_⟩
  have hless := (count_lt hs hcounted hn).2
  have hadded := hδ b
  omega

theorem outstanding_nonneg (hs : Reserved s) (b : Nat) : 0 ≤ s.outstanding b := by
  have hsum := sum_nonneg hs (fun q => q.backend = b)
  rw [System.outstanding]
  omega

theorem count_of_lt {s : Scheduler} {b : Nat} (hb : b < s.backends.length) :
    ∃ n, s.count b = some n := by
  rw [Scheduler.count, List.getElem?_eq_getElem hb]
  exact ⟨_, rfl⟩

section Acquire

variable {s : Scheduler}

/-- What is picked without an affine backend. -/
theorem picked (haffine : s.affine now session stateId adapterId adapterVersion = none) {b : Nat}
    {t : Scheduler}
    (h : s.acquireWithAdapter now bsz session stateId adapterId adapterVersion = .ok (b, t)) :
    s.eligible now stateId adapterId adapterVersion b = true ∧ s.load b < ⊤ ∧
      ∀ c, s.eligible now stateId adapterId adapterVersion c = true → s.load b ≤ s.load c := by
  rcases choose_spec s now stateId adapterId adapterVersion s.rotation ⊤ none with
    ⟨hnone, -⟩ | ⟨c, hc, heligible, hless, hleast⟩
  · have hfails : (s.acquireWithAdapter now bsz session stateId adapterId
        adapterVersion).isOk = false := acquire_of_none haffine hnone
    rw [h] at hfails
    cases hfails
  · obtain ⟨u, hu, -⟩ : ∃ u, s.acquireWithAdapter now bsz session stateId adapterId
        adapterVersion = .ok (c, u) ∧ u.backends = (s.reserved c bsz).backends :=
      acquire_of_choose haffine hc
    rw [hu] at h
    obtain ⟨rfl, -⟩ := Prod.mk.inj (Except.ok.inj h)
    exact ⟨heligible, hless, fun d hd => hleast d (mem_rotation (lt_of_eligible hd)) hd⟩

/-- The backend at the starting index is picked, if it has the least double. -/
theorem picked_next (haffine : s.affine now session stateId adapterId adapterVersion = none)
    (hnext : s.eligible now stateId adapterId adapterVersion s.next = true)
    (hleast : ∀ c, s.eligible now stateId adapterId adapterVersion c = true →
      s.load s.next ≤ s.load c) {b : Nat} {t : Scheduler}
    (h : s.acquireWithAdapter now bsz session stateId adapterId adapterVersion = .ok (b, t)) :
    b = s.next := by
  obtain ⟨bs, hrotation⟩ := rotation_self (lt_of_eligible hnext)
  obtain ⟨heligible, hless, -⟩ := picked haffine h
  have hload : s.load s.next < ⊤ := lt_of_le_of_lt (hleast b heligible) hless
  have hchoose : s.choose now stateId adapterId adapterVersion s.rotation ⊤ none =
      some s.next := by
    rw [hrotation, Scheduler.choose, if_neg (by simp [hnext]), if_pos hload]
    exact choose_kept fun c _ hc => hleast c hc
  obtain ⟨u, hu, -⟩ : ∃ u, s.acquireWithAdapter now bsz session stateId adapterId
      adapterVersion = .ok (s.next, u) ∧ u.backends = (s.reserved s.next bsz).backends :=
    acquire_of_choose haffine hchoose
  rw [hu] at h
  exact (Prod.mk.inj (Except.ok.inj h)).1.symm

end Acquire

/-- A request that is routed to a backend is a step. -/
theorem acquire_step {next b : Nat} {u : Scheduler}
    (h : (s.rotated next).scheduler.acquireWithAdapter now bsz session stateId adapterId
      adapterVersion = .ok (b, u)) :
    ∃ t, (s.rotated next).step (.acquire now bsz session stateId adapterId adapterVersion) =
      some t := by
  rw [System.step, System.act, h]
  exact ⟨_, rfl⟩

theorem acquire_of_step {next : Nat} {t : System}
    (h : (s.rotated next).step (.acquire now bsz session stateId adapterId adapterVersion) =
      some t) :
    ∃ b u, (s.rotated next).scheduler.acquireWithAdapter now bsz session stateId adapterId
      adapterVersion = .ok (b, u) := by
  rw [System.step, System.act] at h
  cases hacquire : (s.rotated next).scheduler.acquireWithAdapter now bsz session stateId
      adapterId adapterVersion with
  | error message => rw [hacquire] at h; cases h
  | ok x => exact ⟨x.1, x.2, rfl⟩

/-- What the condition says about the counts after a request is routed to a backend. -/
theorem counted_acquire (hs : Reserved s) (hcounted : Counted s) {next b : Nat} {u : Scheduler}
    (hb : b < s.scheduler.backends.length)
    (h : (s.rotated next).scheduler.acquireWithAdapter now bsz session stateId adapterId
      adapterVersion = .ok (b, u)) {t : System}
    (hstep : (s.rotated next).step (.acquire now bsz session stateId adapterId adapterVersion) =
      some t) :
    Counted t ↔ s.outstanding b + max bsz 1 < 2 ^ 63 := by
  have hadds := adds_rotated hs hstep
  have hadded : ∀ c, (s.rotated next).added (.acquire now bsz session stateId adapterId
      adapterVersion) c = if b = c then max bsz 1 else 0 := by
    intro c
    rw [System.added]
    simp only [h]
  rw [hadds.counted_iff hcounted]
  obtain ⟨n, hn⟩ := count_of_lt hb
  constructor
  · intro hall
    have hbound := (hall b n hn).2
    rw [hadded, if_pos rfl] at hbound
    exact hbound
  · intro hbound c m hm
    have hrange := count_lt hs hcounted hm
    rw [hadded]
    split_ifs with hbc
    · subst hbc
      omega
    · omega

/-- An eligible backend with the least double, if there is an eligible one. -/
theorem exists_least (heligible : ∃ c, s.scheduler.eligible now stateId adapterId adapterVersion c =
      true) :
    ∃ b, s.scheduler.eligible now stateId adapterId adapterVersion b = true ∧
      ∀ c, s.scheduler.eligible now stateId adapterId adapterVersion c = true →
        s.scheduler.load b ≤ s.scheduler.load c := by
  obtain ⟨c, hc⟩ := heligible
  obtain ⟨b, hb, hleast⟩ := Finset.exists_min_image
    ((Finset.range s.scheduler.backends.length).filter fun c =>
      s.scheduler.eligible now stateId adapterId adapterVersion c = true) s.scheduler.load
    ⟨c, Finset.mem_filter.mpr ⟨Finset.mem_range.mpr (lt_of_eligible hc), hc⟩⟩
  refine ⟨b, (Finset.mem_filter.mp hb).2, fun d hd => hleast d ?_⟩
  exact Finset.mem_filter.mpr ⟨Finset.mem_range.mpr (lt_of_eligible hd), hd⟩

/-- Where each starting index leads to a least loaded backend, the doubles tell it. -/
theorem told_of_accounted (hs : Reserved s) (hcounted : Counted s)
    (haccounted : Accounted s (.acquire now bsz session stateId adapterId adapterVersion))
    (haffine : s.scheduler.affine now session stateId adapterId adapterVersion = none)
    (heligible : ∃ c, s.scheduler.eligible now stateId adapterId adapterVersion c = true) :
    Told s (s.scheduler.eligible now stateId adapterId adapterVersion) (max bsz 1) := by
  -- started at a backend with the least double, the loop picks it
  have hpicked : ∀ b, s.scheduler.eligible now stateId adapterId adapterVersion b = true →
      (∀ c, s.scheduler.eligible now stateId adapterId adapterVersion c = true →
        s.scheduler.load b ≤ s.scheduler.load c) →
      s.scheduler.load b < ⊤ ∧ s.outstanding b + max bsz 1 < 2 ^ 63 ∧
        ∀ c, s.scheduler.eligible now stateId adapterId adapterVersion c = true →
          s.scheduler.quotient b ≤ s.scheduler.quotient c := by
    intro b hb hleast
    obtain ⟨hpicks, hcounts⟩ := haccounted b
    obtain ⟨c, u, hu, -, hquotient⟩ := hpicks _ _ _ _ _ _ rfl haffine heligible
    obtain rfl : c = b := picked_next (s := (s.rotated b).scheduler) haffine hb hleast hu
    obtain ⟨t, ht⟩ := acquire_step hu
    refine ⟨(picked (s := (s.rotated c).scheduler) haffine hu).2.1, ?_, hquotient⟩
    exact (counted_acquire hs hcounted (lt_of_eligible hb) hu ht).mp (hcounts t ht)
  obtain ⟨b, hb, hleast⟩ := exists_least heligible
  obtain ⟨hless, -, hquotient⟩ := hpicked b hb hleast
  refine ⟨⟨b, hb, hless, fun c hc => ⟨hquotient c hc, fun hbc => ?_⟩⟩,
    fun c hc hc' => (hpicked c hc hc').2.1⟩
  by_contra hload
  -- a backend with a greater quotient and the same double would be picked from its index
  have hc' : ∀ d, s.scheduler.eligible now stateId adapterId adapterVersion d = true →
      s.scheduler.load c ≤ s.scheduler.load d :=
    fun d hd => (not_lt.mp hload).trans (hleast d hd)
  exact absurd ((hpicked c hc hc').2.2 b hb) (not_le.mpr hbc)

/-- The least double belongs to a backend with the least quotient. -/
theorem Told.quotient_le {eligible : Nat → Bool} {amount : Int} (h : Told s eligible amount)
    {b : Nat} (hb : eligible b = true)
    (hleast : ∀ c, eligible c = true → s.scheduler.load b ≤ s.scheduler.load c) :
    ∀ c, eligible c = true → s.scheduler.quotient b ≤ s.scheduler.quotient c := by
  intro c hc
  obtain ⟨d, hd, -, hall⟩ := h.least
  have hbd : s.scheduler.quotient b ≤ s.scheduler.quotient d := by
    by_contra hgreater
    exact absurd ((hall b hb).2 (not_le.mp hgreater)) (not_lt.mpr (hleast d hd))
  exact hbd.trans (hall c hc).1

theorem eligible_of_affine {s : Scheduler} {b : Nat}
    (h : s.affine now session stateId adapterId adapterVersion = some b) :
    s.eligible now stateId adapterId adapterVersion b = true := by
  rw [Scheduler.affine] at h
  split_ifs at h
  exact (Option.filter_eq_some_iff.mp h).2

/-- Where the doubles tell the least quotient, a least loaded backend is picked. -/
theorem picksLeast_of_told {next : Nat}
    (h : (∃ c, s.scheduler.eligible now stateId adapterId adapterVersion c = true) →
      Told s (s.scheduler.eligible now stateId adapterId adapterVersion) (max bsz 1)) :
    PicksLeast (s.rotated next).scheduler now bsz session stateId adapterId adapterVersion := by
  intro haffine heligible
  have htold := h heligible
  obtain ⟨d, hd, hfinite, -⟩ := htold.least
  rcases choose_spec (s.rotated next).scheduler now stateId adapterId adapterVersion
      (s.rotated next).scheduler.rotation ⊤ none with ⟨-, htop⟩ | ⟨b, hb, hb', -, hleast⟩
  · exact absurd hfinite (not_lt.mpr (htop d (mem_rotation (lt_of_eligible hd)) hd))
  · obtain ⟨u, hu, -⟩ : ∃ u, (s.rotated next).scheduler.acquireWithAdapter now bsz session stateId
        adapterId adapterVersion = .ok (b, u) ∧
          u.backends = ((s.rotated next).scheduler.reserved b bsz).backends :=
      acquire_of_choose haffine hb
    refine ⟨b, u, hu, hb', htold.quotient_le hb' fun c hc => ?_⟩
    exact hleast c (mem_rotation (lt_of_eligible hc)) hc

theorem accounted_acquire (hs : Reserved s) (hcounted : Counted s) :
    Accounted s (.acquire now bsz session stateId adapterId adapterVersion) ↔
      Representable s (.acquire now bsz session stateId adapterId adapterVersion) := by
  rw [Representable]
  cases haffine : s.scheduler.affine now session stateId adapterId adapterVersion with
  | some b =>
      have hb := lt_of_eligible (eligible_of_affine haffine)
      have hacquire : ∀ next, (s.rotated next).scheduler.acquireWithAdapter now bsz session stateId
          adapterId adapterVersion = .ok (b, (s.rotated next).scheduler.reserved b bsz) :=
        fun next => acquire_of_affine haffine
      constructor
      · intro haccounted
        obtain ⟨t, ht⟩ := acquire_step (hacquire 0)
        exact (counted_acquire hs hcounted hb (hacquire 0) ht).mp ((haccounted 0).2 t ht)
      · intro hfits next
        refine ⟨?_, fun t ht => ?_⟩
        · rintro now' bsz' session' stateId' adapterId' adapterVersion' heq hnone
          obtain ⟨rfl, rfl, rfl, rfl, rfl, rfl⟩ := Event.acquire.inj heq
          rw [show (s.rotated next).scheduler.affine now session stateId adapterId adapterVersion =
            some b from haffine] at hnone
          cases hnone
        · exact (counted_acquire hs hcounted hb (hacquire next) ht).mpr hfits
  | none =>
      refine ⟨fun haccounted => told_of_accounted hs hcounted haccounted haffine, ?_⟩
      intro htold next
      refine ⟨?_, fun t ht => ?_⟩
      · rintro now' bsz' session' stateId' adapterId' adapterVersion' heq
        obtain ⟨rfl, rfl, rfl, rfl, rfl, rfl⟩ := Event.acquire.inj heq
        exact picksLeast_of_told htold
      · obtain ⟨b, u, hu⟩ := acquire_of_step ht
        obtain ⟨hb, -, hleast⟩ := picked (s := (s.rotated next).scheduler) haffine hu
        refine (counted_acquire hs hcounted (lt_of_eligible hb) hu ht).mpr ?_
        exact (htold ⟨b, hb⟩).fits b hb hleast

/-- Other events pick nothing. -/
theorem accounted_of_counted {e : Event}
    (he : ∀ now bsz session stateId adapterId adapterVersion,
      e ≠ .acquire now bsz session stateId adapterId adapterVersion)
    (h : ∀ next t, (s.rotated next).step e = some t → Counted t) : Accounted s e :=
  fun next => ⟨fun _ _ _ _ _ _ heq => absurd heq (he _ _ _ _ _ _), h next⟩

theorem accounted_send (hs : Reserved s) (hcounted : Counted s) (k : Nat) :
    Accounted s (.send k) ↔ Representable s (.send k) := by
  have hiff : ∀ next t, (s.rotated next).step (.send k) = some t →
      (Counted t ↔ ∀ b < s.scheduler.backends.length, s.outstanding b + 1 < 2 ^ 63) := by
    intro next t hstep
    rw [(adds_rotated hs hstep).counted_iff hcounted]
    constructor
    · intro hall b hb
      obtain ⟨n, hn⟩ := count_of_lt hb
      exact (hall b n hn).2
    · intro hall b n hn
      have hpos := outstanding_nonneg hs b
      refine ⟨by rw [System.added]; omega, hall b ?_⟩
      rw [Scheduler.count, Option.map_eq_some_iff] at hn
      obtain ⟨x, hx, -⟩ := hn
      exact (List.getElem?_eq_some_iff.mp hx).1
  constructor
  · rintro haccounted ⟨job, hk⟩
    obtain ⟨t, ht⟩ : ∃ t, (s.rotated 0).step (.send k) = some t := by
      rw [System.step, System.act, show (s.rotated 0).handlers[k]? = _ from hk]
      exact ⟨_, rfl⟩
    exact (hiff 0 t ht).mp ((haccounted 0).2 t ht)
  · intro hrepresentable
    refine accounted_of_counted (by simp) fun next t ht => (hiff next t ht).mpr ?_
    refine hrepresentable ?_
    obtain ⟨u, hact, -⟩ := step_act ht
    rw [System.act] at hact
    split at hact
    · rename_i job hk
      exact ⟨job, hk⟩
    · cases hact

/-- The end of a broadcast takes back what its start has reserved. -/
theorem counted_answer (hs : Reserved s) (hcounted : Counted s) {k next : Nat}
    {results : List Response} (hstep : (s.rotated next).step (.answer k results) = some t) :
    Counted t := by
  refine counted_of_released hs hcounted (adds_rotated hs hstep) (fun b => by
    rw [System.added]; omega) fun b => ?_
  obtain ⟨u, hact, -⟩ := step_act hstep
  rw [System.act] at hact
  split at hact
  · rename_i job hk
    have hsent : 0 < s.handlers.countP (fun h => h.phase = .sent) :=
      List.countP_pos_iff.mpr ⟨_, List.mem_of_getElem? hk, decide_eq_true rfl⟩
    have hsum := sum_nonneg hs (fun q => q.backend = b)
    rw [System.outstanding, System.added]
    omega
  · cases hact

/-- The end of a request takes back what it has reserved. -/
theorem counted_respond (hs : Reserved s) (hcounted : Counted s) {k next : Nat} {reply : Reply}
    (hstep : (s.rotated next).step (.respond k reply) = some t) : Counted t := by
  obtain ⟨u, hact, -⟩ := step_act hstep
  rw [System.act] at hact
  split at hact
  · cases hact
  · rename_i q hk
    have hk' : s.requests[k]? = some q := hk
    have hq := hs.positive q (List.mem_of_getElem? hk')
    refine counted_of_released hs hcounted (adds_rotated hs hstep) (fun b => ?_) fun b => ?_
    · simp only [System.added, hk]
      split_ifs
      · omega
      · exact le_refl _
    · simp only [System.added, hk]
      have hsum := sum_eraseIdx (p := fun x => decide (x.backend = b)) Request.bsz hk'
      have hrest : 0 ≤ (((s.requests.eraseIdx k).filter fun x => decide (x.backend = b)).map
          Request.bsz).sum := by
        refine List.sum_nonneg fun n hn => ?_
        obtain ⟨x, hx, rfl⟩ := List.mem_map.mp hn
        have hx' := List.mem_of_mem_eraseIdx (List.mem_filter.mp hx).1
        exact (zero_le_one).trans (hs.positive x hx')
      rw [System.outstanding, ← hsum]
      by_cases hb : q.backend = b
      · simp only [hb, decide_true, if_true]
        omega
      · simp only [hb, decide_false, Bool.false_eq_true, if_false]
        omega

/-- Which events keep the counts exact and pick a least loaded backend. -/
theorem accounted_iff (hs : Reserved s) (hcounted : Counted s) (e : Event) :
    Accounted s e ↔ Representable s e := by
  cases e with
  | acquire now bsz session stateId adapterId adapterVersion => exact accounted_acquire hs hcounted
  | send k => exact accounted_send hs hcounted k
  | answer k results =>
      exact iff_of_true (accounted_of_counted (by simp) fun next t ht =>
        counted_answer hs hcounted ht) trivial
  | respond k reply =>
      exact iff_of_true (accounted_of_counted (by simp) fun next t ht =>
        counted_respond hs hcounted ht) trivial
  | beginState | beginAdapter | enterDeletion | listStates | listAdapters | next | finish | fail =>
      refine iff_of_true (accounted_of_counted (by simp) fun next t ht => ?_) trivial
      refine counted_of_released hs hcounted (adds_rotated hs ht) (fun b => le_refl _) fun b => ?_
      exact (outstanding_nonneg hs b).trans (le_of_eq (add_zero _).symm)

end Exact

section Runs

theorem count_start (items : List (String × ℚ)) (cooldown b : Nat) (n : Int)
    (h : (System.start (items.map configured) cooldown).scheduler.count b = some n) : n = 0 := by
  rw [Scheduler.count, System.start, List.getElem?_map, Option.map_map,
    Option.map_eq_some_iff] at h
  obtain ⟨item, -, rfl⟩ := h
  rfl

theorem reserved_start (items : List (String × ℚ)) (cooldown : Nat) :
    Reserved (System.start (items.map configured) cooldown) where
  range := by
    intro b n hn
    rw [count_start items cooldown b n hn]
    rfl
  positive := by simp [System.start]

theorem counted_start (items : List (String × ℚ)) (cooldown : Nat) :
    Counted (System.start (items.map configured) cooldown) := by
  intro b n hn
  rw [count_start items cooldown b n hn]
  exact ⟨rfl, le_refl _⟩

/--
All steps of a run keep the counts exact and pick least loaded backends, whatever the
starting index is, exactly when they are all representable.
-/
theorem accounted_run_iff (items : List (String × ℚ)) (cooldown : Nat) (events : List Event) :
    StepsMeet System.step Accounted (System.start (items.map configured) cooldown) events ↔
      StepsMeet System.step Representable (System.start (items.map configured) cooldown)
        events := by
  refine stepsMeet_congr (I := fun s => Reserved s ∧ Counted s) ?_ ?_
    ⟨reserved_start items cooldown, counted_start items cooldown⟩ events
  · rintro s e t ⟨hs, hcounted⟩ haccounted hstep
    exact ⟨(adds_step hs hstep).reserved, (haccounted s.scheduler.next).2 t hstep⟩
  · rintro s e ⟨hs, hcounted⟩
    exact accounted_iff hs hcounted e

end Runs

section Small

variable {s : System}

/-- With the default weight, a count up to `2 ^ 53` is a double, and so is its quotient. -/
theorem load_of_small {s : Scheduler} {b : Nat} {x : Backend} (hx : s.backends[b]? = some x)
    (hweight : x.weight = 1) (hsmall : x.inflight.natAbs ≤ 2 ^ 53) :
    s.load b = ((s.quotient b : WithTop ℚ) : Binary64.Value) := by
  have hnearest : Binary64.nearest x.inflight = x.inflight := Binary64.nearest_intCast hsmall
  have hexponent : Binary64.exponent x.inflight ≤ 1023 := by
    rw [Binary64.exponent_intCast]
    have hlog := Nat.log_mono_right (b := 2) hsmall
    rw [Nat.log_pow (by decide)] at hlog
    omega
  have hquotient : s.quotient b = x.inflight := by
    rw [Scheduler.quotient, hx]
    dsimp only
    rw [hweight, div_one]
  rw [Scheduler.load, hx, hquotient]
  dsimp only
  rw [Binary64.quotient, hnearest, hweight, div_one, Binary64.ofRat, hnearest, if_pos hexponent]

/-- With default weights and counts up to `2 ^ 53`, every request is representable. -/
theorem representable_of_small (hcounted : Counted s)
    (hsmall : ∀ x ∈ s.scheduler.backends, x.weight = 1 ∧ x.inflight ≤ 2 ^ 53)
    {now : Nat} {bsz : Int} {session stateId adapterId adapterVersion : String}
    (hbsz : bsz ≤ 2 ^ 53) :
    Representable s (.acquire now bsz session stateId adapterId adapterVersion) := by
  have hcount : ∀ b, s.scheduler.eligible now stateId adapterId adapterVersion b = true →
      s.outstanding b ≤ 2 ^ 53 ∧
        s.scheduler.load b = ((s.scheduler.quotient b : WithTop ℚ) : Binary64.Value) := by
    intro b hb
    have hlt := lt_of_eligible hb
    have hx := List.getElem?_eq_getElem hlt
    obtain ⟨hweight, hle⟩ := hsmall _ (List.getElem_mem hlt)
    have hn : s.scheduler.count b = some (s.scheduler.backends[b]).inflight := by
      rw [Scheduler.count, hx]
      rfl
    obtain ⟨hexact, hpos⟩ := hcounted b _ hn
    exact ⟨hexact ▸ hle, load_of_small hx hweight (by omega)⟩
  rw [Representable]
  cases haffine : s.scheduler.affine now session stateId adapterId adapterVersion with
  | some b =>
      have hb := hcount b (eligible_of_affine haffine)
      show s.outstanding b + max bsz 1 < 2 ^ 63
      omega
  | none =>
      intro heligible
      obtain ⟨b, hb, hleast⟩ := exists_least heligible
      refine ⟨⟨b, hb, ?_, fun c hc => ?_⟩, fun c hc _ => ?_⟩
      · rw [(hcount b hb).2]
        exact WithBot.coe_lt_coe.mpr (WithTop.coe_lt_top _)
      · have hload := hleast c hc
        rw [(hcount b hb).2, (hcount c hc).2] at hload ⊢
        refine ⟨WithTop.coe_le_coe.mp (WithBot.coe_le_coe.mp hload), fun hless => ?_⟩
        exact WithBot.coe_lt_coe.mpr (WithTop.coe_lt_coe.mpr hless)
      · have hc' := (hcount c hc).1
        omega

end Small

section Example

/-- A body that declares the largest batch size. -/
def largestBody : String → Option RawMessage
  | "bsz" => some (.integer (2 ^ 63 - 1))
  | _ => none

/-- The largest batch size, sent twice to one backend. -/
def overflowRun : List Event :=
  List.replicate 2
    (.acquire 0 (batchSize "/v1/chat/completions" (some largestBody) "").1 "" "" "" "")

/-- The counts after a run with one backend, and the sums that they stand for. -/
def countsAfter (events : List Event) : Option (Option Int × Int) :=
  (exec System.step (System.start [configured ("a", 1)] 0) events).map (fun s =>
    (s.scheduler.count 0, s.outstanding 0))

/-- The count of the busy backend is -2, so that it seems to be idle. -/
theorem overflow_miscounts :
    ¬StepsMeet System.step Accounted (System.start ([("a", 1)].map configured) 0)
      overflowRun := by
  intro hmeet
  have hcounts : countsAfter overflowRun = some (some (-2), 2 ^ 64 - 2) := by decide +kernel
  rw [countsAfter, Option.map_eq_some_iff] at hcounts
  obtain ⟨s, hrun, hs⟩ := hcounts
  have hcounted : Counted s :=
    exec_invariant (fun s _ t _ haccounted hstep => (haccounted s.scheduler.next).2 t hstep)
      (counted_start [("a", 1)] 0) hmeet hrun
  exact absurd (hcounted 0 (-2) (Prod.mk.inj hs).1).2 (by decide)

end Example

end Router
end RwkvLightning
