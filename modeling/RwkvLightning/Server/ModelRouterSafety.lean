import RwkvLightning.Server.ModelRouter

/-!
# The model router: leases, loaders and engines

The invariant has two halves that meet only in the lease counter.
`LeaseInvariant` says that the counter counts exactly the lease objects that
hold an unreturned lease; `LoadInvariant` says that the threads in `load` stand
in ticket order, that only the first of them is past the wait, and that the
resident engine is the one of the last completed load.

**Results.**
* `routerSafe_of_run`: in every run in which no construction begins while a
  lease is between its two halves of `release`, and no id copy fails, the
  router is safe in every state reached.
* `lateDrop_twoEngines`: a construction that begins in that window finds the
  old engine alive.
-/

namespace RwkvLightning
namespace ModelRouter

open Execution

/-- The guarantees of the router; `initial` is the engine it started with. -/
structure RouterSafe (initial : Option Nat) (s : System) : Prop where
  single_engine :
    ∀ ticket othersAlive activeLeases,
      Record.constructing ticket othersAlive activeLeases ∈ s.log →
        othersAlive = [] ∧ activeLeases = 0
  served_in_order : (startedTickets s.log).Pairwise (· < ·)
  no_overtaking :
    ∀ t ∈ startedTickets s.log, ∀ l ∈ s.loaders, l.pc = .waiting → t < l.ticket
  queue_eq_loaders : s.router.loadQueue = s.loaders.map Loader.ticket
  front_not_blocked :
    ∀ l rest, s.loaders = l :: rest → l.pc = .waiting →
      s.router.activeLeases = 0 → (step s (.loadPass l.ticket)).isSome
  acquired_latest :
    ∀ before number engine after,
      s.log = before ++ Record.acquired number engine :: after →
        latestEngine initial before = some engine
  replaced_not_handed_out :
    s.router.loading = true → s.router.currentEngine = none
  counted_once :
    (acquiredNumbers s.log).Nodup ∧
      (acquiredNumbers s.log).Perm
        (releasedNumbers s.log ++ Slots.held leaseCounted s.leases)
  count_eq :
    s.router.activeLeases = (Slots.held leaseCounted s.leases).length

/-- The lease half of the invariant. -/
structure LeaseInvariant (activeLeases : Int) (leases : List (Option Lease))
    (log : List Record) : Prop where
  numbers : acquiredNumbers log = List.range (acquiredNumbers log).length
  conserved :
    (acquiredNumbers log).Perm
      (releasedNumbers log ++ Slots.held leaseCounted leases)
  count : activeLeases = (Slots.held leaseCounted leases).length
  engine_pinned :
    ∀ lease, some lease ∈ leases → lease.router = false → lease.engine = none

/-- The loader half of the invariant. -/
structure LoadInvariant (initial : Option Nat) (router : Router)
    (loaders : List Loader) (log : List Record) : Prop where
  queue : router.loadQueue = loaders.map Loader.ticket
  sorted : loaders.Pairwise (fun a b => a.ticket < b.ticket)
  fresh : ∀ l ∈ loaders, l.ticket < router.nextLoadTicket
  tail_waiting : ∀ l ∈ loaders.tail, l.pc = .waiting
  loading_iff :
    router.loading = true ↔ ∃ l, loaders.head? = some l ∧ l.pc ≠ .waiting
  loading_idle : router.loading = true → router.activeLeases = 0
  loading_cleared : router.loading = true → router.currentEngine = none
  resident :
    ∀ e, router.currentEngine = some e → latestEngine initial log = some e
  started_sorted : (startedTickets log).Pairwise (· < ·)
  started_before :
    ∀ t ∈ startedTickets log, ∀ l ∈ loaders, l.pc = .waiting → t < l.ticket
  started_fresh : ∀ t ∈ startedTickets log, t < router.nextLoadTicket
  acquired_latest :
    ∀ before number engine after,
      log = before ++ Record.acquired number engine :: after →
        latestEngine initial before = some engine

/-- Every construction so far began with nothing else alive. -/
def SingleEngine (log : List Record) : Prop :=
  ∀ ticket othersAlive activeLeases,
    Record.constructing ticket othersAlive activeLeases ∈ log →
      othersAlive = [] ∧ activeLeases = 0

structure Invariant (initial : Option Nat) (s : System) : Prop where
  lease : LeaseInvariant s.router.activeLeases s.leases s.log
  load : LoadInvariant initial s.router s.loaders s.log
  single : SingleEngine s.log

/-- An object found at an address occupies that slot. -/
theorem leaseAt_some
    {s : System} {address : Nat} {lease : Lease}
    (h : s.leaseAt address = some lease) :
    s.leases[address]? = some (some lease) := by
  simpa [System.leaseAt, Option.join_eq_some_iff] using h

/-- A new last record splits the history in one new way only. -/
theorem split_append_singleton
    {log before after : List Record} {r a : Record}
    (h : log ++ [r] = before ++ a :: after) :
    (∃ after', log = before ++ a :: after') ∨ (a = r ∧ before = log) := by
  rcases List.append_eq_append_iff.mp h with ⟨mid, h1, h2⟩ | ⟨mid, h1, h2⟩
  · cases mid with
    | nil =>
        right
        simp at h1 h2
        exact ⟨h2.1.symm, h1⟩
    | cons b mid =>
        simp at h2
  · cases mid with
    | nil =>
        right
        simp at h1 h2
        exact ⟨h2.1, h1.symm⟩
    | cons b mid =>
        left
        simp at h2
        exact ⟨mid, by rw [h1, h2.1]⟩

section LeaseEvents

variable {activeLeases : Int} {leases : List (Option Lease)} {log : List Record}

/-- A record that is about loads leaves the lease half alone. -/
theorem LeaseInvariant.record
    (h : LeaseInvariant activeLeases leases log) (r : Record)
    (hacquired : acquiredNumbers [r] = [])
    (hreleased : releasedNumbers [r] = []) :
    LeaseInvariant activeLeases leases (log ++ [r]) := by
  refine
    { numbers := by simpa [hacquired] using h.numbers
      conserved := by simpa [hacquired, hreleased] using h.conserved
      count := h.count
      engine_pinned := h.engine_pinned }

/-- `acquire` returns a lease. -/
theorem LeaseInvariant.acquire
    (h : LeaseInvariant activeLeases leases log) (engine : Nat) :
    LeaseInvariant (activeLeases + 1)
      (leases ++
        [some { router := true, engine := some engine, releasing := false,
                number := (acquiredNumbers log).length }])
      (log ++ [.acquired (acquiredNumbers log).length engine]) := by
  refine
    { numbers := ?_
      conserved := ?_
      count := ?_
      engine_pinned := ?_ }
  · have hlen :
        (acquiredNumbers (log ++
          [.acquired (acquiredNumbers log).length engine])).length =
          (acquiredNumbers log).length + 1 := by
      simp [acquiredNumbers]
    rw [hlen, List.range_succ, ← h.numbers]
    simp [acquiredNumbers]
  · rw [Slots.held_append_singleton]
    simp only [acquiredNumbers_append, releasedNumbers_append, acquiredNumbers,
      releasedNumbers, leaseCounted, List.append_nil]
    rw [← List.append_assoc]
    exact h.conserved.append_right _
  · rw [Slots.held_append_singleton, h.count]
    simp [leaseCounted]
  · intro lease hmem hrouter
    rcases List.mem_append.mp hmem with hmem | hmem
    · exact h.engine_pinned lease hmem hrouter
    · simp only [List.mem_singleton, Option.some.injEq] at hmem
      subst hmem
      simp at hrouter

/-- Overwriting a slot by a lease that pins nothing without a router. -/
theorem engine_pinned_set
    {address : Nat} {slot : Option Lease}
    (h : ∀ lease, some lease ∈ leases → lease.router = false → lease.engine = none)
    (hslot : ∀ lease, slot = some lease → lease.router = false → lease.engine = none) :
    ∀ lease, some lease ∈ leases.set address slot →
      lease.router = false → lease.engine = none := by
  intro lease hmem
  rcases List.mem_or_eq_of_mem_set hmem with hmem | heq
  · exact h lease hmem
  · exact hslot lease heq.symm

/-- A lease gives its count back. -/
theorem LeaseInvariant.giveBack
    (h : LeaseInvariant activeLeases leases log)
    {address : Nat} {lease : Lease}
    (hget : leases[address]? = some (some lease))
    (hrouter : lease.router = true)
    (hheld : lease.releasing = false) :
    LeaseInvariant (activeLeases - 1)
      (leases.set address (some { lease with releasing := true }))
      (log ++ [.released lease.number]) := by
  have hcleared := Slots.held_set_cleared leaseCounted hget
    (c := some { lease with releasing := true }) (b := lease.number)
    (by simp [leaseCounted, hrouter, hheld]) (by simp [leaseCounted])
  refine
    { numbers := by simpa [acquiredNumbers] using h.numbers
      conserved := ?_
      count := ?_
      engine_pinned := ?_ }
  · simp only [acquiredNumbers_append, releasedNumbers_append, acquiredNumbers,
      releasedNumbers, List.append_nil, List.append_assoc]
    exact h.conserved.trans (hcleared.append_left _)
  · have hlen := hcleared.length_eq
    rw [h.count, hlen]
    simp
  · refine engine_pinned_set h.engine_pinned ?_
    intro l hl hr
    cases hl
    simp [hrouter] at hr

/-- The objects change, the leases they are counted for do not. -/
theorem LeaseInvariant.moveLeases
    (h : LeaseInvariant activeLeases leases log)
    {leases' : List (Option Lease)}
    (hperm :
      (Slots.held leaseCounted leases).Perm (Slots.held leaseCounted leases'))
    (hpinned :
      ∀ lease, some lease ∈ leases' → lease.router = false → lease.engine = none) :
    LeaseInvariant activeLeases leases' log :=
  { numbers := h.numbers
    conserved := h.conserved.trans (hperm.append_left _)
    count := by rw [h.count, hperm.length_eq]
    engine_pinned := hpinned }

/-- A slot whose lease is not counted, before or after. -/
theorem LeaseInvariant.overwrite
    (h : LeaseInvariant activeLeases leases log)
    {address : Nat} {old : Lease} {slot : Option Lease}
    (hget : leases[address]? = some (some old))
    (hsame : leaseCounted slot = leaseCounted (some old))
    (hslot : ∀ lease, slot = some lease → lease.router = false → lease.engine = none) :
    LeaseInvariant activeLeases (leases.set address slot) log :=
  h.moveLeases (Slots.held_set_same leaseCounted hget hsame).symm
    (engine_pinned_set h.engine_pinned hslot)

/-- A lease moves into a new object. -/
theorem LeaseInvariant.moveConstruct
    (h : LeaseInvariant activeLeases leases log)
    {source : Nat} {lease : Lease}
    (hget : leases[source]? = some (some lease)) :
    LeaseInvariant activeLeases
      (leases.set source (some (emptyLease lease.number)) ++ [some lease]) log := by
  have hmem : some lease ∈ leases := List.mem_of_getElem? hget
  refine h.moveLeases ?_ ?_
  · rw [Slots.held_append_singleton]
    cases hc : leaseCounted (some lease) with
    | none =>
        have hsame := Slots.held_set_same leaseCounted hget
          (b := some (emptyLease lease.number))
          (by rw [hc]; simp [leaseCounted, emptyLease])
        simpa [hc] using hsame.symm
    | some n =>
        have hcleared := Slots.held_set_cleared leaseCounted hget
          (c := some (emptyLease lease.number)) (b := n) hc
          (by simp [leaseCounted, emptyLease])
        have hcomm := List.perm_append_singleton n
          (Slots.held leaseCounted
            (leases.set source (some (emptyLease lease.number))))
        simpa [hc] using hcleared.trans hcomm.symm
  · intro l hl hrouter
    rcases List.mem_append.mp hl with hl | hl
    · refine engine_pinned_set h.engine_pinned ?_ l hl hrouter
      intro l' hl' _
      cases hl'
      rfl
    · have heq : l = lease := by simpa using hl
      subst heq
      exact h.engine_pinned l hmem hrouter

/-- A lease moves into an object that holds none. -/
theorem LeaseInvariant.moveAssign
    (h : LeaseInvariant activeLeases leases log)
    {target source : Nat} {old lease : Lease}
    (hne : target ≠ source)
    (htarget : leases[target]? = some (some old))
    (hold : old = emptyLease old.number)
    (hsource : leases[source]? = some (some lease)) :
    LeaseInvariant activeLeases
      ((leases.set source (some (emptyLease lease.number))).set target
        (some lease)) log := by
  have hempty : leaseCounted (some old) = none := by
    rw [hold]
    simp [leaseCounted, emptyLease]
  have htarget' :
      (leases.set source (some (emptyLease lease.number)))[target]? =
        some (some old) := by
    rw [List.getElem?_set_ne (Ne.symm hne)]
    exact htarget
  have hpinned : ∀ l, some l ∈ leases.set source (some (emptyLease lease.number)) →
      l.router = false → l.engine = none := by
    refine engine_pinned_set h.engine_pinned ?_
    intro l hl _
    cases hl
    rfl
  refine h.moveLeases ?_ ?_
  · cases hc : leaseCounted (some lease) with
    | none =>
        have h1 := Slots.held_set_same leaseCounted hsource
          (b := some (emptyLease lease.number))
          (by rw [hc]; simp [leaseCounted, emptyLease])
        have h2 := Slots.held_set_same leaseCounted htarget'
          (b := some lease) (by rw [hempty, hc])
        exact (h2.trans h1).symm
    | some n =>
        have h1 := Slots.held_set_cleared leaseCounted hsource
          (c := some (emptyLease lease.number)) (b := n) hc
          (by simp [leaseCounted, emptyLease])
        have h2 := Slots.held_set_filled leaseCounted htarget'
          (c := some lease) (b := n) hempty hc
        exact h1.trans h2.symm
  · refine engine_pinned_set hpinned ?_
    intro l hl hrouter
    cases hl
    exact h.engine_pinned lease (List.mem_of_getElem? hsource) hrouter

end LeaseEvents

section LoadEvents

variable {initial : Option Nat} {router : Router}
variable {loaders : List Loader} {log : List Record}

/-- A release is invisible to the loaders, except in the counter. -/
theorem LoadInvariant.released
    (h : LoadInvariant initial router loaders log) (number : Nat)
    (activeLeases : Int)
    (hidle : router.loading = true → activeLeases = 0) :
    LoadInvariant initial { router with activeLeases := activeLeases } loaders
      (log ++ [.released number]) := by
  refine
    { queue := h.queue
      sorted := h.sorted
      fresh := h.fresh
      tail_waiting := h.tail_waiting
      loading_iff := h.loading_iff
      loading_idle := hidle
      loading_cleared := h.loading_cleared
      resident := by simpa [latestEngine] using h.resident
      started_sorted := by simpa [startedTickets] using h.started_sorted
      started_before := by simpa [startedTickets] using h.started_before
      started_fresh := by simpa [startedTickets] using h.started_fresh
      acquired_latest := ?_ }
  intro before n engine after hsplit
  rcases split_append_singleton hsplit with ⟨after', h'⟩ | ⟨h', -⟩
  · exact h.acquired_latest before n engine after' h'
  · cases h'

/-- `acquire` hands out the resident engine while nobody loads. -/
theorem LoadInvariant.acquired
    (h : LoadInvariant initial router loaders log)
    (hloading : router.loading = false)
    {engine : Nat} (hengine : router.currentEngine = some engine) (number : Nat) :
    LoadInvariant initial
      { router with activeLeases := router.activeLeases + 1 } loaders
      (log ++ [.acquired number engine]) := by
  refine
    { queue := h.queue
      sorted := h.sorted
      fresh := h.fresh
      tail_waiting := h.tail_waiting
      loading_iff := h.loading_iff
      loading_idle := by simp [hloading]
      loading_cleared := h.loading_cleared
      resident := by simpa [latestEngine] using h.resident
      started_sorted := by simpa [startedTickets] using h.started_sorted
      started_before := by simpa [startedTickets] using h.started_before
      started_fresh := by simpa [startedTickets] using h.started_fresh
      acquired_latest := ?_ }
  intro before n e after hsplit
  rcases split_append_singleton hsplit with ⟨after', h'⟩ | ⟨h', hbefore⟩
  · exact h.acquired_latest before n e after' h'
  · simp only [Record.acquired.injEq] at h'
    rw [hbefore, h'.2]
    exact h.resident engine hengine

/-- A record without an acquisition keeps the acquisitions as they were. -/
theorem acquired_latest_append
    (h : ∀ before number engine after,
      log = before ++ Record.acquired number engine :: after →
        latestEngine initial before = some engine)
    {r : Record} (hr : ∀ number engine, r ≠ Record.acquired number engine) :
    ∀ before number engine after,
      log ++ [r] = before ++ Record.acquired number engine :: after →
        latestEngine initial before = some engine := by
  intro before number engine after hsplit
  rcases split_append_singleton hsplit with ⟨after', h'⟩ | ⟨h', -⟩
  · exact h before number engine after' h'
  · exact absurd h'.symm (hr number engine)

/-- A thread enters `load` and queues its ticket. -/
theorem LoadInvariant.enter
    (h : LoadInvariant initial router loaders log) (id : String) :
    LoadInvariant initial
      { router with
        nextLoadTicket := router.nextLoadTicket + 1
        loadQueue := router.loadQueue ++ [router.nextLoadTicket] }
      (loaders ++ [⟨router.nextLoadTicket, id, .waiting⟩]) log := by
  have hmem : ∀ l ∈ loaders ++ [⟨router.nextLoadTicket, id, .waiting⟩],
      l ∈ loaders ∨ l = ⟨router.nextLoadTicket, id, .waiting⟩ := by
    intro l hl
    simpa using hl
  refine
    { queue := by simp [h.queue]
      sorted := ?_
      fresh := ?_
      tail_waiting := ?_
      loading_iff := ?_
      loading_idle := h.loading_idle
      loading_cleared := h.loading_cleared
      resident := h.resident
      started_sorted := h.started_sorted
      started_before := ?_
      started_fresh := ?_
      acquired_latest := h.acquired_latest }
  · rw [List.pairwise_append]
    refine ⟨h.sorted, by simp, ?_⟩
    intro a ha b hb
    have hb' : b = ⟨router.nextLoadTicket, id, .waiting⟩ := by simpa using hb
    rw [hb']
    exact h.fresh a ha
  · intro l hl
    show l.ticket < router.nextLoadTicket + 1
    rcases hmem l hl with hl | rfl
    · have := h.fresh l hl
      omega
    · simp
  · intro l hl
    cases loaders with
    | nil => simp at hl
    | cons a loaders =>
        simp only [List.cons_append, List.tail_cons, List.mem_append,
          List.mem_singleton] at hl
        rcases hl with hl | rfl
        · exact h.tail_waiting l hl
        · rfl
  · rw [h.loading_iff]
    cases loaders with
    | nil => simp
    | cons a loaders => simp
  · intro t ht l hl hpc
    rcases hmem l hl with hl | rfl
    · exact h.started_before t ht l hl hpc
    · exact h.started_fresh t ht
  · intro t ht
    have := h.started_fresh t ht
    show t < router.nextLoadTicket + 1
    omega

/-- With increasing tickets only the first loader advances. -/
theorem setPc_head
    {l : Loader} {rest : List Loader} (pc : LoadPc)
    (hsorted : (l :: rest).Pairwise (fun a b => a.ticket < b.ticket)) :
    setPc (l :: rest) l.ticket pc = { l with pc := pc } :: rest := by
  rw [List.pairwise_cons] at hsorted
  have hrest : setPc rest l.ticket pc = rest := by
    refine (List.map_congr_left ?_).trans (List.map_id rest)
    intro a ha
    have hlt := hsorted.1 a ha
    have hne : a.ticket ≠ l.ticket := by omega
    simp [hne]
  simp only [setPc, List.map_cons, if_true]
  exact congrArg _ hrest

@[simp] theorem leave_head
    (l : Loader) (rest : List Loader) :
    leave (l :: rest) l.ticket = rest := by
  simp [leave]

/-- A thread past the wait is the first loader. -/
theorem LoadInvariant.head_of_busy
    (h : LoadInvariant initial router loaders log)
    {l : Loader} (hmem : l ∈ loaders) (hbusy : l.pc ≠ .waiting) :
    ∃ rest, loaders = l :: rest := by
  cases loaders with
  | nil => simp at hmem
  | cons a rest =>
      rcases List.mem_cons.mp hmem with rfl | hmem
      · exact ⟨rest, rfl⟩
      · exact absurd (h.tail_waiting l hmem) hbusy

/-- The thread whose ticket is at the front of the queue is the first loader. -/
theorem LoadInvariant.head_of_front
    (h : LoadInvariant initial router loaders log)
    {l : Loader} (hmem : l ∈ loaders)
    (hfront : router.loadQueue.head? = some l.ticket) :
    ∃ rest, loaders = l :: rest := by
  cases loaders with
  | nil => simp at hmem
  | cons a rest =>
      have hticket : a.ticket = l.ticket := by
        simpa [h.queue] using hfront
      rcases List.mem_cons.mp hmem with rfl | hmem
      · exact ⟨rest, rfl⟩
      · have hsorted := h.sorted
        rw [List.pairwise_cons] at hsorted
        have := hsorted.1 l hmem
        omega

/-- While somebody is past the wait, `loading_` is set. -/
theorem LoadInvariant.loading_of_busy
    {l : Loader} {rest : List Loader}
    (h : LoadInvariant initial router (l :: rest) log)
    (hbusy : l.pc ≠ .waiting) :
    router.loading = true :=
  h.loading_iff.mpr ⟨l, rfl, hbusy⟩

/-- The first loader passes the wait: its ticket is served next. -/
theorem LoadInvariant.start
    {l : Loader} {rest : List Loader}
    (h : LoadInvariant initial router (l :: rest) log)
    (hpc : l.pc = .waiting) :
    (startedTickets (log ++ [.started l.ticket])).Pairwise (· < ·) ∧
    (∀ t ∈ startedTickets (log ++ [.started l.ticket]), ∀ l' ∈ rest, t < l'.ticket) ∧
    (∀ t ∈ startedTickets (log ++ [.started l.ticket]),
      t < router.nextLoadTicket) := by
  have hsorted := h.sorted
  rw [List.pairwise_cons] at hsorted
  have hmem : ∀ t ∈ startedTickets (log ++ [.started l.ticket]),
      t ∈ startedTickets log ∨ t = l.ticket := by
    intro t ht
    simpa [startedTickets] using ht
  refine ⟨?_, ?_, ?_⟩
  · simp only [startedTickets_append, startedTickets, List.pairwise_append]
    refine ⟨h.started_sorted, by simp, ?_⟩
    intro a ha b hb
    have hb' : b = l.ticket := by simpa using hb
    rw [hb']
    exact h.started_before a ha l (by simp) hpc
  · intro t ht l' hl'
    have hlt := hsorted.1 l' hl'
    rcases hmem t ht with ht | rfl
    · have := h.started_before t ht l (by simp) hpc
      omega
    · exact hlt
  · intro t ht
    rcases hmem t ht with ht | rfl
    · exact h.started_fresh t ht
    · exact h.fresh l (by simp)

/-- The first loader returns because its model is resident already. -/
theorem LoadInvariant.unchanged
    {l : Loader} {rest : List Loader}
    (h : LoadInvariant initial router (l :: rest) log)
    (hpc : l.pc = .waiting)
    (hloading : router.loading = false) :
    LoadInvariant initial { router with loadQueue := router.loadQueue.tail } rest
      (log ++ [.started l.ticket]) := by
  obtain ⟨hstarted, hbefore, hfresh⟩ := h.start hpc
  have hsorted := h.sorted
  rw [List.pairwise_cons] at hsorted
  refine
    { queue := by simp [h.queue]
      sorted := hsorted.2
      fresh := fun l' hl' => h.fresh l' (by simp [hl'])
      tail_waiting := fun l' hl' => h.tail_waiting l' (List.mem_of_mem_tail hl')
      loading_iff := ?_
      loading_idle := h.loading_idle
      loading_cleared := h.loading_cleared
      resident := by simpa [latestEngine] using h.resident
      started_sorted := hstarted
      started_before := fun t ht l' hl' _ => hbefore t ht l' hl'
      started_fresh := hfresh
      acquired_latest := acquired_latest_append h.acquired_latest (by simp) }
  constructor
  · intro hl
    simp [hloading] at hl
  · rintro ⟨l', hhead, hbusy⟩
    have hl' : l' ∈ rest := List.mem_of_head? hhead
    exact absurd (h.tail_waiting l' hl') hbusy

/-- The first loader drops the resident engine. -/
theorem LoadInvariant.clear
    {l : Loader} {rest : List Loader}
    (h : LoadInvariant initial router (l :: rest) log)
    (hpc : l.pc = .waiting)
    (hidle : router.activeLeases = 0) :
    LoadInvariant initial
      { router with loading := true, currentEngine := none, currentId := "" }
      ({ l with pc := .cleared } :: rest) (log ++ [.started l.ticket]) := by
  obtain ⟨hstarted, hbefore, hfresh⟩ := h.start hpc
  have hsorted := h.sorted
  rw [List.pairwise_cons] at hsorted
  refine
    { queue := by simp [h.queue]
      sorted := ?_
      fresh := ?_
      tail_waiting := h.tail_waiting
      loading_iff := by simp
      loading_idle := fun _ => hidle
      loading_cleared := fun _ => rfl
      resident := by simp
      started_sorted := hstarted
      started_before := ?_
      started_fresh := hfresh
      acquired_latest := acquired_latest_append h.acquired_latest (by simp) }
  · rw [List.pairwise_cons]
    exact hsorted
  · intro l' hl'
    rcases List.mem_cons.mp hl' with rfl | hl'
    · exact h.fresh l (by simp)
    · exact h.fresh l' (by simp [hl'])
  · intro t ht l' hl' hw
    rcases List.mem_cons.mp hl' with rfl | hl'
    · simp at hw
    · exact hbefore t ht l' hl'

/-- The first loader moves on between the wait and the commit. -/
theorem LoadInvariant.advance
    {l : Loader} {rest : List Loader}
    (h : LoadInvariant initial router (l :: rest) log)
    (hbusy : l.pc ≠ .waiting) {pc : LoadPc} (hpc : pc ≠ .waiting) :
    LoadInvariant initial router ({ l with pc := pc } :: rest) log := by
  have hsorted := h.sorted
  rw [List.pairwise_cons] at hsorted
  refine
    { queue := by simp [h.queue]
      sorted := ?_
      fresh := ?_
      tail_waiting := h.tail_waiting
      loading_iff := by simp [h.loading_of_busy hbusy, hpc]
      loading_idle := h.loading_idle
      loading_cleared := h.loading_cleared
      resident := h.resident
      started_sorted := h.started_sorted
      started_before := ?_
      started_fresh := h.started_fresh
      acquired_latest := h.acquired_latest }
  · rw [List.pairwise_cons]
    exact hsorted
  · intro l' hl'
    rcases List.mem_cons.mp hl' with rfl | hl'
    · exact h.fresh l (by simp)
    · exact h.fresh l' (by simp [hl'])
  · intro t ht l' hl' hw
    rcases List.mem_cons.mp hl' with rfl | hl'
    · exact absurd hw hpc
    · exact h.started_before t ht l' (by simp [hl']) hw

/-- The beginning of a construction is only recorded. -/
theorem LoadInvariant.recordConstructing
    (h : LoadInvariant initial router loaders log)
    (ticket : Nat) (othersAlive : List Nat) (activeLeases : Int) :
    LoadInvariant initial router loaders
      (log ++ [.constructing ticket othersAlive activeLeases]) :=
  { queue := h.queue
    sorted := h.sorted
    fresh := h.fresh
    tail_waiting := h.tail_waiting
    loading_iff := h.loading_iff
    loading_idle := h.loading_idle
    loading_cleared := h.loading_cleared
    resident := by simpa [latestEngine] using h.resident
    started_sorted := by simpa [startedTickets] using h.started_sorted
    started_before := by simpa [startedTickets] using h.started_before
    started_fresh := by simpa [startedTickets] using h.started_fresh
    acquired_latest := acquired_latest_append h.acquired_latest (by simp) }

/--
The first loader leaves and clears `loading_`; `engine` is what is resident
afterwards and `record` says whether the load failed or completed.
-/
theorem LoadInvariant.finish
    {l : Loader} {rest : List Loader}
    (h : LoadInvariant initial router (l :: rest) log)
    {engine : Option Nat} {id : String} {record : Record}
    (hlatest :
      ∀ e, engine = some e → latestEngine initial (log ++ [record]) = some e)
    (hstarted : startedTickets [record] = [])
    (hacquired : ∀ number e, record ≠ Record.acquired number e) :
    LoadInvariant initial
      { router with
        currentEngine := engine, currentId := id, loading := false
        loadQueue := router.loadQueue.tail }
      rest (log ++ [record]) := by
  have hsorted := h.sorted
  rw [List.pairwise_cons] at hsorted
  refine
    { queue := by simp [h.queue]
      sorted := hsorted.2
      fresh := fun l' hl' => h.fresh l' (by simp [hl'])
      tail_waiting := fun l' hl' => h.tail_waiting l' (List.mem_of_mem_tail hl')
      loading_iff := ?_
      loading_idle := by simp
      loading_cleared := by simp
      resident := hlatest
      started_sorted := by simpa [hstarted] using h.started_sorted
      started_before := ?_
      started_fresh := by simpa [hstarted] using h.started_fresh
      acquired_latest := acquired_latest_append h.acquired_latest hacquired }
  · constructor
    · intro hl
      simp at hl
    · rintro ⟨l', hhead, hbusy⟩
      have hl' : l' ∈ rest := List.mem_of_head? hhead
      exact absurd (h.tail_waiting l' hl') hbusy
  · intro t ht l' hl' hw
    have ht' : t ∈ startedTickets log := by simpa [hstarted] using ht
    exact h.started_before t ht' l' (by simp [hl']) hw

end LoadEvents

/--
The two defects: a construction that begins while a lease is between its two
halves of `release`, and a failing copy of the model id at the commit.
-/
def defect (s : System) : Event → Bool
  | .constructBegin _ =>
      s.leases.any (fun slot =>
        match slot with
        | none => false
        | some lease => lease.releasing && lease.engine.isSome)
  | .commitThrows _ => true
  | _ => false

/-- A record that is no construction keeps `SingleEngine`. -/
theorem SingleEngine.append
    {log : List Record} (h : SingleEngine log) {r : Record}
    (hr : ∀ ticket othersAlive activeLeases,
      r = Record.constructing ticket othersAlive activeLeases →
        othersAlive = [] ∧ activeLeases = 0) :
    SingleEngine (log ++ [r]) := by
  intro ticket othersAlive activeLeases hmem
  rcases List.mem_append.mp hmem with hmem | hmem
  · exact h _ _ _ hmem
  · exact hr _ _ _ (List.mem_singleton.mp hmem).symm

section Steps

variable {initial : Option Nat} {s s' : System}

/-- Without a counted lease, only leases in their release window pin engines. -/
theorem held_leaseEngine_eq_nil
    (h : LeaseInvariant s.router.activeLeases s.leases s.log)
    (hidle : s.router.activeLeases = 0)
    (hwindow : ∀ lease, some lease ∈ s.leases → lease.releasing = true →
      lease.engine = none) :
    Slots.held leaseEngine s.leases = [] := by
  have hnone : Slots.held leaseCounted s.leases = [] := by
    have hlen := h.count
    rw [hidle] at hlen
    exact List.length_eq_zero_iff.mp (by omega)
  unfold Slots.held at hnone ⊢
  rw [List.filterMap_eq_nil_iff] at hnone ⊢
  intro slot hslot
  cases slot with
  | none => rfl
  | some lease =>
      have hcounted := hnone _ hslot
      cases hrouter : lease.router with
      | false => exact h.engine_pinned lease hslot hrouter
      | true =>
          cases hrel : lease.releasing with
          | true => exact hwindow lease hslot hrel
          | false => simp [leaseCounted, hrouter, hrel] at hcounted

/-- A thread that just dropped the resident engine finds nothing alive. -/
theorem aliveEngines_eq_nil
    (h : Invariant initial s) {l : Loader} (hmem : l ∈ s.loaders)
    (hpc : l.pc = .cleared)
    (hquiet : defect s (.constructBegin l.ticket) = false) :
    s.aliveEngines = [] ∧ s.router.activeLeases = 0 := by
  have hbusy : l.pc ≠ .waiting := by simp [hpc]
  obtain ⟨rest, hloaders⟩ := h.load.head_of_busy hmem hbusy
  have hloading : s.router.loading = true :=
    LoadInvariant.loading_of_busy (hloaders ▸ h.load) hbusy
  have hidle := h.load.loading_idle hloading
  have hwindow : ∀ lease, some lease ∈ s.leases → lease.releasing = true →
      lease.engine = none := by
    intro lease hlease hrel
    simp only [defect, List.any_eq_false] at hquiet
    have := hquiet _ hlease
    simpa [hrel] using this
  have hrest : rest.filterMap loaderEngine = [] := by
    rw [List.filterMap_eq_nil_iff]
    intro l' hl'
    have hw := h.load.tail_waiting l' (by simp [hloaders, hl'])
    simp [loaderEngine, hw]
  refine ⟨?_, hidle⟩
  simp [System.aliveEngines, h.load.loading_cleared hloading,
    held_leaseEngine_eq_nil h.lease hidle hwindow, hloaders, loaderEngine, hpc,
    hrest]

theorem Invariant.acquire
    (h : Invariant initial s) (hstep : s.acquire = some s') :
    Invariant initial s' := by
  unfold System.acquire at hstep
  split at hstep
  · simp at hstep
  · rename_i hloading
    have hidle : s.router.loading = false := by simpa using hloading
    split at hstep
    · rw [Option.some.injEq] at hstep
      exact hstep ▸ h
    · rename_i engine hengine
      rw [Option.some.injEq] at hstep
      subst hstep
      exact
        { lease := h.lease.acquire engine
          load := h.load.acquired hidle hengine _
          single := h.single.append (by simp) }

theorem Invariant.releaseCount
    (h : Invariant initial s) {address : Nat} {lease : Lease}
    (hget : s.leases[address]? = some (some lease))
    (hstep : s.releaseCount address lease = some s') :
    Invariant initial s' := by
  unfold System.releaseCount at hstep
  by_cases hheld : lease.releasing = true
  · simp [hheld] at hstep
  · by_cases hrouter : lease.router = true
    · rw [if_neg hheld, if_pos hrouter, Option.some.injEq] at hstep
      subst hstep
      have hlease := h.lease.giveBack hget hrouter (by simpa using hheld)
      refine
        { lease := hlease
          load := h.load.released _ _ ?_
          single := h.single.append (by simp) }
      intro hloading
      have hidle := h.load.loading_idle hloading
      have hcount := hlease.count
      omega
    · rw [if_neg hheld, if_neg hrouter, Option.some.injEq] at hstep
      subst hstep
      have hrouter : lease.router = false := by simpa using hrouter
      refine
        { lease := h.lease.overwrite hget ?_ ?_
          load := h.load
          single := h.single }
      · simp [leaseCounted, hrouter]
      · intro l hl _
        cases hl
        exact h.lease.engine_pinned lease (List.mem_of_getElem? hget) hrouter

theorem Invariant.releaseEngine
    (h : Invariant initial s) {address : Nat} {lease : Lease}
    (hget : s.leases[address]? = some (some lease))
    (hstep : s.releaseEngine address lease = some s') :
    Invariant initial s' := by
  unfold System.releaseEngine at hstep
  cases hrel : lease.releasing with
  | false => simp [hrel] at hstep
  | true =>
      simp only [hrel, if_true, Option.some.injEq] at hstep
      subst hstep
      refine
        { lease := h.lease.overwrite hget ?_ ?_
          load := h.load
          single := h.single }
      · simp [leaseCounted, emptyLease, hrel]
      · intro l hl _
        cases hl
        rfl

theorem Invariant.destroy
    (h : Invariant initial s) {address : Nat} {lease : Lease}
    (hget : s.leases[address]? = some (some lease))
    (hstep : s.destroy address lease = some s') :
    Invariant initial s' := by
  unfold System.destroy at hstep
  by_cases hempty : lease = emptyLease lease.number
  · rw [if_pos hempty, Option.some.injEq] at hstep
    subst hstep
    refine
      { lease := h.lease.overwrite hget ?_ (by simp)
        load := h.load
        single := h.single }
    rw [hempty]
    simp [leaseCounted, emptyLease]
  · simp [hempty] at hstep

theorem Invariant.moveConstruct
    (h : Invariant initial s) {source : Nat} {lease : Lease}
    (hget : s.leases[source]? = some (some lease))
    (hstep : s.moveConstruct source lease = some s') :
    Invariant initial s' := by
  unfold System.moveConstruct at hstep
  cases hrel : lease.releasing with
  | true => simp [hrel] at hstep
  | false =>
      simp only [hrel, Bool.false_eq_true, if_false, Option.some.injEq] at hstep
      subst hstep
      exact
        { lease := h.lease.moveConstruct hget
          load := h.load
          single := h.single }

theorem Invariant.moveAssign
    (h : Invariant initial s) {target source : Nat} {old lease : Lease}
    (htarget : s.leases[target]? = some (some old))
    (hsource : s.leases[source]? = some (some lease))
    (hstep : s.moveAssign target source old lease = some s') :
    Invariant initial s' := by
  unfold System.moveAssign at hstep
  by_cases hsame : target = source
  · rw [if_pos hsame, Option.some.injEq] at hstep
    exact hstep ▸ h
  · by_cases hok : old = emptyLease old.number ∧ lease.releasing = false
    · rw [if_neg hsame, if_pos hok, Option.some.injEq] at hstep
      subst hstep
      exact
        { lease := h.lease.moveAssign hsame htarget hok.1 hsource
          load := h.load
          single := h.single }
    · simp [hsame, hok] at hstep

theorem Invariant.enterLoad
    (h : Invariant initial s) (requestedModel : String) :
    Invariant initial (s.load requestedModel) := by
  unfold System.load
  cases resolveIdOrThrow s.router requestedModel with
  | none => exact h
  | some id =>
      by_cases hdyn : s.router.dynamic = true
      · simp only [hdyn, Bool.not_true, Bool.false_eq_true, if_false]
        have hload := h.load.enter id
        rw [hdyn] at hload
        exact
          { lease := h.lease
            load := hload
            single := h.single }
      · simpa [hdyn] using h

theorem Invariant.loadPass
    (h : Invariant initial s) {l : Loader} (hmem : l ∈ s.loaders)
    (hstep : s.loadPass l = some s') :
    Invariant initial s' := by
  unfold System.loadPass at hstep
  split at hstep
  · rename_i hpass
    obtain ⟨hpc, hfront, hloading, hidle⟩ := hpass
    obtain ⟨rest, hloaders⟩ := h.load.head_of_front hmem hfront
    have hload := h.load
    rw [hloaders] at hload
    split at hstep
    · rw [Option.some.injEq] at hstep
      subst hstep
      refine
        { lease := h.lease.record _ rfl rfl
          load := ?_
          single := h.single.append (by simp) }
      rw [hloaders, leave_head]
      exact hload.unchanged hpc hloading
    · rw [Option.some.injEq] at hstep
      subst hstep
      refine
        { lease := h.lease.record _ rfl rfl
          load := ?_
          single := h.single.append (by simp) }
      rw [hloaders, setPc_head _ hload.sorted]
      exact hload.clear hpc hidle
  · simp at hstep

theorem Invariant.constructBegin
    (h : Invariant initial s) {l : Loader} (hmem : l ∈ s.loaders)
    (hquiet : defect s (.constructBegin l.ticket) = false)
    (hstep : s.constructBegin l = some s') :
    Invariant initial s' := by
  unfold System.constructBegin at hstep
  by_cases hpc : l.pc = .cleared
  · rw [if_pos hpc, Option.some.injEq] at hstep
    subst hstep
    have hbusy : l.pc ≠ .waiting := by simp [hpc]
    obtain ⟨rest, hloaders⟩ := h.load.head_of_busy hmem hbusy
    have hload := h.load
    rw [hloaders] at hload
    obtain ⟨halive, hidle⟩ := aliveEngines_eq_nil h hmem hpc hquiet
    refine
      { lease := h.lease.record _ rfl rfl
        load := ?_
        single := h.single.append ?_ }
    · rw [hloaders, setPc_head _ hload.sorted]
      exact (hload.advance hbusy (by simp)).recordConstructing _ _ _
    · intro ticket othersAlive activeLeases heq
      simp only [Record.constructing.injEq] at heq
      obtain ⟨-, rfl, rfl⟩ := heq
      exact ⟨halive, hidle⟩
  · simp [hpc] at hstep

theorem Invariant.constructDone
    (h : Invariant initial s) {l : Loader} (hmem : l ∈ s.loaders)
    (hstep : s.constructDone l = some s') :
    Invariant initial s' := by
  unfold System.constructDone at hstep
  by_cases hpc : l.pc = .constructing
  · rw [if_pos hpc, Option.some.injEq] at hstep
    subst hstep
    have hbusy : l.pc ≠ .waiting := by simp [hpc]
    obtain ⟨rest, hloaders⟩ := h.load.head_of_busy hmem hbusy
    have hload := h.load
    rw [hloaders] at hload
    refine
      { lease := h.lease
        load := ?_
        single := h.single }
    rw [hloaders, setPc_head _ hload.sorted]
    exact hload.advance hbusy (by simp)
  · simp [hpc] at hstep

theorem Invariant.constructFail
    (h : Invariant initial s) {l : Loader} (hmem : l ∈ s.loaders)
    (hstep : s.constructFail l = some s') :
    Invariant initial s' := by
  unfold System.constructFail at hstep
  by_cases hpc : l.pc = .constructing
  · rw [if_pos hpc, Option.some.injEq] at hstep
    subst hstep
    have hbusy : l.pc ≠ .waiting := by simp [hpc]
    obtain ⟨rest, hloaders⟩ := h.load.head_of_busy hmem hbusy
    have hload := h.load
    rw [hloaders] at hload
    have hnone := hload.loading_cleared (hload.loading_of_busy hbusy)
    refine
      { lease := h.lease.record _ rfl rfl
        load := ?_
        single := h.single.append (by simp) }
    rw [hloaders, leave_head]
    exact hload.finish (by simp [hnone]) rfl (by simp)
  · simp [hpc] at hstep

theorem Invariant.commit
    (h : Invariant initial s) {l : Loader} (hmem : l ∈ s.loaders)
    (hstep : s.commit l = some s') :
    Invariant initial s' := by
  unfold System.commit at hstep
  split at hstep
  · rename_i engine hpc
    rw [Option.some.injEq] at hstep
    subst hstep
    have hbusy : l.pc ≠ .waiting := by simp [hpc]
    obtain ⟨rest, hloaders⟩ := h.load.head_of_busy hmem hbusy
    have hload := h.load
    rw [hloaders] at hload
    refine
      { lease := h.lease.record _ rfl rfl
        load := ?_
        single := h.single.append (by simp) }
    rw [hloaders, leave_head]
    exact hload.finish (by simp [latestEngine]) rfl (by simp)
  · simp at hstep

/-- Every event outside the two defects keeps the invariant. -/
theorem step_invariant
    {e : Event}
    (h : Invariant initial s)
    (hquiet : defect s e = false)
    (hstep : step s e = some s') :
    Invariant initial s' := by
  have hloader : ∀ {t : Nat} {l : Loader}, s.loaderOf t = some l →
      l ∈ s.loaders ∧ l.ticket = t := by
    intro t l hl
    have hticket := List.find?_some hl
    exact ⟨List.mem_of_find?_eq_some hl, by simpa using hticket⟩
  cases e with
  | acquire => exact h.acquire hstep
  | releaseCount i =>
      obtain ⟨lease, hget, hs⟩ := Option.bind_eq_some_iff.mp hstep
      exact h.releaseCount (leaseAt_some hget) hs
  | releaseEngine i =>
      obtain ⟨lease, hget, hs⟩ := Option.bind_eq_some_iff.mp hstep
      exact h.releaseEngine (leaseAt_some hget) hs
  | destroy i =>
      obtain ⟨lease, hget, hs⟩ := Option.bind_eq_some_iff.mp hstep
      exact h.destroy (leaseAt_some hget) hs
  | moveConstruct i =>
      obtain ⟨lease, hget, hs⟩ := Option.bind_eq_some_iff.mp hstep
      exact h.moveConstruct (leaseAt_some hget) hs
  | moveAssign i j =>
      obtain ⟨old, hold, hs⟩ := Option.bind_eq_some_iff.mp hstep
      obtain ⟨lease, hget, hs⟩ := Option.bind_eq_some_iff.mp hs
      exact h.moveAssign (leaseAt_some hold) (leaseAt_some hget) hs
  | load requestedModel =>
      have heq : s.load requestedModel = s' := by simpa [step] using hstep
      exact heq ▸ h.enterLoad requestedModel
  | loadPass t =>
      obtain ⟨l, hl, hs⟩ := Option.bind_eq_some_iff.mp hstep
      exact h.loadPass (hloader hl).1 hs
  | constructBegin t =>
      obtain ⟨l, hl, hs⟩ := Option.bind_eq_some_iff.mp hstep
      obtain ⟨hmem, rfl⟩ := hloader hl
      exact h.constructBegin hmem hquiet hs
  | constructFail t =>
      obtain ⟨l, hl, hs⟩ := Option.bind_eq_some_iff.mp hstep
      exact h.constructFail (hloader hl).1 hs
  | constructDone t =>
      obtain ⟨l, hl, hs⟩ := Option.bind_eq_some_iff.mp hstep
      exact h.constructDone (hloader hl).1 hs
  | commit t =>
      obtain ⟨l, hl, hs⟩ := Option.bind_eq_some_iff.mp hstep
      exact h.commit (hloader hl).1 hs
  | commitThrows t => simp [defect] at hquiet

/-- The first loader in line can go as soon as the last lease is released. -/
theorem Invariant.front_not_blocked
    (h : Invariant initial s) {l : Loader} {rest : List Loader}
    (hloaders : s.loaders = l :: rest)
    (hpc : l.pc = .waiting)
    (hidle : s.router.activeLeases = 0) :
    (step s (.loadPass l.ticket)).isSome := by
  have hfind : s.loaderOf l.ticket = some l := by
    simp [System.loaderOf, hloaders]
  have hloading : s.router.loading = false := by
    cases hl : s.router.loading with
    | false => rfl
    | true =>
        obtain ⟨l', hhead, hbusy⟩ := h.load.loading_iff.mp hl
        rw [hloaders, List.head?_cons, Option.some.injEq] at hhead
        exact absurd (hhead ▸ hpc) hbusy
  have hfront : s.router.loadQueue.head? = some l.ticket := by
    simp [h.load.queue, hloaders]
  simp only [step, hfind, Option.bind_some, System.loadPass]
  rw [if_pos ⟨hpc, hfront, hloading, hidle⟩]
  split <;> rfl

theorem Invariant.safe
    (h : Invariant initial s) : RouterSafe initial s :=
  { single_engine := h.single
    served_in_order := h.load.started_sorted
    no_overtaking := h.load.started_before
    queue_eq_loaders := h.load.queue
    front_not_blocked := fun _ _ => h.front_not_blocked
    acquired_latest := h.load.acquired_latest
    replaced_not_handed_out := h.load.loading_cleared
    counted_once := ⟨h.lease.numbers ▸ List.nodup_range, h.lease.conserved⟩
    count_eq := h.lease.count }

end Steps

/-- A router as one of the two constructors leaves it. -/
def Router.Constructed (router : Router) : Prop :=
  (∃ modelName, router = Router.fixed modelName) ∨
    ∃ modelPaths, router = Router.directory modelPaths

theorem invariant_init
    {router : Router} (hrouter : router.Constructed) :
    Invariant router.currentEngine (System.init router) := by
  have hlog : ∀ before number engine after,
      ([] : List Record) ≠ before ++ Record.acquired number engine :: after := by
    intro before number engine after h
    simpa using congrArg List.length h
  rcases hrouter with ⟨modelName, rfl⟩ | ⟨modelPaths, rfl⟩
  all_goals
    refine
      { lease := ?_
        load := ?_
        single := by simp [SingleEngine, System.init] }
    · constructor <;>
        simp [System.init, Router.fixed, Router.directory, acquiredNumbers,
          releasedNumbers]
    · constructor <;>
        simp [System.init, Router.fixed, Router.directory, startedTickets,
          latestEngine]

/--
Safety of the router: every state reached by a run without the two defects is
safe.
-/
theorem routerSafe_of_run
    {router : Router} (hrouter : router.Constructed)
    {es : List Event} {s : System}
    (hquiet :
      StepsMeet step (fun s e => defect s e = false) (System.init router) es)
    (hrun : exec step (System.init router) es = some s) :
    RouterSafe router.currentEngine s :=
  Invariant.safe
    (exec_invariant (fun _ _ _ hI hq hs => step_invariant hI hq hs)
      (invariant_init hrouter) hquiet hrun)

/-- A request ends, and the next model is built, in the ordinary order. -/
def ordinaryRun : List Event :=
  [.load "a", .loadPass 0, .constructBegin 0, .constructDone 0, .commit 0,
   .acquire, .load "b", .releaseCount 0, .releaseEngine 0, .destroy 0,
   .loadPass 1, .constructBegin 1, .constructFail 1]

theorem routerSafe_ordinaryRun :
    ∃ s, exec step (System.init (Router.directory ["a", "b"])) ordinaryRun = some s ∧
      RouterSafe none s :=
  have hquiet :
      StepsMeet step (fun s e => defect s e = false)
        (System.init (Router.directory ["a", "b"])) ordinaryRun := by
    decide
  ⟨_, rfl, routerSafe_of_run (Or.inr ⟨_, rfl⟩) hquiet rfl⟩

/-- The lease has given its count back but still refers to its engine. -/
def lateDropRun : List Event :=
  [.load "a", .loadPass 0, .constructBegin 0, .constructDone 0, .commit 0,
   .acquire, .load "b", .releaseCount 0, .loadPass 1, .constructBegin 1]

/-- Engine 1 is alive when the construction of its successor begins. -/
theorem lateDrop_twoEngines :
    ∃ s, exec step (System.init (Router.directory ["a", "b"])) lateDropRun = some s ∧
      Record.constructing 1 [1] 0 ∈ s.log ∧
      ¬ RouterSafe none s := by
  refine ⟨_, rfl, by decide, ?_⟩
  intro h
  have hsingle := h.single_engine 1 [1] 0 (by decide)
  simp at hsingle

end ModelRouter
end RwkvLightning
