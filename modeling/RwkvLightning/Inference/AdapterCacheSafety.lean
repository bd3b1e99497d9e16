import RwkvLightning.Inference.AdapterCache
import RwkvLightning.Library.Association
import Mathlib

/-!
# The books of the adapter cache

The registry with its order, the packages in memory and the residents of the GPU
are three sets of books.  Each operation is shown to keep each of them.

**Results.**
* `OrderKept`, `RamKept`, `GpuKept`: the three invariants, with a lemma for each
  operation.
* `bookkept_of_run`: what they say to a user, after every run.
-/

namespace RwkvLightning
namespace AdapterCache

open Association Execution

section Order

/-- The versions registered under each id, the latest registration first. -/
abbrev Log := String → List String

def Log.add (log : Log) (id version : String) : Log :=
  Function.update log id (version :: log id)

/-- `v` was registered later than `w`. -/
def Log.Later (log : Log) (id v w : String) : Prop :=
  (log id).idxOf v < (log id).idxOf w

/-- The registration order of an id. -/
structure OrderKept (c : Cache) (log : Log) : Prop where
  entries : (c.registry.map (fun e => (e.id, e.version))).Nodup
  perm : ∀ id, (c.registrationOrder id).Perm (c.versions id)
  latest : ∀ id, c.latest id = (c.registrationOrder id).getLast?
  later : ∀ id, (c.registrationOrder id).Pairwise (fun v w => log.Later id w v)
  logged : ∀ id, ∀ v ∈ c.registrationOrder id, v ∈ log id

variable {c c' : Cache} {log : Log} {id version : String}

/-- Operations that leave the registry and its order alone. -/
theorem orderKept_same (h : OrderKept c log) (hregistry : c'.registry = c.registry)
    (hlatest : c'.latest = c.latest) (horder : c'.registrationOrder = c.registrationOrder) :
    OrderKept c' log := by
  constructor
  · rw [hregistry]
    exact h.entries
  · intro id
    unfold Cache.versions
    rw [horder, hregistry]
    exact h.perm id
  · rw [hlatest, horder]
    exact h.latest
  · rw [horder]
    exact h.later
  · rw [horder]
    exact h.logged

theorem mem_versions {v : String} :
    v ∈ c.versions id ↔ ∃ e ∈ c.registry, e.id = id ∧ e.version = v := by
  simp [Cache.versions, and_assoc]

/-- A registration in the log is later than all others. -/
theorem later_add {v : String} (hne : v ≠ version) :
    (log.add id version).Later id version v := by
  unfold Log.Later Log.add
  rw [Function.update_self, List.idxOf_cons_self, List.idxOf_cons_ne _ (Ne.symm hne)]
  exact Nat.succ_pos _

theorem later_add_of_ne {id' v w : String} (hv : v ≠ version) (hw : w ≠ version)
    (h : log.Later id' v w) : (log.add id version).Later id' v w := by
  unfold Log.Later Log.add at *
  by_cases hid : id' = id
  · subst hid
    rw [Function.update_self, List.idxOf_cons_ne _ (Ne.symm hv),
      List.idxOf_cons_ne _ (Ne.symm hw)]
    exact Nat.succ_lt_succ h
  · rwa [Function.update_of_ne hid]

/-- `set_latest` after a version got an entry. -/
theorem orderKept_setLatest (hentries : (c.registry.map (fun e => (e.id, e.version))).Nodup)
    (hperm : ∀ id', id' ≠ id → (c.registrationOrder id').Perm (c.versions id'))
    (hversions : ((c.registrationOrder id).filter (fun v => v ≠ version) ++ [version]).Perm
      (c.versions id))
    (hlatest : ∀ id', id' ≠ id → c.latest id' = (c.registrationOrder id').getLast?)
    (hlater : ∀ id', (c.registrationOrder id').Pairwise (fun v w => log.Later id' w v))
    (hlogged : ∀ id', ∀ v ∈ c.registrationOrder id', v ∈ log id') :
    OrderKept (c.setLatest id version) (log.add id version) where
  entries := hentries
  perm := by
    intro id'
    by_cases hid : id' = id
    · subst hid
      simp only [Cache.setLatest, Function.update_self]
      exact hversions
    · simp only [Cache.setLatest, Function.update_of_ne hid]
      exact hperm id' hid
  latest := by
    intro id'
    by_cases hid : id' = id
    · subst hid
      simp [Cache.setLatest]
    · simp only [Cache.setLatest, Function.update_of_ne hid]
      exact hlatest id' hid
  later := by
    intro id'
    by_cases hid : id' = id
    · subst hid
      simp only [Cache.setLatest, Function.update_self]
      rw [List.pairwise_append]
      refine ⟨?_, List.pairwise_singleton _ _, ?_⟩
      · refine ((hlater id').filter _).imp_of_mem ?_
        intro v w hv hw hvw
        have hv' : v ≠ version := by simpa using List.of_mem_filter hv
        have hw' : w ≠ version := by simpa using List.of_mem_filter hw
        exact later_add_of_ne hw' hv' hvw
      · intro v hv w hw
        rw [List.mem_singleton.mp hw]
        exact later_add (by simpa using List.of_mem_filter hv)
    · simp only [Cache.setLatest, Function.update_of_ne hid]
      refine (hlater id').imp ?_
      intro v w hvw
      unfold Log.Later Log.add at *
      rwa [Function.update_of_ne hid]
  logged := by
    intro id' v hv
    by_cases hid : id' = id
    · subst hid
      simp only [Cache.setLatest, Function.update_self, List.mem_append, List.mem_filter,
        List.mem_singleton] at hv
      simp only [Log.add, Function.update_self, List.mem_cons]
      rcases hv with ⟨hv, -⟩ | hv
      · exact Or.inr (hlogged id' v hv)
      · exact Or.inl hv
    · simp only [Cache.setLatest, Function.update_of_ne hid] at hv
      simp only [Log.add, Function.update_of_ne hid]
      exact hlogged id' v hv

/-- The order has no repetitions. -/
theorem nodup_order (h : OrderKept c log) (id : String) : (c.registrationOrder id).Nodup := by
  refine (h.later id).imp ?_
  rintro v _ hvw rfl
  exact absurd hvw (Nat.lt_irrefl _)

theorem nodup_filter_append {l : List String} (h : l.Nodup) (v : String) :
    (l.filter (fun w => w ≠ v) ++ [v]).Nodup := by
  rw [List.nodup_append]
  refine ⟨h.filter _, List.nodup_singleton v, fun w hw x hx => ?_⟩
  rw [List.mem_singleton.mp hx]
  simpa using List.of_mem_filter hw

/-- A version that is registered again. -/
theorem orderKept_again (h : OrderKept c log) (hmem : version ∈ c.versions id) :
    OrderKept (c.setLatest id version) (log.add id version) := by
  refine orderKept_setLatest h.entries (fun id' _ => h.perm id') ?_ (fun id' _ => h.latest id')
    h.later h.logged
  refine List.Perm.trans ?_ (h.perm id)
  rw [List.perm_ext_iff_of_nodup (nodup_filter_append (nodup_order h id) version)
    (nodup_order h id)]
  intro v
  have hin : version ∈ c.registrationOrder id := (h.perm id).mem_iff.mpr hmem
  by_cases hv : v = version
  · subst hv
    simp [hin]
  · simp [hv]

/-- A version that gets an entry. -/
theorem orderKept_entry (h : OrderKept c log) {p : Package}
    (hmem : p.version ∉ c.versions id) :
    OrderKept ((c.addEntry id p).setLatest id p.version) (log.add id p.version) := by
  have hversions : ∀ id', (c.addEntry id p).versions id' =
      c.versions id' ++ (if id' = id then [p.version] else []) := by
    intro id'
    unfold Cache.versions Cache.addEntry
    dsimp only
    rw [List.filter_append, List.map_append]
    by_cases hid : id' = id
    · subst hid
      simp
    · rw [if_neg hid, List.filter_cons_of_neg (by simpa using fun h => hid h.symm)]
      rfl
  have hfilter : (c.registrationOrder id).filter (fun v => v ≠ p.version) =
      c.registrationOrder id := by
    rw [List.filter_eq_self]
    intro v hv
    have hin := (h.perm id).mem_iff.mp hv
    simpa using fun heq : v = p.version => hmem (heq ▸ hin)
  refine orderKept_setLatest ?_ ?_ ?_ (fun id' _ => h.latest id') h.later h.logged
  · simp only [Cache.addEntry, List.map_append, List.map_cons, List.map_nil]
    rw [List.nodup_append]
    refine ⟨h.entries, List.nodup_singleton _, fun x hx y hy => ?_⟩
    rw [List.mem_singleton.mp hy]
    rintro rfl
    obtain ⟨e, he, heq⟩ := List.mem_map.mp hx
    obtain ⟨hid, hversion⟩ := Prod.mk.inj heq
    exact hmem (mem_versions.mpr ⟨e, he, hid, hversion⟩)
  · intro id' hid
    rw [hversions, if_neg hid, List.append_nil]
    exact h.perm id'
  · rw [hversions, if_pos rfl]
    have horder : (c.addEntry id p).registrationOrder = c.registrationOrder := rfl
    rw [horder, hfilter]
    exact (h.perm id).append_right _

/-- The last one stays when others are dropped. -/
theorem getLast?_filter_ne {l : List String} {v : String} (h : l.getLast? ≠ some v) :
    (l.filter (fun w => w ≠ v)).getLast? = l.getLast? := by
  cases l using List.reverseRecOn with
  | nil => rfl
  | append_singleton l w =>
      have hne : w ≠ v := by
        rintro rfl
        exact h (by simp)
      rw [List.filter_append, List.filter_cons_of_pos (by simpa using hne)]
      simp

/-- The versions of an id after some were dropped. -/
theorem versions_drop (id : String) (keep : String → Bool)
    (hregistry : c'.registry = c.registry.filter (fun e => e.id ≠ id || keep e.version))
    (id' : String) :
    c'.versions id' = if id' = id then (c.versions id').filter keep else c.versions id' := by
  unfold Cache.versions
  rw [hregistry, List.filter_filter]
  split_ifs with hid
  · subst hid
    rw [List.filter_map, List.filter_filter]
    congr 1
    apply List.filter_congr
    intro e _
    by_cases he : e.id = id' <;> simp [he]
  · congr 1
    apply List.filter_congr
    intro e _
    by_cases he : e.id = id'
    · subst he
      simp [hid]
    · simp [he]

/-- Some versions of an id are dropped. -/
theorem orderKept_drop (h : OrderKept c log) (id : String) (keep : String → Bool)
    (hregistry : c'.registry = c.registry.filter (fun e => e.id ≠ id || keep e.version))
    (horder : c'.registrationOrder =
      Function.update c.registrationOrder id ((c.registrationOrder id).filter keep))
    (hlatest : ∀ id', c'.latest id' = (c'.registrationOrder id').getLast?) :
    OrderKept c' log := by
  have hsublist : ∀ id', (c'.registrationOrder id').Sublist (c.registrationOrder id') := by
    intro id'
    rw [horder]
    by_cases hid : id' = id
    · subst hid
      rw [Function.update_self]
      exact List.filter_sublist
    · rw [Function.update_of_ne hid]
  refine ⟨?_, fun id' => ?_, hlatest, fun id' => (h.later id').sublist (hsublist id'),
    fun id' v hv => h.logged id' v ((hsublist id').mem hv)⟩
  · rw [hregistry]
    exact h.entries.sublist (List.filter_sublist.map _)
  · rw [horder, versions_drop id keep hregistry]
    split_ifs with hid
    · subst hid
      rw [Function.update_self]
      exact (h.perm id').filter keep
    · rw [Function.update_of_ne hid]
      exact h.perm id'

theorem orderKept_erase (h : OrderKept c log) (id version : String) :
    OrderKept (c.erase id version) log := by
  unfold Cache.erase
  by_cases hnone : c.versions id = []
  · rw [if_pos hnone]
    exact h
  rw [if_neg hnone]
  by_cases hall : version = ""
  · refine orderKept_drop h id (fun _ => false) ?_ ?_ (fun id' => ?_)
    · simp [Cache.accountRam, hall]
    · simp [Cache.accountRam, hall]
    · by_cases hid : id' = id
      · subst hid
        simp [Cache.accountRam, hall]
      · simp [Cache.accountRam, hall, Function.update_of_ne hid, h.latest id']
  · have hkeep : ∀ e : Entry, decide (¬(e.id = id ∧ e.version = version)) =
        (decide (e.id ≠ id) || decide (e.version ≠ version)) := by
      intro e
      by_cases he : e.id = id <;> simp [he]
    simp only [if_neg hall, hkeep]
    -- The cache after the version is gone, before `latest_` is looked at.
    generalize hd : ({ c with
      registry := c.registry.filter
        (fun e => decide (e.id ≠ id) || decide (e.version ≠ version))
      registrationOrder :=
        Function.update c.registrationOrder id
          ((c.registrationOrder id).filter (fun v => decide (v ≠ version))) } : Cache) = d
    have hregistry : d.registry = c.registry.filter
        (fun e => decide (e.id ≠ id) || decide (e.version ≠ version)) := by rw [← hd]
    have horder : d.registrationOrder = Function.update c.registrationOrder id
        ((c.registrationOrder id).filter (fun v => decide (v ≠ version))) := by rw [← hd]
    have hlatest : d.latest = c.latest := by rw [← hd]
    have hversions := versions_drop id (fun v => decide (v ≠ version)) hregistry id
    rw [if_pos rfl] at hversions
    have hperm := ((h.perm id).filter (fun v => decide (v ≠ version))).trans
      (List.Perm.of_eq hversions.symm)
    by_cases hempty : d.versions id = []
    · rw [if_pos hempty]
      rw [hempty] at hperm
      refine orderKept_drop h id (fun v => decide (v ≠ version)) rfl ?_ (fun id' => ?_)
      · dsimp only [Cache.accountRam]
        rw [hperm.eq_nil, Function.update_idem]
      · by_cases hid : id' = id
        · subst hid
          simp [Cache.accountRam]
        · simp [Cache.accountRam, Function.update_of_ne hid, h.latest id']
    rw [if_neg hempty]
    by_cases hlast : c.latest id = some version
    · rw [if_pos hlast]
      refine orderKept_drop h id (fun v => decide (v ≠ version)) rfl rfl (fun id' => ?_)
      by_cases hid : id' = id
      · subst hid
        simp [Cache.accountRam]
      · simp [Cache.accountRam, Function.update_of_ne hid, h.latest id']
    · rw [if_neg hlast]
      refine orderKept_drop h id (fun v => decide (v ≠ version)) hregistry horder (fun id' => ?_)
      by_cases hid : id' = id
      · subst hid
        rw [h.latest id'] at hlast
        simp only [Cache.accountRam, hlatest, horder, Function.update_self, h.latest id']
        exact (getLast?_filter_ne hlast).symm
      · simp [Cache.accountRam, Function.update_of_ne hid, hlatest, horder, h.latest id']

end Order

section Gpu

/-- The residents and their bytes. -/
structure GpuKept (c : Cache) : Prop where
  nodup : (c.gpu.map Prod.fst).Nodup
  bytes : c.gpuBytes = (c.gpu.map (fun x => x.2.bytes)).sum
  budget : c.gpuBytes ≤ c.gpuBudget
  resident : ∀ l ∈ c.leases, ∃ x ∈ c.gpu, x.2.lease = l

/-- The residents that somebody holds in `c` are residents of `c'`. -/
def Pinned (c c' : Cache) : Prop :=
  ∀ x ∈ c.gpu, c.held x.2.lease = true → ∃ y ∈ c'.gpu, y.1 = x.1 ∧ y.2.lease = x.2.lease

/-- Only the residents and their bytes differ. -/
def GpuOnly (c c' : Cache) : Prop :=
  c' = { c with gpu := c'.gpu, gpuBytes := c'.gpuBytes }

variable {c c' : Cache} {x : String × Resident}

theorem pinned_of_gpu (h : c'.gpu = c.gpu) : Pinned c c' :=
  fun x hx _ => ⟨x, h ▸ hx, rfl, rfl⟩

theorem Pinned.trans {d : Cache} (h : Pinned c d) (h' : Pinned d c')
    (hleases : d.leases = c.leases) : Pinned c c' := by
  intro x hx hheld
  obtain ⟨y, hy, hkey, hlease⟩ := h x hx hheld
  have hheld' : d.held y.2.lease = true := by
    unfold Cache.held at *
    rw [hleases, hlease]
    exact hheld
  obtain ⟨z, hz, hkey', hlease'⟩ := h' y hy hheld'
  exact ⟨z, hz, hkey'.trans hkey, hlease'.trans hlease⟩

theorem sum_filter_key (f : String × Resident → Nat) {l : List (String × Resident)}
    (hnodup : (l.map Prod.fst).Nodup) (hx : x ∈ l) :
    ((l.filter (fun y => y.1 ≠ x.1)).map f).sum + f x = (l.map f).sum := by
  induction l with
  | nil => simp at hx
  | cons y l ih =>
      obtain ⟨hnot, hrest⟩ := List.nodup_cons.mp hnodup
      rcases List.mem_cons.mp hx with rfl | hx
      · have hall : l.filter (fun y => y.1 ≠ x.1) = l := by
          rw [List.filter_eq_self]
          intro y hy
          simpa using fun heq : y.1 = x.1 => hnot (heq ▸ List.mem_map_of_mem hy)
        rw [List.filter_cons_of_neg (by simp), hall, List.map_cons, List.sum_cons, Nat.add_comm]
      · have hne : y.1 ≠ x.1 := fun heq => hnot (heq ▸ List.mem_map_of_mem hx)
        have := ih hrest hx
        rw [List.filter_cons_of_pos (by simpa using hne), List.map_cons, List.sum_cons,
          List.map_cons, List.sum_cons]
        omega

/-- Operations that leave the GPU alone. -/
structure GpuSame (c c' : Cache) : Prop where
  gpu : c'.gpu = c.gpu
  bytes : c'.gpuBytes = c.gpuBytes
  budget : c'.gpuBudget = c.gpuBudget
  leases : c'.leases = c.leases

theorem GpuSame.trans {d : Cache} (h : GpuSame c d) (h' : GpuSame d c') : GpuSame c c' :=
  ⟨h'.gpu.trans h.gpu, h'.bytes.trans h.bytes, h'.budget.trans h.budget, h'.leases.trans h.leases⟩

theorem gpuSame_accountRam (c : Cache) : GpuSame c c.accountRam :=
  ⟨rfl, rfl, rfl, rfl⟩

/-- Operations after which nobody holds a lease that was free. -/
theorem gpuKept_of_leases (h : GpuKept c) (hgpu : c'.gpu = c.gpu)
    (hbytes : c'.gpuBytes = c.gpuBytes) (hbudget : c'.gpuBudget = c.gpuBudget)
    (hleases : ∀ l ∈ c'.leases, l ∈ c.leases) : GpuKept c' := by
  constructor
  · rw [hgpu]
    exact h.nodup
  · rw [hgpu, hbytes]
    exact h.bytes
  · rw [hbytes, hbudget]
    exact h.budget
  · intro l hl
    rw [hgpu]
    exact h.resident l (hleases l hl)

theorem gpuKept_same (h : GpuKept c) (hsame : GpuSame c c') : GpuKept c' :=
  gpuKept_of_leases h hsame.gpu hsame.bytes hsame.budget (fun _ hl => hsame.leases ▸ hl)

theorem gpuKept_evict (h : GpuKept c) (hx : x ∈ c.gpu) (hheld : c.held x.2.lease = false) :
    GpuKept (c.evict x) := by
  have hsum := sum_filter_key (fun y => y.2.bytes) h.nodup hx
  have hbytes := h.bytes
  constructor
  · exact h.nodup.sublist (List.filter_sublist.map _)
  · simp only [Cache.evict]
    omega
  · exact Nat.le_trans (Nat.sub_le _ _) h.budget
  · intro l hl
    obtain ⟨y, hy, rfl⟩ := h.resident l hl
    have hne : y.1 ≠ x.1 := by
      intro heq
      rw [List.inj_on_of_nodup_map h.nodup hy hx heq] at hl
      simp [Cache.held] at hheld
      exact hheld hl
    exact ⟨y, List.mem_filter.mpr ⟨hy, by simpa using hne⟩, rfl⟩

theorem pinned_evict (h : GpuKept c) (hx : x ∈ c.gpu) (hheld : c.held x.2.lease = false) :
    Pinned c (c.evict x) := by
  intro y hy hheld'
  have hne : y.1 ≠ x.1 := by
    intro heq
    rw [List.inj_on_of_nodup_map h.nodup hy hx heq, hheld] at hheld'
    exact Bool.false_ne_true hheld'
  exact ⟨y, List.mem_filter.mpr ⟨hy, by simpa using hne⟩, rfl, rfl⟩

/-- The loop over the residents finds one that nobody holds, or all are held. -/
theorem foldl_better (l : List (String × Resident)) (best : Option (String × Resident))
    (hin : ∀ y ∈ l, y ∈ c.gpu) (hbest : ∀ y ∈ best, y ∈ c.gpu ∧ c.held y.2.lease = false) :
    (∀ y ∈ l.foldl c.better best, y ∈ c.gpu ∧ c.held y.2.lease = false) ∧
      (l.foldl c.better best = none → best = none ∧ ∀ y ∈ l, c.held y.2.lease = true) := by
  induction l generalizing best with
  | nil => exact ⟨hbest, fun hnone => ⟨hnone, by simp⟩⟩
  | cons z l ih =>
      rw [List.foldl_cons]
      have hz := hin z List.mem_cons_self
      have hrest : ∀ y ∈ l, y ∈ c.gpu := fun y hy => hin y (List.mem_cons_of_mem _ hy)
      cases hheld : c.held z.2.lease with
      | true =>
          have hskip : c.better best z = best := by simp [Cache.better, hheld]
          rw [hskip]
          refine ⟨(ih best hrest hbest).1, fun hnone => ?_⟩
          obtain ⟨hnone, hall⟩ := (ih best hrest hbest).2 hnone
          refine ⟨hnone, fun y hy => ?_⟩
          rcases List.mem_cons.mp hy with rfl | hy
          · exact hheld
          · exact hall y hy
      | false =>
          have htake : ∃ y, c.better best z = some y ∧ y ∈ c.gpu ∧ c.held y.2.lease = false := by
            cases best with
            | none => exact ⟨z, by simp [Cache.better, hheld], hz, hheld⟩
            | some w =>
                by_cases hused : z.2.used < w.2.used
                · exact ⟨z, by simp [Cache.better, hheld, hused], hz, hheld⟩
                · exact ⟨w, by simp [Cache.better, hheld, hused], hbest w rfl⟩
          obtain ⟨y, hy, hok⟩ := htake
          rw [hy]
          have hkept : ∀ w ∈ some y, w ∈ c.gpu ∧ c.held w.2.lease = false := by
            intro w hw
            rwa [← Option.some.inj hw]
          refine ⟨(ih _ hrest hkept).1, fun hnone => ?_⟩
          exact absurd ((ih _ hrest hkept).2 hnone).1 (by simp)

theorem evictable_spec {x : String × Resident} (hbest : c.evictable = some x) :
    x ∈ c.gpu ∧ c.held x.2.lease = false :=
  (foldl_better c.gpu none (fun _ hy => hy) (by simp)).1 x hbest

/-- No resident can be evicted when all are held. -/
theorem evictable_none (hnone : c.evictable = none) :
    ∀ x ∈ c.gpu, c.held x.2.lease = true :=
  ((foldl_better c.gpu none (fun _ hy => hy) (by simp)).2 hnone).2

/-- The loop of `admit_gpu`. -/
theorem admitLoop_spec (bytes : Nat) (fuel : Nat) (h : GpuKept c) :
    GpuOnly c (Cache.admitLoop bytes fuel c).1 ∧ GpuKept (Cache.admitLoop bytes fuel c).1 ∧
      Pinned c (Cache.admitLoop bytes fuel c).1 ∧
      (∀ x ∈ (Cache.admitLoop bytes fuel c).1.gpu, x ∈ c.gpu) ∧
      ((Cache.admitLoop bytes fuel c).2 = true →
        (Cache.admitLoop bytes fuel c).1.gpuBytes ≤ c.gpuBudget - bytes) := by
  induction fuel generalizing c with
  | zero => exact ⟨rfl, h, pinned_of_gpu rfl, fun _ hx => hx, fun hok => of_decide_eq_true hok⟩
  | succ fuel ih =>
      unfold Cache.admitLoop
      by_cases hfits : c.gpuBytes ≤ c.gpuBudget - bytes
      · rw [if_pos hfits]
        exact ⟨rfl, h, pinned_of_gpu rfl, fun _ hx => hx, fun _ => hfits⟩
      rw [if_neg hfits]
      cases hbest : c.evictable with
      | none => exact ⟨rfl, h, pinned_of_gpu rfl, fun _ hx => hx, fun hok => nomatch hok⟩
      | some x =>
          obtain ⟨hx, hheld⟩ := evictable_spec hbest
          obtain ⟨honly, hkept, hpinned, hsub, hok⟩ := ih (gpuKept_evict h hx hheld)
          refine ⟨?_, hkept, (pinned_evict h hx hheld).trans hpinned rfl, ?_, hok⟩
          · unfold GpuOnly at *
            rw [honly]
            rfl
          · exact fun y hy => List.mem_of_mem_filter (hsub y hy)

/-- `admit_gpu` fails only where everything that is left is held: the passes suffice. -/
theorem admitLoop_denied (bytes : Nat) (fuel : Nat) (h : GpuKept c)
    (hfuel : c.gpu.length ≤ fuel) (hdenied : (Cache.admitLoop bytes fuel c).2 = false) :
    ∀ x ∈ (Cache.admitLoop bytes fuel c).1.gpu, c.held x.2.lease = true := by
  induction fuel generalizing c with
  | zero =>
      have hnil : c.gpu = [] := List.length_eq_zero_iff.mp (Nat.le_zero.mp hfuel)
      simp [Cache.admitLoop, hnil]
  | succ fuel ih =>
      unfold Cache.admitLoop at hdenied ⊢
      by_cases hfits : c.gpuBytes ≤ c.gpuBudget - bytes
      · rw [if_pos hfits] at hdenied
        exact nomatch hdenied
      rw [if_neg hfits] at hdenied ⊢
      cases hbest : c.evictable with
      | none => exact evictable_none hbest
      | some x =>
          obtain ⟨hx, hheld⟩ := evictable_spec hbest
          rw [hbest] at hdenied
          have hshort : (c.evict x).gpu.length < c.gpu.length :=
            List.length_filter_lt_length_iff_exists.mpr ⟨x, hx, by simp⟩
          exact ih (gpuKept_evict h hx hheld) (by omega) hdenied

/-- Nothing in host memory changes. -/
structure HostSame (c c' : Cache) : Prop where
  registry : c'.registry = c.registry
  latest : c'.latest = c.latest
  order : c'.registrationOrder = c.registrationOrder
  lifetimes : c'.hostLifetimes = c.hostLifetimes
  handles : c'.handles = c.handles
  budget : c'.ramBudget = c.ramBudget
  address : c.nextAddress ≤ c'.nextAddress

theorem hostSame_of_gpuOnly (h : GpuOnly c c') : HostSame c c' := by
  unfold GpuOnly at h
  rw [h]
  exact ⟨rfl, rfl, rfl, rfl, rfl, rfl, Nat.le_refl _⟩

/-- A hit of `acquire`: the resident is used once more. -/
theorem gpuKept_hit (c' : Cache) (h : GpuKept c) {version : String} {r : Resident} (clock : Nat)
    (hr : (version, r) ∈ c.gpu)
    (hgpu : c'.gpu = c.gpu.map (fun x =>
      if x.1 = version then (x.1, { x.2 with used := clock }) else x))
    (hbytes : c'.gpuBytes = c.gpuBytes) (hbudget : c'.gpuBudget = c.gpuBudget)
    (hleases : c'.leases = r.lease :: c.leases) :
    GpuKept c' ∧ Pinned c c' := by
  have hfield : ∀ x : String × Resident,
      (if x.1 = version then (x.1, { x.2 with used := clock }) else x).1 = x.1 ∧
      (if x.1 = version then (x.1, { x.2 with used := clock }) else x).2.lease = x.2.lease := by
    intro x
    by_cases hx : x.1 = version <;> simp [hx]
  have hstays : ∀ x ∈ c.gpu, ∃ y ∈ c'.gpu, y.1 = x.1 ∧ y.2.lease = x.2.lease := by
    intro x hx
    rw [hgpu]
    exact ⟨_, List.mem_map_of_mem hx, (hfield x).1, (hfield x).2⟩
  refine ⟨⟨?_, ?_, ?_, ?_⟩, fun x hx _ => hstays x hx⟩
  · rw [hgpu, List.map_map]
    have hkeys : (Prod.fst ∘ fun x : String × Resident =>
        if x.1 = version then (x.1, { x.2 with used := clock }) else x) = Prod.fst :=
      funext fun x => (hfield x).1
    rw [hkeys]
    exact h.nodup
  · rw [hbytes, h.bytes, hgpu, List.map_map]
    congr 1
    refine List.map_congr_left fun x _ => ?_
    simp only [Function.comp_apply, Resident.bytes, (hfield x).2]
  · rw [hbytes, hbudget]
    exact h.budget
  · intro l hl
    rw [hleases] at hl
    rcases List.mem_cons.mp hl with rfl | hl
    · obtain ⟨y, hy, -, hlease⟩ := hstays _ hr
      exact ⟨y, hy, hlease⟩
    · obtain ⟨x, hx, rfl⟩ := h.resident l hl
      obtain ⟨y, hy, -, hlease⟩ := hstays x hx
      exact ⟨y, hy, hlease⟩

/-- An upload: the version was not resident, and its bytes fit. -/
theorem gpuKept_upload (c' : Cache) (h : GpuKept c) {version : String} {r : Resident}
    (hnew : ∀ x ∈ c.gpu, x.1 ≠ version) (hfits : c.gpuBytes + r.bytes ≤ c.gpuBudget)
    (hgpu : c'.gpu = c.gpu ++ [(version, r)]) (hbytes : c'.gpuBytes = c.gpuBytes + r.bytes)
    (hbudget : c'.gpuBudget = c.gpuBudget) (hleases : c'.leases = r.lease :: c.leases) :
    GpuKept c' ∧ Pinned c c' := by
  refine ⟨⟨?_, ?_, ?_, ?_⟩, fun x hx _ => ⟨x, ?_, rfl, rfl⟩⟩
  · rw [hgpu, List.map_append, List.nodup_append]
    refine ⟨h.nodup, List.nodup_singleton _, fun v hv w hw => ?_⟩
    obtain ⟨x, hx, rfl⟩ := List.mem_map.mp hv
    rw [List.mem_singleton.mp hw]
    exact hnew x hx
  · rw [hbytes, hgpu, List.map_append, List.sum_append, ← h.bytes]
    rfl
  · rw [hbytes, hbudget]
    exact hfits
  · intro l hl
    rw [hgpu]
    rw [hleases] at hl
    rcases List.mem_cons.mp hl with rfl | hl
    · exact ⟨(version, r), by simp, rfl⟩
    · obtain ⟨x, hx, rfl⟩ := h.resident l hl
      exact ⟨x, List.mem_append_left _ hx, rfl⟩
  · rw [hgpu]
    exact List.mem_append_left _ hx

theorem admitGpu_spec (bytes : Nat) (h : GpuKept c) :
    GpuOnly c (c.admitGpu bytes).1 ∧ GpuKept (c.admitGpu bytes).1 ∧
      Pinned c (c.admitGpu bytes).1 ∧ (∀ x ∈ (c.admitGpu bytes).1.gpu, x ∈ c.gpu) ∧
      ((c.admitGpu bytes).2 = true → (c.admitGpu bytes).1.gpuBytes + bytes ≤ c.gpuBudget) := by
  unfold Cache.admitGpu
  by_cases hbig : c.gpuBudget < bytes
  · rw [if_pos hbig]
    exact ⟨rfl, h, pinned_of_gpu rfl, fun _ hx => hx, fun hok => nomatch hok⟩
  rw [if_neg hbig]
  obtain ⟨honly, hkept, hpinned, hsub, hok⟩ := admitLoop_spec bytes c.gpu.length h
  refine ⟨honly, hkept, hpinned, hsub, fun hadmitted => ?_⟩
  have := hok hadmitted
  omega

/-- `acquire` keeps the books of the GPU, whatever fails. -/
theorem acquire_spec (h : GpuKept c) (p : Package) (memory : Option Nat) (uploaded : Bool) :
    GpuKept (c.acquire p memory uploaded).1 ∧ Pinned c (c.acquire p memory uploaded).1 ∧
      HostSame c (c.acquire p memory uploaded).1 := by
  unfold Cache.acquire
  cases hlookup : c.gpu.lookup p.version with
  | some r =>
      obtain ⟨hkept, hpinned⟩ := gpuKept_hit
        { c with
          clock := c.clock + 1
          gpu := c.gpu.map (fun x =>
            if x.1 = p.version then (x.1, { x.2 with used := c.clock + 1 }) else x)
          leases := r.lease :: c.leases }
        h (c.clock + 1) (mem_of_lookup hlookup) rfl rfl rfl rfl
      exact ⟨hkept, hpinned, rfl, rfl, rfl, rfl, rfl, rfl, Nat.le_refl _⟩
  | none =>
      dsimp only
      by_cases hstaging : c.stagingBudget < p.bytes
      · rw [if_pos hstaging]
        exact ⟨h, pinned_of_gpu rfl, rfl, rfl, rfl, rfl, rfl, rfl, Nat.le_refl _⟩
      rw [if_neg hstaging]
      obtain ⟨honly, hkept, hpinned, hsub, hok⟩ := admitGpu_spec p.bytes h
      have hhost := hostSame_of_gpuOnly honly
      have hleases : (c.admitGpu p.bytes).1.leases = c.leases := by rw [honly]
      have hbudget : (c.admitGpu p.bytes).1.gpuBudget = c.gpuBudget := by rw [honly]
      generalize c.admitGpu p.bytes = admitted at *
      obtain ⟨d, ok⟩ := admitted
      dsimp only at *
      cases ok with
      | false => exact ⟨hkept, hpinned, hhost⟩
      | true =>
          rw [if_neg (by simp)]
          cases memory with
          | none => exact ⟨hkept, hpinned, hhost⟩
          | some free =>
              dsimp only
              by_cases hfree : free < p.bytes
              · rw [if_pos hfree]
                exact ⟨hkept, hpinned, hhost⟩
              rw [if_neg hfree]
              by_cases huploaded : uploaded = false
              · rw [if_pos huploaded]
                exact ⟨hkept, hpinned, hhost⟩
              rw [if_neg huploaded]
              have hnew : ∀ x ∈ d.gpu, x.1 ≠ p.version := by
                intro x hx
                have hne := List.lookup_eq_none_iff.mp hlookup x (hsub x hx)
                exact fun heq => by simp [heq] at hne
              have hfits : d.gpuBytes + p.bytes ≤ d.gpuBudget := hbudget ▸ hok rfl
              let r : Resident := ⟨⟨d.nextAddress, p.version, p.size⟩, d.clock + 1⟩
              obtain ⟨hkept', hpinned'⟩ := gpuKept_upload (r := r)
                { d with
                  clock := d.clock + 1
                  gpu := d.gpu ++ [(p.version, r)]
                  gpuBytes := d.gpuBytes + p.bytes
                  leases := r.lease :: d.leases
                  nextAddress := d.nextAddress + 1 }
                hkept hnew hfits rfl rfl rfl rfl
              exact ⟨hkept', hpinned.trans hpinned' hleases, hhost.registry, hhost.latest,
                hhost.order, hhost.lifetimes, hhost.handles, hhost.budget,
                Nat.le_succ_of_le hhost.address⟩

/-- The loop of `trim`. -/
theorem foldl_evict_spec (l : List (String × Resident)) (h : GpuKept c)
    (hnodup : (l.map Prod.fst).Nodup) (hin : ∀ x ∈ l, x ∈ c.gpu) :
    GpuOnly c (l.foldl (fun c x => if c.held x.2.lease then c else c.evict x) c) ∧
      GpuKept (l.foldl (fun c x => if c.held x.2.lease then c else c.evict x) c) ∧
      Pinned c (l.foldl (fun c x => if c.held x.2.lease then c else c.evict x) c) := by
  induction l generalizing c with
  | nil => exact ⟨rfl, h, pinned_of_gpu rfl⟩
  | cons x l ih =>
      obtain ⟨hnot, hrest⟩ := List.nodup_cons.mp hnodup
      have hl : ∀ y ∈ l, y ∈ c.gpu := fun y hy => hin y (List.mem_cons_of_mem _ hy)
      rw [List.foldl_cons]
      cases hheld : c.held x.2.lease with
      | true => exact ih h hrest hl
      | false =>
          have hx := hin x List.mem_cons_self
          have hleft : ∀ y ∈ l, y ∈ (c.evict x).gpu := by
            intro y hy
            refine List.mem_filter.mpr ⟨hl y hy, ?_⟩
            simpa using fun heq : y.1 = x.1 => hnot (heq ▸ List.mem_map_of_mem hy)
          obtain ⟨honly, hkept, hpinned⟩ := ih (gpuKept_evict h hx hheld) hrest hleft
          refine ⟨?_, hkept, (pinned_evict h hx hheld).trans hpinned rfl⟩
          unfold GpuOnly at *
          exact honly

/-- `trim` drops residents that nobody holds, and counts the RAM again. -/
theorem trim_spec (h : GpuKept c) :
    ∃ d, GpuOnly c d ∧ GpuKept d ∧ Pinned c d ∧ c.trim = d.accountRam := by
  obtain ⟨honly, hkept, hpinned⟩ := foldl_evict_spec c.gpu h h.nodup (fun _ hx => hx)
  exact ⟨_, honly, hkept, hpinned, rfl⟩

end Gpu

section Ram

/-- The packages in host memory. -/
structure RamKept (c : Cache) : Prop where
  labelled : ∀ e ∈ c.registry, e.package.version = e.version
  nodup : c.hostLifetimes.Nodup
  fresh : ∀ p ∈ c.hostLifetimes, p.address < c.nextAddress
  tracked : ∀ p, c.live p = true → p ∈ c.hostLifetimes
  budget : ((c.hostLifetimes.filter c.live).map Package.bytes).sum ≤ c.ramBudget

variable {c c' : Cache} {p : Package}

theorem live_iff : c.live p = true ↔ (∃ e ∈ c.registry, e.package = p) ∨ p ∈ c.handles := by
  simp [Cache.live]

/-- No package comes to life. -/
theorem ramKept_of_live (h : RamKept c)
    (hregistry : ∀ e ∈ c'.registry, c.live e.package = true ∧ e.package.version = e.version)
    (hhandles : ∀ p ∈ c'.handles, c.live p = true)
    (hlifetimes : c'.hostLifetimes = c.hostLifetimes) (hbudget : c'.ramBudget = c.ramBudget)
    (haddress : c.nextAddress ≤ c'.nextAddress) : RamKept c' := by
  have hlive : ∀ p, c'.live p = true → c.live p = true := by
    intro p hp
    rcases live_iff.mp hp with ⟨e, he, rfl⟩ | hp
    · exact (hregistry e he).1
    · exact hhandles p hp
  constructor
  · exact fun e he => (hregistry e he).2
  · rw [hlifetimes]
    exact h.nodup
  · rw [hlifetimes]
    exact fun p hp => Nat.lt_of_lt_of_le (h.fresh p hp) haddress
  · rw [hlifetimes]
    exact fun p hp => h.tracked p (hlive p hp)
  · rw [hlifetimes, hbudget]
    refine Nat.le_trans (List.Sublist.sum_le_sum ?_ (fun _ _ => Nat.zero_le _)) h.budget
    exact (List.monotone_filter_right _ (fun p hp => hlive p hp)).map _

theorem ramKept_same (h : RamKept c) (hsame : HostSame c c') : RamKept c' := by
  refine ramKept_of_live h ?_ ?_ hsame.lifetimes hsame.budget hsame.address
  · intro e he
    rw [hsame.registry] at he
    exact ⟨live_iff.mpr (Or.inl ⟨e, he, rfl⟩), h.labelled e he⟩
  · intro p hp
    rw [hsame.handles] at hp
    exact live_iff.mpr (Or.inr hp)

theorem ramKept_accountRam (h : RamKept c) : RamKept c.accountRam := by
  constructor
  · exact h.labelled
  · exact h.nodup.filter _
  · exact fun p hp => h.fresh p (List.mem_of_mem_filter hp)
  · exact fun p hp => List.mem_filter.mpr ⟨h.tracked p hp, hp⟩
  · have hfilter : c.accountRam.hostLifetimes.filter c.accountRam.live =
        c.hostLifetimes.filter c.live := by
      show (c.hostLifetimes.filter c.live).filter c.live = _
      rw [List.filter_filter]
      simp
    rw [hfilter]
    exact h.budget

/-- Any live packages fit. -/
theorem sum_live_le (h : RamKept c) {ps : List Package} (hnodup : ps.Nodup)
    (hlive : ∀ p ∈ ps, c.live p = true) : (ps.map Package.bytes).sum ≤ c.ramBudget := by
  have hsub : ps.Subperm (c.hostLifetimes.filter c.live) := by
    refine hnodup.subperm fun p hp => ?_
    exact List.mem_filter.mpr ⟨h.tracked p (hlive p hp), hlive p hp⟩
  obtain ⟨qs, hperm, hsublist⟩ := hsub
  calc (ps.map Package.bytes).sum = (qs.map Package.bytes).sum := (hperm.map _).sum_eq.symm
    _ ≤ ((c.hostLifetimes.filter c.live).map Package.bytes).sum :=
        List.Sublist.sum_le_sum (hsublist.map _) (fun _ _ => Nat.zero_le _)
    _ ≤ c.ramBudget := h.budget

/-- A new package that fits. -/
theorem ramKept_enter (h : RamKept c) {id : String}
    (hregistry : c'.registry = c.registry ++ [⟨id, p.version, p⟩])
    (hhandles : c'.handles = c.handles) (hlifetimes : c'.hostLifetimes = c.hostLifetimes ++ [p])
    (hbudget : c'.ramBudget = c.ramBudget) (hnew : p ∉ c.hostLifetimes)
    (haddress : p.address < c'.nextAddress) (hnext : c.nextAddress ≤ c'.nextAddress)
    (hfits : ((c.hostLifetimes.filter c.live).map Package.bytes).sum + p.bytes ≤ c.ramBudget) :
    RamKept c' := by
  have hlive : ∀ q, c'.live q = true ↔ c.live q = true ∨ q = p := by
    intro q
    rw [live_iff, live_iff, hregistry, hhandles]
    constructor
    · rintro (⟨e, he, rfl⟩ | hq)
      · rcases List.mem_append.mp he with he | he
        · exact Or.inl (Or.inl ⟨e, he, rfl⟩)
        · rw [List.mem_singleton.mp he]
          exact Or.inr rfl
      · exact Or.inl (Or.inr hq)
    · rintro ((⟨e, he, rfl⟩ | hq) | rfl)
      · exact Or.inl ⟨e, List.mem_append_left _ he, rfl⟩
      · exact Or.inr hq
      · exact Or.inl ⟨⟨id, q.version, q⟩, by simp, rfl⟩
  have hfilter : c'.hostLifetimes.filter c'.live = c.hostLifetimes.filter c.live ++ [p] := by
    rw [hlifetimes, List.filter_append, List.filter_cons_of_pos ((hlive p).mpr (Or.inr rfl)),
      List.filter_nil]
    congr 1
    refine List.filter_congr fun q hq => ?_
    rw [Bool.eq_iff_iff, hlive]
    constructor
    · rintro (hq' | rfl)
      · exact hq'
      · exact absurd hq hnew
    · exact Or.inl
  constructor
  · rw [hregistry]
    intro e he
    rcases List.mem_append.mp he with he | he
    · exact h.labelled e he
    · rw [List.mem_singleton.mp he]
  · rw [hlifetimes, List.nodup_append]
    refine ⟨h.nodup, List.nodup_singleton p, fun q hq r hr => ?_⟩
    rw [List.mem_singleton.mp hr]
    rintro rfl
    exact hnew hq
  · rw [hlifetimes]
    intro q hq
    rcases List.mem_append.mp hq with hq | hq
    · exact Nat.lt_of_lt_of_le (h.fresh q hq) hnext
    · rwa [List.mem_singleton.mp hq]
  · rw [hlifetimes]
    intro q hq
    rcases (hlive q).mp hq with hq | rfl
    · exact List.mem_append_left _ (h.tracked q hq)
    · simp
  · rw [hfilter, hbudget, List.map_append, List.sum_append]
    exact hfits

end Ram

section Register

variable {c : Cache} {log : Log} {id : String} {loaded : Option (String × Nat)}

/-- What `register_adapter` does with a package that it has read. -/
theorem enter_cases (c : Cache) (id : String) (p : Package) :
    c.enter id p = (c.accountRam, none) ∨
      (p.version ∈ c.versions id ∧
        c.enter id p = (c.setLatest id p.version, some p.version)) ∨
      p.version ∉ c.versions id ∧
        ((∃ q, q.version = p.version ∧ c.live q = true ∧
            c.enter id p = ((c.addEntry id q).setLatest id p.version, some p.version)) ∨
          p.bytes ≤ c.accountRam.ramLeft ∧
            c.enter id p = ((c.accountRam.addPackage id p).accountRam, some p.version)) := by
  unfold Cache.enter
  by_cases hmem : p.version ∈ c.versions id
  · rw [if_pos (by simpa using hmem)]
    exact Or.inr (Or.inl ⟨hmem, rfl⟩)
  rw [if_neg (by simpa using hmem)]
  cases hshared : c.hostLifetimes.find? (fun q => c.live q && decide (q.version = p.version)) with
  | some q =>
      have hq := List.find?_some hshared
      rw [Bool.and_eq_true, decide_eq_true_iff] at hq
      exact Or.inr (Or.inr ⟨hmem, Or.inl ⟨q, hq.2, hq.1, rfl⟩⟩)
  | none =>
      dsimp only
      by_cases hfits : c.accountRam.ramLeft < p.bytes
      · rw [if_pos hfits]
        exact Or.inl rfl
      · rw [if_neg hfits]
        exact Or.inr (Or.inr ⟨hmem, Or.inr ⟨Nat.not_lt.mp hfits, rfl⟩⟩)

/-- What `register_adapter` can do. -/
theorem register_cases (c : Cache) (id : String) (loaded : Option (String × Nat)) :
    c.registerAdapter id loaded = (c, none) ∨
      c.registerAdapter id loaded = (c.accountRam, none) ∨
      ∃ p : Package, p.address = c.nextAddress ∧
        c.registerAdapter id loaded = c.read.enter id p := by
  unfold Cache.registerAdapter
  by_cases hid : id = ""
  · rw [if_pos hid]
    exact Or.inl rfl
  rw [if_neg hid]
  cases Cache.loadPackage loaded c.accountRam.ramLeft with
  | none => exact Or.inr (Or.inl rfl)
  | some x => exact Or.inr (Or.inr ⟨⟨c.nextAddress, x.1, x.2⟩, rfl, rfl⟩)

/-- The log after `register_adapter`. -/
def Log.after (log : Log) (id : String) : Option String → Log
  | none => log
  | some version => log.add id version

theorem orderKept_enter (h : OrderKept c log) (id : String) (p : Package) :
    OrderKept (c.enter id p).1 (log.after id (c.enter id p).2) := by
  obtain heq | ⟨hmem, heq⟩ | ⟨hmem, ⟨q, hq, -, heq⟩ | ⟨-, heq⟩⟩ := enter_cases c id p
  · rw [heq]
    exact orderKept_same h rfl rfl rfl
  · rw [heq]
    exact orderKept_again h hmem
  · rw [heq, ← hq]
    exact orderKept_entry h (hq ▸ hmem)
  · rw [heq]
    exact orderKept_same (orderKept_entry h hmem) rfl rfl rfl

theorem orderKept_register (h : OrderKept c log) (id : String)
    (loaded : Option (String × Nat)) :
    OrderKept (c.registerAdapter id loaded).1
      (log.after id (c.registerAdapter id loaded).2) := by
  obtain heq | heq | ⟨p, -, heq⟩ := register_cases c id loaded
  · rw [heq]
    exact h
  · rw [heq]
    exact orderKept_same h rfl rfl rfl
  · rw [heq]
    have hread : OrderKept c.read log := orderKept_same h rfl rfl rfl
    exact orderKept_enter hread id p

theorem ramKept_enterPackage (h : RamKept c) (id : String) {p : Package}
    (hnew : p ∉ c.hostLifetimes) (haddress : p.address < c.nextAddress) :
    RamKept (c.enter id p).1 := by
  have haccount := ramKept_accountRam h
  have hentry : ∀ (d : Cache), RamKept d → ∀ e ∈ d.registry,
      d.live e.package = true ∧ e.package.version = e.version :=
    fun d hd e he => ⟨live_iff.mpr (Or.inl ⟨e, he, rfl⟩), hd.labelled e he⟩
  have hhandle : ∀ p ∈ c.handles, c.live p = true := fun p hp => live_iff.mpr (Or.inr hp)
  obtain heq | ⟨hmem, heq⟩ | ⟨hmem, ⟨q, hq, hlive, heq⟩ | ⟨hfits, heq⟩⟩ := enter_cases c id p
  · rw [heq]
    exact haccount
  · rw [heq]
    exact ramKept_of_live h (hentry c h) hhandle rfl rfl (Nat.le_refl _)
  · rw [heq]
    refine ramKept_of_live h (fun e he => ?_) hhandle rfl rfl (Nat.le_refl _)
    rcases List.mem_append.mp he with he | he
    · exact hentry c h e he
    · rw [List.mem_singleton.mp he]
      exact ⟨hlive, rfl⟩
  · rw [heq]
    refine ramKept_accountRam (ramKept_enter (p := p) haccount rfl rfl rfl rfl ?_
      haddress (Nat.le_refl _) ?_)
    · exact fun hin => hnew (List.mem_of_mem_filter hin)
    · have hbudget := haccount.budget
      have hsum : c.accountRam.ramBytes =
          ((c.accountRam.hostLifetimes.filter c.accountRam.live).map Package.bytes).sum := by
        have hfilter : c.accountRam.hostLifetimes.filter c.accountRam.live =
            c.accountRam.hostLifetimes := by
          rw [List.filter_eq_self]
          exact fun p hp => (List.mem_filter.mp hp).2
        rw [hfilter]
        rfl
      unfold Cache.ramLeft at hfits
      omega

theorem ramKept_register (h : RamKept c) (id : String) (loaded : Option (String × Nat)) :
    RamKept (c.registerAdapter id loaded).1 := by
  obtain heq | heq | ⟨p, haddress, heq⟩ := register_cases c id loaded
  · rw [heq]
    exact h
  · rw [heq]
    exact ramKept_accountRam h
  · rw [heq]
    have haccount := ramKept_accountRam h
    have hread : RamKept c.read :=
      ⟨haccount.labelled, haccount.nodup,
        fun q hq => Nat.lt_succ_of_lt (haccount.fresh q hq), haccount.tracked, haccount.budget⟩
    refine ramKept_enterPackage hread id (fun hin => ?_) ?_
    · exact absurd (haccount.fresh p hin) (by rw [haddress]; exact Nat.lt_irrefl _)
    · rw [haddress]
      exact Nat.lt_succ_self _

theorem gpuSame_enter (c : Cache) (id : String) (p : Package) : GpuSame c (c.enter id p).1 := by
  obtain heq | ⟨-, heq⟩ | ⟨-, ⟨q, -, -, heq⟩ | ⟨-, heq⟩⟩ := enter_cases c id p
  · rw [heq]
    exact gpuSame_accountRam c
  · rw [heq]
    exact ⟨rfl, rfl, rfl, rfl⟩
  · rw [heq]
    exact ⟨rfl, rfl, rfl, rfl⟩
  · rw [heq]
    have hadd : GpuSame c.accountRam (c.accountRam.addPackage id p) := ⟨rfl, rfl, rfl, rfl⟩
    exact ((gpuSame_accountRam c).trans hadd).trans (gpuSame_accountRam _)

theorem gpuSame_register (c : Cache) (id : String) (loaded : Option (String × Nat)) :
    GpuSame c (c.registerAdapter id loaded).1 := by
  obtain heq | heq | ⟨p, -, heq⟩ := register_cases c id loaded
  · rw [heq]
    exact ⟨rfl, rfl, rfl, rfl⟩
  · rw [heq]
    exact gpuSame_accountRam c
  · rw [heq]
    have hread : GpuSame c c.read := ⟨rfl, rfl, rfl, rfl⟩
    exact hread.trans (gpuSame_enter c.read id p)

end Register

section Steps

/-- The cache with the log of its registrations. -/
def stepLogged (s : Cache × Log) : Event → Option (Cache × Log)
  | .register id loaded =>
      some ((s.1.registerAdapter id loaded).1,
        s.2.after id (s.1.registerAdapter id loaded).2)
  | e => (step s.1 e).map (fun c => (c, s.2))

/-- What a user of the cache relies on. -/
structure Bookkept (c : Cache) (log : Log) : Prop where
  /-- The order is a permutation of the registered versions. -/
  order : ∀ id, (c.registrationOrder id).Perm (c.versions id) ∧ (c.versions id).Nodup
  unknown : ∀ id, c.versions id = [] → c.resolve id "" = none
  /-- Without a version, the latest registration still present is resolved. -/
  newest : ∀ id, c.versions id ≠ [] → ∃ p, c.resolve id "" = some p ∧
    p.version ∈ c.versions id ∧
    ∀ v ∈ c.versions id, v ∈ log id ∧ (v ≠ p.version → log.Later id p.version v)
  gpuBytes : c.gpuBytes = (c.gpu.map (fun x => x.2.bytes)).sum
  gpuBudget : c.gpuBytes ≤ c.gpuBudget
  /-- The live packages, each counted once, fit. -/
  ram : ∀ ps : List Package, ps.Nodup → (∀ p ∈ ps, c.live p = true) →
    (ps.map Package.bytes).sum ≤ c.ramBudget
  resident : ∀ l ∈ c.leases, ∃ x ∈ c.gpu, x.2.lease = l
  /-- No operation evicts an adapter whose lease is held. -/
  pinned : ∀ e c', step c e = some c' → Pinned c c'

/-- The three sets of books. -/
structure Kept (c : Cache) (log : Log) : Prop where
  order : OrderKept c log
  ram : RamKept c
  gpu : GpuKept c

variable {c c' : Cache} {log log' : Log}

theorem stepLogged_cache (s : Cache × Log) (e : Event) :
    (stepLogged s e).map Prod.fst = step s.1 e := by
  have hmap : ∀ o : Option Cache, (o.map (fun c => (c, s.2))).map Prod.fst = o := by
    intro o
    cases o <;> rfl
  cases e with
  | register | erase | trim => rfl
  | _ => exact hmap _

theorem kept_new (ram gpu staging : Nat) : Kept (.new ram gpu staging) (fun _ => []) where
  order := ⟨List.nodup_nil, fun _ => List.Perm.refl _, fun _ => rfl,
    fun _ => List.Pairwise.nil, fun _ _ hv => nomatch hv⟩
  ram := ⟨fun _ he => (nomatch he), List.nodup_nil, fun _ hp => (nomatch hp),
    fun p hp => (by simp [Cache.live, Cache.new] at hp), Nat.zero_le _⟩
  gpu := ⟨List.nodup_nil, rfl, Nat.zero_le _, fun _ hl => nomatch hl⟩

/-- What `resolve` finds is registered under the version. -/
theorem resolve_some {id version : String} {p : Package} (h : c.resolve id version = some p) :
    ∃ e ∈ c.registry, e.id = id ∧ e.package = p ∧
      some e.version = if version = "" then c.latest id else some version := by
  unfold Cache.resolve at h
  by_cases hnone : c.versions id = []
  · rw [if_pos hnone] at h
    exact nomatch h
  rw [if_neg hnone] at h
  obtain ⟨v, hv, hmap⟩ := Option.bind_eq_some_iff.mp h
  obtain ⟨e, hfind, rfl⟩ := Option.map_eq_some_iff.mp hmap
  have hmatch := List.find?_some hfind
  rw [Bool.and_eq_true, decide_eq_true_iff, decide_eq_true_iff] at hmatch
  exact ⟨e, List.mem_of_find?_eq_some hfind, hmatch.1, rfl, by rw [hv, hmatch.2]⟩

/-- The latest version is the last of the order, and it has an entry. -/
theorem resolve_newest (h : Kept c log) {id : String} (hsome : c.versions id ≠ []) :
    ∃ p, c.resolve id "" = some p ∧ (c.registrationOrder id).getLast? = some p.version := by
  have horder : c.registrationOrder id ≠ [] := by
    intro hnil
    have hperm := h.order.perm id
    rw [hnil] at hperm
    exact hsome hperm.nil_eq.symm
  obtain ⟨v, hlast⟩ := Option.isSome_iff_exists.mp (List.getLast?_isSome.mpr horder)
  have hmem : v ∈ c.versions id :=
    (h.order.perm id).mem_iff.mp (List.mem_of_getLast? hlast)
  obtain ⟨e, he, hid, hversion⟩ := mem_versions.mp hmem
  have hlatest : c.latest id = some v := (h.order.latest id).trans hlast
  obtain ⟨d, hd⟩ := Option.isSome_iff_exists.mp
    (List.find?_isSome (p := fun e => decide (e.id = id) && decide (e.version = v)).mpr
      ⟨e, he, by simp [hid, hversion]⟩)
  have hresolve : c.resolve id "" = some d.package := by
    unfold Cache.resolve
    rw [if_neg hsome, if_pos rfl, hlatest, Option.bind_some, hd]
    rfl
  refine ⟨d.package, hresolve, ?_⟩
  have hmatch := List.find?_some hd
  rw [Bool.and_eq_true, decide_eq_true_iff, decide_eq_true_iff] at hmatch
  rw [hlast, h.ram.labelled d (List.mem_of_find?_eq_some hd), hmatch.2]

/-- Operations on the handles. -/
theorem kept_handles (h : Kept c log) {hs : List Package}
    (hhandles : ∀ p ∈ hs, c.live p = true) : Kept { c with handles := hs } log where
  order := orderKept_same h.order rfl rfl rfl
  ram := ramKept_of_live h.ram
    (fun e he => ⟨live_iff.mpr (Or.inl ⟨e, he, rfl⟩), h.ram.labelled e he⟩)
    hhandles rfl rfl (Nat.le_refl _)
  gpu := gpuKept_same h.gpu ⟨rfl, rfl, rfl, rfl⟩

/-- Operations on the leases that are held. -/
theorem kept_leases (h : Kept c log) {ls : List Lease} (hleases : ∀ l ∈ ls, l ∈ c.leases) :
    Kept { c with leases := ls } log where
  order := orderKept_same h.order rfl rfl rfl
  ram := ramKept_same h.ram ⟨rfl, rfl, rfl, rfl, rfl, rfl, Nat.le_refl _⟩
  gpu := gpuKept_of_leases h.gpu rfl rfl rfl hleases

theorem kept_host (h : Kept c log) (hhost : HostSame c c') (hgpu : GpuKept c') : Kept c' log where
  order := orderKept_same h.order hhost.registry hhost.latest hhost.order
  ram := ramKept_same h.ram hhost
  gpu := hgpu

theorem kept_accountRam (h : Kept c log) : Kept c.accountRam log where
  order := orderKept_same h.order rfl rfl rfl
  ram := ramKept_accountRam h.ram
  gpu := gpuKept_same h.gpu (gpuSame_accountRam c)

/-- `erase` only drops entries. -/
theorem erase_cases (c : Cache) (id version : String) :
    c.erase id version = c ∨
      ∃ d : Cache, c.erase id version = d.accountRam ∧ (∀ e ∈ d.registry, e ∈ c.registry) ∧
        d.handles = c.handles ∧ d.hostLifetimes = c.hostLifetimes ∧ d.ramBudget = c.ramBudget ∧
        d.nextAddress = c.nextAddress ∧ GpuSame c d := by
  unfold Cache.erase
  by_cases hnone : c.versions id = []
  · rw [if_pos hnone]
    exact Or.inl rfl
  rw [if_neg hnone]
  refine Or.inr ⟨_, rfl, ?_⟩
  by_cases hall : version = ""
  · rw [if_pos hall]
    exact ⟨fun e he => List.mem_of_mem_filter he, rfl, rfl, rfl, rfl, rfl, rfl, rfl, rfl⟩
  rw [if_neg hall]
  dsimp only
  split
  · exact ⟨fun e he => List.mem_of_mem_filter he, rfl, rfl, rfl, rfl, rfl, rfl, rfl, rfl⟩
  · split
    · exact ⟨fun e he => List.mem_of_mem_filter he, rfl, rfl, rfl, rfl, rfl, rfl, rfl, rfl⟩
    · exact ⟨fun e he => List.mem_of_mem_filter he, rfl, rfl, rfl, rfl, rfl, rfl, rfl, rfl⟩

theorem kept_erase (h : Kept c log) (id version : String) : Kept (c.erase id version) log := by
  have horder := orderKept_erase h.order id version
  obtain heq | ⟨d, heq, hregistry, hhandles, hlifetimes, hbudget, haddress, hgpu⟩ :=
    erase_cases c id version
  · rw [heq]
    exact h
  · rw [heq] at horder ⊢
    refine ⟨horder, ramKept_accountRam (ramKept_of_live h.ram (fun e he => ?_) (fun p hp => ?_)
      hlifetimes hbudget (Nat.le_of_eq haddress.symm)),
      gpuKept_same h.gpu (hgpu.trans (gpuSame_accountRam d))⟩
    · have hin := hregistry e he
      exact ⟨live_iff.mpr (Or.inl ⟨e, hin, rfl⟩), h.ram.labelled e hin⟩
    · rw [hhandles] at hp
      exact live_iff.mpr (Or.inr hp)

theorem live_handles {p : Package} (hp : p ∈ c.handles) : c.live p = true :=
  live_iff.mpr (Or.inr hp)

/-- One operation keeps the books. -/
theorem kept_step (h : Kept c log) {e : Event}
    (hstep : stepLogged (c, log) e = some (c', log')) : Kept c' log' := by
  cases e with
  | register id loaded =>
      obtain ⟨rfl, rfl⟩ := Prod.mk.inj (Option.some.inj hstep)
      exact ⟨orderKept_register h.order id loaded, ramKept_register h.ram id loaded,
        gpuKept_same h.gpu (gpuSame_register c id loaded)⟩
  | resolve id version finite =>
      cases hresolve : c.resolve id version with
      | none =>
          simp only [stepLogged, step, hresolve, Option.map_some, Option.some.injEq,
            Prod.mk.injEq] at hstep
          obtain ⟨rfl, rfl⟩ := hstep
          exact h
      | some p =>
          obtain ⟨e, he, -, rfl, -⟩ := resolve_some hresolve
          cases finite with
          | false =>
              simp only [stepLogged, step, hresolve, Bool.false_eq_true, if_false,
                Option.map_some, Option.some.injEq, Prod.mk.injEq] at hstep
              obtain ⟨rfl, rfl⟩ := hstep
              exact h
          | true =>
              simp only [stepLogged, step, hresolve, if_true, Option.map_some,
                Option.some.injEq, Prod.mk.injEq] at hstep
              obtain ⟨rfl, rfl⟩ := hstep
              refine kept_handles h fun q hq => ?_
              rcases List.mem_cons.mp hq with rfl | hq
              · exact live_iff.mpr (Or.inl ⟨e, he, rfl⟩)
              · exact live_handles hq
  | acquire k memory uploaded =>
      obtain ⟨d, hd, heq⟩ := Option.map_eq_some_iff.mp hstep
      obtain ⟨p, -, rfl⟩ := Option.map_eq_some_iff.mp hd
      obtain ⟨rfl, rfl⟩ := Prod.mk.inj heq
      obtain ⟨hgpu, -, hhost⟩ := acquire_spec h.gpu p memory uploaded
      exact kept_host h hhost hgpu
  | erase id version =>
      obtain ⟨rfl, rfl⟩ := Prod.mk.inj (Option.some.inj hstep)
      exact kept_erase h id version
  | trim =>
      obtain ⟨rfl, rfl⟩ := Prod.mk.inj (Option.some.inj hstep)
      obtain ⟨d, honly, hgpu, -, heq⟩ := trim_spec h.gpu
      show Kept c.trim log
      rw [heq]
      exact kept_accountRam (kept_host h (hostSame_of_gpuOnly honly) hgpu)
  | copyHandle k =>
      obtain ⟨d, hd, heq⟩ := Option.map_eq_some_iff.mp hstep
      obtain ⟨p, hp, rfl⟩ := Option.map_eq_some_iff.mp hd
      obtain ⟨rfl, rfl⟩ := Prod.mk.inj heq
      refine kept_handles h fun q hq => ?_
      rcases List.mem_cons.mp hq with rfl | hq
      · exact live_handles (List.mem_of_getElem? hp)
      · exact live_handles hq
  | releaseHandle k =>
      obtain ⟨d, hd, heq⟩ := Option.map_eq_some_iff.mp hstep
      obtain ⟨p, -, rfl⟩ := Option.map_eq_some_iff.mp hd
      obtain ⟨rfl, rfl⟩ := Prod.mk.inj heq
      exact kept_handles h fun q hq => live_handles (List.mem_of_mem_eraseIdx hq)
  | copyLease k =>
      obtain ⟨d, hd, heq⟩ := Option.map_eq_some_iff.mp hstep
      obtain ⟨l, hl, rfl⟩ := Option.map_eq_some_iff.mp hd
      obtain ⟨rfl, rfl⟩ := Prod.mk.inj heq
      refine kept_leases h fun q hq => ?_
      rcases List.mem_cons.mp hq with rfl | hq
      · exact List.mem_of_getElem? hl
      · exact hq
  | releaseLease k =>
      obtain ⟨d, hd, heq⟩ := Option.map_eq_some_iff.mp hstep
      obtain ⟨l, -, rfl⟩ := Option.map_eq_some_iff.mp hd
      obtain ⟨rfl, rfl⟩ := Prod.mk.inj heq
      exact kept_leases h fun q hq => List.mem_of_mem_eraseIdx hq

/-- One operation evicts nothing that somebody holds. -/
theorem pinned_step (h : GpuKept c) {e : Event} (hstep : step c e = some c') : Pinned c c' := by
  cases e with
  | register id loaded =>
      rw [← Option.some.inj hstep]
      exact pinned_of_gpu (gpuSame_register c id loaded).gpu
  | resolve id version finite =>
      refine pinned_of_gpu ?_
      cases hresolve : c.resolve id version <;> cases finite <;> simp [step, hresolve] at hstep <;>
        rw [← hstep]
  | acquire k memory uploaded =>
      obtain ⟨p, -, rfl⟩ := Option.map_eq_some_iff.mp hstep
      exact (acquire_spec h p memory uploaded).2.1
  | erase id version =>
      rw [← Option.some.inj hstep]
      obtain heq | ⟨d, heq, -, -, -, -, -, hgpu⟩ := erase_cases c id version
      · rw [heq]
        exact pinned_of_gpu rfl
      · rw [heq]
        exact pinned_of_gpu (hgpu.trans (gpuSame_accountRam d)).gpu
  | trim =>
      rw [← Option.some.inj hstep]
      obtain ⟨d, -, -, hpinned, heq⟩ := trim_spec h
      rw [heq]
      exact hpinned
  | copyHandle k | releaseHandle k | copyLease k | releaseLease k =>
      obtain ⟨p, -, rfl⟩ := Option.map_eq_some_iff.mp hstep
      exact pinned_of_gpu rfl

theorem bookkept_of_kept (h : Kept c log) : Bookkept c log where
  order := fun id => ⟨h.order.perm id, (h.order.perm id).nodup (nodup_order h.order id)⟩
  unknown := fun id hnone => by
    unfold Cache.resolve
    rw [if_pos hnone]
  newest := by
    intro id hsome
    obtain ⟨p, hresolve, hlast⟩ := resolve_newest h hsome
    have hmem : ∀ v, v ∈ c.registrationOrder id ↔ v ∈ c.versions id :=
      fun v => (h.order.perm id).mem_iff
    refine ⟨p, hresolve, (hmem _).mp (List.mem_of_getLast? hlast), fun v hv => ?_⟩
    refine ⟨h.order.logged id v ((hmem v).mpr hv), fun hne => ?_⟩
    obtain ⟨before, hbefore⟩ := List.getLast?_eq_some_iff.mp hlast
    have hlater := h.order.later id
    have hin := (hmem v).mpr hv
    rw [hbefore] at hlater hin
    rcases List.mem_append.mp hin with hin | hin
    · exact (List.pairwise_append.mp hlater).2.2 v hin _ (List.mem_singleton_self _)
    · exact absurd (List.mem_singleton.mp hin) hne
  gpuBytes := h.gpu.bytes
  gpuBudget := h.gpu.budget
  ram := fun _ hnodup hlive => sum_live_le h.ram hnodup hlive
  resident := h.gpu.resident
  pinned := fun _ _ hstep => pinned_step h.gpu hstep

/-- The books are kept in every run, whatever fails. -/
theorem bookkept_of_run {ram gpu staging : Nat} {events : List Event} {s : Cache × Log}
    (hrun : exec stepLogged (.new ram gpu staging, fun _ => []) events = some s) :
    Bookkept s.1 s.2 := by
  refine bookkept_of_kept (exec_invariant_all (I := fun s => Kept s.1 s.2) ?_
    (kept_new ram gpu staging) hrun)
  intro s e t hs hstep
  exact kept_step hs hstep

/-- Two versions, one of them again; a lease is held while another is denied. -/
def againRun : List Event :=
  [.register "a" (some ("v1", 5)), .register "a" (some ("v2", 8)),
    .register "a" (some ("v1", 5)), .resolve "a" "" true, .resolve "a" "v2" true,
    .acquire 1 (some 100) true, .acquire 0 (some 100) true, .releaseLease 0,
    .acquire 0 (some 100) true, .erase "a" "v1", .trim]

/-- The run registers, evicts and trims; the books are kept. -/
theorem bookkept_again :
    ∃ s, exec stepLogged (.new 100 20 100, fun _ => []) againRun = some s ∧
      Bookkept s.1 s.2 := by
  have hsome : (exec stepLogged (.new 100 20 100, fun _ => []) againRun).isSome = true := rfl
  obtain ⟨s, hrun⟩ := Option.isSome_iff_exists.mp hsome
  exact ⟨s, hrun, bookkept_of_run hrun⟩

end Steps

end AdapterCache
end RwkvLightning
