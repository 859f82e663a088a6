import Mathlib.Data.List.Dedup
import Mathlib.Data.String.Basic
import TrineKv.Keys.Range
import TrineKv.Lib.Runs

/-!
# Who may rewrite tables

One coordinator admits flushes, compactions and rewrites of blob files. A request for several
buckets is granted for those that are free. A compaction restricts itself to the buckets that it
got; a rewrite of blob files replaces tables in all buckets of its plan.

## Main results

* `Maintenance.exclusive_of_run`, `Maintenance.sharedBucket_not_exclusive`.
* `Maintenance.grants_of_run`: what holds of flushes and grants in every run.
-/

namespace TrineKv

open List Option

/-! ## The coordinator -/

structure CompactionReservation where
  bucket : String
  range : KeyRange
  deriving DecidableEq, Repr

abbrev bucketsOf (reservations : List CompactionReservation) : List String :=
  reservations.map CompactionReservation.bucket

/-- What the coordinator knows about running work. -/
structure MaintenanceState where
  activeFlushes : ℕ
  activeCompactions : List CompactionReservation
  shutdown : Bool
  deriving DecidableEq, Repr

/-- Reservations of one bucket exclude each other, whatever their ranges are. -/
def compactionReservationsConflict (left right : CompactionReservation) : Bool :=
  left.bucket = right.bucket

namespace MaintenanceState

def tryStartFlush (state : MaintenanceState) : Option MaintenanceState :=
  if state.shutdown ∨ state.activeFlushes ≠ 0 ∨ state.activeCompactions ≠ [] then none
  else some { state with activeFlushes := 1 }

/-- Reserve the candidates that do not conflict. The result is all that is reserved and what was
granted. -/
def reserveEach : List CompactionReservation → List CompactionReservation →
    List CompactionReservation × List CompactionReservation
  | active, [] => (active, [])
  | active, candidate :: candidates =>
    if active.any fun held => compactionReservationsConflict held candidate then
      reserveEach active candidates
    else
      let (after, reservations) := reserveEach (active ++ [candidate]) candidates
      (after, candidate :: reservations)

def reserveCompactions (state : MaintenanceState) (candidates : List CompactionReservation) :
    Option (List CompactionReservation × MaintenanceState) :=
  if state.shutdown ∨ state.activeFlushes ≠ 0 then none
  else
    let (active, reservations) := reserveEach state.activeCompactions candidates
    if reservations = [] then none
    else some (reservations, { state with activeCompactions := active })

def finishFlush (state : MaintenanceState) : MaintenanceState :=
  { state with activeFlushes := state.activeFlushes - 1 }

/-- The holder of the reservations ends. -/
def finishCompactions (state : MaintenanceState) (reservations : List CompactionReservation) :
    MaintenanceState :=
  { state with
    activeCompactions := state.activeCompactions.filter fun active => active ∉ reservations }

lemma reserveEach_spec (active candidates : List CompactionReservation)
    (hactive : (bucketsOf active).Nodup) :
    (reserveEach active candidates).1 = active ++ (reserveEach active candidates).2 ∧
      (bucketsOf (reserveEach active candidates).1).Nodup ∧
      ∀ candidate ∈ candidates,
        candidate.bucket ∈ bucketsOf (reserveEach active candidates).1 := by
  induction candidates generalizing active with
  | nil => simp [reserveEach, hactive]
  | cons candidate candidates ih =>
    rw [reserveEach]
    split_ifs with hconflict
    · obtain ⟨heq, hnodup, hall⟩ := ih active hactive
      refine ⟨heq, hnodup, forall_mem_cons.mpr ⟨?_, hall⟩⟩
      obtain ⟨held, hheld, hsame⟩ := any_eq_true.mp hconflict
      rw [heq, bucketsOf, map_append, ← of_decide_eq_true hsame]
      exact mem_append_left _ (mem_map_of_mem hheld)
    · have hnew : candidate.bucket ∉ bucketsOf active := by
        rintro hmem
        obtain ⟨held, hheld, hsame⟩ := mem_map.mp hmem
        exact hconflict (any_eq_true.mpr ⟨held, hheld, decide_eq_true hsame⟩)
      have hnext : (bucketsOf (active ++ [candidate])).Nodup := by
        simpa [nodup_append, hactive] using fun held hheld hsame =>
          hnew (mem_map.mpr ⟨held, hheld, hsame⟩)
      obtain ⟨heq, hnodup, hall⟩ := ih (active ++ [candidate]) hnext
      refine ⟨by simp [heq], hnodup, forall_mem_cons.mpr ⟨?_, hall⟩⟩
      simp [heq]

lemma reserveCompactions_eq_some {state after : MaintenanceState}
    {candidates reservations : List CompactionReservation}
    (hactive : (bucketsOf state.activeCompactions).Nodup)
    (h : state.reserveCompactions candidates = some (reservations, after)) :
    state.activeFlushes = 0 ∧ reservations ≠ [] ∧
      after = { state with activeCompactions := state.activeCompactions ++ reservations } ∧
      (bucketsOf after.activeCompactions).Nodup ∧
      ∀ candidate ∈ candidates,
        candidate.bucket ∈ bucketsOf after.activeCompactions := by
  obtain ⟨heq, hnodup, hall⟩ := reserveEach_spec state.activeCompactions candidates hactive
  simp only [reserveCompactions] at h
  split_ifs at h with hbusy hnone
  obtain ⟨rfl, rfl⟩ := Prod.mk.inj (Option.some.inj h)
  exact ⟨by tauto, hnone, by rw [← heq], hnodup, hall⟩

end MaintenanceState

/-! ## Running work -/

structure RunningRewrite where
  reservations : List CompactionReservation
  buckets : List String
  deriving DecidableEq, Repr

/-- The coordinator and the work that it has admitted. -/
structure Maintenance where
  state : MaintenanceState
  flushes : ℕ
  rewrites : List RunningRewrite
  deriving DecidableEq, Repr

/-- A start or an end of work. -/
inductive MaintenanceAction where
  | startFlush
  | finishFlush
  /-- A compaction of at most `limit` of the planned inputs. -/
  | startCompaction (inputs : List CompactionReservation) (limit : ℕ)
  /-- A rewrite of blob files; the plan has tables in these buckets. -/
  | startBlobGc (tables : List String)
  /-- A rewrite is done or fails. -/
  | finishRewrite (index : ℕ)
  | shutdown
  deriving DecidableEq, Repr

namespace Maintenance

/-- The reservations that a rewrite of blob files asks for. -/
def blobGcReservations (tables : List String) : List CompactionReservation :=
  (tables.dedup.insertionSort (· ≤ ·)).map fun bucket => ⟨bucket, .all⟩

def step (m : Maintenance) : MaintenanceAction → Option Maintenance
  | .startFlush => m.state.tryStartFlush.map fun state => { m with state, flushes := m.flushes + 1 }
  | .finishFlush =>
    if m.flushes = 0 then none
    else some { m with state := m.state.finishFlush, flushes := m.flushes - 1 }
  | .startCompaction inputs limit =>
    (m.state.reserveCompactions inputs).map fun (reservations, state) =>
      let kept := (inputs.filter fun input => input ∈ reservations).take limit
      { m with
        state
        rewrites := m.rewrites ++ [⟨reservations, bucketsOf kept⟩] }
  | .startBlobGc tables =>
    (m.state.reserveCompactions (blobGcReservations tables)).map fun (reservations, state) =>
      -- The grant is only tested for being there.
      { m with state, rewrites := m.rewrites ++ [⟨reservations, tables⟩] }
  | .finishRewrite index =>
    m.rewrites[index]?.map fun rewrite =>
      { m with
        state := m.state.finishCompactions rewrite.reservations
        rewrites := m.rewrites.eraseIdx index }
  | .shutdown => some { m with state := { m.state with shutdown := true } }

/-- Nothing runs. -/
def idle : Maintenance := ⟨⟨0, [], false⟩, 0, []⟩

structure Exclusive (m : Maintenance) : Prop where
  flush_alone : 0 < m.flushes → m.rewrites = []
  reserved : ∀ rewrite ∈ m.rewrites, ∀ bucket ∈ rewrite.buckets,
    bucket ∈ bucketsOf rewrite.reservations
  disjoint : m.rewrites.Pairwise fun left right => left.buckets.Disjoint right.buckets

/-- A rewrite of blob files is started only when all buckets of its plan are free. -/
def Admits (m : Maintenance) : MaintenanceAction → Prop
  | .startBlobGc tables =>
    ∀ bucket ∈ tables, bucket ∉ bucketsOf m.state.activeCompactions
  | _ => True

instance (m : Maintenance) : (action : MaintenanceAction) → Decidable (m.Admits action)
  | .startBlobGc _ => inferInstanceAs (Decidable (∀ _ ∈ _, _))
  | .startFlush | .finishFlush | .startCompaction _ _ | .finishRewrite _ | .shutdown =>
    isTrue trivial

/-- The coordinator knows what runs, and no bucket is reserved twice. -/
structure Sound (m : Maintenance) : Prop where
  flushes_eq : m.flushes = m.state.activeFlushes
  flush_alone : 0 < m.flushes → m.state.activeCompactions = []
  active_eq : m.state.activeCompactions = m.rewrites.flatMap RunningRewrite.reservations
  nodup : (bucketsOf m.state.activeCompactions).Nodup
  granted : ∀ rewrite ∈ m.rewrites, rewrite.reservations ≠ []
  reserved : ∀ rewrite ∈ m.rewrites, ∀ bucket ∈ rewrite.buckets,
    bucket ∈ bucketsOf rewrite.reservations

namespace Sound

variable {m m' : Maintenance}

lemma start (h : m.Sound) {candidates reservations : List CompactionReservation}
    {state : MaintenanceState} {buckets : List String}
    (hreserve : m.state.reserveCompactions candidates = some (reservations, state))
    (hbuckets : ∀ bucket ∈ buckets, bucket ∈ bucketsOf reservations) :
    Sound { m with state, rewrites := m.rewrites ++ [⟨reservations, buckets⟩] } := by
  obtain ⟨hidle, hne, rfl, hnodup, -⟩ :=
    MaintenanceState.reserveCompactions_eq_some h.nodup hreserve
  refine ⟨h.flushes_eq, fun hpos => ?_, ?_, hnodup, ?_, ?_⟩
  · rw [h.flushes_eq, hidle] at hpos
    exact absurd hpos (lt_irrefl 0)
  · simp [h.active_eq]
  · simpa [or_imp, forall_and] using ⟨h.granted, hne⟩
  · simpa [or_imp, forall_and] using ⟨by simpa using h.reserved, by simpa using hbuckets⟩

lemma finish (h : m.Sound) {index : ℕ} {rewrite : RunningRewrite}
    (hget : m.rewrites[index]? = some rewrite) :
    Sound { m with
      state := m.state.finishCompactions rewrite.reservations
      rewrites := m.rewrites.eraseIdx index } := by
  have hsub : (m.rewrites.eraseIdx index).Sublist m.rewrites := eraseIdx_sublist _ _
  have hactive : m.state.activeCompactions.filter (fun active => active ∉ rewrite.reservations) =
      (m.rewrites.eraseIdx index).flatMap RunningRewrite.reservations := by
    have hsplit : m.rewrites =
        m.rewrites.take index ++ rewrite :: m.rewrites.drop (index + 1) := by
      obtain ⟨hindex, rfl⟩ := List.getElem?_eq_some_iff.mp hget
      simp
    have hflat := congrArg (List.flatMap RunningRewrite.reservations) hsplit
    rw [flatMap_append, flatMap_cons] at hflat
    have hnodup := h.nodup.of_map
    rw [h.active_eq, hflat, nodup_append, nodup_append] at hnodup
    obtain ⟨-, ⟨-, -, hback⟩, hfront⟩ := hnodup
    rw [h.active_eq, hflat, eraseIdx_eq_take_drop_succ, flatMap_append,
      filter_append, filter_append, filter_eq_self.mpr, filter_eq_nil_iff.mpr,
      filter_eq_self.mpr, nil_append]
    · intro other hother
      simpa using fun hmem => hback other hmem other hother rfl
    · simp
    · intro other hother
      simpa using fun hmem => hfront other hother other (mem_append_left _ hmem) rfl
  refine ⟨h.flushes_eq, fun hpos => ?_, hactive, ?_, ?_, ?_⟩
  · simp [MaintenanceState.finishCompactions, h.flush_alone hpos]
  · exact h.nodup.sublist (filter_sublist.map _)
  · exact fun other hother => h.granted other (hsub.subset hother)
  · exact fun other hother => h.reserved other (hsub.subset hother)

/-- Every step keeps the coordinator informed. -/
lemma step (h : m.Sound) {action : MaintenanceAction} (hadmits : m.Admits action)
    (hstep : m.step action = some m') : m'.Sound := by
  cases action with
  | startFlush =>
    obtain ⟨state, hstart, rfl⟩ := map_eq_some_iff.mp hstep
    simp only [MaintenanceState.tryStartFlush] at hstart
    split_ifs at hstart with hbusy
    push Not at hbusy
    obtain rfl := Option.some.inj hstart
    exact ⟨by simp [h.flushes_eq, hbusy.2.1], fun _ => hbusy.2.2, h.active_eq, h.nodup, h.granted,
      h.reserved⟩
  | finishFlush =>
    simp only [Maintenance.step] at hstep
    split_ifs at hstep with hnone
    obtain rfl := Option.some.inj hstep
    exact ⟨by simp [MaintenanceState.finishFlush, h.flushes_eq],
      fun _ => h.flush_alone (by omega), h.active_eq, h.nodup, h.granted, h.reserved⟩
  | startCompaction inputs limit =>
    obtain ⟨⟨reservations, state⟩, hreserve, rfl⟩ := map_eq_some_iff.mp hstep
    refine h.start hreserve fun bucket hbucket => ?_
    obtain ⟨input, hinput, rfl⟩ := mem_map.mp hbucket
    exact mem_map_of_mem (by simpa using (mem_filter.mp (mem_of_mem_take hinput)).2)
  | startBlobGc tables =>
    obtain ⟨⟨reservations, state⟩, hreserve, rfl⟩ := map_eq_some_iff.mp hstep
    obtain ⟨-, hne, rfl, hnodup, hall⟩ :=
      MaintenanceState.reserveCompactions_eq_some h.nodup hreserve
    refine h.start hreserve fun bucket hbucket => ?_
    have hreserved := hall ⟨bucket, .all⟩ (by simpa [blobGcReservations] using hbucket)
    rw [bucketsOf, map_append, mem_append] at hreserved
    exact hreserved.resolve_left (hadmits bucket hbucket)
  | finishRewrite index =>
    obtain ⟨rewrite, hget, rfl⟩ := map_eq_some_iff.mp hstep
    exact h.finish hget
  | shutdown =>
    obtain rfl := Option.some.inj hstep
    exact ⟨h.flushes_eq, h.flush_alone, h.active_eq, h.nodup, h.granted, h.reserved⟩

lemma exclusive (h : m.Sound) : m.Exclusive where
  flush_alone hpos := by
    have hnone := h.active_eq.symm.trans (h.flush_alone hpos)
    rw [flatMap_eq_nil_iff] at hnone
    exact eq_nil_iff_forall_not_mem.mpr fun rewrite hmem =>
      h.granted rewrite hmem (hnone rewrite hmem)
  reserved := h.reserved
  disjoint := by
    have hnodup := h.nodup
    rw [h.active_eq, bucketsOf, map_flatMap, nodup_flatMap] at hnodup
    refine hnodup.2.imp_of_mem fun hleft hright hdisjoint bucket hbl hbr => ?_
    exact hdisjoint (h.reserved _ hleft bucket hbl) (h.reserved _ hright bucket hbr)

end Sound

/-- In every run in which a rewrite of blob files is started only when all buckets of its plan are
free, rewriters exclude each other. -/
theorem exclusive_of_run {actions : List MaintenanceAction} {m : Maintenance}
    (hrun : Runs.run step idle actions = some m) (hmeets : Runs.Meets step Admits idle actions) :
    m.Exclusive := by
  refine Sound.exclusive (Runs.invariant_of_step
    (fun _ _ _ h hadmits hstep => Sound.step h hadmits hstep) ?_ hrun hmeets)
  exact ⟨rfl, fun h => absurd h (lt_irrefl 0), rfl, nodup_nil, nofun, nofun⟩

/-- A compaction gets one of two buckets, and a rewrite of blob files the other one when it is free
again. -/
def grantedRun : List MaintenanceAction :=
  [.startBlobGc ["a"], .startCompaction [⟨"a", .all⟩, ⟨"b", .all⟩] 2, .finishRewrite 0,
    .startBlobGc ["c", "a"]]

theorem exclusive_of_run_granted :
    ∃ m, Runs.run step idle grantedRun = some m ∧
      m.rewrites.map RunningRewrite.buckets = [["b"], ["c", "a"]] ∧ m.Exclusive := by
  have hrun : (Runs.run step idle grantedRun).map
      (fun m => m.rewrites.map RunningRewrite.buckets) = some [["b"], ["c", "a"]] := by decide
  obtain ⟨m, hm, hbuckets⟩ := map_eq_some_iff.mp hrun
  exact ⟨m, hm, hbuckets, exclusive_of_run hm (by decide)⟩

/-- A rewrite of blob files gets one bucket of its plan and replaces tables in both, while a
compaction runs in the other one. -/
theorem sharedBucket_not_exclusive :
    ∃ m, Runs.run step idle [.startCompaction [⟨"b", .all⟩] 1, .startBlobGc ["a", "b"]] = some m ∧
      ¬m.Exclusive := by
  have hrun : (Runs.run step idle
      [.startCompaction [⟨"b", .all⟩] 1, .startBlobGc ["a", "b"]]).map Maintenance.rewrites =
      some [⟨[⟨"b", .all⟩], ["b"]⟩, ⟨[⟨"a", .all⟩], ["a", "b"]⟩] := by decide
  obtain ⟨m, hm, hrewrites⟩ := map_eq_some_iff.mp hrun
  refine ⟨m, hm, fun h => ?_⟩
  have hdisjoint := h.disjoint
  rw [hrewrites, pairwise_pair] at hdisjoint
  exact hdisjoint (mem_singleton_self "b") (by decide)

/-! ## What the coordinator grants -/

/-- The work with what was granted to it, whatever it does in other buckets. -/
def grants (m : Maintenance) : Maintenance :=
  { m with rewrites := m.rewrites.map fun rewrite => ⟨rewrite.reservations, []⟩ }

/-- At most one flush runs, and the coordinator knows what it has granted. -/
def Granted (m : Maintenance) : Prop := m.flushes ≤ 1 ∧ m.grants.Sound

lemma Granted.start {m : Maintenance} (h : m.Granted)
    {candidates reservations : List CompactionReservation} {state : MaintenanceState}
    (buckets : List String)
    (hreserve : m.state.reserveCompactions candidates = some (reservations, state)) :
    Granted { m with state, rewrites := m.rewrites ++ [⟨reservations, buckets⟩] } := by
  have hsound := h.2.start hreserve (forall_mem_nil _)
  exact ⟨h.1, by simpa [grants] using hsound⟩

lemma Granted.step {m m' : Maintenance} (h : m.Granted) {action : MaintenanceAction}
    (hstep : m.step action = some m') : m'.Granted := by
  cases action with
  | startFlush =>
    obtain ⟨state, hstart, rfl⟩ := map_eq_some_iff.mp hstep
    -- A flush and a shutdown read nothing of the rewrites, so the step of `Sound` applies.
    have hgrants : m.grants.step .startFlush =
        some { m.grants with state, flushes := m.flushes + 1 } := by
      simp [Maintenance.step, grants, hstart]
    refine ⟨?_, Sound.step h.2 (by exact trivial) hgrants⟩
    simp only [MaintenanceState.tryStartFlush] at hstart
    split_ifs at hstart with hbusy
    have hnone := h.2.flushes_eq
    simp only [grants] at hnone
    change m.flushes + 1 ≤ 1
    omega
  | finishFlush =>
    simp only [Maintenance.step] at hstep
    split_ifs at hstep with hnone
    obtain rfl := Option.some.inj hstep
    have hgrants : m.grants.step .finishFlush =
        some { m.grants with state := m.state.finishFlush, flushes := m.flushes - 1 } := by
      simp [Maintenance.step, grants, hnone]
    exact ⟨(Nat.sub_le _ _).trans h.1, Sound.step h.2 (by exact trivial) hgrants⟩
  | startCompaction inputs limit =>
    obtain ⟨⟨reservations, state⟩, hreserve, rfl⟩ := map_eq_some_iff.mp hstep
    exact h.start _ hreserve
  | startBlobGc tables =>
    obtain ⟨⟨reservations, state⟩, hreserve, rfl⟩ := map_eq_some_iff.mp hstep
    exact h.start _ hreserve
  | finishRewrite index =>
    obtain ⟨rewrite, hget, rfl⟩ := map_eq_some_iff.mp hstep
    have hgrants : m.grants.rewrites[index]? = some ⟨rewrite.reservations, []⟩ := by
      simp [grants, hget]
    exact ⟨h.1, by simpa [grants, eraseIdx_map] using Sound.finish h.2 hgrants⟩
  | shutdown =>
    obtain rfl := Option.some.inj hstep
    have hgrants : m.grants.step .shutdown =
        some { m.grants with state := { m.state with shutdown := true } } := rfl
    exact ⟨h.1, Sound.step h.2 (by exact trivial) hgrants⟩

/-- In every run at most one flush runs, and no rewrite beside it, no bucket is granted to two
rewrites, and the coordinator holds what the running rewrites were granted and nothing else. -/
theorem grants_of_run {actions : List MaintenanceAction} {m : Maintenance}
    (hrun : Runs.run step idle actions = some m) :
    m.flushes ≤ 1 ∧ (0 < m.flushes → m.rewrites = []) ∧
      (m.rewrites.flatMap fun rewrite => bucketsOf rewrite.reservations).Nodup ∧
      m.state.activeFlushes = m.flushes ∧
      m.state.activeCompactions = m.rewrites.flatMap RunningRewrite.reservations := by
  have hgranted : m.Granted := Runs.invariant_of_step
    (fun _ _ _ h _ hstep => Granted.step h hstep) ?_ hrun
    (Runs.meets_of_forall (fun _ _ => trivial) _ _)
  · obtain ⟨hone, hsound⟩ := hgranted
    have hactive : m.state.activeCompactions = m.rewrites.flatMap RunningRewrite.reservations := by
      simpa [grants, flatMap_map] using hsound.active_eq
    have hnodup := hsound.nodup
    simp only [grants] at hnodup
    rw [hactive, bucketsOf, map_flatMap] at hnodup
    exact ⟨hone, fun hpos => by simpa [grants] using hsound.exclusive.flush_alone hpos, hnodup,
      hsound.flushes_eq.symm, hactive⟩
  · exact ⟨Nat.zero_le 1, rfl, fun h => absurd h (lt_irrefl 0), rfl, nodup_nil, nofun, nofun⟩

theorem grants_of_run_shared :
    ∃ m, Runs.run step idle [.startCompaction [⟨"b", .all⟩] 1, .startBlobGc ["a", "b"]] = some m ∧
      (m.rewrites.flatMap fun rewrite => bucketsOf rewrite.reservations).Nodup := by
  have hrun : (Runs.run step idle
      [.startCompaction [⟨"b", .all⟩] 1, .startBlobGc ["a", "b"]]).isSome := by decide
  obtain ⟨m, hm⟩ := isSome_iff_exists.mp hrun
  exact ⟨m, hm, (grants_of_run hm).2.2.1⟩

end Maintenance

end TrineKv
