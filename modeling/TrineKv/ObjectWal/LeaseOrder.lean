import TrineKv.ObjectWal.WriterSteps

/-!
# The lease never goes back

Every put of the lease is planned from a lease state that was read with its tag, and neither lowers
the epoch nor the committed sequence of that state. A put that is executed replaces the very state
that it was planned from, so the lease object only moves forward, whatever the writers do and however
late their puts are executed.

## Main results

* `Writers.follows_of_run`: leases ascend.
-/

namespace TrineKv.ObjectWal

open CasCell

variable {etag : ETag} {put : Put ETag ObjectLeaseState}
  {config : Config} {leaseKey : String} {objects : Objects}
  {cell cell' : Cell ETag ObjectLeaseState}

def Follows (before after : ObjectLeaseState) : Prop :=
  before.epoch ≤ after.epoch ∧ before.committedSequence ≤ after.committedSequence

instance : Std.Refl Follows := ⟨fun _ => ⟨UInt64.le_refl _, UInt64.le_refl _⟩⟩

instance : IsTrans ObjectLeaseState Follows :=
  ⟨fun _ _ _ h h' => ⟨UInt64.le_trans h.1 h'.1, UInt64.le_trans h.2 h'.2⟩⟩

lemma Acquires.follows {ownerId : List UInt8}
    (h : Acquires ownerId cell.current put) : Planned Follows cell put := by
  generalize hcurrent : cell.current = current at h
  cases h with
  | create => exact .of_none
  | takeOver hlt =>
    exact .of_named (cell.named_current _ _ hcurrent) ⟨UInt64.le_of_lt hlt, UInt64.le_refl _⟩

/-! ## One writer -/

structure Phase.Orderly (cell : Cell ETag ObjectLeaseState) (phase : Phase) : Prop where
  held : ∀ lease, phase.lease? = some lease → cell.named lease.etag = some lease.state
  sent : ∀ put, phase.put? = some put → Planned Follows cell put
  renews : ∀ lease timer put await, phase = .publishing (.renew lease timer) put await →
    put.next.ownerId = lease.state.ownerId

namespace Phase.Orderly

variable {phase phase' : Phase} {command : Command} {acknowledged : List ObjectWalAccept}

lemma idle : Phase.idle.Orderly cell := ⟨nofun, nofun, nofun⟩

lemma stopped : Phase.stopped.Orderly cell := ⟨nofun, nofun, nofun⟩

lemma holding {lease : ObjectWriterLease} (h : cell.named lease.etag = some lease.state) :
    (Phase.holding lease).Orderly cell := by
  refine ⟨?_, nofun, nofun⟩
  rintro _ ⟨⟩
  exact h

lemma await {operation : Operation} {before after : Await}
    (h : (Phase.publishing operation put before).Orderly cell) (hafter : after ≠ .sent) :
    (Phase.publishing operation put after).Orderly cell := by
  refine ⟨fun lease hlease => h.held lease ?_, fun put hput => ?_, ?_⟩
  · cases operation <;> exact hlease
  · cases after with
    | sent => exact absurd rfl hafter
    | refused => cases hput
    | lost => cases hput
  · rintro lease timer _ _ ⟨⟩
    exact h.renews lease timer put before rfl

lemma execute (h : phase.Orderly cell)
    (hexecute : cell.execute put etag = some cell') : phase.Orderly cell' :=
  ⟨fun lease hlease => Cell.named_of_execute hexecute (h.held lease hlease),
    fun put hput => (h.sent put hput).execute hexecute, h.renews⟩

lemma stored {operation : Operation} {put : Put ETag ObjectLeaseState} {etag : ETag}
    (hexecute : cell.execute put etag = some cell') :
    (Phase.stored put etag operation).1.Orderly cell' := by
  obtain ⟨-, hcurrent, -, -⟩ := Cell.execute_eq_some hexecute
  have hnamed := cell'.named_current _ _ hcurrent
  cases operation with
  | acquire => exact holding hnamed
  | renew _ _ => exact holding hnamed
  | release _ => exact stopped
  | commit _ _ _ => exact holding hnamed

lemma named_of_resumes (h : phase.Orderly cell) {lease : ObjectWriterLease}
    {accepts : List ObjectWalAccept} {walKey : ObjectWalKey}
    (hresumes : Phase.Resumes objects cell.current phase lease accepts walKey) :
    cell.named lease.etag = some lease.state := by
  cases hresumes with
  | stored _ => exact h.held lease rfl
  | refused hcurrent _ _ => exact cell.named_current _ _ hcurrent

/-- A step of a writer keeps it in order. -/
lemma of_outcome (h : phase.Orderly cell)
    (houtcome : Phase.Outcome config objects cell.current phase command phase' acknowledged) :
    phase'.Orderly cell := by
  cases houtcome with
  | idle => exact idle
  | stopped => exact stopped
  | kept hlease _ => exact holding (h.held _ hlease)
  | observed hcurrent _ _ => exact holding (cell.named_current _ _ hcurrent)
  | acquiring _ hacquires =>
    refine ⟨nofun, ?_, nofun⟩
    rintro _ ⟨⟩
    exact hacquires.follows
  | @extending lease operation expiry hcurrent _ _ hoperation =>
    have hnamed := cell.named_current _ _ hcurrent
    refine ⟨fun lease' hlease' => ?_, ?_, ?_⟩
    · obtain rfl : lease = lease' := by
        rcases hoperation with ⟨timer, rfl⟩ | rfl <;> exact Option.some.inj hlease'
      exact hnamed
    · rintro _ ⟨⟩
      exact .of_named hnamed ⟨UInt64.le_refl _, UInt64.le_refl _⟩
    · rintro lease' timer _ _ ⟨⟩
      rcases hoperation with ⟨timer', heq⟩ | heq
      · cases heq
        rfl
      · cases heq
  | storing _ _ hcurrent _ _ _ _ =>
    refine ⟨?_, nofun, nofun⟩
    rintro _ ⟨⟩
    exact cell.named_current _ _ hcurrent
  | heading hresumes hlt =>
    have hnamed := h.named_of_resumes hresumes
    refine ⟨?_, ?_, nofun⟩
    · rintro _ ⟨⟩
      exact hnamed
    · rintro _ ⟨⟩
      exact .of_named hnamed ⟨UInt64.le_refl _, UInt64.le_of_lt hlt⟩
  | alreadyApplied hresumes _ => exact holding (h.named_of_resumes hresumes)
  | reconciled _ hcurrent _ _ _ => exact holding (cell.named_current _ _ hcurrent)

end Phase.Orderly

/-! ## All writers -/

namespace Writers

/-- Every lease state that was ever stored is behind the current one, and every writer and every put
that the store may still execute is in order. -/
structure Ascending (writers : Writers) : Prop where
  below : Below Follows writers.cell
  orderly : ∀ writer, (writers.phases writer).Orderly writers.cell
  abandoned : ∀ put ∈ writers.abandoned, Planned Follows writers.cell put

namespace Ascending

variable {writers writers' : Writers}

lemma start (objects : Objects) : (Writers.start objects).Ascending :=
  ⟨nofun, fun _ => .idle, nofun⟩

lemma enter (h : writers.Ascending) {writer : ℕ} {phase : Phase}
    (hphase : phase.Orderly writers.cell) (acknowledged : List ObjectWalAccept) :
    (writers.enter writer (phase, acknowledged)).Ascending := by
  refine ⟨h.below, fun other => ?_, h.abandoned⟩
  by_cases heq : other = writer
  · rw [heq, phases_enter_self]
    exact hphase
  · rw [phases_enter_of_ne _ heq]
    exact h.orderly other

lemma execute (h : writers.Ascending)
    {cell : Cell ETag ObjectLeaseState} (hplanned : Planned Follows writers.cell put)
    (hexecute : writers.cell.execute put etag = some cell) :
    { writers with cell }.Ascending :=
  ⟨h.below.execute hplanned hexecute, fun writer => (h.orderly writer).execute hexecute,
    fun other hother => (h.abandoned other hother).execute hexecute⟩

lemma congr (h : writers.Ascending) (hcell : writers'.cell = writers.cell)
    (hphases : writers'.phases = writers.phases)
    (habandoned : ∀ put ∈ writers'.abandoned, put ∈ writers.abandoned) : writers'.Ascending :=
  ⟨hcell ▸ h.below, fun writer => hcell ▸ hphases ▸ h.orderly writer,
    fun put hput => hcell ▸ h.abandoned put (habandoned put hput)⟩

lemma moves (h : writers.Ascending) {action : Action}
    (hstep : writers.step config leaseKey action = some writers') :
    Moves config writers action writers' :=
  moves_of_step (fun writer => (h.orderly writer).renews) hstep

/-- Every move keeps the order.

**Proof sketch.** A writer only moves to phases that are in order. A put that is executed was planned
forward, and the plans of the others outlive it. -/
lemma step (h : writers.Ascending) {action : Action}
    (hstep : writers.step config leaseKey action = some writers') : writers'.Ascending := by
  cases h.moves hstep with
  | acted _ _ houtcome =>
    refine enter ?_ ?_ _
    · exact h.congr rfl rfl fun _ hput => hput
    · exact (h.orderly _).of_outcome houtcome
  | @stored writer _ _ put _ hphase hexecute =>
    have hplanned := (h.orderly writer).sent put (by rw [hphase]; rfl)
    exact enter (h.execute hplanned hexecute) (.stored hexecute) _
  | @refused writer _ _ hphase =>
    have horderly := h.orderly writer
    rw [hphase] at horderly
    refine h.enter ?_ _
    exact horderly.await nofun
  | @lost writer _ put hphase =>
    have horderly := h.orderly writer
    rw [hphase] at horderly
    have habandoned : { writers with abandoned := put :: writers.abandoned }.Ascending :=
      ⟨h.below, h.orderly, List.forall_mem_cons.mpr ⟨horderly.sent put rfl, h.abandoned⟩⟩
    refine habandoned.enter ?_ _
    exact horderly.await nofun
  | @lostSegment writer _ _ _ _ hphase =>
    have horderly := h.orderly writer
    rw [hphase] at horderly
    refine enter ?_ ?_ _
    · exact h.congr rfl rfl fun _ hput => hput
    · exact ⟨horderly.held, nofun, nofun⟩
  | storeAbandoned hput hexecute =>
    exact (h.execute (h.abandoned _ hput) hexecute).congr rfl rfl
      fun _ hmem => List.mem_of_mem_eraseIdx hmem
  | storeAbandonedSegment _ => exact h.congr rfl rfl fun _ hput => hput

end Ascending

lemma Moves.named {writers writers' : Writers} {action : Action}
    (h : Moves config writers action writers') {state : ObjectLeaseState}
    (hnamed : writers.cell.named etag = some state) : writers'.cell.named etag = some state := by
  cases h with
  | acted _ _ _ => exact hnamed
  | stored _ hexecute => exact Cell.named_of_execute hexecute hnamed
  | refused _ => exact hnamed
  | lost _ => exact hnamed
  | lostSegment _ => exact hnamed
  | storeAbandoned _ hexecute => exact Cell.named_of_execute hexecute hnamed
  | storeAbandonedSegment _ => exact hnamed

/-- Whatever the writers do, the epoch and the committed sequence of the lease object never
decrease.

**Proof sketch.** The state keeps its tag, and what a tag names is behind the current state. -/
lemma follows_of_run {writers writers' : Writers} {actions : List Action}
    (h : writers.Ascending) (hrun : Runs.run (step config leaseKey) writers actions = some writers')
    {state : ObjectLeaseState} (hcurrent : writers.cell.current = some (etag, state)) :
    ∃ current, writers'.cell.current = some current ∧ Follows state current.2 := by
  have hinv : writers'.Ascending ∧ writers'.cell.named etag = some state := by
    refine @Runs.invariant_of_step _ _ _ (fun _ _ => True)
      (fun writers => writers.Ascending ∧ writers.cell.named etag = some state) ?_ _ _ _
      ⟨h, writers.cell.named_current _ _ hcurrent⟩ hrun
      (Runs.meets_of_forall (fun _ _ => trivial) _ _)
    rintro writers action writers' ⟨hascending, hnamed⟩ - hstep
    exact ⟨hascending.step hstep, (hascending.moves hstep).named hnamed⟩
  exact hinv.1.below etag state hinv.2

end Writers

end TrineKv.ObjectWal
