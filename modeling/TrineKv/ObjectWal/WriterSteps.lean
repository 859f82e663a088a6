import TrineKv.ObjectWal.Writers

/-!
# What the steps of a writer can do

A writer that reads the lease and plans its next put can end in few ways: it gives up, it goes on
holding a lease that it had or has just read, or it sends a put that is planned from the lease it has
just read. The invariants of the writers are derived from this list.

## Main results

* `Phase.outcome_of_next`, `Writers.moves_of_step`.
-/

namespace TrineKv.ObjectWal

open Function

open Wal FrameLog CasCell

variable {nowMs : UInt64} {lease : ObjectWriterLease}
  {config : Config} {leaseKey : String} {objects : Objects}
  {current : Option (ETag × ObjectLeaseState)}

/-! ## Plans -/

lemma refreshCurrent_eq_ok {lease lease' : ObjectWriterLease}
    (h : refreshCurrent leaseKey lease current = .ok lease') :
    current = some (lease'.etag, lease'.state) ∧ lease'.state.epoch = lease.state.epoch ∧
      lease'.state.ownerId = lease.state.ownerId := by
  unfold refreshCurrent at h
  match current, h with
  | some (etag, state), h =>
    simp only [acceptObserved] at h
    split at h
    · next howner =>
      obtain rfl := Except.ok.inj h
      exact ⟨rfl, ObjectLeaseState.observeOwner_eq_currentOwner.mp howner⟩
    · cases h
    · cases h

inductive Acquires (ownerId : List UInt8) :
    Option (ETag × ObjectLeaseState) → Put ETag ObjectLeaseState → Prop
  | create {expiry : UInt64} : Acquires ownerId none ⟨⟨1, ownerId, 0, none, expiry⟩, none⟩
  | takeOver {etag : ETag} {state : ObjectLeaseState} {expiry : UInt64} :
      state.epoch < state.epoch + 1 → Acquires ownerId (some (etag, state))
        ⟨{ state with epoch := state.epoch + 1, ownerId, leaseExpiresAtMs := expiry }, some etag⟩

lemma acquires_of_acquirePut {ownerId : List UInt8}
    {put : Put ETag ObjectLeaseState}
    (h : acquirePut config leaseKey current nowMs ownerId = .ok put) :
    Acquires ownerId current put := by
  unfold acquirePut at h
  match current, h with
  | none, h =>
    obtain ⟨next, hnext, h⟩ := ByteCodec.bind_eq_ok.mp h
    obtain rfl := encodeLeaseState_eq_ok hnext
    obtain rfl := Except.ok.inj h
    exact .create
  | some (etag, state), h =>
    simp only at h
    split_ifs at h with hexpired hmax
    obtain ⟨next, hnext, h⟩ := ByteCodec.bind_eq_ok.mp h
    obtain rfl := encodeLeaseState_eq_ok hnext
    obtain rfl := Except.ok.inj h
    refine .takeOver ?_
    rw [UInt64.lt_iff_toNat_lt, toNat_succ hmax]
    exact Nat.lt_succ_self _

/-! ## Leases, puts and owners of a phase -/

namespace Phase

def lease? : Phase → Option ObjectWriterLease
  | .holding lease | .storing lease _ _ _ _ | .publishing (.renew lease _) _ _
  | .publishing (.release lease) _ _ | .publishing (.commit lease _ _) _ _ => some lease
  | .idle | .stopped | .publishing .acquire _ _ => none

def put? : Phase → Option (Put ETag ObjectLeaseState)
  | .publishing _ put .sent => some put
  | _ => none

def owner? : Phase → Option (List UInt8)
  | .publishing .acquire put _ => some put.next.ownerId
  | phase => phase.lease?.map fun lease => lease.state.ownerId

def lostCommit? : Phase → Option (Put ETag ObjectLeaseState)
  | .publishing (.commit _ _ _) put .lost => some put
  | _ => none

lemma owner?_of_lease? {phase : Phase}
    (h : phase.lease? = some lease) : phase.owner? = some lease.state.ownerId := by
  unfold owner?
  split
  · cases h
  · rw [h, Option.map_some]

/-- The lease for the head is the own one after the put of the segment, and the current one after a
refused head. -/
inductive Resumes (objects : Objects) (current : Option (ETag × ObjectLeaseState)) :
    Phase → ObjectWriterLease → List ObjectWalAccept → ObjectWalKey → Prop
  | stored {lease : ObjectWriterLease} {accepts : List ObjectWalAccept} {walKey : ObjectWalKey}
      {segment : Segment} {lost : Bool} : objects walKey = some segment →
      Resumes objects current (.storing lease accepts walKey segment lost) lease accepts walKey
  | refused {lease lease' : ObjectWriterLease} {accepts : List ObjectWalAccept}
      {walKey : ObjectWalKey} {put : Put ETag ObjectLeaseState} :
      current = some (lease'.etag, lease'.state) → lease'.state.epoch = lease.state.epoch →
      lease'.state.ownerId = lease.state.ownerId →
      Resumes objects current (.publishing (.commit lease accepts walKey) put .refused) lease'
        accepts walKey

inductive Outcome (config : Config) (objects : Objects)
    (current : Option (ETag × ObjectLeaseState)) (phase : Phase) (command : Command) :
    Phase → List ObjectWalAccept → Prop
  | idle : Outcome config objects current phase command .idle []
  | stopped : Outcome config objects current phase command .stopped []
  | kept {lease : ObjectWriterLease} : phase.lease? = some lease → phase.lostCommit? = none →
      Outcome config objects current phase command (.holding lease) []
  | observed {lease : ObjectWriterLease} : current = some (lease.etag, lease.state) →
      phase.owner? = some lease.state.ownerId → phase.lostCommit? = none →
      Outcome config objects current phase command (.holding lease) []
  | acquiring {nowMs : UInt64} {ownerId : List UInt8} {put : Put ETag ObjectLeaseState} :
      command = .acquire nowMs ownerId → Acquires ownerId current put →
      Outcome config objects current phase command (.publishing .acquire put .sent) []
  | extending {lease : ObjectWriterLease} {operation : Operation} {expiry : UInt64} :
      current = some (lease.etag, lease.state) → phase.owner? = some lease.state.ownerId →
      phase.lostCommit? = none →
      ((∃ timer, operation = .renew lease timer) ∨ operation = .release lease) →
      Outcome config objects current phase command (.publishing operation
        ⟨{ lease.state with leaseExpiresAtMs := expiry }, some lease.etag⟩ .sent) []
  | storing {lease lease' : ObjectWriterLease} {accepts : List ObjectWalAccept}
      {last : ObjectWalAccept} {walKey : ObjectWalKey} {segment : Segment} :
      command = .commit accepts → phase = .holding lease' →
      current = some (lease.etag, lease.state) → lease.state.ownerId = lease'.state.ownerId →
      WalState.checkIncreasing lease.state.committedSequence (WalState.sortAccepts accepts) =
        .ok () →
      (WalState.sortAccepts accepts).getLast? = some last →
      commitSegment config lease.state (WalState.sortAccepts accepts) last =
        .ok (walKey, segment) →
      Outcome config objects current phase command
        (.storing lease (WalState.sortAccepts accepts) walKey segment false) []
  | heading {lease : ObjectWriterLease} {accepts : List ObjectWalAccept} {walKey : ObjectWalKey}
      {expiry : UInt64} : Resumes objects current phase lease accepts walKey →
      lease.state.committedSequence < walKey.sequence →
      Outcome config objects current phase command (.publishing (.commit lease accepts walKey)
        ⟨{ lease.state with
            committedSequence := walKey.sequence
            currentWalKey := some walKey
            leaseExpiresAtMs := expiry }, some lease.etag⟩ .sent) []
  | alreadyApplied {lease : ObjectWriterLease} {accepts : List ObjectWalAccept}
      {walKey : ObjectWalKey} : Resumes objects current phase lease accepts walKey →
      lease.state.committedSequence = walKey.sequence →
      Outcome config objects current phase command (.holding lease) accepts
  | reconciled {lease lease' : ObjectWriterLease} {accepts : List ObjectWalAccept}
      {walKey : ObjectWalKey} {put : Put ETag ObjectLeaseState} :
      phase = .publishing (.commit lease accepts walKey) put .lost →
      current = some (lease'.etag, lease'.state) → lease'.state.ownerId = put.next.ownerId →
      walKey.sequence ≤ lease'.state.committedSequence →
      lease'.state.currentWalKey = some walKey →
      Outcome config objects current phase command (.holding lease') accepts

variable {phase phase' : Phase} {command : Command} {acknowledged : List ObjectWalAccept}

lemma outcome_renewFailed (h : phase.lease? = some lease)
    (hlost : phase.lostCommit? = none) (timer : Bool) : Outcome config objects current phase command
    (renewFailed lease timer) [] := by
  cases timer with
  | true => exact .kept h hlost
  | false => exact .stopped

lemma outcome_publishCommitHead {accepts : List ObjectWalAccept}
    {walKey : ObjectWalKey}
    (h : publishCommitHead config lease accepts walKey nowMs = (phase', acknowledged))
    (hresumes : Resumes objects current phase lease accepts walKey) :
    Outcome config objects current phase command phase' acknowledged := by
  unfold publishCommitHead at h
  split at h
  · cases h
    exact .stopped
  · next hplan =>
    cases h
    exact .alreadyApplied hresumes (ObjectLeaseState.planCommitHead_eq_alreadyApplied hplan).1
  · next next hplan =>
    obtain ⟨hlt, rfl⟩ := ObjectLeaseState.planCommitHead_eq_publish hplan
    split at h
    · cases h
      exact .stopped
    · next next hnext =>
      cases h
      obtain rfl := encodeLeaseState_eq_ok hnext
      exact .heading hresumes hlt

lemma outcome_renew (lease : ObjectWriterLease) (nowMs : UInt64) (timer : Bool) :
    Outcome config objects current (.holding lease) command
      (renew config leaseKey lease current nowMs timer) [] := by
  unfold renew
  split
  · exact outcome_renewFailed rfl rfl timer
  · next lease' hrefresh =>
    obtain ⟨hcurrent, -, howner⟩ := refreshCurrent_eq_ok hrefresh
    have howner' : (Phase.holding lease).owner? = some lease'.state.ownerId :=
      congrArg some howner.symm
    split
    · next herror =>
      cases timer with
      | true => exact .observed hcurrent howner' rfl
      | false => exact .stopped
    · next next hnext =>
      obtain rfl := encodeLeaseState_eq_ok hnext
      exact .extending hcurrent howner' rfl (Or.inl ⟨timer, rfl⟩)

lemma outcome_release (hlease : phase.lease? = some lease)
    (hlost : phase.lostCommit? = none) :
    Outcome config objects current phase command (release config leaseKey lease current) [] := by
  unfold release
  split
  · exact .stopped
  · next lease' hrefresh =>
    obtain ⟨hcurrent, -, howner⟩ := refreshCurrent_eq_ok hrefresh
    split
    · exact .stopped
    · next next hnext =>
      obtain rfl := encodeLeaseState_eq_ok hnext
      exact .extending hcurrent (howner ▸ owner?_of_lease? hlease) hlost (Or.inr rfl)

lemma outcome_commit (lease : ObjectWriterLease) (accepts : List ObjectWalAccept) :
    Outcome config objects current (.holding lease) (.commit accepts)
      (commit config leaseKey lease current (WalState.sortAccepts accepts)) [] := by
  unfold commit
  split
  · exact .stopped
  · next lease' hrefresh =>
    obtain ⟨hcurrent, -, howner⟩ := refreshCurrent_eq_ok hrefresh
    split
    · exact .stopped
    · next hcheck =>
      split
      · exact .observed hcurrent (congrArg some howner.symm) rfl
      · next last hlast =>
        split
        · exact .stopped
        · next walKey segment hsegment =>
          exact .storing rfl rfl hcurrent howner hcheck hlast hsegment

lemma outcome_acquire {ownerId : List UInt8}
    (h : (match acquirePut config leaseKey current nowMs ownerId with
      | .error _ => some (Phase.idle, [])
      | .ok put => some (.publishing .acquire put .sent, [])) = some (phase', acknowledged)) :
    Outcome config objects current phase (.acquire nowMs ownerId) phase' acknowledged := by
  split at h
  · cases h
    exact .idle
  · next put hput =>
    cases h
    exact .acquiring rfl (acquires_of_acquirePut hput)

lemma outcome_observe {expected : ObjectLeaseState} {failed : Phase}
    (h : (match current with
      | none => some (failed, [])
      | some (etag, state) =>
        if state = expected then some (.holding ⟨etag, state⟩, []) else some (failed, [])) =
      some (phase', acknowledged))
    (hfailed : Outcome config objects current phase command failed [])
    (howner : phase.owner? = some expected.ownerId) (hlost : phase.lostCommit? = none) :
    Outcome config objects current phase command phase' acknowledged := by
  split at h
  · cases h
    exact hfailed
  · split_ifs at h with heq
    · cases h
      subst heq
      exact .observed rfl howner hlost
    · cases h
      exact hfailed

/-- Every step of a writer ends in one of the listed ways. A writer that renews has sent a put with
its own owner id. -/
lemma outcome_of_next
    (howner : ∀ lease timer put await, phase = .publishing (.renew lease timer) put await →
      put.next.ownerId = lease.state.ownerId)
    (h : phase.next config leaseKey objects current command = some (phase', acknowledged)) :
    Outcome config objects current phase command phase' acknowledged := by
  unfold next at h
  split at h
  case h_1 | h_2 => exact outcome_acquire h
  case h_3 lease nowMs timer =>
    cases h
    exact outcome_renew lease nowMs timer
  case h_4 | h_5 =>
    cases h
    exact outcome_release rfl rfl
  case h_6 lease accepts =>
    cases h
    exact outcome_commit lease accepts
  case h_7 lease accepts walKey segment nowMs =>
    split_ifs at h with hstored
    · exact outcome_publishCommitHead (Option.some.inj h) (.stored hstored)
    · cases h
      exact .stopped
  case h_8 put nowMs => exact outcome_observe h .idle rfl rfl
  case h_9 lease timer put nowMs =>
    split at h
    · cases h
      exact outcome_renewFailed rfl rfl timer
    · next lease' hrefresh =>
      cases h
      obtain ⟨hcurrent, -, howner'⟩ := refreshCurrent_eq_ok hrefresh
      exact .observed hcurrent (congrArg some howner'.symm) rfl
  case h_10 lease timer put nowMs =>
    exact outcome_observe h (outcome_renewFailed rfl rfl timer)
      (congrArg some (howner lease timer put .lost rfl).symm) rfl
  case h_12 lease accepts walKey put nowMs =>
    split at h
    · cases h
      exact .stopped
    · next lease' hrefresh =>
      obtain ⟨hcurrent, hepoch, howner'⟩ := refreshCurrent_eq_ok hrefresh
      exact outcome_publishCommitHead (Option.some.inj h) (.refused hcurrent hepoch howner')
  case h_13 lease accepts walKey put nowMs =>
    split at h
    · cases h
      exact .stopped
    · next etag state =>
      split_ifs at h with hhead
      · cases h
        exact .reconciled rfl rfl hhead.2.1 hhead.2.2.1 hhead.2.2.2
      · cases h
        exact .stopped
  case h_18 lease timer put | h_19 lease timer put =>
    cases h
    exact outcome_renewFailed rfl rfl timer
  case h_16 | h_17 =>
    cases h
    exact .idle
  case h_11 | h_14 | h_15 | h_20 | h_21 | h_22 | h_23 =>
    cases h
    exact .stopped
  case h_24 => cases h

end Phase

/-! ## Moves -/

/-- Stored segments stay as they are. -/
def Grown (objects objects' : Objects) : Prop :=
  ∀ key segment, objects key = some segment → objects' key = some segment

lemma Grown.refl (objects : Objects) : Grown objects objects := fun _ _ h => h

lemma Grown.update {key : ObjectWalKey} {segment : Segment}
    (hfree : objects key = none ∨ objects key = some segment) :
    Grown objects (update objects key (some segment)) := by
  intro other stored hstored
  by_cases heq : other = key
  · subst heq
    rcases hfree with hnone | hsome
    · cases hnone.symm.trans hstored
    · rwa [update_self, ← hsome]
  · rwa [update_of_ne heq]

namespace Writers

/-- What a move can do. The put of a segment also does what its writer computes before the next
put, as an observation does. -/
inductive Moves (config : Config) (writers : Writers) : Action → Writers → Prop
  | acted {action : Action} {writer : ℕ} {command : Command} {phase : Phase}
      {acknowledged : List ObjectWalAccept} {objects : Objects} :
      action = .command writer command ∧ objects = writers.objects ∨
        (∃ nowMs, command = .observe nowMs) →
      Grown writers.objects objects →
      Phase.Outcome config objects writers.cell.current (writers.phases writer) command phase
        acknowledged →
      Moves config writers action
        ({ writers with objects, drawn := draw writers.drawn command }.enter writer
          (phase, acknowledged))
  | stored {writer : ℕ} {etag : ETag} {operation : Operation} {put : Put ETag ObjectLeaseState}
      {cell : Cell ETag ObjectLeaseState} :
      writers.phases writer = .publishing operation put .sent →
      writers.cell.execute put etag = some cell →
      Moves config writers (.stored writer etag)
        ({ writers with cell }.enter writer (Phase.stored put etag operation))
  | refused {writer : ℕ} {operation : Operation} {put : Put ETag ObjectLeaseState} :
      writers.phases writer = .publishing operation put .sent →
      Moves config writers (.refused writer)
        (writers.enter writer (.publishing operation put .refused, []))
  | lost {writer : ℕ} {operation : Operation} {put : Put ETag ObjectLeaseState} :
      writers.phases writer = .publishing operation put .sent →
      Moves config writers (.lost writer)
        ({ writers with abandoned := put :: writers.abandoned }.enter writer
          (.publishing operation put .lost, []))
  | lostSegment {writer : ℕ} {lease : ObjectWriterLease} {accepts : List ObjectWalAccept}
      {walKey : ObjectWalKey} {segment : Segment} :
      writers.phases writer = .storing lease accepts walKey segment false →
      Moves config writers (.lostSegment writer)
        ({ writers with
            abandonedSegments := (walKey, segment) :: writers.abandonedSegments }.enter writer
          (.storing lease accepts walKey segment true, []))
  | storeAbandoned {index : ℕ} {etag : ETag} {put : Put ETag ObjectLeaseState}
      {cell : Cell ETag ObjectLeaseState} : put ∈ writers.abandoned →
      writers.cell.execute put etag = some cell →
      Moves config writers (.storeAbandoned index etag)
        { writers with cell, abandoned := writers.abandoned.eraseIdx index }
  | storeAbandonedSegment {index : ℕ} {objects : Objects} : Grown writers.objects objects →
      Moves config writers (.storeAbandonedSegment index) { writers with objects }

lemma moves_of_step {writers writers' : Writers} {action : Action}
    (howner : ∀ writer lease timer put await,
      writers.phases writer = .publishing (.renew lease timer) put await →
        put.next.ownerId = lease.state.ownerId)
    (h : writers.step config leaseKey action = some writers') :
    Moves config writers action writers' := by
  cases action with
  | command writer command =>
    simp only [step] at h
    split at h
    · cases h
    · next next hnext =>
      cases h
      exact .acted (Or.inl ⟨rfl, rfl⟩) (.refl _) (Phase.outcome_of_next (howner writer) hnext)
  | stored writer etag =>
    simp only [step] at h
    split at h
    · next operation put hphase =>
      split at h
      · cases h
      · next cell hexecute =>
        cases h
        exact .stored hphase hexecute
    · cases h
  | refused writer =>
    simp only [step] at h
    split at h
    · next operation put hphase =>
      split_ifs at h
      cases h
      exact .refused hphase
    · cases h
  | lost writer =>
    simp only [step] at h
    split at h
    · next operation put hphase =>
      cases h
      exact .lost hphase
    · cases h
  | storeSegment writer nowMs =>
    simp only [step] at h
    split at h
    · next lease accepts walKey segment hphase =>
      split at h
      · cases h
        exact @Moves.acted config writers _ writer (.observe nowMs) .stopped [] writers.objects
          (Or.inr ⟨nowMs, rfl⟩) (.refl _) .stopped
      · next objects hput =>
        cases h
        obtain ⟨rfl, hfree⟩ := putImmutableObject_eq_ok hput
        have hresumes : Phase.Resumes (update writers.objects walKey (some segment))
            writers.cell.current (writers.phases writer) lease accepts walKey := by
          rw [hphase]
          exact .stored (update_self _ _ _)
        exact @Moves.acted config writers _ writer (.observe nowMs) _ _ _ (Or.inr ⟨nowMs, rfl⟩)
          (.update hfree) (Phase.outcome_publishCommitHead rfl hresumes)
    · cases h
  | lostSegment writer =>
    simp only [step] at h
    split at h
    · next lease accepts walKey segment hphase =>
      cases h
      exact .lostSegment hphase
    · cases h
  | storeAbandoned index etag =>
    simp only [step] at h
    split at h
    · cases h
    · next put hput =>
      split at h
      · cases h
      · next cell hexecute =>
        cases h
        exact .storeAbandoned (List.mem_of_getElem? hput) hexecute
  | storeAbandonedSegment index =>
    simp only [step] at h
    split at h
    · cases h
    · split_ifs at h with hfree
      cases h
      exact .storeAbandonedSegment (.update (Or.inl hfree))

end Writers

end TrineKv.ObjectWal
