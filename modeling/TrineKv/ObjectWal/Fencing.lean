import TrineKv.ObjectWal.LeaseOrder
import TrineKv.ObjectWal.Readable

/-!
# Acknowledged commits stay in the log

A group commit puts its segment behind the head that it has read and then publishes it; a writer
that loses its put plans the same segment again. Nobody else moves the head while it is the owner:
other writers have other owner ids, and a put of its own that was left to the store does not move
the head or can no more be executed.

## Main results

* `Writers.Sound.step`: every step keeps the invariant.
-/

namespace TrineKv.ObjectWal

open List ByteCodec
open UInt64 (le_iff_toNat_le lt_iff_toNat_lt lt_irrefl)

open Wal FrameLog CasCell

variable {other : Put ETag ObjectLeaseState} {ownerId : List UInt8}
  {config : Config} {leaseKey : String} {objects objects' : Objects}
  {cell cell' : Cell ETag ObjectLeaseState}
  {put : Put ETag ObjectLeaseState} {etag : ETag} {state : ObjectLeaseState}

/-! ## Plans -/

/-- A segment with the commits of a group continues the log of a lease state without a gap, and the
longer chain is within the limits of the reader. -/
structure Prepared (config : Config) (objects : Objects) (state : ObjectLeaseState)
    (accepts : List ObjectWalAccept) (walKey : ObjectWalKey) (segment : Segment) : Prop where
  previous : segment.previous = state.currentWalKey
  verified : Verified config (walKey, segment)
  lt : state.committedSequence < walKey.sequence
  content : ∃ batches, Holds encodesFrame batches segment.frames ∧
    Consecutive state.committedSequence walKey.sequence batches ∧
    ∀ accept ∈ accepts, accept.batch ∈ batches
  fits : ∃ chain, LinkedLog.Chain objects Segment.previous state.currentWalKey chain ∧
    chain.length < maxChainSegments ∧
    chainBytes config chain + segmentLen config segment ≤ maxReplayBytes

namespace Prepared

variable {state state' : ObjectLeaseState} {accepts : List ObjectWalAccept} {walKey : ObjectWalKey}
  {segment : Segment}

lemma grow (h : Prepared config objects state accepts walKey segment)
    (hgrown : Grown objects objects') : Prepared config objects' state accepts walKey segment := by
  obtain ⟨chain, hchain, hfits⟩ := h.fits
  exact { h with fits := ⟨chain, hchain.grow hgrown, hfits⟩ }

lemma congr (h : Prepared config objects state accepts walKey segment)
    (hhead : state'.currentWalKey = state.currentWalKey)
    (hcommitted : state'.committedSequence = state.committedSequence) :
    Prepared config objects state' accepts walKey segment where
  previous := hhead ▸ h.previous
  verified := h.verified
  lt := hcommitted ▸ h.lt
  content := hcommitted ▸ h.content
  fits := hhead ▸ h.fits

end Prepared

structure Keeps (base next : ObjectLeaseState) : Prop where
  head : next.currentWalKey = base.currentWalKey
  committed : next.committedSequence = base.committedSequence
  owner : next.epoch = base.epoch ∧ next.ownerId = base.ownerId ∨ base.epoch < next.epoch

/-- A put continues the log with a stored segment. -/
structure Extends (config : Config) (objects : Objects) (base next : ObjectLeaseState) : Prop where
  owner : next.epoch = base.epoch ∧ next.ownerId = base.ownerId
  prepared : ∃ accepts walKey segment, next.currentWalKey = some walKey ∧
    next.committedSequence = walKey.sequence ∧ objects walKey = some segment ∧
    Prepared config objects base accepts walKey segment

/-- A put leaves the head of the log as it is or continues the log. -/
def Plan (config : Config) (objects : Objects) (base next : ObjectLeaseState) : Prop :=
  Keeps base next ∨ Extends config objects base next

lemma Plan.grow {base next : ObjectLeaseState} (h : Plan config objects base next)
    (hgrown : Grown objects objects') : Plan config objects' base next := by
  rcases h with hkeeps | ⟨howner, accepts, walKey, segment, hhead, hcommitted, hstored, hprepared⟩
  · exact .inl hkeeps
  · exact .inr ⟨howner, accepts, walKey, segment, hhead, hcommitted, hgrown _ _ hstored,
      hprepared.grow hgrown⟩

structure Credible (config : Config) (objects : Objects) (cell : Cell ETag ObjectLeaseState)
    (put : Put ETag ObjectLeaseState) : Prop where
  planned : Planned (Plan config objects) cell put
  creates : put.precondition = none →
    put.next.committedSequence = 0 ∧ put.next.currentWalKey = none

namespace Credible

variable {put : Put ETag ObjectLeaseState}

lemma grow (h : Credible config objects cell put) (hgrown : Grown objects objects') :
    Credible config objects' cell put :=
  ⟨h.planned.imp fun _ _ _ hplan => hplan.grow hgrown, h.creates⟩

lemma execute (h : Credible config objects cell put)
    {etag : ETag} (hexecute : cell.execute other etag = some cell') :
    Credible config objects cell' put :=
  ⟨h.planned.execute hexecute, h.creates⟩

lemma of_keeps {etag : ETag} {base next : ObjectLeaseState} (hnamed : cell.named etag = some base)
    (hkeeps : Keeps base next) : Credible config objects cell ⟨next, some etag⟩ :=
  ⟨.of_named hnamed (.inl hkeeps), nofun⟩

end Credible

lemma Acquires.owner {current : Option (ETag × ObjectLeaseState)}
    (h : Acquires ownerId current put) :
    put.next.ownerId = ownerId := by
  cases h <;> rfl

lemma Acquires.credible
    (h : Acquires ownerId cell.current put) :
    Credible config objects cell put ∧ Planned Keeps cell put := by
  generalize hcurrent : cell.current = current at h
  cases h with
  | create => exact ⟨⟨.of_none, fun _ => ⟨rfl, rfl⟩⟩, .of_none⟩
  | takeOver hlt =>
    have hnamed := cell.named_current _ _ hcurrent
    exact ⟨.of_keeps hnamed ⟨rfl, rfl, .inr hlt⟩, .of_named hnamed ⟨rfl, rfl, .inr hlt⟩⟩

/-- While the writer is the owner, the head of the log is the one that it knows. -/
def Knows (cell : Cell ETag ObjectLeaseState) (state : ObjectLeaseState) : Prop :=
  ∀ current, cell.current = some current → current.2.epoch = state.epoch →
    current.2.ownerId = state.ownerId →
    current.2.currentWalKey = state.currentWalKey ∧
      current.2.committedSequence = state.committedSequence

lemma Knows.of_current
    (h : cell.current = some (etag, state)) : Knows cell state := by
  intro current hcurrent _ _
  obtain rfl := Option.some.inj (h.symm.trans hcurrent)
  exact ⟨rfl, rfl⟩

lemma Knows.execute
    (h : Knows cell state) (hbelow : Below Follows cell) {tag : ETag}
    (hnamed : cell.named tag = some state) (hexecute : cell.execute put etag = some cell')
    (hkeeps : put.next.ownerId = state.ownerId →
      ∀ current, cell.current = some current → Keeps current.2 put.next) : Knows cell' state := by
  obtain ⟨current, hcurrent, hfollows⟩ := hbelow tag state hnamed
  obtain ⟨-, hcurrent', -, -⟩ := Cell.execute_eq_some hexecute
  intro next hnext hepoch howner
  obtain rfl := Option.some.inj (hcurrent'.symm.trans hnext)
  have hkept := hkeeps howner current hcurrent
  rcases hkept.owner with ⟨hepoch', howner'⟩ | hlt
  · obtain ⟨hhead, hcommitted⟩ := h current hcurrent (hepoch'.symm.trans hepoch)
      (howner'.symm.trans howner)
    exact ⟨hkept.head.trans hhead, hkept.committed.trans hcommitted⟩
  · -- The writer has read a lease of its epoch, so there is no way back to it.
    rw [show put.next.epoch = state.epoch from hepoch, lt_iff_toNat_lt] at hlt
    have hle := le_iff_toNat_le.mp hfollows.1
    omega

/-! ## Preparing a segment -/

/-- The condition on a group commit: the chain has a segment and enough bytes left below the limits
of the reader. -/
def CommitFits (config : Config) (objects : Objects) (current : Option (ETag × ObjectLeaseState))
    (accepts : List ObjectWalAccept) : Prop :=
  ∀ lease, current = some lease →
    WalState.staysWithinLimits config ⟨objects, lease.2, 0⟩ (.commit accepts 0)

lemma mem_fillGaps {expected : UInt64} {accepts : List ObjectWalAccept} {accept : ObjectWalAccept}
    (h : accept ∈ accepts) : accept.batch ∈ fillGaps expected accepts := by
  induction accepts generalizing expected with
  | nil => cases h
  | cons first accepts ih =>
    rw [fillGaps, mem_append, mem_cons]
    rcases mem_cons.mp h with rfl | hmem
    · exact .inr (.inl rfl)
    · exact .inr (.inr (ih hmem))

lemma prepared_of_commitSegment {accepts : List ObjectWalAccept}
    {last : ObjectWalAccept} {walKey : ObjectWalKey} {segment : Segment}
    {chain : List (ObjectWalKey × Segment)} {total : ℕ}
    (hcheck : WalState.checkIncreasing state.committedSequence accepts = .ok ())
    (hlast : accepts.getLast? = some last)
    (htotal : objectWalGroupFrameBytes state.committedSequence accepts = .ok total)
    (hsegment : commitSegment config state accepts last = .ok (walKey, segment))
    (hchain : LinkedLog.Chain objects Segment.previous state.currentWalKey chain)
    (hlength : chain.length < maxChainSegments)
    (hbytes : chainBytes config chain + segmentHeaderLen +
      previousLen config state.currentWalKey + total ≤ maxReplayBytes) :
    Prepared config objects state accepts walKey segment := by
  obtain ⟨habove, hpairwise⟩ := WalState.checkIncreasing_eq_ok.mp hcheck
  obtain ⟨_, -, h⟩ := bind_eq_ok.mp hsegment
  obtain ⟨frames, hframes, h⟩ := bind_eq_ok.mp h
  obtain ⟨encoded, hencoded, h⟩ := bind_eq_ok.mp h
  obtain ⟨rfl, hlen⟩ := encodeObjectWalSegment_eq_ok hencoded
  obtain ⟨rfl, rfl⟩ := Prod.mk.inj (Except.ok.inj h)
  obtain ⟨hholds, hconsecutive⟩ := groupFrames_spec hpairwise hlast hframes
  refine ⟨rfl, ⟨hlen, rfl⟩, habove last (mem_of_getLast? hlast),
    ⟨_, hholds, hconsecutive, fun accept hmem => mem_fillGaps hmem⟩, chain, hchain, hlength, ?_⟩
  have hframesLength := length_groupFrames hpairwise hlast hframes htotal
  simp only [segmentLen, hframesLength]
  omega

/-! ## One writer -/

namespace Phase

/-- What a writer needs for its next put: while it commits, a segment that continues the log and
knowledge of the head, unless its put may still be executed. Other puts leave the head as it is. -/
def Ready (config : Config) (objects : Objects) (cell : Cell ETag ObjectLeaseState) : Phase → Prop
  | .storing lease accepts walKey segment _ =>
    Prepared config objects lease.state accepts walKey segment ∧ Knows cell lease.state
  | .publishing (.commit lease accepts walKey) put await =>
    (∃ segment, objects walKey = some segment ∧
      Prepared config objects lease.state accepts walKey segment) ∧
    put.precondition = some lease.etag ∧ put.next.ownerId = lease.state.ownerId ∧
    put.next.currentWalKey = some walKey ∧ (await ≠ .lost → Knows cell lease.state)
  | .publishing .acquire put .sent | .publishing (.renew _ _) put .sent
  | .publishing (.release _) put .sent => Planned Keeps cell put
  | _ => True

/-- The put of a writer may be executed and has its owner id, and the writer has what it needs for
the next one. -/
structure Sound (config : Config) (objects : Objects) (cell : Cell ETag ObjectLeaseState)
    (phase : Phase) : Prop where
  credible : ∀ put, phase.put? = some put → Credible config objects cell put
  owned : ∀ put, phase.put? = some put → phase.owner? = some put.next.ownerId
  ready : phase.Ready config objects cell

variable {phase phase' : Phase} {command : Command} {acknowledged : List ObjectWalAccept}

namespace Sound

lemma idle : Phase.idle.Sound config objects cell := ⟨nofun, nofun, trivial⟩

lemma stopped : Phase.stopped.Sound config objects cell := ⟨nofun, nofun, trivial⟩

lemma holding (lease : ObjectWriterLease) : (Phase.holding lease).Sound config objects cell :=
  ⟨nofun, nofun, trivial⟩

lemma grow (h : phase.Sound config objects cell) (hgrown : Grown objects objects') :
    phase.Sound config objects' cell := by
  refine ⟨fun put hput => (h.credible put hput).grow hgrown, h.owned, ?_⟩
  have hready := h.ready
  unfold Ready at hready ⊢
  split
  · exact ⟨hready.1.grow hgrown, hready.2⟩
  · obtain ⟨⟨segment, hstored, hprepared⟩, hrest⟩ := hready
    exact ⟨⟨segment, hgrown _ _ hstored, hprepared.grow hgrown⟩, hrest⟩
  · exact hready
  · exact hready
  · exact hready
  · trivial

/-- A put is executed that does not move the head while this writer relies on it. -/
lemma execute (h : phase.Sound config objects cell) (horderly : phase.Orderly cell)
    (hbelow : Below Follows cell) {put : Put ETag ObjectLeaseState} {etag : ETag}
    (hexecute : cell.execute put etag = some cell')
    (hkeeps : phase.lostCommit? = none → phase.owner? = some put.next.ownerId →
      ∀ current, cell.current = some current → Keeps current.2 put.next) :
    phase.Sound config objects cell' := by
  refine ⟨fun other hother => (h.credible other hother).execute hexecute, h.owned, ?_⟩
  have hready := h.ready
  unfold Ready at hready ⊢
  split
  · next lease accepts walKey segment lost =>
    exact ⟨hready.1, hready.2.execute hbelow (horderly.held lease rfl) hexecute
      fun howner => hkeeps rfl (congrArg some howner.symm)⟩
  · next lease accepts walKey own await =>
    obtain ⟨hsegment, hprecondition, howner, hhead, hknows⟩ := hready
    refine ⟨hsegment, hprecondition, howner, hhead, fun hawait => ?_⟩
    refine (hknows hawait).execute hbelow (horderly.held lease rfl) hexecute
      fun howner => hkeeps ?_ (congrArg some howner.symm)
    cases await with
    | sent => rfl
    | refused => rfl
    | lost => exact absurd rfl hawait
  · exact hready.execute hexecute
  · exact hready.execute hexecute
  · exact hready.execute hexecute
  · trivial

lemma prepared_of_resumes (h : phase.Sound config objects cell)
    {lease : ObjectWriterLease} {accepts : List ObjectWalAccept} {walKey : ObjectWalKey}
    (hresumes : Resumes objects cell.current phase lease accepts walKey) :
    (∃ segment, objects walKey = some segment ∧
      Prepared config objects lease.state accepts walKey segment) ∧
      phase.owner? = some lease.state.ownerId ∧ Knows cell lease.state := by
  cases hresumes with
  | stored hstored => exact ⟨⟨_, hstored, h.ready.1⟩, rfl, h.ready.2⟩
  | refused hcurrent hepoch howner =>
    obtain ⟨⟨segment, hstored, hprepared⟩, -, -, -, hknows⟩ := h.ready
    obtain ⟨hhead, hcommitted⟩ := hknows nofun _ hcurrent hepoch howner
    exact ⟨⟨segment, hstored, hprepared.congr hhead hcommitted⟩, congrArg some howner.symm,
      .of_current hcurrent⟩

/-- A step of a writer keeps it sound, when a group commit stays within the limits. -/
lemma of_outcome (h : phase.Sound config objects cell) (horderly : phase.Orderly cell)
    (hfits : ∀ accepts, command = .commit accepts → CommitFits config objects cell.current accepts)
    (hchain : ∀ lease, cell.current = some lease → ∃ chain,
      LinkedLog.Chain objects Segment.previous lease.2.currentWalKey chain ∧
        chain.length ≤ maxChainSegments)
    (houtcome : Outcome config objects cell.current phase command phase' acknowledged) :
    phase'.Sound config objects cell := by
  cases houtcome with
  | idle => exact idle
  | stopped => exact stopped
  | kept _ _ => exact holding _
  | observed _ _ _ => exact holding _
  | alreadyApplied _ _ => exact holding _
  | reconciled _ _ _ _ _ => exact holding _
  | acquiring _ hacquires =>
    have hkeeps : Credible config objects cell _ ∧ Planned Keeps cell _ := hacquires.credible
    refine ⟨?_, ?_, ?_⟩
    · rintro _ ⟨⟩
      exact hkeeps.1
    · rintro _ ⟨⟩
      rfl
    · exact hkeeps.2
  | @extending lease operation expiry hcurrent howner _ hoperation =>
    have hnamed := cell.named_current _ _ hcurrent
    have hkeeps : Keeps lease.state { lease.state with leaseExpiresAtMs := expiry } :=
      ⟨rfl, rfl, .inl ⟨rfl, rfl⟩⟩
    refine ⟨?_, ?_, ?_⟩
    · rintro _ ⟨⟩
      exact .of_keeps hnamed hkeeps
    · rintro _ ⟨⟩
      rcases hoperation with ⟨timer, rfl⟩ | rfl <;> rfl
    · rcases hoperation with ⟨timer, rfl⟩ | rfl <;> exact .of_named hnamed hkeeps
  | @storing lease lease' accepts last walKey segment hcommand _ hcurrent _ hcheck hlast hsegment =>
    obtain ⟨hroom, hbytes⟩ := hfits accepts hcommand _ hcurrent
    obtain ⟨chain, hlinked, hlength⟩ := hchain _ hcurrent
    have hfollow : WalState.chain ⟨objects, lease.state, 0⟩ = chain :=
      followChain_eq hlinked hlength
    obtain ⟨total, htotal, -⟩ := bind_eq_ok.mp hsegment
    simp only [hfollow, htotal] at hroom hbytes
    exact ⟨nofun, nofun, prepared_of_commitSegment hcheck hlast htotal hsegment hlinked hroom hbytes,
      .of_current hcurrent⟩
  | heading hresumes hlt =>
    obtain ⟨⟨segment, hstored, hprepared⟩, howner, hknows⟩ := h.prepared_of_resumes hresumes
    have hnamed := horderly.named_of_resumes hresumes
    refine ⟨?_, ?_, ⟨segment, hstored, hprepared⟩, rfl, rfl, rfl, fun _ => hknows⟩
    · rintro _ ⟨⟩
      exact ⟨.of_named hnamed
        (.inr ⟨⟨rfl, rfl⟩, _, _, segment, rfl, rfl, hstored, hprepared⟩), nofun⟩
    · rintro _ ⟨⟩
      rfl

lemma await {operation : Operation} {put : Put ETag ObjectLeaseState} {after : Await}
    (h : (Phase.publishing operation put .sent).Sound config objects cell)
    (hafter : after ≠ .sent) : (Phase.publishing operation put after).Sound config objects cell := by
  have hput : (Phase.publishing operation put after).put? = none := by
    cases after with
    | sent => exact absurd rfl hafter
    | refused => rfl
    | lost => rfl
  refine ⟨fun other hother => ?_, fun other hother => ?_, ?_⟩
  · cases hput.symm.trans hother
  · cases hput.symm.trans hother
  · cases operation with
    | commit lease accepts walKey =>
      obtain ⟨hsegment, hprecondition, howner, hhead, hknows⟩ := h.ready
      exact ⟨hsegment, hprecondition, howner, hhead, fun _ => hknows nofun⟩
    | acquire => cases after <;> first | exact absurd rfl hafter | trivial
    | renew _ _ => cases after <;> first | exact absurd rfl hafter | trivial
    | release _ => cases after <;> first | exact absurd rfl hafter | trivial

lemma stored (operation : Operation) (put : Put ETag ObjectLeaseState) (etag : ETag) :
    (Phase.stored put etag operation).1.Sound config objects cell := by
  cases operation with
  | release _ => exact Sound.stopped
  | acquire => exact Sound.holding _
  | renew _ _ => exact Sound.holding _
  | commit _ _ _ => exact Sound.holding _

/-- A step of a writer keeps its owner id, gives it up or draws a new one. -/
lemma owner_of_outcome (h : phase.Sound config objects cell)
    (houtcome : Outcome config objects cell.current phase command phase' acknowledged) :
    phase'.owner? = none ∨ phase'.owner? = phase.owner? ∨
      ∃ nowMs ownerId, command = .acquire nowMs ownerId ∧ phase'.owner? = some ownerId := by
  cases houtcome with
  | idle => exact .inl rfl
  | stopped => exact .inl rfl
  | kept hlease _ => exact .inr (.inl (owner?_of_lease? hlease).symm)
  | observed _ howner _ => exact .inr (.inl howner.symm)
  | @acquiring nowMs ownerId put hcommand hacquires =>
    exact .inr (.inr ⟨nowMs, ownerId, hcommand, congrArg some hacquires.owner⟩)
  | extending _ howner _ hoperation =>
    refine .inr (.inl ?_)
    rcases hoperation with ⟨timer, rfl⟩ | rfl <;> exact howner.symm
  | storing _ hphase _ howner _ _ _ =>
    rw [hphase]
    exact .inr (.inl (congrArg some howner))
  | heading hresumes _ => exact .inr (.inl (h.prepared_of_resumes hresumes).2.1.symm)
  | alreadyApplied hresumes _ => exact .inr (.inl (h.prepared_of_resumes hresumes).2.1.symm)
  | reconciled hphase _ howner _ _ =>
    subst hphase
    obtain ⟨-, -, howner', -, -⟩ := h.ready
    exact .inr (.inl (congrArg some (howner.trans howner')))

end Sound

lemma owner_stored {operation : Operation} {put : Put ETag ObjectLeaseState} {etag : ETag}
    (h : (Phase.stored put etag operation).1.owner? = some ownerId) :
    put.next.ownerId = ownerId := by
  cases operation with
  | release _ => cases h
  | acquire => exact Option.some.inj h
  | renew _ _ => exact Option.some.inj h
  | commit _ _ _ => exact Option.some.inj h

end Phase

/-! ## All writers -/

/-- A put that is left to the store leaves the head as it is or is too late. -/
def Settled (cell : Cell ETag ObjectLeaseState) (put : Put ETag ObjectLeaseState) : Prop :=
  Planned (fun base next => Keeps base next ∨ ∀ current, cell.current = some current →
    base.committedSequence < current.2.committedSequence) cell put

lemma Settled.execute
    (h : Settled cell put) (hbelow : Below Follows cell) (hplanned : Planned Follows cell other)
    (hexecute : cell.execute other etag = some cell') : Settled cell' put := by
  obtain ⟨-, hcurrent', -, -⟩ := Cell.execute_eq_some hexecute
  intro tag htag
  obtain ⟨base, hnamed, hrel⟩ := h tag htag
  refine ⟨base, Cell.named_of_execute hexecute hnamed, hrel.imp_right fun hlate next hnext => ?_⟩
  obtain rfl := Option.some.inj (hcurrent'.symm.trans hnext)
  obtain ⟨current, hcurrent, -⟩ := hbelow tag base hnamed
  have hfollows := hplanned.rel_of_execute hexecute hcurrent
  have hlt := lt_iff_toNat_lt.mp (hlate current hcurrent)
  have hle := le_iff_toNat_le.mp hfollows.2
  show base.committedSequence < other.next.committedSequence
  exact lt_iff_toNat_lt.mpr (by omega)

lemma Settled.keeps (h : Settled cell put)
    (hexecute : cell.execute put etag = some cell') {current : ETag × ObjectLeaseState}
    (hcurrent : cell.current = some current) : Keeps current.2 put.next := by
  rcases h.rel_of_execute hexecute hcurrent with hkeeps | hlate
  · exact hkeeps
  · exact absurd (hlate current hcurrent) (lt_irrefl _)

namespace Writers

/-- The store holds a sound log for the lease object, within the limits of the reader, with every
commit that was acknowledged. -/
def LogSound (config : Config) (objects : Objects) (cell : Cell ETag ObjectLeaseState)
    (acknowledged : List ObjectWalAccept) : Prop :=
  match cell.current with
  | none => acknowledged = []
  | some lease => ∃ chain contents, Logged config objects lease.2 0 chain contents ∧
      chain.length ≤ maxChainSegments ∧ chainBytes config chain ≤ maxReplayBytes ∧
      ∀ accept ∈ acknowledged, accept.batch ∈ contents.reverse.flatten

namespace LogSound

variable {acknowledged : List ObjectWalAccept}

lemma grow (h : LogSound config objects cell acknowledged) (hgrown : Grown objects objects') :
    LogSound config objects' cell acknowledged := by
  unfold LogSound at h ⊢
  split
  · next hcurrent => simpa only [hcurrent] using h
  · next lease hcurrent =>
    simp only [hcurrent] at h
    obtain ⟨chain, contents, hlogged, hrest⟩ := h
    exact ⟨chain, contents, { hlogged with linked := hlogged.linked.grow hgrown }, hrest⟩

lemma exists_chain (h : LogSound config objects cell acknowledged)
    {lease : ETag × ObjectLeaseState} (hcurrent : cell.current = some lease) :
    ∃ chain, LinkedLog.Chain objects Segment.previous lease.2.currentWalKey chain ∧
      chain.length ≤ maxChainSegments := by
  simp only [LogSound, hcurrent] at h
  obtain ⟨chain, contents, hlogged, hlength, -⟩ := h
  exact ⟨chain, hlogged.linked, hlength⟩

lemma acknowledge (h : LogSound config objects cell acknowledged)
    {lease : ETag × ObjectLeaseState} (hcurrent : cell.current = some lease)
    {state : ObjectLeaseState} {accepts : List ObjectWalAccept} {walKey : ObjectWalKey}
    {segment : Segment} (hhead : lease.2.currentWalKey = some walKey)
    (hstored : objects walKey = some segment)
    (hprepared : Prepared config objects state accepts walKey segment) :
    LogSound config objects cell (acknowledged ++ accepts) := by
  simp only [LogSound, hcurrent] at h ⊢
  obtain ⟨chain, contents, hlogged, hlength, hbytes, hacknowledged⟩ := h
  refine ⟨chain, contents, hlogged, hlength, hbytes, fun accept hmem => ?_⟩
  rcases mem_append.mp hmem with hmem | hmem
  · exact hacknowledged accept hmem
  obtain ⟨batches, hholds, hconsecutive, hbatches⟩ := hprepared.content
  have hlinked := hlogged.linked
  rw [hhead] at hlinked
  -- The newest segment of the chain is the one that was put.
  match hlinked, hlogged.holds with
  | .cons hstored' _, .cons hcontent _ =>
    obtain rfl := Option.some.inj (hstored.symm.trans hstored')
    have hdecoded := decodeFramesAfter_holds hholds 0
    rw [decodeFramesAfter_holds hcontent 0] at hdecoded
    have habove : accept.batch ∈ above 0 batches := by
      refine mem_filter.mpr ⟨hbatches accept hmem, decide_eq_true ?_⟩
      have hlt := lt_iff_toNat_lt.mp (hconsecutive.bounds (hbatches accept hmem)).1
      exact lt_iff_toNat_lt.mpr (Nat.lt_of_le_of_lt (Nat.zero_le _) hlt)
    rw [← Except.ok.inj hdecoded] at habove
    rw [mem_flatten]
    exact ⟨_, mem_reverse.mpr mem_cons_self, (mem_filter.mp habove).1⟩

lemma execute (h : LogSound config objects cell acknowledged) {put : Put ETag ObjectLeaseState}
    {etag : ETag} (hcredible : Credible config objects cell put)
    (hexecute : cell.execute put etag = some cell') :
    LogSound config objects cell' acknowledged := by
  obtain ⟨hadmits, hcurrent', -, -⟩ := Cell.execute_eq_some hexecute
  simp only [LogSound, hcurrent']
  cases hcurrent : cell.current with
  | none =>
    rw [hcurrent] at hadmits
    obtain ⟨hcommitted, hhead⟩ := hcredible.creates hadmits.symm
    simp only [LogSound, hcurrent] at h
    subst h
    exact ⟨[], [], hcommitted ▸ Logged.nil hhead, Nat.zero_le _, Nat.zero_le _, nofun⟩
  | some lease =>
    simp only [LogSound, hcurrent] at h
    obtain ⟨chain, contents, hlogged, hlength, hbytes, hacknowledged⟩ := h
    rcases hcredible.planned.rel_of_execute hexecute hcurrent with hkeeps | hextends
    · exact ⟨chain, contents, hlogged.of_lease hkeeps.head hkeeps.committed, hlength, hbytes,
        hacknowledged⟩
    · obtain ⟨accepts, walKey, ⟨previous, frames⟩, hhead, hcommitted, hstored, hprepared⟩ :=
        hextends.prepared
      obtain rfl : previous = lease.2.currentWalKey := hprepared.previous
      obtain ⟨batches, hholds, hconsecutive, -⟩ := hprepared.content
      obtain ⟨chain', hchain', hroom, hfits⟩ := hprepared.fits
      obtain rfl := hlogged.linked.unique hchain'
      refine ⟨_, _, hlogged.append hstored hprepared.verified hholds (hcommitted ▸ hconsecutive)
        hhead, by simpa using hroom, ?_, fun accept hmem => ?_⟩
      · rw [chainBytes, map_cons, sum_cons, ← chainBytes, Nat.add_comm]
        exact hfits
      · rw [reverse_cons, flatten_append]
        exact mem_append_left _ (hacknowledged accept hmem)

end LogSound

structure Sound (config : Config) (writers : Writers) : Prop where
  ascending : writers.Ascending
  sound : ∀ writer, (writers.phases writer).Sound config writers.objects writers.cell
  abandoned : ∀ put ∈ writers.abandoned, Credible config writers.objects writers.cell put
  drawn : ∀ writer ownerId, (writers.phases writer).owner? = some ownerId →
    ownerId ∈ writers.drawn
  drawnAbandoned : ∀ put ∈ writers.abandoned, put.next.ownerId ∈ writers.drawn
  distinct : ∀ writer other ownerId, (writers.phases writer).owner? = some ownerId →
    (writers.phases other).owner? = some ownerId → writer = other
  settled : ∀ put ∈ writers.abandoned, ∀ writer,
    (writers.phases writer).owner? = some put.next.ownerId →
      (writers.phases writer).lostCommit? = some put ∨ Settled writers.cell put
  logged : LogSound config writers.objects writers.cell writers.acknowledged

/-- The put of a head that was left to the store is settled when its writer goes on. -/
lemma settled_of_outcome {phase phase' : Phase} {command : Command}
    {acknowledged : List ObjectWalAccept} {put : Put ETag ObjectLeaseState}
    (h : phase.Sound config objects cell) (horderly : phase.Orderly cell)
    (houtcome : Phase.Outcome config objects cell.current phase command phase' acknowledged)
    (hlost : phase.lostCommit? = some put) (howner : phase'.owner? = some ownerId)
    (hcommand : ∀ nowMs ownerId, command = .acquire nowMs ownerId → phase'.owner? ≠ some ownerId) :
    Settled cell put := by
  cases houtcome with
  | idle => cases howner
  | stopped => cases howner
  | kept _ hnone => cases hnone.symm.trans hlost
  | observed _ _ hnone => cases hnone.symm.trans hlost
  | acquiring hacquire hacquires =>
    exact absurd (congrArg some hacquires.owner) (hcommand _ _ hacquire)
  | extending _ _ hnone _ => cases hnone.symm.trans hlost
  | storing _ hphase _ _ _ _ _ =>
    rw [hphase] at hlost
    cases hlost
  | heading hresumes _ => cases hresumes <;> cases hlost
  | alreadyApplied hresumes _ => cases hresumes <;> cases hlost
  | @reconciled lease lease' _ walKey _ hphase hcurrent _ hle _ =>
    subst hphase
    obtain rfl := Option.some.inj hlost
    obtain ⟨⟨segment, -, hprepared⟩, hprecondition, -, -, -⟩ := h.ready
    intro tag htag
    obtain rfl := Option.some.inj (hprecondition.symm.trans htag)
    refine ⟨lease.state, horderly.held lease rfl, .inr fun current hcurrent' => ?_⟩
    obtain rfl := Option.some.inj (hcurrent.symm.trans hcurrent')
    have hlt := lt_iff_toNat_lt.mp hprepared.lt
    have hle' := le_iff_toNat_le.mp hle
    exact lt_iff_toNat_lt.mpr (Nat.lt_of_lt_of_le hlt hle')

lemma logSound_of_outcome {phase phase' : Phase} {command : Command}
    {acknowledged accepts : List ObjectWalAccept} (h : phase.Sound config objects cell)
    (hlogged : LogSound config objects cell acknowledged)
    (houtcome : Phase.Outcome config objects cell.current phase command phase' accepts) :
    LogSound config objects cell (acknowledged ++ accepts) := by
  cases houtcome with
  | alreadyApplied hresumes heq =>
    -- The group was checked against the committed sequence.
    obtain ⟨⟨segment, -, hprepared⟩, -, -⟩ := h.prepared_of_resumes hresumes
    have hlt := hprepared.lt
    rw [heq] at hlt
    exact absurd hlt (lt_irrefl _)
  | reconciled hphase hcurrent _ _ hhead =>
    subst hphase
    obtain ⟨⟨segment, hstored, hprepared⟩, -, -, -, -⟩ := h.ready
    exact hlogged.acknowledge hcurrent hhead hstored hprepared
  | _ => rwa [append_nil]

/-- The condition on the moves of a run: every acquisition draws a fresh owner id, and every group
commit finds room in the chain for its segment. -/
def staysWithinLimits (config : Config) (writers : Writers) : Action → Prop
  | .command _ (.acquire _ ownerId) => ownerId ∉ writers.drawn
  | .command _ (.commit accepts) =>
    match writers.cell.current with
    | none => True
    | some lease =>
      WalState.staysWithinLimits config ⟨writers.objects, lease.2, 0⟩ (.commit accepts 0)
  | _ => True

instance (config : Config) (writers : Writers) :
    DecidablePred (writers.staysWithinLimits config)
  | .command _ (.acquire _ ownerId) => inferInstanceAs (Decidable (ownerId ∉ writers.drawn))
  | .command _ (.commit accepts) => by
    unfold staysWithinLimits
    dsimp only
    generalize writers.cell.current = current
    cases current <;> infer_instance
  | .command _ (.renew ..) | .command _ .release | .command _ (.observe _) | .command _ .fail
  | .stored .. | .refused _ | .lost _ | .storeSegment .. | .lostSegment _ | .storeAbandoned ..
  | .storeAbandonedSegment _ => isTrue trivial

namespace Sound

variable {writers writers' : Writers}
  {writer : ℕ} {phase : Phase} {put : Put ETag ObjectLeaseState} {etag : ETag}

lemma start (objects : Objects) : (Writers.start objects).Sound config where
  ascending := .start objects
  sound _ := .idle
  abandoned := nofun
  drawn := nofun
  drawnAbandoned := nofun
  distinct := nofun
  settled := nofun
  logged := rfl

lemma grow (h : writers.Sound config) (hgrown : Grown writers.objects objects) :
    { writers with objects }.Sound config where
  ascending := h.ascending.congr rfl rfl fun _ hput => hput
  sound writer := (h.sound writer).grow hgrown
  abandoned put hput := (h.abandoned put hput).grow hgrown
  drawn := h.drawn
  drawnAbandoned := h.drawnAbandoned
  distinct := h.distinct
  settled := h.settled
  logged := h.logged.grow hgrown

lemma enter (h : writers.Sound config)
    {acknowledged : List ObjectWalAccept} (horderly : phase.Orderly writers.cell)
    (hsound : phase.Sound config writers.objects writers.cell)
    (howner : ∀ ownerId, phase.owner? = some ownerId → ownerId ∈ writers.drawn ∧
      ∀ other, other ≠ writer → (writers.phases other).owner? ≠ some ownerId)
    (hsettled : ∀ put ∈ writers.abandoned, phase.owner? = some put.next.ownerId →
      phase.lostCommit? = some put ∨ Settled writers.cell put)
    (hlogged : LogSound config writers.objects writers.cell
      (writers.acknowledged ++ acknowledged)) :
    (writers.enter writer (phase, acknowledged)).Sound config := by
  refine ⟨h.ascending.enter horderly _, fun other => ?_, h.abandoned, fun other ownerId hother => ?_,
    h.drawnAbandoned, fun left right ownerId hleft hright => ?_, fun put hput other hother => ?_,
    hlogged⟩
  · by_cases heq : other = writer
    · rw [heq, phases_enter_self]
      exact hsound
    · rw [phases_enter_of_ne _ heq]
      exact h.sound other
  · by_cases heq : other = writer
    · rw [heq, phases_enter_self] at hother
      exact (howner ownerId hother).1
    · rw [phases_enter_of_ne _ heq] at hother
      exact h.drawn other ownerId hother
  · by_cases hl : left = writer
    · by_cases hr : right = writer
      · rw [hl, hr]
      · rw [hl, phases_enter_self] at hleft
        rw [phases_enter_of_ne _ hr] at hright
        exact absurd hright ((howner ownerId hleft).2 right hr)
    · rw [phases_enter_of_ne _ hl] at hleft
      by_cases hr : right = writer
      · rw [hr, phases_enter_self] at hright
        exact absurd hleft ((howner ownerId hright).2 left hl)
      · rw [phases_enter_of_ne _ hr] at hright
        exact h.distinct left right ownerId hleft hright
  · by_cases heq : other = writer
    · rw [heq, phases_enter_self] at hother ⊢
      exact hsettled put hput hother
    · rw [phases_enter_of_ne _ heq] at hother ⊢
      exact h.settled put hput other hother

lemma enter_same (h : writers.Sound config)
    (horderly : phase.Orderly writers.cell)
    (hsound : phase.Sound config writers.objects writers.cell)
    (howner : phase.owner? = (writers.phases writer).owner?)
    (hlost : (writers.phases writer).lostCommit? = none) :
    (writers.enter writer (phase, [])).Sound config := by
  refine h.enter horderly hsound (fun ownerId hphase => ?_) (fun put hput hphase => ?_)
    ((append_nil _).symm ▸ h.logged)
  · rw [howner] at hphase
    exact ⟨h.drawn writer ownerId hphase,
      fun other hne hother => hne (h.distinct other writer ownerId hother hphase)⟩
  · rcases h.settled put hput writer (howner ▸ hphase) with hcommit | hsettled
    · cases hlost.symm.trans hcommit
    · exact .inr hsettled

lemma draw (h : writers.Sound config) (command : Command) :
    { writers with drawn := Writers.draw writers.drawn command }.Sound config := by
  have hmono : ∀ ownerId ∈ writers.drawn, ownerId ∈ Writers.draw writers.drawn command := by
    intro ownerId hmem
    cases command with
    | acquire _ _ => exact mem_cons_of_mem _ hmem
    | _ => exact hmem
  exact {
    ascending := h.ascending.congr rfl rfl fun _ hput => hput
    sound := h.sound
    abandoned := h.abandoned
    drawn := fun writer ownerId howner => hmono _ (h.drawn writer ownerId howner)
    drawnAbandoned := fun put hput => hmono _ (h.drawnAbandoned put hput)
    distinct := h.distinct
    settled := h.settled
    logged := h.logged }

/-- A step of a writer keeps the invariant.

**Proof sketch.** The writer keeps its owner id, gives it up or draws a fresh one. If the put of a
head was left to the store, the writer only goes on when it finds a later head. -/
lemma act (h : writers.Sound config) {command : Command}
    {acknowledged : List ObjectWalAccept}
    (houtcome : Phase.Outcome config writers.objects writers.cell.current (writers.phases writer)
      command phase acknowledged)
    (hfresh : ∀ nowMs ownerId, command = .acquire nowMs ownerId → ownerId ∉ writers.drawn)
    (hfits : ∀ accepts, command = .commit accepts →
      CommitFits config writers.objects writers.cell.current accepts) :
    ({ writers with drawn := Writers.draw writers.drawn command }.enter writer
      (phase, acknowledged)).Sound config := by
  have horderly := h.ascending.orderly writer
  have hsound := h.sound writer
  refine (h.draw command).enter (horderly.of_outcome houtcome)
    (hsound.of_outcome horderly hfits (fun _ hcurrent => h.logged.exists_chain hcurrent) houtcome)
    (fun ownerId howner => ?_) (fun put hput howner => ?_)
    (logSound_of_outcome hsound h.logged houtcome)
  · rcases hsound.owner_of_outcome houtcome with hnone | hsame | ⟨nowMs, drawn, rfl, hdrawn⟩
    · cases hnone.symm.trans howner
    · rw [hsame] at howner
      exact ⟨(h.draw command).drawn writer ownerId howner,
        fun other hne hother => hne (h.distinct other writer ownerId hother howner)⟩
    · obtain rfl := Option.some.inj (hdrawn.symm.trans howner)
      exact ⟨mem_cons_self,
        fun other _ hother => hfresh _ _ rfl (h.drawn other _ hother)⟩
  · right
    rcases hsound.owner_of_outcome houtcome with hnone | hsame | ⟨nowMs, drawn, rfl, hdrawn⟩
    · cases hnone.symm.trans howner
    · rcases h.settled put hput writer (hsame ▸ howner) with hlost | hsettled
      · refine settled_of_outcome hsound horderly houtcome hlost howner ?_
        intro nowMs ownerId hcommand hdrawn
        exact hfresh nowMs ownerId hcommand (h.drawn writer ownerId (hsame ▸ hdrawn))
      · exact hsettled
    · obtain rfl := Option.some.inj (hdrawn.symm.trans howner)
      exact absurd (h.drawnAbandoned put hput) (hfresh _ _ rfl)

lemma execute (h : writers.Sound config)
    (hplanned : Planned Follows writers.cell put)
    (hcredible : Credible config writers.objects writers.cell put)
    (hexecute : writers.cell.execute put etag = some cell)
    (hkeeps : ∀ writer, (writers.phases writer).lostCommit? = none →
      (writers.phases writer).owner? = some put.next.ownerId →
      ∀ current, writers.cell.current = some current → Keeps current.2 put.next) :
    { writers with cell }.Sound config where
  ascending := h.ascending.execute hplanned hexecute
  sound writer := (h.sound writer).execute (h.ascending.orderly writer) h.ascending.below hexecute
    (hkeeps writer)
  abandoned other hother := (h.abandoned other hother).execute hexecute
  drawn := h.drawn
  drawnAbandoned := h.drawnAbandoned
  distinct := h.distinct
  settled other hother writer howner :=
    (h.settled other hother writer howner).imp_right fun hsettled =>
      hsettled.execute h.ascending.below hplanned hexecute
  logged := h.logged.execute hcredible hexecute

lemma storeAbandoned (h : writers.Sound config) (hput : put ∈ writers.abandoned)
    (hexecute : writers.cell.execute put etag = some cell) (index : ℕ) :
    { writers with cell, abandoned := writers.abandoned.eraseIdx index }.Sound config := by
  have hexecuted := h.execute (h.ascending.abandoned put hput) (h.abandoned put hput) hexecute (by
    intro writer hnone howner current hcurrent
    rcases h.settled put hput writer howner with hlost | hsettled
    · cases hnone.symm.trans hlost
    · exact hsettled.keeps hexecute hcurrent)
  have hmem : ∀ other ∈ writers.abandoned.eraseIdx index, other ∈ writers.abandoned :=
    fun _ hother => mem_of_mem_eraseIdx hother
  exact {
    ascending := hexecuted.ascending.congr rfl rfl hmem
    sound := hexecuted.sound
    abandoned := fun other hother => hexecuted.abandoned other (hmem other hother)
    drawn := hexecuted.drawn
    drawnAbandoned := fun other hother => hexecuted.drawnAbandoned other (hmem other hother)
    distinct := hexecuted.distinct
    settled := fun other hother => hexecuted.settled other (hmem other hother)
    logged := hexecuted.logged }

lemma enter_enter (writers : Writers) (writer : ℕ) (phase : Phase)
    (next : Phase × List ObjectWalAccept) :
    (writers.enter writer (phase, [])).enter writer next = writers.enter writer next := by
  simp [Writers.enter]

lemma stop (h : writers.Sound config) (writer : ℕ) :
    (writers.enter writer (.stopped, [])).Sound config :=
  h.enter .stopped .stopped nofun nofun (by rw [append_nil]; exact h.logged)

lemma owner_of_stopped (_ : writers.Sound config) {other : ℕ} (hne : other ≠ writer)
    (h : ((writers.enter writer (.stopped, [])).phases other).owner? = some ownerId) :
    (writers.phases other).owner? = some ownerId := by
  rwa [phases_enter_of_ne _ hne] at h

/-- The put of a writer is stored.

**Proof sketch.** Only this writer has its owner id, so no other writer relies on the head. -/
lemma stored (h : writers.Sound config) {operation : Operation}
    (hphase : writers.phases writer = .publishing operation put .sent)
    (hexecute : writers.cell.execute put etag = some cell) :
    ({ writers with cell }.enter writer (Phase.stored put etag operation)).Sound config := by
  have hsent : (writers.phases writer).put? = some put := by
    rw [hphase]
    rfl
  have howned := (h.sound writer).owned put hsent
  have hplanned := (h.ascending.orderly writer).sent put hsent
  -- In between, nobody is the owner.
  have hexecuted := (h.stop writer).execute hplanned ((h.sound writer).credible put hsent) hexecute
    (by
      intro other _ howner
      by_cases heq : other = writer
      · rw [heq, phases_enter_self] at howner
        cases howner
      · rw [phases_enter_of_ne _ heq] at howner
        exact absurd (h.distinct other writer _ howner howned) heq)
  rw [← enter_enter { writers with cell } writer .stopped]
  refine hexecuted.enter (.stored hexecute) (.stored operation put etag)
    (fun ownerId howner => ?_) (fun other hother howner => ?_) ?_
  · obtain rfl := Phase.owner_stored howner
    refine ⟨h.drawn writer _ howned, fun other hne hother => hne ?_⟩
    exact h.distinct other writer _ (h.owner_of_stopped hne hother) howned
  · rcases h.settled other hother writer (Phase.owner_stored howner ▸ howned) with hlost | hsettled
    · rw [hphase] at hlost
      cases operation <;> cases hlost
    · exact .inr (hsettled.execute h.ascending.below hplanned hexecute)
  · obtain ⟨-, hcurrent, -, -⟩ := Cell.execute_eq_some hexecute
    have hlogged := hexecuted.logged
    have hready := (h.sound writer).ready
    rw [hphase] at hready
    cases operation with
    | acquire => exact (append_nil _).symm ▸ hlogged
    | renew _ _ => exact (append_nil _).symm ▸ hlogged
    | release _ => exact (append_nil _).symm ▸ hlogged
    | commit lease accepts walKey =>
      obtain ⟨⟨segment, hstored, hprepared⟩, -, -, hhead, -⟩ := hready
      exact hlogged.acknowledge hcurrent hhead hstored hprepared

lemma abandon (h : writers.Sound config)
    (hplanned : Planned Follows writers.cell put)
    (hcredible : Credible config writers.objects writers.cell put)
    (hdrawn : put.next.ownerId ∈ writers.drawn)
    (hnobody : ∀ writer, (writers.phases writer).owner? ≠ some put.next.ownerId) :
    { writers with abandoned := put :: writers.abandoned }.Sound config where
  ascending := ⟨h.ascending.below, h.ascending.orderly,
    forall_mem_cons.mpr ⟨hplanned, h.ascending.abandoned⟩⟩
  sound := h.sound
  abandoned := forall_mem_cons.mpr ⟨hcredible, h.abandoned⟩
  drawn := h.drawn
  drawnAbandoned := forall_mem_cons.mpr ⟨hdrawn, h.drawnAbandoned⟩
  distinct := h.distinct
  settled := forall_mem_cons.mpr
    ⟨fun writer howner => absurd howner (hnobody writer), h.settled⟩
  logged := h.logged

lemma lost (h : writers.Sound config) {operation : Operation}
    (hphase : writers.phases writer = .publishing operation put .sent) :
    ({ writers with abandoned := put :: writers.abandoned }.enter writer
      (.publishing operation put .lost, [])).Sound config := by
  have hsent : (writers.phases writer).put? = some put := by
    rw [hphase]
    rfl
  have hsound := h.sound writer
  have horderly := h.ascending.orderly writer
  have howned := hsound.owned put hsent
  have hcredible := hsound.credible put hsent
  have hplanned := horderly.sent put hsent
  rw [hphase] at hsound horderly
  have howner : ∀ ownerId, (Phase.publishing operation put .lost).owner? = some ownerId →
      put.next.ownerId = ownerId := by
    intro ownerId hlost
    have hsame : (Phase.publishing operation put .lost).owner? =
        (Phase.publishing operation put .sent).owner? := by
      cases operation <;> rfl
    rw [hphase, ← hsame, hlost] at howned
    exact (Option.some.inj howned).symm
  -- In between, nobody is the owner.
  have habandoned := (h.stop writer).abandon hplanned hcredible (h.drawn writer _ howned) (by
    intro other hother
    by_cases heq : other = writer
    · rw [heq, phases_enter_self] at hother
      cases hother
    · exact heq (h.distinct other writer _ (h.owner_of_stopped heq hother) howned))
  rw [← enter_enter { writers with abandoned := put :: writers.abandoned } writer .stopped]
  refine habandoned.enter (horderly.await nofun) (hsound.await nofun) (fun ownerId hlost => ?_)
    (fun other hother hlost => ?_) (append_nil _ ▸ habandoned.logged)
  · obtain rfl := howner ownerId hlost
    exact ⟨h.drawn writer _ howned, fun other hne hother =>
      hne (h.distinct other writer _ (h.owner_of_stopped hne hother) howned)⟩
  · rcases mem_cons.mp hother with rfl | hother
    · cases operation with
      | commit _ _ _ => exact .inl rfl
      | acquire => exact .inr (hsound.ready.imp fun _ _ _ hkeeps => Or.inl hkeeps)
      | renew _ _ => exact .inr (hsound.ready.imp fun _ _ _ hkeeps => Or.inl hkeeps)
      | release _ => exact .inr (hsound.ready.imp fun _ _ _ hkeeps => Or.inl hkeeps)
    · rcases h.settled other hother writer (howner _ hlost ▸ howned) with hcommit | hsettled
      · rw [hphase] at hcommit
        cases operation <;> cases hcommit
      · exact .inr hsettled

/-- Every move that meets the condition keeps the invariant. -/
lemma step (h : writers.Sound config) {action : Action}
    (hguard : writers.staysWithinLimits config action)
    (hstep : writers.step config leaseKey action = some writers') : writers'.Sound config := by
  cases h.ascending.moves hstep with
  | @acted _ writer command phase acknowledged objects haction hgrown houtcome =>
    refine (h.grow hgrown).act houtcome (fun nowMs ownerId hcommand => ?_)
      fun accepts hcommand lease hlease => ?_
    · subst hcommand
      rcases haction with ⟨rfl, -⟩ | ⟨_, hobserve⟩
      · exact hguard
      · cases hobserve
    · subst hcommand
      rcases haction with ⟨rfl, rfl⟩ | ⟨_, hobserve⟩
      · have hlease' : writers.cell.current = some lease := hlease
        simpa only [staysWithinLimits, hlease'] using hguard
      · cases hobserve
  | stored hphase hexecute => exact h.stored hphase hexecute
  | @refused writer operation put hphase =>
    have hsound := h.sound writer
    have horderly := h.ascending.orderly writer
    rw [hphase] at hsound horderly
    refine h.enter_same (horderly.await nofun) (hsound.await nofun) ?_ ?_
    · rw [hphase]
      cases operation <;> rfl
    · rw [hphase]
      cases operation <;> rfl
  | lost hphase => exact h.lost hphase
  | @lostSegment writer lease accepts walKey segment hphase =>
    have hsound := h.sound writer
    have horderly := h.ascending.orderly writer
    rw [hphase] at hsound horderly
    have hentered := @enter_same config writers writer (.storing lease accepts walKey segment true)
      h ⟨horderly.held, nofun, nofun⟩ ⟨nofun, nofun, hsound.ready⟩ (by rw [hphase]; rfl)
      (by rw [hphase]; rfl)
    exact {
      ascending := hentered.ascending.congr rfl rfl fun _ hput => hput
      sound := hentered.sound
      abandoned := hentered.abandoned
      drawn := hentered.drawn
      drawnAbandoned := hentered.drawnAbandoned
      distinct := hentered.distinct
      settled := hentered.settled
      logged := hentered.logged }
  | storeAbandoned hput hexecute => exact h.storeAbandoned hput hexecute _
  | storeAbandonedSegment hgrown => exact h.grow hgrown

end Sound

end Writers

end TrineKv.ObjectWal
