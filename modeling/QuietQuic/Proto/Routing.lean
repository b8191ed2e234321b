import QuietQuic.Proto.Step

/-!
# The routing tables stay coherent

Two invariants, each kept by every step of a call, over any quinn-proto that mints new CIDs of
length `LOCAL_CID_LEN` (`FreshCids`), reuses a slab entry only after it was released (`Slots`)
and whose connections report `is_drained` once they handed out their Drained event (`Drains`).

* `Cids`: every issued CID is pending or stands in the list of exactly one handle, and only live
  handles have a list. It holds in the middle of a pass, with CIDs pending; a sweep ends each
  call, so after the call nothing is pending.
* `Routes`: the slot map and the identity map have exactly the live handles, and a live
  connection's slab entry is still allocated, or else the connection is drained and this pass
  reaps it. So no two live handles share a slot, and a slot `accept` returns belongs to none.

`coherent` puts them together for every run of either role: only an 8-byte CID owned by a live
connection routes past the pre-filter.
-/

namespace QuietQuic.Proto

open QuietQuic.Lib

variable {Q : Quinn}

/-! ## The CID tables -/

/-- The CID is in the connection's list. -/
def Core.Owns (core : Core Q) (ch : ConnectionHandle) (cid : ConnectionId) : Prop :=
  ∃ cids, core.cidsByConn.lookup ch = some cids ∧ cid ∈ cids

theorem Core.owns_iff {core : Core Q} {ch : ConnectionHandle} {cid : ConnectionId} :
    core.Owns ch cid ↔ cid ∈ (core.cidsByConn.lookup ch).getD [] := by
  unfold Core.Owns
  cases core.cidsByConn.lookup ch with
  | none => simp
  | some cids => simp

/-- Drained for `ch`, the pending CIDs are its own. -/
theorem Core.owns_drained (core : Core Q) {core' : Core Q} {ch : ConnectionHandle}
    (hcids : core'.cidsByConn =
      if core.pendingCids = [] then core.cidsByConn
      else core.cidsByConn.insert ch ((core.cidsByConn.lookup ch).getD [] ++ core.pendingCids))
    (a : ConnectionHandle) (cid : ConnectionId) :
    core'.Owns a cid ↔ core.Owns a cid ∨ a = ch ∧ cid ∈ core.pendingCids := by
  rw [Core.owns_iff, Core.owns_iff, hcids]
  by_cases hp : core.pendingCids = []
  · rw [if_pos hp]
    simp [hp]
  · rw [if_neg hp, AMap.lookup_insert_eq]
    split
    · rename_i heq
      subst heq
      simp
    · rename_i hne
      simp [hne]

/-- A reaped connection owns nothing. -/
theorem Core.owns_reap {core : Core Q} {l : ConnectionHandle × ConnectionError}
    (hl : l.1 ∈ core.connections) (a : ConnectionHandle) (cid : ConnectionId) :
    (core.reap l).Owns a cid ↔ a ≠ l.1 ∧ core.Owns a cid := by
  rw [Core.owns_iff, Core.owns_iff, Core.reap_eq hl]
  show cid ∈ ((core.cidsByConn.erase l.1).lookup a).getD [] ↔ _
  rw [AMap.lookup_erase_eq]
  split
  · rename_i heq
    simp [heq]
  · rename_i hne
    simp [hne]

/-- The CID tables in the middle of a call. -/
structure Cids (L : Q.FreshCids) (core : Core Q) : Prop where
  minted : ∀ cid ∈ core.issuedCids, L.minted core.inner cid ∧ cid.length = LOCAL_CID_LEN
  issued : ∀ cid, cid ∈ core.issuedCids ↔
    cid ∈ core.pendingCids ∨ ∃ ch cids, core.cidsByConn.lookup ch = some cids ∧ cid ∈ cids
  pendingOnly : ∀ cid ∈ core.pendingCids, ∀ ch cids, core.cidsByConn.lookup ch = some cids →
    cid ∉ cids
  disjoint : ∀ cid ch ch' cids cids', core.cidsByConn.lookup ch = some cids →
    core.cidsByConn.lookup ch' = some cids' → cid ∈ cids → cid ∈ cids' → ch = ch'
  owners : ∀ ch ∈ core.cidsByConn, ch ∈ core.connections

namespace Cids

variable {L : Q.FreshCids} {core core' : Core Q}

/-- The tables, by who owns what. -/
theorem of_owns
    (hminted : ∀ cid ∈ core.issuedCids, L.minted core.inner cid ∧ cid.length = LOCAL_CID_LEN)
    (hissued : ∀ cid, cid ∈ core.issuedCids ↔ cid ∈ core.pendingCids ∨ ∃ ch, core.Owns ch cid)
    (hpending : ∀ cid ∈ core.pendingCids, ∀ ch, ¬ core.Owns ch cid)
    (hunique : ∀ cid ch ch', core.Owns ch cid → core.Owns ch' cid → ch = ch')
    (howners : ∀ ch ∈ core.cidsByConn, ch ∈ core.connections) : Cids L core :=
  ⟨hminted, hissued, fun cid hcid ch cids hl hmem => hpending cid hcid ch ⟨cids, hl, hmem⟩,
    fun cid ch ch' cids cids' hl hl' hmem hmem' =>
      hunique cid ch ch' ⟨cids, hl, hmem⟩ ⟨cids', hl', hmem'⟩, howners⟩

/-- A pending CID is nobody's. -/
theorem not_owns (h : Cids L core) {cid : ConnectionId} (hcid : cid ∈ core.pendingCids)
    (ch : ConnectionHandle) : ¬ core.Owns ch cid := by
  rintro ⟨cids, hl, hmem⟩
  exact h.pendingOnly cid hcid ch cids hl hmem

/-- A CID has one owner. -/
theorem owner_unique (h : Cids L core) {cid : ConnectionId} {ch ch' : ConnectionHandle}
    (hown : core.Owns ch cid) (hown' : core.Owns ch' cid) : ch = ch' := by
  obtain ⟨cids, hl, hmem⟩ := hown
  obtain ⟨cids', hl', hmem'⟩ := hown'
  exact h.disjoint cid ch ch' cids cids' hl hl' hmem hmem'

/-- The tables only read these fields. -/
theorem frame (h : Cids L core) (hinner : core'.inner = core.inner)
    (hissued : core'.issuedCids = core.issuedCids) (hpending : core'.pendingCids = core.pendingCids)
    (hcids : core'.cidsByConn = core.cidsByConn)
    (hmem : ∀ ch ∈ core.connections, ch ∈ core'.connections) : Cids L core' := by
  constructor
  · rw [hinner, hissued]
    exact h.minted
  · rw [hissued, hpending, hcids]
    exact h.issued
  · rw [hpending, hcids]
    exact h.pendingOnly
  · rw [hcids]
    exact h.disjoint
  · rw [hcids]
    exact fun ch hch => hmem ch (h.owners ch hch)

/-- A call on quinn-proto's endpoint: what it mints is new, so it is pending and nobody's. -/
theorem afterCall {α : Type} {r : Minting Q.Ep α} {l : Quinn.SlabEffect} (h : Cids L core)
    (hstep : Q.EpStep core.inner l r.minted r.ep) : Cids L (core.afterCall r) := by
  obtain ⟨-, hnew, hminted⟩ := L.step hstep
  have hissued : ∀ cid, cid ∈ (core.afterCall r).issuedCids ↔
      cid ∈ core.issuedCids ∨ cid ∈ r.minted := by
    intro cid
    simp [Core.afterCall]
  have hpending : ∀ cid, cid ∈ (core.afterCall r).pendingCids ↔
      cid ∈ core.pendingCids ∨ cid ∈ r.minted := by
    intro cid
    simp [Core.afterCall]
  refine of_owns (fun cid hcid => ?_) (fun cid => ?_) (fun cid hcid ch hown => ?_)
    (fun _ _ _ => h.owner_unique) h.owners
  · rcases (hissued cid).mp hcid with hcid | hcid
    · exact ⟨(hminted cid).mpr (Or.inl (h.minted cid hcid).1), (h.minted cid hcid).2⟩
    · exact ⟨(hminted cid).mpr (Or.inr hcid), (hnew cid hcid).2⟩
  · rw [hissued, hpending, h.issued cid]
    exact or_right_comm
  · rcases (hpending cid).mp hcid with hcid | hcid
    · exact h.not_owns hcid ch hown
    · have hold := (h.issued cid).mpr (Or.inr ⟨ch, hown⟩)
      exact (hnew cid hcid).1 (h.minted cid hold).1

/-- The pending CIDs become the newest ones of `ch`. -/
theorem assign (h : Cids L core) (ch : ConnectionHandle) (hinner : core'.inner = core.inner)
    (hissued : core'.issuedCids = core.issuedCids) (hpending : core'.pendingCids = [])
    (hcids : core'.cidsByConn =
      if core.pendingCids = [] then core.cidsByConn
      else core.cidsByConn.insert ch ((core.cidsByConn.lookup ch).getD [] ++ core.pendingCids))
    (hmem : ∀ a ∈ core.connections, a ∈ core'.connections) (hch : ch ∈ core'.connections) :
    Cids L core' := by
  have howns := Core.owns_drained core hcids
  by_cases hp : core.pendingCids = []
  · rw [if_pos hp] at hcids
    exact h.frame hinner hissued (hpending.trans hp.symm) hcids hmem
  rw [if_neg hp] at hcids
  refine of_owns ?_ (fun cid => ?_) ?_ (fun cid a a' ha ha' => ?_) fun a ha => ?_
  · rw [hinner, hissued]
    exact h.minted
  · rw [hissued, h.issued cid, hpending]
    constructor
    · rintro (hcid | ⟨a, ha⟩)
      · exact Or.inr ⟨ch, (howns ch cid).mpr (Or.inr ⟨rfl, hcid⟩)⟩
      · exact Or.inr ⟨a, (howns a cid).mpr (Or.inl ha)⟩
    · rintro (hcid | ⟨a, ha⟩)
      · exact absurd hcid List.not_mem_nil
      · rcases (howns a cid).mp ha with ha | ⟨-, hcid⟩
        · exact Or.inr ⟨a, ha⟩
        · exact Or.inl hcid
  · rw [hpending]
    exact fun cid hcid => absurd hcid List.not_mem_nil
  · rcases (howns a cid).mp ha with ha | ⟨rfl, hcid⟩
    · rcases (howns a' cid).mp ha' with ha' | ⟨-, hcid⟩
      · exact h.owner_unique ha ha'
      · exact absurd ha (h.not_owns hcid a)
    · rcases (howns a' cid).mp ha' with ha' | ⟨rfl, -⟩
      · exact absurd ha' (h.not_owns hcid a')
      · rfl
  · rw [hcids, AList.mem_insert] at ha
    rcases ha with rfl | ha
    · exact hch
    · exact hmem a (h.owners a ha)

theorem sweep (h : Cids L core) : Cids L core.sweepOrphanCids := by
  have hissued : ∀ cid, cid ∈ core.sweepOrphanCids.issuedCids ↔
      cid ∈ core.issuedCids ∧ cid ∉ core.pendingCids := fun cid => mem_foldl_erase ..
  refine of_owns (fun cid hcid => h.minted cid ((hissued cid).mp hcid).1) (fun cid => ?_)
    (fun cid hcid => absurd hcid List.not_mem_nil) (fun _ _ _ => h.owner_unique) h.owners
  rw [hissued, h.issued cid]
  constructor
  · rintro ⟨hcid | hcid, hnot⟩
    · exact absurd hcid hnot
    · exact Or.inr hcid
  · rintro (hcid | ⟨ch, hown⟩)
    · exact absurd hcid List.not_mem_nil
    · exact ⟨Or.inr ⟨ch, hown⟩, fun hp => h.not_owns hp ch hown⟩

theorem reap {l : ConnectionHandle × ConnectionError} (h : Cids L core)
    (hl : l.1 ∈ core.connections) : Cids L (core.reap l) := by
  have howns := Core.owns_reap hl
  have hissued : ∀ cid, cid ∈ (core.reap l).issuedCids ↔
      cid ∈ core.issuedCids ∧ ¬ core.Owns l.1 cid := by
    intro cid
    rw [Core.owns_iff, Core.reap_eq hl]
    exact mem_foldl_erase ..
  have hkeep : (core.reap l).inner = core.inner ∧ (core.reap l).pendingCids = core.pendingCids := by
    rw [Core.reap_eq hl]
    exact ⟨rfl, rfl⟩
  refine of_owns (fun cid hcid => ?_) (fun cid => ?_) (fun cid hcid a ha => ?_)
    (fun cid a a' ha ha' => ?_) fun a ha => ?_
  · rw [hkeep.1]
    exact h.minted cid ((hissued cid).mp hcid).1
  · rw [hissued, h.issued cid, hkeep.2]
    constructor
    · rintro ⟨hcid | ⟨a, ha⟩, hnot⟩
      · exact Or.inl hcid
      · refine Or.inr ⟨a, (howns a cid).mpr ⟨?_, ha⟩⟩
        rintro rfl
        exact hnot ha
    · rintro (hcid | ⟨a, ha⟩)
      · exact ⟨Or.inl hcid, h.not_owns hcid l.1⟩
      · obtain ⟨hne, ha⟩ := (howns a cid).mp ha
        exact ⟨Or.inr ⟨a, ha⟩, fun hown => hne (h.owner_unique ha hown)⟩
  · rw [hkeep.2] at hcid
    exact h.not_owns hcid a ((howns a cid).mp ha).2
  · exact h.owner_unique ((howns a cid).mp ha).2 ((howns a' cid).mp ha').2
  · rw [Core.reap_eq hl] at ha ⊢
    obtain ⟨hne, ha⟩ := AList.mem_erase.mp ha
    exact AList.mem_erase.mpr ⟨hne, h.owners a ha⟩

/-! ### Through a call -/

theorem handOver (h : Cids L core) (now : Instant) (src : SocketAddr) (data : List UInt8) :
    Cids L (core.handOver now src data).2 := by
  rw [Core.handOver_eq]
  exact (h.afterCall (.handle core.inner core.serverConfig now src data)).frame rfl rfl rfl rfl
    fun _ h => h

theorem register (h : Cids L core) (quinn : QuinnHandle) (conn : Q.Conn) (buf : List UInt8)
    (clientIdx : Nat) : Cids L (core.register quinn conn buf clientIdx).2 := by
  rw [Core.register_eq]
  refine h.assign ⟨quinn, core.nextGeneration⟩ rfl rfl rfl rfl ?_ ?_
  · exact fun a ha => (AList.mem_insert _).mpr (Or.inr ha)
  · exact (AList.mem_insert _).mpr (Or.inl rfl)

theorem feed (h : Cids L core) (now : Instant) (src : SocketAddr) (data : List UInt8)
    (admitted : Option Nat) : Cids L (core.feed now src data admitted).2 := by
  have hh := h.handOver now src data
  rcases Core.feed_cases core now src data admitted with h' | h' | ⟨ch, cev, h'⟩ |
    ⟨incoming, clientIdx, -, ⟨buf, hacc, h'⟩ | ⟨quinn, conn, buf, hacc, h'⟩⟩
  · rw [h']
    exact hh
  · rw [h']
    exact hh.sweep
  · rw [h']
    have hevent : Cids L ((core.handOver now src data).2.updateConn ch fun c =>
        Q.connHandleEvent c cev) :=
      hh.frame rfl rfl rfl rfl fun a ha => AMap.mem_modify.mpr ha
    exact hevent.sweep
  · rw [h']
    exact (hh.afterCall (.acceptErr _ _ _ _ _ hacc)).sweep
  · rw [h']
    exact ((hh.afterCall (.acceptOk _ _ _ _ _ _ _ hacc)).register quinn conn buf clientIdx).sweep

theorem fed (h : Cids L core) (g : Endpoint.Gate) (now : Instant) (src : SocketAddr)
    (data : List UInt8) : Cids L (Endpoint.fed core g now src data).2 := by
  cases g with
  | rejected => exact h
  | bypass => exact h.feed now src data none
  | admitted clientIdx =>
    have hinstall : Cids L (Endpoint.install core clientIdx) := h.frame rfl rfl rfl rfl fun _ h => h
    exact hinstall.feed now src data (some clientIdx)

theorem deliver {ch : ConnectionHandle} (h : Cids L core) (hch : ch ∈ core.connections)
    (c : Q.Conn) (ev : Q.EpEvent) : Cids L (core.deliver ch c ev) := by
  have hmem : ∀ a ∈ core.connections, a ∈ (core.deliver ch c ev).connections :=
    fun a ha => Core.mem_deliver.mpr ha
  rw [Core.deliver_eq, Core.drainPendingCids_eq]
  exact (h.afterCall (.ofEvent core.inner ch.quinn ev)).assign ch rfl rfl rfl rfl hmem
    (hmem ch hch)

theorem routed (h : Cids L core) (ord : IterOrder) (now : Instant) :
    Cids L (core.routed ord now) := by
  refine Core.routeAll_inv ?_ ?_ _ (h.frame rfl rfl rfl rfl fun _ h => h)
  · exact fun core ch s ev c hI hs _ => hI.deliver (AMap.mem_iff_lookup.mpr ⟨s, hs⟩) c ev
  · exact fun core ch s c hI _ _ => hI.frame rfl rfl rfl rfl fun a ha => AMap.mem_modify.mpr ha

/-- **A pass keeps the tables**, and leaves nothing pending. -/
theorem pass (h : Cids L core) (ord : IterOrder) (now : Instant) :
    Cids L (core.serviceConnections ord now) ∧
      (core.serviceConnections ord now).pendingCids = [] := by
  have hserviced : Cids L (core.serviced ord now).1 := by
    rw [Core.serviced_eq]
    refine (h.routed ord now).frame rfl rfl rfl rfl fun a ha => ?_
    exact Core.mem_serviced.mpr (Core.mem_routed.mp ha)
  have hreaped : Cids L (((core.serviced ord now).1.flush (core.serviced ord now).2).reapAll
      (core.serviced ord now).2.lost) :=
    Core.reapAll_inv (fun core l _ hI hl => hI.reap hl)
      (hserviced.frame rfl rfl rfl rfl fun _ h => h)
  exact ⟨hreaped.sweep.frame rfl rfl rfl rfl fun _ h => h, rfl⟩

end Cids

/-! ## The slot map and the identity map -/

/-- The slot map and the identity map in the middle of a call. -/
structure Routes (S : Q.Slots) (core : Core Q) : Prop where
  slots : ∀ quinn ch, core.byQuinn.lookup quinn = some ch ↔
    ch ∈ core.connections ∧ ch.quinn = quinn
  ids : ∀ ch, ch ∈ core.clientIds ↔ core.role = .server ∧ ch ∈ core.connections
  held : ∀ ch s, core.connections.lookup ch = some s →
    S.allocated core.inner ch.quinn ∨ Q.isDrained s.conn = true

/-- Every live connection still has its slab entry: what holds between calls. -/
def AllHeld (S : Q.Slots) (core : Core Q) : Prop :=
  ∀ ch ∈ core.connections, S.allocated core.inner ch.quinn

theorem AllHeld.handOver {S : Q.Slots} {core : Core Q} (h : AllHeld S core) (now : Instant)
    (src : SocketAddr) (data : List UInt8) : AllHeld S (core.handOver now src data).2 := by
  rw [Core.handOver_eq]
  exact fun ch hch => (S.keeps (.handle core.inner core.serverConfig now src data) _).mpr (h ch hch)

namespace Routes

variable {S : Q.Slots} {core core' : Core Q}

/-- No two live handles share a slot. -/
theorem unique (h : Routes S core) {ch ch' : ConnectionHandle} (hch : ch ∈ core.connections)
    (hch' : ch' ∈ core.connections) (hq : ch.quinn = ch'.quinn) : ch = ch' := by
  have h1 := (h.slots ch'.quinn ch).mpr ⟨hch, hq⟩
  have h2 := (h.slots ch'.quinn ch').mpr ⟨hch', rfl⟩
  exact Option.some.inj (h1.symm.trans h2)

/-- The maps read the handles; a connection may move on, as long as it does not come back from
being drained. -/
theorem frame (h : Routes S core) (hf : Core.Frame core' core)
    (hslab : ∀ slot, S.allocated core.inner slot → S.allocated core'.inner slot)
    (hmem : ∀ ch, ch ∈ core'.connections ↔ ch ∈ core.connections)
    (hconn : ∀ ch s', core'.connections.lookup ch = some s' →
      ∃ s, core.connections.lookup ch = some s ∧
        (Q.isDrained s.conn = true → Q.isDrained s'.conn = true)) : Routes S core' := by
  constructor
  · intro quinn ch
    rw [hf.byQuinn, hmem]
    exact h.slots quinn ch
  · intro ch
    rw [hf.clientIds, hf.role, hmem]
    exact h.ids ch
  · intro ch s' hs'
    obtain ⟨s, hs, hdr⟩ := hconn ch s' hs'
    exact (h.held ch s hs).imp (hslab _) hdr

/-- A new connection in a free slot. -/
theorem registered {ch : ConnectionHandle} {conn : Q.Conn} {id : String} (h : Routes S core)
    (hreg : Endpoint.Registered core core' ch conn id) (hserver : core.role = .server)
    (hfree : ∀ a ∈ core.connections, a.quinn ≠ ch.quinn)
    (hslab : ∀ slot, S.allocated core.inner slot → S.allocated core'.inner slot)
    (hnew : S.allocated core'.inner ch.quinn) : Routes S core' := by
  constructor
  · intro quinn a
    rw [hreg.byQuinn, hreg.connections, AMap.lookup_insert_eq, AList.mem_insert]
    split
    · rename_i hq
      subst hq
      constructor
      · intro ha
        obtain rfl := Option.some.inj ha
        exact ⟨Or.inl rfl, rfl⟩
      · rintro ⟨rfl | ha, hq⟩
        · rfl
        · exact absurd hq (hfree a ha)
    · rename_i hq
      rw [h.slots quinn a]
      constructor
      · exact fun ⟨ha, hqa⟩ => ⟨Or.inr ha, hqa⟩
      · rintro ⟨rfl | ha, hqa⟩
        · exact absurd hqa.symm hq
        · exact ⟨ha, hqa⟩
  · intro a
    rw [hreg.clientIds, hreg.connections, hreg.role, AList.mem_insert, AList.mem_insert, h.ids a]
    simp [hserver]
  · intro a s hs
    rw [hreg.connections, AMap.lookup_insert_eq] at hs
    split at hs
    · rename_i ha
      subst ha
      exact Or.inl hnew
    · exact (h.held a s hs).imp (hslab _) fun h => h

theorem reap {l : ConnectionHandle × ConnectionError} (h : Routes S core)
    (hl : l.1 ∈ core.connections) : Routes S (core.reap l) := by
  have huniq : ∀ a ∈ core.connections, a.quinn = l.1.quinn → a = l.1 :=
    fun a ha hq => h.unique ha hl hq
  rw [Core.reap_eq hl]
  constructor
  · intro quinn a
    show (core.byQuinn.erase l.1.quinn).lookup quinn = some a ↔
      a ∈ core.connections.erase l.1 ∧ a.quinn = quinn
    rw [AMap.lookup_erase_eq, AList.mem_erase]
    split
    · rename_i hq
      subst hq
      constructor
      · exact fun ha => absurd ha (by simp)
      · rintro ⟨⟨hne, ha⟩, hqa⟩
        exact absurd (huniq a ha hqa) hne
    · rename_i hq
      rw [h.slots quinn a]
      constructor
      · rintro ⟨ha, rfl⟩
        exact ⟨⟨fun heq => hq (by rw [heq]), ha⟩, rfl⟩
      · exact fun ⟨⟨_, ha⟩, hqa⟩ => ⟨ha, hqa⟩
  · intro a
    show a ∈ core.clientIds.erase l.1 ↔ core.role = .server ∧ a ∈ core.connections.erase l.1
    rw [AList.mem_erase, AList.mem_erase, h.ids a]
    exact and_left_comm
  · intro a s hs
    have hs' : (core.connections.erase l.1).lookup a = some s := hs
    rw [AMap.lookup_erase_eq] at hs'
    split at hs'
    · exact absurd hs' (by simp)
    · exact h.held a s hs'

/-- One connection moved on by calls of its own. -/
theorem moved {ch : ConnectionHandle} {s t : ConnState Q} (h : Routes S core)
    (hs : core.connections.lookup ch = some s)
    (hdr : Q.isDrained s.conn = true → Q.isDrained t.conn = true)
    (hf : Core.Frame core' core) (hinner : core'.inner = core.inner)
    (hlook : ∀ a, core'.connections.lookup a =
      if a = ch then some t else core.connections.lookup a) : Routes S core' := by
  refine h.frame hf (fun slot => by rw [hinner]; exact fun h => h) (fun a => ?_) fun a s' hs' => ?_
  · rw [← AList.lookup_isSome, ← AList.lookup_isSome, hlook]
    split
    · rename_i ha
      rw [ha, hs]
      rfl
    · rfl
  · rw [hlook] at hs'
    split at hs'
    · rename_i ha
      obtain rfl := Option.some.inj hs'
      exact ⟨s, by rw [ha, hs], hdr⟩
    · exact ⟨s', hs', fun h => h⟩

theorem handOver (h : Routes S core) (now : Instant) (src : SocketAddr) (data : List UInt8) :
    Routes S (core.handOver now src data).2 := by
  have hstep := Quinn.EpStep.handle core.inner core.serverConfig now src data
  rw [Core.handOver_eq]
  exact h.frame ⟨rfl, rfl, rfl, rfl, rfl, rfl⟩ (fun slot ha => (S.keeps hstep slot).mpr ha)
    (fun _ => Iff.rfl) fun a s' hs' => ⟨s', hs', fun h => h⟩

theorem sweep (h : Routes S core) : Routes S core.sweepOrphanCids :=
  h.frame ⟨rfl, rfl, rfl, rfl, rfl, rfl⟩ (fun _ h => h) (fun _ => Iff.rfl)
    fun _ s' hs' => ⟨s', hs', fun h => h⟩

variable (D : Q.Drains)
include D

/-- The endpoint event of a live connection, routed: a Drained event releases the slab entry, and
its connection is drained from there on. -/
theorem deliver {ch : ConnectionHandle} {s : ConnState Q} {ev : Q.EpEvent} {c : Q.Conn}
    (h : Routes S core) (hs : core.connections.lookup ch = some s)
    (hpoll : Q.pollEndpointEvents s.conn = (some ev, c)) : Routes S (core.deliver ch c ev) := by
  have hmem : ∀ a, a ∈ (core.deliver ch c ev).connections ↔ a ∈ core.connections :=
    fun a => Core.mem_deliver
  have hch : ch ∈ core.connections := AMap.mem_iff_lookup.mpr ⟨s, hs⟩
  have hstep : Q.ConnStep s.conn (.endpointEvent (some ev)) c := by
    simpa [hpoll] using Quinn.ConnStep.endpointEvent s.conn
  have hdelivered : Q.isDrained c = true → Q.isDrained (core.delivered ch c ev) = true := by
    intro hc
    unfold Core.delivered
    split
    · rename_i cev _
      exact D.stays (.handleEvent c cev) hc
    · exact hc
  have hinner : (core.deliver ch c ev).inner = (Q.epHandleEvent core.inner ch.quinn ev).ep := by
    rw [Core.deliver_eq, Core.drainPendingCids_eq]
    rfl
  have hf : Core.Frame (core.deliver ch c ev) core := by
    rw [Core.deliver_eq, Core.drainPendingCids_eq]
    exact ⟨rfl, rfl, rfl, rfl, rfl, rfl⟩
  have hcall := Quinn.EpStep.ofEvent core.inner ch.quinn ev
  refine ⟨fun quinn a => ?_, fun a => ?_, fun a s' hs' => ?_⟩
  · rw [hf.byQuinn, hmem]
    exact h.slots quinn a
  · rw [hf.clientIds, hf.role, hmem]
    exact h.ids a
  · rw [hinner]
    rw [Core.lookup_deliver] at hs'
    unfold Quinn.SlabEffect.ofEvent at hcall
    by_cases hdr : Q.isDrainedEvent ev = true
    · rw [if_pos hdr] at hcall
      split at hs'
      · rw [hs, Option.map_some] at hs'
        obtain rfl := Option.some.inj hs'
        exact Or.inr (hdelivered (D.handsOut hpoll hdr))
      · rename_i hne
        refine (h.held a s' hs').imp (fun ha => (S.releases hcall _).mpr ⟨?_, ha⟩) fun h => h
        exact fun hq => hne (h.unique (AMap.mem_iff_lookup.mpr ⟨s', hs'⟩) hch hq)
    · rw [if_neg hdr] at hcall
      split at hs'
      · rename_i ha
        subst ha
        rw [hs, Option.map_some] at hs'
        obtain rfl := Option.some.inj hs'
        exact (h.held a s hs).imp (fun ha => (S.keeps hcall _).mpr ha)
          fun hc => hdelivered (D.stays hstep hc)
      · exact (h.held a s' hs').imp (fun ha => (S.keeps hcall _).mpr ha) fun h => h

theorem routed (h : Routes S core) (ord : IterOrder) (now : Instant) :
    Routes S (core.routed ord now) := by
  have h0 : Routes S { core with lastService := some now } :=
    h.frame ⟨rfl, rfl, rfl, rfl, rfl, rfl⟩ (fun _ h => h) (fun _ => Iff.rfl)
      fun a s' hs' => ⟨s', hs', fun h => h⟩
  refine Core.routeAll_inv ?_ ?_ _ h0
  · exact fun core ch s ev c hI hs hpoll => hI.deliver D hs hpoll
  · intro core ch s c hI hs hpoll
    have hstep : Q.ConnStep s.conn (.endpointEvent none) c := by
      simpa [hpoll] using Quinn.ConnStep.endpointEvent s.conn
    refine hI.moved (t := { s with conn := c }) hs (D.stays hstep) ⟨rfl, rfl, rfl, rfl, rfl, rfl⟩
      rfl fun a => ?_
    rw [Core.lookup_updateConn, hs]
    rfl

theorem timers (h : Routes S core) (now : Instant) : Routes S (core.fireTimers now) := by
  refine h.frame ⟨rfl, rfl, rfl, rfl, rfl, rfl⟩ (fun _ h => h) (fun a => AMap.mem_mapValues)
    fun a s' hs' => ?_
  have hmap : (AMap.mapValues _ core.connections).lookup a = some s' := hs'
  rw [AMap.lookup_mapValues, Option.map_eq_some_iff] at hmap
  obtain ⟨s, hs, rfl⟩ := hmap
  refine ⟨s, hs, fun hdr => ?_⟩
  split
  · split
    · exact D.stays (.handleTimeout s.conn now) hdr
    · exact hdr
  · exact hdr

theorem conn (h : Routes S core) (ch : ConnectionHandle) (call : ConnCall) :
    Routes S (core.onConn ch call).2 := by
  unfold Core.onConn
  split
  · exact h
  · rename_i s hs
    refine h.moved (t := (s.call call).2) hs ?_ ⟨rfl, rfl, rfl, rfl, rfl, rfl⟩ rfl fun a =>
      AMap.lookup_insert_eq ..
    exact (Core.call_steps s call).keeps (I := fun c => Q.isDrained c = true)
      fun _ hstep hdr => D.stays hstep hdr

/-- Feeding a datagram between calls: an accepted connection gets a slot that was free, so none
that a live connection holds. -/
theorem feed (h : Routes S core) (hheld : AllHeld S core) (now : Instant) (src : SocketAddr)
    (data : List UInt8) {admitted : Option Nat}
    (hadm : ∀ clientIdx, admitted = some clientIdx →
      core.role = .server ∧ clientIdx < core.clients.length) :
    Routes S (core.feed now src data admitted).2 := by
  have hh := h.handOver now src data
  rcases Core.feed_cases core now src data admitted with h' | h' | ⟨ch, cev, h'⟩ |
    ⟨incoming, clientIdx, hsome, ⟨buf, hacc, h'⟩ | ⟨quinn, conn, buf, hacc, h'⟩⟩
  · rw [h']
    exact hh
  · rw [h']
    exact hh.sweep
  · rw [h']
    refine Routes.sweep (hh.frame ⟨rfl, rfl, rfl, rfl, rfl, rfl⟩ (fun _ h => h)
      (fun a => AMap.mem_modify) fun a s' hs' => ?_)
    rw [Core.lookup_updateConn] at hs'
    split at hs'
    · rename_i ha
      subst ha
      obtain ⟨s, hs, rfl⟩ := Option.map_eq_some_iff.mp hs'
      exact ⟨s, hs, D.stays (.handleEvent s.conn cev)⟩
    · exact ⟨s', hs', fun h => h⟩
  · rw [h']
    have hstep := Quinn.EpStep.acceptErr _ _ _ _ _ hacc
    exact Routes.sweep (hh.frame ⟨rfl, rfl, rfl, rfl, rfl, rfl⟩
      (fun slot ha => (S.keeps hstep slot).mpr ha) (fun _ => Iff.rfl)
      fun _ s' hs' => ⟨s', hs', fun h => h⟩)
  · rw [h']
    obtain ⟨hserver, hlt⟩ := hadm clientIdx hsome
    have hstep := Quinn.EpStep.acceptOk _ _ _ _ _ _ _ hacc
    obtain ⟨hnew, hslab⟩ := S.allocates hstep
    have hcall : Routes S ((core.handOver now src data).2.afterCall
        (Q.accept (core.handOver now src data).2.inner core.serverConfig incoming now)) :=
      hh.frame ⟨rfl, rfl, rfl, rfl, rfl, rfl⟩ (fun slot ha => (hslab slot).mpr (Or.inr ha))
        (fun _ => Iff.rfl) fun _ s' hs' => ⟨s', hs', fun h => h⟩
    have hclient : ((core.handOver now src data).2.afterCall
        (Q.accept (core.handOver now src data).2.inner core.serverConfig incoming
          now)).clients[clientIdx]? = some core.clients[clientIdx] := by
      rw [Core.handOver_eq]
      exact List.getElem?_eq_getElem hlt
    have hreg := Endpoint.register_registered quinn conn buf hclient
    refine Routes.sweep (hcall.registered hreg ?_ ?_ (fun _ h => ?_) ?_)
    · rw [Core.handOver_eq]
      exact hserver
    · intro a ha hq
      have hq' : a.quinn = quinn := hq
      exact hnew (hq' ▸ hheld.handOver now src data a ha)
    · rw [Core.register_eq]
      exact h
    · rw [Core.register_eq]
      exact (hslab _).mpr (Or.inl rfl)

theorem fed (h : Routes S core) (hheld : AllHeld S core) {g : Endpoint.Gate} (hfits : g.Fits core)
    (now : Instant) (src : SocketAddr) (data : List UInt8) :
    Routes S (Endpoint.fed core g now src data).2 := by
  cases g with
  | rejected => exact h
  | bypass => exact h.feed D hheld now src data fun _ h => absurd h (by simp)
  | admitted clientIdx =>
    have hinstall : Routes S (Endpoint.install core clientIdx) :=
      h.frame ⟨rfl, rfl, rfl, rfl, rfl, rfl⟩ (fun _ h => h) (fun _ => Iff.rfl)
        fun _ s' hs' => ⟨s', hs', fun h => h⟩
    refine hinstall.feed D hheld now src data fun idx hidx => ?_
    obtain rfl := Option.some.inj hidx
    exact hfits

/-- **A pass keeps the maps**, and every connection it leaves still has its slab entry: one whose
entry was released is drained, and a pass reaps it. -/
theorem pass (h : Routes S core) (ord : IterOrder) (now : Instant) :
    Routes S (core.serviceConnections ord now) ∧ AllHeld S (core.serviceConnections ord now) := by
  have hrouted := h.routed D ord now
  have hserviced : Routes S (core.serviced ord now).1 := by
    refine hrouted.frame ?_ ?_ (fun a => ?_) fun a s' hs' => ?_
    · rw [Core.serviced_eq]
      exact ⟨rfl, rfl, rfl, rfl, rfl, rfl⟩
    · rw [Core.serviced_eq]
      exact fun _ h => h
    · rw [Core.mem_serviced, Core.mem_routed]
    · rw [Core.serviced_lookup, Option.map_eq_some_iff] at hs'
      obtain ⟨s, hs, rfl⟩ := hs'
      exact ⟨s, hs, (Core.serviceOne_steps now a s).keeps (I := fun c => Q.isDrained c = true)
        fun _ hstep hdr => D.stays hstep hdr⟩
  have hflushed : Routes S ((core.serviced ord now).1.flush (core.serviced ord now).2) := by
    refine ⟨hserviced.slots, hserviced.ids, hserviced.held⟩
  have hreaped : Routes S (((core.serviced ord now).1.flush (core.serviced ord now).2).reapAll
      (core.serviced ord now).2.lost) :=
    Core.reapAll_inv (fun core l _ hI hl => hI.reap hl) hflushed
  refine ⟨⟨hreaped.slots, hreaped.ids, hreaped.held⟩, fun ch hch => ?_⟩
  obtain ⟨s', hs'⟩ := AMap.mem_iff_lookup.mp hch
  obtain ⟨s, hs, hloss, -⟩ := (Core.lookup_serviceConnections core ord now ch s').mp hs'
  rw [Core.inner_serviceConnections]
  refine (hrouted.held ch s hs).resolve_right fun hdr => ?_
  have hdr' : Q.isDrained s.serviceStreams.2.conn = true :=
    (ConnState.serviceStreams_steps s).keeps (I := fun c => Q.isDrained c = true)
      (fun _ hstep hdr => D.stays hstep hdr) hdr
  exact Core.not_drained_of_lossOf_none hloss hdr'

end Routes

/-! ## Whole runs -/

/-- The tables between calls. -/
def Tidy (L : Q.FreshCids) (core : Core Q) : Prop := Cids L core ∧ core.pendingCids = []

/-- The maps between calls. -/
def Settled (S : Q.Slots) (core : Core Q) : Prop := Routes S core ∧ AllHeld S core

variable {H : KeyedHash}

theorem Tidy.step {L : Q.FreshCids} {ep : Endpoint Q} (call : Call) (h : Tidy L ep.toCore) :
    Tidy L (ep.step H call).2.toCore := by
  refine Endpoint.step_inv (J := Cids L) (fun _ h => h.1) ?_ ?_ ?_ ?_ ?_ call h
  · exact fun core g now src data h _ _ => h.1.fed g now src data
  · exact fun core now h => h.1.frame rfl rfl rfl rfl fun a ha => AMap.mem_mapValues.mpr ha
  · exact fun core ord now h => h.pass ord now
  · intro core ch call h
    rw [Core.onConn_eq]
    exact ⟨h.1.frame rfl rfl rfl rfl fun a ha => Core.mem_onConn.mpr ha, h.2⟩
  · exact fun core _ _ h => ⟨h.1.frame rfl rfl rfl rfl fun _ h => h, h.2⟩

theorem Settled.step {S : Q.Slots} (D : Q.Drains) {ep : Endpoint Q} (call : Call)
    (h : Settled S ep.toCore) : Settled S (ep.step H call).2.toCore := by
  refine Endpoint.step_inv (J := Routes S) (fun _ h => h.1) ?_ ?_ ?_ ?_ ?_ call h
  · exact fun core g now src data h hfits _ => h.1.fed D h.2 hfits now src data
  · exact fun core now h => h.1.timers D now
  · exact fun core ord now h => h.pass D ord now
  · refine fun core ch call h => ⟨h.1.conn D ch call, fun a ha => ?_⟩
    have hheld := h.2 a (Core.mem_onConn.mp ha)
    rw [Core.onConn_eq]
    exact hheld
  · exact fun core _ _ h => ⟨⟨h.1.slots, h.1.ids, h.1.held⟩, h.2⟩

theorem tidy_fresh (L : Q.FreshCids) (role : Role) (clients : List (ClientCrypto Q))
    (lastService : Option Instant) : Tidy L (Core.fresh role clients lastService) := by
  have hnone : ∀ ch, (Core.fresh role clients lastService).cidsByConn.lookup ch = none :=
    fun ch => AList.lookup_empty ch
  refine ⟨⟨fun cid hcid => absurd hcid (Finset.notMem_empty cid), fun cid => ?_,
    fun cid hcid => absurd hcid List.not_mem_nil, fun cid ch ch' cids cids' hl => ?_,
    fun ch hch => absurd hch (AList.notMem_empty ch)⟩, rfl⟩
  · simp [Core.fresh]
  · rw [hnone] at hl
    exact absurd hl (by simp)

theorem settled_fresh (S : Q.Slots) (role : Role) (clients : List (ClientCrypto Q))
    (lastService : Option Instant) : Settled S (Core.fresh role clients lastService) := by
  refine ⟨⟨fun quinn ch => ?_, fun ch => ?_, fun ch s hs => ?_⟩,
    fun ch hch => absurd hch (AList.notMem_empty ch)⟩
  · simp [Core.fresh, AList.lookup_empty, AList.notMem_empty]
  · simp [Core.fresh, AList.notMem_empty]
  · exact absurd hs (by simp [Core.fresh, AList.lookup_empty])

theorem tidy_new (L : Q.FreshCids) {ep : Endpoint Q} (h : Endpoint.IsNew H ep) :
    Tidy L ep.toCore := by
  rcases h with ⟨tls, secrets, h⟩ | ⟨tls, now, minute, cfg, ch, h⟩
  · obtain ⟨clients, -, hcore⟩ := Endpoint.newServer_core h
    rw [hcore]
    exact tidy_fresh L _ _ _
  · obtain ⟨dialCfg, conn, hout, -, hcore⟩ := Endpoint.newClient_core h
    have hcall := (tidy_fresh L .client ([] : List (ClientCrypto Q)) (some now)).1.afterCall
      (.connectOk Q.new now dialCfg cfg.server SERVER_NAME _ conn hout)
    rw [hcore]
    refine ⟨hcall.assign ch rfl rfl rfl rfl ?_ ?_, rfl⟩
    · exact fun a ha => absurd ha (AList.notMem_empty a)
    · exact (AList.mem_insert _).mpr (Or.inl rfl)

theorem settled_new (S : Q.Slots) {ep : Endpoint Q} (h : Endpoint.IsNew H ep) :
    Settled S ep.toCore := by
  rcases h with ⟨tls, secrets, h⟩ | ⟨tls, now, minute, cfg, ch, h⟩
  · obtain ⟨clients, -, hcore⟩ := Endpoint.newServer_core h
    rw [hcore]
    exact settled_fresh S _ _ _
  · obtain ⟨dialCfg, conn, hout, -, hcore⟩ := Endpoint.newClient_core h
    obtain ⟨-, hslab⟩ := S.allocates
      (.connectOk Q.new now dialCfg cfg.server SERVER_NAME _ conn hout)
    have hlive : ∀ a, a ∈ ep.connections ↔ a = ch := by
      intro a
      rw [hcore]
      exact (AList.mem_insert _).trans ⟨fun h => h.resolve_right (AList.notMem_empty a), Or.inl⟩
    have hheld : AllHeld S ep.toCore := by
      intro a ha
      rw [(hlive a).mp ha, hcore]
      exact (hslab _).mpr (Or.inl rfl)
    refine ⟨⟨fun quinn a => ?_, fun a => ?_, fun a s hs =>
      Or.inl (hheld a (AMap.mem_iff_lookup.mpr ⟨s, hs⟩))⟩, hheld⟩
    · rw [hlive, hcore]
      show ((∅ : AMap QuinnHandle ConnectionHandle).insert ch.quinn ch).lookup quinn = some a ↔ _
      rw [AMap.lookup_insert_eq, AList.lookup_empty]
      constructor
      · intro hq
        split at hq
        · rename_i heq
          obtain rfl := Option.some.inj hq
          exact ⟨rfl, heq.symm⟩
        · exact absurd hq (by simp)
      · rintro ⟨rfl, rfl⟩
        rw [if_pos rfl]
    · rw [hcore]
      refine ⟨fun ha => absurd ha (AList.notMem_empty a), fun ha => absurd ha.1 ?_⟩
      exact fun hrole => Role.noConfusion hrole

/-- **The routing tables stay coherent.** After every public call of every run, for either role:
nothing is pending; the issued CIDs are exactly those in the per-connection lists, which are
pairwise disjoint and belong to live connections; the slot map has exactly the live handles; the
identity map has exactly the live handles of a server, and none on a client. So a datagram
bypasses a server's pre-filter only with an 8-byte CID of a live connection, and never with a
20-byte selector DCID. -/
theorem coherent (H : KeyedHash) (L : Q.FreshCids) (S : Q.Slots) (D : Q.Drains) (ep₀ : Endpoint Q)
    (hnew : Endpoint.IsNew H ep₀) (calls : List Call) :
    let ep := ep₀.run H calls
    ep.pendingCids = [] ∧
    (∀ cid, cid ∈ ep.issuedCids ↔
      ∃ ch cids, ep.cidsByConn.lookup ch = some cids ∧ cid ∈ cids) ∧
    (∀ ch ch' cids cids', ep.cidsByConn.lookup ch = some cids →
      ep.cidsByConn.lookup ch' = some cids' → ch ≠ ch' → List.Disjoint cids cids') ∧
    (∀ ch ∈ ep.cidsByConn, ch ∈ ep.connections) ∧
    (∀ quinn ch, ep.byQuinn.lookup quinn = some ch ↔ ch ∈ ep.connections ∧ ch.quinn = quinn) ∧
    (∀ ch, ch ∈ ep.clientIds ↔ ep.role = .server ∧ ch ∈ ep.connections) ∧
    (∀ now src minute data, ep.role = .server →
      (ep.gate H now src minute data).1 = .bypass →
      ∃ dcid ch cids, Core.readDcidAny data = some dcid ∧ dcid.length = LOCAL_CID_LEN ∧
        ch ∈ ep.connections ∧ ep.cidsByConn.lookup ch = some cids ∧ dcid ∈ cids) ∧
    ∀ data dcid, peekDcid data = some dcid → dcid.length = DCID_LEN →
      ep.isActiveDcid data = false := by
  intro ep
  obtain ⟨hcids, hpending⟩ : Tidy L ep.toCore :=
    Endpoint.run_inv (H := H) (I := fun ep => Tidy L ep.toCore) (fun _ call h => h.step call) calls
      (tidy_new L hnew)
  obtain ⟨hroutes, -⟩ : Settled S ep.toCore :=
    Endpoint.run_inv (H := H) (I := fun ep => Settled S ep.toCore) (fun _ call h => h.step D call)
      calls (settled_new S hnew)
  have hissued : ∀ cid, cid ∈ ep.issuedCids ↔
      ∃ ch cids, ep.cidsByConn.lookup ch = some cids ∧ cid ∈ cids := by
    intro cid
    rw [hcids.issued cid, hpending]
    simp
  refine ⟨hpending, hissued, ?_, hcids.owners, hroutes.slots, hroutes.ids, ?_, ?_⟩
  · intro ch ch' cids cids' hl hl' hne cid hcid hcid'
    exact hne (hcids.disjoint cid ch ch' cids cids' hl hl' hcid hcid')
  · intro now src minute data hserver hbypass
    obtain ⟨dcid, hread, hmem⟩ := Endpoint.gate_bypass hserver hbypass
    obtain ⟨ch, cids, hlook, hin⟩ := (hissued dcid).mp hmem
    exact ⟨dcid, ch, cids, hread, (hcids.minted dcid hmem).2,
      hcids.owners ch (AMap.mem_iff_lookup.mpr ⟨cids, hlook⟩), hlook, hin⟩
  · intro data dcid hpeek hlen
    have hread : Core.readDcidAny data = some dcid := Core.readDcidAny_of_peek hpeek
    simp only [Core.isActiveDcid, hread, decide_eq_false_iff_not]
    intro hmem
    have := (hcids.minted dcid hmem).2
    rw [hlen] at this
    exact absurd this (by decide)

theorem coherent_client :
    Endpoint.IsNew zeroHash Endpoint.miniClient ∧
      (Endpoint.miniClient.run zeroHash [.pollTransmit Endpoint.keyOrder 0]).issuedCids =
        {MiniEp.cidOf 0} ∧
      ∃ ch cids, (Endpoint.miniClient.run zeroHash
        [.pollTransmit Endpoint.keyOrder 0]).cidsByConn.lookup ch = some cids ∧
        MiniEp.cidOf 0 ∈ cids := by
  obtain ⟨-, hissued, -⟩ := coherent zeroHash Mini.freshCids Mini.slots Mini.drains
    Endpoint.miniClient Endpoint.miniClient_new [.pollTransmit Endpoint.keyOrder 0]
  exact ⟨Endpoint.miniClient_new, by decide, (hissued _).mp (by decide)⟩

end QuietQuic.Proto
