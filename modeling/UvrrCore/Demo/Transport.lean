import UvrrCore.OrdMap
import UvrrCore.Wire

/-!
# The datagram transport of the demo

A socket, the frame codec and the wire format. A released message is packed, sealed for its
destination's link and sent as one datagram; a datagram that opens under a link key and decodes is
attributed to the peer configured under the identity in the frame, and every other is counted and
skipped. Two probes ask whether a datagram waits; one that they find is held for the next receive.

The codec is a parameter, and so is what the socket answers: each read may be refused, find nothing,
fail, or take a datagram and fail to put the socket's mode back.

## Main results

* `mount_routed`: a mounted transport routes its configured peers, both ways.
* `datagrams_accounted`: over any calls, each datagram taken is lost as it is read, or delivered,
  dropped or held, in order, and each release is counted under what became of it.
* `carried`: between two mounts that share a link, whatever the network does with the frames one
  sends, the other delivers those messages, attributed to it, up to one that it holds.
-/

namespace UvrrCore

namespace Demo

open ByteCodec

/-! ### The codec -/

abbrev Key := List UInt8

/-- A node's keys: its own identity, and for a peer and an epoch the key of their link. -/
structure KeyStore where
  own : Nat
  keys : Nat → Nat → Option Key

def KeyStore.install (store : KeyStore) (peer epoch : Nat) (key : Key) : KeyStore :=
  { store with keys := fun peer' epoch' =>
      if peer' = peer ∧ epoch' = epoch then some key else store.keys peer' epoch' }

/-- The frame codec and its environment. -/
structure Paxe where
  startupCheck : Bool
  /-- A key store can be allocated, and a key installed. -/
  allocates : Nat → Bool
  installs : Nat → Bool
  sealFrame : KeyStore → (destination channel epoch nonce : Nat) → List UInt8 → Option (List UInt8)
  /-- The source a frame authenticates, and its payload. -/
  openFrame : KeyStore → List UInt8 → Option (Nat × Slice)

/-- A frame opens at its destination under the key it was sealed with. -/
def Paxe.Opens (paxe : Paxe) : Prop :=
  ∀ (source destination : KeyStore) (channel epoch nonce : Nat) (payload frame : List UInt8),
    paxe.sealFrame source destination.own channel epoch nonce payload = some frame →
    destination.keys source.own epoch = source.keys destination.own epoch →
    ∃ slice, paxe.openFrame destination frame = some (source.own, slice) ∧ slice.bytes = payload

/-- A codec in the clear: the source's identity in front of the payload. -/
def clearPaxe : Paxe where
  startupCheck := true
  allocates _ := true
  installs _ := true
  sealFrame store destination _ epoch _ payload :=
    if (store.keys destination epoch).isSome ∧ store.own < 256 ∧ payload.length < sliceBound then
      some (UInt8.ofNat store.own :: payload)
    else none
  openFrame _ frame :=
    match frame with
    | [] => none
    | source :: payload =>
      if h : payload.length < sliceBound then some (source.toNat, ⟨payload, h⟩) else none

theorem clearPaxe_opens : clearPaxe.Opens := by
  intro source destination channel epoch nonce payload frame hseal _
  simp only [clearPaxe] at hseal ⊢
  split at hseal
  · rename_i h
    cases hseal
    refine ⟨⟨payload, h.2.2⟩, ?_, rfl⟩
    have hsource : (UInt8.ofNat source.own).toNat = source.own := UInt8.toNat_ofNat_of_lt h.2.1
    simp only [dif_pos h.2.2, hsource]
  · cases hseal

/-! ### Mounting -/

structure PaxePeer where
  node : Nat
  paxeId : Nat
  address : Nat
  link : Key
deriving DecidableEq

structure PaxeConfig where
  own : Nat
  paxeId : Nat
  channel : Nat
  epoch : Nat
  peers : List PaxePeer

inductive PeerFault where
  /-- "is configured as its own peer" -/
  | own (node : Nat)
  /-- "is configured twice" -/
  | nodeTwice (node : Nat)
  /-- "paxe identity .. is configured twice" -/
  | identityTwice (paxeId : Nat)
deriving DecidableEq

inductive PaxeRefusal where
  | sodium
  | epoch (epoch : Nat)
  | keystore
  | peer (fault : PeerFault)
deriving DecidableEq

/-- The epochs the wire field holds. -/
abbrev epochBound : Nat := 32

structure PaxeTransport where
  store : KeyStore
  channel : Nat
  epoch : Nat
  own : Nat
  routes : OrdMap Nat PaxePeer
  identities : OrdMap Nat Nat
  held : Option (List UInt8)
  sent : Nat
  dropped : Nat
  unaddressed : Nat
  unsealed : Nat
  ioFailures : Nat

namespace PaxeTransport

/-- One peer of the configuration. -/
def mountPeer (paxe : Paxe) (t : PaxeTransport) (peer : PaxePeer) : Except PaxeRefusal PaxeTransport :=
  if peer.node = t.own then .error (.peer (.own peer.node))
  else if (t.routes.get? peer.node).isSome then .error (.peer (.nodeTwice peer.node))
  else if (t.identities.get? peer.paxeId).isSome then .error (.peer (.identityTwice peer.paxeId))
  else if paxe.installs peer.paxeId = false then .error .keystore
  else .ok
    { t with
      store := t.store.install peer.paxeId t.epoch peer.link
      identities := t.identities.insert peer.paxeId peer.node
      routes := t.routes.insert peer.node peer }

/-- The transport before its first peer. -/
def bare (config : PaxeConfig) : PaxeTransport where
  store := ⟨config.paxeId, fun _ _ => none⟩
  channel := config.channel
  epoch := config.epoch
  own := config.own
  routes := OrdMap.empty
  identities := OrdMap.empty
  held := none
  sent := 0
  dropped := 0
  unaddressed := 0
  unsealed := 0
  ioFailures := 0

def mount (paxe : Paxe) (config : PaxeConfig) : Except PaxeRefusal PaxeTransport :=
  if paxe.startupCheck = false then .error .sodium
  else if epochBound ≤ config.epoch then .error (.epoch config.epoch)
  else if paxe.allocates config.paxeId = false then .error .keystore
  else config.peers.foldlM (mountPeer paxe) (bare config)

/-! ### Receiving -/

/-- What a read of the socket comes to. -/
inductive SocketRead where
  /-- The socket's mode was not changed, the read failed, or found nothing and could not put the
  mode back. -/
  | refused
  | empty
  | datagram (bytes : List UInt8)
  /-- A datagram was taken, and the mode could not be put back. -/
  | lost (bytes : List UInt8)
deriving DecidableEq

def readDatagram : SocketRead → Except Unit (Option (List UInt8))
  | .refused | .lost _ => .error ()
  | .empty => .ok none
  | .datagram bytes => .ok (some bytes)

/-- The blocking read between two passes. -/
def wait (t : PaxeTransport) (read : SocketRead) : PaxeTransport × Except Unit Bool :=
  if t.held.isSome then (t, .ok true)
  else
    match readDatagram read with
    | .ok (some bytes) => ({ t with held := some bytes }, .ok true)
    | .ok none => (t, .ok false)
    | .error e => (t, .error e)

def ready (t : PaxeTransport) (read : SocketRead) : PaxeTransport × Bool :=
  if t.held.isSome then (t, true)
  else
    match readDatagram read with
    | .ok (some bytes) => ({ t with held := some bytes }, true)
    | _ => (t, false)

/-- A datagram as the core sees it. -/
def opened (paxe : Paxe) (t : PaxeTransport) (bytes : List UInt8) : Option (Nat × WireMessage) :=
  (paxe.openFrame t.store bytes).bind fun (source, payload) =>
    (t.identities.get? source).bind fun sender =>
      (unpackFrom WireMessage.unpack payload).toOption.map fun message => (sender, message)

/-- The rest of a receive, nothing held, with what the reads to come answer. -/
def receiveFresh (paxe : Paxe) (t : PaxeTransport) :
    List SocketRead → PaxeTransport × Option (Nat × WireMessage) × List SocketRead
  | [] => (t, none, [])
  | read :: reads =>
    match readDatagram read with
    | .error _ => ({ t with ioFailures := t.ioFailures + 1 }, none, reads)
    | .ok none => (t, none, reads)
    | .ok (some bytes) =>
      match opened paxe t bytes with
      | some attributed => (t, some attributed, reads)
      | none => receiveFresh paxe { t with dropped := t.dropped + 1 } reads

/-- **The next datagram that opens.** What is held comes first. -/
def receive (paxe : Paxe) (t : PaxeTransport) (reads : List SocketRead) :
    PaxeTransport × Option (Nat × WireMessage) × List SocketRead :=
  match t.held with
  | none => receiveFresh paxe t reads
  | some bytes =>
    let t := { t with held := none }
    match opened paxe t bytes with
    | some attributed => (t, some attributed, reads)
    | none => receiveFresh paxe { t with dropped := t.dropped + 1 } reads

/-! ### Sending -/

/-- A frame on its way, and where to. -/
structure Sent where
  address : Nat
  frame : List UInt8
deriving DecidableEq

/-- **A release.** -/
def send (paxe : Paxe) (t : PaxeTransport) (recipient : Nat) (message : WireMessage) (nonce : Nat)
    (accepted : Bool) : PaxeTransport × Option Sent :=
  match t.routes.get? recipient with
  | none => ({ t with unaddressed := t.unaddressed + 1 }, none)
  | some peer =>
    match packInto message.pack message.packedLen (List.replicate message.packedLen 0) with
    | some (.ok (_, packed)) =>
      match paxe.sealFrame t.store peer.paxeId t.channel t.epoch nonce packed with
      | some frame =>
        if accepted then ({ t with sent := t.sent + 1 }, some ⟨peer.address, frame⟩)
        else ({ t with ioFailures := t.ioFailures + 1 }, none)
      | none => ({ t with unsealed := t.unsealed + 1 }, none)
    | _ => ({ t with unsealed := t.unsealed + 1 }, none)

/-! ### What a mount gives -/

/-- **The two tables are inverse**, and every peer's key is installed. -/
structure Routed (t : PaxeTransport) : Prop where
  route : ∀ node peer, t.routes.get? node = some peer →
    peer.node = node ∧ node ≠ t.own ∧ t.identities.get? peer.paxeId = some node ∧
      t.store.keys peer.paxeId t.epoch = some peer.link
  identity : ∀ paxeId node, t.identities.get? paxeId = some node →
    ∃ peer, t.routes.get? node = some peer ∧ peer.paxeId = paxeId

/-- A peer that can be added to these. -/
structure Admissible (paxe : Paxe) (t : PaxeTransport) (peer : PaxePeer) : Prop where
  other : peer.node ≠ t.own
  node_new : t.routes.get? peer.node = none
  identity_new : t.identities.get? peer.paxeId = none
  installs : paxe.installs peer.paxeId = true

/-- The transport with one peer more. -/
def admitted (t : PaxeTransport) (peer : PaxePeer) : PaxeTransport :=
  { t with
    store := t.store.install peer.paxeId t.epoch peer.link
    identities := t.identities.insert peer.paxeId peer.node
    routes := t.routes.insert peer.node peer }

theorem admit_eq_ok {paxe : Paxe} {t t' : PaxeTransport} {peer : PaxePeer} :
    mountPeer paxe t peer = .ok t' ↔ Admissible paxe t peer ∧ t' = t.admitted peer := by
  unfold mountPeer
  split
  · rename_i hown
    exact ⟨by simp, fun h => absurd hown h.1.other⟩
  rename_i hown
  split
  · rename_i hnode
    refine ⟨by simp, fun h => ?_⟩
    rw [h.1.node_new] at hnode
    cases hnode
  rename_i hnode
  split
  · rename_i hid
    refine ⟨by simp, fun h => ?_⟩
    rw [h.1.identity_new] at hid
    cases hid
  rename_i hid
  split
  · rename_i hinstall
    refine ⟨by simp, fun h => ?_⟩
    rw [h.1.installs] at hinstall
    cases hinstall
  rename_i hinstall
  constructor
  · intro h
    cases h
    exact ⟨⟨hown, by simpa using hnode, by simpa using hid, by simpa using hinstall⟩, rfl⟩
  · rintro ⟨-, rfl⟩
    rfl

theorem Routed.admitted {paxe : Paxe} {t : PaxeTransport} {peer : PaxePeer} (h : Routed t)
    (hnew : Admissible paxe t peer) : Routed (t.admitted peer) := by
  refine ⟨fun node peer' hroute => ?_, fun paxeId node hid => ?_⟩
  · simp only [PaxeTransport.admitted, OrdMap.get?_insert] at hroute ⊢
    split at hroute
    · rename_i heq
      subst heq
      cases hroute
      exact ⟨rfl, hnew.other, by simp, by simp [KeyStore.install]⟩
    · obtain ⟨hnode, hother, hid, hkey⟩ := h.route node peer' hroute
      have hne : peer'.paxeId ≠ peer.paxeId := by
        intro heq
        rw [heq, hnew.identity_new] at hid
        cases hid
      refine ⟨hnode, hother, ?_, ?_⟩
      · rw [if_neg hne]
        exact hid
      · simp only [KeyStore.install, hne, false_and, if_false]
        exact hkey
  · simp only [PaxeTransport.admitted, OrdMap.get?_insert] at hid ⊢
    split at hid
    · rename_i heq
      cases hid
      exact ⟨peer, by rw [if_pos rfl], heq.symm⟩
    · obtain ⟨peer', hroute, hpaxe⟩ := h.identity paxeId node hid
      have hne : node ≠ peer.node := by
        intro heq
        rw [heq, hnew.node_new] at hroute
        cases hroute
      exact ⟨peer', by rw [if_neg hne]; exact hroute, hpaxe⟩

theorem admissible_admitted {paxe : Paxe} {t : PaxeTransport} {peer other : PaxePeer} :
    Admissible paxe (t.admitted peer) other ↔
      Admissible paxe t other ∧ peer.node ≠ other.node ∧ peer.paxeId ≠ other.paxeId := by
  constructor
  · rintro ⟨hown, hnode, hid, hinstalls⟩
    simp only [admitted, OrdMap.get?_insert] at hnode hid
    split at hnode
    · cases hnode
    rename_i hne
    split at hid
    · cases hid
    rename_i hne'
    exact ⟨⟨hown, hnode, hid, hinstalls⟩, Ne.symm hne, Ne.symm hne'⟩
  · rintro ⟨⟨hown, hnode, hid, hinstalls⟩, hne, hne'⟩
    refine ⟨hown, ?_, ?_, hinstalls⟩
    · simp only [admitted, OrdMap.get?_insert, if_neg hne.symm, hnode]
    · simp only [admitted, OrdMap.get?_insert, if_neg hne'.symm, hid]

/-- Peers that can stand in one configuration. -/
def Apart (peer other : PaxePeer) : Prop :=
  peer.node ≠ other.node ∧ peer.paxeId ≠ other.paxeId

theorem admits_eq_ok {paxe : Paxe} {t t' : PaxeTransport} {peers : List PaxePeer} :
    peers.foldlM (mountPeer paxe) t = .ok t' ↔
      (∀ peer ∈ peers, Admissible paxe t peer) ∧ peers.Pairwise Apart ∧
        t' = peers.foldl admitted t := by
  induction peers generalizing t with
  | nil => simp [pure, Except.pure, eq_comm]
  | cons peer peers ih =>
    simp only [List.foldlM_cons, bind_eq_ok, admit_eq_ok, ih, List.forall_mem_cons,
      List.pairwise_cons, List.foldl_cons]
    constructor
    · rintro ⟨_, ⟨hpeer, rfl⟩, hpeers, hapart, rfl⟩
      exact ⟨⟨hpeer, fun other hmem => (admissible_admitted.mp (hpeers other hmem)).1⟩,
        ⟨fun other hmem => (admissible_admitted.mp (hpeers other hmem)).2, hapart⟩, rfl⟩
    · rintro ⟨⟨hpeer, hpeers⟩, ⟨hfirst, hapart⟩, rfl⟩
      exact ⟨_, ⟨hpeer, rfl⟩, fun other hmem => admissible_admitted.mpr
        ⟨hpeers other hmem, hfirst other hmem⟩, hapart, rfl⟩

theorem foldl_admitted {paxe : Paxe} {t : PaxeTransport} {peers : List PaxePeer} (h : Routed t)
    (hpeers : ∀ peer ∈ peers, Admissible paxe t peer) (hapart : peers.Pairwise Apart) :
    Routed (peers.foldl admitted t) ∧
      ∀ node peer, (peers.foldl admitted t).routes.get? node = some peer ↔
        t.routes.get? node = some peer ∨ peer ∈ peers ∧ peer.node = node := by
  induction peers generalizing t with
  | nil => exact ⟨h, by simp⟩
  | cons first peers ih =>
    obtain ⟨hfirst, hrest⟩ := List.forall_mem_cons.mp hpeers
    obtain ⟨hfirst_apart, hrest_apart⟩ := List.pairwise_cons.mp hapart
    obtain ⟨hrouted, hroutes⟩ := ih (h.admitted hfirst) (fun other hmem =>
      admissible_admitted.mpr ⟨hrest other hmem, hfirst_apart other hmem⟩) hrest_apart
    refine ⟨hrouted, fun node peer => ?_⟩
    rw [List.foldl_cons, hroutes]
    simp only [admitted, OrdMap.get?_insert, List.mem_cons]
    by_cases hnode : node = first.node
    · rw [if_pos hnode, hnode, hfirst.node_new]
      constructor
      · rintro (heq | hmem)
        · cases heq
          exact .inr ⟨.inl rfl, rfl⟩
        · exact .inr ⟨.inr hmem.1, hmem.2⟩
      · rintro (heq | ⟨rfl | hmem, heq⟩)
        · cases heq
        · exact .inl rfl
        · exact .inr ⟨hmem, heq⟩
    · rw [if_neg hnode]
      constructor
      · rintro (heq | hmem)
        · exact .inl heq
        · exact .inr ⟨.inr hmem.1, hmem.2⟩
      · rintro (heq | ⟨rfl | hmem, heq⟩)
        · exact .inl heq
        · exact absurd heq.symm hnode
        · exact .inr ⟨hmem, heq⟩

/-- A configuration and an environment a transport mounts in. -/
structure Mountable (paxe : Paxe) (config : PaxeConfig) : Prop where
  startup : paxe.startupCheck = true
  epoch : config.epoch < epochBound
  allocates : paxe.allocates config.paxeId = true
  installs : ∀ peer ∈ config.peers, paxe.installs peer.paxeId = true
  other : ∀ peer ∈ config.peers, peer.node ≠ config.own
  apart : config.peers.Pairwise Apart

theorem mount_eq_ok {paxe : Paxe} {config : PaxeConfig} {t : PaxeTransport} :
    mount paxe config = .ok t ↔
      Mountable paxe config ∧ t = config.peers.foldl admitted (bare config) := by
  have hbare : ∀ peer, Admissible paxe (bare config) peer ↔
      peer.node ≠ config.own ∧ paxe.installs peer.paxeId = true :=
    fun peer => ⟨fun h => ⟨h.other, h.installs⟩, fun h => ⟨h.1, rfl, rfl, h.2⟩⟩
  unfold mount
  split
  · rename_i hstartup
    exact ⟨by simp, fun h => by simp [h.1.startup] at hstartup⟩
  rename_i hstartup
  split
  · rename_i hepoch
    exact ⟨by simp, fun h => absurd h.1.epoch (Nat.not_lt.mpr hepoch)⟩
  rename_i hepoch
  split
  · rename_i hallocates
    exact ⟨by simp, fun h => by simp [h.1.allocates] at hallocates⟩
  rename_i hallocates
  rw [admits_eq_ok]
  simp only [hbare]
  constructor
  · rintro ⟨hpeers, hapart, rfl⟩
    exact ⟨⟨by simpa using hstartup, Nat.lt_of_not_le hepoch, by simpa using hallocates,
      fun peer hmem => (hpeers peer hmem).2, fun peer hmem => (hpeers peer hmem).1, hapart⟩, rfl⟩
  · rintro ⟨h, rfl⟩
    exact ⟨fun peer hmem => ⟨h.other peer hmem, h.installs peer hmem⟩, h.apart, rfl⟩

/-- The routes of a mounted transport are its configuration. -/
theorem mount_routes {paxe : Paxe} {config : PaxeConfig} {t : PaxeTransport}
    (hmount : mount paxe config = .ok t) : Routed t ∧
      ∀ node peer, t.routes.get? node = some peer ↔ peer ∈ config.peers ∧ peer.node = node := by
  obtain ⟨h, rfl⟩ := mount_eq_ok.mp hmount
  have hempty : Routed (bare config) :=
    ⟨fun _ _ hroute => (Option.some_ne_none _ hroute.symm).elim,
      fun _ _ hid => (Option.some_ne_none _ hid.symm).elim⟩
  obtain ⟨hrouted, hroutes⟩ := @foldl_admitted paxe _ _ hempty (fun peer hmem =>
    ⟨h.other peer hmem, rfl, rfl, h.installs peer hmem⟩) h.apart
  refine ⟨hrouted, fun node peer => (hroutes node peer).trans ⟨?_, .inr⟩⟩
  rintro (heq | hmem)
  · cases heq
  · exact hmem

/-- **A transport mounts exactly where every check passes**, and then the peers it sends to are
those configured, and it attributes what it receives to the same. Addresses are not compared. -/
theorem mount_routed (paxe : Paxe) (config : PaxeConfig) :
    ((∃ t, mount paxe config = .ok t) ↔ Mountable paxe config) ∧
      ∀ t, mount paxe config = .ok t → Routed t ∧
        ∀ node peer, t.routes.get? node = some peer ↔
          peer ∈ config.peers ∧ peer.node = node :=
  ⟨⟨fun ⟨_, h⟩ => (mount_eq_ok.mp h).1, fun h => ⟨_, mount_eq_ok.mpr ⟨h, rfl⟩⟩⟩,
    fun _ hmount => mount_routes hmount⟩

/-- Two nodes, each the other's one peer. -/
def oneConfig : PaxeConfig := ⟨1, 11, 0, 3, [⟨2, 12, 7002, [5]⟩]⟩

def twoConfig : PaxeConfig := ⟨2, 12, 0, 3, [⟨1, 11, 7001, [5]⟩]⟩

def oneEnd : PaxeTransport := oneConfig.peers.foldl admitted (bare oneConfig)

def twoEnd : PaxeTransport := twoConfig.peers.foldl admitted (bare twoConfig)

theorem mount_routed_oneEnd : Routed oneEnd ∧ ∀ node peer, oneEnd.routes.get? node = some peer ↔
    peer ∈ oneConfig.peers ∧ peer.node = node :=
  (mount_routed clearPaxe oneConfig).2 oneEnd rfl

/-! ### Accounts -/

/-- A release that is asked for, and whether the socket would accept it. -/
structure Request where
  recipient : Nat
  message : WireMessage
  nonce : Nat
  accepted : Bool

/-- A call on a transport, with what the socket answers. -/
inductive Call where
  | wait (read : SocketRead)
  | ready (read : SocketRead)
  | receive (reads : List SocketRead)
  | send (request : Request)

/-- The datagrams that reads took and kept. -/
def datagrams (reads : List SocketRead) : List (List UInt8) :=
  reads.filterMap fun read => ((readDatagram read).toOption.bind id)

/-- The datagrams that reads took and lost to the socket's mode. -/
def losses (reads : List SocketRead) : List (List UInt8) :=
  reads.filterMap fun
    | .lost bytes => some bytes
    | _ => none

/-- All datagrams that reads took. -/
def SocketRead.taken : SocketRead → Option (List UInt8)
  | .datagram bytes | .lost bytes => some bytes
  | _ => none

/-- How many reads came back as failures. -/
def failures (reads : List SocketRead) : Nat :=
  reads.countP fun read => decide ((readDatagram read).toOption = none)

/-- What becomes of a release. -/
inductive Fate where
  | unaddressed
  | unsealed
  | refused
  | sent (datagram : Sent)
deriving DecidableEq

def Fate.out : Fate → Option Sent
  | .sent datagram => some datagram
  | _ => none

/-- **What stops a release**: that the recipient has no route, that the frame cannot be sealed, or
that the socket does not accept it. -/
def Request.fate (paxe : Paxe) (t : PaxeTransport) (request : Request) : Fate :=
  match t.routes.get? request.recipient with
  | none => .unaddressed
  | some peer =>
    match paxe.sealFrame t.store peer.paxeId t.channel t.epoch request.nonce request.message.pack with
    | none => .unsealed
    | some frame => if request.accepted then .sent ⟨peer.address, frame⟩ else .refused

/-- A frame that went out: for whom, and with what message in it. -/
structure Release where
  recipient : Nat
  message : WireMessage
  sent : Sent

/-- The reads of the socket, all of them and those of a receive, what was delivered, in order, and
what was asked to be released and went out. Nothing reads it. -/
structure Account where
  reads : List SocketRead
  received : List SocketRead
  delivered : List (Nat × WireMessage)
  asked : List Request
  wire : List Release

def Account.opened : Account := ⟨[], [], [], [], []⟩

/-- **One call**, with its account. -/
def call (paxe : Paxe) : PaxeTransport × Account → Call → PaxeTransport × Account
  | (t, a), .wait read =>
    ((t.wait read).1, if t.held.isSome then a else { a with reads := a.reads ++ [read] })
  | (t, a), .ready read =>
    ((t.ready read).1, if t.held.isSome then a else { a with reads := a.reads ++ [read] })
  | (t, a), .receive reads =>
    let (t', out, rest) := t.receive paxe reads
    let used := reads.take (reads.length - rest.length)
    (t',
      { a with
        reads := a.reads ++ used
        received := a.received ++ used
        delivered := a.delivered ++ out.toList })
  | (t, a), .send request =>
    let (t', out) := t.send paxe request.recipient request.message request.nonce request.accepted
    (t',
      { a with
        asked := a.asked ++ [request]
        wire := a.wire ++ out.toList.map fun sent => ⟨request.recipient, request.message, sent⟩ })

/-- A transport that differs in what is held and in its counters alone. -/
structure Same (t t' : PaxeTransport) : Prop where
  store : t'.store = t.store
  channel : t'.channel = t.channel
  epoch : t'.epoch = t.epoch
  own : t'.own = t.own
  routes : t'.routes = t.routes
  identities : t'.identities = t.identities

theorem Same.opened {t t' : PaxeTransport} (h : Same t t') (paxe : Paxe) :
    opened paxe t' = opened paxe t := by
  funext bytes
  rw [PaxeTransport.opened, PaxeTransport.opened, h.store, h.identities]

theorem Same.fate {t t' : PaxeTransport} (h : Same t t') (paxe : Paxe) (request : Request) :
    request.fate paxe t' = request.fate paxe t := by
  rw [Request.fate, Request.fate, h.store, h.channel, h.epoch, h.routes]

/-- How many of these do not open. -/
def useless (paxe : Paxe) (t : PaxeTransport) (taken : List (List UInt8)) : Nat :=
  taken.countP fun bytes => (opened paxe t bytes).isNone

/-- The frames that went out for these requests. -/
def released (paxe : Paxe) (t : PaxeTransport) (asked : List Request) : List Release :=
  asked.filterMap fun request =>
    (request.fate paxe t).out.map fun sent => ⟨request.recipient, request.message, sent⟩

/-- **Where every datagram is**, of the transport `t₀` once mounted: lost as it was read, or kept
and processed, up to one that is held. What was processed was delivered if it opens, else dropped. -/
structure Inbound (paxe : Paxe) (t₀ t : PaxeTransport) (a : Account) : Prop where
  taken : (a.reads.filterMap SocketRead.taken).Perm (datagrams a.reads ++ losses a.reads)
  kept : ∃ processed, datagrams a.reads = processed ++ t.held.toList ∧
    a.delivered = processed.filterMap (opened paxe t₀) ∧ t.dropped = useless paxe t₀ processed

/-- **Where every release is**: each counter is the number of those that came to its end. A failure
of the socket is a release it refused, or a read of a receive that failed or lost its datagram. -/
structure Outbound (paxe : Paxe) (t₀ t : PaxeTransport) (a : Account) : Prop where
  wire : a.wire = released paxe t₀ a.asked
  sent : t.sent = a.wire.length
  unaddressed : t.unaddressed = (a.asked.map (Request.fate paxe t₀)).count .unaddressed
  unsealed : t.unsealed = (a.asked.map (Request.fate paxe t₀)).count .unsealed
  ioFailures : t.ioFailures =
    (a.asked.map (Request.fate paxe t₀)).count .refused + failures a.received

structure Balanced (paxe : Paxe) (t₀ t : PaxeTransport) (a : Account) : Prop where
  same : Same t₀ t
  inbound : Inbound paxe t₀ t a
  outbound : Outbound paxe t₀ t a

/-- What a receive takes, delivers and drops. -/
structure Received (paxe : Paxe) (t t' : PaxeTransport) (reads rest : List SocketRead)
    (out : Option (Nat × WireMessage)) : Prop where
  same : Same t t'
  held : t'.held = none
  outbound : t'.sent = t.sent ∧ t'.unaddressed = t.unaddressed ∧ t'.unsealed = t.unsealed
  used : ∃ used, reads = used ++ rest ∧
    out.toList = (t.held.toList ++ datagrams used).filterMap (opened paxe t) ∧
    t'.dropped = t.dropped + useless paxe t (t.held.toList ++ datagrams used) ∧
    t'.ioFailures = t.ioFailures + failures used

theorem datagrams_append (reads more : List SocketRead) :
    datagrams (reads ++ more) = datagrams reads ++ datagrams more :=
  List.filterMap_append

theorem datagrams_cons (read : SocketRead) (reads : List SocketRead) :
    datagrams (read :: reads) = datagrams [read] ++ datagrams reads :=
  datagrams_append [read] reads

theorem failures_cons (read : SocketRead) (reads : List SocketRead) :
    failures (read :: reads) = failures [read] + failures reads := by
  rw [failures, ← List.singleton_append, List.countP_append]
  rfl

/-- A datagram that is taken is kept or lost. -/
theorem taken_perm (reads : List SocketRead) :
    (reads.filterMap SocketRead.taken).Perm (datagrams reads ++ losses reads) := by
  induction reads with
  | nil => exact .nil
  | cons read reads ih =>
    cases read with
    | refused | empty => exact ih
    | datagram bytes => exact ih.cons bytes
    | lost bytes => exact (ih.cons bytes).trans List.perm_middle.symm

theorem Same.refl {t : PaxeTransport} : Same t t := ⟨rfl, rfl, rfl, rfl, rfl, rfl⟩

theorem Same.trans {t t' t'' : PaxeTransport} (h : Same t t') (h' : Same t' t'') : Same t t'' :=
  ⟨h'.store.trans h.store, h'.channel.trans h.channel, h'.epoch.trans h.epoch, h'.own.trans h.own,
    h'.routes.trans h.routes, h'.identities.trans h.identities⟩

theorem receiveFresh_spec {paxe : Paxe} {t : PaxeTransport} (hheld : t.held = none)
    (reads : List SocketRead) :
    Received paxe t (receiveFresh paxe t reads).1 reads (receiveFresh paxe t reads).2.2
      (receiveFresh paxe t reads).2.1 := by
  induction reads generalizing t with
  | nil => exact ⟨Same.refl, hheld, ⟨rfl, rfl, rfl⟩, [], rfl, by simp [receiveFresh, hheld, datagrams],
      by simp [receiveFresh, hheld, datagrams, useless], by simp [receiveFresh, failures]⟩
  | cons read reads ih =>
    rw [receiveFresh]
    cases hread : readDatagram read with
    | error e =>
      have hnone : datagrams [read] = [] := by simp [datagrams, hread, Except.toOption]
      have hone : failures [read] = 1 := by simp [failures, hread, Except.toOption]
      exact ⟨⟨rfl, rfl, rfl, rfl, rfl, rfl⟩, hheld, ⟨rfl, rfl, rfl⟩, [read], rfl,
        by simp [hheld, hnone], by simp [hheld, hnone, useless], by simp [hone]⟩
    | ok found =>
      have hkept : failures [read] = 0 := by simp [failures, hread, Except.toOption]
      cases found with
      | none =>
        have hnone : datagrams [read] = [] := by simp [datagrams, hread, Except.toOption]
        exact ⟨Same.refl, hheld, ⟨rfl, rfl, rfl⟩, [read], rfl, by simp [hheld, hnone],
          by simp [hheld, hnone, useless], by simp [hkept]⟩
      | some bytes =>
        have hone : datagrams [read] = [bytes] := by simp [datagrams, hread, Except.toOption]
        cases hopened : opened paxe t bytes with
        | some attributed =>
          simp only [hopened]
          exact ⟨Same.refl, hheld, ⟨rfl, rfl, rfl⟩, [read], rfl, by simp [hheld, hone, hopened],
            by simp [hheld, hone, useless, hopened], by simp [hkept]⟩
        | none =>
          simp only [hopened]
          obtain ⟨hsame, hheld', hout, used, hused, hdelivered, hdropped, hfailures⟩ :=
            @ih { t with dropped := t.dropped + 1 } hheld
          have hsame' : Same t { t with dropped := t.dropped + 1 } := ⟨rfl, rfl, rfl, rfl, rfl, rfl⟩
          refine ⟨hsame'.trans hsame, hheld', hout, read :: used, congrArg (List.cons read) hused,
            ?_, ?_, ?_⟩
          · rw [hdelivered, datagrams_cons, hone]
            simp only [hheld, Option.toList_none, List.nil_append, List.singleton_append,
              List.filterMap_cons, hopened]
            rfl
          · rw [hdropped, datagrams_cons, hone, useless, useless, hsame'.opened paxe]
            simp only [hheld, Option.toList_none, List.nil_append, List.singleton_append,
              List.countP_cons, hopened, Option.isNone_none, if_true]
            omega
          · rw [hfailures, failures_cons, hkept, Nat.zero_add]

theorem receive_spec (paxe : Paxe) (t : PaxeTransport) (reads : List SocketRead) :
    Received paxe t (t.receive paxe reads).1 reads (t.receive paxe reads).2.2
      (t.receive paxe reads).2.1 := by
  rw [receive]
  cases hheld : t.held with
  | none => exact receiveFresh_spec hheld reads
  | some bytes =>
    have hcleared : Same t { t with held := none } := ⟨rfl, rfl, rfl, rfl, rfl, rfl⟩
    have hopens : opened paxe { t with held := none } bytes = opened paxe t bytes := rfl
    simp only [hopens]
    cases hopened : opened paxe t bytes with
    | some attributed =>
      exact ⟨hcleared, rfl, ⟨rfl, rfl, rfl⟩, [], rfl, by simp [hheld, datagrams, hopened],
        by simp [hheld, datagrams, useless, hopened], rfl⟩
    | none =>
      have hdrop : Same t { t with held := none, dropped := t.dropped + 1 } :=
        ⟨rfl, rfl, rfl, rfl, rfl, rfl⟩
      obtain ⟨hsame, hheld', hout, used, hused, hdelivered, hdropped, hfailures⟩ :=
        @receiveFresh_spec paxe { t with held := none, dropped := t.dropped + 1 } rfl reads
      refine ⟨hdrop.trans hsame, hheld', hout, used, hused, ?_, ?_, hfailures⟩
      · rw [hdelivered, hdrop.opened paxe, hheld]
        simp [hopened]
      · rw [hdropped, hheld, useless, useless, hdrop.opened paxe]
        simp only [Option.toList_none, Option.toList_some, List.nil_append, List.singleton_append,
          List.countP_cons, hopened, Option.isNone_none, if_true]
        omega

/-- The transport with a release counted under what became of it. -/
def counted (t : PaxeTransport) : Fate → PaxeTransport
  | .unaddressed => { t with unaddressed := t.unaddressed + 1 }
  | .unsealed => { t with unsealed := t.unsealed + 1 }
  | .refused => { t with ioFailures := t.ioFailures + 1 }
  | .sent _ => { t with sent := t.sent + 1 }

/-- **A release is counted under what became of it**: a message always packs. -/
theorem send_eq (paxe : Paxe) (t : PaxeTransport) (request : Request) :
    t.send paxe request.recipient request.message request.nonce request.accepted =
      (t.counted (request.fate paxe t), (request.fate paxe t).out) := by
  have hpack : packInto request.message.pack request.message.packedLen
      (List.replicate request.message.packedLen 0) =
        some (.ok (request.message.packedLen, request.message.pack)) := by
    rw [packInto_of_length request.message.pack_length (List.length_replicate ..).ge]
    simp
  rw [send, Request.fate]
  cases t.routes.get? request.recipient with
  | none => rfl
  | some peer =>
    simp only [hpack]
    cases paxe.sealFrame t.store peer.paxeId t.channel t.epoch request.nonce
        request.message.pack with
    | none => rfl
    | some frame =>
      cases haccepted : request.accepted with
      | false => simp [counted, Fate.out]
      | true => simp [counted, Fate.out]

/-- A transport behind a probe of the socket. -/
def probed (t : PaxeTransport) (read : SocketRead) : PaxeTransport :=
  if t.held.isSome then t else { t with held := (datagrams [read]).head? }

theorem wait_eq (t : PaxeTransport) (read : SocketRead) : (t.wait read).1 = t.probed read := by
  obtain ⟨_, _, _, _, _, _, held, _, _, _, _, _⟩ := t
  cases held with
  | none =>
    cases read
    all_goals rfl
  | some bytes => rfl

theorem ready_eq (t : PaxeTransport) (read : SocketRead) : (t.ready read).1 = t.probed read := by
  obtain ⟨_, _, _, _, _, _, held, _, _, _, _, _⟩ := t
  cases held with
  | none =>
    cases read
    all_goals rfl
  | some bytes => rfl

theorem Balanced.probed {paxe : Paxe} {t₀ t : PaxeTransport} {a : Account}
    (h : Balanced paxe t₀ t a) (read : SocketRead) :
    Balanced paxe t₀ (t.probed read)
      (if t.held.isSome then a else { a with reads := a.reads ++ [read] }) := by
  obtain ⟨processed, hkept, hdelivered, hdropped⟩ := h.inbound.kept
  cases hheld : t.held with
  | some bytes =>
    rw [PaxeTransport.probed, hheld]
    exact h
  | none =>
    rw [PaxeTransport.probed, hheld]
    refine ⟨h.same.trans ⟨rfl, rfl, rfl, rfl, rfl, rfl⟩,
      ⟨taken_perm _, processed, ?_, hdelivered, hdropped⟩,
      ⟨h.outbound.wire, h.outbound.sent, h.outbound.unaddressed, h.outbound.unsealed,
        h.outbound.ioFailures⟩⟩
    rw [hheld, Option.toList_none, List.append_nil] at hkept
    simp only [Option.isSome_none, Bool.false_eq_true, if_false]
    rw [datagrams_append, hkept]
    cases read
    all_goals rfl

/-- The reads a receive performed, from those it left. -/
theorem take_used {reads used rest : List SocketRead} (h : reads = used ++ rest) :
    reads.take (reads.length - rest.length) = used := by
  subst h
  simp

theorem Balanced.receive {paxe : Paxe} {t₀ t : PaxeTransport} {a : Account}
    (h : Balanced paxe t₀ t a) (reads : List SocketRead) :
    Balanced paxe t₀ (PaxeTransport.call paxe (t, a) (.receive reads)).1
      (PaxeTransport.call paxe (t, a) (.receive reads)).2 := by
  obtain ⟨processed, hkept, hdelivered, hdropped⟩ := h.inbound.kept
  obtain ⟨hsame, hheld, ⟨hsent, hunaddressed, hunsealed⟩, used, hused, hout, hdrop, hfailures⟩ :=
    receive_spec paxe t reads
  have hread : reads.take (reads.length - (t.receive paxe reads).2.2.length) = used :=
    take_used hused
  simp only [PaxeTransport.call, hread]
  refine ⟨h.same.trans hsame, ⟨taken_perm _, processed ++ (t.held.toList ++ datagrams used),
    ?_, ?_, ?_⟩, ⟨h.outbound.wire, hsent.trans h.outbound.sent,
      hunaddressed.trans h.outbound.unaddressed, hunsealed.trans h.outbound.unsealed, ?_⟩⟩
  · rw [hheld, datagrams_append, hkept, Option.toList_none, List.append_nil, List.append_assoc]
  · simp only [hdelivered, hout, h.same.opened paxe, List.filterMap_append]
  · simp only [hdrop, hdropped, useless, h.same.opened paxe, List.countP_append]
  · rw [hfailures, h.outbound.ioFailures, failures, failures, failures, List.countP_append,
      Nat.add_assoc]

/-- A release goes to the one account it belongs to. -/
theorem Outbound.counted {paxe : Paxe} {t₀ t : PaxeTransport} {a : Account}
    (h : Outbound paxe t₀ t a) (request : Request) :
    Outbound paxe t₀ (t.counted (request.fate paxe t₀))
      { a with
        asked := a.asked ++ [request]
        wire := a.wire ++ (request.fate paxe t₀).out.toList.map fun sent =>
          ⟨request.recipient, request.message, sent⟩ } := by
  obtain ⟨hwire, hsent, hunaddressed, hunsealed, hfailures⟩ := h
  have hreleased : released paxe t₀ (a.asked ++ [request]) =
      a.wire ++ (request.fate paxe t₀).out.toList.map fun sent =>
        ⟨request.recipient, request.message, sent⟩ := by
    rw [released, List.filterMap_append, hwire, released]
    cases hfate : (request.fate paxe t₀).out with
    | none => simp [hfate]
    | some sent => simp [hfate]
  refine ⟨hreleased.symm, ?_, ?_, ?_, ?_⟩
  all_goals
    simp only [List.map_append, List.map_cons, List.map_nil, List.count_append, List.length_append]
    cases request.fate paxe t₀
    all_goals simp [PaxeTransport.counted, Fate.out, *]
  all_goals omega

theorem Balanced.send {paxe : Paxe} {t₀ t : PaxeTransport} {a : Account}
    (h : Balanced paxe t₀ t a) (request : Request) :
    Balanced paxe t₀ (PaxeTransport.call paxe (t, a) (.send request)).1
      (PaxeTransport.call paxe (t, a) (.send request)).2 := by
  have hcounted : ∀ fate, Same t (t.counted fate) ∧ (t.counted fate).held = t.held ∧
      (t.counted fate).dropped = t.dropped := by
    intro fate
    cases fate
    all_goals exact ⟨⟨rfl, rfl, rfl, rfl, rfl, rfl⟩, rfl, rfl⟩
  obtain ⟨hsame, hheld, hdropped⟩ := hcounted (request.fate paxe t₀)
  simp only [PaxeTransport.call, send_eq, h.same.fate paxe request]
  refine ⟨h.same.trans hsame, ⟨h.inbound.taken, ?_⟩, h.outbound.counted request⟩
  rw [hheld, hdropped]
  exact h.inbound.kept

theorem Balanced.call {paxe : Paxe} {t₀ t : PaxeTransport} {a : Account}
    (h : Balanced paxe t₀ t a) (c : Call) :
    Balanced paxe t₀ (PaxeTransport.call paxe (t, a) c).1 (PaxeTransport.call paxe (t, a) c).2 := by
  cases c with
  | wait read =>
    simp only [PaxeTransport.call, wait_eq]
    exact h.probed read
  | ready read =>
    simp only [PaxeTransport.call, ready_eq]
    exact h.probed read
  | receive reads => exact h.receive reads
  | send request => exact h.send request

theorem Balanced.calls {paxe : Paxe} {t₀ t : PaxeTransport} {a : Account}
    (h : Balanced paxe t₀ t a) (calls : List Call) :
    Balanced paxe t₀ (calls.foldl (PaxeTransport.call paxe) (t, a)).1
      (calls.foldl (PaxeTransport.call paxe) (t, a)).2 := by
  induction calls generalizing t a with
  | nil => exact h
  | cons c calls ih => exact ih (h.call c)

theorem foldl_admitted_counters (t : PaxeTransport) (peers : List PaxePeer) :
    (peers.foldl admitted t).held = t.held ∧ (peers.foldl admitted t).sent = t.sent ∧
      (peers.foldl admitted t).dropped = t.dropped ∧
      (peers.foldl admitted t).unaddressed = t.unaddressed ∧
      (peers.foldl admitted t).unsealed = t.unsealed ∧
      (peers.foldl admitted t).ioFailures = t.ioFailures := by
  induction peers generalizing t with
  | nil => exact ⟨rfl, rfl, rfl, rfl, rfl, rfl⟩
  | cons peer peers ih => exact ih (t.admitted peer)

theorem mount_balanced {paxe : Paxe} {config : PaxeConfig} {t : PaxeTransport}
    (hmount : mount paxe config = .ok t) : Balanced paxe t t Account.opened := by
  obtain ⟨-, rfl⟩ := mount_eq_ok.mp hmount
  obtain ⟨hheld, hsent, hdropped, hunaddressed, hunsealed, hfailures⟩ :=
    foldl_admitted_counters (bare config) config.peers
  refine ⟨Same.refl, ⟨.nil, [], ?_, rfl, hdropped⟩, rfl, hsent, hunaddressed, hunsealed, hfailures⟩
  rw [hheld]
  rfl

/-- **Every datagram and every release is accounted for**, over any calls on a mounted transport
and whatever the socket answers. -/
theorem datagrams_accounted {paxe : Paxe} {config : PaxeConfig} {t₀ : PaxeTransport}
    (hmount : mount paxe config = .ok t₀) (calls : List Call) :
    Balanced paxe t₀ (calls.foldl (call paxe) (t₀, Account.opened)).1
      (calls.foldl (call paxe) (t₀, Account.opened)).2 :=
  (mount_balanced hmount).calls calls

/-- A commit of the first view. -/
def commitMessage (slot : Nat) : WireMessage := ⟨⟨.commit, ⟨0, 0⟩, slot⟩, .commit slot⟩

/-- A datagram lost to a probe, one that does not open, a read that is refused, and a release each
that has no route, is refused, and goes out. -/
def mixedCalls : List Call :=
  [.ready (.lost [1]), .receive [.datagram [], .refused], .send ⟨7, commitMessage 1, 0, true⟩,
    .send ⟨1, commitMessage 1, 0, false⟩, .send ⟨1, commitMessage 1, 0, true⟩]

theorem datagrams_accounted_twoEnd : Balanced clearPaxe twoEnd
    (mixedCalls.foldl (call clearPaxe) (twoEnd, Account.opened)).1
    (mixedCalls.foldl (call clearPaxe) (twoEnd, Account.opened)).2 :=
  @datagrams_accounted clearPaxe twoConfig twoEnd rfl _

/-! ### Two ends of a link -/

/-- What went out is the message, packed and sealed for its recipient. -/
def Sealed (paxe : Paxe) (t : PaxeTransport) (release : Release) : Prop :=
  ∃ nonce peer, t.routes.get? release.recipient = some peer ∧
    paxe.sealFrame t.store peer.paxeId t.channel t.epoch nonce release.message.pack =
      some release.sent.frame

/-- What the account has on the wire was sealed. -/
theorem Outbound.sealed {paxe : Paxe} {t₀ t : PaxeTransport} {a : Account}
    (h : Outbound paxe t₀ t a) : ∀ release ∈ a.wire, Sealed paxe t₀ release := by
  rw [h.wire]
  intro release hmem
  obtain ⟨request, -, hrelease⟩ := List.mem_filterMap.mp hmem
  obtain ⟨sent, hsent, rfl⟩ := Option.map_eq_some_iff.mp hrelease
  unfold Request.fate at hsent
  split at hsent
  · cases hsent
  rename_i peer hroute
  split at hsent
  · cases hsent
  rename_i frame hseal
  split at hsent
  · cases hsent
    exact ⟨request.nonce, peer, hroute, hseal⟩
  · cases hsent

/-- **A link**: two configurations, and in each the peer that is the other. -/
structure Link (source destination : PaxeConfig) (towards back : PaxePeer) : Prop where
  towards_mem : towards ∈ source.peers
  back_mem : back ∈ destination.peers
  towards_id : towards.paxeId = destination.paxeId
  back_id : back.paxeId = source.paxeId
  key : towards.link = back.link
  epoch : source.epoch = destination.epoch

theorem mount_static {paxe : Paxe} {config : PaxeConfig} {t : PaxeTransport}
    (hmount : mount paxe config = .ok t) : t.store.own = config.paxeId ∧ t.epoch = config.epoch := by
  obtain ⟨-, rfl⟩ := mount_eq_ok.mp hmount
  have hstatic : ∀ (peers : List PaxePeer) (t : PaxeTransport),
      (peers.foldl admitted t).store.own = t.store.own ∧
        (peers.foldl admitted t).epoch = t.epoch := by
    intro peers
    induction peers with
    | nil => exact fun t => ⟨rfl, rfl⟩
    | cons peer peers ih => exact fun t => ih (t.admitted peer)
  exact hstatic config.peers (bare config)

/-- **What one end releases opens at the other**, as the message it was. -/
theorem Sealed.opens {paxe : Paxe} (hpaxe : paxe.Opens) {source destination : PaxeConfig}
    {towards back : PaxePeer} (hlink : Link source destination towards back)
    {s d : PaxeTransport} (hs : mount paxe source = .ok s) (hd : mount paxe destination = .ok d)
    {release : Release} (hsealed : Sealed paxe s release)
    (hrecipient : release.recipient = towards.node) (hvalid : release.message.Encodable) :
    opened paxe d release.sent.frame = some (back.node, release.message) := by
  obtain ⟨hrouted, hroutes⟩ := mount_routes hs
  obtain ⟨hrouted', hroutes'⟩ := mount_routes hd
  obtain ⟨hown, hepoch⟩ := mount_static hs
  obtain ⟨hown', hepoch'⟩ := mount_static hd
  have hto : s.routes.get? towards.node = some towards :=
    (hroutes _ _).mpr ⟨hlink.towards_mem, rfl⟩
  have hfrom : d.routes.get? back.node = some back := (hroutes' _ _).mpr ⟨hlink.back_mem, rfl⟩
  obtain ⟨-, -, -, hkey⟩ := hrouted.route _ _ hto
  obtain ⟨-, -, hid, hkey'⟩ := hrouted'.route _ _ hfrom
  obtain ⟨nonce, peer, hroute, hseal⟩ := hsealed
  rw [hrecipient, hto] at hroute
  obtain rfl := Option.some.inj hroute
  rw [hlink.towards_id, ← hown'] at hseal hkey
  rw [hlink.back_id, ← hown] at hid hkey'
  have hepochs : d.epoch = s.epoch := hepoch'.trans (hlink.epoch.symm.trans hepoch.symm)
  obtain ⟨slice, hopen, hbytes⟩ := hpaxe s.store d.store s.channel s.epoch nonce _ _ hseal
    (by rw [hkey, ← hepochs, hkey', hlink.key])
  have hmessage := (unpackFrom_eq_ok WireMessage.unpack_decodes).mpr ⟨hvalid, hbytes⟩
  simp only [opened, hopen, Option.bind_some, hid, hmessage, Except.toOption, Option.map_some]

/-- Frames that all open. -/
theorem filterMap_opened {paxe : Paxe} {d : PaxeTransport} {node : Nat} {releases : List Release}
    (h : ∀ release ∈ releases,
      opened paxe d release.sent.frame = some (node, release.message)) :
    (releases.map fun release => release.sent.frame).filterMap (opened paxe d) =
        releases.map (fun release => (node, release.message)) ∧
      useless paxe d (releases.map fun release => release.sent.frame) = 0 := by
  induction releases with
  | nil => exact ⟨rfl, rfl⟩
  | cons release releases ih =>
    obtain ⟨hfirst, hrest⟩ := List.forall_mem_cons.mp h
    obtain ⟨hdelivered, huseless⟩ := ih hrest
    refine ⟨?_, ?_⟩
    · rw [List.map_cons, List.filterMap_cons, hfirst, hdelivered, List.map_cons]
    · rw [useless, List.map_cons, List.countP_cons, hfirst]
      exact huseless

/-- **A link carries.** Two transports mounted on its ends are called in any way. If the frames the
destination took off its socket and kept are ones the source released to it, lost, repeated and
reordered however the network likes, then it has delivered the first of those messages in that
order, attributed to the source, the rest is the datagram it holds, if it holds one, and it has
dropped nothing. -/
theorem carried {paxe : Paxe} (hpaxe : paxe.Opens) {source destination : PaxeConfig}
    {towards back : PaxePeer} (hlink : Link source destination towards back)
    {s d : PaxeTransport} (hs : mount paxe source = .ok s) (hd : mount paxe destination = .ok d)
    (calls calls' : List Call) {releases : List Release}
    (hreleases : ∀ release ∈ releases,
      release ∈ (calls.foldl (call paxe) (s, Account.opened)).2.wire ∧
        release.recipient = towards.node ∧ release.message.Encodable)
    (hnetwork : datagrams (calls'.foldl (call paxe) (d, Account.opened)).2.reads =
      releases.map fun release => release.sent.frame) :
    let after := calls'.foldl (call paxe) (d, Account.opened)
    ∃ first last, releases = first ++ last ∧
      after.2.delivered = first.map (fun release => (back.node, release.message)) ∧
      after.1.held.toList = last.map (fun release => release.sent.frame) ∧
      after.1.dropped = 0 := by
  have hsealed := ((mount_balanced hs).calls calls).outbound.sealed
  obtain ⟨processed, hkept, hdelivered, hdropped⟩ := ((mount_balanced hd).calls calls').inbound.kept
  intro after
  have hopens : ∀ release ∈ releases,
      opened paxe d release.sent.frame = some (back.node, release.message) := by
    intro release hmem
    obtain ⟨hwire, hrecipient, hvalid⟩ := hreleases release hmem
    exact (hsealed release hwire).opens hpaxe hlink hs hd hrecipient hvalid
  -- what was processed are the frames of the first releases
  obtain ⟨first, last, rfl, hfirst, hlast⟩ := List.map_eq_append_iff.mp (hnetwork.symm.trans hkept)
  obtain ⟨hall, huseless⟩ :=
    filterMap_opened fun release hmem => hopens release (List.mem_append_left last hmem)
  rw [hfirst] at hall huseless
  exact ⟨first, last, rfl, hdelivered.trans hall, hlast.symm, hdropped.trans huseless⟩

theorem oneTwo_link : Link oneConfig twoConfig ⟨2, 12, 7002, [5]⟩ ⟨1, 11, 7001, [5]⟩ where
  towards_mem := List.mem_singleton.mpr rfl
  back_mem := List.mem_singleton.mpr rfl
  towards_id := rfl
  back_id := rfl
  key := rfl
  epoch := rfl

def commitRelease (slot : Nat) : Release :=
  ⟨2, commitMessage slot, ⟨7002, 11 :: (commitMessage slot).pack⟩⟩

/-- Two commits sent; the second is taken first, by a probe, and once more, by a wait. -/
theorem carried_reordered :
    let after := [Call.ready (.datagram (commitRelease 2).sent.frame), .receive [.lost [1]],
      .receive [.datagram (commitRelease 1).sent.frame],
      .wait (.datagram (commitRelease 2).sent.frame)].foldl (call clearPaxe)
        (twoEnd, Account.opened)
    ∃ first last, [commitRelease 2, commitRelease 1, commitRelease 2] = first ++ last ∧
      after.2.delivered = first.map (fun release => (1, release.message)) ∧
      after.1.held.toList = last.map (fun release => release.sent.frame) ∧
      after.1.dropped = 0 := by
  have hvalid : ∀ slot < u64Bound, (commitMessage slot).Encodable :=
    fun slot hslot => ⟨⟨⟨Nat.two_pow_pos 32, Nat.two_pow_pos 32⟩, hslot⟩, hslot, rfl⟩
  have hreleases : ∀ release ∈ [commitRelease 2, commitRelease 1, commitRelease 2],
      release ∈ ([Call.send ⟨2, commitMessage 1, 0, true⟩,
        .send ⟨2, commitMessage 2, 1, true⟩].foldl
          (call clearPaxe) (oneEnd, Account.opened)).2.wire ∧
        release.recipient = 2 ∧ release.message.Encodable := by
    intro release hmem
    change release ∈ [commitRelease 1, commitRelease 2] ∧ _
    simp only [List.mem_cons, List.not_mem_nil, or_false] at hmem
    rcases hmem with rfl | rfl | rfl
    · exact ⟨by simp, rfl, hvalid 2 (by decide)⟩
    · exact ⟨by simp, rfl, hvalid 1 (by decide)⟩
    · exact ⟨by simp, rfl, hvalid 2 (by decide)⟩
  exact carried clearPaxe_opens oneTwo_link rfl rfl _ _ hreleases rfl

end PaxeTransport

end Demo

end UvrrCore
